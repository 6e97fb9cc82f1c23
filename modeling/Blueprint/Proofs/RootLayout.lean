import Blueprint.Proofs.RootEntries

/-!
The tokens of a text whose first document is a mapping, part by part.
-/

namespace Blueprint.Yaml

/-- The tokens of a text around the entries of its root: `head` up to the token that opens the root,
`last` the comma that may stand before the end of the root, and `later` after it. -/
structure RootLayout where
  flow : Bool
  head : List TokenKind
  entries : List EntryTokens
  last : List TokenKind
  later : List TokenKind

namespace RootLayout

open Yaml.Parser (mappingCloser)

def opener (l : RootLayout) : TokenKind :=
  if l.flow then .flowMappingStart else .blockMappingStart

def tokens (l : RootLayout) : List TokenKind :=
  l.head ++ l.opener ::
    (l.entries.flatMap EntryTokens.tokens ++ (l.last ++ mappingCloser l.flow :: l.later))

/-- The tokens are those of a text whose root has the given entries. -/
structure Describes (l : RootLayout) (ks : List TokenKind)
    (entries : List (EventTree × EventTree)) : Prop where
  tokens : l.tokens = ks
  entries : l.entries.map (fun e => (e.key, e.value)) = entries
  head : ∃ r, l.head = .streamStart :: r ∧ ∀ k ∈ r, k.isFlat = true
  written : ∀ e ∈ l.entries, e.Written l.flow
  colons : l.entries.IsChain EntryTokens.HasColon
  starts : ∀ e ∈ l.entries.tail, e.Starts l.flow
  last : l.last = [] ∨ l.last = [.flowEntry]

end RootLayout

namespace Parser

variable {d : Dialect} {p p' q : Parser} {e : Event}

theorem readDirectives_reads {fuel : Nat} {versioned : Bool} {handles : List (String × Uri)}
    (h : p.readDirectives d fuel versioned handles = .ok q) :
    ∃ ks, p.kinds = ks ++ q.kinds ∧ q.pending = p.pending ∧ ∀ k ∈ ks, k.isOutside = true := by
  induction fuel generalizing p versioned handles with
  | zero =>
    cases h
    exact ⟨[], rfl, rfl, fun k hk => absurd hk List.not_mem_nil⟩
  | succ fuel ih =>
    rw [readDirectives] at h
    obtain ⟨⟨t, p₁⟩, hlook, h⟩ := bind_eq_ok.mp h
    obtain ⟨hkinds, hkinds₁, hpending⟩ := look_read hlook
    have hrest {versioned : Bool} {handles : List (String × Uri)}
        (hk : t.kind.isOutside = true)
        (h : p₁.drop.readDirectives d fuel versioned handles = .ok q) :
        ∃ ks, p.kinds = ks ++ q.kinds ∧ q.pending = p.pending ∧ ∀ k ∈ ks, k.isOutside = true := by
      obtain ⟨ks, hks, hpending', houtside⟩ := ih h
      refine ⟨t.kind :: ks, ?_, hpending'.trans hpending, ?_⟩
      · rw [hkinds, hks]
        rfl
      · intro k hmem
        rcases List.mem_cons.mp hmem with rfl | hmem
        · exact hk
        · exact houtside k hmem
    dsimp only at h
    split at h
    next hkind =>
      have hk : t.kind.isOutside = true := by rw [hkind]; rfl
      split at h
      · obtain ⟨_, hfail, _⟩ := bind_eq_ok.mp h
        cases hfail
      · split at h
        · obtain ⟨_, hfail, _⟩ := bind_eq_ok.mp h
          cases hfail
        · exact hrest hk h
    next hkind =>
      have hk : t.kind.isOutside = true := by rw [hkind]; rfl
      split at h
      · obtain ⟨_, hfail, _⟩ := bind_eq_ok.mp h
        cases hfail
      · exact hrest hk h
    · cases h
      exact ⟨[], hkinds₁.symm, hpending, fun k hk => absurd hk List.not_mem_nil⟩

theorem startDocument_reads (h : p.startDocument d = .ok q) :
    ∃ ks, p.kinds = ks ++ q.kinds ∧ q.pending = p.pending ∧ ∀ k ∈ ks, k.isOutside = true := by
  unfold startDocument at h
  obtain ⟨p₁, hread, h⟩ := bind_eq_ok.mp h
  obtain ⟨ks, hks, hpending, houtside⟩ := readDirectives_reads hread
  cases h
  exact ⟨ks, hks, hpending, houtside⟩

/-- The parser stands before the root of a document, behind some tokens. -/
def StandsBeforeRoot (p p' : Parser) : Prop :=
  ∃ ks, p.kinds = ks ++ p'.kinds ∧ (∀ k ∈ ks, k.isOutside = true) ∧
    p'.pending = [.documentEnd] ∧ (p'.expect = .documentContent ∨ p'.expect = .blockNode)

theorem explicitDocument_reads (hp : p.pending = []) (h : p.explicitDocument d = .ok (e, p')) :
    StandsBeforeRoot p p' := by
  unfold explicitDocument at h
  obtain ⟨p₁, hstart, h⟩ := bind_eq_ok.mp h
  obtain ⟨ks, hks, hpending, houtside⟩ := startDocument_reads hstart
  obtain ⟨⟨t, p₂⟩, hlook, h⟩ := bind_eq_ok.mp h
  obtain ⟨hkinds, _, hpending₂⟩ := look_read hlook
  dsimp only at h
  split at h
  next hkind =>
    cases h
    refine ⟨ks ++ [.documentStart], ?_, ?_, ?_, Or.inl rfl⟩
    · rw [hks, hkinds, hkind, List.append_assoc]
      rfl
    · intro k hk
      rcases List.mem_append.mp hk with hk | hk
      · exact houtside k hk
      · rw [List.mem_singleton.mp hk]
        rfl
    · exact congrArg (_ :: ·) ((hpending₂.trans hpending).trans hp)
  · cases h

theorem dropDocumentEnds_reads {fuel : Nat} (h : p.dropDocumentEnds fuel = .ok q) :
    ∃ ks, p.kinds = ks ++ q.kinds ∧ q.pending = p.pending ∧ ∀ k ∈ ks, k.isOutside = true := by
  induction fuel generalizing p with
  | zero =>
    cases h
    exact ⟨[], rfl, rfl, fun k hk => absurd hk List.not_mem_nil⟩
  | succ fuel ih =>
    rw [dropDocumentEnds] at h
    obtain ⟨⟨t, p₁⟩, hlook, h⟩ := bind_eq_ok.mp h
    obtain ⟨hkinds, hkinds₁, hpending⟩ := look_read hlook
    dsimp only at h
    split at h
    next hkind =>
      obtain ⟨ks, hks, hpending', houtside⟩ := ih h
      refine ⟨.documentEnd :: ks, by rw [hkinds, hkind, hks]; rfl, hpending'.trans hpending, ?_⟩
      intro k hmem
      rcases List.mem_cons.mp hmem with rfl | hmem
      · rfl
      · exact houtside k hmem
    · cases h
      exact ⟨[], hkinds₁.symm, hpending, fun k hk => absurd hk List.not_mem_nil⟩

theorem ends_read {implicit : Bool} {f : Parser → Step}
    (h : (do
      let p ← if implicit then pure p else p.dropDocumentEnds (p.tokens.length + 1)
      f p) = .ok (e, p')) :
    ∃ q ks, p.kinds = ks ++ q.kinds ∧ q.pending = p.pending ∧ (∀ k ∈ ks, k.isOutside = true) ∧
      f q = .ok (e, p') := by
  dsimp only at h
  split at h
  · exact ⟨p, [], rfl, rfl, fun k hk => absurd hk List.not_mem_nil, h⟩
  · obtain ⟨q, hends, h⟩ := bind_eq_ok.mp h
    obtain ⟨ks, hks, hpending, houtside⟩ := dropDocumentEnds_reads hends
    exact ⟨q, ks, hks, hpending, houtside, h⟩

/-- Between documents the parser comes to the end of the stream or to the root of a document. -/
theorem document_reads {implicit : Bool} (hp : p.pending = [])
    (h : p.document d implicit = .ok (e, p')) :
    (e.kind = .streamEnd ∧ p'.stack = [.nothing] ∧
      ∃ ks, p.kinds = ks ++ .streamEnd :: p'.kinds ∧ ∀ k ∈ ks, k.isOutside = true) ∨
      StandsBeforeRoot p p' := by
  unfold document at h
  obtain ⟨p₀, ks, hks, hpending, houtside, h⟩ := ends_read h
  obtain ⟨⟨t, p₁⟩, hlook, h⟩ := bind_eq_ok.mp h
  obtain ⟨hkinds, hkinds₁, hpending₁⟩ := look_read hlook
  have hp₁ : p₁.pending = [] := (hpending₁.trans hpending).trans hp
  have hbehind (h : StandsBeforeRoot p₁ p') : StandsBeforeRoot p p' := by
    obtain ⟨ks', hks', houtside', hroot⟩ := h
    refine ⟨ks ++ ks', ?_, fun k hk => ?_, hroot⟩
    · rw [hks, ← hkinds₁, hks', List.append_assoc]
    · exact (List.mem_append.mp hk).elim (houtside k) (houtside' k)
  have hexplicit (h : p₁.explicitDocument d = .ok (e, p')) : StandsBeforeRoot p p' :=
    hbehind (explicitDocument_reads hp₁ h)
  dsimp only at h
  split at h
  next hkind =>
    cases h
    refine Or.inl ⟨rfl, congrArg (_ :: ·) hp₁, ks, ?_, houtside⟩
    rw [hks, hkinds, hkind]
    rfl
  · exact Or.inr (hexplicit h)
  · exact Or.inr (hexplicit h)
  · exact Or.inr (hexplicit h)
  · split at h
    · obtain ⟨p₂, hstart, h⟩ := bind_eq_ok.mp h
      obtain ⟨ks', hks', hpending₂, houtside'⟩ := startDocument_reads hstart
      cases h
      exact Or.inr (hbehind ⟨ks', hks', houtside', congrArg (_ :: ·) (hpending₂.trans hp₁),
        Or.inr rfl⟩)
    · exact Or.inr (hexplicit h)

theorem open_reads {scan : Scan} (h : (ofScan scan).open? = .ok p) :
    scan.tokens.map (·.token.kind) = .streamStart :: p.kinds := by
  unfold open? at h
  obtain ⟨⟨t, p₁⟩, hlook, h⟩ := bind_eq_ok.mp h
  obtain ⟨hkinds, _, _⟩ := look_read hlook
  dsimp only at h
  split at h
  next hkind =>
    cases h
    rw [← hkind]
    exact hkinds
  · cases h

/-- A parser before the first document opens it in its first step. -/
theorem Ready.opens {scan : Scan} {es : List Event} (h : Ready scan p)
    (he : e.kind = .documentStart)
    (hrun : p.run d endsDocument (Event.eventLimit scan) = .ok (e :: es)) :
    ∃ q, p.document d true = .ok (e, q) ∧ Opened p q ∧
      q.run d endsDocument (6 * scan.tokens.length + 15) = .ok es := by
  rw [Event.eventLimit, Parser.run] at hrun
  obtain ⟨⟨first, q⟩, hstep, hrun⟩ := bind_eq_ok.mp hrun
  rw [step, h.expect] at hstep
  have hstep : p.document d true = .ok (first, q) := hstep
  dsimp only at hrun
  split at hrun
  next hends =>
    obtain ⟨rfl, _⟩ := List.cons.inj (Except.ok.inj hrun)
    rcases document_ok h.expect h.pending hstep with hkind | ⟨hkind, _⟩
    · rw [hkind] at he
      cases he
    · rw [hkind] at hends
      cases hends
  · obtain ⟨rest, hrest, hrun⟩ := bind_eq_ok.mp hrun
    obtain ⟨rfl, rfl⟩ := List.cons.inj (Except.ok.inj hrun)
    refine ⟨q, hstep, ((document_ok h.expect h.pending hstep).resolve_left ?_).2, hrest⟩
    rw [he]
    exact EventKind.noConfusion

/-- The root of a document is read at the first token of its content. -/
theorem root_begins (hpending : p.pending = [.documentEnd])
    (hp : p.expect = .documentContent ∨ p.expect = .blockNode)
    (h : p.step d = .ok (e, p')) (he : e.kind.opens? = some [.key]) :
    ∃ ks fs, Begun false p e.kind ks fs p' := by
  rcases hp with hp | hp
  · rw [step, hp] at h
    dsimp only at h
    unfold documentContent at h
    obtain ⟨⟨t, p₁⟩, hlook, h⟩ := bind_eq_ok.mp h
    obtain ⟨_, hkinds, hpending₁⟩ := look_read hlook
    have hempty (h : emitEmpty d t.mark p₁.back = .ok (e, p')) :
        ∃ ks fs, Begun false p e.kind ks fs p' := by
      cases h
      cases he
    dsimp only at h
    split at h
    · exact hempty h
    · exact hempty h
    · exact hempty h
    · exact hempty h
    · exact hempty h
    · obtain ⟨ks, fs, hbegun⟩ := node_begins (hpending₁.trans hpending) rfl h
      refine ⟨ks, fs, hbegun.begins, hkinds.symm.trans hbegun.left, ?_, hbegun.list, hbegun.behind⟩
      rw [← hpending₁]
      exact hbegun.stack
  · rw [step, hp] at h
    exact node_begins hpending rfl h

end Parser

/-- A mapping begins with the token that opens it, behind its anchor and tag. -/
theorem Begins.of_mapping {ks : List TokenKind} {k : EventKind} {fs : List Expect}
    (h : Begins ks k fs) (hk : k.opens? = some [.key]) :
    ∃ ps flow, (∀ k ∈ ps, k.isProperty = true) ∧
      ks = ps ++ [if flow then .flowMappingStart else .blockMappingStart] ∧
      fs = [.mappingKey flow true] := by
  cases h with
  | @mapping ps anchor tag hps flow => exact ⟨ps, flow, hps.kinds, rfl, rfl⟩
  | _ => cases hk

/-- Every text whose first document is a mapping has a layout, unless a closing bracket follows the
mark of a key. -/
theorem RootLayout.exists_describes {scan : Scan} {events : List Event} {start stop : Event}
    {opens : start.kind.opens? = some [.key]} {entries : List (EventTree × EventTree)}
    {closes : stop.kind = .mappingEnd} (h : Event.ofFirstDocument .document scan = .ok events)
    (hroot : (EventTree.mapping start opens entries stop closes).IsDocument events)
    (hkeys : (scan.tokens.map (·.token.kind)).IsChain Parser.KeyHolds) :
    ∃ l : RootLayout, l.Describes (scan.tokens.map (·.token.kind)) entries := by
  unfold Event.ofFirstDocument at h
  obtain ⟨p, hopen, h⟩ := bind_eq_ok.mp h
  have hready := Parser.open_ready hopen
  have hscan := Parser.open_reads hopen
  obtain ⟨first, last, rfl, hfirst, hlast⟩ := hroot
  obtain ⟨q, hdocument, hopened, hrest⟩ := hready.opens hfirst h
  have hnotEnd : first.kind ≠ .streamEnd := by
    rw [hfirst]
    exact EventKind.noConfusion
  obtain ⟨ks, hks, hbefore, hpending, hexpect⟩ :=
    (Parser.document_reads hready.pending hdocument).resolve_left fun hend => hnotEnd hend.1
  have hfresh : q.expect.isFresh = false ∧ q.expect.isBehindKey = false ∧
      q.expect ≠ .documentEnd := by
    rcases hexpect with hexpect | hexpect <;> rw [hexpect] <;>
      exact ⟨rfl, rfl, Expect.noConfusion⟩
  have hleft : q.left = q.kinds := Parser.left_of_not_fresh hfresh.1
  have hlive : Parser.Live q
      ((EventTree.mapping start opens entries stop closes).events ++ [last]) := by
    refine ⟨hopened.tidy, by rw [hopened.slots]; rfl, ⟨_, ?_, hrest⟩, ?_⟩
    · have := hready.work_lt
      have := hopened.less
      omega
    · rw [show q.ahead = q.left by rw [Parser.ahead, hfresh.2.1]; rfl, hleft]
      refine hkeys.suffix ⟨.streamStart :: ks, ?_⟩
      rw [hscan, hks]
      rfl
  obtain ⟨e, p₁, later, hevents, hstep, _, hlive₁⟩ := hlive.next hfresh.2.2
  obtain ⟨rfl, hlater⟩ := List.cons.inj hevents
  obtain ⟨ns, fs, hbegun⟩ := Parser.root_begins hpending hexpect hstep opens
  have hlive₁ := hlive₁ (Parser.ahead_suffix (hleft.trans hbegun.left) hbegun.behind)
  obtain ⟨ps, flow, hprops, rfl, rfl⟩ := hbegun.begins.of_mapping opens
  have hstack := hbegun.stack
  rw [hpending] at hstack
  obtain ⟨parts, comma, stop', after, p₂, rfl, hstop, _, _, hread, hcomma, hwritten, hcolons,
      hstarts, _⟩ :=
    hlive₁.reads_entries rfl hstack (by simp [Expect.resumes, Expect.isFresh, Expect.isBehindKey])
  refine ⟨⟨flow, .streamStart :: (ks ++ ps), parts, comma, p₂.left⟩, ?_, ?_, ?_, hwritten, hcolons,
    hstarts, hcomma⟩
  · rw [hscan, hks, hbegun.left, hread]
    simp only [RootLayout.tokens, RootLayout.opener, List.append_assoc, List.cons_append,
      List.nil_append]
  · have hends : EventTree.startsNode stop = false ∧ EventTree.startsNode stop' = false := by
      rw [EventTree.startsNode, EventTree.startsNode, closes, hstop]
      exact ⟨rfl, rfl⟩
    have hlater : EventTree.entryEvents entries ++ stop :: [last] =
        EventTree.entryEvents (parts.map fun e => (e.key, e.value)) ++ stop' :: after := by
      rw [← hlater]
      exact (List.append_assoc _ [stop] [last]).symm
    exact (EventTree.entryEvents_inj entries _ hends.1 hends.2 hlater).1.symm
  · refine ⟨ks ++ ps, rfl, fun k hk => ?_⟩
    rcases List.mem_append.mp hk with hk | hk
    · exact TokenKind.isFlat_of_isOutside (hbefore k hk)
    · exact TokenKind.isFlat_of_isProperty (hprops k hk)

end Blueprint.Yaml
