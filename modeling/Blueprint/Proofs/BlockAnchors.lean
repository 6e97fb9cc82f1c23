import Blueprint.Proofs.BlockContext

/-!
The start of a block mapping is placed at its first key. The token before it ends before the key,
whatever stands between the key and its colon.
-/

namespace Blueprint.Yaml

namespace Scanner

variable {text : List Char} {s s' u : Scanner} {rs : List Reading} {n a b : Nat} {t : Token}

/-- A token whose text is told by the token itself is put at the end. -/
theorem Grounded.push (h : u.Grounded text)
    (hlast : ∀ t ∈ u.queue.getLast?, t.kind ≠ .blockMappingStart)
    (hqueue : s'.queue = u.queue ++ [t]) (hlevels : s'.keys.length = s'.flow + 1)
    (hindent : s'.indent = u.indent) (hindents : s'.indents = u.indents)
    (hkey : ∀ k ∈ blockKey? s'.keys, k ∈ blockKey? u.keys) : s'.Grounded text :=
  h.append hlast hqueue (.of_length_le (by simp)) (fun _ _ _ heq => nomatch heq) hlevels
    (by rw [hindent, hindents]) fun k hk => ⟨hkey k hk, hindent⟩

theorem Guarded.of_isSettled (h : s'.Grounded text) (hhere : s'.here = placeAt text b)
    (hb : b ≤ text.length) (hlast : s'.queue.getLast? = some t) (ht : t.kind.isSettled = true) :
    s'.Guarded text b := by
  refine ⟨h, hhere, hb, fun _ => Or.inr fun v hv => Or.inl (.of_isSettled ?_)⟩
  rwa [← Option.mem_unique hlast hv]

theorem Guarded.push (h : u.Grounded text)
    (hlast : ∀ t ∈ u.queue.getLast?, t.kind ≠ .blockMappingStart) (ht : t.kind.isSettled = true)
    (hhere : s'.here = placeAt text b) (hb : b ≤ text.length) (hqueue : s'.queue = u.queue ++ [t])
    (hlevels : s'.keys.length = s'.flow + 1) (hindent : s'.indent = u.indent)
    (hindents : s'.indents = u.indents) (hkey : ∀ k ∈ blockKey? s'.keys, k ∈ blockKey? u.keys) :
    s'.Guarded text b :=
  .of_isSettled (h.push hlast hqueue hlevels hindent hindents hkey) hhere hb
    (by rw [hqueue, List.getLast?_concat]) ht

/-- Blocks end, and the key that might have been recognized is given up. -/
theorem Grounded.clear {column : Int} (h : s.Grounded text)
    (hlast : ∀ t ∈ s.queue.getLast?, t.kind ≠ .blockMappingStart)
    (hu : (s.closeBlocks column).dropKey = .ok u) : u.Grounded text ∧
      (∀ t ∈ u.queue.getLast?, t.kind ≠ .blockMappingStart) ∧ u.here = s.here := by
  have hfloor := closeBlocks_floor s column
  have hstays (hflow : 0 < s.flow) : (s.closeBlocks column).indent = s.indent := by
    rw [closeBlocks_of_le (Or.inl hflow)]
  obtain ⟨ends, ind, ins, hclose, hends, -⟩ := s.closeBlocks_ends column
  rw [hclose] at hu hfloor hstays
  obtain ⟨hlength, hblock⟩ := dropKey_blockKey? hu
  obtain ⟨ks, rfl, -⟩ := dropKey_ok hu
  have hnot (v : Token) (hv : v ∈ ends) : v.kind ≠ .blockMappingStart := by
    rw [hends v hv]
    exact TokenKind.noConfusion
  refine ⟨h.appendEnds hlast hnot rfl (hlength.trans h.levels) hfloor ?_, ?_, rfl⟩
  · intro k hk
    obtain ⟨hk, hmany⟩ := hblock k hk
    dsimp only at hk hmany
    rw [h.levels] at hmany
    exact ⟨hk, hstays (by omega)⟩
  · intro v hv
    rw [List.getLast?_append] at hv
    rcases Option.or_eq_some_iff.mp hv with hv | ⟨-, hv⟩
    · exact hnot v (List.mem_of_mem_getLast? hv)
    · exact hlast v hv

theorem Poised.fetchDirective (h : s.Poised text a) (hend : isEnd (charAt text a) = false)
    (hs : s.fetchDirective .document = .ok s') : ∃ b, s'.Guarded text b := by
  unfold Scanner.fetchDirective at hs
  obtain ⟨u, hu, hs⟩ := bind_eq_ok.mp hs
  obtain ⟨hgrounded, hlast, hhere⟩ := h.grounded.clear h.last hu
  obtain ⟨⟨kind, stop⟩, hread, hs⟩ := bind_eq_ok.mp hs
  cases hs
  have hsettled : kind.isSettled = true := by
    have hkind := readDirective_isDirective hread
    cases kind <;> first | rfl | cases hkind
  have hline := readDirective_endsLine hread
  rw [hhere, h.here, placeAt_advance] at hline
  obtain ⟨b, hb, hstop⟩ := placeAt_endsLine_within (lt_length_of_charAt hend) hline
  exact ⟨b, .push hgrounded hlast hsettled hstop hb rfl hgrounded.levels rfl rfl fun _ hk => hk⟩

theorem Poised.fetchIndicator {kind : TokenKind} (h : s.Poised text a)
    (hmark : isEnd (charAt text (a + 2)) = false) (hkind : kind.isSettled = true)
    (hs : s.fetchIndicator .document kind = .ok s') : ∃ b, s'.Guarded text b := by
  unfold Scanner.fetchIndicator at hs
  obtain ⟨u, hu, hs⟩ := bind_eq_ok.mp hs
  obtain ⟨hgrounded, hlast, hhere⟩ := h.grounded.clear h.last hu
  cases hs
  have hstop : u.here.skip .document 3 = placeAt text (a + 3) := by
    rw [hhere, h.here, placeAt_skip]
  exact ⟨a + 3, .push hgrounded hlast hkind hstop (lt_length_of_charAt hmark) rfl hgrounded.levels
    rfl rfl fun _ hk => hk⟩

/-- A token of one character that is no key. -/
theorem Poised.character {kind : TokenKind} (h : s.Poised text a)
    (hend : isEnd (charAt text a) = false) (hkind : kind.isSettled = true)
    (hu : s.dropKey = .ok u) (hqueue : s'.queue = s.queue ++ [⟨kind, s.mark⟩])
    (hhere : s'.here = s.here.advance .document) (hlevels : s'.keys.length = s'.flow + 1)
    (hindent : s'.indent = s.indent) (hindents : s'.indents = s.indents)
    (hkey : ∀ k ∈ blockKey? s'.keys, k ∈ blockKey? u.keys) : ∃ b, s'.Guarded text b := by
  have hblock := (dropKey_blockKey? hu).2
  refine ⟨a + 1, .push h.grounded h.last hkind ?_ (lt_length_of_charAt hend) hqueue hlevels hindent
    hindents fun k hk => (hblock k (hkey k hk)).1⟩
  rw [hhere, h.here, placeAt_advance]

theorem Poised.fetchFlowEnd {kind : TokenKind} (h : s.Poised text a)
    (hend : isEnd (charAt text a) = false) (hkind : kind.isSettled = true)
    (hs : s.fetchFlowEnd .document kind = .ok s') : ∃ b, s'.Guarded text b := by
  unfold Scanner.fetchFlowEnd at hs
  obtain ⟨u, hu, hs⟩ := bind_eq_ok.mp hs
  have hlength := (dropKey_blockKey? hu).1.trans h.grounded.levels
  obtain ⟨ks, rfl, -⟩ := dropKey_ok hu
  cases hs
  dsimp only at hlength
  refine h.character hend hkind hu rfl rfl ?_ rfl rfl ?_
  · dsimp only
    split
    · rw [List.length_drop]
      omega
    · omega
  · dsimp only
    split
    · cases ks with
      | nil => exact fun _ hk => hk
      | cons k r =>
        have hne : r ≠ [] := by
          rintro rfl
          simp only [List.length_singleton] at hlength
          omega
        rw [blockKey?_cons hne]
        exact fun _ hk => hk
    · exact fun _ hk => hk

theorem Poised.fetchFlowEntry (h : s.Poised text a) (hend : isEnd (charAt text a) = false)
    (hs : s.fetchFlowEntry .document = .ok s') : ∃ b, s'.Guarded text b := by
  unfold Scanner.fetchFlowEntry at hs
  obtain ⟨u, hu, hs⟩ := bind_eq_ok.mp hs
  have hlength := (dropKey_blockKey? hu).1.trans h.grounded.levels
  obtain ⟨ks, rfl, -⟩ := dropKey_ok hu
  cases hs
  exact h.character hend rfl hu rfl rfl hlength rfl rfl fun _ hk => hk

theorem openBlock_keys (s : Scanner) (column : Nat) (number : Option Nat) (kind : TokenKind)
    (m : Mark) : (s.openBlock column number kind m).keys = s.keys ∧
      (s.openBlock column number kind m).flow = s.flow := by
  unfold openBlock
  split
  · exact ⟨rfl, rfl⟩
  · cases number <;> exact ⟨rfl, rfl⟩

/-- A block may be opened at the place reached, by the token that is read there. -/
theorem Grounded.openBlock {start kind : TokenKind} {column : Nat} (h : s.Grounded text)
    (hlast : ∀ t ∈ s.queue.getLast?, t.kind ≠ .blockMappingStart)
    (hqueue : s'.queue = (s.openBlock column none start s.mark).queue ++ [⟨kind, s.mark⟩])
    (hlevels : s'.keys.length = s'.flow + 1)
    (hindent : s'.indent = (s.openBlock column none start s.mark).indent)
    (hindents : s'.indents = (s.openBlock column none start s.mark).indents)
    (hkey : ∀ k ∈ blockKey? s'.keys, k ∈ blockKey? s.keys ∧ 0 < s.flow) : s'.Grounded text := by
  unfold Scanner.openBlock at hqueue hindent hindents
  split at hqueue
  next hsame =>
    rw [if_pos hsame] at hindent hindents
    exact h.push hlast hqueue hlevels hindent hindents fun k hk => (hkey k hk).1
  next hopen =>
    rw [if_neg hopen] at hindent hindents
    have hqueue : s'.queue = s.queue ++ [⟨start, s.mark⟩, ⟨kind, s.mark⟩] := by
      rw [hqueue]
      simp [Scanner.push]
    refine h.append hlast hqueue (.of_length_le (by simp)) ?_ hlevels ?_ ?_
    · intro b u r heq _ _
      cases heq
      rfl
    · rw [hindent, hindents]
      exact List.getLast?_cons_cons
    · exact fun k hk => absurd (Or.inl (hkey k hk).2) hopen

/-- A token that is no key, and opens a block unless one is open at its column. -/
theorem Poised.opening {start kind : TokenKind} {column : Nat} (h : s.Poised text a)
    (hend : isEnd (charAt text a) = false) (hkind : kind.isSettled = true)
    (hu : (s.openBlock column none start s.mark).dropKey = .ok u)
    (hqueue : s'.queue = u.queue ++ [⟨kind, u.mark⟩])
    (hhere : s'.here = u.here.advance .document) (hkeys : s'.keys = u.keys)
    (hflow : s'.flow = u.flow) (hindent : s'.indent = u.indent) (hindents : s'.indents = u.indents) :
    ∃ b, s'.Guarded text b := by
  obtain ⟨hlength, hblock⟩ := dropKey_blockKey? hu
  obtain ⟨hkeysame, hflowsame⟩ := openBlock_keys s column none start s.mark
  have hplace := (openBlock_frame s column none start s.mark).1
  obtain ⟨ks, rfl, -⟩ := dropKey_ok hu
  have hmark : (s.openBlock column none start s.mark).mark = s.mark := by rw [mark, hplace, mark]
  rw [hkeysame] at hlength hblock
  have hqueue : s'.queue = (s.openBlock column none start s.mark).queue ++ [⟨kind, s.mark⟩] :=
    hqueue.trans (congrArg (fun m => _ ++ [Token.mk kind m]) hmark)
  refine ⟨a + 1, .of_isSettled (t := ⟨kind, s.mark⟩) ?_ ?_ (lt_length_of_charAt hend) ?_ hkind⟩
  · refine h.grounded.openBlock h.last hqueue ?_ hindent hindents ?_
    · rw [hkeys, hflow]
      exact hlength.trans (h.grounded.levels.trans (congrArg (· + 1) hflowsame.symm))
    · intro k hk
      obtain ⟨hk, hmany⟩ := hblock k (hkeys ▸ hk)
      rw [h.grounded.levels] at hmany
      exact ⟨hk, by omega⟩
  · rw [hhere]
    show (s.openBlock column none start s.mark).here.advance .document = _
    rw [hplace, h.here, placeAt_advance]
  · rw [hqueue, List.getLast?_concat]

theorem Poised.fetchBlockEntry (h : s.Poised text a) (hend : isEnd (charAt text a) = false)
    (hs : s.fetchBlockEntry .document = .ok s') : ∃ b, s'.Guarded text b := by
  unfold Scanner.fetchBlockEntry at hs
  dsimp only at hs
  split at hs
  · obtain ⟨_, hfail, _⟩ := bind_eq_ok.mp hs
    cases hfail
  · split at hs
    · obtain ⟨_, hfail, _⟩ := bind_eq_ok.mp hs
      cases hfail
    · obtain ⟨u, hu, hs⟩ := bind_eq_ok.mp hs
      cases hs
      exact h.opening hend rfl hu rfl rfl rfl rfl rfl rfl

theorem Poised.fetchKey (h : s.Poised text a) (hend : isEnd (charAt text a) = false)
    (hs : s.fetchKey .document = .ok s') : ∃ b, s'.Guarded text b := by
  unfold Scanner.fetchKey at hs
  dsimp only at hs
  split at hs
  · obtain ⟨_, hfail, _⟩ := bind_eq_ok.mp hs
    cases hfail
  · obtain ⟨u, hu, hs⟩ := bind_eq_ok.mp hs
    cases hs
    exact h.opening hend rfl hu rfl rfl rfl rfl rfl rfl

/-- A key may start where a token is read that is no mark of a document and no colon. -/
structure Startable (text : List Char) (a : Nat) (s : Scanner) : Prop where
  column : s.flow = 0 → s.indent ≤ (placeAt text a).mark.column
  unended : isEnd (charAt text a) = false
  unmarked : (placeAt text a).atIndicator .document = false
  colon : s.flow = 0 → charAt text a = ':' → Dialect.document.isGap (charAt text (a + 1)) = false

theorem Poised.saveKey (h : s.Poised text a) (hstart : s.Startable text a)
    (hu : s.saveKey .document = .ok u) : u.Grounded text ∧ ∃ ks, u = { s with keys := ks } := by
  unfold Scanner.saveKey at hu
  dsimp only at hu
  split at hu
  · cases hu
    exact ⟨h.grounded, s.keys, rfl⟩
  next hallowed =>
    have hallowed : s.keyAllowed = true := by
      rwa [Bool.not_eq_true', Bool.not_eq_false] at hallowed
    obtain ⟨t, ht, hu⟩ := bind_eq_ok.mp hu
    obtain ⟨hlength, hblock⟩ := dropKey_blockKey? ht
    obtain ⟨ks, rfl, -⟩ := dropKey_ok ht
    cases hu
    dsimp only at hlength hblock
    have hlevels := hlength.trans h.grounded.levels
    obtain ⟨j, r, rfl⟩ := List.exists_cons_of_length_eq_add_one hlevels
    refine ⟨⟨hlevels, h.grounded.floor, fun k hk => ?_, h.grounded.starts⟩, _, rfl⟩
    rw [List.drop_one, List.tail_cons] at hk
    by_cases hnil : r = []
    · subst hnil
      have hflow : s.flow = 0 := (Nat.succ.inj hlevels).symm
      obtain ⟨hlast, -⟩ := mem_blockKey?.mp hk
      cases hlast
      have hmark : s.mark = (placeAt text a).mark := by rw [mark, h.here]
      have htaken : s.taken = 0 := h.inOrder.taken
      refine ⟨?_, ?_, ?_⟩
      · show s.taken + s.queue.length ≤ s.queue.length
        omega
      · show s.indent ≤ s.mark.column
        rw [hmark]
        exact hstart.column hflow
      · show s.indent < s.mark.column → ∀ t ∈ (s.queue.take (s.taken + s.queue.length)).getLast?,
          t.Leaves text s.mark.index
        rw [htaken, Nat.zero_add, List.take_length, hmark, placeAt_index]
        intro hdeep
        refine (h.leaves hflow hallowed).resolve_left fun hfree => ?_
        cases hfree with
        | finish hend =>
          rw [hstart.unended] at hend
          cases hend
        | indicator hind =>
          rw [hstart.unmarked] at hind
          cases hind
        | colon hcolon hgap =>
          rw [hstart.colon hflow hcolon] at hgap
          cases hgap
        | shallow _ _ hcolumn => exact absurd hdeep (Int.not_lt.mpr hcolumn)
    · rw [blockKey?_cons hnil] at hk
      refine h.grounded.key k (hblock k ?_).1
      rwa [blockKey?_cons hnil]

theorem Poised.fetchFlowStart {kind : TokenKind} (h : s.Poised text a)
    (hstart : s.Startable text a) (hkind : kind.isSettled = true)
    (hs : s.fetchFlowStart .document kind = .ok s') : ∃ b, s'.Guarded text b := by
  unfold Scanner.fetchFlowStart at hs
  obtain ⟨u, hu, hs⟩ := bind_eq_ok.mp hs
  obtain ⟨hgrounded, ks, rfl⟩ := h.saveKey hstart hu
  dsimp only at hs
  split at hs
  · obtain ⟨_, hfail, _⟩ := bind_eq_ok.mp hs
    cases hfail
  · cases hs
    have hne : ks ≠ [] := List.ne_nil_of_length_eq_add_one hgrounded.levels
    have hstop : s.here.advance .document = placeAt text (a + 1) := by rw [h.here, placeAt_advance]
    refine ⟨a + 1, .push hgrounded h.last hkind hstop (lt_length_of_charAt hstart.unended) rfl
      (congrArg (· + 1) hgrounded.levels) rfl rfl fun k hk => ?_⟩
    rwa [show blockKey? (SimpleKey.none :: ks) = blockKey? ks from blockKey?_cons hne] at hk

/-- A name is read to the end of its word. -/
theorem Guarded.of_name {kind : TokenKind} (h : u.Grounded text)
    (hlast : ∀ t ∈ u.queue.getLast?, t.kind ≠ .blockMappingStart) (hhere : u.here = placeAt text a)
    (hkind : kind.isName = true) (hend : isEnd (charAt text a) = false) {stop : Cursor}
    (hword : (placeAt text (a + 1)).Passes .document (inYamlWord .document) stop) :
    ∃ b, ({ u.push kind u.mark with here := stop, keyAllowed := false } : Scanner).Guarded text b := by
  obtain ⟨b, hab, hb, rfl, -⟩ := placeAt_passes_within rfl (lt_length_of_charAt hend) hword
  refine ⟨b, h.push hlast rfl h.levels rfl rfl (fun _ hk => hk), rfl, hb, fun _ => Or.inr ?_⟩
  intro t ht
  cases List.getLast?_concat.symm.trans ht
  refine Or.inr ⟨hkind, rfl, ?_⟩
  show u.mark.index < b
  rw [mark, hhere, placeAt_index]
  exact hab

theorem Poised.fetchAnchor {kind : String → TokenKind} (h : s.Poised text a)
    (hstart : s.Startable text a) (hkind : ∀ name, (kind name).isName = true)
    (hs : s.fetchAnchor .document kind = .ok s') : ∃ b, s'.Guarded text b := by
  unfold Scanner.fetchAnchor at hs
  obtain ⟨u, hu, hs⟩ := bind_eq_ok.mp hs
  obtain ⟨hgrounded, ks, rfl⟩ := h.saveKey hstart hu
  obtain ⟨⟨name, stop⟩, hread, hs⟩ := bind_eq_ok.mp hs
  cases hs
  have hpasses := readAnchor_passes hread
  dsimp only at hpasses
  rw [h.here, placeAt_advance] at hpasses
  exact Guarded.of_name hgrounded h.last h.here (hkind name) hstart.unended hpasses

theorem Poised.fetchTag (h : s.Poised text a) (hstart : s.Startable text a)
    (hs : s.fetchTag .document = .ok s') : ∃ b, s'.Guarded text b := by
  unfold Scanner.fetchTag at hs
  obtain ⟨u, hu, hs⟩ := bind_eq_ok.mp hs
  obtain ⟨hgrounded, ks, rfl⟩ := h.saveKey hstart hu
  obtain ⟨⟨tag, stop⟩, hread, hs⟩ := bind_eq_ok.mp hs
  cases hs
  have hpasses := readTag_passes hread
  dsimp only at hpasses
  rw [h.here, placeAt_advance] at hpasses
  exact Guarded.of_name hgrounded h.last h.here rfl hstart.unended hpasses

theorem Poised.fetchQuoted {single : Bool} (h : s.Poised text a) (hstart : s.Startable text a)
    (hs : s.fetchQuoted .document single = .ok s') : ∃ b, s'.Guarded text b := by
  unfold Scanner.fetchQuoted at hs
  obtain ⟨u, hu, hs⟩ := bind_eq_ok.mp hs
  obtain ⟨hgrounded, ks, rfl⟩ := h.saveKey hstart hu
  obtain ⟨r, hread, hs⟩ := bind_eq_ok.mp hs
  cases hs
  dsimp only at hread
  rw [h.here] at hread
  obtain ⟨-, -, hstop⟩ := readQuoted_stop hread
  have hlt := lt_length_of_charAt hstart.unended
  have hle := quotedStop_le single (a + 1) (text.drop (a + 1))
  rw [List.length_drop] at hle
  refine ⟨_, .push hgrounded h.last ?_ hstop (by omega) rfl hgrounded.levels rfl rfl fun _ hk => hk⟩
  cases single <;> rfl

theorem Poised.fetchPlain (h : s.Poised text a) (hstart : s.Startable text a)
    (hs : s.fetchPlain .document = .ok s') : ∃ b, s'.Guarded text b := by
  unfold Scanner.fetchPlain at hs
  obtain ⟨u, hu, hs⟩ := bind_eq_ok.mp hs
  obtain ⟨hgrounded, ks, rfl⟩ := h.saveKey hstart hu
  obtain ⟨r, hread, hs⟩ := bind_eq_ok.mp hs
  cases hs
  dsimp only at hread
  rw [h.here] at hread
  have hplace : r.start = (placeAt text a).mark := (plainFrom_reaches hread).1
  obtain ⟨b, hab, hb, hstop, hends⟩ := readPlain_stops h.within h.hash hread
  refine ⟨b, hgrounded.push h.last rfl hgrounded.levels rfl rfl (fun _ hk => hk), hstop, hb, ?_⟩
  intro hflow
  have hflow : s.flow = 0 := hflow
  refine (hends (by rw [hflow]; rfl)).symm.imp id fun hcomment t ht => Or.inl ?_
  cases List.getLast?_concat.symm.trans ht
  refine ⟨nofun, fun _ => ⟨b, ?_, le_rfl, hcomment⟩, nofun⟩
  show r.start.index < b
  rw [hplace, placeAt_index]
  refine Nat.lt_of_le_of_ne hab ?_
  rintro rfl
  exact h.hash hcomment.1

theorem Poised.fetchBlockScalar {literal : Bool} (h : s.Poised text a)
    (hstart : s.Startable text a) (hs : s.fetchBlockScalar .document literal = .ok s') :
    ∃ b, s'.Guarded text b := by
  unfold Scanner.fetchBlockScalar at hs
  obtain ⟨u, hu, hs⟩ := bind_eq_ok.mp hs
  obtain ⟨hgrounded, ks, rfl⟩ := h.saveKey hstart hu
  obtain ⟨r, hread, hs⟩ := bind_eq_ok.mp hs
  cases hs
  dsimp only at hread
  rw [h.here] at hread
  obtain ⟨c, b, hac, hcb, hb, hplace, hstop, hends, -⟩ := readBlock_stops hstart.unended hread
  refine ⟨b, hgrounded.push h.last rfl hgrounded.levels rfl rfl (fun _ hk => hk), hstop, hb, ?_⟩
  refine fun _ => hends.imp .finish fun ⟨hbefore, hlines⟩ t ht => Or.inl ?_
  cases List.getLast?_concat.symm.trans ht
  refine ⟨nofun, fun hplain => ?_, fun _ => ?_⟩
  · cases literal <;> cases hplain
  · have hindex : r.start.index = c := by rw [hplace, placeAt_index]
    show inGap .document (charAt text (r.start.index - 1)) = true ∧
      (Lexeme.opensBlockText (some (charAt text r.start.index)) = true → b = r.start.index ∨
        ∃ i, r.start.index < i ∧ i < b ∧ inGap .document (charAt text i) = true)
    rw [hindex]
    refine ⟨hbefore, fun hopens => hlines.imp_right fun ⟨i, hci, hib, hbreak⟩ => ⟨i, ?_, hib, ?_⟩⟩
    · refine Nat.lt_of_le_of_ne hci ?_
      rintro rfl
      generalize charAt text c = x at hopens hbreak
      simp only [Lexeme.opensBlockText, Bool.or_eq_true, beq_iff_eq, Option.some.injEq] at hopens
      rcases hopens with rfl | rfl <;> cases hbreak
    · rw [inGap, hbreak, Bool.or_true]

/-- Tokens put in behind the start of a key leave the key where it is. -/
theorem KeyApart.insert {ts back : List Token} {indent : Int} {k j : SimpleKey}
    (h : KeyApart text ts indent j) (hjk : j.token ≤ k.token) (hk : k.token ≤ ts.length) :
    KeyApart text (ts.take k.token ++ back) indent j where
  counted := by
    rw [List.length_append, List.length_take]
    omega
  column := h.column
  leaves := by
    rw [List.take_append_of_le_length (by rw [List.length_take]; omega), List.take_take,
      Nat.min_eq_left hjk]
    exact h.leaves

/-- When a key is recognized, the key of the block context is the same, or it was the one recognized. -/
theorem Poised.blockKey?_recognized {k j : SimpleKey} {r : List SimpleKey} (h : s.Poised text a)
    (hkeys : s.keys = k :: r) (hpossible : k.possible = true)
    (hj : j ∈ blockKey? ({ k with possible := false } :: r)) :
    0 < s.flow ∧ j ∈ blockKey? s.keys ∧ j.token ≤ k.token := by
  cases r with
  | nil =>
    obtain ⟨hlast, hnot⟩ := mem_blockKey?.mp hj
    cases hlast
    cases hnot
  | cons i r =>
    have hne := List.cons_ne_nil i r
    rw [blockKey?_cons hne] at hj
    have hlevels := h.grounded.levels
    have hnested := h.inOrder.tokens.nested
    rw [hkeys, List.length_cons, List.length_cons] at hlevels
    rw [openKeys, hkeys, List.filter_cons, if_pos hpossible] at hnested
    obtain ⟨hlast, hopen⟩ := mem_blockKey?.mp hj
    refine ⟨by omega, by rwa [hkeys, blockKey?_cons hne], ?_⟩
    exact ((List.pairwise_cons.mp hnested).1 j
      (List.mem_filter.mpr ⟨List.mem_of_mem_getLast? hlast, hopen⟩)).1

/-- A key is recognized: it is put in at its place, with the start of a block mapping before it if it
is deeper than its block. -/
theorem Poised.recognize {k : SimpleKey} {r : List SimpleKey} (h : s.Poised text a)
    (hkeys : s.keys = k :: r) (hpossible : k.possible = true)
    (hu : u = (s.insertAt k.token .key k.mark).openBlock k.mark.column (some k.token)
      .blockMappingStart s.mark) (hqueue : s'.queue = u.queue)
    (hkept : s'.keys = { k with possible := false } :: r) (hflow : s'.flow = u.flow)
    (hindent : s'.indent = u.indent) (hindents : s'.indents = u.indents) :
    s'.Grounded text ∧ ∀ t ∈ s'.queue.getLast?, t.kind ≠ .blockMappingStart := by
  have hmem : k ∈ s.openKeys := by
    rw [openKeys, hkeys, List.filter_cons, if_pos hpossible]
    exact List.mem_cons_self
  have hcounted : k.token ≤ s.queue.length := (h.inOrder.tokens.fits k hmem).counted
  have hframe : u.flow = s.flow := by rw [hu, (openBlock_keys _ _ _ _ _).2]; rfl
  obtain ⟨starts, hinserted, hcases⟩ :=
    recognized_queue h.inOrder.taken hcounted k.mark.column s.mark hu
  have hkey {j : SimpleKey} (hj : j ∈ blockKey? s'.keys) :=
    h.blockKey?_recognized hkeys hpossible (hkept ▸ hj)
  rw [hinserted] at hqueue
  rw [hqueue]
  refine ⟨⟨?_, ?_, fun j hj => ?_, ?_⟩, insertKey_last h.last⟩
  · rw [hkept, hflow, hframe, ← h.grounded.levels, hkeys]
    rfl
  · rw [hindent, hindents]
    rcases hcases with ⟨-, hsame, hsames⟩ | ⟨-, -, -, hmore⟩
    · rw [hsame, hsames, h.grounded.floor]
    · rw [hmore, List.getLast?_cons_cons, h.grounded.floor]
  · obtain ⟨hin, hblock, hle⟩ := hkey hj
    rcases hcases with ⟨-, hsame, -⟩ | ⟨-, hout, -⟩
    · rw [hqueue, hindent, hsame]
      exact (h.grounded.key j hblock).insert hle hcounted
    · omega
  · rw [hqueue]
    refine h.grounded.starts.insert (h.apart k hmem) ?_
    rcases hcases with ⟨rfl, -⟩ | ⟨rfl, hout, hdeep, -⟩
    · exact Or.inl rfl
    · have hr := h.grounded.keys_eq hkeys hout
      have hblock : k ∈ blockKey? s.keys := mem_blockKey?.mpr ⟨by rw [hkeys, hr]; rfl, hpossible⟩
      exact Or.inr ⟨_, rfl, (h.grounded.key k hblock).leaves hdeep⟩

theorem Poised.fetchValue (h : s.Poised text a) (hend : isEnd (charAt text a) = false)
    (hs : s.fetchValue .document = .ok s') : ∃ b, s'.Guarded text b := by
  unfold Scanner.fetchValue at hs
  dsimp only at hs
  split at hs
  next hkeys =>
    have := h.grounded.levels
    rw [hkeys] at this
    cases this
  next k r hkeys =>
    split at hs
    next hpossible =>
      cases hs
      have hplace := (openBlock_frame (s.insertAt k.token .key k.mark) k.mark.column (some k.token)
        .blockMappingStart s.mark).1
      generalize hu : (s.insertAt k.token .key k.mark).openBlock k.mark.column (some k.token)
        .blockMappingStart s.mark = u at *
      have hstop : u.here.advance .document = placeAt text (a + 1) := by
        rw [hplace]
        exact (congrArg _ h.here).trans placeAt_advance
      obtain ⟨hgrounded, hlast⟩ :
          Grounded text { u with keys := { k with possible := false } :: r, keyAllowed := false } ∧
            ∀ t ∈ u.queue.getLast?, t.kind ≠ .blockMappingStart :=
        h.recognize hkeys hpossible hu.symm rfl rfl rfl rfl rfl
      exact ⟨a + 1, .push (t := ⟨.value, s.mark⟩) hgrounded hlast rfl hstop (lt_length_of_charAt hend)
        rfl hgrounded.levels rfl rfl fun _ hk => hk⟩
    next hpossible =>
      split at hs
      next hflow =>
        split at hs
        · obtain ⟨_, hfail, _⟩ := bind_eq_ok.mp hs
          cases hfail
        · cases hs
          obtain ⟨hkept, hflowsame⟩ := openBlock_keys s s.mark.column none .blockMappingStart s.mark
          have hplace := (openBlock_frame s s.mark.column none .blockMappingStart s.mark).1
          have hr := h.grounded.keys_eq hkeys (beq_iff_eq.mp hflow)
          refine ⟨a + 1, .of_isSettled (t := ⟨.value, s.mark⟩) ?_ ?_ (lt_length_of_charAt hend)
            List.getLast?_concat rfl⟩
          · refine h.grounded.openBlock h.last rfl ?_ rfl rfl fun j hj => ?_
            · show (s.openBlock _ none _ _).keys.length = (s.openBlock _ none _ _).flow + 1
              rw [hkept, hflowsame]
              exact h.grounded.levels
            · obtain ⟨hlast, hopen⟩ := mem_blockKey?.mp hj
              replace hlast : j ∈ (s.openBlock _ none _ _).keys.getLast? := hlast
              rw [hkept, hkeys, hr] at hlast
              cases hlast
              exact absurd hopen hpossible
          · show (s.openBlock _ none _ _).here.advance .document = _
            rw [hplace, h.here, placeAt_advance]
      next hflow =>
        cases hs
        have hstop : s.here.advance .document = placeAt text (a + 1) := by
          rw [h.here, placeAt_advance]
        exact ⟨a + 1, .push (t := ⟨.value, s.mark⟩) h.grounded h.last rfl hstop
          (lt_length_of_charAt hend) rfl h.grounded.levels rfl rfl fun _ hk => hk⟩

theorem Poised.fetchHere (h : s.Poised text a)
    (hcolumn : s.flow = 0 → s.indent ≤ (placeAt text a).mark.column)
    (hend : isEnd (charAt text a) = false) (hs : s.fetchHere .document = .ok s') :
    ∃ b, s'.Guarded text b := by
  have hfirst : s.here.first = charAt text a := by rw [h.here, placeAt_first]
  unfold Scanner.fetchHere at hs
  dsimp only at hs
  rw [if_neg (by rw [hfirst, hend]; exact Bool.false_ne_true)] at hs
  split at hs
  · exact h.fetchDirective hend hs
  · split at hs
    next hind =>
      rw [h.here] at hind
      refine h.fetchIndicator ?_ (by split <;> rfl) hs
      simp only [Cursor.atIndicator, placeAt_first, placeAt_ahead, Bool.and_eq_true,
        Bool.or_eq_true, beq_iff_eq] at hind
      rcases hind.2 with ⟨-, hthird⟩ | ⟨-, hthird⟩ <;> rw [hthird] <;> rfl
    next hind =>
      rw [h.here] at hind
      have hstart {x : Char} (hx : s.here.first = x) (hne : x ≠ ':') : s.Startable text a :=
        ⟨hcolumn, hend, Bool.of_not_eq_true hind,
          fun _ heq => absurd (hx.symm.trans (hfirst.trans heq)) hne⟩
      split at hs
      next hx => exact h.fetchFlowStart (hstart hx (by decide)) rfl hs
      next hx => exact h.fetchFlowStart (hstart hx (by decide)) rfl hs
      · exact h.fetchFlowEnd hend rfl hs
      · exact h.fetchFlowEnd hend rfl hs
      · exact h.fetchFlowEntry hend hs
      next hx => exact h.fetchAnchor (hstart hx (by decide)) (fun _ => rfl) hs
      next hx => exact h.fetchAnchor (hstart hx (by decide)) (fun _ => rfl) hs
      next hx => exact h.fetchTag (hstart hx (by decide)) hs
      next hx => exact h.fetchQuoted (hstart hx (by decide)) hs
      next hx => exact h.fetchQuoted (hstart hx (by decide)) hs
      · split at hs
        · exact h.fetchBlockEntry hend hs
        · split at hs
          · exact h.fetchKey hend hs
          · split at hs
            · exact h.fetchValue hend hs
            next hvalue =>
              have hscalar {x : Char} {p : Bool} (hx : (s.here.first == x && p) = true) :
                  s.here.first = x := beq_iff_eq.mp (Bool.and_eq_true_iff.mp hx).1
              split at hs
              next hx => exact h.fetchBlockScalar (hstart (hscalar hx) (by decide)) hs
              · split at hs
                next hx => exact h.fetchBlockScalar (hstart (hscalar hx) (by decide)) hs
                · split at hs
                  · refine h.fetchPlain ⟨hcolumn, hend, Bool.of_not_eq_true hind, ?_⟩ hs
                    intro _ hcolon
                    by_contra hgap
                    refine hvalue ?_
                    rw [hfirst, hcolon, beq_self_eq_true, Bool.true_and, valueStarts, h.here,
                      placeAt_ahead, Bool.of_not_eq_false hgap, Bool.true_or]
                  · cases hs

/-- One more token is read. -/
theorem Guarded.fetch (h : s.Guarded text n) (hlive : s.Live text rs n)
    (hs : s.fetch .document = .ok s') :
    StartsLeft text s'.queue ∧ s'.mark.index ≤ text.length ∧
      ((∀ t ∈ s'.queue.getLast?, t.kind ≠ .streamEnd) → s'.Guarded text s'.mark.index) := by
  unfold Scanner.fetch at hs
  dsimp only at hs
  rw [hlive.started, if_neg (by decide)] at hs
  obtain ⟨u, hu, hs⟩ := bind_eq_ok.mp hs
  obtain ⟨a, hpoised⟩ := h.poised hlive hu
  obtain ⟨hpoised, hcolumn⟩ := hpoised.closeBlocks
  generalize u.closeBlocks u.mark.column = u at hpoised hcolumn hs
  cases hend : isEnd (charAt text a) with
  | false =>
    obtain ⟨b, hguarded⟩ := hpoised.fetchHere hcolumn hend hs
    have hindex : s'.mark.index = b := by rw [mark, hguarded.here, placeAt_index]
    rw [hindex]
    exact ⟨hguarded.grounded.starts, hguarded.within, fun _ => hguarded⟩
  | true =>
    unfold fetchHere at hs
    dsimp only at hs
    rw [if_pos (by rw [hpoised.here, placeAt_first, hend])] at hs
    have hends := fetchStreamEnd_ends hpoised.here hs
    obtain ⟨ends, hqueue, hkind⟩ := hends.queue
    have hnot : ∀ t ∈ ends ++ [⟨.streamEnd, s'.mark⟩], t.kind ≠ .blockMappingStart := by
      intro t ht
      rcases List.mem_append.mp ht with ht | ht
      · rw [(hkind t ht).1]
        exact TokenKind.noConfusion
      · rw [List.mem_singleton.mp ht]
        exact TokenKind.noConfusion
    refine ⟨?_, hends.index ▸ hpoised.within, fun hopen => ?_⟩
    · rw [hqueue, List.append_assoc]
      refine hpoised.grounded.starts.append (.of_forall_ne hnot) hpoised.last ?_
      exact fun _ _ b r v heq hb => absurd hb (hnot b (heq ▸ List.mem_cons_self))
    · exact absurd rfl (hopen ⟨.streamEnd, s'.mark⟩ (by rw [hqueue]; exact List.getLast?_concat))

theorem Guarded.reads {ts : List Token} (hreads : s.Reads ts) (hlive : s.Live text rs n)
    (h : s.Guarded text n) : StartsLeft text ts ∧ ∀ t ∈ ts, t.mark.index ≤ text.length := by
  induction hreads generalizing n rs with
  | ended hqueue hend _ =>
    obtain ⟨pre, m, hts⟩ := hend
    have hmem : (⟨.streamEnd, m⟩ : Token) ∈ _ := hqueue.trans hts ▸ List.mem_concat_self
    exact absurd rfl (hlive.unended _ hmem)
  | step _ hf hrest ih =>
    obtain ⟨hstarts, hwithin, hguarded⟩ := h.fetch hlive hf
    obtain ⟨t, hlast, ⟨hkind, -, -, hnext⟩ | ⟨hkind, -⟩⟩ := hlive.fetch hf
    · refine ih hnext (hguarded fun v hv => ?_)
      rwa [← Option.mem_unique hlast hv]
    · cases hrest with
      | ended hqueue _ _ =>
        subst hqueue
        refine ⟨hstarts, fun v hv => ?_⟩
        exact ((hlive.inOrder.fetch hf).tokens.behind v hv).1.trans hwithin
      | step hopen _ _ => exact absurd hkind (hopen t (List.mem_of_mem_getLast? hlast))

end Scanner

/-- The tokens of a text stand in it, and the token before the start of a block mapping ends before the
first key. -/
theorem scan_startsLeft {text : List Char} (herror : (Scan.ofList .document text).error = none) :
    StartsLeft text ((Scan.ofList .document text).tokens.map (·.token)) ∧
      ∀ t ∈ (Scan.ofList .document text).tokens.map (·.token), t.mark.index ≤ text.length := by
  obtain ⟨s, hf, hlast, hlive⟩ := Scanner.Live.ofList text
  have hreads := scan_iff_reads.mpr ⟨herror, rfl⟩
  cases hreads with
  | ended hqueue hend _ =>
    obtain ⟨pre, m, hts⟩ := hend
    rw [← hqueue] at hts
    exact absurd (congrArg List.length hts) (by simp [Scanner.ofList])
  | step _ hf' hrest =>
    rw [hf'] at hf
    cases hf
    cases hf'
    refine Scanner.Guarded.reads hrest hlive (.of_isSettled ⟨rfl, rfl, ?_, ?_⟩ hlive.here
      (Nat.zero_le _) hlast rfl)
    · exact fun _ hk => nomatch hk
    · exact .of_length_le (Nat.le_succ 1)

end Blueprint.Yaml
