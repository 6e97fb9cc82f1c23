import Blueprint.Proofs.ParserFrames
import Blueprint.Proofs.ParserSteps

/-!
The tokens that each step of the parser reads. A step reads separators, then the start of a node or
the end of a collection; only a pair in a flow sequence may swallow the bracket after its mark.
-/

namespace Blueprint.Yaml

namespace Parser

variable {d : Dialect} {p p' q : Parser} {e : Event} {x y : Expect} {s : List Expect}
  {ks lead : List TokenKind} {fs : List Expect}

/-- What a step does to the tokens and to the stack. A list goes on with its next entry. -/
structure Moves (p p' : Parser) : Prop where
  reads : ∃ ks fs, p.left = ks ++ p'.left ∧ p'.stack = fs ++ p.pending ∧ p.expect.Goes ks fs ∧
    (p.expect.enclosure = .list → p.left.head? = some .blockEntry → ks.head? = some .blockEntry)
  ahead : p'.ahead <:+ p.ahead

theorem left_suffix_ahead (p : Parser) : p.left <:+ p.ahead := by
  unfold ahead
  split
  · exact List.suffix_cons _ _
  · exact List.suffix_refl _

theorem ahead_suffix (h : p.left = ks ++ p'.left) (hbehind : p'.expect.isBehindKey = false) :
    p'.ahead <:+ p.ahead := by
  rw [show p'.ahead = p'.left by rw [Parser.ahead, hbehind]; rfl]
  exact List.IsSuffix.trans ⟨ks, h.symm⟩ p.left_suffix_ahead

theorem look_read {t : Token} (h : p.look = .ok (t, q)) :
    p.kinds = t.kind :: q.drop.kinds ∧ q.kinds = p.kinds ∧ q.pending = p.pending := by
  obtain ⟨th, r, rfl, htokens, hpassed⟩ := look_passed h
  have hkinds : p.kinds = q.kinds := hpassed.kinds
  exact ⟨hkinds.trans (drop_passed htokens).kinds, hkinds.symm, hpassed.pending⟩

theorem enter_read {first : Bool} {f : Parser → Step} (hp : p.expect.isFresh = first)
    (h : (do
      let p ← if first then do let (_, p) ← p.look; pure p.drop else pure p
      f p) = .ok (e, p')) :
    ∃ q, q.kinds = p.left ∧ q.pending = p.pending ∧ f q = .ok (e, p') := by
  dsimp only at h
  split at h
  next hfirst =>
    obtain ⟨⟨t, p₁⟩, hlook, h⟩ := bind_eq_ok.mp h
    obtain ⟨hkinds, _, hpending⟩ := look_read hlook
    refine ⟨p₁.drop, ?_, hpending, h⟩
    rw [left, hp, hfirst, if_pos rfl, hkinds]
    rfl
  next hfirst =>
    exact ⟨p, (left_of_not_fresh (hp.trans (Bool.eq_false_iff.mpr hfirst))).symm, rfl, h⟩

/-- The comma before an entry of a flow collection, the first one apart. -/
def comma (first : Bool) : List TokenKind :=
  if first then [] else [.flowEntry]

theorem separate_read {first : Bool} {t : Token} {ks : List TokenKind} {fault : Fault}
    {f : Parser → Step} (hkinds : q.kinds = t.kind :: ks) (hdrop : q.drop.kinds = ks)
    (h : (do
      let p ←
        if first then pure q
        else if t.kind = TokenKind.flowEntry then pure q.drop
        else fail fault t.mark
      f p) = .ok (e, p')) :
    ∃ p, q.kinds = comma first ++ p.kinds ∧ p.pending = q.pending ∧ f p = .ok (e, p') := by
  dsimp only at h
  unfold comma
  split at h
  next hfirst => exact ⟨q, by rw [if_pos hfirst]; rfl, rfl, h⟩
  next hfirst =>
    split at h
    next hkind =>
      refine ⟨q.drop, ?_, rfl, h⟩
      rw [if_neg hfirst, hkinds, hdrop, hkind]
      rfl
    · cases h

/-- A node is read in a collection, after the tokens that stand between its parts. -/
theorem Begun.moves {listed : Bool} (h : Begun listed (q.after y) e.kind ks fs p')
    (hq : p.left = lead ++ q.kinds)
    (hpending : q.pending = p.pending) (hflat : ∀ k ∈ lead, k.isFlat = true)
    (hkey : .key ∈ lead → p.expect.closer?.isSome) (hy : y.enclosure = p.expect.enclosure)
    (hresumes : y.resumes = true)
    (hlist : p.expect.enclosure = .list → lead.head? = some .blockEntry) : Moves p p' := by
  have hkinds : q.kinds = ks ++ p'.left := h.left
  have hleft : p.left = (lead ++ ks) ++ p'.left := by
    rw [hq, hkinds, List.append_assoc]
  refine ⟨⟨_, _, hleft, ?_, h.begins.goes hflat hkey hy hresumes, fun hin _ => ?_⟩,
    ahead_suffix hleft h.behind⟩
  · rw [h.stack, after, hpending, List.append_assoc]
    rfl
  · rw [List.head?_append, hlist hin]
    rfl

theorem moves_of_node {block indentless : Bool} (hq : p.left = lead ++ q.kinds)
    (hpending : q.pending = p.pending) (hflat : ∀ k ∈ lead, k.isFlat = true)
    (hkey : .key ∈ lead → p.expect.closer?.isSome) (hy : y.enclosure = p.expect.enclosure)
    (hresumes : y.resumes = true)
    (hlist : p.expect.enclosure = .list → lead.head? = some .blockEntry)
    (h : (q.after y).node d block indentless = .ok (e, p')) : Moves p p' := by
  have hafter : (q.after y).pending = y :: q.pending := rfl
  obtain ⟨ks, fs, hbegun⟩ := node_begins hafter hresumes h
  exact hbegun.moves hq hpending hflat hkey hy hresumes hlist

/-- A step that goes on in the same collection. -/
theorem moves_of_stay {k : EventKind} {m : Mark} (hq : p.left = lead ++ q.kinds)
    (hpending : q.pending = p.pending) (hflat : ∀ k ∈ lead, k.isFlat = true)
    (hkey : .key ∈ lead → p.expect.closer?.isSome) (hy : y.enclosure = p.expect.enclosure)
    (hresumes : y.resumes = true)
    (hlist : p.expect.enclosure = .list → lead.head? = some .blockEntry)
    (h : emit k m (q.goto y) = .ok (e, p')) : Moves p p' := by
  cases h
  rw [Expect.resumes, Bool.and_eq_true, Bool.not_eq_true', Bool.not_eq_true'] at hresumes
  have hleft : p.left = lead ++ (q.goto y).left := by
    rw [left_goto hresumes.1]
    exact hq
  exact ⟨⟨lead, [y], hleft, congrArg (y :: ·) hpending, .stay hflat hkey hy,
      fun hin _ => hlist hin⟩,
    ahead_suffix hleft hresumes.2⟩

/-- The end of a collection returns to the one around it. -/
theorem moves_of_leave {k : EventKind} {m : Mark}
    (hq : p.left = lead ++ p.expect.closer?.toList ++ q.kinds) (hpending : q.pending = p.pending)
    (hp : p.pending = x :: s) (hx : x.resumes = true) (hflat : ∀ k ∈ lead, k.isFlat = true)
    (hkey : .key ∈ lead → p.expect.closer?.isSome)
    (hlist : p.expect.enclosure = .list → p.left.head? ≠ some .blockEntry)
    (h : emit k m q.back = .ok (e, p')) : Moves p p' := by
  cases h
  obtain ⟨hback, hstack, hexpect⟩ := back_spec (hpending.trans hp) hx
  have hleft : p.left = (lead ++ p.expect.closer?.toList) ++ q.back.left := by
    rw [hback]
    exact hq
  refine ⟨⟨_, [], hleft, hstack.trans hpending, .leave hflat hkey,
    fun hin hhead => absurd hhead (hlist hin)⟩, ahead_suffix hleft ?_⟩
  rw [hexpect]
  rw [Expect.resumes, Bool.and_eq_true, Bool.not_eq_true', Bool.not_eq_true'] at hx
  exact hx.2

theorem blockSequence_moves {first : Bool} (hp : p.expect = .blockSequence first)
    (hpending : p.pending = x :: s) (hx : x.resumes = true)
    (h : p.blockSequence d first = .ok (e, p')) : Moves p p' := by
  unfold blockSequence at h
  obtain ⟨q, hq, hqp, h⟩ := enter_read (by rw [hp]; rfl) h
  obtain ⟨⟨t, p₁⟩, hlook, h⟩ := bind_eq_ok.mp h
  obtain ⟨hkinds, _, hp₁⟩ := look_read hlook
  have hleft : p.left = t.kind :: p₁.drop.kinds := hq.symm.trans hkinds
  have hkey {lead : List TokenKind} : .key ∈ lead → p.expect.closer?.isSome :=
    fun _ => by rw [hp]; rfl
  have hlist {P : Prop} : p.expect.enclosure = .list → P := by
    rw [hp]
    exact fun hin => Enclosure.noConfusion hin
  dsimp only at h
  split at h
  next hkind =>
    have hlead : p.left = [] ++ p.expect.closer?.toList ++ p₁.drop.kinds := by
      rw [hp, hleft, hkind]
      rfl
    exact moves_of_leave hlead (hp₁.trans hqp) hpending hx (by decide) hkey hlist h
  next hkind =>
    obtain ⟨⟨t', p₂⟩, hlook', h⟩ := bind_eq_ok.mp h
    obtain ⟨_, hkinds₂, hp₂⟩ := look_read hlook'
    have hlead : p.left = [.blockEntry] ++ p₂.kinds := by
      rw [hleft, hkinds₂, hkind]
      rfl
    have hpending₂ : p₂.pending = p.pending := (hp₂.trans hp₁).trans hqp
    dsimp only at h
    split at h
    · exact moves_of_stay hlead hpending₂ (by decide) hkey (by rw [hp]; rfl) rfl hlist h
    · exact moves_of_stay hlead hpending₂ (by decide) hkey (by rw [hp]; rfl) rfl hlist h
    · exact moves_of_node hlead hpending₂ (by decide) hkey (by rw [hp]; rfl) rfl hlist h
  · cases h

theorem indentlessSequence_moves (hp : p.expect = .indentlessSequence)
    (hpending : p.pending = x :: s) (hx : x.resumes = true)
    (h : p.indentlessSequence d = .ok (e, p')) : Moves p p' := by
  unfold indentlessSequence at h
  obtain ⟨⟨t, p₁⟩, hlook, h⟩ := bind_eq_ok.mp h
  obtain ⟨hkinds, hkinds₁, hp₁⟩ := look_read hlook
  have hleft : p.left = p.kinds := left_of_not_fresh (by rw [hp]; rfl)
  dsimp only at h
  split at h
  next hkind =>
    have hlead : p.left = [] ++ p.expect.closer?.toList ++ p₁.kinds := by
      rw [hp, hleft, hkinds₁]
      rfl
    have hlist : p.expect.enclosure = .list → p.left.head? ≠ some .blockEntry := by
      rw [hleft, hkinds]
      exact fun _ hhead => hkind (Option.some.inj hhead)
    exact moves_of_leave hlead hp₁ hpending hx (by decide)
      (fun hmem => absurd hmem List.not_mem_nil) hlist h
  next hkind =>
    obtain ⟨⟨t', p₂⟩, hlook', h⟩ := bind_eq_ok.mp h
    obtain ⟨_, hkinds₂, hp₂⟩ := look_read hlook'
    have hlead : p.left = [.blockEntry] ++ p₂.kinds := by
      rw [hleft, hkinds, hkinds₂, Decidable.of_not_not hkind]
      rfl
    have hkey : TokenKind.key ∈ [TokenKind.blockEntry] → p.expect.closer?.isSome :=
      fun hmem => absurd hmem (by decide)
    have hlist : p.expect.enclosure = .list → [TokenKind.blockEntry].head? = some .blockEntry :=
      fun _ => rfl
    have hpending₂ : p₂.pending = p.pending := hp₂.trans hp₁
    dsimp only at h
    split at h
    · exact moves_of_stay hlead hpending₂ (by decide) hkey (by rw [hp]) rfl hlist h
    · exact moves_of_node hlead hpending₂ (by decide) hkey (by rw [hp]) rfl hlist h

theorem isFlat_comma (first : Bool) : ∀ k ∈ comma first, k.isFlat = true := by
  cases first <;> decide

theorem isFlat_append {a b : List TokenKind} (ha : ∀ k ∈ a, k.isFlat = true)
    (hb : ∀ k ∈ b, k.isFlat = true) : ∀ k ∈ a ++ b, k.isFlat = true :=
  fun k hk => (List.mem_append.mp hk).elim (ha k) (hb k)

theorem flowSequence_moves {first : Bool} (hp : p.expect = .flowSequence first)
    (hpending : p.pending = x :: s) (hx : x.resumes = true)
    (h : p.flowSequence d first = .ok (e, p')) : Moves p p' := by
  unfold flowSequence at h
  obtain ⟨q, hq, hqp, h⟩ := enter_read (by rw [hp]; rfl) h
  obtain ⟨⟨t, p₁⟩, hlook, h⟩ := bind_eq_ok.mp h
  obtain ⟨hkinds, hkinds₁, hp₁⟩ := look_read hlook
  have hleft : p.left = p₁.kinds := hq.symm.trans hkinds₁.symm
  have hkey {lead : List TokenKind} : .key ∈ lead → p.expect.closer?.isSome :=
    fun _ => by rw [hp]; rfl
  have hlist {P : Prop} : p.expect.enclosure = .list → P := by
    rw [hp]
    exact fun hin => Enclosure.noConfusion hin
  dsimp only at h
  split at h
  next hkind =>
    have hlead : p.left = [] ++ p.expect.closer?.toList ++ p₁.drop.kinds := by
      rw [hp, hleft, hkinds₁, hkinds, hkind]
      rfl
    exact moves_of_leave hlead (hp₁.trans hqp) hpending hx (by decide) hkey hlist h
  · obtain ⟨p₂, hcomma, hp₂, h⟩ := separate_read (hkinds₁.trans hkinds) rfl h
    obtain ⟨⟨t', p₃⟩, hlook', h⟩ := bind_eq_ok.mp h
    obtain ⟨hkinds₂, hkinds₃, hp₃⟩ := look_read hlook'
    have hpending₃ : p₃.pending = p.pending := ((hp₃.trans hp₂).trans hp₁).trans hqp
    dsimp only at h
    split at h
    next hkind =>
      have hlead : p.left = comma first ++ p.expect.closer?.toList ++ p₃.drop.kinds := by
        rw [hp, hleft, hcomma, hkinds₂, hkind, List.append_assoc]
        rfl
      exact moves_of_leave hlead hpending₃ hpending hx (isFlat_comma first) hkey hlist h
    next hkind =>
      cases h
      have hlead : p.left = (comma first ++ [.key]) ++ (p₃.drop.goto .flowPairKey).left := by
        rw [hleft, hcomma, hkinds₂, hkind, left_goto rfl, List.append_assoc]
        rfl
      refine ⟨⟨_, [.flowPairKey], hlead, congrArg (_ :: ·) hpending₃, ?_, hlist⟩, ?_⟩
      · exact .stay (isFlat_append (isFlat_comma first) (by decide)) hkey (by rw [hp]; rfl)
      · refine List.IsSuffix.trans ⟨comma first, ?_⟩ p.left_suffix_ahead
        rw [hlead, List.append_assoc]
        rfl
    · have hlead : p.left = comma first ++ p₃.kinds := by
        rw [hleft, hcomma, hkinds₃]
      exact moves_of_node hlead hpending₃ (isFlat_comma first) hkey (by rw [hp]; rfl) rfl hlist h

theorem flowPairKey_moves (hp : p.expect = .flowPairKey)
    (hnext : p.kinds.head? ≠ some .flowSequenceEnd) (h : p.flowPairKey d = .ok (e, p')) :
    Moves p p' := by
  unfold flowPairKey at h
  obtain ⟨⟨t, p₁⟩, hlook, h⟩ := bind_eq_ok.mp h
  obtain ⟨hkinds, hkinds₁, hp₁⟩ := look_read hlook
  have hleft : p.left = p.kinds := left_of_not_fresh (by rw [hp]; rfl)
  have hkey {lead : List TokenKind} : .key ∈ lead → p.expect.closer?.isSome :=
    fun _ => by rw [hp]; rfl
  have hlist {P : Prop} : p.expect.enclosure = .list → P := by
    rw [hp]
    exact fun hin => Enclosure.noConfusion hin
  have hlead {k : TokenKind} (hk : t.kind = k) : p.left = [k] ++ p₁.drop.kinds := by
    rw [hleft, hkinds, hk]
    rfl
  dsimp only at h
  split at h
  next hk => exact moves_of_stay (hlead hk) hp₁ (by decide) hkey (by rw [hp]; rfl) rfl hlist h
  next hk => exact moves_of_stay (hlead hk) hp₁ (by decide) hkey (by rw [hp]; rfl) rfl hlist h
  next hk =>
    rw [hkinds, hk] at hnext
    exact absurd rfl hnext
  · have hq : p.left = [] ++ p₁.kinds := hleft.trans hkinds₁.symm
    exact moves_of_node hq hp₁ (by decide) hkey (by rw [hp]; rfl) rfl hlist h

theorem flowPairValue_moves (hp : p.expect = .flowPairValue)
    (h : p.flowPairValue d = .ok (e, p')) : Moves p p' := by
  unfold flowPairValue at h
  obtain ⟨⟨t, p₁⟩, hlook, h⟩ := bind_eq_ok.mp h
  obtain ⟨hkinds, hkinds₁, hp₁⟩ := look_read hlook
  have hleft : p.left = p.kinds := left_of_not_fresh (by rw [hp]; rfl)
  have hkey {lead : List TokenKind} : .key ∈ lead → p.expect.closer?.isSome :=
    fun _ => by rw [hp]; rfl
  have hlist {P : Prop} : p.expect.enclosure = .list → P := by
    rw [hp]
    exact fun hin => Enclosure.noConfusion hin
  dsimp only at h
  split at h
  next hkind =>
    obtain ⟨⟨t', p₂⟩, hlook', h⟩ := bind_eq_ok.mp h
    obtain ⟨_, hkinds₂, hp₂⟩ := look_read hlook'
    have hlead : p.left = [.value] ++ p₂.kinds := by
      rw [hleft, hkinds, hkinds₂, hkind]
      rfl
    have hpending₂ : p₂.pending = p.pending := hp₂.trans hp₁
    dsimp only at h
    split at h
    · exact moves_of_stay hlead hpending₂ (by decide) hkey (by rw [hp]; rfl) rfl hlist h
    · exact moves_of_stay hlead hpending₂ (by decide) hkey (by rw [hp]; rfl) rfl hlist h
    · exact moves_of_node hlead hpending₂ (by decide) hkey (by rw [hp]; rfl) rfl hlist h
  · have hq : p.left = [] ++ p₁.kinds := hleft.trans hkinds₁.symm
    exact moves_of_stay hq hp₁ (by decide) hkey (by rw [hp]; rfl) rfl hlist h

theorem flowPairEnd_moves (hp : p.expect = .flowPairEnd) (h : p.flowPairEnd = .ok (e, p')) :
    Moves p p' := by
  have hq : p.left = [] ++ p.kinds := left_of_not_fresh (by rw [hp]; rfl)
  have hlist : p.expect.enclosure = .list → ([] : List TokenKind).head? = some .blockEntry := by
    rw [hp]
    exact fun hin => Enclosure.noConfusion hin
  exact moves_of_stay hq rfl (by decide) (fun hmem => absurd hmem List.not_mem_nil)
    (by rw [hp]; rfl) rfl hlist h

/-! Mappings. -/

/-- What comes before a key: a comma in a flow mapping, and the mark of the key. -/
def keyLead (flow first marked : Bool) : List TokenKind :=
  (if flow then comma first else []) ++ if marked then [.key] else []

def mappingCloser (flow : Bool) : TokenKind :=
  if flow then .flowMappingEnd else .blockEnd

/-- A node that is missing. -/
def missingNode : EventKind :=
  .scalar "~" .plain none none

/-- What the parser reads in a mapping before a key or the end. A key without a mark has no value;
only a missing key may do without both. -/
inductive KeyStep (flow first : Bool) (p : Parser) (e : Event) (p' : Parser) : Prop where
  | stop {lead : List TokenKind} (hlead : lead = [] ∨ flow = true ∧ lead = comma first)
    (hleft : p.left = lead ++ mappingCloser flow :: p'.left) (hstack : p'.stack = p.pending)
    (he : e.kind = .mappingEnd)
  | node {marked : Bool} {ks : List TokenKind} {fs : List Expect}
    (hmarked : marked = false → flow = true) (hbegins : Begins ks e.kind fs)
    (hleft : p.left = keyLead flow first marked ++ (ks ++ p'.left))
    (hstack : p'.stack = fs ++ Expect.mappingValue flow (!marked) :: p.pending)
    (hlist : ∀ z ∈ fs, z.closer? = none → flow = false ∧ p'.left.head? = some .blockEntry)
  | missing {marked : Bool} (he : e.kind = missingNode)
    (hleft : p.left = keyLead flow first marked ++ p'.left)
    (hstack : p'.stack = Expect.mappingValue flow false :: p.pending)
    (hnext : marked = false → p'.left.head? = some .value)

/-- What the parser reads in a mapping before a value. -/
inductive ValueStep (flow bare : Bool) (p : Parser) (e : Event) (p' : Parser) : Prop where
  | node {ks : List TokenKind} {fs : List Expect} (hbare : bare = false)
    (hbegins : Begins ks e.kind fs) (hleft : p.left = .value :: (ks ++ p'.left))
    (hstack : p'.stack = fs ++ Expect.mappingKey flow false :: p.pending)
    (hlist : ∀ z ∈ fs, z.closer? = none → flow = false ∧ p'.left.head? = some .blockEntry)
  | missing {colon : List TokenKind} (he : e.kind = missingNode)
    (hcolon : bare = false ∧ colon = [.value] ∨
      (bare = true ∨ p.left.head? ≠ some .value) ∧ colon = [])
    (hleft : p.left = colon ++ p'.left)
    (hstack : p'.stack = Expect.mappingKey flow false :: p.pending)

theorem resumes_mappingValue (flow bare : Bool) :
    (Expect.mappingValue flow bare).resumes = true := by
  cases flow <;> rfl

theorem resumes_mappingKey (flow : Bool) : (Expect.mappingKey flow false).resumes = true := by
  cases flow <;> rfl

theorem isBehindKey_mappingValue (flow bare : Bool) :
    (Expect.mappingValue flow bare).isBehindKey = false := by
  cases flow <;> rfl

theorem isBehindKey_mappingKey (flow first : Bool) :
    (Expect.mappingKey flow first).isBehindKey = false := by
  cases flow <;> rfl

theorem keyStep_of_stop {flow first : Bool} {m : Mark}
    (hlead : lead = [] ∨ flow = true ∧ lead = comma first)
    (hq : p.left = lead ++ mappingCloser flow :: q.kinds) (hpending : q.pending = p.pending)
    (hp : p.pending = x :: s) (hx : x.resumes = true)
    (h : emit .mappingEnd m q.back = .ok (e, p')) :
    KeyStep flow first p e p' ∧ p'.expect.isBehindKey = false := by
  cases h
  obtain ⟨hback, hstack, hexpect⟩ := back_spec (hpending.trans hp) hx
  refine ⟨.stop hlead ?_ (hstack.trans hpending) rfl, ?_⟩
  · rw [hback]
    exact hq
  · rw [hexpect]
    rw [Expect.resumes, Bool.and_eq_true, Bool.not_eq_true', Bool.not_eq_true'] at hx
    exact hx.2

theorem keyStep_of_node {flow first marked block indentless : Bool}
    (hmarked : marked = false → flow = true) (hlisted : indentless = true → flow = false)
    (hq : p.left = keyLead flow first marked ++ q.kinds) (hpending : q.pending = p.pending)
    (h : (q.after (.mappingValue flow (!marked))).node d block indentless = .ok (e, p')) :
    KeyStep flow first p e p' ∧ p'.expect.isBehindKey = false := by
  have hafter : (q.after (.mappingValue flow (!marked))).pending =
      .mappingValue flow (!marked) :: q.pending := rfl
  obtain ⟨ks, fs, hbegun⟩ := node_begins hafter (resumes_mappingValue flow (!marked)) h
  have hkinds : q.kinds = ks ++ p'.left := hbegun.left
  refine ⟨.node hmarked hbegun.begins ?_ ?_ ?_, hbegun.behind⟩
  · rw [hq, hkinds]
  · rw [hbegun.stack, hafter, hpending]
  · exact fun z hz hnone => (hbegun.list z hz hnone).imp_left hlisted

theorem keyStep_of_missing {flow first marked : Bool} {m : Mark}
    (hq : p.left = keyLead flow first marked ++ q.kinds) (hpending : q.pending = p.pending)
    (hnext : marked = false → q.kinds.head? = some .value)
    (h : emitEmpty .document m (q.goto (.mappingValue flow false)) = .ok (e, p')) :
    KeyStep flow first p e p' ∧ p'.expect.isBehindKey = false := by
  cases h
  have hleft : (q.goto (.mappingValue flow false)).left = q.kinds := by
    refine left_goto ?_
    cases flow <;> rfl
  rw [← hleft] at hq hnext
  exact ⟨.missing rfl hq (congrArg (_ :: ·) hpending) hnext, isBehindKey_mappingValue flow false⟩

theorem blockMappingKey_reads {first : Bool} (hp : p.expect = .mappingKey false first)
    (hpending : p.pending = x :: s) (hx : x.resumes = true)
    (h : p.blockMappingKey .document first = .ok (e, p')) :
    KeyStep false first p e p' ∧ p'.expect.isBehindKey = false := by
  unfold blockMappingKey at h
  obtain ⟨q, hq, hqp, h⟩ := enter_read (by rw [hp]; rfl) h
  obtain ⟨⟨t, p₁⟩, hlook, h⟩ := bind_eq_ok.mp h
  obtain ⟨hkinds, hkinds₁, hp₁⟩ := look_read hlook
  have hleft : p.left = t.kind :: p₁.drop.kinds := hq.symm.trans hkinds
  have hpending₁ : p₁.pending = p.pending := hp₁.trans hqp
  dsimp only at h
  split at h
  next hkind =>
    obtain ⟨⟨t', p₂⟩, hlook', h⟩ := bind_eq_ok.mp h
    obtain ⟨_, hkinds₂, hp₂⟩ := look_read hlook'
    have hlead : p.left = keyLead false first true ++ p₂.kinds := by
      rw [hleft, hkinds₂, hkind]
      rfl
    have hpending₂ : p₂.pending = p.pending := hp₂.trans hpending₁
    dsimp only at h
    split at h
    · exact keyStep_of_missing hlead hpending₂ Bool.noConfusion h
    · exact keyStep_of_node Bool.noConfusion (fun _ => rfl) hlead hpending₂ h
  next hkind =>
    have hlead : p.left = [] ++ mappingCloser false :: p₁.drop.kinds := by
      rw [hleft, hkind]
      rfl
    exact keyStep_of_stop (Or.inl rfl) hlead hpending₁ hpending hx h
  next hkind =>
    have hlead : p.left = keyLead false first false ++ p₁.kinds := by
      rw [hkinds₁, hq]
      rfl
    refine keyStep_of_missing hlead hpending₁ (fun _ => ?_) h
    rw [hkinds₁, hkinds, hkind]
    rfl
  · cases h

theorem flowMappingKey_reads {first : Bool} (hp : p.expect = .mappingKey true first)
    (hpending : p.pending = x :: s) (hx : x.resumes = true)
    (h : p.flowMappingKey .document first = .ok (e, p')) :
    KeyStep true first p e p' ∧ p'.expect.isBehindKey = false := by
  unfold flowMappingKey at h
  obtain ⟨q, hq, hqp, h⟩ := enter_read (by rw [hp]; rfl) h
  obtain ⟨⟨t, p₁⟩, hlook, h⟩ := bind_eq_ok.mp h
  obtain ⟨hkinds, hkinds₁, hp₁⟩ := look_read hlook
  have hleft : p.left = p₁.kinds := hq.symm.trans hkinds₁.symm
  have hpending₁ : p₁.pending = p.pending := hp₁.trans hqp
  dsimp only at h
  split at h
  next hkind =>
    have hlead : p.left = [] ++ mappingCloser true :: p₁.drop.kinds := by
      rw [hleft, hkinds₁, hkinds, hkind]
      rfl
    exact keyStep_of_stop (Or.inl rfl) hlead hpending₁ hpending hx h
  · obtain ⟨p₂, hcomma, hp₂, h⟩ := separate_read (hkinds₁.trans hkinds) rfl h
    obtain ⟨⟨t', p₃⟩, hlook', h⟩ := bind_eq_ok.mp h
    obtain ⟨hkinds₂, hkinds₃, hp₃⟩ := look_read hlook'
    have hpending₃ : p₃.pending = p.pending := (hp₃.trans hp₂).trans hpending₁
    have hbare : p.left = keyLead true first false ++ p₃.kinds := by
      rw [hleft, hcomma, hkinds₃]
      show _ = (comma first ++ []) ++ _
      rw [List.append_nil]
    dsimp only at h
    split at h
    next hkind =>
      obtain ⟨⟨t'', p₄⟩, hlook'', h⟩ := bind_eq_ok.mp h
      obtain ⟨_, hkinds₄, hp₄⟩ := look_read hlook''
      have hpending₄ : p₄.pending = p.pending := hp₄.trans hpending₃
      have hlead : p.left = keyLead true first true ++ p₄.kinds := by
        rw [hleft, hcomma, hkinds₂, hkinds₄, hkind]
        show _ = (comma first ++ [.key]) ++ _
        rw [List.append_assoc]
        rfl
      dsimp only at h
      split at h
      · exact keyStep_of_missing hlead hpending₄ Bool.noConfusion h
      · exact keyStep_of_missing hlead hpending₄ Bool.noConfusion h
      · exact keyStep_of_missing hlead hpending₄ Bool.noConfusion h
      · exact keyStep_of_node Bool.noConfusion Bool.noConfusion hlead hpending₄ h
    next hkind =>
      have hlead : p.left = comma first ++ mappingCloser true :: p₃.drop.kinds := by
        rw [hleft, hcomma, hkinds₂, hkind]
        rfl
      exact keyStep_of_stop (Or.inr ⟨rfl, rfl⟩) hlead hpending₃ hpending hx h
    next hkind =>
      refine keyStep_of_missing hbare hpending₃ (fun _ => ?_) h
      rw [hkinds₃, hkinds₂, hkind]
      rfl
    · exact keyStep_of_node (fun _ => rfl) Bool.noConfusion hbare hpending₃ h

theorem valueStep_of_node {flow bare block indentless : Bool} (hbare : bare = false)
    (hlisted : indentless = true → flow = false)
    (hq : p.left = .value :: q.kinds) (hpending : q.pending = p.pending)
    (h : (q.after (.mappingKey flow false)).node d block indentless = .ok (e, p')) :
    ValueStep flow bare p e p' ∧ p'.expect.isBehindKey = false := by
  have hafter : (q.after (.mappingKey flow false)).pending =
      .mappingKey flow false :: q.pending := rfl
  obtain ⟨ks, fs, hbegun⟩ := node_begins hafter (resumes_mappingKey flow) h
  have hkinds : q.kinds = ks ++ p'.left := hbegun.left
  refine ⟨.node hbare hbegun.begins ?_ ?_ ?_, hbegun.behind⟩
  · rw [hq, hkinds]
  · rw [hbegun.stack, hafter, hpending]
  · exact fun z hz hnone => (hbegun.list z hz hnone).imp_left hlisted

theorem valueStep_of_missing {flow bare : Bool} {m : Mark} {colon : List TokenKind}
    (hcolon : bare = false ∧ colon = [.value] ∨
      (bare = true ∨ p.left.head? ≠ some .value) ∧ colon = [])
    (hq : p.left = colon ++ q.kinds) (hpending : q.pending = p.pending)
    (h : emitEmpty .document m (q.goto (.mappingKey flow false)) = .ok (e, p')) :
    ValueStep flow bare p e p' ∧ p'.expect.isBehindKey = false := by
  cases h
  have hleft : (q.goto (.mappingKey flow false)).left = q.kinds := by
    refine left_goto ?_
    cases flow <;> rfl
  refine ⟨.missing rfl hcolon ?_ (congrArg (_ :: ·) hpending), isBehindKey_mappingKey flow false⟩
  rw [hleft]
  exact hq

theorem blockMappingValue_reads {bare : Bool} (hbare : bare = false)
    (hp : p.expect = .mappingValue false bare)
    (h : p.blockMappingValue .document = .ok (e, p')) :
    ValueStep false bare p e p' ∧ p'.expect.isBehindKey = false := by
  unfold blockMappingValue at h
  obtain ⟨⟨t, p₁⟩, hlook, h⟩ := bind_eq_ok.mp h
  obtain ⟨hkinds, hkinds₁, hp₁⟩ := look_read hlook
  have hleft : p.left = p.kinds := left_of_not_fresh (by rw [hp]; rfl)
  dsimp only at h
  split at h
  next hkind =>
    obtain ⟨⟨t', p₂⟩, hlook', h⟩ := bind_eq_ok.mp h
    obtain ⟨_, hkinds₂, hp₂⟩ := look_read hlook'
    have hlead : p.left = .value :: p₂.kinds := by
      rw [hleft, hkinds, hkinds₂, hkind]
    have hpending₂ : p₂.pending = p.pending := hp₂.trans hp₁
    dsimp only at h
    split at h
    · exact valueStep_of_missing (Or.inl ⟨hbare, rfl⟩) hlead hpending₂ h
    · exact valueStep_of_node hbare (fun _ => rfl) hlead hpending₂ h
  next hkind =>
    refine valueStep_of_missing (Or.inr ⟨Or.inr ?_, rfl⟩) (hleft.trans hkinds₁.symm) hp₁ h
    rw [hleft, hkinds]
    exact fun hhead => hkind (Option.some.inj hhead)

theorem flowMappingValue_reads {bare : Bool} (hp : p.expect = .mappingValue true bare)
    (h : p.flowMappingValue .document bare = .ok (e, p')) :
    ValueStep true bare p e p' ∧ p'.expect.isBehindKey = false := by
  unfold flowMappingValue at h
  obtain ⟨⟨t, p₁⟩, hlook, h⟩ := bind_eq_ok.mp h
  obtain ⟨hkinds, hkinds₁, hp₁⟩ := look_read hlook
  have hleft : p.left = p.kinds := left_of_not_fresh (by rw [hp]; rfl)
  dsimp only at h
  split at h
  next hor =>
    refine valueStep_of_missing (Or.inr ⟨?_, rfl⟩) (hleft.trans hkinds₁.symm) hp₁ h
    rw [Bool.or_eq_true, decide_eq_true_eq] at hor
    refine hor.imp id fun hne => ?_
    rw [hleft, hkinds]
    exact fun hhead => hne (Option.some.inj hhead)
  next hor =>
    rw [Bool.or_eq_true, decide_eq_true_eq, not_or, Decidable.not_not] at hor
    obtain ⟨hbare, hkind⟩ := hor
    obtain ⟨⟨t', p₂⟩, hlook', h⟩ := bind_eq_ok.mp h
    obtain ⟨_, hkinds₂, hp₂⟩ := look_read hlook'
    have hbare : bare = false := Bool.eq_false_iff.mpr hbare
    have hlead : p.left = .value :: p₂.kinds := by
      rw [hleft, hkinds, hkinds₂, hkind]
    have hpending₂ : p₂.pending = p.pending := hp₂.trans hp₁
    dsimp only at h
    split at h
    · exact valueStep_of_missing (Or.inl ⟨hbare, rfl⟩) hlead hpending₂ h
    · exact valueStep_of_missing (Or.inl ⟨hbare, rfl⟩) hlead hpending₂ h
    · exact valueStep_of_node hbare Bool.noConfusion hlead hpending₂ h

theorem isFlat_keyLead (flow first marked : Bool) :
    ∀ k ∈ keyLead flow first marked, k.isFlat = true := by
  cases flow <;> cases first <;> cases marked <;> decide

theorem closer?_mappingKey (flow first : Bool) :
    (Expect.mappingKey flow first).closer? = some (mappingCloser flow) := by
  cases flow <;> rfl

theorem closer?_mappingValue (flow bare : Bool) :
    (Expect.mappingValue flow bare).closer? = some (mappingCloser flow) := by
  cases flow <;> rfl

theorem KeyStep.moves {flow first : Bool} (hp : p.expect = .mappingKey flow first)
    (h : KeyStep flow first p e p') (hbehind : p'.expect.isBehindKey = false) : Moves p p' := by
  have hcloser : p.expect.closer? = some (mappingCloser flow) := by
    rw [hp, closer?_mappingKey]
  have hkey {lead : List TokenKind} : .key ∈ lead → p.expect.closer?.isSome :=
    fun _ => by rw [hcloser]; rfl
  have hsame (bare : Bool) : (Expect.mappingValue flow bare).enclosure = p.expect.enclosure := by
    rw [hp]
    cases flow <;> rfl
  have hlist {P : Prop} : p.expect.enclosure = .list → P := by
    rw [hp]
    cases flow <;> exact fun hin => Enclosure.noConfusion hin
  cases h with
  | @stop lead hlead hleft hstack he =>
    have hflat : ∀ k ∈ lead, k.isFlat = true := by
      rcases hlead with rfl | ⟨_, rfl⟩
      · exact fun k hk => absurd hk List.not_mem_nil
      · exact isFlat_comma first
    have hgoes : p.expect.Goes (lead ++ [mappingCloser flow]) [] := by
      have hleave := Expect.Goes.leave hflat (hkey : .key ∈ lead → p.expect.closer?.isSome)
      rwa [hcloser] at hleave
    have hleft : p.left = (lead ++ [mappingCloser flow]) ++ p'.left := by
      rw [hleft, List.append_assoc]
      rfl
    exact ⟨⟨_, [], hleft, hstack, hgoes, hlist⟩, ahead_suffix hleft hbehind⟩
  | @node marked ks fs hmarked hbegins hleft hstack =>
    rw [← List.append_assoc] at hleft
    refine ⟨⟨_, fs ++ [.mappingValue flow (!marked)], hleft, ?_, ?_, hlist⟩,
      ahead_suffix hleft hbehind⟩
    · rw [hstack, List.append_assoc]
      rfl
    · exact hbegins.goes (isFlat_keyLead flow first marked) hkey (hsame _)
        (resumes_mappingValue flow _)
  | @missing marked he hleft hstack hnext =>
    exact ⟨⟨_, [.mappingValue flow false], hleft, hstack,
      .stay (isFlat_keyLead flow first marked) hkey (hsame false), hlist⟩,
      ahead_suffix hleft hbehind⟩

theorem ValueStep.moves {flow bare : Bool} (hp : p.expect = .mappingValue flow bare)
    (h : ValueStep flow bare p e p') (hbehind : p'.expect.isBehindKey = false) : Moves p p' := by
  have hkey {lead : List TokenKind} : .key ∈ lead → p.expect.closer?.isSome :=
    fun _ => by rw [hp, closer?_mappingValue]; rfl
  have hsame : (Expect.mappingKey flow false).enclosure = p.expect.enclosure := by
    rw [hp]
    cases flow <;> rfl
  have hnolist {P : Prop} : p.expect.enclosure = .list → P := by
    rw [hp]
    cases flow <;> exact fun hin => Enclosure.noConfusion hin
  cases h with
  | @node ks fs hbare hbegins hleft hstack hlist =>
    have hleft : p.left = ([.value] ++ ks) ++ p'.left := hleft
    refine ⟨⟨_, fs ++ [.mappingKey flow false], hleft, ?_, ?_, hnolist⟩,
      ahead_suffix hleft hbehind⟩
    · rw [hstack, List.append_assoc]
      rfl
    · exact hbegins.goes (by decide) hkey hsame (resumes_mappingKey flow)
  | @missing colon he hcolon hleft hstack =>
    have hflat : ∀ k ∈ colon, k.isFlat = true := by
      rcases hcolon with ⟨_, rfl⟩ | ⟨_, rfl⟩ <;> decide
    exact ⟨⟨_, [.mappingKey flow false], hleft, hstack, .stay hflat hkey hsame, hnolist⟩,
      ahead_suffix hleft hbehind⟩

/-! Steps. -/

/-- A closing bracket does not follow the mark of a key. -/
def KeyHolds (k k' : TokenKind) : Prop :=
  k = .key → k' ≠ .flowSequenceEnd

instance (k k' : TokenKind) : Decidable (KeyHolds k k') :=
  inferInstanceAs (Decidable (_ → _ ≠ _))

theorem step_moves (hinside : p.expect.enclosure ≠ .document) (hpending : p.pending = x :: s)
    (hx : x.resumes = true) (hkeys : p.ahead.IsChain KeyHolds)
    (h : p.step .document = .ok (e, p')) : Moves p p' := by
  unfold step at h
  split at h
  next hp => exact absurd (by rw [hp]; rfl) hinside
  next hp => exact absurd (by rw [hp]; rfl) hinside
  next hp => exact absurd (by rw [hp]; rfl) hinside
  next hp => exact absurd (by rw [hp]; rfl) hinside
  next hp => exact blockSequence_moves hp hpending hx h
  next hp => exact indentlessSequence_moves hp hpending hx h
  next first hp =>
    have hp : p.expect = .mappingKey false first := hp
    obtain ⟨hread, hbehind⟩ := blockMappingKey_reads hp hpending hx h
    exact hread.moves hp hbehind
  next hp =>
    have hp : p.expect = .mappingValue false false := hp
    obtain ⟨hread, hbehind⟩ := blockMappingValue_reads rfl hp h
    exact hread.moves hp hbehind
  next hp => exact flowSequence_moves hp hpending hx h
  next hp =>
    refine flowPairKey_moves hp (fun hhead => ?_) h
    have hahead : p.ahead = .key :: p.kinds := by
      rw [ahead, left_of_not_fresh (by rw [hp]; rfl), hp]
      rfl
    obtain ⟨r, hkinds⟩ := List.head?_eq_some_iff.mp hhead
    rw [hahead, hkinds] at hkeys
    exact (List.isChain_cons_cons.mp hkeys).1 rfl rfl
  next hp => exact flowPairValue_moves hp h
  next hp => exact flowPairEnd_moves hp h
  next first hp =>
    have hp : p.expect = .mappingKey true first := hp
    obtain ⟨hread, hbehind⟩ := flowMappingKey_reads hp hpending hx h
    exact hread.moves hp hbehind
  next bare hp =>
    have hp : p.expect = .mappingValue true bare := hp
    obtain ⟨hread, hbehind⟩ := flowMappingValue_reads hp h
    exact hread.moves hp hbehind
  next hp => exact absurd (by rw [hp]; rfl) hinside

end Parser

end Blueprint.Yaml
