import Blueprint.Proofs.RootLayout

/-!
The effect of each step of the parser on its stack and on the tokens still to be read, as a relation
with few cases: a node starts, a node is missing, a collection ends, or the step is between
documents.
-/

namespace Blueprint.Yaml

open Blueprint.Yaml.Parser (comma)

namespace Expect

/-- Whether a list without a start may be the next node, which is so in a block mapping only. -/
def takesLists : Expect → Bool
  | .blockMappingKey _ | .blockMappingValue => true
  | _ => false

/-- The tokens before a node of a collection, and what the parser comes back to behind the node. -/
inductive Leads : Expect → List TokenKind → Expect → Prop where
  | entry {first : Bool} : Leads (.blockSequence first) [.blockEntry] (.blockSequence false)
  | item : Leads .indentlessSequence [.blockEntry] .indentlessSequence
  | key {first : Bool} : Leads (.blockMappingKey first) [.key] .blockMappingValue
  | value : Leads .blockMappingValue [.value] (.blockMappingKey false)
  | element {first : Bool} : Leads (.flowSequence first) (comma first) (.flowSequence false)
  | pairKey : Leads .flowPairKey [] .flowPairValue
  | pairValue : Leads .flowPairValue [.value] .flowPairEnd
  | flowKey {first : Bool} :
    Leads (.flowMappingKey first) (comma first ++ [.key]) (.flowMappingValue false)
  | bareKey {first : Bool} : Leads (.flowMappingKey first) (comma first) (.flowMappingValue true)
  | flowValue : Leads (.flowMappingValue false) [.value] (.flowMappingKey false)

/-- The tokens that are read in a collection where a node is missing before the token `next`, and
what the parser waits for then. -/
inductive Misses (next : Option TokenKind) : Expect → List TokenKind → Expect → Prop where
  | entry {first : Bool} (h : next = some .blockEntry ∨ next = some .blockEnd) :
    Misses next (.blockSequence first) [.blockEntry] (.blockSequence false)
  | item (h : next = some .blockEntry ∨ next.any Parser.endsBlockPart = true) :
    Misses next .indentlessSequence [.blockEntry] .indentlessSequence
  | key {first : Bool} : Misses next (.blockMappingKey first) [.key] .blockMappingValue
  | unmarkedKey {first : Bool} (h : next = some .value) :
    Misses next (.blockMappingKey first) [] .blockMappingValue
  | value : Misses next .blockMappingValue [.value] (.blockMappingKey false)
  | unmarkedValue (h : next ≠ some .value) :
    Misses next .blockMappingValue [] (.blockMappingKey false)
  | pair {first : Bool} : Misses next (.flowSequence first) (comma first ++ [.key]) .flowPairKey
  | pairKey {k : TokenKind} (hk : k = .value ∨ k = .flowEntry ∨ k = .flowSequenceEnd) :
    Misses next .flowPairKey [k] .flowPairValue
  | pairValue : Misses next .flowPairValue [.value] .flowPairEnd
  | unmarkedPairValue (h : next ≠ some .value) : Misses next .flowPairValue [] .flowPairEnd
  | pairEnd : Misses next .flowPairEnd [] (.flowSequence false)
  | flowKey {first : Bool} :
    Misses next (.flowMappingKey first) (comma first ++ [.key]) (.flowMappingValue false)
  | unmarkedFlowKey {first : Bool} (h : next = some .value) :
    Misses next (.flowMappingKey first) (comma first) (.flowMappingValue false)
  | flowValue : Misses next (.flowMappingValue false) [.value] (.flowMappingKey false)
  | unmarkedFlowValue {bare : Bool} (h : bare = true ∨ next ≠ some .value) :
    Misses next (.flowMappingValue bare) [] (.flowMappingKey false)

/-- The tokens that end what the parser stands in. -/
inductive Ends (next : Option TokenKind) : Expect → List TokenKind → Prop where
  | root : Ends next .documentContent []
  | list (h : next ≠ some .blockEntry) : Ends next .indentlessSequence []
  | block {x : Expect} (hx : x.closer? = some .blockEnd) : Ends next x [.blockEnd]
  | flow {x : Expect} {lead : List TokenKind} {k : TokenKind}
    (hx : x.closer? = some k ∧ x.enclosure ≠ .block)
    (hlead : lead = [] ∨ ∃ first, lead = comma first) : Ends next x (lead ++ [k])

/-- Steps between documents. -/
inductive Outside : List Expect → List Expect → Prop where
  | content {implicit : Bool} {x : Expect} (hx : x = .documentContent ∨ x = .blockNode) :
    Outside [.document implicit] [x, .documentEnd]
  | nothing {implicit : Bool} : Outside [.document implicit] [.nothing]
  | next : Outside [.documentEnd] [.document false]

/-- The parser comes back to what stands on the stack below its top, if there has to be
something. -/
def Waits : List Expect → Prop
  | [] | .nothing :: _ => False
  | .document _ :: s | .documentEnd :: s => s = []
  | _ :: s => ∃ y r, s = y :: r ∧ y.resumes = true

theorem Leads.resumes {x y : Expect} {lead : List TokenKind} (h : x.Leads lead y) :
    y.resumes = true := by
  cases h <;> rfl

theorem Misses.isFresh {x y : Expect} {lead : List TokenKind} {next : Option TokenKind}
    (h : Misses next x lead y) : y.isFresh = false := by
  cases h <;> rfl

end Expect

namespace Parser

variable {d : Dialect} {p p' q : Parser} {e : Event} {x y : Expect} {s : List Expect}
  {ks : List TokenKind} {fs : List Expect}

/-- What a step makes of the stack and of the tokens still to be read. -/
inductive Effect : List Expect → List TokenKind → List Expect → List TokenKind → Prop where
  | outside {s s' : List Expect} {ks r : List TokenKind} (h : Expect.Outside s s')
    (hks : ∀ k ∈ ks, k.isOutside = true ∨ k = .streamEnd) : Effect s (ks ++ r) s' r
  | root {x : Expect} {s fs : List Expect} {ks r : List TokenKind} {k : EventKind}
    (hx : x = .documentContent ∨ x = .blockNode) (hbegins : Begins ks k fs)
    (hlist : ∀ z ∈ fs, z.closer?.isSome) : Effect (x :: s) (ks ++ r) (fs ++ s) r
  | node {x y : Expect} {s fs : List Expect} {lead ks r : List TokenKind} {k : EventKind}
    (hlead : x.Leads lead y) (hbegins : Begins ks k fs)
    (hlist : ∀ z ∈ fs, z.closer? = none → y.takesLists = true ∧ r.head? = some .blockEntry) :
    Effect (x :: s) (lead ++ (ks ++ r)) (fs ++ y :: s) r
  | missing {x y : Expect} {s : List Expect} {lead r : List TokenKind}
    (h : Expect.Misses r.head? x lead y) : Effect (x :: s) (lead ++ r) (y :: s) r
  | leave {x : Expect} {s : List Expect} {lead r : List TokenKind}
    (h : Expect.Ends r.head? x lead) : Effect (x :: s) (lead ++ r) s r

theorem effect_of_node {block indentless : Bool} (lead : List TokenKind) (hp : p.expect = x)
    (hlead : x.Leads lead y) (hlisted : indentless = true → y.takesLists = true)
    (hq : p.left = lead ++ q.kinds) (hpending : q.pending = p.pending)
    (h : (q.after y).node d block indentless = .ok (e, p')) :
    Effect p.stack p.left p'.stack p'.left := by
  obtain ⟨ks, fs, hbegun⟩ := node_begins (p := q.after y) rfl hlead.resumes h
  have hstack : p'.stack = fs ++ y :: p.pending := by
    rw [hbegun.stack, after, hpending]
  have hkinds : q.kinds = ks ++ p'.left := hbegun.left
  rw [hq, hkinds, hstack, stack, hp]
  exact .node hlead hbegun.begins fun z hz hnone => (hbegun.list z hz hnone).imp_left hlisted

theorem effect_of_missing {k : EventKind} {m : Mark} (lead : List TokenKind) (hp : p.expect = x)
    (hmisses : Expect.Misses q.kinds.head? x lead y) (hq : p.left = lead ++ q.kinds)
    (hpending : q.pending = p.pending)
    (h : emit k m (q.goto y) = .ok (e, p')) : Effect p.stack p.left p'.stack p'.left := by
  cases h
  have hleft : (q.goto y).left = q.kinds := left_goto hmisses.isFresh
  have hstack : (q.goto y).stack = y :: p.pending := congrArg (y :: ·) hpending
  rw [hq, hleft, hstack, stack, hp]
  exact .missing hmisses

theorem effect_of_leave {k : EventKind} {m : Mark} (lead : List TokenKind) (hp : p.expect = x)
    (hends : Expect.Ends q.kinds.head? x lead) (hpending : p.pending = y :: s)
    (hy : y.resumes = true) (hq : p.left = lead ++ q.kinds) (hqp : q.pending = p.pending)
    (h : emit k m q.back = .ok (e, p')) :
    Effect p.stack p.left p'.stack p'.left := by
  cases h
  obtain ⟨hleft, hstack, -⟩ := back_spec (hqp.trans hpending) hy
  rw [hq, hleft, hstack, hqp, stack, hp]
  exact .leave hends

theorem blockSequence_effect {first : Bool} (hp : p.expect = .blockSequence first)
    (hpending : p.pending = x :: s) (hx : x.resumes = true)
    (h : p.blockSequence d first = .ok (e, p')) : Effect p.stack p.left p'.stack p'.left := by
  unfold blockSequence at h
  obtain ⟨q, hq, hqp, h⟩ := enter_read (by rw [hp]; rfl) h
  obtain ⟨⟨t, p₁⟩, hlook, h⟩ := bind_eq_ok.mp h
  obtain ⟨hkinds, _, hp₁⟩ := look_read hlook
  have hleft : p.left = t.kind :: p₁.drop.kinds := hq.symm.trans hkinds
  dsimp only at h
  split at h
  next hkind =>
    rw [hkind] at hleft
    exact effect_of_leave [.blockEnd] hp (.block rfl) hpending hx hleft (hp₁.trans hqp) h
  next hkind =>
    obtain ⟨⟨t', p₂⟩, hlook', h⟩ := bind_eq_ok.mp h
    obtain ⟨hkinds', hkinds₂, hp₂⟩ := look_read hlook'
    rw [hkind, ← hkinds₂] at hleft
    have hpending₂ : p₂.pending = p.pending := (hp₂.trans hp₁).trans hqp
    have hnext : p₂.kinds.head? = some t'.kind := by
      rw [hkinds₂, hkinds']
      rfl
    dsimp only at h
    split at h
    next hentry =>
      exact effect_of_missing [.blockEntry] hp (.entry (Or.inl (hentry ▸ hnext))) hleft hpending₂ h
    next hend =>
      exact effect_of_missing [.blockEntry] hp (.entry (Or.inr (hend ▸ hnext))) hleft hpending₂ h
    · exact effect_of_node [.blockEntry] hp .entry Bool.noConfusion hleft hpending₂ h
  · cases h

theorem indentlessSequence_effect (hp : p.expect = .indentlessSequence)
    (hpending : p.pending = x :: s) (hx : x.resumes = true)
    (h : p.indentlessSequence d = .ok (e, p')) : Effect p.stack p.left p'.stack p'.left := by
  unfold indentlessSequence at h
  obtain ⟨⟨t, p₁⟩, hlook, h⟩ := bind_eq_ok.mp h
  obtain ⟨hkinds, hkinds₁, hp₁⟩ := look_read hlook
  have hleft : p.left = p.kinds := left_of_not_fresh (by rw [hp]; rfl)
  dsimp only at h
  split at h
  next hkind =>
    refine effect_of_leave [] hp (.list ?_) hpending hx (hleft.trans hkinds₁.symm) hp₁ h
    rw [hkinds₁, hkinds]
    exact fun heq => hkind (Option.some.inj heq)
  next hkind =>
    obtain ⟨⟨t', p₂⟩, hlook', h⟩ := bind_eq_ok.mp h
    obtain ⟨hkinds', hkinds₂, hp₂⟩ := look_read hlook'
    rw [hkinds, Decidable.of_not_not hkind, ← hkinds₂] at hleft
    have hpending₂ : p₂.pending = p.pending := hp₂.trans hp₁
    have hnext : p₂.kinds.head? = some t'.kind := by
      rw [hkinds₂, hkinds']
      rfl
    dsimp only at h
    split at h
    next hmissing =>
      refine effect_of_missing [.blockEntry] hp (.item ?_) hleft hpending₂ h
      rw [Bool.or_eq_true, decide_eq_true_eq] at hmissing
      rw [hnext]
      exact hmissing.imp_left (congrArg some)
    · exact effect_of_node [.blockEntry] hp .item Bool.noConfusion hleft hpending₂ h

theorem flowSequence_effect {first : Bool} (hp : p.expect = .flowSequence first)
    (hpending : p.pending = x :: s) (hx : x.resumes = true)
    (h : p.flowSequence d first = .ok (e, p')) : Effect p.stack p.left p'.stack p'.left := by
  unfold flowSequence at h
  obtain ⟨q, hq, hqp, h⟩ := enter_read (by rw [hp]; rfl) h
  obtain ⟨⟨t, p₁⟩, hlook, h⟩ := bind_eq_ok.mp h
  obtain ⟨hkinds, hkinds₁, hp₁⟩ := look_read hlook
  have hleft : p.left = p₁.kinds := hq.symm.trans hkinds₁.symm
  have hflow : (Expect.flowSequence first).closer? = some .flowSequenceEnd ∧
      (Expect.flowSequence first).enclosure ≠ .block := ⟨rfl, Enclosure.noConfusion⟩
  dsimp only at h
  split at h
  next hkind =>
    rw [hkinds₁, hkinds, hkind] at hleft
    exact effect_of_leave _ hp (.flow hflow (Or.inl rfl)) hpending hx hleft (hp₁.trans hqp) h
  · obtain ⟨p₂, hcomma, hp₂, h⟩ := separate_read (hkinds₁.trans hkinds) rfl h
    obtain ⟨⟨t', p₃⟩, hlook', h⟩ := bind_eq_ok.mp h
    obtain ⟨hkinds₂, hkinds₃, hp₃⟩ := look_read hlook'
    have hpending₃ : p₃.pending = p.pending := ((hp₃.trans hp₂).trans hp₁).trans hqp
    rw [hcomma] at hleft
    dsimp only at h
    split at h
    next hkind =>
      rw [hkinds₂, hkind, List.append_cons] at hleft
      exact effect_of_leave _ hp (.flow hflow (Or.inr ⟨first, rfl⟩)) hpending hx hleft hpending₃ h
    next hkind =>
      rw [hkinds₂, hkind, List.append_cons] at hleft
      exact effect_of_missing (q := p₃.drop) _ hp .pair hleft hpending₃ h
    · rw [← hkinds₃] at hleft
      exact effect_of_node _ hp .element Bool.noConfusion hleft hpending₃ h

theorem flowPairKey_effect (hp : p.expect = .flowPairKey) (h : p.flowPairKey d = .ok (e, p')) :
    Effect p.stack p.left p'.stack p'.left := by
  unfold flowPairKey at h
  obtain ⟨⟨t, p₁⟩, hlook, h⟩ := bind_eq_ok.mp h
  obtain ⟨hkinds, hkinds₁, hp₁⟩ := look_read hlook
  have hleft : p.left = p.kinds := left_of_not_fresh (by rw [hp]; rfl)
  have hmissing {k : TokenKind} (hk : k = .value ∨ k = .flowEntry ∨ k = .flowSequenceEnd)
      (hkind : t.kind = k) (h : emitEmpty d t.mark (p₁.drop.goto .flowPairValue) = .ok (e, p')) :
      Effect p.stack p.left p'.stack p'.left := by
    rw [hkinds, hkind] at hleft
    exact effect_of_missing (q := p₁.drop) [k] hp (.pairKey hk) hleft hp₁ h
  dsimp only at h
  split at h
  next hkind => exact hmissing (Or.inl rfl) hkind h
  next hkind => exact hmissing (Or.inr (Or.inl rfl)) hkind h
  next hkind => exact hmissing (Or.inr (Or.inr rfl)) hkind h
  · exact effect_of_node [] hp .pairKey Bool.noConfusion (hleft.trans hkinds₁.symm) hp₁ h

theorem flowPairValue_effect (hp : p.expect = .flowPairValue)
    (h : p.flowPairValue d = .ok (e, p')) : Effect p.stack p.left p'.stack p'.left := by
  unfold flowPairValue at h
  obtain ⟨⟨t, p₁⟩, hlook, h⟩ := bind_eq_ok.mp h
  obtain ⟨hkinds, hkinds₁, hp₁⟩ := look_read hlook
  have hleft : p.left = p.kinds := left_of_not_fresh (by rw [hp]; rfl)
  dsimp only at h
  split at h
  next hkind =>
    obtain ⟨⟨t', p₂⟩, hlook', h⟩ := bind_eq_ok.mp h
    obtain ⟨_, hkinds₂, hp₂⟩ := look_read hlook'
    rw [hkinds, hkind, ← hkinds₂] at hleft
    have hpending₂ : p₂.pending = p.pending := hp₂.trans hp₁
    dsimp only at h
    split at h
    · exact effect_of_missing [.value] hp .pairValue hleft hpending₂ h
    · exact effect_of_missing [.value] hp .pairValue hleft hpending₂ h
    · exact effect_of_node [.value] hp .pairValue Bool.noConfusion hleft hpending₂ h
  next hkind =>
    refine effect_of_missing [] hp (.unmarkedPairValue ?_) (hleft.trans hkinds₁.symm) hp₁ h
    rw [hkinds₁, hkinds]
    exact fun heq => hkind (Option.some.inj heq)

/-! Mappings. -/

theorem keyLead_unmarked (first : Bool) : keyLead true first false = comma first :=
  List.append_nil _

theorem KeyStep.effect (flow : Bool) {first : Bool} (hp : p.expect = .mappingKey flow first)
    (h : KeyStep flow first p e p') : Effect p.stack p.left p'.stack p'.left := by
  have hstack : p.stack = .mappingKey flow first :: p.pending := congrArg (· :: p.pending) hp
  cases h with
  | @stop lead hlead hleft hback he =>
    rw [hleft, hback, hstack, List.append_cons]
    refine .leave ?_
    cases flow with
    | true => exact .flow ⟨rfl, Enclosure.noConfusion⟩ (hlead.imp_right fun h => ⟨first, h.2⟩)
    | false =>
      obtain rfl : lead = [] := hlead.resolve_right fun h => Bool.noConfusion h.1
      exact .block rfl
  | @node marked ks fs hmarked hbegins hleft hnode hlist =>
    rw [hleft, hnode, hstack]
    refine .node ?_ hbegins fun z hz hnone => ?_
    · cases flow with
      | true =>
        cases marked with
        | true => exact .flowKey
        | false =>
          rw [keyLead_unmarked]
          exact .bareKey
      | false =>
        obtain rfl : marked = true := Bool.of_not_eq_false fun h => Bool.noConfusion (hmarked h)
        exact .key
    · obtain ⟨rfl, hentry⟩ := hlist z hz hnone
      exact ⟨rfl, hentry⟩
  | @missing marked he hleft hgone hnext =>
    rw [hleft, hgone, hstack]
    refine .missing ?_
    cases flow <;> cases marked
    · exact .unmarkedKey (hnext rfl)
    · exact .key
    · rw [keyLead_unmarked]
      exact .unmarkedFlowKey (hnext rfl)
    · exact .flowKey

theorem ValueStep.effect (flow : Bool) {bare : Bool} (hp : p.expect = .mappingValue flow bare)
    (hbare : bare = true → flow = true) (h : ValueStep flow bare p e p') :
    Effect p.stack p.left p'.stack p'.left := by
  have hstack : p.stack = .mappingValue flow bare :: p.pending := congrArg (· :: p.pending) hp
  cases h with
  | @node ks fs hmarked hbegins hleft hnode hlist =>
    subst hmarked
    rw [hleft, hnode, hstack]
    refine @Effect.node _ _ _ _ [.value] _ _ _ ?_ hbegins fun z hz hnone => ?_
    · cases flow
      · exact .value
      · exact .flowValue
    · obtain ⟨rfl, hentry⟩ := hlist z hz hnone
      exact ⟨rfl, hentry⟩
  | @missing colon he hcolon hleft hgone =>
    have hnext (hnil : colon = []) : p'.left.head? = p.left.head? := by
      rw [hleft, hnil]
      rfl
    rw [hgone, hstack]
    rw [hleft] at hcolon ⊢
    refine .missing ?_
    rcases hcolon with ⟨rfl, rfl⟩ | ⟨hor, rfl⟩
    · cases flow
      · exact .value
      · exact .flowValue
    · cases flow with
      | false =>
        refine .unmarkedValue (hor.resolve_left fun htrue => ?_)
        exact Bool.noConfusion (hbare htrue)
      | true => exact .unmarkedFlowValue hor

/-! Documents. -/

theorem document_effect {implicit : Bool} (hp : p.expect = .document implicit)
    (hpending : p.pending = []) (h : p.document d implicit = .ok (e, p')) :
    Effect p.stack p.left p'.stack p'.left := by
  have hleft : p.left = p.kinds := left_of_not_fresh (by rw [hp]; rfl)
  have hstack : p.stack = [.document implicit] := by rw [stack, hp, hpending]
  rcases document_reads hpending h with ⟨-, hnothing, ks, hks, houtside⟩ |
    ⟨ks, hks, houtside, hroot, hexpect⟩
  · have hleft' : p'.left = p'.kinds := by
      refine left_of_not_fresh ?_
      rw [(List.cons.inj hnothing).1]
      rfl
    rw [hleft, hks, hstack, hnothing, hleft', List.append_cons]
    refine .outside .nothing fun k hk => ?_
    rcases List.mem_append.mp hk with hk | hk
    · exact Or.inl (houtside k hk)
    · exact Or.inr (List.mem_singleton.mp hk)
  · have hleft' : p'.left = p'.kinds := by
      refine left_of_not_fresh ?_
      rcases hexpect with hexpect | hexpect <;> rw [hexpect] <;> rfl
    rw [hleft, hks, hstack, hleft', stack, hroot]
    exact .outside (.content hexpect) fun k hk => Or.inl (houtside k hk)

theorem documentEnd_effect (hp : p.expect = .documentEnd) (hpending : p.pending = [])
    (h : p.documentEnd = .ok (e, p')) : Effect p.stack p.left p'.stack p'.left := by
  unfold documentEnd at h
  obtain ⟨⟨t, p₁⟩, hlook, h⟩ := bind_eq_ok.mp h
  obtain ⟨hkinds, hkinds₁, hp₁⟩ := look_read hlook
  have hleft : p.left = p.kinds := left_of_not_fresh (by rw [hp]; rfl)
  have hstack : p.stack = [.documentEnd] := by rw [stack, hp, hpending]
  cases h
  split
  next hkind =>
    have hback : (p₁.drop.goto (.document false)).stack = [.document false] :=
      congrArg (_ :: ·) (hp₁.trans hpending)
    rw [hleft, hkinds, hkind, hstack, hback]
    refine @Effect.outside _ _ [.documentEnd] _ .next fun k hk => Or.inl ?_
    rw [List.mem_singleton.mp hk]
    rfl
  · have hback : (p₁.goto (.document false)).stack = [.document false] :=
      congrArg (_ :: ·) (hp₁.trans hpending)
    rw [hleft, ← hkinds₁, hstack, hback]
    exact @Effect.outside _ _ [] _ .next fun k hk => absurd hk List.not_mem_nil

theorem root_effect {indentless : Bool} (hp : p.expect = .documentContent ∨ p.expect = .blockNode)
    (hpending : p.pending = x :: s) (hx : x.resumes = true) (hindentless : indentless = false)
    (hq : q.kinds = p.kinds ∧ q.pending = p.pending)
    (h : q.node d true indentless = .ok (e, p')) : Effect p.stack p.left p'.stack p'.left := by
  have hleft : p.left = p.kinds :=
    left_of_not_fresh (by rcases hp with hp | hp <;> rw [hp] <;> rfl)
  obtain ⟨ks, fs, hbegun⟩ := node_begins (hq.2.trans hpending) hx h
  rw [hleft, ← hq.1, hbegun.left, hbegun.stack, hq.2]
  refine .root hp hbegun.begins fun z hz => ?_
  cases hcloser : z.closer? with
  | some c => rfl
  | none =>
    have hlisted := (hbegun.list z hz hcloser).1
    rw [hindentless] at hlisted
    cases hlisted

theorem documentContent_effect (hp : p.expect = .documentContent) (hpending : p.pending = x :: s)
    (hx : x.resumes = true) (h : p.documentContent d = .ok (e, p')) :
    Effect p.stack p.left p'.stack p'.left := by
  unfold documentContent at h
  obtain ⟨⟨t, p₁⟩, hlook, h⟩ := bind_eq_ok.mp h
  obtain ⟨hkinds, hkinds₁, hp₁⟩ := look_read hlook
  have hleft : p.left = p.kinds := left_of_not_fresh (by rw [hp]; rfl)
  have hempty (h : emitEmpty d t.mark p₁.back = .ok (e, p')) :
      Effect p.stack p.left p'.stack p'.left :=
    effect_of_leave [] hp .root hpending hx (hleft.trans hkinds₁.symm) hp₁ h
  dsimp only at h
  split at h
  · exact hempty h
  · exact hempty h
  · exact hempty h
  · exact hempty h
  · exact hempty h
  · exact root_effect (Or.inl hp) hpending hx rfl ⟨hkinds₁, hp₁⟩ h

/-- Every step of the parser is one of these. -/
theorem step_effect (hwaits : Expect.Waits p.stack) (h : p.step .document = .ok (e, p')) :
    Effect p.stack p.left p'.stack p'.left := by
  have hinside (hx : ∃ y r, p.pending = y :: r ∧ y.resumes = true) {P : Prop}
      (h : ∀ {x s}, p.pending = x :: s → x.resumes = true → P) : P := by
    obtain ⟨y, r, hpending, hy⟩ := hx
    exact h hpending hy
  rw [stack] at hwaits
  unfold step at h
  split at h <;> rename_i hp <;> rw [hp] at hwaits
  · exact document_effect hp hwaits h
  · exact hinside hwaits fun hpending hx => documentContent_effect hp hpending hx h
  · exact documentEnd_effect hp hwaits h
  · exact hinside hwaits fun hpending hx => root_effect (Or.inr hp) hpending hx rfl ⟨rfl, rfl⟩ h
  · exact hinside hwaits fun hpending hx => blockSequence_effect hp hpending hx h
  · exact hinside hwaits fun hpending hx => indentlessSequence_effect hp hpending hx h
  · exact hinside hwaits fun hpending hx =>
      KeyStep.effect false hp (blockMappingKey_reads hp hpending hx h).1
  · exact ValueStep.effect false hp Bool.noConfusion (blockMappingValue_reads rfl hp h).1
  · exact hinside hwaits fun hpending hx => flowSequence_effect hp hpending hx h
  · exact flowPairKey_effect hp h
  · exact flowPairValue_effect hp h
  · have hleft : p.left = [] ++ p.kinds := left_of_not_fresh (by rw [hp]; rfl)
    exact effect_of_missing [] hp .pairEnd hleft rfl h
  · exact hinside hwaits fun hpending hx =>
      KeyStep.effect true hp (flowMappingKey_reads hp hpending hx h).1
  · exact ValueStep.effect true hp (fun _ => rfl) (flowMappingValue_reads hp h).1
  · cases h

end Parser

end Blueprint.Yaml
