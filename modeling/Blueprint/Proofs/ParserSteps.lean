import Blueprint.Proofs.ParserSlots

/-!
What one step of the parser does to its slots. Every step leaves less to do: dropping a token
outweighs whatever the slots demand.
-/

namespace Blueprint.Yaml

namespace Parser

variable {d : Dialect} {p p' q : Parser} {e : Event} {t : Token}

/-- A node is read in a slot, mostly after a token that has been dropped. -/
theorem Passed.advances_of_node {ds : List HandedToken} {block indentless : Bool} {s s' : Slot}
    {r : List Slot} {expect : Expect} (h : Passed ds [] p q)
    (hslots : p.expect.slots = s :: r) (hexpect : expect.slots = s' :: r) (hnext : s.next = [s'])
    (hwork : ds = [] → expect.work none < p.expect.work p.nextKind ∧ indentless = false)
    (hnode : (q.after expect).node d block indentless = .ok (e, p')) : Advances p e p' := by
  have hread := node_reads hnode
  obtain ⟨new, hnew, hp'⟩ := hread.slots
  have hpending : (q.after expect).pending = expect :: p.pending := by
    rw [after, h.pending]
  refine ⟨?_, ?_, ?_, ?_, ?_, ?_, ?_⟩
  · intro htidy
    apply hread.tidy
    intro x hx
    rw [hpending] at hx
    rcases List.mem_cons.mp hx with rfl | hx
    · rw [hexpect]
      exact List.cons_ne_nil _ _
    · exact htidy.pending x hx
  · rw [hp', hpending, List.flatMap_cons, hexpect, slots, hslots, List.cons_append]
    have := Slot.Turn.node (s := s) (r := r ++ p.pending.flatMap Expect.slots) hnew
    rwa [hnext] at this
  · have hload : (q.after expect).load = q.load + expect.work none := by
      simp only [load, after, List.map_cons, List.sum_cons]
      omega
    have hless := hread.less
    have heq := h.load_eq
    have hthree := Expect.work_le_three none expect
    unfold work at hless ⊢
    cases ds with
    | nil =>
      obtain ⟨hlt, hindent⟩ := hwork rfl
      rw [hindent] at hless
      simp only [List.length_nil] at heq
      simp only [Bool.false_eq_true, if_false] at hless
      omega
    | cons th ds =>
      rw [List.length_cons] at heq
      split at hless <;> omega
  · rw [hread.anchors]
    exact congrArg _ h.anchors
  · intro name hname
    have := hread.known name hname
    rwa [show (q.after expect).anchors = p.anchors from h.anchors] at this
  · obtain ⟨t, rest, hsuf, hsuf', _⟩ := hread.meets
    exact (hsuf'.trans hsuf).trans h.suffix
  · intro _
    obtain ⟨t, rest, hsuf, hsuf', hmark⟩ := hread.meets
    exact ⟨t, rest, hsuf.trans h.suffix, hsuf', hmark⟩

/-- A missing node stands where a token is met. -/
theorem Passed.advances_of_empty {ds : List HandedToken} {s s' : Slot} {r : List Slot}
    {expect : Expect} {m : Mark} (h : Passed ds [] p q) (hm : Meets p.tokens m q.tokens)
    (hslots : p.expect.slots = s :: r) (hexpect : expect.slots = s' :: r) (hnext : s.next = [s'])
    (hwork : ds = [] → expect.work q.nextKind < p.expect.work p.nextKind)
    (he : emitEmpty d m (q.goto expect) = .ok (e, p')) : Advances p e p' := by
  cases he
  refine ⟨fun htidy => goto_tidy (h.pending ▸ htidy.pending) hexpect, ?_, ?_, h.anchors, ?_,
    h.suffix, fun _ => hm⟩
  · rw [slots, goto, slots, hexpect, h.pending, hslots, List.cons_append]
    show Slot.Turn _ _ ([] ++ ([s'] ++ _))
    rw [← hnext]
    exact .node rfl
  · have heq := h.load_eq
    have hthree := Expect.work_le_three q.nextKind expect
    show q.load + expect.work q.nextKind < p.load + p.expect.work p.nextKind
    cases ds with
    | nil =>
      have := hwork rfl
      simp only [List.length_nil] at heq
      omega
    | cons th ds =>
      rw [List.length_cons] at heq
      omega
  · exact fun _ => EventKind.noConfusion

/-- A pair inside a flow sequence opens a mapping without a token of its own. -/
theorem Passed.advances_of_pair {th : HandedToken} {ds : List HandedToken} {m : Mark}
    (h : Passed (th :: ds) [] p q) (hm : Meets p.tokens m q.tokens)
    (hslots : p.expect.slots = [.item]) :
    Advances p ⟨.mappingStart none none, m⟩ (q.goto .flowPairKey) := by
  refine ⟨fun htidy => goto_tidy (h.pending ▸ htidy.pending) rfl, ?_, ?_, h.anchors, ?_,
    h.suffix, fun _ => hm⟩
  · rw [slots, goto, slots, h.pending, hslots]
    show Slot.Turn _ _ ([.key] ++ (Slot.next .item ++ _))
    exact .node rfl
  · have heq := h.load_eq
    rw [List.length_cons] at heq
    show q.load + 3 < p.load + p.expect.work p.nextKind
    omega
  · exact fun _ => EventKind.noConfusion

/-- The end of a collection closes its slot. -/
theorem Passed.advances_of_stop {ds : List HandedToken} {s : Slot} {k : EventKind} {m : Mark}
    (h : Passed ds [] p q) (hslots : p.expect.slots = [s]) (hk : k.closes? = some s)
    (hwork : ds = [] → 0 < p.expect.work p.nextKind) : Advances p ⟨k, m⟩ q.back := by
  have hopens : k.opens? = none := by cases k <;> first | rfl | cases hk
  have hanchor : k.anchor? = none := by cases k <;> first | rfl | cases hk
  refine ⟨fun htidy => back_tidy (h.pending ▸ htidy.pending), ?_, ?_, ?_, ?_, ?_, ?_⟩
  · rw [back_slots, h.pending, slots, hslots]
    exact .stop hk
  · have hback := back_work q
    have heq := h.load_eq
    show q.back.work < p.load + p.expect.work p.nextKind
    cases ds with
    | nil =>
      have := hwork rfl
      simp only [List.length_nil] at heq
      omega
    | cons th ds =>
      rw [List.length_cons] at heq
      omega
  · rw [back_anchors, h.anchors, hanchor]
    rfl
  · rintro name hname
    rw [show k = .alias name from hname] at hopens
    cases hopens
  · rw [back_tokens]
    exact h.suffix
  · intro hsome
    rw [show ({ kind := k, mark := m } : Event).kind = k from rfl, hopens] at hsome
    cases hsome

/-- Going on after the token that opens a collection. -/
theorem enter_ok {first : Bool} {f : Parser → Step}
    (h : (do
      let p ← if first then do let (_, p) ← p.look; pure p.drop else pure p
      f p) = .ok (e, p')) :
    ∃ ds q, Passed ds [] p q ∧ (first = true → ds ≠ []) ∧ f q = .ok (e, p') := by
  dsimp only at h
  split at h
  · obtain ⟨⟨t, p₁⟩, hlook, h⟩ := bind_eq_ok.mp h
    obtain ⟨th, r, rfl, htokens, h₁⟩ := look_passed hlook
    exact ⟨_, _, h₁.trans (drop_passed htokens), by simp, h⟩
  next hfirst => exact ⟨[], p, .refl p, fun htrue => absurd htrue hfirst, h⟩

/-- Going on after the comma before another entry of a flow collection. -/
theorem separate_ok {first : Bool} {th : HandedToken} {r : List HandedToken} {fault : Fault}
    {f : Parser → Step} (htokens : p.tokens = th :: r)
    (h : (do
      let p ←
        if first then pure p
        else if th.token.kind = TokenKind.flowEntry then pure p.drop
        else fail fault th.token.mark
      f p) = .ok (e, p')) :
    ∃ ds q, Passed ds [] p q ∧ (first = false → ds ≠ []) ∧ f q = .ok (e, p') := by
  dsimp only at h
  split at h
  next hfirst => exact ⟨[], p, .refl p, by simp [hfirst], h⟩
  · split at h
    · exact ⟨_, _, drop_passed htokens, by simp, h⟩
    · cases h

theorem blockSequence_advances {first : Bool} (hp : p.expect = .blockSequence first)
    (h : p.blockSequence d first = .ok (e, p')) : Advances p e p' := by
  unfold blockSequence at h
  have hslots : p.expect.slots = [.item] := by rw [hp]; rfl
  obtain ⟨ds, p₁, h₁, _, h⟩ := enter_ok h
  obtain ⟨⟨t, p₂⟩, hlook, h⟩ := bind_eq_ok.mp h
  obtain ⟨th, r, rfl, htokens, h₂⟩ := look_passed hlook
  have h₂ := (h₁.trans h₂).trans (drop_passed htokens)
  dsimp only at h
  split at h
  · cases h
    exact h₂.advances_of_stop hslots rfl (by simp)
  · obtain ⟨⟨t, p₃⟩, hlook, h⟩ := bind_eq_ok.mp h
    obtain ⟨th', r', rfl, htokens', h₃⟩ := look_passed hlook
    have h₃ := h₂.trans h₃
    dsimp only at h
    split at h
    · exact h₃.advances_of_empty (h₃.meets htokens') hslots rfl rfl (by simp) h
    · exact h₃.advances_of_empty (h₃.meets htokens') hslots rfl rfl (by simp) h
    · exact h₃.advances_of_node hslots rfl rfl (by simp) h
  · cases h

theorem indentlessSequence_advances (hp : p.expect = .indentlessSequence)
    (h : p.indentlessSequence d = .ok (e, p')) : Advances p e p' := by
  unfold indentlessSequence at h
  have hslots : p.expect.slots = [.item] := by rw [hp]; rfl
  obtain ⟨⟨t, p₁⟩, hlook, h⟩ := bind_eq_ok.mp h
  obtain ⟨th, r, rfl, htokens, h₁⟩ := look_passed hlook
  dsimp only at h
  split at h
  · cases h
    exact h₁.advances_of_stop hslots rfl (fun _ => by rw [hp]; exact Nat.one_pos)
  · obtain ⟨⟨t, p₂⟩, hlook, h⟩ := bind_eq_ok.mp h
    obtain ⟨th', r', rfl, htokens', h₂⟩ := look_passed hlook
    have h₂ := (h₁.trans (drop_passed htokens)).trans h₂
    dsimp only at h
    split at h
    · exact h₂.advances_of_empty (h₂.meets htokens') hslots rfl rfl (by simp) h
    · exact h₂.advances_of_node hslots rfl rfl (by simp) h

theorem blockMappingKey_advances {first : Bool} (hp : p.expect = .blockMappingKey first)
    (h : p.blockMappingKey d first = .ok (e, p')) : Advances p e p' := by
  unfold blockMappingKey at h
  have hslots : p.expect.slots = [.key] := by rw [hp]; rfl
  obtain ⟨ds, p₁, h₁, hds, h⟩ := enter_ok h
  obtain ⟨⟨t, p₂⟩, hlook, h⟩ := bind_eq_ok.mp h
  obtain ⟨th, r, rfl, htokens, h₂⟩ := look_passed hlook
  have h₂ := h₁.trans h₂
  have hdrop := h₂.trans (drop_passed htokens)
  dsimp only at h
  split at h
  · obtain ⟨⟨t, p₃⟩, hlook, h⟩ := bind_eq_ok.mp h
    obtain ⟨th', r', rfl, htokens', h₃⟩ := look_passed hlook
    have h₃ := hdrop.trans h₃
    dsimp only at h
    split at h
    · exact h₃.advances_of_empty (h₃.meets htokens') hslots rfl rfl (by simp) h
    · exact h₃.advances_of_node hslots rfl rfl (by simp) h
  · cases h
    exact hdrop.advances_of_stop hslots rfl (by simp)
  next hkind =>
    split at h
    · cases h
    · refine h₂.advances_of_empty (h₂.meets htokens) hslots rfl rfl ?_ h
      intro hnil
      rw [List.append_nil] at hnil
      have hnext : p₂.nextKind = some .value := by
        rw [nextKind, htokens, List.head?_cons, Option.map_some, hkind]
      cases first with
      | true => exact absurd hnil (hds rfl)
      | false =>
        rw [hnext, hp]
        exact Nat.one_pos
  · cases h

theorem blockMappingValue_advances (hp : p.expect = .blockMappingValue)
    (h : p.blockMappingValue d = .ok (e, p')) : Advances p e p' := by
  unfold blockMappingValue at h
  have hslots : p.expect.slots = [.value] := by rw [hp]; rfl
  obtain ⟨⟨t, p₁⟩, hlook, h⟩ := bind_eq_ok.mp h
  obtain ⟨th, r, rfl, htokens, h₁⟩ := look_passed hlook
  dsimp only at h
  split at h
  · obtain ⟨⟨t, p₂⟩, hlook, h⟩ := bind_eq_ok.mp h
    obtain ⟨th', r', rfl, htokens', h₂⟩ := look_passed hlook
    have h₂ := (h₁.trans (drop_passed htokens)).trans h₂
    dsimp only at h
    split at h
    · exact h₂.advances_of_empty (h₂.meets htokens') hslots rfl rfl (by simp) h
    · exact h₂.advances_of_node hslots rfl rfl (by simp) h
  next hkind =>
    refine h₁.advances_of_empty (h₁.meets htokens) hslots rfl rfl ?_ h
    intro _
    have hnext : p.nextKind = some th.token.kind := by
      rw [nextKind, h₁.tokens, List.nil_append, htokens]
      rfl
    rw [hp, hnext, Expect.work.eq_def]
    simp [hkind, Expect.work]

theorem flowSequence_advances {first : Bool} (hp : p.expect = .flowSequence first)
    (h : p.flowSequence d first = .ok (e, p')) : Advances p e p' := by
  unfold flowSequence at h
  have hslots : p.expect.slots = [.item] := by rw [hp]; rfl
  obtain ⟨ds, p₁, h₁, hds, h⟩ := enter_ok h
  obtain ⟨⟨t, p₂⟩, hlook, h⟩ := bind_eq_ok.mp h
  obtain ⟨th, r, rfl, htokens, h₂⟩ := look_passed hlook
  have h₂ := h₁.trans h₂
  dsimp only at h
  split at h
  · cases h
    exact (h₂.trans (drop_passed htokens)).advances_of_stop hslots rfl (by simp)
  · obtain ⟨ds', p₃, h₃, hds', h⟩ := separate_ok htokens h
    have h₃ := h₂.trans h₃
    obtain ⟨⟨t, p₄⟩, hlook, h⟩ := bind_eq_ok.mp h
    obtain ⟨th', r', rfl, htokens', h₄⟩ := look_passed hlook
    have h₄ := h₃.trans h₄
    have hne : ds ++ [] ++ ds' ++ [] ≠ [] := by
      cases first with
      | true => simp [hds rfl]
      | false => simp [hds' rfl]
    dsimp only at h
    split at h
    · cases h
      exact (h₄.trans (drop_passed htokens')).advances_of_stop hslots rfl (by simp)
    · cases h
      have h₅ := h₄.trans (drop_passed htokens')
      obtain ⟨th₀, ds₀, heq⟩ := List.exists_cons_of_ne_nil
        (List.append_ne_nil_of_left_ne_nil hne [th'])
      rw [heq] at h₅
      exact h₅.advances_of_pair (h₄.meets_drop htokens') hslots
    · exact h₄.advances_of_node hslots rfl rfl (fun hnil => absurd hnil hne) h

theorem flowPairKey_advances (hp : p.expect = .flowPairKey)
    (h : p.flowPairKey d = .ok (e, p')) : Advances p e p' := by
  unfold flowPairKey at h
  have hslots : p.expect.slots = [.key, .item] := by rw [hp]; rfl
  obtain ⟨⟨t, p₁⟩, hlook, h⟩ := bind_eq_ok.mp h
  obtain ⟨th, r, rfl, htokens, h₁⟩ := look_passed hlook
  have hdrop := h₁.trans (drop_passed htokens)
  have hempty (h : emitEmpty d th.token.mark (p₁.drop.goto .flowPairValue) = .ok (e, p')) :
      Advances p e p' :=
    hdrop.advances_of_empty (h₁.meets_drop htokens) hslots rfl rfl (by simp) h
  dsimp only at h
  split at h
  · exact hempty h
  · exact hempty h
  · exact hempty h
  · refine h₁.advances_of_node hslots rfl rfl (fun _ => ⟨?_, rfl⟩) h
    rw [hp]
    exact Nat.lt_succ_self 2

theorem flowPairValue_advances (hp : p.expect = .flowPairValue)
    (h : p.flowPairValue d = .ok (e, p')) : Advances p e p' := by
  unfold flowPairValue at h
  have hslots : p.expect.slots = [.value, .item] := by rw [hp]; rfl
  obtain ⟨⟨t, p₁⟩, hlook, h⟩ := bind_eq_ok.mp h
  obtain ⟨th, r, rfl, htokens, h₁⟩ := look_passed hlook
  dsimp only at h
  split at h
  · obtain ⟨⟨t, p₂⟩, hlook, h⟩ := bind_eq_ok.mp h
    obtain ⟨th', r', rfl, htokens', h₂⟩ := look_passed hlook
    have h₂ := (h₁.trans (drop_passed htokens)).trans h₂
    dsimp only at h
    split at h
    · exact h₂.advances_of_empty (h₂.meets htokens') hslots rfl rfl (by simp) h
    · exact h₂.advances_of_empty (h₂.meets htokens') hslots rfl rfl (by simp) h
    · exact h₂.advances_of_node hslots rfl rfl (by simp) h
  · refine h₁.advances_of_empty (h₁.meets htokens) hslots rfl rfl (fun _ => ?_) h
    rw [hp]
    exact Nat.lt_succ_self 1

theorem flowPairEnd_advances (hp : p.expect = .flowPairEnd)
    (h : p.flowPairEnd = .ok (e, p')) : Advances p e p' := by
  cases h
  refine ⟨fun htidy => goto_tidy htidy.pending rfl, ?_, ?_, rfl, fun _ => EventKind.noConfusion,
    List.suffix_refl _, ?_⟩
  · rw [slots, hp]
    exact .stop rfl
  · unfold work
    rw [hp]
    exact Nat.lt_succ_self _
  · intro hsome
    cases hsome

theorem flowMappingKey_advances {first : Bool} (hp : p.expect = .flowMappingKey first)
    (h : p.flowMappingKey d first = .ok (e, p')) : Advances p e p' := by
  unfold flowMappingKey at h
  have hslots : p.expect.slots = [.key] := by rw [hp]; rfl
  obtain ⟨ds, p₁, h₁, hds, h⟩ := enter_ok h
  obtain ⟨⟨t, p₂⟩, hlook, h⟩ := bind_eq_ok.mp h
  obtain ⟨th, r, rfl, htokens, h₂⟩ := look_passed hlook
  have h₂ := h₁.trans h₂
  dsimp only at h
  split at h
  · cases h
    exact (h₂.trans (drop_passed htokens)).advances_of_stop hslots rfl (by simp)
  · obtain ⟨ds', p₃, h₃, hds', h⟩ := separate_ok htokens h
    have h₃ := h₂.trans h₃
    obtain ⟨⟨t, p₄⟩, hlook, h⟩ := bind_eq_ok.mp h
    obtain ⟨th', r', rfl, htokens', h₄⟩ := look_passed hlook
    have h₄ := h₃.trans h₄
    have hdrop := h₄.trans (drop_passed htokens')
    have hne : ds ++ [] ++ ds' ++ [] ≠ [] := by
      cases first with
      | true => simp [hds rfl]
      | false => simp [hds' rfl]
    dsimp only at h
    split at h
    · obtain ⟨⟨t, p₅⟩, hlook, h⟩ := bind_eq_ok.mp h
      obtain ⟨th'', r'', rfl, htokens'', h₅⟩ := look_passed hlook
      have h₅ := hdrop.trans h₅
      have hempty (h : emitEmpty d th''.token.mark (p₅.goto (.flowMappingValue false)) =
          .ok (e, p')) : Advances p e p' :=
        h₅.advances_of_empty (h₅.meets htokens'') hslots rfl rfl (by simp) h
      dsimp only at h
      split at h
      · exact hempty h
      · exact hempty h
      · exact hempty h
      · exact h₅.advances_of_node hslots rfl rfl (by simp) h
    · cases h
      exact hdrop.advances_of_stop hslots rfl (by simp)
    · split at h
      · cases h
      · exact h₄.advances_of_empty (h₄.meets htokens') hslots rfl rfl
          (fun hnil => absurd hnil hne) h
    · exact h₄.advances_of_node hslots rfl rfl (fun hnil => absurd hnil hne) h

theorem flowMappingValue_advances {empty : Bool} (hp : p.expect = .flowMappingValue empty)
    (h : p.flowMappingValue d empty = .ok (e, p')) : Advances p e p' := by
  unfold flowMappingValue at h
  have hslots : p.expect.slots = [.value] := by rw [hp]; rfl
  obtain ⟨⟨t, p₁⟩, hlook, h⟩ := bind_eq_ok.mp h
  obtain ⟨th, r, rfl, htokens, h₁⟩ := look_passed hlook
  dsimp only at h
  split at h
  · refine h₁.advances_of_empty (h₁.meets htokens) hslots rfl rfl (fun _ => ?_) h
    rw [hp]
    exact Nat.one_pos
  · obtain ⟨⟨t, p₂⟩, hlook, h⟩ := bind_eq_ok.mp h
    obtain ⟨th', r', rfl, htokens', h₂⟩ := look_passed hlook
    have hcolon : Meets p.tokens th.token.mark p₂.tokens := by
      have := h₂.tokens
      rw [List.nil_append] at this
      exact this ▸ h₁.meets_drop htokens
    have h₂ := (h₁.trans (drop_passed htokens)).trans h₂
    dsimp only at h
    split at h
    · exact h₂.advances_of_empty hcolon hslots rfl rfl (by simp) h
    · exact h₂.advances_of_empty hcolon hslots rfl rfl (by simp) h
    · exact h₂.advances_of_node hslots rfl rfl (by simp) h

/-! Documents. -/

/-- The node of a document needs no token to be dropped. -/
theorem Passed.advances_of_root (h : Passed [] [] p q) (hread : Reads 1 q e p')
    (hslots : p.expect.slots = [.root]) (hwork : p.expect.work p.nextKind = 1) :
    Advances p e p' := by
  obtain ⟨new, hnew, hp'⟩ := hread.slots
  refine ⟨fun htidy => hread.tidy (h.pending ▸ htidy.pending), ?_, ?_, ?_, ?_, ?_, ?_⟩
  · rw [hp', h.pending, slots, hslots]
    exact .node hnew
  · have hless := hread.less
    have heq := h.load_eq
    rw [List.length_nil] at heq
    show p'.work < p.load + p.expect.work p.nextKind
    omega
  · rw [hread.anchors, h.anchors]
    rfl
  · intro name hname
    have := hread.known name hname
    rwa [show q.anchors = p.anchors from h.anchors] at this
  · obtain ⟨t, rest, hsuf, hsuf', _⟩ := hread.meets
    exact (hsuf'.trans hsuf).trans h.suffix
  · intro _
    have htokens : p.tokens = q.tokens := h.tokens
    exact htokens ▸ hread.meets

theorem documentContent_advances (hp : p.expect = .documentContent)
    (h : p.documentContent d = .ok (e, p')) : Advances p e p' := by
  unfold documentContent at h
  have hslots : p.expect.slots = [.root] := by rw [hp]; rfl
  have hwork : p.expect.work p.nextKind = 1 := by rw [hp]; rfl
  obtain ⟨⟨t, p₁⟩, hlook, h⟩ := bind_eq_ok.mp h
  obtain ⟨th, r, rfl, htokens, h₁⟩ := look_passed hlook
  have hempty (h : emitEmpty d th.token.mark p₁.back = .ok (e, p')) : Advances p e p' := by
    cases h
    refine h₁.advances_of_root ((Passed.refl p₁).reads_leaf Nat.one_pos rfl ?_ rfl ?_) hslots hwork
    · exact fun _ => EventKind.noConfusion
    · exact (Passed.refl p₁).meets htokens
  dsimp only at h
  split at h
  · exact hempty h
  · exact hempty h
  · exact hempty h
  · exact hempty h
  · exact hempty h
  · exact h₁.advances_of_root (node_reads h) hslots hwork

theorem documentEnd_ok (h : p.documentEnd = .ok (e, p')) : e.kind = .documentEnd := by
  unfold documentEnd at h
  obtain ⟨⟨t, p₁⟩, hlook, h⟩ := bind_eq_ok.mp h
  cases h
  rfl

/-- A step inside a document ends the document or advances in it. -/
theorem step_advances (h : p.step d = .ok (e, p')) (hp : p.expect.slots ≠ []) :
    (p.expect = .documentEnd ∧ e.kind = .documentEnd) ∨ Advances p e p' := by
  unfold step at h
  split at h
  next hexpect => exact absurd (by rw [hexpect]; rfl) hp
  next hexpect => exact Or.inr (documentContent_advances hexpect h)
  next hexpect => exact Or.inl ⟨hexpect, documentEnd_ok h⟩
  next hexpect =>
    refine Or.inr ((Passed.refl p).advances_of_root (node_reads h) ?_ ?_)
    · rw [hexpect]; rfl
    · rw [hexpect]; rfl
  next hexpect => exact Or.inr (blockSequence_advances hexpect h)
  next hexpect => exact Or.inr (indentlessSequence_advances hexpect h)
  next hexpect => exact Or.inr (blockMappingKey_advances hexpect h)
  next hexpect => exact Or.inr (blockMappingValue_advances hexpect h)
  next hexpect => exact Or.inr (flowSequence_advances hexpect h)
  next hexpect => exact Or.inr (flowPairKey_advances hexpect h)
  next hexpect => exact Or.inr (flowPairValue_advances hexpect h)
  next hexpect => exact Or.inr (flowPairEnd_advances hexpect h)
  next hexpect => exact Or.inr (flowMappingKey_advances hexpect h)
  next hexpect => exact Or.inr (flowMappingValue_advances hexpect h)
  · cases h

theorem readDirectives_ok {fuel : Nat} {versioned : Bool} {handles : List (String × Uri)}
    (h : p.readDirectives d fuel versioned handles = .ok q) : ∃ ds, Passed ds [] p q := by
  induction fuel generalizing p versioned handles with
  | zero =>
    cases h
    exact ⟨[], rfl, rfl, rfl⟩
  | succ fuel ih =>
    rw [readDirectives] at h
    obtain ⟨⟨t, p₁⟩, hlook, h⟩ := bind_eq_ok.mp h
    obtain ⟨th, r, rfl, htokens, h₁⟩ := look_passed hlook
    have hrest {p₂ : Parser} {versioned : Bool} {handles : List (String × Uri)}
        (hp₂ : p₂ = p₁.drop) (h : p₂.readDirectives d fuel versioned handles = .ok q) :
        ∃ ds, Passed ds [] p q := by
      obtain ⟨ds, h₂⟩ := ih h
      exact ⟨_, (h₁.trans (drop_passed htokens)).trans (hp₂ ▸ h₂)⟩
    dsimp only at h
    split at h
    · split at h
      · obtain ⟨_, hfail, _⟩ := bind_eq_ok.mp h
        cases hfail
      · split at h
        · obtain ⟨_, hfail, _⟩ := bind_eq_ok.mp h
          cases hfail
        · exact hrest rfl h
    · split at h
      · obtain ⟨_, hfail, _⟩ := bind_eq_ok.mp h
        cases hfail
      · exact hrest rfl h
    · cases h
      exact ⟨[], h₁.tokens, h₁.pending, h₁.anchors⟩

/-- A document that has been opened: its node is still to be read. -/
structure Opened (p p' : Parser) : Prop where
  tidy : p'.Tidy
  slots : p'.slots = [.root, .documentEnd]
  less : p'.work < p.work
  anchors : p'.anchors = []
  tokens : p'.tokens <:+ p.tokens

theorem startDocument_passed (h : p.startDocument d = .ok q) :
    q.anchors = [] ∧ q.pending = p.pending ∧ ∃ ds, p.tokens = ds ++ q.tokens := by
  unfold startDocument at h
  obtain ⟨p₁, hread, h⟩ := bind_eq_ok.mp h
  obtain ⟨ds, h₁⟩ := readDirectives_ok hread
  cases h
  exact ⟨rfl, h₁.pending, ds, h₁.tokens⟩

theorem opened {expect : Expect} {ds : List HandedToken} (hexpect : p.expect = .document true)
    (hp : p.pending = []) (hanchors : q.anchors = []) (hpending : q.pending = [])
    (htokens : p.tokens = ds ++ q.tokens) (hslots : expect.slots = [.root])
    (hwork : expect.work none = 1) : Opened p ((q.after .documentEnd).goto expect) := by
  refine ⟨?_, ?_, ?_, hanchors, ⟨ds, htokens.symm⟩⟩
  · refine goto_tidy ?_ hslots
    intro x hx
    rw [after, hpending, List.mem_singleton] at hx
    rw [hx]
    exact List.cons_ne_nil _ _
  · rw [slots, goto, hslots, after, hpending]
    rfl
  · have := goto_work_le (q.after .documentEnd) expect
    have hload : (q.after .documentEnd).load = 6 * q.tokens.length := by
      rw [load, after, hpending]
      rfl
    have hlength := congrArg List.length htokens
    rw [List.length_append] at hlength
    have hwork' : p.work = 6 * p.tokens.length + 2 := by
      rw [work, load, hp, hexpect]
      rfl
    omega

theorem explicitDocument_ok (hexpect : p.expect = .document true) (hp : p.pending = [])
    (h₁ : Passed [] [] p q) (h : q.explicitDocument d = .ok (e, p')) :
    e.kind = .documentStart ∧ Opened p p' := by
  unfold explicitDocument at h
  obtain ⟨p₁, hstart, h⟩ := bind_eq_ok.mp h
  obtain ⟨hanchors, hpending, ds, htokens⟩ := startDocument_passed hstart
  obtain ⟨⟨t, p₂⟩, hlook, h⟩ := bind_eq_ok.mp h
  obtain ⟨th, r, rfl, htokens₂, h₂⟩ := look_passed hlook
  have h₃ := h₂.trans (drop_passed htokens₂)
  dsimp only at h
  split at h
  · cases h
    have htokens' : p.tokens = (ds ++ [th]) ++ p₂.drop.tokens := by
      simp only [h₁.tokens, htokens, h₃.tokens, List.nil_append, List.append_assoc]
    refine ⟨rfl, opened hexpect hp ?_ ?_ htokens' rfl rfl⟩
    · rw [h₃.anchors, hanchors]
      rfl
    · rw [h₃.pending, hpending, h₁.pending, hp]
  · cases h

/-- The first step opens a document, or there is none. -/
theorem document_ok (hexpect : p.expect = .document true) (hp : p.pending = [])
    (h : p.document d true = .ok (e, p')) :
    e.kind = .streamEnd ∨ (e.kind = .documentStart ∧ Opened p p') := by
  unfold document at h
  dsimp only at h
  rw [if_pos rfl] at h
  obtain ⟨_, hpure, h⟩ := bind_eq_ok.mp h
  cases hpure
  obtain ⟨⟨t, p₁⟩, hlook, h⟩ := bind_eq_ok.mp h
  obtain ⟨th, r, rfl, htokens, h₁⟩ := look_passed hlook
  dsimp only at h
  split at h
  · cases h
    exact Or.inl rfl
  · exact Or.inr (explicitDocument_ok hexpect hp h₁ h)
  · exact Or.inr (explicitDocument_ok hexpect hp h₁ h)
  · exact Or.inr (explicitDocument_ok hexpect hp h₁ h)
  · rw [if_pos rfl] at h
    obtain ⟨p₂, hstart, h⟩ := bind_eq_ok.mp h
    obtain ⟨hanchors, hpending, ds, htokens₂⟩ := startDocument_passed hstart
    cases h
    refine Or.inr ⟨rfl, opened hexpect hp hanchors ?_ (h₁.tokens.trans htokens₂) rfl rfl⟩
    rw [hpending, h₁.pending, hp]

end Parser

end Blueprint.Yaml
