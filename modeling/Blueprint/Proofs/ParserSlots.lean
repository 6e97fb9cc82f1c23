import Blueprint.Proofs.ForwardReading
import Blueprint.Yaml.Event
import Mathlib.Algebra.GroupWithZero.Nat

/-!
The collections that a parser has open are a stack of slots, each waiting for a node or for its end.
An event fills the innermost slot, opens one above it or closes it. This module reads a node.
-/

namespace Blueprint.Yaml

/-- What the parser waits for inside a collection or a document. -/
inductive Slot where
  | root
  | item
  | key
  | value
  | documentEnd
deriving DecidableEq

/-- What takes the place of a slot that a node has filled. -/
def Slot.next : Slot → List Slot
  | .root => []
  | .item => [.item]
  | .key => [.value]
  | .value => [.key]
  | .documentEnd => [.documentEnd]

namespace EventKind

/-- The slots that the start of a node opens for its parts; other events start no node. -/
def opens? : EventKind → Option (List Slot)
  | .scalar .. | .alias _ => some []
  | .sequenceStart .. => some [.item]
  | .mappingStart .. => some [.key]
  | _ => none

/-- The slot in which the end of a collection may come. -/
def closes? : EventKind → Option Slot
  | .sequenceEnd => some .item
  | .mappingEnd => some .key
  | _ => none

/-- The anchor of the node that the event starts. -/
def anchor? : EventKind → Option String
  | .scalar _ _ anchor _ | .sequenceStart anchor _ | .mappingStart anchor _ => anchor
  | _ => none

end EventKind

/-- How an event changes the slots. -/
inductive Slot.Turn : List Slot → EventKind → List Slot → Prop where
  | node {s : Slot} {r new : List Slot} {k : EventKind} :
    k.opens? = some new → Turn (s :: r) k (new ++ (s.next ++ r))
  | stop {s : Slot} {r : List Slot} {k : EventKind} : k.closes? = some s → Turn (s :: r) k r

namespace Expect

def slots : Expect → List Slot
  | .documentContent | .blockNode => [.root]
  | .documentEnd => [.documentEnd]
  | .blockSequence _ | .indentlessSequence | .flowSequence _ => [.item]
  | .blockMappingKey _ | .flowMappingKey _ => [.key]
  | .blockMappingValue | .flowMappingValue _ => [.value]
  | .flowPairKey | .flowPairEnd => [.key, .item]
  | .flowPairValue => [.value, .item]
  | .document _ | .nothing => []

/-- How many steps may be taken from here before a token is dropped; `next` is the next token. -/
def work (next : Option TokenKind) : Expect → Nat
  | .flowPairKey => 3
  | .document _ | .flowPairValue => 2
  | .documentContent | .blockNode | .indentlessSequence | .blockMappingKey false | .flowPairEnd
  | .flowMappingValue _ => 1
  | .blockMappingValue => if next = some .value then 0 else 2
  | _ => 0

theorem work_le (next : Option TokenKind) (e : Expect) : e.work next ≤ e.work none := by
  cases e with
  | blockMappingValue =>
    show (if next = some .value then 0 else 2) ≤ 2
    split <;> omega
  | blockMappingKey first => cases first <;> exact Nat.le_refl _
  | _ => exact Nat.le_refl _

theorem work_le_three (next : Option TokenKind) (e : Expect) : e.work next ≤ 3 := by
  refine Nat.le_trans (work_le next e) ?_
  cases e with
  | blockMappingKey first => cases first <;> decide
  | _ => exact Nat.le_of_ble_eq_true rfl

end Expect

namespace Parser

/-- The next token, which decides what is left to do. -/
def nextKind (p : Parser) : Option TokenKind :=
  p.tokens.head?.map (·.token.kind)

def slots (p : Parser) : List Slot :=
  p.expect.slots ++ p.pending.flatMap Expect.slots

/-- What the tokens and the open collections leave to do. -/
def load (p : Parser) : Nat :=
  6 * p.tokens.length + (p.pending.map (Expect.work none)).sum

/-- A bound of the number of steps to come. -/
def work (p : Parser) : Nat :=
  p.load + p.expect.work p.nextKind

/-- A position is that of a token which the parser meets on its way from some tokens to others. -/
def Meets (ts : List HandedToken) (m : Mark) (ts' : List HandedToken) : Prop :=
  ∃ t r, t :: r <:+ ts ∧ ts' <:+ t :: r ∧ m = t.token.mark

/-- What waits around the current slot is a slot itself. -/
structure Tidy (p : Parser) : Prop where
  pending : ∀ x ∈ p.pending, x.slots ≠ []
  inside : p.expect.slots = [] → p.pending = []

/-- What a step does that yields the event `e`. -/
structure Advances (p : Parser) (e : Event) (p' : Parser) : Prop where
  tidy : p.Tidy → p'.Tidy
  turn : Slot.Turn p.slots e.kind p'.slots
  less : p'.work < p.work
  anchors : p'.anchors = e.kind.anchor?.toList ++ p.anchors
  known : ∀ name, e.kind = .alias name → name ∈ p.anchors
  tokens : p'.tokens <:+ p.tokens
  meets : e.kind.opens?.isSome → Meets p.tokens e.mark p'.tokens

/-- What reading a node does, from its properties on. -/
structure Reads (slack : Nat) (p : Parser) (e : Event) (p' : Parser) : Prop where
  tidy : (∀ x ∈ p.pending, x.slots ≠ []) → p'.Tidy
  slots : ∃ new, e.kind.opens? = some new ∧ p'.slots = new ++ p.pending.flatMap Expect.slots
  less : p'.work < p.load + slack
  anchors : p'.anchors = e.kind.anchor?.toList ++ p.anchors
  known : ∀ name, e.kind = .alias name → name ∈ p.anchors
  meets : Meets p.tokens e.mark p'.tokens

variable {d : Dialect} {p p' q : Parser} {e : Event} {t : Token}

/-- The second parser comes from the first by dropping tokens and by registering anchors. -/
structure Passed (dropped : List HandedToken) (names : List String) (p q : Parser) : Prop where
  tokens : p.tokens = dropped ++ q.tokens
  pending : q.pending = p.pending
  anchors : q.anchors = names ++ p.anchors

namespace Passed

variable {ds ds' : List HandedToken} {ns ns' : List String} {p₁ : Parser} {th : HandedToken}
  {r : List HandedToken}

theorem refl (p : Parser) : Passed [] [] p p :=
  ⟨rfl, rfl, rfl⟩

theorem trans (h : Passed ds ns p p₁) (h' : Passed ds' ns' p₁ q) :
    Passed (ds ++ ds') (ns' ++ ns) p q :=
  ⟨by rw [h.tokens, h'.tokens, List.append_assoc], h'.pending.trans h.pending,
    by rw [h'.anchors, h.anchors, List.append_assoc]⟩

theorem suffix (h : Passed ds ns p q) : q.tokens <:+ p.tokens :=
  ⟨ds, h.tokens.symm⟩

theorem load_eq (h : Passed ds ns p q) : q.load + 6 * ds.length = p.load := by
  unfold Parser.load
  rw [h.tokens, h.pending, List.length_append]
  omega

theorem meets (h : Passed ds ns p q) (hq : q.tokens = th :: r) :
    Meets p.tokens th.token.mark q.tokens :=
  ⟨th, r, hq ▸ h.suffix, hq ▸ List.suffix_refl _, rfl⟩

theorem meets_drop (h : Passed ds ns p q) (hq : q.tokens = th :: r) :
    Meets p.tokens th.token.mark q.drop.tokens :=
  ⟨th, r, hq ▸ h.suffix, hq ▸ List.drop_suffix _ _, rfl⟩

end Passed

theorem look_passed (h : p.look = .ok (t, q)) :
    ∃ th r, t = th.token ∧ q.tokens = th :: r ∧ Passed [] [] p q := by
  unfold look at h
  split at h
  · cases h
  next th r htokens =>
    cases h
    exact ⟨th, r, rfl, htokens, rfl, rfl, rfl⟩

theorem drop_passed {th : HandedToken} {r : List HandedToken} (h : p.tokens = th :: r) :
    Passed [th] [] p p.drop :=
  ⟨by rw [drop, h]; rfl, rfl, rfl⟩

theorem register_passed {th : HandedToken} {r : List HandedToken} (h : p.tokens = th :: r)
    (name : String) : Passed [th] [name] p { p.drop with anchors := name :: p.anchors } :=
  ⟨by rw [drop, h]; rfl, rfl, rfl⟩

theorem back_slots (p : Parser) : p.back.slots = p.pending.flatMap Expect.slots := by
  unfold back
  split
  next h => rw [h]; rfl
  next h => rw [h]; rfl

theorem back_tidy (h : ∀ x ∈ p.pending, x.slots ≠ []) : p.back.Tidy := by
  unfold back
  split
  next hnil => exact ⟨h, fun _ => hnil⟩
  next x r hcons =>
    rw [hcons] at h
    refine ⟨fun y hy => h y (List.mem_cons_of_mem x hy), ?_⟩
    exact fun hx => absurd hx (h x List.mem_cons_self)

theorem goto_tidy {expect : Expect} {s : Slot} {r : List Slot}
    (h : ∀ x ∈ p.pending, x.slots ≠ []) (hexpect : expect.slots = s :: r) :
    (p.goto expect).Tidy := by
  refine ⟨h, ?_⟩
  intro hnil
  rw [show (p.goto expect).expect.slots = expect.slots from rfl, hexpect] at hnil
  cases hnil

theorem back_work (p : Parser) : p.back.work ≤ p.load := by
  unfold back work load
  split
  next h => simp [h, Expect.work]
  next e r h =>
    have := Expect.work_le (nextKind { p with expect := e, pending := r }) e
    simp only [h, List.map_cons, List.sum_cons]
    omega

@[simp] theorem back_tokens (p : Parser) : p.back.tokens = p.tokens := by
  unfold back
  split <;> rfl

@[simp] theorem back_anchors (p : Parser) : p.back.anchors = p.anchors := by
  unfold back
  split <;> rfl

theorem goto_work_le (p : Parser) (expect : Expect) :
    (p.goto expect).work ≤ p.load + expect.work none :=
  Nat.add_le_add_left (Expect.work_le _ expect) _

/-! Nodes. -/

/-- A node without parts is read, for which some token has been dropped. -/
theorem Passed.reads_leaf {ds : List HandedToken} {ns : List String} {slack : Nat} {k : EventKind}
    {m : Mark} (h : Passed ds ns p q) (hload : 0 < 6 * ds.length + slack)
    (hns : ns = k.anchor?.toList) (hknown : ∀ name, k = .alias name → name ∈ p.anchors)
    (hk : k.opens? = some []) (hmeets : Meets p.tokens m q.tokens) :
    Reads slack p ⟨k, m⟩ q.back := by
  refine ⟨fun htidy => back_tidy (h.pending ▸ htidy), ⟨[], hk, ?_⟩, ?_, ?_, hknown, ?_⟩
  · rw [back_slots, h.pending]
    rfl
  · have := back_work q
    have := h.load_eq
    omega
  · rw [back_anchors, h.anchors, hns]
  · rw [back_tokens]
    exact hmeets

/-- A collection is opened at a token, which stays. -/
theorem Passed.reads_start {ds : List HandedToken} {ns : List String} {slack : Nat}
    {k : EventKind} {expect : Expect} {s : Slot} {th : HandedToken} {r : List HandedToken}
    (h : Passed ds ns p q) (hq : q.tokens = th :: r)
    (hwork : expect.work none < slack) (hslots : expect.slots = [s])
    (hns : ns = k.anchor?.toList) (hk : k.opens? = some [s]) :
    Reads slack p ⟨k, th.token.mark⟩ (q.goto expect) := by
  refine ⟨fun htidy => goto_tidy (h.pending ▸ htidy) hslots, ⟨[s], hk, ?_⟩, ?_, ?_, ?_,
    h.meets hq⟩
  · rw [slots, goto, hslots, h.pending]
  · have := goto_work_le q expect
    have := h.load_eq
    omega
  · rw [← hns]
    exact h.anchors
  · rintro name rfl
    cases hk

theorem properties_passed {anchor : Option String} {tag : Option Tag}
    (h : p.properties d = .ok (anchor, tag, q)) :
    ∃ ds, Passed ds anchor.toList p q ∧ (anchor.isSome || tag.isSome → ds ≠ []) := by
  unfold properties at h
  dsimp only at h
  obtain ⟨⟨t, p₁⟩, hlook, h⟩ := bind_eq_ok.mp h
  obtain ⟨th, r, rfl, htokens, h₁⟩ := look_passed hlook
  dsimp only at h
  split at h
  next name hkind =>
    obtain ⟨⟨t, p₂⟩, hlook, h⟩ := bind_eq_ok.mp h
    obtain ⟨th', r', rfl, htokens', h₂⟩ := look_passed hlook
    have hname := (h₁.trans (register_passed htokens name)).trans h₂
    dsimp only at h
    split at h
    · obtain ⟨tag', htag, h⟩ := bind_eq_ok.mp h
      cases h
      exact ⟨_, hname.trans (drop_passed htokens'), by simp⟩
    · cases h
      exact ⟨_, hname, by simp⟩
  · obtain ⟨tag', htag, h⟩ := bind_eq_ok.mp h
    obtain ⟨⟨t, p₂⟩, hlook, h⟩ := bind_eq_ok.mp h
    obtain ⟨th', r', rfl, htokens', h₂⟩ := look_passed hlook
    have htag := (h₁.trans (drop_passed htokens)).trans h₂
    dsimp only at h
    split at h
    next name hkind =>
      cases h
      exact ⟨_, htag.trans (register_passed htokens' name), by simp⟩
    · cases h
      exact ⟨_, htag, by simp⟩
  · cases h
    exact ⟨_, h₁, by simp⟩

theorem content_reads {block indentless : Bool} {anchor : Option String} {tag : Option Tag}
    {ds : List HandedToken} {th : HandedToken} {r : List HandedToken}
    (hq : Passed ds anchor.toList p q) (hds : anchor.isSome || tag.isSome → ds ≠ [])
    (htokens : q.tokens = th :: r)
    (h : content block indentless anchor tag th.token q = .ok (e, p')) :
    Reads (if indentless then 2 else 1) p e p' := by
  unfold content at h
  split at h
  · cases h
    exact hq.reads_start htokens (by decide) rfl rfl rfl
  · cases h
    refine (hq.trans (drop_passed htokens)).reads_leaf ?_ rfl ?_ rfl (hq.meets_drop htokens)
    · rw [List.length_append, List.length_singleton]
      omega
    · exact fun _ => EventKind.noConfusion
  · cases h
    exact hq.reads_start htokens (by split <;> decide) rfl rfl rfl
  · cases h
    exact hq.reads_start htokens (by split <;> decide) rfl rfl rfl
  · cases h
    exact hq.reads_start htokens (by split <;> decide) rfl rfl rfl
  · cases h
    exact hq.reads_start htokens (by split <;> decide) rfl rfl rfl
  · split at h
    next hsome =>
      cases h
      have := List.length_pos_iff.mpr (hds hsome)
      refine hq.reads_leaf (by omega) rfl ?_ rfl (hq.meets htokens)
      exact fun _ => EventKind.noConfusion
    · cases h

theorem node_reads {block indentless : Bool} (h : p.node d block indentless = .ok (e, p')) :
    Reads (if indentless then 2 else 1) p e p' := by
  unfold node at h
  obtain ⟨⟨t, p₁⟩, hlook, h⟩ := bind_eq_ok.mp h
  obtain ⟨th, r, rfl, htokens, h₁⟩ := look_passed hlook
  dsimp only at h
  split at h
  next name hkind =>
    split at h
    next hmem =>
      cases h
      refine (h₁.trans (drop_passed htokens)).reads_leaf ?_ rfl ?_ rfl (h₁.meets_drop htokens)
      · rw [List.length_append, List.length_singleton]
        omega
      · intro name' heq
        cases heq
        have := h₁.anchors
        simp_all
    · cases h
  · obtain ⟨⟨anchor, tag, p₂⟩, hproperties, h⟩ := bind_eq_ok.mp h
    obtain ⟨⟨t, p₃⟩, hlook, h⟩ := bind_eq_ok.mp h
    obtain ⟨th', r', rfl, htokens', h₃⟩ := look_passed hlook
    obtain ⟨ds, h₂, hds⟩ := properties_passed hproperties
    have hq := (h₁.trans h₂).trans h₃
    simp only [List.nil_append, List.append_nil] at hq
    exact content_reads hq hds htokens' h

end Parser

end Blueprint.Yaml
