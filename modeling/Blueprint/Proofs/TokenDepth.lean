import Blueprint.Yaml.Token
import Mathlib.Tactic.Common

/-!
Collections among tokens. A collection stands between the token that opens it and the one that
closes it; only a sequence at the column of its key has no such tokens.
-/

namespace Blueprint.Yaml

namespace TokenKind

/-- The kind of token that closes what a token opens. -/
def closer? : TokenKind → Option TokenKind
  | .blockSequenceStart | .blockMappingStart => some .blockEnd
  | .flowSequenceStart => some .flowSequenceEnd
  | .flowMappingStart => some .flowMappingEnd
  | _ => none

def closes : TokenKind → Bool
  | .blockEnd | .flowSequenceEnd | .flowMappingEnd => true
  | _ => false

/-- Whether the token stands between the first and the last one of a stream. -/
def inStream : TokenKind → Bool
  | .streamStart | .streamEnd => false
  | _ => true

/-- Whether the token neither opens nor closes a collection or the stream. -/
def isFlat (k : TokenKind) : Bool :=
  k.closer?.isNone && !k.closes && k.inStream

/-- How many collections are open after a token, if `n` are before it. -/
def depth (n : Nat) (k : TokenKind) : Nat :=
  if k.closer?.isSome then n + 1 else if k.closes then n - 1 else n

theorem depth_of_opens {k c : TokenKind} (h : k.closer? = some c) (n : Nat) :
    k.depth n = n + 1 := by
  rw [depth, h]
  rfl

theorem depth_of_isFlat {k : TokenKind} (h : k.isFlat = true) (n : Nat) : k.depth n = n := by
  cases k <;> first | rfl | cases h

theorem depth_of_closer? {k c : TokenKind} (h : k.closer? = some c) (n : Nat) :
    c.depth (n + 1) = n := by
  cases k <;> cases h <;> rfl

theorem inStream_of_opens {k c : TokenKind} (h : k.closer? = some c) :
    k.closes = false ∧ k ≠ .key ∧ k.inStream = true := by
  cases k <;> first | exact ⟨rfl, TokenKind.noConfusion, rfl⟩ | cases h

theorem inStream_of_isFlat {k : TokenKind} (h : k.isFlat = true) : k.inStream = true := by
  cases k <;> first | rfl | cases h

theorem depth_succ {k : TokenKind} {n : Nat} (h : k.closes = true → 0 < n) :
    k.depth (n + 1) = k.depth n + 1 := by
  unfold depth
  split
  · rfl
  · split
    next hcloses =>
      have := h hcloses
      omega
    · rfl

end TokenKind

/-- How many collections are open after some tokens, if `n` are before them. -/
def depthAfter (n : Nat) (ks : List TokenKind) : Nat :=
  ks.foldl TokenKind.depth n

/-- Tokens that leave the `floor` outermost ones of `n` open collections alone. A key among them
stands in a collection. -/
def Deep (floor : Nat) : Nat → List TokenKind → Prop
  | _, [] => True
  | n, k :: r =>
    (k.closes = true → floor < n) ∧ (k = .key → 0 < n) ∧ k.inStream = true ∧
      Deep floor (k.depth n) r

instance instDecidableDeep (floor : Nat) :
    (n : Nat) → (ks : List TokenKind) → Decidable (Deep floor n ks)
  | _, [] => isTrue trivial
  | n, k :: r =>
    have := instDecidableDeep floor (k.depth n) r
    inferInstanceAs (Decidable ((_ → _) ∧ (_ → _) ∧ _ ∧ Deep floor (k.depth n) r))

variable {floor n : Nat} {a b ks : List TokenKind}

@[simp] theorem depthAfter_nil (n : Nat) : depthAfter n [] = n := rfl

@[simp] theorem depthAfter_cons (n : Nat) (k : TokenKind) (r : List TokenKind) :
    depthAfter n (k :: r) = depthAfter (k.depth n) r := rfl

theorem depthAfter_append (n : Nat) (a b : List TokenKind) :
    depthAfter n (a ++ b) = depthAfter (depthAfter n a) b :=
  List.foldl_append

theorem deep_append : Deep floor n (a ++ b) ↔ Deep floor n a ∧ Deep floor (depthAfter n a) b := by
  induction a generalizing n with
  | nil => exact ⟨fun h => ⟨trivial, h⟩, fun h => h.2⟩
  | cons k r ih =>
    rw [List.cons_append, Deep, Deep, ih, depthAfter_cons]
    exact ⟨fun ⟨hc, hk, hs, hr, hb⟩ => ⟨⟨hc, hk, hs, hr⟩, hb⟩,
      fun ⟨⟨hc, hk, hs, hr⟩, hb⟩ => ⟨hc, hk, hs, hr, hb⟩⟩

theorem Deep.mono {floor' : Nat} (h : Deep floor n ks) (hle : floor' ≤ floor) :
    Deep floor' n ks := by
  induction ks generalizing n with
  | nil => trivial
  | cons k r ih => exact ⟨fun hc => Nat.lt_of_le_of_lt hle (h.1 hc), h.2.1, h.2.2.1, ih h.2.2.2⟩

/-- The opening of a collection leaves those around it alone. -/
theorem Deep.of_opens {o c : TokenKind} (ho : o.closer? = some c) (h : Deep floor (n + 1) ks) :
    Deep floor n (o :: ks) := by
  obtain ⟨hcloses, hkey, hstream⟩ := TokenKind.inStream_of_opens ho
  refine ⟨fun hc => ?_, fun hk => absurd hk hkey, hstream, ?_⟩
  · rw [hcloses] at hc
    cases hc
  · rw [TokenKind.depth_of_opens ho]
    exact h

/-- Another collection around the tokens stays open. -/
theorem Deep.depthAfter_succ (h : Deep floor n ks) :
    depthAfter (n + 1) ks = depthAfter n ks + 1 := by
  induction ks generalizing n with
  | nil => rfl
  | cons k r ih =>
    obtain ⟨hcloses, _, _, hr⟩ := h
    rw [depthAfter_cons, TokenKind.depth_succ fun hc => Nat.zero_lt_of_lt (hcloses hc), ih hr]
    rfl

/-- Flat tokens leave all collections open. -/
theorem depthAfter_flat (h : ∀ k ∈ ks, k.isFlat = true) (n : Nat) : depthAfter n ks = n := by
  induction ks with
  | nil => rfl
  | cons k r ih =>
    rw [depthAfter_cons, TokenKind.depth_of_isFlat (h k List.mem_cons_self)]
    exact ih fun x hx => h x (List.mem_cons_of_mem k hx)

theorem deep_flat (h : ∀ k ∈ ks, k.isFlat = true) (hkey : .key ∈ ks → 0 < n) :
    Deep floor n ks := by
  induction ks with
  | nil => trivial
  | cons k r ih =>
    have hk : k.isFlat = true := h k List.mem_cons_self
    have hrest := ih (fun x hx => h x (List.mem_cons_of_mem k hx))
      fun hmem => hkey (List.mem_cons_of_mem k hmem)
    rw [TokenKind.isFlat, Bool.and_eq_true, Bool.and_eq_true, Bool.not_eq_true'] at hk
    obtain ⟨⟨hopens, hcloses⟩, hstream⟩ := hk
    refine ⟨fun h => ?_, fun h => hkey (h ▸ List.mem_cons_self), hstream, ?_⟩
    · rw [hcloses] at h
      cases h
    · rwa [TokenKind.depth_of_isFlat (h k List.mem_cons_self)]

end Blueprint.Yaml
