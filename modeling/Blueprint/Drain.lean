/-!
Streams that hand out one element at a time.
-/

namespace Blueprint

section

variable {σ α : Type}

/-- What a stream hands out in turn, at most `fuel` elements. -/
def drain (next? : σ → Option (α × σ)) : Nat → σ → List α
  | 0, _ => []
  | fuel + 1, s =>
    match next? s with
    | none => []
    | some (a, s) => a :: drain next? fuel s

/-- A stream that hands out the given elements in turn and then has come to its end. -/
inductive Yields (next? : σ → Option (α × σ)) : σ → List α → Prop
  | done {s : σ} (h : next? s = none) : Yields next? s []
  | step {s s' : σ} {a : α} {as : List α} (h : next? s = some (a, s')) (hlater : Yields next? s' as) :
    Yields next? s (a :: as)

namespace Yields

variable {next? : σ → Option (α × σ)} {s : σ} {as bs : List α}

theorem drain_eq (h : Yields next? s as) {fuel : Nat} (hfuel : as.length ≤ fuel) :
    drain next? fuel s = as := by
  induction h generalizing fuel with
  | done h =>
    cases fuel with
    | zero => rfl
    | succ fuel => rw [drain, h]
  | step h _ ih =>
    cases fuel with
    | zero => exact absurd hfuel (Nat.not_succ_le_zero _)
    | succ fuel =>
      rw [drain, h]
      exact congrArg _ (ih (Nat.le_of_succ_le_succ hfuel))

/-- A stream comes to one end only. -/
theorem unique (h : Yields next? s as) (h' : Yields next? s bs) : as = bs :=
  (h.drain_eq (Nat.le_max_left _ bs.length)).symm.trans (h'.drain_eq (Nat.le_max_right _ _))

end Yields

end

end Blueprint
