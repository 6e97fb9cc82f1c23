import Blueprint.Lint.Directives
import Blueprint.Proofs.ElementOrder

/-!
What directives say about a line is settled when the line ends, and later lines do not change it.
-/

namespace Blueprint

theorem interleaveHead_filterMap {α β : Type} {le : α → α → Bool} {f : α → Option β} {x : α}
    {xs zs : List α} {rest : List α → List α} (hrest : ∀ ys, (rest ys).filterMap f = ys.filterMap f)
    (hx : ∀ y ∈ xs, f y = none) (hmem : x ∈ xs) (hz : zs = xs) (ys : List α) :
    (interleaveHead le x zs rest ys).filterMap f = ys.filterMap f := by
  subst hz
  induction ys with
  | nil => exact List.filterMap_eq_nil_iff.mpr hx
  | cons y ys ih =>
    rw [interleaveHead]
    split
    · rw [List.filterMap_cons_none (hx x hmem), hrest]
    · rw [List.filterMap_cons, List.filterMap_cons, ih]

theorem interleave_filterMap {α β : Type} (le : α → α → Bool) {f : α → Option β} {xs : List α}
    (hx : ∀ x ∈ xs, f x = none) (ys : List α) :
    (interleave le xs ys).filterMap f = ys.filterMap f := by
  induction xs generalizing ys with
  | nil => rfl
  | cons x xs ih =>
    exact interleaveHead_filterMap (fun ys => ih (fun y hy => hx y (List.mem_cons_of_mem x hy)) ys)
      hx List.mem_cons_self rfl ys

/-- The lines among the elements of a document are its lines. -/
theorem Element.ofText_lines (source : Source) (text : List Char) (root : Option Node) :
    (ofText source text root).filterMap line? = Line.ofList text := by
  rw [ofText_eq, interleave_filterMap notAfter, List.filterMap_map]
  · exact List.filterMap_some
  · intro e he
    rcases List.mem_append.mp ((interleave_perm notAfter _ _).mem_iff.mp he) with he | he
    · exact ofLexemes_line? he
    · obtain ⟨v, _, rfl⟩ := List.mem_map.mp he
      rfl

namespace Directives

/-- Obeys a comment and ends a line. -/
def follow (d : Directives) : Element → Directives
  | .comment c => d.readComment c.text c.inline
  | .line l => d.endLine l.number
  | .token _ | .node _ => d

def followAll (d : Directives) (es : List Element) : Directives :=
  es.foldl follow d

/-- Nothing is recorded of a line after the first `n`. -/
def EndedBy (n : Nat) (d : Directives) : Prop :=
  ∀ entry ∈ d.history, entry.1 ≤ n

theorem readComment_history (d : Directives) (text : List Char) (inline : Bool) :
    (d.readComment text inline).history = d.history := by
  unfold readComment
  split
  next directive _ =>
    cases directive with
    | disable names => rfl
    | enable names => rfl
    | disableLine names =>
      unfold apply
      dsimp only
      split <;> rfl
  · rfl

theorem readComment_wasOff (d : Directives) (text : List Char) (inline : Bool) (line : Nat)
    (rule : String) : (d.readComment text inline).wasOff line rule = d.wasOff line rule := by
  unfold wasOff
  rw [readComment_history]

theorem endLine_endedBy {d : Directives} {n : Nat} (h : d.EndedBy n) :
    (d.endLine (n + 1)).EndedBy (n + 1) := by
  intro entry hentry
  unfold endLine at hentry
  dsimp only at hentry
  split at hentry
  · exact Nat.le_succ_of_le (h entry hentry)
  · rcases List.mem_cons.mp hentry with rfl | hentry
    · exact Nat.le_refl _
    · exact Nat.le_succ_of_le (h entry hentry)

theorem lookup_of_endedBy {d : Directives} {n line : Nat} (h : d.EndedBy n) (hlt : n < line) :
    d.history.lookup line = none := by
  apply List.lookup_eq_none_iff.mpr
  intro entry hentry
  have := h entry hentry
  exact bne_iff_ne.mpr (by omega)

theorem wasOff_of_endedBy {d : Directives} {n line : Nat} (h : d.EndedBy n) (hlt : n < line)
    (rule : String) : d.wasOff line rule = false := by
  unfold wasOff
  rw [lookup_of_endedBy h hlt]
  rfl

/-- The end of a line records what is off on it. -/
theorem endLine_wasOff_self {d : Directives} {n : Nat} (h : d.EndedBy n) (rule : String) :
    (d.endLine (n + 1)).wasOff (n + 1) rule = d.isOff rule := by
  unfold wasOff endLine isOff
  dsimp only
  split
  next hempty =>
    rw [lookup_of_endedBy h (Nat.lt_succ_self n), List.isEmpty_iff.mp hempty]
    rfl
  · rw [List.lookup_cons_self]
    rfl

theorem endLine_wasOff_of_ne {d : Directives} {line other : Nat} (hne : other ≠ line)
    (rule : String) : (d.endLine line).wasOff other rule = d.wasOff other rule := by
  unfold wasOff endLine
  dsimp only
  split
  · rfl
  · rw [List.lookup_cons, beq_eq_false_iff_ne.mpr hne]

/-- What was off on a line that has ended does not depend on what is read after it. -/
theorem followAll_wasOff {d : Directives} {es : List Element} {n k : Nat}
    (hlines : (es.filterMap Element.line?).map (·.number) = List.range' (n + 1) k) {line : Nat}
    (hle : line ≤ n) (rule : String) :
    (d.followAll es).wasOff line rule = d.wasOff line rule := by
  induction es generalizing d n k with
  | nil => rfl
  | cons e es ih =>
    show ((d.follow e).followAll es).wasOff line rule = d.wasOff line rule
    cases e with
    | token t => exact ih hlines hle
    | node v => exact ih hlines hle
    | comment c =>
      rw [ih hlines hle]
      exact readComment_wasOff d c.text c.inline line rule
    | line l =>
      cases k with
      | zero => cases hlines
      | succ k =>
        rw [List.range'_succ] at hlines
        obtain ⟨hnumber, hrest⟩ := List.cons.inj hlines
        have hne : line ≠ l.number := by
          have : l.number = n + 1 := hnumber
          omega
        rw [ih hrest (Nat.le_succ_of_le hle)]
        exact endLine_wasOff_of_ne hne rule

end Directives

end Blueprint
