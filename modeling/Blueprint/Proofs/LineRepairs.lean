import Mathlib.Data.List.TakeWhile
import Blueprint.Fix.Lines

/-!
What a repair of lines leaves when it changes them, and when it does not.
-/

namespace Blueprint.FileLines

variable {lines new : FileLines} {index : Nat} {delta : Int}

theorem mapContent_eq_some {f : List Char → List Char} :
    lines.mapContent f index = some (new, delta) ↔
      ∃ line, lines[index]? = some line ∧ f (content line) ≠ content line ∧
        new = lines.set index (f (content line) ++ terminator line) ∧ delta = 0 := by
  unfold mapContent
  rw [Option.bind_eq_some_iff]
  refine exists_congr fun line => and_congr_right fun _ => ?_
  dsimp only
  split
  next h => simp [h]
  next h => simp [h, eq_comm]

theorem mapContent_eq_none {f : List Char → List Char} :
    lines.mapContent f index = none ↔ ∀ line ∈ lines[index]?, f (content line) = content line := by
  unfold mapContent
  rw [Option.bind_eq_none_iff]
  refine forall_congr' fun line => imp_congr_right fun _ => ?_
  dsimp only
  split
  next h => simp [h]
  next h => simp [h]

/-- A line that a carriage return and a line feed end, its last characters first. -/
theorem reverse_eq_feed {line r : List Char} :
    line.reverse = '\n' :: '\r' :: r ↔ line = r.reverse ++ ['\r', '\n'] := by
  rw [List.reverse_eq_iff, List.reverse_cons, List.reverse_cons, List.append_assoc]
  rfl

theorem endWithFeed_eq_some :
    lines.endWithFeed index = some (new, delta) ↔
      ∃ r, lines[index]? = some (r ++ ['\r', '\n']) ∧ new = lines.set index (r ++ ['\n']) ∧
        delta = 0 := by
  unfold endWithFeed
  constructor
  · intro h
    obtain ⟨line, hget, h⟩ := Option.bind_eq_some_iff.mp h
    split at h
    next r hline =>
      cases h
      exact ⟨r.reverse, hget.trans (congrArg some (reverse_eq_feed.mp hline)), rfl, rfl⟩
    · cases h
  · rintro ⟨r, hget, rfl, rfl⟩
    have hline : (r ++ ['\r', '\n']).reverse = '\n' :: '\r' :: r.reverse :=
      reverse_eq_feed.mpr (by rw [List.reverse_reverse])
    rw [hget, Option.bind_some, hline]
    show some (lines.set index (r.reverse.reverse ++ ['\n']), 0) = _
    rw [List.reverse_reverse]

theorem endWithFeed_eq_none :
    lines.endWithFeed index = none ↔ ∀ line ∈ lines[index]?, ¬ ['\r', '\n'] <:+ line := by
  rw [← Option.not_isSome_iff_eq_none, Option.isSome_iff_exists]
  constructor
  · rintro h line hget ⟨r, rfl⟩
    exact h ⟨(_, 0), endWithFeed_eq_some.mpr ⟨r, hget, rfl, rfl⟩⟩
  · rintro h ⟨⟨new, delta⟩, hsome⟩
    obtain ⟨r, hget, _⟩ := endWithFeed_eq_some.mp hsome
    exact h _ hget (List.suffix_append r _)

/-- The line of the label for a key, with the terminator of the key or a line feed. -/
def labelLine (indent : Nat) (line : List Char) : List Char :=
  List.replicate indent ' ' ++ "display_label: ".toList ++
    Content.labelOf (Text.trim (content line)) ++
    if (terminator line).isEmpty then ['\n'] else terminator line

theorem lt_of_mem_blockBelow {keyIndent : Nat} {below : FileLines} {shown : List Char}
    (h : shown ∈ blockBelow keyIndent below) : keyIndent < leadingSpaces shown := by
  unfold blockBelow at h
  obtain ⟨hmem, hseen⟩ := List.mem_filter.mp h
  have hinside := List.mem_takeWhile_imp hmem
  rcases Bool.or_eq_true_iff.mp hinside with hblank | hdeep
  · rw [hblank] at hseen
    cases hseen
  · exact of_decide_eq_true hdeep

theorem insertLabel_eq_some {name : String} (h : lines.insertLabel name index = some (new, delta)) :
    ∃ line indent, lines[index]? = some line ∧ leadingSpaces (content line) < indent ∧
      new = lines.take (index + 1) ++ labelLine indent line :: lines.drop (index + 1) ∧
      delta = 1 := by
  unfold insertLabel at h
  obtain ⟨line, hget, h⟩ := Option.bind_eq_some_iff.mp h
  dsimp only at h
  split at h
  · cases h
  · split at h
    · cases h
    · cases h
      refine ⟨line, _, hget, ?_, rfl, rfl⟩
      split
      next first rest hblock => exact lt_of_mem_blockBelow (hblock ▸ List.mem_cons_self)
      · omega

end Blueprint.FileLines
