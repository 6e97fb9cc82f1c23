import Blueprint.Lint.Rules.Lines

/-!
Which long lines may stay because they hold a single word, and where the rule about the length of
lines loses sight of the words of a line.
-/

namespace Blueprint

namespace Rules

variable {c : RuleSettings}

/-- What follows the comment signs or the hyphen that a line starts with. -/
def behindSign? (content : List Char) : Option (List Char) :=
  match content.dropWhile (· == ' ') with
  | '#' :: r => some (r.dropWhile (· == '#'))
  | '-' :: r => some r
  | _ => none

/-- The words of a line: not its indentation, and not a comment sign or hyphen with the character
after it. -/
def lineWords (content : List Char) : List Char :=
  match behindSign? content with
  | some r => r.drop 1
  | none => content.dropWhile (· == ' ')

/-- The character between a comment sign or hyphen and the words of a line. -/
def spacer? (content : List Char) : Option Char :=
  (behindSign? content).bind List.head?

/-- Whether that character, if there is one, takes one byte. -/
def hasNarrowSpacer (content : List Char) : Bool :=
  (spacer? content).all (·.utf8Size == 1)

/-- The problem of a line that is too long. -/
def tooLong (c : RuleSettings) (l : Line) : Problem where
  line := l.number
  column := some ((c.int "max").toNat + 1)
  rule := "line-length"
  message :=
    "line too long (" ++ toString l.content.length ++ " > " ++ toString (c.int "max") ++
      " characters)"

/-- A character of several bytes behind a comment sign or hyphen hides the words of the line. -/
theorem lineBody_eq (content : List Char) :
    lineBody content = if hasNarrowSpacer content then lineWords content else [] := by
  unfold lineBody hasNarrowSpacer spacer? lineWords behindSign?
  generalize content.dropWhile (· == ' ') = body
  split
  next r =>
    simp only [Option.bind_some]
    cases r.dropWhile (· == '#') <;> simp
  next r => cases r <;> simp
  · simp

theorem any_ne_space (content : List Char) :
    content.any (· != ' ') = !content.all (· == ' ') := by
  rw [Bool.eq_iff_iff]
  simp

/-- Without the allowance for mappings, a line is spared that has a word but no space in its words,
as far as the rule sees them. -/
theorem isSpared_eq_false_iff (hwords : c.bool "allow-non-breakable-words" = true)
    (hmappings : c.bool "allow-non-breakable-inline-mappings" = false) (content : List Char) :
    isSpared c content = false ↔
      content.all (· == ' ') = true ∨
        ' ' ∈ lineWords content ∧ hasNarrowSpacer content = true := by
  unfold isSpared
  rw [hwords, hmappings, any_ne_space, lineBody_eq]
  by_cases hspacer : hasNarrowSpacer content = true
  · rw [if_pos hspacer, and_iff_left hspacer]
    simp only [Bool.or_false, Bool.true_and, Bool.false_and, ← Bool.not_or, Bool.not_eq_eq_eq_not,
      Bool.not_false, Bool.or_eq_true, List.contains_iff_mem]
  · rw [if_neg hspacer, or_iff_left fun h => hspacer h.2]
    simp

/-- Whether a line is reported, by its characters. -/
theorem checkLength_eq (hwords : c.bool "allow-non-breakable-words" = true)
    (hmappings : c.bool "allow-non-breakable-inline-mappings" = false)
    (hmax : 0 ≤ c.int "max") (l : Line) :
    checkLength c l =
      if c.int "max" < l.content.length ∧
          (l.content.all (· == ' ') = true ∨
            ' ' ∈ lineWords l.content ∧ hasNarrowSpacer l.content = true) then
        [tooLong c l]
      else [] := by
  obtain ⟨max, hnat⟩ := Int.eq_ofNat_of_zero_le hmax
  have hspared := isSpared_eq_false_iff hwords hmappings l.content
  unfold checkLength tooLong
  rw [hnat, Int.toNat_natCast]
  dsimp only
  by_cases hlong : max < l.content.length
  · rw [decide_eq_false (Nat.not_le_of_lt hlong), Bool.false_or]
    cases hcase : isSpared c l.content with
    | true =>
      rw [if_pos rfl, if_neg]
      intro ⟨_, hreported⟩
      rw [hspared.mpr hreported] at hcase
      exact Bool.noConfusion hcase
    | false =>
      rw [if_neg Bool.false_ne_true, if_pos ⟨Int.ofNat_lt.mpr hlong, hspared.mp hcase⟩]
      rfl
  · rw [decide_eq_true (Nat.le_of_not_lt hlong), Bool.true_or, if_pos rfl,
      if_neg fun h => hlong (Int.ofNat_lt.mp h.1)]

/-- The words of a comment are counted by their characters. -/
theorem checkLength_eq_of_comment :
    let c := lineLength.defaults.set "max" (.int 5)
    let l : Line := ⟨3, 0, "# é b".toList ++ ['è'], [], ['\n']⟩
    checkLength c l = [tooLong c l] := by
  intro c l
  have hcheck := checkLength_eq (c := c) (by decide) (by decide) (by decide) l
  rwa [if_pos (by decide)] at hcheck

/-- Two comments of the same words; the second one lacks the space behind its sign, and starts with
a letter of two bytes. -/
theorem checkLength_misses_wide_letter :
    let c := lineLength.defaults.set "max" (.int 5)
    let line (content : List Char) : Line := ⟨1, 0, content, [], ['\n']⟩
    checkLength c (line "#e b c d".toList) = [tooLong c (line "#e b c d".toList)] ∧
      ' ' ∈ lineWords "#é b c d".toList ∧ c.int "max" < ("#é b c d".toList.length : Int) ∧
        checkLength c (line "#é b c d".toList) = [] := by
  decide +kernel

end Rules

end Blueprint
