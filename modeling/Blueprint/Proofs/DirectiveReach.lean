import Blueprint.Lint.Registry
import Blueprint.Proofs.DirectiveFold
import Blueprint.Proofs.RunAccount

/-!
Whether directives withhold a problem depends on its line, its rule and the comments, and not on when
a rule finds it.
-/

namespace Blueprint

/-- The number of lines of a text. -/
def lineCount (text : String) : Nat :=
  (Line.ofList text.toList).length

theorem lineCount_eq (text : String) : lineCount text = text.toList.count '\n' + 1 := by
  have hlength := congrArg List.length (lines_numbers text.toList)
  rw [List.length_map, List.length_range'] at hlength
  exact hlength

theorem Element.ofDocument_timely {text : String}
    (hnul : ∀ c ∈ comments (ofDocument text), ¬c.FollowsNul (Source.ofText text)) :
    Timely 0 (ofDocument text) := by
  unfold ofDocument at hnul ⊢
  exact ofText_timely hnul

namespace Linter

/-- Whether the comments of a text switch a rule off on one of its lines. -/
def offOn (l : Linter) (text : String) (file : Option String) (line : Nat) (rule : String) : Bool :=
  line ≤ lineCount text &&
    Directive.offOn (l.namesFor file) (Element.comments (Element.ofDocument text)) line rule

/-- What the end of each line records is what the comments up to it say. -/
theorem directivesFor_wasOff (l : Linter) {text : String} (file : Option String)
    (hnul : ∀ c ∈ Element.comments (Element.ofDocument text), ¬c.FollowsNul (Source.ofText text))
    (line : Nat) (rule : String) :
    (l.directivesFor text file).wasOff line rule = l.offOn text file line rule := by
  have hlines := Element.ofDocument_lines text
  rw [← lineCount_eq] at hlines
  obtain ⟨hfollows, hrules⟩ := (Directives.Follows.ofRules (l.namesFor file)).followAll
    (Element.ofDocument_timely hnul) hlines
  rw [Nat.zero_add, List.nil_append] at hfollows
  unfold offOn
  by_cases hle : line ≤ lineCount text
  · rw [decide_eq_true hle, Bool.true_and]
    have hhistory := hfollows.history line hle rule
    rw [hrules] at hhistory
    exact hhistory
  · rw [decide_eq_false hle, Bool.false_and]
    exact Directives.wasOff_of_endedBy hfollows.ended (Nat.lt_of_not_le hle) rule

/-- A run withholds a problem because of directives if and only if the comments up to the line of
the problem switch its rule off there, whenever the problem is reported. This needs that no comment
stands behind a NUL on its line. -/
theorem run_withholds_iff_offOn (l : Linter) (fs : Files) (text : String) (file : Option String)
    (hread : l.run fs text file ≠ .skipped)
    (hnul : ∀ c ∈ Element.comments (Element.ofDocument text),
      ¬c.FollowsNul (Source.ofText text)) :
    ∃ scanned atEnd judged : List Problem, l.run fs text file = .finished scanned atEnd ∧
      judged.Perm (l.reports fs text file) ∧
      scanned ++ atEnd = Gate.pass (textFault? text)
        (judged.filter fun p => !l.offOn text file p.line p.rule) := by
  obtain ⟨scanned, atEnd, judged, hrun, hperm, hyield⟩ := l.run_account fs text file hread
  have hsame : judged.filter (!Run.withheldBy (l.directivesFor text file) ·) =
      judged.filter fun p => !l.offOn text file p.line p.rule := by
    apply List.filter_congr
    intro p _
    rw [Run.withheldBy, l.directivesFor_wasOff file hnul]
  exact ⟨scanned, atEnd, judged, hrun, hperm, by rw [hyield, hsame]⟩

/-- Comments for one line and for the rest of a text, read by one rule. -/
theorem run_withholds_iff_offOn_of_comments :
    let l := ofRule Rules.truthy
    let text := "a: Yes # yamllint disable-line\nb: No\n# yamllint disable rule:truthy\nc: On\n"
    (l.reports Files.empty text none).map (fun p => (p.line, l.offOn text none p.line p.rule)) =
        [(1, true), (2, false), (4, true)] ∧
      ∃ scanned atEnd judged : List Problem, l.run Files.empty text none = .finished scanned atEnd ∧
        judged.Perm (l.reports Files.empty text none) ∧
        scanned ++ atEnd = Gate.pass (textFault? text)
          (judged.filter fun p => !l.offOn text none p.line p.rule) :=
  ⟨by decide +kernel,
    run_withholds_iff_offOn (ofRule Rules.truthy) Files.empty _ none
      (run_ne_skipped (by decide +kernel) Files.empty) (by decide +kernel)⟩

/-- A NUL ends the tokens, and their end counts as a line of its own. A comment that stands behind
the NUL is met after its line has ended, and the line does not obey it. -/
theorem run_yields_despite_comment_behind_nul :
    let l := ofRule Rules.truthy
    let text := "a: Yes\x00 # yamllint disable-line\n"
    l.run Files.empty text none ≠ .skipped ∧ l.offOn text none 1 "truthy" = true ∧
      (l.run Files.empty text none).problems.map (fun p => (p.line, p.rule)) =
        [(1, "truthy")] :=
  ⟨run_ne_skipped (by decide +kernel) Files.empty, by decide +kernel, by decide +kernel⟩

end Linter

end Blueprint

/-!
A comment that switches a rule off holds from its own line to the last line of the text, unless a
later comment switches the rule on again.
-/

namespace Blueprint

namespace Directive

/-- Whether a comment switches a rule off for all that follows. -/
def disables (rule : String) (c : Comment) : Bool :=
  match ofComment? c.text with
  | some (.disable names) => names.isEmpty || names.contains rule
  | _ => false

/-- Whether a comment switches a rule on again. -/
def enables (rule : String) (c : Comment) : Bool :=
  match ofComment? c.text with
  | some (.enable names) => names.isEmpty || names.contains rule
  | _ => false

variable {active : List String} {rule : String} (hrule : rule ∈ active)

/-- What the comments read so far leave switched off, with one more comment. -/
def offAfterOne (active : List String) (rule : String) (off : Bool) (c : Comment) : Bool :=
  match ofComment? c.text with
  | some (.disable names) => off || (Directives.meant active names).contains rule
  | some (.enable names) => off && !(Directives.meant active names).contains rule
  | _ => off

include hrule in
/-- A comment changes whether a rule is off only by switching it off or on. -/
theorem offAfterOne_eq (off : Bool) (c : Comment) :
    offAfterOne active rule off c = (disables rule c || (off && !enables rule c)) := by
  unfold offAfterOne disables enables
  split
  next names hdirective =>
    rw [hdirective, Directives.contains_meant_of_mem hrule, Bool.or_comm]
    simp
  next names hdirective =>
    rw [hdirective, Directives.contains_meant_of_mem hrule]
    simp
  next hdisable henable =>
    split
    next names hdirective => exact absurd hdirective (hdisable names)
    · split
      next names hdirective => exact absurd hdirective (henable names)
      · simp

theorem offAfter_eq_foldl (cs : List Comment) :
    offAfter active rule cs = cs.foldl (offAfterOne active rule) false := rfl

include hrule in
/-- A rule that is off stays off while no comment switches it on. -/
theorem foldl_offAfterOne_true {cs : List Comment} (hcs : ∀ c ∈ cs, enables rule c = false) :
    cs.foldl (offAfterOne active rule) true = true := by
  induction cs with
  | nil => rfl
  | cons c cs ih =>
    rw [List.foldl_cons, offAfterOne_eq hrule, hcs c List.mem_cons_self]
    simpa using ih fun d hd => hcs d (List.mem_cons_of_mem c hd)

include hrule in
theorem offAfter_of_disables {before after : List Comment} {c : Comment}
    (hc : disables rule c = true) (hafter : ∀ d ∈ after, enables rule d = false) :
    offAfter active rule (before ++ c :: after) = true := by
  rw [offAfter_eq_foldl, List.foldl_append, List.foldl_cons, offAfterOne_eq hrule, hc,
    Bool.true_or]
  exact foldl_offAfterOne_true hrule hafter

include hrule in
/-- From the line of the comment on, the rule is off. -/
theorem offOn_of_disables {before after : List Comment} {c : Comment}
    (hc : disables rule c = true) (hafter : ∀ d ∈ after, enables rule d = false) {line : Nat}
    (hline : c.line ≤ line) : offOn active (before ++ c :: after) line rule = true := by
  have hread : (before ++ c :: after).filter (·.line ≤ line) =
      before.filter (·.line ≤ line) ++ c :: after.filter (·.line ≤ line) := by
    simp [hline]
  unfold offOn
  dsimp only
  rw [hread, offAfter_of_disables hrule hc fun d hd => hafter d (List.mem_filter.mp hd).1, Bool.true_or]

end Directive

namespace Linter

/-- Where a comment switches a rule off and no later one switches it on, the problems of the rule
that a run yields stand before the line of the comment or behind the last line of the text. -/
theorem run_obeys_disable (l : Linter) (fs : Files) (text : String) (file : Option String)
    (hread : l.run fs text file ≠ .skipped)
    (hnul : ∀ c ∈ Element.comments (Element.ofDocument text), ¬c.FollowsNul (Source.ofText text))
    {before after : List Comment} {c : Comment} {rule : String}
    (hcomments : Element.comments (Element.ofDocument text) = before ++ c :: after)
    (hc : Directive.disables rule c = true)
    (hafter : ∀ d ∈ after, Directive.enables rule d = false) :
    ∀ p ∈ (l.run fs text file).problems, p.rule = rule →
      p.line < c.line ∨ lineCount text < p.line ∨ textFault? text = some p := by
  intro p hp hrule
  obtain ⟨scanned, atEnd, judged, hrun, hperm, hyield⟩ := l.run_account fs text file hread
  rw [hrun] at hp
  have hpass : p ∈ Gate.pass (textFault? text)
      (judged.filter (!Run.withheldBy (l.directivesFor text file) ·)) := hyield ▸ hp
  rcases Gate.mem_pass hpass with hpassed | hfault
  · obtain ⟨hjudged, hkept⟩ := List.mem_filter.mp hpassed
    obtain ⟨a, ha, hname⟩ := reports_rule (hperm.mem_iff.mp hjudged)
    have hactive : rule ∈ l.namesFor file := by
      rw [← hrule, hname]
      exact List.mem_map_of_mem ha
    rw [Run.withheldBy, l.directivesFor_wasOff file hnul, hrule] at hkept
    by_cases hline : c.line ≤ p.line
    · right
      left
      by_contra hlast
      have hoff : l.offOn text file p.line rule = true := by
        unfold offOn
        rw [hcomments, decide_eq_true (Nat.le_of_not_lt hlast),
          Directive.offOn_of_disables hactive hc hafter hline]
        rfl
      rw [hoff] at hkept
      cases hkept
    · exact Or.inl (Nat.lt_of_not_le hline)
  · exact Or.inr (Or.inr hfault)

/-- A comment in the middle of a text, with a later one that is about another rule. -/
theorem run_obeys_disable_of_other_rule :
    let l := ofRule Rules.truthy
    let text := "a: Yes\nb: No # yamllint disable rule:truthy\nc: On\n# yamllint enable rule:x\nd: Off\n"
    (l.reports Files.empty text none).map (·.line) = [1, 2, 3, 5] ∧
      ∀ p ∈ (l.run Files.empty text none).problems, p.rule = "truthy" →
        p.line < 2 ∨ lineCount text < p.line ∨ textFault? text = some p := by
  intro l text
  refine ⟨by decide +kernel, ?_⟩
  have hcomments : Element.comments (Element.ofDocument text) = [] ++
      { text := "# yamllint disable rule:truthy".toList, line := 2, column := 7, index := 13
        inline := true, precedingStop := ⟨12, 2, 5⟩ } ::
      [{ text := "# yamllint enable rule:x".toList, line := 4, column := 1, index := 50
         inline := false, precedingStop := ⟨49, 3, 5⟩ }] := by
    decide +kernel
  exact run_obeys_disable l Files.empty text none (run_ne_skipped (by decide +kernel) Files.empty)
    (by decide +kernel) hcomments (by decide +kernel) (by decide +kernel)

/-- The history knows the lines of the text only. A node without a value at the end of a text that
does not end its last line stands on the line after it, and no directive holds there. -/
theorem run_yields_behind_last_line :
    let l := ofRule Rules.inputs
    let text := "# yamllint disable\nget_input:"
    l.run Files.empty text none ≠ .skipped ∧
      (Element.comments (Element.ofDocument text)).map
        (fun c => (c.line, Directive.ofComment? c.text)) = [(1, some (.disable []))] ∧
      lineCount text = 2 ∧
      (l.run Files.empty text none).problems.map (fun p => (p.line, p.rule)) = [(3, "inputs")] :=
  ⟨run_ne_skipped (by decide +kernel) Files.empty, by decide +kernel, by decide +kernel,
    by decide +kernel⟩

end Linter

end Blueprint
