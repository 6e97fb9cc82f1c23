import Blueprint.Proofs.CarriedRepairs
import Blueprint.Proofs.Reindentation
import Blueprint.Proofs.RepairShape
import Blueprint.Proofs.RepairTrials

/-!
Which problems a summary shows as fixed. A repair that reports a change has changed the text of the
file. A summary looks for a problem by its place and rule alone, so it may take another one for it.
-/

namespace Blueprint

namespace FileLines

open Text (trimStart)

variable {lines new : FileLines} {index : Nat} {line line' : List Char} {delta : Int}

theorem lines_eq_of_getElem? (hget : lines[index]? = some line) :
    lines = lines.take index ++ line :: lines.drop (index + 1) := by
  obtain ⟨hlt, rfl⟩ := List.getElem?_eq_some_iff.mp hget
  rw [← List.drop_eq_getElem_cons hlt, List.take_append_drop]

/-- Another line in the place of a line gives another text. -/
theorem flatten_set_ne (hget : lines[index]? = some line) (hne : line' ≠ line) :
    (lines.set index line').flatten ≠ lines.flatten := by
  intro heq
  rw [List.set_eq_take_append_cons_drop, if_pos (List.getElem?_eq_some_iff.mp hget).1] at heq
  conv at heq =>
    rhs
    rw [lines_eq_of_getElem? hget]
  rw [List.flatten_append, List.flatten_append, List.flatten_cons, List.flatten_cons] at heq
  exact hne (List.append_cancel_right (List.append_cancel_left heq))

theorem mapContent_flatten {f : List Char → List Char}
    (h : lines.mapContent f index = some (new, delta)) : new.flatten ≠ lines.flatten := by
  obtain ⟨line, hget, hchanged, rfl, -⟩ := mapContent_eq_some.mp h
  refine flatten_set_ne hget fun heq => hchanged ?_
  conv at heq =>
    rhs
    rw [← content_append_terminator line]
  exact List.append_cancel_right heq

theorem endWithFeed_flatten (h : lines.endWithFeed index = some (new, delta)) :
    new.flatten ≠ lines.flatten := by
  obtain ⟨r, hget, rfl, -⟩ := endWithFeed_eq_some.mp h
  refine flatten_set_ne hget fun heq => ?_
  exact absurd (List.append_cancel_left heq) (by decide)

/-- Lines that hold a text are not missing without a trace. -/
theorem flatten_append_ne {before middle after : FileLines} (h : middle.flatten ≠ []) :
    (before ++ (middle ++ after)).flatten ≠ (before ++ after).flatten := by
  intro heq
  rw [List.flatten_append, List.flatten_append, List.flatten_append] at heq
  exact h (List.append_left_eq_self.mp (List.append_cancel_left heq))

theorem insertLabel_flatten {name : String} (h : lines.insertLabel name index = some (new, delta)) :
    new.flatten ≠ lines.flatten := by
  obtain ⟨line, indent, -, -, rfl, -⟩ := insertLabel_eq_some h
  have hlabel : labelLine indent line ≠ [] :=
    List.append_ne_nil_of_left_ne_nil (List.append_ne_nil_of_left_ne_nil
      (List.append_ne_nil_of_right_ne_nil _ (by decide)) _) _
  have hadded := @flatten_append_ne (lines.take (index + 1)) [labelLine indent line]
    (lines.drop (index + 1)) (by rwa [List.flatten_singleton])
  rwa [List.take_append_drop] at hadded

/-- The lines between two places. -/
theorem exists_between {start stop : Nat} (hlt : index < lines.length) (hstart : start ≤ index)
    (hstop : index < stop) :
    ∃ middle, lines[index] ∈ middle ∧ lines = lines.take start ++ (middle ++ lines.drop stop) := by
  refine ⟨(lines.drop start).take (stop - start), ?_, ?_⟩
  · refine List.mem_iff_getElem?.mpr ⟨index - start, ?_⟩
    rw [List.getElem?_take_of_lt (by omega), List.getElem?_drop, Nat.add_sub_cancel' hstart,
      List.getElem?_eq_getElem hlt]
  · have hrest : lines.drop stop = (lines.drop start).drop (stop - start) := by
      rw [List.drop_drop, Nat.add_sub_cancel' (by omega)]
    rw [hrest, List.take_append_drop, List.take_append_drop]

/-- Lines are removed, so their number changes, and so does the text if the last one of them is not
empty. -/
theorem removeBlank_flatten {message : String}
    (h : lines.removeBlank message index = some (new, delta)) (hlt : index < lines.length) :
    new ≠ lines ∧ (lines[index]? ≠ some [] → new.flatten ≠ lines.flatten) := by
  unfold removeBlank at h
  obtain ⟨excess, _, h⟩ := Option.bind_eq_some_iff.mp h
  dsimp only at h
  split at h
  · cases h
  next hcount =>
    generalize min _ excess = count at h hcount
    cases h
    obtain ⟨middle, hmem, hparts⟩ :=
      @exists_between _ _ (index + 1 - count) (index + 1) hlt (by omega) (Nat.lt_succ_self index)
    generalize lines.take (index + 1 - count) = before at hparts
    generalize lines.drop (index + 1) = after at hparts
    constructor
    · intro heq
      rw [hparts] at heq
      have hnil : middle = [] := List.append_left_eq_self.mp (List.append_cancel_left heq).symm
      rw [hnil] at hmem
      cases hmem
    · intro hfull heq
      conv at heq =>
        rhs
        rw [hparts]
      refine flatten_append_ne (fun hnil => hfull ?_) heq.symm
      rw [List.getElem?_eq_getElem hlt, List.flatten_eq_nil_iff.mp hnil _ hmem]

/-- What a text starts with is not taken from what follows a line with content. -/
theorem leadingSpaces_append (h : hasContent (content line) = true) (rest : List Char) :
    leadingSpaces (line ++ rest) = leadingSpaces (content line) := by
  have hstop : ((content line).takeWhile (· == ' ')).length ≠ (content line).length := by
    intro hall
    refine trimStart_ne_nil h (List.dropWhile_eq_nil_iff.mpr fun c hc => ?_)
    have hspace : (content line).takeWhile (· == ' ') = content line :=
      (List.takeWhile_prefix _).eq_of_length hall
    rw [eq_of_beq (List.takeWhile_eq_self_iff.mp hspace c hc)]
    decide
  unfold leadingSpaces
  conv =>
    lhs
    rw [← content_append_terminator line, List.append_assoc, List.takeWhile_append, if_neg hstop]

/-- Lines with other indentations make up another text. -/
theorem indentFrom_flatten (skip : Nat) (indents : List Nat) (lines : FileLines)
    (h : (indentFrom skip indents lines).flatten = lines.flatten) :
    indentFrom skip indents lines = lines := by
  induction lines generalizing skip indents with
  | nil => rfl
  | cons line r ih =>
    have hkept {skip : Nat} {indents : List Nat}
        (h : (line :: indentFrom skip indents r).flatten = (line :: r).flatten) :
        line :: indentFrom skip indents r = line :: r := by
      rw [List.flatten_cons, List.flatten_cons] at h
      rw [ih _ _ (List.append_cancel_left h)]
    rw [indentFrom] at h ⊢
    split at h
    next hcontent =>
      rw [if_pos hcontent]
      split at h
      next hskip =>
        rw [if_pos hskip]
        -- The spaces at the start of the text tell that the first line has kept its indentation.
        have hspaces := congrArg leadingSpaces h
        have hnew : hasContent (content (indented (indents.headD 0) line)) = true := by
          rw [hasContent_congr (trim_indented hcontent)]
          exact hcontent
        rw [List.flatten_cons, List.flatten_cons, leadingSpaces_append hnew,
          leadingSpaces_append hcontent, leadingSpaces_indented hcontent] at hspaces
        have hsame : indented (indents.headD 0) line = line := if_pos hspaces.symm
        rw [hsame] at h ⊢
        exact hkept h
      next hskip =>
        rw [if_neg hskip]
        exact hkept h
    next hcontent =>
      rw [if_neg hcontent]
      exact hkept h

theorem reindent_flatten (h : lines.reindent? index = some (some (new, delta))) :
    new.flatten ≠ lines.flatten := by
  unfold reindent? at h
  obtain ⟨indents, _, h⟩ := Option.map_eq_some_iff.mp h
  dsimp only at h
  split at h
  · cases h
  next hchanged =>
    cases h
    exact fun heq => hchanged (indentFrom_flatten _ _ _ heq)

end FileLines

namespace Fix

open FileLines

/-- A repair that reports a change has changed the lines, and the text unless the line at which it is
tried is empty. -/
theorem apply_changes {p : Problem} {lines new : FileLines} {index : Nat} {delta : Int}
    (h : apply p lines index = some (some (new, delta))) :
    new ≠ lines ∧ (lines[index]? ≠ some [] → new.flatten ≠ lines.flatten) := by
  have htext (hne : new.flatten ≠ lines.flatten) :
      new ≠ lines ∧ (lines[index]? ≠ some [] → new.flatten ≠ lines.flatten) :=
    ⟨fun heq => hne (congrArg List.flatten heq), fun _ => hne⟩
  unfold apply at h
  split at h
  · cases h
  next hin =>
    split at h
    · exact htext (mapContent_flatten (Option.some.inj h))
    · exact htext (insertLabel_flatten (Option.some.inj h))
    · unfold ofRule at h
      split at h
      · exact htext (mapContent_flatten (Option.some.inj h))
      · exact htext (mapContent_flatten (Option.some.inj h))
      · exact htext (mapContent_flatten (Option.some.inj h))
      · exact htext (mapContent_flatten (Option.some.inj h))
      · exact htext (mapContent_flatten (Option.some.inj h))
      · exact htext (mapContent_flatten (Option.some.inj h))
      · exact removeBlank_flatten (Option.some.inj h) (Nat.lt_of_not_le hin)
      · exact htext (endWithFeed_flatten (Option.some.inj h))
      · exact htext (reindent_flatten h)
      · cases h

/-- The trial is that of a problem's own repair, and has changed the file. -/
structure Trial.Repairs (t : Trial) (p : Problem) : Prop where
  judges : p ∈ t.problems
  line : t.problem.line = p.line
  rule : t.problem.rule = p.rule
  repair : t.problem.repair = p.repair
  changes : ∃ new delta, t.draft.change? t.problem = some (some (new, delta)) ∧
    new ≠ t.draft.lines ∧
    (t.draft.lines[t.draft.index t.problem]? ≠ some [] → String.ofList new.flatten ≠ t.draft.text)

theorem Trial.changes_iff {t : Trial} :
    t.changes = true ↔ ∃ new delta, t.draft.change? t.problem = some (some (new, delta)) := by
  unfold changes
  rw [Option.isSome_iff_exists]
  simp only [Prod.exists, Option.join_eq_some_iff]

/-- A problem is selected, and its own repair changes the file. -/
def IsRepaired (fs : Files) (selection : Selection) (path : String) (problems : List Problem)
    (p : Problem) : Prop :=
  selection.selects p = true ∧ ∃ t ∈ fileTrials fs selection path problems, t.Repairs p

theorem fixable_of_selects {selection : Selection} {p : Problem} (h : selection.selects p = true) :
    p.fixable = true :=
  (Bool.and_eq_true_iff.mp h).1

variable {l : Linter} {fs₀ fs fs' : Files} {text path : String} {file : Option String}
  {selection : Selection} {problems : List Problem} {report : FixSummary} {p : Problem}

/-- Of the problems that a linter finds, those are fixed whose own repair has changed the file. -/
theorem mem_fixed_iff (hl : l.registry = Registry.builtin)
    (hfound : ∀ q ∈ problems, q ∈ (l.run fs₀ text file).problems)
    (hrun : repairFile fs selection path problems = (fs', .ok report)) :
    p ∈ report.fixed ↔ p ∈ problems ∧ IsRepaired fs selection path problems p := by
  have hfixed : report.fixed = judged true (fileTrials fs selection path problems) :=
    (repairFile_summary hrun).1 true
  rw [hfixed, mem_judged]
  constructor
  · rintro ⟨t, ht, hchanges, hpt⟩
    obtain ⟨⟨hp, hselects⟩, hline, hrule, hown⟩ := place_of_mem_fileTrials ht hpt
    obtain ⟨⟨hfirst, hfirstSelects⟩, _⟩ := place_of_mem_fileTrials ht List.mem_cons_self
    have hcarried : t.problem.repair.isSome = p.repair.isSome := by
      rw [Linter.run_repair_isSome hl (hfound _ hfirst) (fixable_of_selects hfirstSelects),
        Linter.run_repair_isSome hl (hfound p hp) (fixable_of_selects hselects), hrule]
    have hrepair : t.problem.repair = p.repair := by
      rcases hown with rfl | hnone
      · rfl
      · rw [hnone] at hcarried ⊢
        exact Option.not_isSome_iff_eq_none.mp (Bool.eq_false_iff.mp hcarried)
    obtain ⟨new, delta, hchange⟩ := Trial.changes_iff.mp hchanges
    obtain ⟨hlines, htext⟩ := apply_changes hchange
    refine ⟨hp, hselects, t, ht, hpt, hline.symm, hrule.symm, hrepair, new, delta, hchange, hlines, ?_⟩
    intro hfull heq
    exact htext hfull (String.ofList_injective heq)
  · rintro ⟨_, _, t, ht, hrepairs⟩
    obtain ⟨new, delta, hchange, _⟩ := hrepairs.changes
    exact ⟨t, ht, Trial.changes_iff.mpr ⟨new, delta, hchange⟩, hrepairs.judges⟩

/-- A summary shows a problem as fixed if and only if the repair of a problem with its place and rule
has changed the file. This is its own repair as long as no other selected problem has its place and
rule. -/
theorem repairFile_isFixed (hl : l.registry = Registry.builtin)
    (hfound : ∀ q ∈ problems, q ∈ (l.run fs₀ text file).problems)
    (hrun : repairFile fs selection path problems = (fs', .ok report)) (hp : p ∈ problems) :
    (report.isFixed p = true ↔
      ∃ q ∈ problems, q.same p = true ∧ IsRepaired fs selection path problems q) ∧
      ((∀ q ∈ problems, selection.selects q = true → q.same p = true → q = p) →
        (report.isFixed p = true ↔ IsRepaired fs selection path problems p)) := by
  have hiff : report.isFixed p = true ↔
      ∃ q ∈ problems, q.same p = true ∧ IsRepaired fs selection path problems q := by
    unfold FixSummary.isFixed
    rw [List.any_eq_true]
    constructor
    · rintro ⟨q, hq, hsame⟩
      obtain ⟨hmem, hrepaired⟩ := (mem_fixed_iff hl hfound hrun).mp hq
      exact ⟨q, hmem, hsame, hrepaired⟩
    · rintro ⟨q, hmem, hsame, hrepaired⟩
      exact ⟨q, (mem_fixed_iff hl hfound hrun).mpr ⟨hmem, hrepaired⟩, hsame⟩
  refine ⟨hiff, fun honly => hiff.trans ⟨?_, fun hrepaired => ?_⟩⟩
  · rintro ⟨q, hmem, hsame, hrepaired⟩
    rwa [← honly q hmem hrepaired.1 hsame]
  · refine ⟨p, hp, ?_, hrepaired⟩
    unfold Problem.same
    simp only [beq_self_eq_true, Bool.and_self]

/-- The boolean is in lower case, and the white space behind it gone. -/
theorem repairFile_isFixed_of_boolean :
    let text := "a: True \n"
    let fs := Files.empty.create "b.yaml" (.text text)
    let l : Linter :=
      { registry := .builtin
        confs := [("truthy", Rules.truthy.defaults), ("trailing-spaces", Rules.trailingSpaces.defaults)]
        ignore := [] }
    let problems := (l.run fs text (some "b.yaml")).problems
    ∃ p ∈ problems, p.rule = "truthy" ∧
      (∀ q ∈ problems, Selection.all.selects q = true → q.same p = true → q = p) ∧
      ∃ fs' report, repairFile fs .all "b.yaml" problems = (fs', .ok report) ∧
        report.isFixed p = true ∧ IsRepaired fs .all "b.yaml" problems p := by
  intro text fs l problems
  obtain ⟨p, hp, hrule, honly, hfixed⟩ : ∃ p ∈ problems, p.rule = "truthy" ∧
      (∀ q ∈ problems, Selection.all.selects q = true → q.same p = true → q = p) ∧
      (repairFile fs .all "b.yaml" problems).2.toOption.map (·.isFixed p) = some true := by
    decide +kernel
  refine ⟨p, hp, hrule, honly, ?_⟩
  cases hrun : repairFile fs .all "b.yaml" problems with
  | mk fs' result =>
    rw [hrun] at hfixed
    cases result with
    | error e => cases hfixed
    | ok report =>
      have hshown : report.isFixed p = true := Option.some.inj hfixed
      have hiff := (repairFile_isFixed (l := l) rfl (fun _ hq => hq) hrun hp).2 honly
      exact ⟨fs', report, rfl, hshown, hiff.mp hshown⟩

/-- Of the two problems of an input, one can be repaired and one cannot. The label is added, and both
count as fixed. -/
theorem repairFile_isFixed_of_neighbour :
    let text :=
      "tosca_definitions_version: nativeedge_1_0\ninputs:\n  port:\n    type: string\n    foo: 1\n"
    let fs := Files.empty.create "b.yaml" (.text text)
    let l : Linter :=
      { registry := .builtin, confs := [("inputs", Rules.inputs.defaults)], ignore := [] }
    let problems := (l.run fs text (some "b.yaml")).problems
    problems.map (fun p => (p.message, Selection.all.selects p)) =
        [("the following keys are invalid for inputs: foo", false),
          ("Input port is missing a display_label.", true)] ∧
      ((repairFile fs .all "b.yaml" problems).2.toOption.map fun report =>
          (report.fixed.map (·.message), problems.map report.isFixed)) =
        some (["Input port is missing a display_label."], [true, true]) := by
  decide +kernel

end Fix

end Blueprint
