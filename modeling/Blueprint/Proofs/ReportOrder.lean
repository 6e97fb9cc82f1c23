import Blueprint.Proofs.FaultPlace

/-!
The order of what a run yields. Problems at one place keep the order in which they were reported. If
no check reports a problem on a line that has ended, what is yielded while reading is in the order
of the places, and so is what is yielded at the end.
-/

namespace Blueprint

namespace Problem

def isAt (line : Nat) (column : Option Nat) (p : Problem) : Bool :=
  p.line = line ∧ p.column = column

/-- No problem of the list has a place before that of an earlier one. -/
def InOrder (ps : List Problem) : Prop :=
  ps.Pairwise fun p q => q.placeBefore p = false

variable {ps : List Problem}

theorem InOrder.sublist {qs : List Problem} (h : InOrder ps) (hsub : qs.Sublist ps) :
    InOrder qs :=
  List.Pairwise.sublist hsub h

theorem sortBy_inOrder (ps : List Problem) : InOrder (sortBy placeBefore ps) :=
  foldl_insertSorted_pairwise placeBefore_strict ps List.Pairwise.nil

theorem inOrder_of_lines {early late : List Problem} {n : Nat} (hearly : InOrder early)
    (hlate : InOrder late) (hbound : ∀ p ∈ early, p.line ≤ n) (hbeyond : ∀ p ∈ late, n < p.line) :
    InOrder (early ++ late) := by
  refine List.pairwise_append.mpr ⟨hearly, hlate, ?_⟩
  intro p hp q hq
  have hlt : p.line < q.line := Nat.lt_of_le_of_lt (hbound p hp) (hbeyond q hq)
  simp [placeBefore, Nat.not_lt_of_lt hlt, Nat.ne_of_gt hlt]

/-- Sorting leaves the problems at one place in their order. -/
theorem sortBy_filter_isAt (ps : List Problem) (line : Nat) (column : Option Nat) :
    (sortBy placeBefore ps).filter (isAt line column) = ps.filter (isAt line column) := by
  rw [sortBy_filter placeBefore_strict]
  apply sortBy_of_not_before
  intro p hp q hq
  have hp' := (List.mem_filter.mp hp).2
  have hq' := (List.mem_filter.mp hq).2
  simp only [isAt, decide_eq_true_eq] at hp' hq'
  unfold placeBefore
  rw [hp'.1, hq'.1, hp'.2, hq'.2]
  cases column <;> simp [columnBefore]

end Problem

namespace Gate

open Problem

/-- Whatever is held back at the gate, it stands at a column. -/
def AtColumn (g : Gate) : Prop :=
  ∀ fault, g = some fault → ∃ c, fault.column = some (c + 1)

variable {g : Gate} {ps : List Problem}

theorem releaseAll_atColumn (h : g.AtColumn) (ps : List Problem) : (g.releaseAll ps).1.AtColumn := by
  induction ps generalizing g with
  | nil => exact h
  | cons p ps ih =>
    rw [releaseAll_cons]
    refine ih ?_
    unfold release
    cases g with
    | none => exact h
    | some fault =>
      dsimp only
      split
      · exact h
      · split
        · intro _ hnone
          cases hnone
        · intro _ hnone
          cases hnone

theorem isEarly_eq {fault : Problem} {c : Nat} (hcolumn : fault.column = some (c + 1))
    (p : Problem) : isEarly fault p = p.placeBefore fault := by
  unfold isEarly placeLt place placeBefore
  cases p.column <;> simp [hcolumn, columnBefore]

theorem placeBefore_of_mem_late {fault : Problem} {c : Nat} (hcolumn : fault.column = some (c + 1))
    (hsorted : InOrder ps) {p : Problem} (hp : p ∈ late fault ps) :
    p.placeBefore fault = false := by
  induction ps with
  | nil => cases hp
  | cons q ps ih =>
    obtain ⟨hq, hps⟩ := List.pairwise_cons.mp hsorted
    by_cases hearly : isEarly fault q = true
    · unfold late at hp ih
      rw [List.dropWhile_cons_of_pos hearly] at hp
      exact ih hps hp
    · unfold late at hp
      rw [List.dropWhile_cons_of_neg hearly] at hp
      rw [isEarly_eq hcolumn, Bool.not_eq_true] at hearly
      rcases List.mem_cons.mp hp with rfl | hp
      · exact hearly
      · by_contra hbefore
        rw [Bool.not_eq_false] at hbefore
        have hbeforeHead := placeBefore_strict.apart hbefore hearly
        rw [hq p hp] at hbeforeHead
        cases hbeforeHead

/-- The fault does not disturb the order in which problems come to the gate. -/
theorem pass_inOrder (h : g.AtColumn) (hsorted : InOrder ps) : InOrder (g.pass ps) := by
  cases g with
  | none =>
    rw [pass_none]
    exact hsorted
  | some fault =>
    obtain ⟨c, hcolumn⟩ := h fault rfl
    have hbehind (p : Problem) (hp : p ∈ behind fault ps) : p.placeBefore fault = false :=
      placeBefore_of_mem_late hcolumn hsorted ((behind_sublist fault ps).subset hp)
    rw [pass_some_eq]
    refine List.pairwise_append.mpr ⟨hsorted.sublist (List.takeWhile_sublist _),
      List.pairwise_cons.mpr ⟨hbehind, hsorted.sublist
        ((behind_sublist fault ps).trans (List.dropWhile_sublist _))⟩, ?_⟩
    intro p hp q hq
    have hearly := isEarly_eq hcolumn p ▸ List.mem_takeWhile_imp hp
    rcases List.mem_cons.mp hq with rfl | hq
    · exact placeBefore_strict.asymm hearly
    · exact placeBefore_strict.asymm (placeBefore_strict.apart hearly (hbehind q hq))

theorem releaseAll_inOrder (h : g.AtColumn) (hsorted : InOrder ps) :
    InOrder (g.releaseAll ps).2 :=
  (pass_inOrder h hsorted).sublist (List.sublist_append_left _ _)

/-- The problems at one place pass in the order in which they come, the fault in front of those at
its place. -/
theorem pass_filter_isAt (g : Gate) (ps : List Problem) (line : Nat) (column : Option Nat) :
    ((g.pass ps).filter (isAt line column)).Sublist
      (g.toList ++ ps.filter (isAt line column)) := by
  cases g with
  | none =>
    rw [pass_none]
    exact List.Sublist.refl _
  | some fault =>
    have hsplit : ps.takeWhile (isEarly fault) ++ late fault ps = ps :=
      List.takeWhile_append_dropWhile
    have hbehind := ((behind_sublist fault ps).append_left
      (ps.takeWhile (isEarly fault))).filter (isAt line column)
    rw [hsplit, List.filter_append] at hbehind
    rw [pass_some_eq, List.filter_append, List.filter_cons]
    split
    next hat =>
      have hnone : (ps.takeWhile (isEarly fault)).filter (isAt line column) = [] := by
        rw [List.filter_eq_nil_iff]
        intro p hp hpat
        have hearly := List.mem_takeWhile_imp hp
        simp only [isAt, decide_eq_true_eq] at hat hpat
        simp [isEarly, placeLt, place, hat, hpat] at hearly
      rw [hnone, List.nil_append] at hbehind ⊢
      exact hbehind.cons_cons fault
    next hat => exact hbehind.cons fault

end Gate

namespace Run

open Problem

variable {line : Nat} {column : Option Nat} {r : Run}

/-- Between two states of a run with an open gate, the problems at one place that are yielded or
still wait are some of those that waited and those reported since, in their order. -/
def InTurn (line : Nat) (column : Option Nat) (r : Run) (reports : List Problem) (r' : Run)
    (yielded : List Problem) : Prop :=
  ((yielded ++ r'.waiting).filter (isAt line column)).Sublist
    ((r.waiting ++ reports).filter (isAt line column))

theorem InTurn.trans {r₁ r₂ : Run} {reports₁ reports₂ yielded₁ yielded₂ : List Problem}
    (h₁ : r.InTurn line column reports₁ r₁ yielded₁)
    (h₂ : r₁.InTurn line column reports₂ r₂ yielded₂) :
    r.InTurn line column (reports₁ ++ reports₂) r₂ (yielded₁ ++ yielded₂) := by
  unfold InTurn at h₁ h₂ ⊢
  rw [List.filter_append, List.filter_append] at h₁ h₂
  have hlater := h₂.append_left (yielded₁.filter (isAt line column))
  have hearlier := h₁.append_right (reports₂.filter (isAt line column))
  rw [← List.append_assoc, ← List.append_assoc] at hlater
  simpa only [List.filter_append, List.append_assoc] using hlater.trans hearlier

theorem take_filter_isAt (n : Nat) (waiting : List Problem) (line : Nat) (column : Option Nat) :
    ((take (·.line ≤ n) waiting).1 ++ (take (·.line ≤ n) waiting).2).filter (isAt line column) =
      waiting.filter (isAt line column) := by
  unfold take
  rw [List.filter_append, sortBy_filter_isAt, List.filter_filter, List.filter_filter]
  have hline (p : Problem) (hp : isAt line column p = true) : p.line = line :=
    (of_decide_eq_true hp).1
  by_cases hdue : line ≤ n
  · have hnone : waiting.filter (fun p => isAt line column p && !decide (p.line ≤ n)) = [] := by
      rw [List.filter_eq_nil_iff]
      intro p _ hp
      simp only [Bool.and_eq_true, Bool.not_eq_true', decide_eq_false_iff_not] at hp
      exact hp.2 (hline p hp.1 ▸ hdue)
    rw [hnone, List.append_nil]
    apply List.filter_congr
    intro p _
    cases hp : isAt line column p
    · rfl
    · simp [hline p hp, hdue]
  · have hnone : waiting.filter (fun p => isAt line column p && decide (p.line ≤ n)) = [] := by
      rw [List.filter_eq_nil_iff]
      intro p _ hp
      simp only [Bool.and_eq_true, decide_eq_true_eq] at hp
      exact hdue (hline p hp.1 ▸ hp.2)
    rw [hnone, List.nil_append]
    apply List.filter_congr
    intro p _
    cases hp : isAt line column p
    · rfl
    · simp [hline p hp, hdue]

theorem InTurn.wait {r' : Run} {problems : List Problem} (hw : r'.waiting = r.waiting ++ problems) :
    r.InTurn line column problems r' [] := by
  unfold InTurn
  rw [hw]
  exact List.Sublist.refl _

theorem endLine_inTurn (hgate : r.gate = none) (n : Nat) :
    r.InTurn line column [] (r.endLine n).1 (r.endLine n).2 := by
  rw [endLine_eq hgate]
  unfold InTurn
  rw [List.append_nil, ← take_filter_isAt n r.waiting]
  exact (List.filter_sublist.append_right _).filter _

theorem step_inTurn (active : List ActiveRule) (e : Element) (hgate : r.gate = none) :
    r.InTurn line column (Call.makeAll r.file r.session (Call.ofElement active e)).1
      (step active r e).1 (step active r e).2 := by
  rw [step_eq]
  cases e with
  | token t => exact .wait rfl
  | node v => exact .wait rfl
  | comment c => exact .wait rfl
  | line l =>
    have hwait : r.InTurn line column _ (reported active r (.line l)) [] := .wait rfl
    have hended := @endLine_inTurn line column (reported active r (.line l)) hgate l.number
    simpa using hwait.trans hended

theorem steps_inTurn (active : List ActiveRule) (es : List Element) (hgate : r.gate = none) :
    r.InTurn line column
      (Call.makeAll r.file r.session (es.flatMap (Call.ofElement active))).1
      (steps active r es).1 (steps active r es).2 := by
  induction es generalizing r with
  | nil => exact .wait (List.append_nil _).symm
  | cons e es ih =>
    obtain ⟨hfile, hsession, _⟩ := step_state active r e
    have hrest := ih (r := (step active r e).1) (steps_opened_gate active [e] r hgate)
    rw [hfile, hsession] at hrest
    rw [List.flatMap_cons, Call.makeAll_append]
    exact (step_inTurn active e hgate).trans hrest

theorem finish_inOrder (active : List ActiveRule) (hgate : r.gate = none) :
    InOrder (r.finish active) := by
  rw [finish_eq hgate]
  exact (sortBy_inOrder _).sublist List.filter_sublist

theorem finish_filter_isAt (active : List ActiveRule) (hgate : r.gate = none) (line : Nat)
    (column : Option Nat) :
    ((r.finish active).filter (isAt line column)).Sublist
      ((r.waiting ++ (Call.makeAll r.file r.session (active.map .finish)).1).filter
        (isAt line column)) := by
  rw [finish_eq hgate, ← sortBy_filter_isAt (r.waiting ++ _)]
  exact List.filter_sublist.filter _

theorem read_filter_isAt (active : List ActiveRule) (es : List Element) (hgate : r.gate = none)
    (line : Nat) (column : Option Nat) :
    (((steps active r es).2 ++ (steps active r es).1.finish active).filter
        (isAt line column)).Sublist
      ((r.waiting ++ (Call.makeAll r.file r.session (Call.schedule active es)).1).filter
        (isAt line column)) := by
  obtain ⟨hfile, hsession, _⟩ := steps_state active r es
  have hread : r.InTurn line column _ _ _ := steps_inTurn active es hgate
  have hend := finish_filter_isAt active (steps_opened_gate active es r hgate) line column
  unfold InTurn at hread
  rw [hfile, hsession] at hend
  unfold Call.schedule
  rw [Call.makeAll_append]
  rw [List.filter_append] at hend hread ⊢
  rw [← List.append_assoc, List.filter_append]
  refine (hend.append_left _).trans ?_
  rw [← List.append_assoc]
  exact hread.append_right _

end Run

/-- The problems that the checks report over the elements, each with the last line that has ended
by then. -/
def Call.dated (active : List ActiveRule) (file : Option String) :
    Nat → Session → List Element → List (Nat × Problem)
  | _, _, [] => []
  | ended, s, e :: es =>
    let found := makeAll file s (ofElement active e)
    let now := (e.line?.map (·.number)).getD ended
    found.1.map (ended, ·) ++ dated active file now found.2 es

namespace Run

open Problem

variable {r : Run}

/-- Only the end of a line yields something. -/
theorem step_quiet (active : List ActiveRule) (r : Run) {e : Element} (h : e.line? = none) :
    (step active r e).2 = [] ∧
      (step active r e).1.waiting = (reported active r e).waiting := by
  rw [step_eq]
  cases e with
  | token t => exact ⟨rfl, rfl⟩
  | node v => exact ⟨rfl, rfl⟩
  | comment c => exact ⟨rfl, rfl⟩
  | line l => cases h

theorem step_endLine (active : List ActiveRule) (hgate : r.gate = none) {e : Element} {l : Line}
    (h : e.line? = some l) :
    (step active r e).1.waiting =
        (reported active r e).waiting.filter (fun p => !decide (p.line ≤ l.number)) ∧
      InOrder (step active r e).2 ∧
      ∀ p ∈ (step active r e).2, p ∈ (reported active r e).waiting ∧ p.line ≤ l.number := by
  rw [step_eq]
  cases e with
  | token t => cases h
  | node v => cases h
  | comment c => cases h
  | line m =>
    cases h
    dsimp only
    rw [endLine_eq (r := reported active r (.line l)) hgate]
    refine ⟨rfl, (sortBy_inOrder _).sublist List.filter_sublist, ?_⟩
    intro p hp
    have hdue := (sortBy_perm _ _).mem_iff.mp (List.mem_filter.mp hp).1
    exact ⟨(List.mem_filter.mp hdue).1, of_decide_eq_true (List.mem_filter.mp hdue).2⟩

/-- If every problem is reported before its line has ended, what the lines yield is in order. -/
theorem steps_inOrder (active : List ActiveRule) {es : List Element} {n k : Nat}
    (hlines : (es.filterMap Element.line?).map (·.number) = List.range' (n + 1) k)
    (hgate : r.gate = none) (hwaiting : ∀ p ∈ r.waiting, n < p.line)
    (hdated : ∀ d ∈ Call.dated active r.file n r.session es, d.1 < d.2.line) :
    InOrder (steps active r es).2 ∧ ∀ p ∈ (steps active r es).2, n < p.line := by
  induction es generalizing r n k with
  | nil => exact ⟨List.Pairwise.nil, fun p hp => by cases hp⟩
  | cons e es ih =>
    obtain ⟨hfile, hsession, _⟩ := step_state active r e
    have hgate' : (step active r e).1.gate = none := steps_opened_gate active [e] r hgate
    unfold Call.dated at hdated
    rw [List.forall_mem_append] at hdated
    obtain ⟨hfound, hlater⟩ := hdated
    have hreported : ∀ p ∈ (reported active r e).waiting, n < p.line := by
      intro p hp
      rcases List.mem_append.mp hp with hp | hp
      · exact hwaiting p hp
      · exact hfound (n, p) (List.mem_map_of_mem hp)
    have hrest := @ih (step active r e).1
    rw [hfile, hsession] at hrest
    have hyields : (steps active r (e :: es)).2 =
        (step active r e).2 ++ (steps active (step active r e).1 es).2 := rfl
    rw [hyields]
    cases hline : e.line? with
    | none =>
      obtain ⟨hnone, hwait⟩ := step_quiet active r hline
      rw [hline] at hlater
      rw [List.filterMap_cons_none hline] at hlines
      rw [hnone, List.nil_append]
      exact hrest hlines hgate' (hwait ▸ hreported) hlater
    | some l =>
      obtain ⟨hwait, horder, hmem⟩ := step_endLine active hgate hline
      rw [hline] at hlater
      rw [List.filterMap_cons_some hline] at hlines
      cases k with
      | zero => cases hlines
      | succ k =>
        rw [List.range'_succ] at hlines
        obtain ⟨hnumber, hlines⟩ := List.cons.inj hlines
        have hnumber : l.number = n + 1 := hnumber
        have hbeyond : ∀ p ∈ (step active r e).1.waiting, n + 1 < p.line := by
          intro p hp
          rw [hwait] at hp
          have hnot := (List.mem_filter.mp hp).2
          simp only [Bool.not_eq_true', decide_eq_false_iff_not] at hnot
          omega
        rw [Option.map_some, Option.getD_some, hnumber] at hlater
        obtain ⟨hrestOrder, hrestBound⟩ := hrest hlines hgate' hbeyond hlater
        refine ⟨inOrder_of_lines horder hrestOrder (fun p hp => hnumber ▸ (hmem p hp).2)
          hrestBound, ?_⟩
        intro p hp
        rcases List.mem_append.mp hp with hp | hp
        · exact hreported p (hmem p hp).1
        · exact Nat.lt_of_succ_lt (hrestBound p hp)

end Run

namespace Linter

/-- No check reports a problem on a line that has already ended. -/
def ReportsInTime (l : Linter) (fs : Files) (text : String) (file : Option String) : Prop :=
  ∀ d ∈ Call.dated (l.rulesFor file) file 0 (l.startRun fs text file).session
    (Element.ofDocument text), d.1 < d.2.line

instance (l : Linter) (fs : Files) (text : String) (file : Option String) :
    Decidable (l.ReportsInTime fs text file) :=
  inferInstanceAs (Decidable (∀ _ ∈ _, _))

/-- The problems at one place come to the gate in the order in which they were reported. -/
theorem passing_filter_isAt (l : Linter) (fs : Files) (text : String) (file : Option String)
    (line : Nat) (column : Option Nat) :
    (((l.passing fs text file).1 ++ (l.passing fs text file).2).filter
        (Problem.isAt line column)).Sublist
      ((l.reports fs text file).filter (Problem.isAt line column)) := by
  have hwait : (l.startRun fs text file).opened.waiting = [] := rfl
  have hfile : (l.startRun fs text file).opened.file = file := rfl
  have hsession : (l.startRun fs text file).opened.session = (l.startRun fs text file).session := rfl
  have hread := Run.read_filter_isAt (r := (l.startRun fs text file).opened) (l.rulesFor file)
    (Element.ofDocument text) rfl line column
  rw [hwait, hfile, hsession, List.nil_append] at hread
  unfold passing reports calls
  dsimp only
  exact hread

/-- If no check reports a problem on a line that has already ended, the problems that a run yields
while reading, with the fault of the text among them, are in the order of their places, and so are
those that it yields at the end. The problems at one place keep the order in which they were
reported, behind the fault if it is there. -/
theorem run_yields_in_order (l : Linter) (fs : Files) (text : String) (file : Option String)
    (hread : l.run fs text file ≠ .skipped) (htime : l.ReportsInTime fs text file) :
    ∃ scanned atEnd : List Problem, l.run fs text file = .finished scanned atEnd ∧
      Problem.InOrder scanned ∧ Problem.InOrder atEnd ∧
      ∀ line column, ((scanned ++ atEnd).filter (Problem.isAt line column)).Sublist
        ((textFault? text).toList ++
          (l.reports fs text file).filter (Problem.isAt line column)) := by
  have hgate := Run.steps_opened_gate (l.rulesFor file) (Element.ofDocument text)
    (l.startRun fs text file).opened rfl
  obtain ⟨hscanned, _⟩ := Run.steps_inOrder (l.rulesFor file)
    (r := (l.startRun fs text file).opened) (Element.ofDocument_lines text) rfl
    (fun p hp => by cases hp) htime
  have hatEnd := Run.finish_inOrder (l.rulesFor file) hgate
  have hcolumn : Gate.AtColumn (textFault? text) :=
    fun _ hfault => (textFault?_isFault hfault).column
  have hrun := l.run_eq_passing fs text file hread
  have hpassing : Problem.InOrder (l.passing fs text file).1 ∧
      Problem.InOrder (l.passing fs text file).2 := by
    unfold passing
    dsimp only
    exact ⟨hscanned, hatEnd⟩
  refine ⟨_, _, hrun, Gate.releaseAll_inOrder hcolumn hpassing.1,
    Gate.pass_inOrder (Gate.releaseAll_atColumn hcolumn _) hpassing.2, ?_⟩
  intro line column
  have hproblems := l.problems_eq_passing fs text file hread
  rw [hrun] at hproblems
  have hyield : (Gate.releaseAll (textFault? text) (l.passing fs text file).1).2 ++
      (Gate.releaseAll (textFault? text) (l.passing fs text file).1).1.pass
        (l.passing fs text file).2 = _ := hproblems
  rw [hyield]
  exact (Gate.pass_filter_isAt _ _ line column).trans
    ((l.passing_filter_isAt fs text file line column).append_left _)

/-- The fault stands between problems of one line, and two rules report at one place. -/
theorem run_yields_in_order_of_fault :
    let l : Linter := ⟨⟨[Rules.commas, Rules.truthy]⟩,
      [(Rules.commas.name, Rules.commas.defaults),
        (Rules.truthy.name, Rules.truthy.defaults)], [], []⟩
    let text := "[Yes,No,\n  ,c"
    l.ReportsInTime Files.empty text none ∧
      (l.run Files.empty text none).problems.map (fun p => (p.rule, p.line, p.column)) =
        [(Rules.truthy.name, 1, some 2), (Rules.commas.name, 1, some 6),
          (Rules.truthy.name, 1, some 6), (Rules.commas.name, 2, some 2),
          (Problem.textRule, 2, some 3), (Rules.commas.name, 2, some 4)] ∧
      ∃ scanned atEnd : List Problem, l.run Files.empty text none = .finished scanned atEnd ∧
        Problem.InOrder scanned ∧ Problem.InOrder atEnd := by
  intro l text
  have htime : l.ReportsInTime Files.empty text none := by decide +kernel
  obtain ⟨scanned, atEnd, hrun, hscanned, hatEnd, _⟩ := run_yields_in_order l Files.empty text none
    (run_ne_skipped (by decide +kernel) Files.empty) htime
  exact ⟨htime, by decide +kernel, scanned, atEnd, hrun, hscanned, hatEnd⟩

end Linter

end Blueprint
