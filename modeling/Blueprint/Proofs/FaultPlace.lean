import Blueprint.Lint.Registry
import Blueprint.Proofs.RunAccount

/-!
A run with an open gate yields the problems that come to the gate. What the run itself yields is what
the gate makes of them.
-/

namespace Blueprint

theorem Problem.placeBefore_strict : StrictOrder placeBefore where
  asymm {p q} h := by
    unfold placeBefore at h ⊢
    cases hp : p.column <;> cases hq : q.column <;>
      simp [columnBefore, hp, hq] at h ⊢ <;> omega
  apart {p q r} h h' := by
    unfold placeBefore at h h' ⊢
    cases hp : p.column <;> cases hq : q.column <;> cases hr : r.column <;>
      simp [columnBefore, hp, hq, hr] at h h' ⊢ <;> omega

namespace Run

variable {r : Run}

theorem endLine_eq (hgate : r.gate = none) (line : Nat) :
    r.endLine line =
      ({ r with
          waiting := (take (·.line ≤ line) r.waiting).2
          gate := none
          directives := r.directives.endLine line },
        (take (·.line ≤ line) r.waiting).1.filter fun p =>
          !(if p.line = line then r.directives.isOff p.rule
            else r.directives.wasOff p.line p.rule)) := by
  unfold endLine
  dsimp only
  rw [hgate, Gate.releaseAll_none]

theorem finish_eq (hgate : r.gate = none) (active : List ActiveRule) :
    r.finish active =
      (sortBy Problem.placeBefore
        (r.waiting ++ (Call.makeAll r.file r.session (active.map .finish)).1)).filter
          fun p => !r.directives.wasOff p.line p.rule := by
  unfold finish take
  rw [Call.eachRule_finish]
  dsimp only
  rw [hgate, Gate.releaseAll_none, List.filter_eq_self.mpr fun _ _ => rfl]
  exact List.append_nil _

/-- The run in which nothing is held back at the gate. -/
def opened (r : Run) : Run :=
  { r with gate := none }

/-- What the gate of a run makes of the problems that come to it in a run whose gate is open. -/
def regate (g : Gate) (u : Run × List Problem) : Run × List Problem :=
  ({ u.1 with gate := (g.releaseAll u.2).1 }, (g.releaseAll u.2).2)

theorem step_opened_gate (active : List ActiveRule) (r : Run) (e : Element) :
    (step active r.opened e).1.gate = none := by
  rw [step_eq]
  cases e with
  | token t => rfl
  | node v => rfl
  | comment c => rfl
  | line l =>
    dsimp only
    rw [endLine_eq rfl]

theorem step_regate (active : List ActiveRule) (r : Run) (e : Element) :
    step active r e = regate r.gate (step active r.opened e) := by
  rw [step_eq, step_eq]
  cases e with
  | token t => rfl
  | node v => rfl
  | comment c => rfl
  | line l =>
    dsimp only
    rw [endLine_eq (r := reported active r.opened (.line l)) rfl]
    rfl

theorem regate_gate (g : Gate) (u : Run × List Problem) :
    (regate g u).1.gate = (g.releaseAll u.2).1 := rfl

theorem regate_problems (g : Gate) (u : Run × List Problem) :
    (regate g u).2 = (g.releaseAll u.2).2 := rfl

theorem regate_opened (g : Gate) {u : Run × List Problem} (hgate : u.1.gate = none) :
    (regate g u).1.opened = u.1 := by
  unfold regate opened
  rw [← hgate]

theorem steps_opened_gate (active : List ActiveRule) (es : List Element) :
    ∀ r : Run, r.gate = none → (steps active r es).1.gate = none := by
  induction es with
  | nil => exact fun r hgate => hgate
  | cons e es ih =>
    intro r hgate
    have hopened : r = r.opened := by rw [opened, ← hgate]
    refine ih (step active r e).1 ?_
    rw [hopened]
    exact step_opened_gate active r e

theorem steps_regate (active : List ActiveRule) (r : Run) (es : List Element) :
    steps active r es = regate r.gate (steps active r.opened es) := by
  induction es generalizing r with
  | nil => rfl
  | cons e es ih =>
    have hstep := step_regate active r e
    have hrest := ih (step active r e).1
    have hopened : (step active r e).1.opened = (step active r.opened e).1 := by
      rw [hstep, regate_opened _ (step_opened_gate active r e)]
    rw [hopened] at hrest
    have hgate : (step active r e).1.gate =
        (r.gate.releaseAll (step active r.opened e).2).1 := by rw [hstep, regate]
    have hfirst : (step active r e).2 = (r.gate.releaseAll (step active r.opened e).2).2 := by
      rw [hstep, regate]
    show ((steps active (step active r e).1 es).1,
      (step active r e).2 ++ (steps active (step active r e).1 es).2) = _
    rw [hrest, hgate, hfirst]
    show _ = regate r.gate ((steps active (step active r.opened e).1 es).1,
      (step active r.opened e).2 ++ (steps active (step active r.opened e).1 es).2)
    unfold regate
    rw [Gate.releaseAll_append]

theorem finish_regate (active : List ActiveRule) (r : Run) :
    r.finish active = r.gate.pass (r.opened.finish active) := by
  rw [finish_eq (r := r.opened) rfl]
  unfold finish take
  rw [Call.eachRule_finish]
  dsimp only
  rw [List.filter_eq_self.mpr fun _ _ => rfl]
  rfl

end Run

namespace Linter

/-- The problems that come to the gate while a document is read, and those that come at its end. -/
def passing (l : Linter) (fs : Files) (text : String) (file : Option String) :
    List Problem × List Problem :=
  let read := Run.steps (l.rulesFor file) (l.startRun fs text file).opened (Element.ofDocument text)
  (read.2, read.1.finish (l.rulesFor file))

/-- A run yields what the gate makes of the problems that come to it. -/
theorem run_eq_passing (l : Linter) (fs : Files) (text : String) (file : Option String)
    (hread : l.run fs text file ≠ .skipped) :
    l.run fs text file =
      .finished (Gate.releaseAll (textFault? text) (l.passing fs text file).1).2
        ((Gate.releaseAll (textFault? text) (l.passing fs text file).1).1.pass
          (l.passing fs text file).2) := by
  have hgate : (l.startRun fs text file).gate = textFault? text := rfl
  rw [l.run_eq fs text file hread, Run.steps_regate, Run.finish_regate,
    Run.regate_opened _ (Run.steps_opened_gate _ _ _ rfl), hgate, Run.regate_gate,
    Run.regate_problems]
  unfold passing
  rfl

theorem problems_eq_passing (l : Linter) (fs : Files) (text : String) (file : Option String)
    (hread : l.run fs text file ≠ .skipped) :
    (l.run fs text file).problems =
      Gate.pass (textFault? text) ((l.passing fs text file).1 ++ (l.passing fs text file).2) := by
  rw [l.run_eq_passing fs text file hread]
  unfold Outcome.problems Gate.pass
  rw [Gate.releaseAll_append, List.append_assoc]

end Linter

end Blueprint

/-!
The fault of a text among the problems of a run: it is yielded once, whatever the rules report and
whatever directives switch off, and what comes before it stands before it. One problem at its own
place gives way to it.
-/

namespace Blueprint

/-- A problem that stands for a fault of a text: an error with a column, under a name of its own,
that no repair answers. -/
structure Problem.IsFault (p : Problem) : Prop where
  level : p.level = .error
  rule : p.rule = textRule
  column : ∃ c, p.column = some (c + 1)
  fixable : p.fixable = false
  repair : p.repair = none

theorem textFault?_isFault {text : String} {fault : Problem} (h : textFault? text = some fault) :
    fault.IsFault := by
  unfold textFault? at h
  split at h
  · cases h
    exact ⟨rfl, rfl, ⟨_, rfl⟩, rfl, rfl⟩
  · cases h

namespace Problem.IsFault

variable {fault p : Problem}

theorem isTextFault (h : fault.IsFault) : fault.isTextFault = true := by
  unfold Problem.isTextFault
  rw [h.rule, beq_self_eq_true]

/-- The column of a fault is there, so that no missing column stands for it. -/
theorem place_eq (h : fault.IsFault) :
    Gate.place p = Gate.place fault ↔ p.line = fault.line ∧ p.column = fault.column := by
  obtain ⟨c, hc⟩ := h.column
  cases hcolumn : p.column <;> simp [Gate.place, hc, hcolumn]

end Problem.IsFault

theorem Registry.builtin_name_ne_textRule {r : Rule} (hr : r ∈ builtin.rules) :
    r.name ≠ Problem.textRule := by
  have hnames : Problem.textRule ∉ builtin.rules.map (·.name) := by decide
  intro hname
  exact hnames (hname ▸ List.mem_map_of_mem hr)

namespace Linter

theorem reports_not_textFault {l : Linter} {fs : Files} {text : String} {file : Option String}
    (hnames : ∀ r ∈ l.registry.rules, r.name ≠ Problem.textRule) {p : Problem}
    (hp : p ∈ l.reports fs text file) : p.isTextFault = false := by
  obtain ⟨a, ha, hrule⟩ := reports_rule hp
  unfold Problem.isTextFault
  rw [hrule]
  exact beq_eq_false_iff_ne.mpr (hnames a.rule (mem_registry_of_mem_rulesFor ha))

/-- A run over a text with a fault yields that fault, as an error, whatever directives the text
holds. What it yields before the fault has an earlier place, and everything else that it yields is
reported by a rule; so the fault is the only one of its kind if no rule takes its name. -/
theorem run_places_fault (l : Linter) (fs : Files) (text : String) (file : Option String)
    (hread : l.run fs text file ≠ .skipped) {fault : Problem}
    (hfault : textFault? text = some fault) :
    fault.level = .error ∧ fault.isTextFault = true ∧
    ∃ earlier later : List Problem,
      (l.run fs text file).problems = earlier ++ fault :: later ∧
      (∀ p ∈ earlier, Gate.placeLt (Gate.place p) (Gate.place fault) = true) ∧
      (earlier ++ later).Subperm (l.reports fs text file) ∧
      ((∀ r ∈ l.registry.rules, r.name ≠ Problem.textRule) →
        (l.run fs text file).problems.filter (·.isTextFault) = [fault]) := by
  have hisFault := textFault?_isFault hfault
  obtain ⟨scanned, atEnd, judged, hrun, hperm, hyield⟩ := l.run_account fs text file hread
  obtain ⟨earlier, struck, later, hpassed, _, _, hearlier, hpass⟩ :=
    Gate.pass_some fault (judged.filter (!Run.withheldBy (l.directivesFor text file) ·))
  have hproblems : (l.run fs text file).problems = earlier ++ fault :: later := by
    rw [hrun]
    show scanned ++ atEnd = _
    rw [hyield, hfault, hpass]
  have hsub : (earlier ++ later).Subperm (l.reports fs text file) := by
    have hothers : (earlier ++ later).Sublist (earlier ++ struck ++ later) :=
      (List.sublist_append_left earlier struck).append_right later
    rw [← hpassed] at hothers
    exact (hothers.trans List.filter_sublist).subperm.trans hperm.subperm
  refine ⟨hisFault.level, hisFault.isTextFault, earlier, later, hproblems, hearlier, hsub, ?_⟩
  intro hnames
  have hnone {ps : List Problem} (h : ∀ p ∈ ps, p ∈ earlier ++ later) :
      ps.filter (·.isTextFault) = [] := by
    rw [List.filter_eq_nil_iff]
    intro p hp
    rw [reports_not_textFault hnames (hsub.subset (h p hp))]
    exact Bool.false_ne_true
  rw [hproblems, List.filter_append, List.filter_cons_of_pos hisFault.isTextFault,
    hnone fun p hp => List.mem_append_left _ hp, hnone fun p hp => List.mem_append_right _ hp]
  rfl

/-- Every rule is off on the line of this fault. -/
theorem run_places_fault_despite_disable :
    let l := ofRule Rules.truthy
    let text := "a: Yes\n# yamllint disable\nb: No\nc: ]\n"
    ∃ fault earlier later,
      textFault? text = some fault ∧ Gate.place fault = (4, 4) ∧ fault.level = .error ∧
      (l.run Files.empty text none).problems = earlier ++ fault :: later ∧
      (l.run Files.empty text none).problems.filter (·.isTextFault) = [fault] := by
  intro l text
  have hsome : (textFault? text).isSome = true := by decide +kernel
  obtain ⟨fault, hfault⟩ := Option.isSome_iff_exists.mp hsome
  obtain ⟨hlevel, _, earlier, later, hproblems, _, _, honce⟩ :=
    run_places_fault l Files.empty text none (run_ne_skipped (by decide +kernel) Files.empty) hfault
  refine ⟨fault, earlier, later, hfault, ?_, hlevel, hproblems, honce (by decide)⟩
  have hplace : (textFault? text).map Gate.place = some (4, 4) := by decide +kernel
  rw [hfault] at hplace
  exact Option.some.inj hplace

/-- No problem of a run shares the line and the column of the fault, if and only if, of the problems
that come to the gate, none does behind the first that does not stand before the fault. -/
theorem run_clears_fault_place (l : Linter) (fs : Files) (text : String) (file : Option String)
    (hread : l.run fs text file ≠ .skipped) {fault : Problem}
    (hfault : textFault? text = some fault) :
    ∃ earlier later : List Problem,
      (l.run fs text file).problems = earlier ++ fault :: later ∧
      ((∀ p ∈ earlier ++ later, ¬(p.line = fault.line ∧ p.column = fault.column)) ↔
        ∀ p ∈ (Gate.late fault
            ((l.passing fs text file).1 ++ (l.passing fs text file).2)).tail,
          ¬(p.line = fault.line ∧ p.column = fault.column)) := by
  obtain ⟨earlier, later, hpass, hapart⟩ :=
    Gate.pass_some_apart fault ((l.passing fs text file).1 ++ (l.passing fs text file).2)
  refine ⟨earlier, later, ?_, ?_⟩
  · rw [l.problems_eq_passing fs text file hread, hfault]
    exact hpass
  · simpa only [ne_eq, (textFault?_isFault hfault).place_eq] using hapart

/-- A comma stands at the place of this fault. -/
theorem run_clears_fault_place_of_comma :
    let l := ofRule Rules.commas
    let text := "[a,\x7d"
    ∃ fault earlier later, textFault? text = some fault ∧
      ((l.passing Files.empty text none).1 ++ (l.passing Files.empty text none).2).map
        (fun p => (p.line, p.column)) = [(fault.line, fault.column)] ∧
      (l.run Files.empty text none).problems = earlier ++ fault :: later ∧
      ∀ p ∈ earlier ++ later, ¬(p.line = fault.line ∧ p.column = fault.column) := by
  intro l text
  have hsome : (textFault? text).isSome = true := by decide +kernel
  obtain ⟨fault, hfault⟩ := Option.isSome_iff_exists.mp hsome
  obtain ⟨earlier, later, hproblems, hapart⟩ :=
    run_clears_fault_place l Files.empty text none (run_ne_skipped (by decide +kernel) Files.empty)
      hfault
  have hplaces : (textFault? text).map (fun f => [(f.line, f.column)]) =
      some (((l.passing Files.empty text none).1 ++ (l.passing Files.empty text none).2).map
        fun p => (p.line, p.column)) := by decide +kernel
  rw [hfault] at hplaces
  have hone := (Option.some.inj hplaces).symm
  refine ⟨fault, earlier, later, hfault, hone, hproblems, hapart.mpr ?_⟩
  have hlength : ((l.passing Files.empty text none).1 ++
      (l.passing Files.empty text none).2).length = 1 := by
    simpa using congrArg List.length hone
  intro p hp
  have hshort : (Gate.late fault ((l.passing Files.empty text none).1 ++
      (l.passing Files.empty text none).2)).length ≤ 1 :=
    hlength ▸ (List.dropWhile_sublist _).length_le
  have hnone : (Gate.late fault ((l.passing Files.empty text none).1 ++
      (l.passing Files.empty text none).2)).tail = [] :=
    List.eq_nil_of_length_eq_zero (by rw [List.length_tail]; omega)
  rw [hnone] at hp
  cases hp

/-- Two rules report at the place of this fault, and only the first gives way to it. -/
theorem run_keeps_second_at_fault_place :
    let l : Linter := ⟨⟨[Rules.commas, Rules.indentation]⟩,
      [(Rules.commas.name, Rules.commas.defaults),
        (Rules.indentation.name, Rules.indentation.defaults)], [], []⟩
    let text := "[\n,"
    (textFault? text).map (fun f => (f.line, f.column)) = some (2, some 1) ∧
      (l.run Files.empty text none).problems.map (fun p => (p.rule, p.line, p.column)) =
        [(Problem.textRule, 2, some 1), (Rules.indentation.name, 2, some 1)] := by
  decide +kernel

end Linter

end Blueprint
