import Blueprint.Lint.Rules.Values
import Blueprint.Proofs.Accounting

/-!
A whole run loses no problem and repeats none. What it yields are the problems that its calls report,
without those that directives withhold, and the fault of the text in its place.
-/

namespace Blueprint

/-- The tree of a text, if it has one. -/
def textRoot? (text : String) : Option Node :=
  (Node.compose (Source.ofText text) text.toList).toOption.join

theorem textRoot?_eq_some {text : String} {root : Node} : textRoot? text = some root ↔
    Node.compose (Source.ofText text) text.toList = .ok (some root) := by
  unfold textRoot?
  cases Node.compose (Source.ofText text) text.toList with
  | error e => exact ⟨nofun, nofun⟩
  | ok found => exact ⟨congrArg Except.ok, Except.ok.inj⟩

/-- The elements of a text in the order in which a run meets them. -/
def Element.ofDocument (text : String) : List Element :=
  ofText (Source.ofText text) text.toList (textRoot? text)

namespace Linter

/-- The names of the rules that directives can switch off. -/
def namesFor (l : Linter) (file : Option String) : List String :=
  (l.rulesFor file).map (·.rule.name)

/-- The state before the first element. -/
def startRun (l : Linter) (fs : Files) (text : String) (file : Option String) : Run where
  file
  session :=
    let session : Session := { file, quiet := l.quiet, files := fs }
    ((textRoot? text).map session.index).getD session
  directives := { rules := l.namesFor file }
  gate := textFault? text

/-- The calls of a run over a text. -/
def calls (l : Linter) (text : String) (file : Option String) : List Call :=
  Call.schedule (l.rulesFor file) (Element.ofDocument text)

/-- The problems that these calls report. -/
def reports (l : Linter) (fs : Files) (text : String) (file : Option String) : List Problem :=
  (Call.makeAll file (l.startRun fs text file).session (l.calls text file)).1

/-- The directives of a text, once all of it has been read. -/
def directivesFor (l : Linter) (text : String) (file : Option String) : Directives :=
  ({ rules := l.namesFor file } : Directives).followAll (Element.ofDocument text)

/-- A linter of one rule with the defaults of its options. -/
def ofRule (r : Rule) : Linter where
  registry := ⟨[r]⟩
  confs := [(r.name, r.defaults)]
  ignore := []

end Linter

theorem Element.ofDocument_lines (text : String) :
    ((ofDocument text).filterMap line?).map (·.number) =
      List.range' 1 (text.toList.count '\n' + 1) := by
  unfold ofDocument
  rw [ofText_lines]
  exact lines_numbers text.toList

namespace Run

theorem finish_accounts (active : List ActiveRule) (r : Run) :
    ∃ judged : List Problem, judged.Perm
        (r.waiting ++ (Call.makeAll r.file r.session (active.map .finish)).1) ∧
      r.finish active = r.gate.pass (judged.filter (!withheldBy r.directives ·)) := by
  refine ⟨(take (fun _ => true)
    (r.waiting ++ (Call.makeAll r.file r.session (active.map .finish)).1)).1, ?_, ?_⟩
  · have hperm := take_perm (fun _ => true)
      (r.waiting ++ (Call.makeAll r.file r.session (active.map .finish)).1)
    have hnone : (take (fun _ => true)
        (r.waiting ++ (Call.makeAll r.file r.session (active.map .finish)).1)).2 = [] := by
      simp [take]
    rw [hnone, List.append_nil] at hperm
    exact hperm
  · unfold finish
    rw [Call.eachRule_finish]
    rfl

/-- From any state on, the problems that wait and those that the calls report are judged once. -/
theorem account (active : List ActiveRule) {r : Run} {es : List Element} {n k : Nat}
    (hlines : (es.filterMap Element.line?).map (·.number) = List.range' (n + 1) k)
    (hended : r.directives.EndedBy n) :
    ∃ judged : List Problem, judged.Perm
        (r.waiting ++ (Call.makeAll r.file r.session (Call.schedule active es)).1) ∧
      (steps active r es).2 ++ (steps active r es).1.finish active =
        r.gate.pass (judged.filter (!withheldBy (r.directives.followAll es) ·)) := by
  obtain ⟨hfile, hsession, hdirectives⟩ := steps_state active r es
  obtain ⟨judged, hperm, hgate⟩ := steps_accounts active hlines hended
  obtain ⟨last, hlast, hfinish⟩ := finish_accounts active (steps active r es).1
  rw [hfile, hsession] at hlast
  rw [hdirectives] at hfinish
  refine ⟨judged ++ last, ?_, ?_⟩
  · unfold Call.schedule
    rw [Call.makeAll_append, ← List.append_assoc]
    have hmoved := hlast.append_left judged
    rw [← List.append_assoc] at hmoved
    exact hmoved.trans (hperm.append_right _)
  · rw [hfinish]
    unfold Gate.pass
    rw [List.filter_append, Gate.releaseAll_append, hgate, List.append_assoc]

end Run

namespace Linter

theorem run_eq (l : Linter) (fs : Files) (text : String) (file : Option String)
    (hread : l.run fs text file ≠ .skipped) :
    l.run fs text file =
      .finished (Run.steps (l.rulesFor file) (l.startRun fs text file) (Element.ofDocument text)).2
        ((Run.steps (l.rulesFor file) (l.startRun fs text file) (Element.ofDocument text)).1.finish
          (l.rulesFor file)) := by
  unfold run at hread ⊢
  dsimp only at hread ⊢
  split
  next hskip => exact absurd (if_pos hskip) hread
  · rfl

theorem run_ne_skipped {l : Linter} {text : String} {file : Option String}
    (h : (file.any l.ignores || Directive.coversFile (firstLine text.toList)) = false)
    (fs : Files) : l.run fs text file ≠ .skipped := by
  unfold run
  dsimp only
  rw [h, if_neg Bool.false_ne_true]
  intro hskip
  cases hskip

theorem rulesFor_sublist (l : Linter) (file : Option String) :
    ((l.rulesFor file).map (·.rule)).Sublist l.registry.rules := by
  unfold rulesFor
  induction l.registry.rules with
  | nil => exact List.Sublist.slnil
  | cons r rs ih =>
    rw [List.filterMap_cons]
    split
    · exact ih.cons r
    next a ha =>
      obtain ⟨conf, _, rfl⟩ := Option.map_eq_some_iff.mp ha
      exact ih.cons_cons r

/-- A rule for a file is one of the registry. -/
theorem mem_registry_of_mem_rulesFor {l : Linter} {file : Option String} {a : ActiveRule}
    (ha : a ∈ l.rulesFor file) : a.rule ∈ l.registry.rules :=
  (l.rulesFor_sublist file).subset (List.mem_map_of_mem ha)

/-- A report carries the name of one of the rules for the file. -/
theorem reports_rule {l : Linter} {fs : Files} {text : String} {file : Option String} {p : Problem}
    (hp : p ∈ l.reports fs text file) : ∃ a ∈ l.rulesFor file, p.rule = a.rule.name := by
  obtain ⟨a, ha, q, s, rfl, _⟩ := Call.mem_schedule hp
  exact ⟨a, ha, rfl⟩

theorem run_account (l : Linter) (fs : Files) (text : String) (file : Option String)
    (hread : l.run fs text file ≠ .skipped) :
    ∃ scanned atEnd judged : List Problem, l.run fs text file = .finished scanned atEnd ∧
      judged.Perm (l.reports fs text file) ∧
      scanned ++ atEnd = Gate.pass (textFault? text)
        (judged.filter (!Run.withheldBy (l.directivesFor text file) ·)) := by
  have hended : (l.startRun fs text file).directives.EndedBy 0 := by
    intro entry h
    cases h
  obtain ⟨judged, hperm, hyield⟩ :=
    Run.account (l.rulesFor file) (Element.ofDocument_lines text) hended
  have hwait : (l.startRun fs text file).waiting = [] := rfl
  have hfile : (l.startRun fs text file).file = file := rfl
  rw [hwait, hfile, List.nil_append] at hperm
  exact ⟨_, _, judged, l.run_eq fs text file hread, hperm, hyield⟩

/-- What a run yields is reported by a rule, or is the fault of the text. -/
theorem mem_problems {l : Linter} {fs : Files} {text : String} {file : Option String} {p : Problem}
    (hp : p ∈ (l.run fs text file).problems) :
    p ∈ l.reports fs text file ∨ textFault? text = some p := by
  by_cases hread : l.run fs text file = .skipped
  · rw [hread] at hp
    cases hp
  · obtain ⟨scanned, atEnd, judged, hrun, hperm, hyield⟩ := l.run_account fs text file hread
    rw [hrun] at hp
    have hpass : p ∈ Gate.pass (textFault? text)
        (judged.filter (!Run.withheldBy (l.directivesFor text file) ·)) := hyield ▸ hp
    exact (Gate.mem_pass hpass).imp_left fun hp => hperm.mem_iff.mp (List.mem_of_mem_filter hp)

/-- The rules see the elements in the order of the registry. Every problem that a call reports is
yielded once, unless directives withhold it or it gives way to the fault of the text at its own
place; beyond them only that fault is yielded. -/
theorem run_yields_reports (l : Linter) (fs : Files) (text : String) (file : Option String)
    (hread : l.run fs text file ≠ .skipped) :
    ((l.rulesFor file).map (·.rule)).Sublist l.registry.rules ∧
    ∃ scanned atEnd passed : List Problem, l.run fs text file = .finished scanned atEnd ∧
      passed.Perm ((l.reports fs text file).filter
        fun p => !(l.directivesFor text file).wasOff p.line p.rule) ∧
      match textFault? text with
      | none => scanned ++ atEnd = passed
      | some fault => ∃ earlier struck later, passed = earlier ++ struck ++ later ∧
          struck.length ≤ 1 ∧ (∀ p ∈ struck, Gate.place p = Gate.place fault) ∧
          (∀ p ∈ earlier, Gate.placeLt (Gate.place p) (Gate.place fault) = true) ∧
          scanned ++ atEnd = earlier ++ fault :: later := by
  obtain ⟨scanned, atEnd, judged, hrun, hperm, hyield⟩ := l.run_account fs text file hread
  refine ⟨l.rulesFor_sublist file, scanned, atEnd, _, hrun, hperm.filter _, ?_⟩
  cases hfault : textFault? text with
  | none =>
    rw [hfault] at hyield
    exact hyield.trans (Gate.pass_none _)
  | some fault =>
    rw [hfault] at hyield
    obtain ⟨earlier, struck, later, hpassed, hlength, hstruck, hearlier, hpass⟩ :=
      Gate.pass_some fault (judged.filter (!Run.withheldBy (l.directivesFor text file) ·))
    exact ⟨earlier, struck, later, hpassed, hlength, hstruck, hearlier, hyield.trans hpass⟩

/-- A text with a fault: its problems are accounted for beside the fault. -/
theorem run_yields_reports_of_fault :
    let l := ofRule Rules.truthy
    let text := "a: Yes # yamllint disable-line\nb: No\nc: ]\n"
    (textFault? text).map Gate.place = some (3, 4) ∧
      (l.reports Files.empty text none).map (·.line) = [1, 2] ∧
      ∃ scanned atEnd passed : List Problem, l.run Files.empty text none = .finished scanned atEnd ∧
        passed.Perm ((l.reports Files.empty text none).filter
          fun p => !(l.directivesFor text none).wasOff p.line p.rule) := by
  obtain ⟨_, scanned, atEnd, passed, hrun, hperm, _⟩ :=
    run_yields_reports (ofRule Rules.truthy) Files.empty
      "a: Yes # yamllint disable-line\nb: No\nc: ]\n" none
      (run_ne_skipped (by decide +kernel) Files.empty)
  exact ⟨by decide +kernel, by decide +kernel, scanned, atEnd, passed, hrun, hperm⟩

end Linter

end Blueprint
