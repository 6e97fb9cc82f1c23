import Blueprint.Lint.Registry
import Blueprint.Lint.Run
import Blueprint.Proofs.RepairRun

/-!
How a run of repairs judges its problems. Each repair that is tried judges its problem and those after
it that share it, so the problems of a rule on a line may be judged apart if other problems stand
between them.
-/

namespace Blueprint

namespace Fix

/-- A repair that a run tries: its problem, the lines on which it is tried, and the problems after it
that share it. -/
structure Trial where
  problem : Problem
  draft : Draft
  sharing : List Problem

namespace Trial

/-- The problems that the repair judges. -/
def problems (t : Trial) : List Problem :=
  t.problem :: t.sharing

/-- Whether the repair changes the lines. -/
def changes (t : Trial) : Bool :=
  (t.draft.change? t.problem).join.isSome

end Trial

/-- The problems at the start of a list that share the repair of a problem. -/
def sharing (p : Problem) (ps : List Problem) : List Problem :=
  ps.takeWhile (repeats (some p))

/-- The repairs that a run tries, up to the first one that is impossible. -/
def trials (previous : Option Problem) (d : Draft) : List Problem → List Trial
  | [] => []
  | p :: r =>
    if repeats previous p then trials (some p) d r
    else
      match d.repair? p with
      | none => []
      | some d' => ⟨p, d, sharing p r⟩ :: trials (some p) d' r

/-- The repairs that are tried on a file. -/
def fileTrials (fs : Files) (selection : Selection) (path : String) (problems : List Problem) :
    List Trial :=
  match fs.read? path with
  | none => []
  | some text => trials none (.ofText text) (selected selection problems)

variable {path : String} {previous : Option Problem} {s : State} {d : Draft} {ps : List Problem}

theorem repeats_some {p q : Problem} :
    repeats (some p) q = true ↔ p.line = q.line ∧ p.rule = q.rule ∧ q.repair = none :=
  decide_eq_true_iff

/-- Problems share the repair of a problem that shares a repair if they share the latter. -/
theorem repeats_of_repeats {p : Problem} (h : repeats previous p = true) :
    repeats previous = repeats (some p) := by
  obtain ⟨q, rfl, hq⟩ := Option.any_eq_true _ _ |>.mp h
  obtain ⟨hline, hrule, _⟩ := of_decide_eq_true hq
  funext x
  unfold repeats
  rw [Option.any_some, Option.any_some, hline, hrule]

theorem trials_of_repeats {p : Problem} (h : repeats previous p = true) (d : Draft)
    (r : List Problem) : trials previous d (p :: r) = trials (some p) d r := by
  rw [trials, if_pos h]

theorem trials_of_change {p : Problem} (h : repeats previous p = false) {d' : Draft}
    (hrepair : d.repair? p = some d') (r : List Problem) :
    trials previous d (p :: r) = ⟨p, d, sharing p r⟩ :: trials (some p) d' r := by
  rw [trials, if_neg (Bool.eq_false_iff.mp h), hrepair]

theorem trials_of_no_change {p : Problem} (h : repeats previous p = false)
    (hrepair : d.repair? p = none) (r : List Problem) : trials previous d (p :: r) = [] := by
  rw [trials, if_neg (Bool.eq_false_iff.mp h), hrepair]

theorem trials_sublist_leading (previous : Option Problem) (d : Draft) (ps : List Problem) :
    ((trials previous d ps).map (·.problem)).Sublist (leading previous ps) := by
  induction ps generalizing previous d with
  | nil => exact List.Sublist.refl _
  | cons p r ih =>
    rw [trials, leading]
    split
    · exact ih _ d
    · split
      · exact List.nil_sublist _
      · exact (ih _ _).cons_cons p

theorem place_of_mem_problems {t : Trial} (ht : t ∈ trials previous d ps) {p : Problem}
    (hp : p ∈ t.problems) :
    p ∈ ps ∧ p.line = t.problem.line ∧ p.rule = t.problem.rule ∧
      (p = t.problem ∨ p.repair = none) := by
  induction ps generalizing previous d with
  | nil => cases ht
  | cons q r ih =>
    have hlater {previous : Option Problem} {d : Draft} (ht : t ∈ trials previous d r) :=
      And.imp_left (List.mem_cons_of_mem q) (ih ht)
    rw [trials] at ht
    split at ht
    · exact hlater ht
    · split at ht
      · cases ht
      · rcases List.mem_cons.mp ht with rfl | ht
        · rcases List.mem_cons.mp hp with rfl | hp
          · exact ⟨List.mem_cons_self, rfl, rfl, Or.inl rfl⟩
          · obtain ⟨hline, hrule, hrepair⟩ := repeats_some.mp
              (List.all_eq_true.mp List.all_takeWhile p hp)
            exact ⟨List.mem_cons_of_mem _ ((List.takeWhile_sublist _).subset hp), hline.symm,
              hrule.symm, Or.inr hrepair⟩
        · exact hlater ht

/-- The problems that the trials with one outcome judge. -/
def judged (outcome : Bool) (ts : List Trial) : List Problem :=
  (ts.filter (·.changes == outcome)).flatMap Trial.problems

theorem judged_cons (outcome : Bool) (t : Trial) (ts : List Trial) :
    judged outcome (t :: ts) =
      (if t.changes == outcome then t.problems else []) ++ judged outcome ts := by
  unfold judged
  rw [List.filter_cons]
  split
  · rw [List.flatMap_cons]
  · rw [List.nil_append]

theorem mem_judged {outcome : Bool} {ts : List Trial} {p : Problem} :
    p ∈ judged outcome ts ↔ ∃ t ∈ ts, t.changes = outcome ∧ p ∈ t.problems := by
  unfold judged
  simp only [List.mem_flatMap, List.mem_filter, beq_iff_eq, and_assoc]

end Fix

/-- The problems of a summary whose repair had one outcome. -/
def FixSummary.withOutcome (r : FixSummary) (changed : Bool) : List Problem :=
  if changed then r.fixed else r.unchanged

theorem FixSummary.add_withOutcome (r : FixSummary) (p : Problem) (changed outcome : Bool) :
    (r.add p changed).withOutcome outcome =
      r.withOutcome outcome ++ if changed == outcome then [p] else [] := by
  cases changed <;> cases outcome <;> simp [add, withOutcome]

namespace Fix

/-- A summary holds the problems of the trials by their outcomes; those that come first may share a
trial before them. -/
theorem steps_withOutcome (h : s.Follows path previous) (ps : List Problem) (outcome : Bool) :
    (steps path s ps).1.report.withOutcome outcome = s.report.withOutcome outcome ++
      (if s.last.any (·.changed) == outcome then ps.takeWhile (repeats previous) else []) ++
        judged outcome (trials previous s.draft ps) := by
  induction ps generalizing previous s with
  | nil => simp [steps, trials, judged]
  | cons p r ih =>
    cases hp : repeats previous p with
    | true =>
      obtain ⟨s', changed, hstep, hfollows, hdraft, _, hreport, hlast, hchanged⟩ :=
        step_of_repeats h hp
      rw [steps, hstep, trials_of_repeats hp, List.takeWhile_cons_of_pos hp, repeats_of_repeats hp]
      dsimp only
      rw [ih hfollows, hreport, hdraft, hlast, hchanged, FixSummary.add_withOutcome]
      cases changed == outcome <;> simp
    | false =>
      rw [List.takeWhile_cons_of_neg (Bool.eq_false_iff.mp hp), ite_self, List.append_nil]
      cases hchange : s.draft.change? p with
      | none =>
        have hrepair : s.draft.repair? p = none := by rw [Draft.repair?, hchange, Option.map_none]
        rw [steps, step_of_no_change h hp hchange, trials_of_no_change hp hrepair]
        exact (List.append_nil _).symm
      | some change =>
        obtain ⟨s', hstep, hfollows, hrepair, _, hreport, hlast⟩ := step_of_change h hp hchange
        have houtcome : Trial.changes ⟨p, s.draft, sharing p r⟩ = change.isSome := by
          rw [Trial.changes, hchange, Option.join_some]
        rw [steps, hstep, trials_of_change hp hrepair, judged_cons, houtcome]
        dsimp only
        rw [ih hfollows, hreport, hlast, FixSummary.add_withOutcome]
        cases change.isSome == outcome <;> simp [Trial.problems, sharing]

variable {fs fs' : Files} {selection : Selection} {problems : List Problem} {report : FixSummary}

theorem fileTrials_sublist_leading (fs : Files) (selection : Selection) (path : String)
    (problems : List Problem) :
    ((fileTrials fs selection path problems).map (·.problem)).Sublist
      (leading none (selected selection problems)) := by
  unfold fileTrials
  split
  · exact List.nil_sublist _
  · exact trials_sublist_leading _ _ _

theorem mem_selected {p : Problem} :
    p ∈ selected selection problems ↔ p ∈ problems ∧ selection.selects p = true :=
  (sortBy_perm _ _).mem_iff.trans List.mem_filter

theorem place_of_mem_fileTrials {t : Trial} (ht : t ∈ fileTrials fs selection path problems)
    {p : Problem} (hp : p ∈ t.problems) :
    (p ∈ problems ∧ selection.selects p = true) ∧ p.line = t.problem.line ∧
      p.rule = t.problem.rule ∧ (p = t.problem ∨ p.repair = none) := by
  unfold fileTrials at ht
  split at ht
  · cases ht
  · exact And.imp_left mem_selected.mp (place_of_mem_problems ht hp)

/-- A summary holds every selected problem, by the outcome of the trial that judges it. -/
theorem repairFile_summary (hrun : repairFile fs selection path problems = (fs', .ok report)) :
    (∀ outcome, report.withOutcome outcome =
      judged outcome (fileTrials fs selection path problems)) ∧
      (report.fixed ++ report.unchanged).Perm (problems.filter selection.selects) := by
  unfold fileTrials
  cases hread : fs.read? path with
  | none =>
    unfold repairFile at hrun
    dsimp only at hrun
    split at hrun
    next hempty =>
      cases hrun
      have hnone : (selected selection problems).Perm (problems.filter selection.selects) :=
        sortBy_perm _ _
      rw [List.isEmpty_iff.mp hempty] at hnone
      exact ⟨fun outcome => by cases outcome <;> rfl, hnone⟩
    · split at hrun
      · cases hrun
      · rw [hread] at hrun
        cases hrun
  | some text =>
    obtain ⟨_, _, _, _, _, _, _, hresult⟩ := repairFile_applies hread selection problems
    rw [hrun] at hresult
    refine ⟨fun outcome => ?_, hresult.2⟩
    rw [repairFile_eq hread] at hrun
    obtain ⟨_, hreport⟩ := Prod.mk.inj hrun
    split at hreport
    · cases hreport
    · cases hreport
      have hfirst : (selected selection problems).takeWhile (repeats none) = [] := by
        cases selected selection problems <;> rfl
      have hstart : State.Follows path none { files := fs, lines := .ofChars text.toList } :=
        ⟨hread.trans (congrArg some (Draft.ofText_text text).symm), rfl⟩
      unfold fileRun
      rw [steps_withOutcome hstart, hfirst, ite_self, List.append_nil]
      cases outcome <;> rfl

/-- Whether the repair of a problem of this rule on this line needs nothing but its place. -/
def IsBareAt (line : Nat) (rule : String) (p : Problem) : Prop :=
  p.line = line ∧ p.rule = rule ∧ p.repair = none

/-- Of the selected problems of a rule on a line, those that need nothing but their place are all
fixed, or all unchanged. -/
def JudgesAlike (selection : Selection) (problems : List Problem) (report : FixSummary) (line : Nat)
    (rule : String) : Prop :=
  (∀ p ∈ problems, selection.selects p = true → IsBareAt line rule p →
    p ∈ report.fixed ∧ p ∉ report.unchanged) ∨
  (∀ p ∈ problems, selection.selects p = true → IsBareAt line rule p →
    p ∈ report.unchanged ∧ p ∉ report.fixed)

/-- The trials that judge such problems. -/
def Trial.JudgesAt (line : Nat) (rule : String) (t : Trial) : Prop :=
  ∃ p ∈ t.problems, IsBareAt line rule p

theorem judgesAlike_iff (hrun : repairFile fs selection path problems = (fs', .ok report))
    (line : Nat) (rule : String) :
    JudgesAlike selection problems report line rule ↔
      ∀ t ∈ fileTrials fs selection path problems, t.JudgesAt line rule →
        ∀ u ∈ fileTrials fs selection path problems, u.JudgesAt line rule →
          t.changes = u.changes := by
  obtain ⟨hsummary, hperm⟩ := repairFile_summary hrun
  have hfixed {p : Problem} : p ∈ report.fixed ↔
      ∃ t ∈ fileTrials fs selection path problems, t.changes = true ∧ p ∈ t.problems := by
    rw [← mem_judged, ← hsummary]
    rfl
  have hunchanged {p : Problem} : p ∈ report.unchanged ↔
      ∃ t ∈ fileTrials fs selection path problems, t.changes = false ∧ p ∈ t.problems := by
    rw [← mem_judged, ← hsummary]
    rfl
  constructor
  · intro halike t ht ⟨p, hp, hpbare⟩ u hu ⟨q, hq, hqbare⟩
    obtain ⟨⟨hpmem, hpselects⟩, _⟩ := place_of_mem_fileTrials ht hp
    obtain ⟨⟨hqmem, hqselects⟩, _⟩ := place_of_mem_fileTrials hu hq
    rcases halike with hall | hall
    · have houtcome {t : Trial} (ht : t ∈ fileTrials fs selection path problems) {p : Problem}
          (hp : p ∈ t.problems) (hnot : p ∉ report.unchanged) : t.changes = true :=
        Bool.of_not_eq_false fun h => hnot (hunchanged.mpr ⟨t, ht, h, hp⟩)
      rw [houtcome ht hp (hall p hpmem hpselects hpbare).2,
        houtcome hu hq (hall q hqmem hqselects hqbare).2]
    · have houtcome {t : Trial} (ht : t ∈ fileTrials fs selection path problems) {p : Problem}
          (hp : p ∈ t.problems) (hnot : p ∉ report.fixed) : t.changes = false :=
        Bool.eq_false_iff.mpr fun h => hnot (hfixed.mpr ⟨t, ht, h, hp⟩)
      rw [houtcome ht hp (hall p hpmem hpselects hpbare).2,
        houtcome hu hq (hall q hqmem hqselects hqbare).2]
  · intro hagree
    have hjudged {p : Problem} (hp : p ∈ problems) (hselects : selection.selects p = true) :
        p ∈ report.fixed ∨ p ∈ report.unchanged :=
      List.mem_append.mp (hperm.mem_iff.mpr (List.mem_filter.mpr ⟨hp, hselects⟩))
    by_cases hany : ∃ p ∈ report.fixed, IsBareAt line rule p
    · obtain ⟨q, hq, hqbare⟩ := hany
      obtain ⟨t, ht, hchanges, hqt⟩ := hfixed.mp hq
      have hnot {p : Problem} (hbare : IsBareAt line rule p) : p ∉ report.unchanged := by
        intro hp
        obtain ⟨u, hu, hstill, hpu⟩ := hunchanged.mp hp
        have heq := hagree t ht ⟨q, hqt, hqbare⟩ u hu ⟨p, hpu, hbare⟩
        rw [hchanges, hstill] at heq
        cases heq
      exact Or.inl fun p hp hselects hbare =>
        ⟨(hjudged hp hselects).resolve_right (hnot hbare), hnot hbare⟩
    · have hnot {p : Problem} (hbare : IsBareAt line rule p) : p ∉ report.fixed :=
        fun hp => hany ⟨p, hp, hbare⟩
      exact Or.inr fun p hp hselects hbare =>
        ⟨(hjudged hp hselects).resolve_left (hnot hbare), hnot hbare⟩

/-- The problems of a rule on a line that need nothing but their place are judged alike exactly when
the repairs that are tried for them have one outcome. So they are if only one is tried, that is, if
each of them but the first comes directly after one of the same rule and line. -/
theorem repairFile_judgesAlike (hrun : repairFile fs selection path problems = (fs', .ok report))
    (line : Nat) (rule : String) :
    (JudgesAlike selection problems report line rule ↔
      ∀ t ∈ fileTrials fs selection path problems, t.JudgesAt line rule →
        ∀ u ∈ fileTrials fs selection path problems, u.JudgesAt line rule →
          t.changes = u.changes) ∧
      (((leading none (selected selection problems)).filter
          fun p => p.line = line ∧ p.rule = rule).length ≤ 1 →
        JudgesAlike selection problems report line rule) := by
  have hiff := judgesAlike_iff hrun line rule
  refine ⟨hiff, fun honce => hiff.mpr ?_⟩
  let here : List Trial := (fileTrials fs selection path problems).filter
    fun t => t.problem.line = line ∧ t.problem.rule = rule
  have hlength : here.length ≤ 1 := by
    have hsub := (fileTrials_sublist_leading fs selection path problems).filter
      fun p => decide (p.line = line ∧ p.rule = rule)
    rw [List.filter_map] at hsub
    have hle := hsub.length_le
    rw [List.length_map] at hle
    exact Nat.le_trans hle honce
  have hhere {t : Trial} (ht : t ∈ fileTrials fs selection path problems)
      (hat : t.JudgesAt line rule) : t ∈ here := by
    obtain ⟨p, hp, hline, hrule, _⟩ := hat
    obtain ⟨_, hsameLine, hsameRule, _⟩ := place_of_mem_fileTrials ht hp
    refine List.mem_filter.mpr ⟨ht, decide_eq_true ⟨?_, ?_⟩⟩
    · rw [← hsameLine, hline]
    · rw [← hsameRule, hrule]
  intro t ht htat u hu huat
  have hone : ∃ v, here = [v] := by
    have hpos := List.length_pos_of_mem (hhere ht htat)
    exact List.length_eq_one_iff.mp (by omega)
  obtain ⟨v, hv⟩ := hone
  have htv := hhere ht htat
  have huv := hhere hu huat
  rw [hv] at htv huv
  rw [List.mem_singleton.mp htv, List.mem_singleton.mp huv]

/-- The faults about commas come one after the other, and one repair judges them all. -/
theorem repairFile_judgesAlike_of_commas :
    let text := "a: [1 ,2 ,3]  \n"
    let fs := Files.empty.create "b.yaml" (.text text)
    let l : Linter :=
      { registry := .builtin
        confs := [("commas", Rules.commas.defaults), ("trailing-spaces", Rules.trailingSpaces.defaults)]
        ignore := [] }
    let problems := (l.run fs text (some "b.yaml")).problems
    problems.map (·.rule) = ["commas", "commas", "commas", "commas", "trailing-spaces"] ∧
      ∃ fs' report, repairFile fs .all "b.yaml" problems = (fs', .ok report) ∧
        ((leading none (selected .all problems)).filter
          fun p => p.line = 1 ∧ p.rule = "commas").length ≤ 1 ∧
        JudgesAlike .all problems report 1 "commas" := by
  intro text fs l problems
  have hsuccess : (repairFile fs .all "b.yaml" problems).2.isOk = true := by decide +kernel
  have honce : ((leading none (selected .all problems)).filter
      fun p => p.line = 1 ∧ p.rule = "commas").length ≤ 1 := by decide +kernel
  refine ⟨by decide +kernel, ?_⟩
  cases hrun : repairFile fs .all "b.yaml" problems with
  | mk fs' result =>
    rw [hrun] at hsuccess
    cases result with
    | error e => cases hsuccess
    | ok report => exact ⟨fs', report, rfl, honce, (repairFile_judgesAlike hrun 1 "commas").2 honce⟩

/-- Between two booleans on a line stands a comma with a space before it. The repair of the first one
changes both, so the second one finds nothing to do. -/
theorem repairFile_judges_apart :
    let text := "- [True , False]\n"
    let fs := Files.empty.create "b.yaml" (.text text)
    let l : Linter :=
      { registry := .builtin
        confs := [("truthy", Rules.truthy.defaults), ("commas", Rules.commas.defaults)]
        ignore := [] }
    let result := repairFile fs .all "b.yaml" (l.run fs text (some "b.yaml")).problems
    let places (ps : List Problem) : List (String × Nat × Option Nat) :=
      ps.map fun p => (p.rule, p.line, p.column)
    (∀ p ∈ (l.run fs text (some "b.yaml")).problems, Selection.all.selects p = true ∧ p.repair = none) ∧
      (match result.2 with
        | .ok report => some (places report.fixed, places report.unchanged)
        | .error _ => none) =
        some ([("truthy", 1, some 4), ("commas", 1, some 8)], [("truthy", 1, some 11)]) ∧
      result.1.read? "b.yaml" = some "- [true, false]\n" := by
  decide +kernel

end Fix

end Blueprint
