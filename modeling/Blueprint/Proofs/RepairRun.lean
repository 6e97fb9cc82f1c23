import Blueprint.Proofs.CosmeticRepair
import Blueprint.Proofs.Sorting

/-!
A run of repairs and the file. Whether it ends with a summary or an error, the file holds the lines
that the repairs tried so far have left, one repair after the other.
-/

namespace Blueprint.Fix

/-- A file in the making: its lines, and where those are that it had at first. -/
structure Draft where
  lines : FileLines
  offsets : LineShifts

namespace Draft

def ofText (text : String) : Draft :=
  ⟨.ofChars text.toList, .empty⟩

def text (d : Draft) : String :=
  String.ofList d.lines.flatten

/-- The index of the line of a problem. -/
def index (d : Draft) (p : Problem) : Nat :=
  d.offsets.current p.line - 1

/-- What the repair of a problem changes; `none` if there is no repair for it. -/
def change? (d : Draft) (p : Problem) : Option FileLines.Change :=
  apply p d.lines (d.index p)

def repair? (d : Draft) (p : Problem) : Option Draft :=
  (d.change? p).map fun change =>
    match change with
    | none => d
    | some (lines, delta) => ⟨lines, d.offsets.record p.line delta⟩

theorem ofText_text (text : String) : (ofText text).text = text := by
  unfold ofText Draft.text
  rw [FileLines.ofChars_flatten, String.ofList_toList]

theorem repair?_of_still {d : Draft} {p : Problem} (h : d.change? p = some none) :
    d.repair? p = some d := by
  unfold repair?
  rw [h]
  rfl

/-- Only an indentation may be impossible to repair. -/
theorem change?_eq_none {d : Draft} {p : Problem} (h : d.change? p = none) :
    p.rule = "indentation" ∧ p.repair = none ∧ d.lines.reindent? (d.index p) = none := by
  unfold change? apply at h
  split at h
  · cases h
  · split at h
    · cases h
    · cases h
    next hrepair =>
      unfold ofRule at h
      split at h
      all_goals first | cases h | skip
      next hrule => exact ⟨hrule, hrepair, h⟩

end Draft

/-- Whether a problem shares the repair of the problem before it: it has the same line and rule and
needs nothing but its place. -/
def repeats (previous : Option Problem) (p : Problem) : Bool :=
  previous.any fun q => q.line = p.line ∧ q.rule = p.rule ∧ p.repair = none

/-- The problems of a list that do not share the repair of the one before them. -/
def leading (previous : Option Problem) : List Problem → List Problem
  | [] => []
  | p :: r => if repeats previous p then leading (some p) r else p :: leading (some p) r

theorem mem_of_mem_leading {previous : Option Problem} {ps : List Problem} {p : Problem}
    (h : p ∈ leading previous ps) : p ∈ ps := by
  induction ps generalizing previous with
  | nil => cases h
  | cons q r ih =>
    rw [leading] at h
    split at h
    · exact List.mem_cons_of_mem q (ih h)
    · rcases List.mem_cons.mp h with rfl | h
      · exact List.mem_cons_self
      · exact List.mem_cons_of_mem q (ih h)

def State.draft (s : State) : Draft :=
  ⟨s.lines, s.offsets⟩

/-- The file holds the lines, and the last repair was that of the previous problem. -/
structure State.Follows (path : String) (previous : Option Problem) (s : State) : Prop where
  file : s.files.read? path = some s.draft.text
  last : s.last.map (fun l => (l.line, l.rule)) = previous.map fun q => (q.line, q.rule)

variable {path : String} {previous : Option Problem} {s : State}

theorem State.Follows.settled? (h : s.Follows path previous) (p : Problem) :
    (s.settled? p).isSome = repeats previous p := by
  have hlast := h.last
  unfold State.settled? repeats
  cases hs : s.last with
  | none =>
    rw [hs] at hlast
    cases previous with
    | none => rfl
    | some q => cases hlast
  | some l =>
    rw [hs] at hlast
    cases previous with
    | none => cases hlast
    | some q =>
      obtain ⟨hline, hrule⟩ := Prod.mk.inj (Option.some.inj hlast)
      simp only [Option.bind_some, Option.any_some, ← hline, ← hrule]
      split
      next hsame => exact (decide_eq_true hsame).symm
      next hsame => exact (decide_eq_false hsame).symm

theorem FixSummary.add_perm (r : FixSummary) (p : Problem) (changed : Bool) :
    ((r.add p changed).fixed ++ (r.add p changed).unchanged).Perm
      (r.fixed ++ r.unchanged ++ [p]) := by
  unfold FixSummary.add
  cases changed with
  | true =>
    show (r.fixed ++ [p] ++ r.unchanged).Perm _
    rw [List.append_assoc, List.append_assoc]
    exact List.perm_append_comm.append_left r.fixed
  | false =>
    show (r.fixed ++ (r.unchanged ++ [p])).Perm _
    rw [← List.append_assoc]

/-- A problem that shares the last repair changes nothing. -/
theorem step_of_repeats (h : s.Follows path previous) {p : Problem}
    (hp : repeats previous p = true) :
    ∃ s' changed, step path s p = .ok s' ∧ s'.Follows path (some p) ∧ s'.draft = s.draft ∧
      s'.files = s.files ∧ s'.report = s.report.add p changed ∧ s'.last = s.last ∧
      s.last.any (·.changed) = changed := by
  obtain ⟨changed, hchanged⟩ := Option.isSome_iff_exists.mp ((h.settled? p).trans hp)
  unfold step
  rw [hchanged]
  unfold State.settled? at hchanged
  obtain ⟨l, hl, hsame⟩ := Option.bind_eq_some_iff.mp hchanged
  split at hsame
  next hplace =>
    refine ⟨_, changed, rfl, ⟨h.file, ?_⟩, rfl, rfl, rfl, rfl, ?_⟩
    · show s.last.map _ = _
      rw [hl]
      exact congrArg some (Prod.ext hplace.1 hplace.2.1)
    · rw [hl]
      exact Option.some.inj hsame
  · cases hsame

/-- Another problem is repaired where its line is now, and the file is written if that changes it. -/
theorem step_of_change (h : s.Follows path previous) {p : Problem}
    (hp : repeats previous p = false) {change : FileLines.Change}
    (hchange : s.draft.change? p = some change) :
    ∃ s', step path s p = .ok s' ∧ s'.Follows path (some p) ∧ s.draft.repair? p = some s'.draft ∧
      (change = none → s'.files = s.files) ∧ s'.report = s.report.add p change.isSome ∧
      s'.last.any (·.changed) = change.isSome := by
  have hsettled : s.settled? p = none := by
    have hnone := (h.settled? p).trans hp
    cases hs : s.settled? p with
    | none => rfl
    | some changed => rw [hs] at hnone; cases hnone
  have happly : apply p s.lines (s.offsets.current p.line - 1) = some change := hchange
  unfold step Draft.repair?
  rw [hsettled, hchange]
  dsimp only
  rw [happly]
  unfold State.accept
  cases change with
  | none => exact ⟨_, rfl, ⟨h.file, rfl⟩, rfl, fun _ => rfl, rfl, rfl⟩
  | some change =>
    obtain ⟨lines, delta⟩ := change
    obtain ⟨files, hwrite, hread⟩ := Files.write?_of_read? h.file (String.ofList lines.flatten)
    dsimp only
    rw [hwrite]
    exact ⟨_, rfl, ⟨hread, rfl⟩, rfl, fun hnone => (nomatch hnone), rfl, rfl⟩

theorem step_of_no_change (h : s.Follows path previous) {p : Problem}
    (hp : repeats previous p = false) (hchange : s.draft.change? p = none) :
    step path s p = .error (.indentation path p.line) := by
  have hsettled : s.settled? p = none := by
    have hnone := (h.settled? p).trans hp
    cases hs : s.settled? p with
    | none => rfl
    | some changed => rw [hs] at hnone; cases hnone
  have happly : apply p s.lines (s.offsets.current p.line - 1) = none := hchange
  unfold step
  rw [hsettled]
  dsimp only
  rw [happly]

/-- What a run over `ps` leaves: the repairs in `done` have been made, which are all that there are,
or all before a problem for which there is no repair. -/
structure Outcome (path : String) (previous : Option Problem) (s : State) (ps done : List Problem)
    (last : Draft) : Prop where
  repaired : done.foldlM Draft.repair? s.draft = some last
  file : (steps path s ps).1.files.read? path = some last.text
  still : (∀ q ∈ done, s.draft.change? q = some none) → (steps path s ps).1.files = s.files
  success : (steps path s ps).2 = none → leading previous ps = done ∧
    ((steps path s ps).1.report.fixed ++ (steps path s ps).1.report.unchanged).Perm
      (s.report.fixed ++ s.report.unchanged ++ ps)
  failure : ∀ e, (steps path s ps).2 = some e → ∃ p rest,
    leading previous ps = done ++ p :: rest ∧ last.change? p = none ∧ e = .indentation path p.line

variable {s' : State} {p : Problem} {r done : List Problem} {last : Draft}

/-- What a later part of the run reports comes after what has been reported. -/
theorem report_perm {changed : Bool} (hreport : s'.report = s.report.add p changed)
    {ps : List Problem}
    (h : ps.Perm (s'.report.fixed ++ s'.report.unchanged ++ r)) :
    ps.Perm (s.report.fixed ++ s.report.unchanged ++ p :: r) := by
  rw [hreport] at h
  have hadd := (FixSummary.add_perm s.report p changed).append_right r
  rw [List.append_assoc _ [p] r] at hadd
  exact h.trans hadd

theorem Outcome.skip (hp : repeats previous p = true) (hstep : step path s p = .ok s')
    (hdraft : s'.draft = s.draft) (hfiles : s'.files = s.files) {changed : Bool}
    (hreport : s'.report = s.report.add p changed) (h : Outcome path (some p) s' r done last) :
    Outcome path previous s (p :: r) done last := by
  have hsteps : steps path s (p :: r) = steps path s' r := by rw [steps, hstep]
  have hleading : leading previous (p :: r) = leading (some p) r := by rw [leading, if_pos hp]
  constructor
  · rw [← hdraft]
    exact h.repaired
  · rw [hsteps]
    exact h.file
  · rw [hsteps, ← hdraft, ← hfiles]
    exact h.still
  · rw [hsteps, hleading]
    intro hnone
    obtain ⟨hdone, hperm⟩ := h.success hnone
    exact ⟨hdone, report_perm hreport hperm⟩
  · rw [hsteps, hleading]
    exact h.failure

theorem Outcome.cons (hp : repeats previous p = false) (hstep : step path s p = .ok s')
    (hrepair : s.draft.repair? p = some s'.draft)
    (hstill : s.draft.change? p = some none → s'.files = s.files) {changed : Bool}
    (hreport : s'.report = s.report.add p changed) (h : Outcome path (some p) s' r done last) :
    Outcome path previous s (p :: r) (p :: done) last := by
  have hsteps : steps path s (p :: r) = steps path s' r := by rw [steps, hstep]
  have hleading : leading previous (p :: r) = p :: leading (some p) r := by
    rw [leading, if_neg (Bool.eq_false_iff.mp hp)]
  constructor
  · rw [List.foldlM_cons, hrepair]
    exact h.repaired
  · rw [hsteps]
    exact h.file
  · intro hall
    have hfirst := hall p List.mem_cons_self
    have hdraft : s'.draft = s.draft :=
      Option.some.inj (hrepair.symm.trans (Draft.repair?_of_still hfirst))
    rw [hsteps]
    refine (h.still fun q hq => ?_).trans (hstill hfirst)
    rw [hdraft]
    exact hall q (List.mem_cons_of_mem p hq)
  · rw [hsteps, hleading]
    intro hnone
    obtain ⟨hdone, hperm⟩ := h.success hnone
    exact ⟨congrArg (p :: ·) hdone, report_perm hreport hperm⟩
  · rw [hsteps, hleading]
    intro e he
    obtain ⟨q, rest, hq, hchange, hfailure⟩ := h.failure e he
    exact ⟨q, rest, congrArg (p :: ·) hq, hchange, hfailure⟩

theorem steps_outcome (h : s.Follows path previous) (ps : List Problem) :
    ∃ done last, Outcome path previous s ps done last := by
  induction ps generalizing previous s with
  | nil =>
    refine ⟨[], s.draft, rfl, h.file, fun _ => rfl, fun _ => ⟨rfl, ?_⟩, fun e he => by cases he⟩
    rw [List.append_nil]
    exact List.Perm.refl _
  | cons p r ih =>
    cases hp : repeats previous p with
    | true =>
      obtain ⟨s', changed, hstep, hfollows, hdraft, hfiles, hreport, _⟩ := step_of_repeats h hp
      obtain ⟨done, last, hout⟩ := ih hfollows
      exact ⟨done, last, hout.skip hp hstep hdraft hfiles hreport⟩
    | false =>
      cases hchange : s.draft.change? p with
      | none =>
        have hsteps : steps path s (p :: r) = (s, some (.indentation path p.line)) := by
          rw [steps, step_of_no_change h hp hchange]
        have hleading : leading previous (p :: r) = p :: leading (some p) r := by
          rw [leading, if_neg (Bool.eq_false_iff.mp hp)]
        refine ⟨[], s.draft, rfl, ?_, fun _ => ?_, fun hnone => ?_, fun e he => ?_⟩
        · rw [hsteps]
          exact h.file
        · rw [hsteps]
        · rw [hsteps] at hnone
          cases hnone
        · rw [hsteps] at he
          cases he
          exact ⟨p, leading (some p) r, hleading, hchange, rfl⟩
      | some change =>
        obtain ⟨s', hstep, hfollows, hrepair, hstill, hreport, _⟩ := step_of_change h hp hchange
        obtain ⟨done, last, hout⟩ := ih hfollows
        refine ⟨p :: done, last, hout.cons hp hstep hrepair (fun hnone => hstill ?_) hreport⟩
        exact Option.some.inj (hchange.symm.trans hnone)

/-- The run over a file that can be read. -/
def fileRun (fs : Files) (selection : Selection) (path text : String) (problems : List Problem) :
    State × Option LintFailure :=
  steps path { files := fs, lines := .ofChars text.toList } (selected selection problems)

variable {fs : Files} {text : String}

theorem repairFile_eq (hread : fs.read? path = some text) (selection : Selection)
    (problems : List Problem) :
    repairFile fs selection path problems =
      ((fileRun fs selection path text problems).1.files,
        match (fileRun fs selection path text problems).2 with
        | some e => .error e
        | none => .ok (fileRun fs selection path text problems).1.report) := by
  unfold repairFile fileRun
  dsimp only
  split
  next hempty =>
    rw [List.isEmpty_iff.mp hempty]
    rfl
  · have hexists : fs.exists? path = true := by
      obtain ⟨place, hfind⟩ := Files.find?_of_read? hread
      unfold Files.exists?
      rw [hfind]
      rfl
    rw [hexists, if_neg (by decide)]
    split
    next hnone =>
      rw [hread] at hnone
      cases hnone
    next hsome =>
      rw [hread] at hsome
      cases hsome
      rfl

theorem fileRun_outcome (hread : fs.read? path = some text) (selection : Selection)
    (problems : List Problem) :
    ∃ done last, Outcome path none { files := fs, lines := .ofChars text.toList }
      (selected selection problems) done last :=
  steps_outcome ⟨hread.trans (congrArg some (Draft.ofText_text text).symm), rfl⟩ _

/-- Repairs other than those of the indentation are all made. -/
theorem repairFile_succeeds (hread : fs.read? path = some text) (selection : Selection)
    {problems : List Problem} (h : ∀ p ∈ problems, p.rule ≠ "indentation") :
    ∃ fs' report last, repairFile fs selection path problems = (fs', .ok report) ∧
      (leading none (selected selection problems)).foldlM Draft.repair? (.ofText text) = some last ∧
      fs'.read? path = some last.text ∧
      (report.fixed ++ report.unchanged).Perm (selected selection problems) := by
  obtain ⟨done, last, hout⟩ := fileRun_outcome hread selection problems
  rw [repairFile_eq hread]
  have hsuccess : (fileRun fs selection path text problems).2 = none := by
    cases hresult : (fileRun fs selection path text problems).2 with
    | none => rfl
    | some e =>
      obtain ⟨p, rest, hleading, hchange, _⟩ := hout.failure e hresult
      have hmem : p ∈ selected selection problems :=
        mem_of_mem_leading (hleading ▸ List.mem_append_right done List.mem_cons_self)
      exact absurd (Draft.change?_eq_none hchange).1
        (h p (List.mem_filter.mp ((sortBy_perm _ _).mem_iff.mp hmem)).1)
  obtain ⟨hdone, hperm⟩ := hout.success hsuccess
  rw [hsuccess]
  exact ⟨_, _, last, rfl, hdone ▸ hout.repaired, hout.file, hperm⟩

/-- A run of repairs goes through the selected problems by line. Whatever it returns, the file holds
the text that the repairs in `done` have made of its lines, one after the other. On success these are
all repairs, and the summary holds every selected problem once. An error is that of the first problem
whose indentation cannot be derived; the repairs before it have been made. If no repair changes
anything, the files stay as they are. -/
theorem repairFile_applies (hread : fs.read? path = some text) (selection : Selection)
    (problems : List Problem) :
    (selected selection problems).Perm (problems.filter selection.selects) ∧
      (selected selection problems).Pairwise (·.line ≤ ·.line) ∧
      ∃ done last, done.foldlM Draft.repair? (.ofText text) = some last ∧
        (repairFile fs selection path problems).1.read? path = some last.text ∧
        ((∀ p ∈ done, (Draft.ofText text).change? p = some none) →
          (repairFile fs selection path problems).1 = fs) ∧
        match (repairFile fs selection path problems).2 with
        | .ok report => leading none (selected selection problems) = done ∧
          (report.fixed ++ report.unchanged).Perm (problems.filter selection.selects)
        | .error e => ∃ p rest, leading none (selected selection problems) = done ++ p :: rest ∧
          p.rule = "indentation" ∧ p.repair = none ∧ last.lines.reindent? (last.index p) = none ∧
          e = .indentation path p.line := by
  have hchosen : (selected selection problems).Perm (problems.filter selection.selects) :=
    sortBy_perm _ _
  refine ⟨hchosen, sortBy_pairwise (fun p : Problem => p.line) _, ?_⟩
  obtain ⟨done, last, hout⟩ := fileRun_outcome hread selection problems
  rw [repairFile_eq hread]
  refine ⟨done, last, hout.repaired, hout.file, hout.still, ?_⟩
  have hsuccess := hout.success
  have hfailure := hout.failure
  dsimp only
  cases hresult : (fileRun fs selection path text problems).2 with
  | none =>
    obtain ⟨hdone, hperm⟩ := hsuccess hresult
    exact ⟨hdone, hperm.trans hchosen⟩
  | some e =>
    obtain ⟨p, rest, hleading, hchange, he⟩ := hfailure e hresult
    obtain ⟨hrule, hrepair, hreindent⟩ := Draft.change?_eq_none hchange
    exact ⟨p, rest, hleading, hrule, hrepair, hreindent, he⟩

/-- Two booleans on one line share a repair, and the indentation of a later line cannot be derived:
the file keeps the first repair. -/
theorem repairFile_applies_before_indentation :
    let text := "a: True\nb: [False]\nc:\n    d: [1, 2]\n"
    let fs := Files.empty.create "b.yaml" (.text text)
    let word (line : Nat) : Problem :=
      { line, column := some 4, rule := "truthy", message := "", fixable := true }
    let indent : Problem :=
      { line := 4, column := some 5, rule := "indentation", message := "", fixable := true }
    let result := repairFile fs .all "b.yaml" [indent, word 2, word 1, word 2]
    fs.read? "b.yaml" = some text ∧
      leading none (selected .all [indent, word 2, word 1, word 2]) = [word 1, word 2, indent] ∧
      result.1.read? "b.yaml" = some "a: true\nb: [false]\nc:\n    d: [1, 2]\n" ∧
      (match result.2 with
        | .ok _ => none
        | .error e => some e) = some (.indentation "b.yaml" 4) ∧
      ∃ (done : List Problem) (last : Draft), done.foldlM Draft.repair? (.ofText text) = some last ∧
        result.1.read? "b.yaml" = some last.text := by
  intro text fs word indent result
  have hread : fs.read? "b.yaml" = some text := by decide +kernel
  refine ⟨hread, by decide +kernel, by decide +kernel, by decide +kernel, ?_⟩
  obtain ⟨_, _, done, last, hrepaired, hfile, _⟩ :=
    repairFile_applies hread .all [indent, word 2, word 1, word 2]
  exact ⟨done, last, hrepaired, hfile⟩

end Blueprint.Fix

/-!
Repairing a single problem: the file holds what its repair makes of the lines of the text, and the
summary tells whether it has made anything of them.
-/

namespace Blueprint.Fix

variable {fs : Files} {path text : String} {selection : Selection} {p : Problem}

/-- The outcome of repairing one problem at the place where it was found. -/
inductive Single (fs : Files) (path text : String) (p : Problem) :
    Files × Except LintFailure FixSummary → Prop where
  | underivable (h : apply p (.ofChars text.toList) (p.line - 1) = none) :
    Single fs path text p (fs, .error (.indentation path p.line))
  | unchanged (h : apply p (.ofChars text.toList) (p.line - 1) = some none) :
    Single fs path text p (fs, .ok { unchanged := [p] })
  | fixed {lines : FileLines} {delta : Int} {fs' : Files}
    (h : apply p (.ofChars text.toList) (p.line - 1) = some (some (lines, delta)))
    (hread : fs'.read? path = some (String.ofList lines.flatten)) :
    Single fs path text p (fs', .ok { fixed := [p] })

theorem selected_single (h : selection.selects p = true) : selected selection [p] = [p] := by
  unfold selected
  rw [List.filter_cons_of_pos h]
  rfl

theorem current_empty (line : Nat) : LineShifts.empty.current line - 1 = line - 1 := by
  unfold LineShifts.current
  show (max 1 ((line : Int) + 0)).toNat - 1 = line - 1
  omega

/-- The first problem of a file is repaired where it was found. -/
theorem step_first (lines : FileLines) :
    step path { files := fs, lines } p =
      (apply p lines (p.line - 1)).elim (.error (.indentation path p.line))
        (State.accept { files := fs, lines } path p) := by
  unfold step
  dsimp only [State.settled?, Option.bind_none]
  rw [current_empty]
  cases apply p lines (p.line - 1) <;> rfl

theorem repairFile_single (hread : fs.read? path = some text)
    (hselects : selection.selects p = true) :
    Single fs path text p (repairFile fs selection path [p]) := by
  rw [repairFile_eq hread, fileRun, selected_single hselects, steps, step_first]
  cases hchange : apply p (.ofChars text.toList) (p.line - 1) with
  | none => exact .underivable hchange
  | some change =>
    cases change with
    | none => exact .unchanged hchange
    | some change =>
      obtain ⟨lines, delta⟩ := change
      obtain ⟨fs', hwrite, hread'⟩ := Files.write?_of_read? hread (String.ofList lines.flatten)
      have haccept : ∃ s : State, State.accept { files := fs, lines := .ofChars text.toList } path p
          (some (lines, delta)) = .ok s ∧ s.files = fs' ∧ s.report = { fixed := [p] } := by
        unfold State.accept
        dsimp only
        rw [hwrite]
        exact ⟨_, rfl, rfl, rfl⟩
      obtain ⟨s, hs, rfl, hreport⟩ := haccept
      rw [Option.elim_some, hs]
      show Single fs path text p (s.files, .ok s.report)
      rw [hreport]
      exact .fixed hchange hread'

end Blueprint.Fix
