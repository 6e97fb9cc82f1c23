import Blueprint.Fix.Lines
import Blueprint.Lint.Rules.Lines

/-!
Runs of blank lines. A text whose lines end in line feeds alone consists of such runs and of the
lines between them, and the rule about blank lines looks at each run by itself.
-/

namespace Blueprint

namespace FileLines

def blank : List Char := ['\n']

/-- No part of the end of a line. -/
def IsPlain (s : List Char) : Prop :=
  '\n' ∉ s ∧ '\r' ∉ s

/-- Lines that line feeds alone end; the last line may lack its end. -/
inductive FeedEnded : FileLines → Prop
  | nil : FeedEnded []
  | last {s : List Char} (hne : s ≠ []) (hs : IsPlain s) : FeedEnded [s]
  | cons {s : List Char} {r : FileLines} (hs : IsPlain s) (h : FeedEnded r) :
    FeedEnded ((s ++ ['\n']) :: r)

theorem IsPlain.cons {c : Char} {s : List Char} (hfeed : c ≠ '\n') (hreturn : c ≠ '\r')
    (h : IsPlain s) : IsPlain (c :: s) :=
  ⟨fun hm => (List.mem_cons.mp hm).elim (fun he => hfeed he.symm) h.1,
    fun hm => (List.mem_cons.mp hm).elim (fun he => hreturn he.symm) h.2⟩

theorem ofChars_cons (c : Char) (s : List Char) :
    ofChars (c :: s) =
      if c = '\n' then [c] :: ofChars s
      else
        match ofChars s with
        | [] => [[c]]
        | line :: r => (c :: line) :: r := rfl

theorem isPlain_nil : IsPlain [] :=
  ⟨List.not_mem_nil, List.not_mem_nil⟩

theorem isPlain_singleton {c : Char} (hfeed : c ≠ '\n') (hreturn : c ≠ '\r') : IsPlain [c] :=
  isPlain_nil.cons hfeed hreturn

theorem ofChars_feedEnded {s : List Char} (h : '\r' ∉ s) : FeedEnded (ofChars s) := by
  induction s with
  | nil => exact .nil
  | cons c s ih =>
    have hrest := ih fun hm => h (List.mem_cons_of_mem c hm)
    have hreturn : c ≠ '\r' := fun he => h (he ▸ List.mem_cons_self)
    rw [ofChars_cons]
    split
    next hfeed =>
      subst hfeed
      exact .cons (s := []) isPlain_nil hrest
    next hfeed =>
      split
      · exact .last (List.cons_ne_nil _ _) (isPlain_singleton hfeed hreturn)
      next line r hlines =>
        rw [hlines] at hrest
        cases hrest with
        | last hne hs => exact .last (List.cons_ne_nil _ _) (hs.cons hfeed hreturn)
        | cons hs hr => exact .cons (s := c :: _) (hs.cons hfeed hreturn) hr

theorem ofChars_line {s : List Char} (hs : '\n' ∉ s) (rest : List Char) :
    ofChars (s ++ '\n' :: rest) = (s ++ ['\n']) :: ofChars rest := by
  induction s with
  | nil => rfl
  | cons c s ih =>
    have hfeed : c ≠ '\n' := fun he => hs (he ▸ List.mem_cons_self)
    rw [List.cons_append, ofChars_cons, if_neg hfeed,
      ih fun hm => hs (List.mem_cons_of_mem c hm)]
    rfl

theorem ofChars_last {s : List Char} (hne : s ≠ []) (hs : '\n' ∉ s) : ofChars s = [s] := by
  induction s with
  | nil => exact absurd rfl hne
  | cons c s ih =>
    have hfeed : c ≠ '\n' := fun he => hs (he ▸ List.mem_cons_self)
    rw [ofChars_cons, if_neg hfeed]
    cases s with
    | nil => rfl
    | cons d s => rw [ih (List.cons_ne_nil d s) fun hm => hs (List.mem_cons_of_mem c hm)]

/-- Such lines are those of their text. -/
theorem FeedEnded.ofChars_flatten {lines : FileLines} (h : FeedEnded lines) :
    ofChars lines.flatten = lines := by
  induction h with
  | nil => rfl
  | last hne hs => rw [List.flatten_singleton, ofChars_last hne hs.1]
  | cons hs h ih => rw [List.flatten_cons, List.append_assoc, List.cons_append, List.nil_append,
      ofChars_line hs.1, ih]

theorem FeedEnded.of_cons {line : List Char} {r : FileLines} (h : FeedEnded (line :: r)) :
    FeedEnded r := by
  cases h with
  | last => exact .nil
  | cons _ h => exact h

/-- What follows a line may be replaced, by nothing if it is nothing. -/
theorem FeedEnded.replace {line : List Char} {r r' : FileLines} (h : FeedEnded (line :: r))
    (h' : FeedEnded r') (hnil : r = [] → r' = []) : FeedEnded (line :: r') := by
  cases h with
  | last hne hs =>
    rw [hnil rfl]
    exact .last hne hs
  | cons hs _ => exact .cons hs h'

theorem FeedEnded.blank_cons {r : FileLines} (h : FeedEnded r) : FeedEnded (blank :: r) :=
  .cons (s := []) isPlain_nil h

theorem FeedEnded.replicate_append {r : FileLines} (k : Nat) (h : FeedEnded r) :
    FeedEnded (List.replicate k blank ++ r) := by
  induction k with
  | zero => exact h
  | succ k ih => exact ih.blank_cons

theorem FeedEnded.of_replicate_append {r : FileLines} {k : Nat}
    (h : FeedEnded (List.replicate k blank ++ r)) : FeedEnded r := by
  induction k with
  | zero => exact h
  | succ k ih => exact ih h.of_cons

theorem FeedEnded.ne_nil {line : List Char} {r : FileLines} (h : FeedEnded (line :: r)) :
    line ≠ [] := by
  cases h with
  | last hne _ => exact hne
  | cons _ _ => exact List.append_ne_nil_of_right_ne_nil _ (List.cons_ne_nil _ _)

/-- A text starts with a line feed only if its first line is blank. -/
theorem FeedEnded.head?_flatten {lines : FileLines} (h : FeedEnded lines) :
    lines.flatten.head? = some '\n' ↔ lines.head? = some blank := by
  cases h with
  | nil => simp
  | @last s hne hs =>
    cases s with
    | nil => exact absurd rfl hne
    | cons c s =>
      have hfeed : c ≠ '\n' := fun he => hs.1 (he ▸ List.mem_cons_self)
      simp [blank, hfeed]
  | @cons s r hs h =>
    cases s with
    | nil => simp [blank]
    | cons c s =>
      have hfeed : c ≠ '\n' := fun he => hs.1 (he ▸ List.mem_cons_self)
      simp [blank, hfeed]

theorem FeedEnded.flatten_eq_nil {lines : FileLines} (h : FeedEnded lines) :
    lines.flatten = [] ↔ lines = [] := by
  cases h with
  | nil => simp
  | last hne hs => simp [hne]
  | cons hs h => simp

theorem FeedEnded.length_le {lines : FileLines} (h : FeedEnded lines) :
    lines.length ≤ lines.flatten.length := by
  induction h with
  | nil => exact Nat.le_refl _
  | last hne _ =>
    rw [List.flatten_singleton]
    exact List.length_pos_iff.mpr hne
  | cons _ _ ih =>
    rw [List.flatten_cons, List.length_append, List.length_append, List.length_cons,
      List.length_singleton]
    omega

theorem content_plain {s : List Char} (hs : IsPlain s) : content s = s := by
  unfold content Text.dropEndWhile
  cases hrev : s.reverse with
  | nil =>
    rw [List.reverse_eq_nil_iff.mp hrev]
    rfl
  | cons c r =>
    have hc : c ∈ s := List.mem_reverse.mp (hrev ▸ List.mem_cons_self)
    have hfeed : c ≠ '\n' := fun he => hs.1 (he ▸ hc)
    have hreturn : c ≠ '\r' := fun he => hs.2 (he ▸ hc)
    rw [List.dropWhile_cons_of_neg (by simp [isTerminator, hfeed, hreturn]), ← hrev,
      List.reverse_reverse]

theorem content_feed {s : List Char} (hs : IsPlain s) : content (s ++ ['\n']) = s := by
  have hrev : (s ++ ['\n']).reverse = '\n' :: s.reverse := by simp
  unfold content Text.dropEndWhile
  rw [hrev, List.dropWhile_cons_of_pos (by decide)]
  exact content_plain hs

/-- Among such lines only the line feed alone is blank. -/
theorem FeedEnded.isBlankLine_head {line : List Char} {r : FileLines} (h : FeedEnded (line :: r))
    (hne : line ≠ blank) : isBlankLine line = false := by
  unfold isBlankLine
  cases h with
  | last hs hplain =>
    rw [content_plain hplain]
    exact List.isEmpty_eq_false_iff.mpr hs
  | @cons s _ hs _ =>
    rw [content_feed hs]
    refine List.isEmpty_eq_false_iff.mpr fun he => hne ?_
    rw [he]
    rfl

/-- Runs of blank lines, each with the line after it, and the number of blank lines at the end. -/
def ofRuns : List (Nat × List Char) → Nat → FileLines
  | [], last => List.replicate last blank
  | (k, line) :: r, last => List.replicate k blank ++ line :: ofRuns r last

theorem exists_runs (lines : FileLines) :
    ∃ runs last, ofRuns runs last = lines ∧ ∀ run ∈ runs, run.2 ≠ blank := by
  induction lines with
  | nil => exact ⟨[], 0, rfl, fun run h => nomatch h⟩
  | cons line lines ih =>
    obtain ⟨runs, last, rfl, hruns⟩ := ih
    by_cases hline : line = blank
    · subst hline
      cases runs with
      | nil => exact ⟨[], last + 1, rfl, hruns⟩
      | cons run runs =>
        refine ⟨(run.1 + 1, run.2) :: runs, last, rfl, fun other h => ?_⟩
        rcases List.mem_cons.mp h with rfl | h
        · exact hruns run List.mem_cons_self
        · exact hruns other (List.mem_cons_of_mem run h)
    · refine ⟨(0, line) :: runs, last, rfl, fun other h => ?_⟩
      rcases List.mem_cons.mp h with rfl | h
      · exact hline
      · exact hruns other h

end FileLines

namespace Rules

open FileLines (blank IsPlain FeedEnded ofRuns)

variable {c : RuleSettings}

/-- How many blank lines a run may have. -/
def blankLimit (c : RuleSettings) (start ended : Bool) : Int :=
  if ended then c.int "max-end" else if start then c.int "max-start" else c.int "max"

/-- The problem of a run of blank lines at its last line. -/
def tooManyBlank (number run : Nat) (limit : Int) : Problem where
  line := number
  column := some 1
  rule := "empty-lines"
  message := "too many blank lines (" ++ toString run ++ " > " ++ toString limit ++ ")"
  fixable := true

/-- What is reported of a run of blank lines. A single line that is all of a text may be blank. -/
def runProblem (c : RuleSettings) (number : Nat) (start ended : Bool) (run : Nat) :
    List Problem :=
  if start && ended && run == 1 then []
  else if blankLimit c start ended < run then
    [tooManyBlank number run (blankLimit c start ended)]
  else []

/-- The problems of lines of which `passed` others precede, the last `run` of these blank. -/
def blankProblems (c : RuleSettings) (passed : Nat) (start : Bool) (run : Nat) :
    FileLines → List Problem
  | [] => []
  | line :: r =>
    if line = blank then
      (if r.head? = some blank then [] else runProblem c (passed + 1) start r.isEmpty (run + 1))
        ++ blankProblems c (passed + 1) start (run + 1) r
    else blankProblems c (passed + 1) false 0 r

/-- The text before a line, last character first, of which `run` lines at the end are blank. -/
inductive EndsInRun : Bool → Nat → List Char → Prop
  | start (run : Nat) : EndsInRun true run (List.replicate run '\n')
  | after (run : Nat) {c : Char} (hfeed : c ≠ '\n') (hreturn : c ≠ '\r') (rest : List Char) :
    EndsInRun false run (List.replicate (run + 1) '\n' ++ c :: rest)

theorem EndsInRun.succ {start : Bool} {run : Nat} {before : List Char}
    (h : EndsInRun start run before) : EndsInRun start (run + 1) ('\n' :: before) := by
  cases h with
  | start => exact .start (run + 1)
  | after _ hfeed hreturn rest => exact .after (run + 1) hfeed hreturn rest

/-- After a line that is not blank. -/
theorem EndsInRun.ofLine {s : List Char} (hne : s ≠ []) (hs : IsPlain s) (before : List Char) :
    EndsInRun false 0 ('\n' :: (s.reverse ++ before)) := by
  cases hrev : s.reverse with
  | nil => exact absurd (List.reverse_eq_nil_iff.mp hrev) hne
  | cons c r =>
    have hc : c ∈ s := List.mem_reverse.mp (hrev ▸ List.mem_cons_self)
    exact .after 0 (fun he => hs.1 (he ▸ hc)) (fun he => hs.2 (he ▸ hc)) (r ++ before)

theorem countFeeds_replicate (n : Nat) {rest : List Char} (hrest : rest.head? ≠ some '\n') :
    countFeeds (List.replicate n '\n' ++ rest) = (n, rest) := by
  induction n with
  | zero =>
    cases rest with
    | nil => rfl
    | cons c rest =>
      have hc : c ≠ '\n' := fun he => hrest (he ▸ rfl)
      rw [List.replicate_zero, List.nil_append]
      unfold countFeeds
      split
      next heq => exact absurd (List.cons.inj heq).1 hc
      · rfl
  | succ n ih =>
    rw [List.replicate_succ, List.cons_append, countFeeds, ih]

theorem countReturns_of_feed {s : List Char} (h : s[1]? ≠ some '\r') : countReturns s = (0, s) := by
  unfold countReturns
  split
  · exact absurd rfl h
  · rfl

/-- The rule counts the line ends before a line; the first line of a text has none before it. -/
theorem EndsInRun.lineEndsBefore {start : Bool} {run : Nat} {before : List Char}
    (h : EndsInRun start run before) :
    lineEndsBefore before = (if start then run else run + 1, start) := by
  unfold Rules.lineEndsBefore
  cases h with
  | start =>
    have hreturn : (List.replicate run '\n')[1]? ≠ some '\r' := by
      intro hget
      exact absurd (List.eq_of_mem_replicate (List.mem_of_getElem? hget)) (by decide)
    have hfeeds := countFeeds_replicate run (show [].head? ≠ some '\n' by simp)
    rw [List.append_nil] at hfeeds
    rw [countReturns_of_feed hreturn]
    dsimp only
    rw [hfeeds]
    simp
  | @after _ c hfeed hreturn rest =>
    have hsecond : (List.replicate (run + 1) '\n' ++ c :: rest)[1]? ≠ some '\r' := by
      cases run with
      | zero => simpa using hreturn
      | succ run => simp [List.replicate_succ]
    rw [countReturns_of_feed hsecond]
    dsimp only
    rw [countFeeds_replicate _ (by simpa using hfeed)]
    simp

theorem EndsInRun.before_isEmpty {start : Bool} {run : Nat} {before : List Char}
    (h : EndsInRun start run before) : before.isEmpty = (start && run == 0) := by
  cases h with
  | start => cases run <;> simp
  | after => simp

theorem checkBlankLines_content {l : Line} (h : l.content ≠ []) : checkBlankLines c l = [] := by
  unfold checkBlankLines
  rw [if_pos]
  simp [h]

/-- What the rule says of a blank line, by the lines around it. -/
theorem checkBlankLines_blank {start : Bool} {run : Nat} {before : List Char}
    (h : EndsInRun start run before) {r : FileLines} (hr : FeedEnded r) (number offset : Nat) :
    checkBlankLines c ⟨number, offset, [], before, '\n' :: r.flatten⟩ =
      if r.head? = some blank then [] else runProblem c number start r.isEmpty (run + 1) := by
  have hfollows : blankFollows ('\n' :: r.flatten) = decide (r.head? = some blank) := by
    have hreturn : Text.after? ['\r', '\n', '\r', '\n'] ('\n' :: r.flatten) = none := rfl
    unfold blankFollows
    rw [hreturn]
    have hhead := hr.head?_flatten
    cases hflat : r.flatten with
    | nil =>
      rw [hflat] at hhead
      have hnone : r.head? ≠ some blank := fun hb => absurd (hhead.mpr hb) (by simp)
      rw [decide_eq_false hnone]
      rfl
    | cons d s =>
      rw [hflat, List.head?_cons, Option.some_inj] at hhead
      by_cases hd : d = '\n'
      · rw [decide_eq_true (hhead.mp hd), hd]
        rfl
      · have hafter : Text.after? ['\n', '\n'] ('\n' :: d :: s) = none := by
          simp [Text.after?, Ne.symm hd]
        rw [decide_eq_false fun hb => hd (hhead.mpr hb), hafter]
        rfl
  have hlast : ((('\n' :: r.flatten) == ['\n']) || (('\n' :: r.flatten) == ['\r', '\n'])) =
      r.isEmpty := by
    have hflat := hr.flatten_eq_nil
    cases r with
    | nil => rfl
    | cons line r =>
      have hne : (line :: r).flatten ≠ [] := fun he => absurd (hflat.mp he) (List.cons_ne_nil _ _)
      cases hs : (line :: r).flatten with
      | nil => exact absurd hs hne
      | cons d s => rfl
  have hcount : (if start = true then (if start = true then run else run + 1) + 1
      else if start = true then run else run + 1) = run + 1 := by
    cases start <;> rfl
  unfold checkBlankLines
  dsimp only
  rw [hfollows, h.lineEndsBefore, hlast, h.before_isEmpty]
  dsimp only
  rw [hcount]
  by_cases hhead : r.head? = some blank
  · rw [if_pos hhead, if_pos (by simp [hhead])]
  · rw [if_neg hhead, if_neg (by simp [hhead])]
    unfold runProblem blankLimit tooManyBlank
    have honly : (r.isEmpty && (start && run == 0)) = (start && r.isEmpty && run + 1 == 1) := by
      cases start <;> cases r.isEmpty <;> simp
    rw [honly]

theorem linesFrom_cons {c : Char} (hfeed : c ≠ '\n') (number start : Nat)
    (before read rest : List Char) :
    Line.linesFrom number start before read (c :: rest) =
      Line.linesFrom number start before (c :: read) rest :=
  if_neg hfeed

theorem linesFrom_feed {read : List Char} (hread : '\r' ∉ read) (number start : Nat)
    (before rest : List Char) :
    Line.linesFrom number start before read ('\n' :: rest) =
      ⟨number, start, read.reverse, before, '\n' :: rest⟩
        :: Line.linesFrom (number + 1) (start + Line.byteCount read + 1)
          ('\n' :: (read ++ before)) [] rest := by
  cases read with
  | nil => rfl
  | cons c read =>
    have hreturn : c ≠ '\r' := fun he => hread (he ▸ List.mem_cons_self)
    rw [Line.linesFrom, if_pos rfl]
    · intro content he
      exact hreturn (List.cons.inj he).1

theorem linesFrom_line {s read : List Char} (hs : IsPlain s) (hread : '\r' ∉ read)
    (number start : Nat) (before rest : List Char) :
    ∃ next, Line.linesFrom number start before read (s ++ '\n' :: rest) =
      ⟨number, start, read.reverse ++ s, before, '\n' :: rest⟩
        :: Line.linesFrom (number + 1) next ('\n' :: (s.reverse ++ read ++ before)) [] rest := by
  induction s generalizing read with
  | nil =>
    refine ⟨start + Line.byteCount read + 1, ?_⟩
    rw [List.nil_append, linesFrom_feed hread, List.append_nil, List.reverse_nil, List.nil_append]
  | cons c s ih =>
    have hfeed : c ≠ '\n' := fun he => hs.1 (he ▸ List.mem_cons_self)
    have hreturn : '\r' ∉ c :: read := by
      intro hm
      rcases List.mem_cons.mp hm with he | hm
      · exact hs.2 (he ▸ List.mem_cons_self)
      · exact hread hm
    obtain ⟨next, hnext⟩ := ih
      ⟨fun hm => hs.1 (List.mem_cons_of_mem c hm), fun hm => hs.2 (List.mem_cons_of_mem c hm)⟩
      hreturn
    refine ⟨next, ?_⟩
    rw [List.cons_append, linesFrom_cons hfeed, hnext]
    simp

theorem linesFrom_last {s : List Char} (hs : IsPlain s) (number start : Nat)
    (before read : List Char) :
    Line.linesFrom number start before read s = [⟨number, start, read.reverse ++ s, before, []⟩] := by
  induction s generalizing read with
  | nil => rw [Line.linesFrom, List.append_nil]
  | cons c s ih =>
    have hfeed : c ≠ '\n' := fun he => hs.1 (he ▸ List.mem_cons_self)
    rw [linesFrom_cons hfeed,
      ih ⟨fun hm => hs.1 (List.mem_cons_of_mem c hm), fun hm => hs.2 (List.mem_cons_of_mem c hm)⟩]
    simp

theorem checkBlankLines_lines {lines : FileLines} (h : FeedEnded lines) {start : Bool} {run : Nat}
    {before : List Char} (hbefore : EndsInRun start run before) (passed offset : Nat) :
    (Line.linesFrom (passed + 1) offset before [] lines.flatten).flatMap (checkBlankLines c) =
      blankProblems c passed start run lines := by
  induction h generalizing start run before passed offset with
  | nil => rfl
  | @last s hne hs =>
    have hblank : s ≠ blank := fun he => hs.1 (he ▸ List.mem_cons_self)
    rw [List.flatten_singleton, linesFrom_last hs, List.flatMap_singleton,
      checkBlankLines_content (by simpa using hne), blankProblems, if_neg hblank, blankProblems]
  | @cons s r hs h ih =>
    obtain ⟨next, hnext⟩ :=
      linesFrom_line hs (List.not_mem_nil : '\r' ∉ []) (passed + 1) offset before r.flatten
    rw [List.flatten_cons, List.append_assoc, List.cons_append, List.nil_append, hnext,
      List.flatMap_cons, blankProblems]
    by_cases hempty : s = []
    · subst hempty
      rw [if_pos (show [] ++ ['\n'] = blank from rfl)]
      congr 1
      · exact checkBlankLines_blank hbefore h _ _
      · exact ih hbefore.succ (passed + 1) next
    · have hblank : s ++ ['\n'] ≠ blank := by
        intro (he : s ++ ['\n'] = [] ++ ['\n'])
        exact hempty (List.append_cancel_right he)
      rw [if_neg hblank, checkBlankLines_content (by simpa using hempty), List.nil_append]
      have hafter := EndsInRun.ofLine hempty hs before
      rw [List.append_nil]
      exact ih hafter (passed + 1) next

/-- The problems of runs of blank lines of which `passed` lines precede. -/
def runProblems (c : RuleSettings) (passed : Nat) (start : Bool) :
    List (Nat × List Char) → Nat → List Problem
  | [], last => runProblem c (passed + last) start true last
  | (k, _) :: r, last =>
    runProblem c (passed + k) start false k ++ runProblems c (passed + k + 1) false r last

/-- A configuration with limits that are no negative numbers. -/
structure LimitsBlank (c : RuleSettings) : Prop where
  inside : 0 ≤ c.int "max"
  start : 0 ≤ c.int "max-start"
  ended : 0 ≤ c.int "max-end"

theorem LimitsBlank.blankLimit (h : LimitsBlank c) (start ended : Bool) :
    0 ≤ blankLimit c start ended := by
  unfold Rules.blankLimit
  split
  · exact h.ended
  · split
    · exact h.start
    · exact h.inside

theorem LimitsBlank.runProblem_zero (h : LimitsBlank c) (number : Nat) (start ended : Bool) :
    runProblem c number start ended 0 = [] := by
  have hlimit := h.blankLimit start ended
  unfold runProblem
  split
  · rfl
  · rw [if_neg (by omega)]

theorem blankProblems_replicate {rest : FileLines}
    (hrest : rest.head? ≠ some blank) (k passed : Nat) (start : Bool) (run : Nat) :
    blankProblems c passed start run (List.replicate k blank ++ rest) =
      (if k = 0 then [] else runProblem c (passed + k) start rest.isEmpty (run + k))
        ++ blankProblems c (passed + k) start (run + k) rest := by
  induction k generalizing passed run with
  | zero => rfl
  | succ k ih =>
    rw [List.replicate_succ, List.cons_append, blankProblems, if_pos rfl, ih,
      if_neg (Nat.succ_ne_zero k), Nat.add_right_comm passed 1 k, Nat.add_right_comm run 1 k]
    cases k with
    | zero =>
      rw [List.replicate_zero, List.nil_append, if_neg hrest, if_pos rfl]
      rfl
    | succ k =>
      rw [List.replicate_succ, List.cons_append, List.head?_cons, if_pos rfl,
        if_neg (Nat.succ_ne_zero k)]
      rfl

theorem LimitsBlank.blankProblems_ofRuns (h : LimitsBlank c) {runs : List (Nat × List Char)}
    (hruns : ∀ run ∈ runs, run.2 ≠ blank) (last passed : Nat) (start : Bool) :
    blankProblems c passed start 0 (ofRuns runs last) = runProblems c passed start runs last := by
  have hsame (number : Nat) (start ended : Bool) (k : Nat) :
      (if k = 0 then [] else runProblem c number start ended (0 + k)) =
        runProblem c number start ended k := by
    split
    next hk => rw [hk, h.runProblem_zero]
    · rw [Nat.zero_add]
  induction runs generalizing passed start with
  | nil =>
    rw [ofRuns, runProblems, ← List.append_nil (List.replicate last blank),
      blankProblems_replicate (by simp), hsame, blankProblems, List.append_nil]
    rfl
  | cons run runs ih =>
    have hline := hruns run List.mem_cons_self
    rw [ofRuns, runProblems, blankProblems_replicate (by simpa using hline), hsame, blankProblems,
      if_neg hline, ih fun other ho => hruns other (List.mem_cons_of_mem run ho)]
    rfl

/-- The rule reports each run of blank lines that is too long, at its last line. -/
theorem LimitsBlank.check_ofRuns (h : LimitsBlank c) {runs : List (Nat × List Char)}
    (hruns : ∀ run ∈ runs, run.2 ≠ blank) {last : Nat} (hlines : FeedEnded (ofRuns runs last)) :
    (Line.ofList (ofRuns runs last).flatten).flatMap (checkBlankLines c) =
      runProblems c 0 true runs last := by
  rw [← h.blankProblems_ofRuns hruns]
  exact checkBlankLines_lines hlines (.start 0) 0 0

end Rules

end Blueprint
