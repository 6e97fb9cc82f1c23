import Blueprint.Proofs.BlankRuns
import Blueprint.Proofs.VisibleText

/-!
Runs of blank lines in a text with line ends of both kinds. The rule about blank lines looks at a
run as a whole as long as the lines of the run all end in the same way.
-/

namespace Blueprint

inductive LineEnd where
  | feed
  | returnFeed

def LineEnd.chars : LineEnd → List Char
  | feed => ['\n']
  | returnFeed => ['\r', '\n']

namespace Line

/-- A line without content that is not the end of its text. -/
def IsBlank (l : Line) : Prop :=
  l.content = [] ∧ l.rest ≠ []

instance (l : Line) : Decidable l.IsBlank :=
  inferInstanceAs (Decidable (_ ∧ _))

/-- Nothing stands on the lines. -/
def areEmpty (lines : List Line) : Bool :=
  lines.all fun l => l.content.isEmpty && l.rest.isEmpty

/-- Lines with the same line end, which is the first that follows the content of a line. -/
def EndAlike (lines : List Line) : Prop :=
  ∀ l ∈ lines, ∀ l' ∈ lines, l.rest.head? = l'.rest.head?

/-- The lines of a text behind `before`, from number `n` on. -/
inductive Cut : Nat → List Char → List Char → List Line → Prop
  | last {n : Nat} {before s : List Char} (offset : Nat) (hs : '\n' ∉ s) :
    Cut n before s [⟨n, offset, s, before, []⟩]
  | line {n : Nat} {before s text : List Char} {lines : List Line} (offset : Nat) (e : LineEnd)
    (hs : '\n' ∉ s) (hreturn : s.getLast? = some '\r' → e = .returnFeed)
    (h : Cut (n + 1) (e.chars.reverse ++ (s.reverse ++ before)) text lines) :
    Cut n before (s ++ (e.chars ++ text)) (⟨n, offset, s, before, e.chars ++ text⟩ :: lines)

instance (lines : List Line) : Decidable (EndAlike lines) :=
  inferInstanceAs (Decidable (∀ l ∈ lines, ∀ l' ∈ lines, _))

theorem linesFrom_cut {read : List Char} (hread : '\n' ∉ read) (n offset : Nat)
    (before text : List Char) :
    Cut n before (read.reverse ++ text) (linesFrom n offset before read text) := by
  induction text generalizing n offset before read with
  | nil =>
    rw [linesFrom, List.append_nil]
    exact .last offset (by simpa using hread)
  | cons c text ih =>
    by_cases hfeed : c = '\n'
    · subst hfeed
      have hrest := @ih [] List.not_mem_nil (n + 1) (offset + byteCount read + 1)
        ('\n' :: (read ++ before))
      have hplain (content : List Char) (hcontent : ∀ d ∈ content, d ∈ read) :
          '\n' ∉ content.reverse := fun hm => hread (hcontent _ (List.mem_reverse.mp hm))
      by_cases hreturn : read.head? = some '\r'
      · obtain ⟨content, rfl⟩ := List.head?_eq_some_iff.mp hreturn
        have hline := Cut.line offset .returnFeed
          (hplain content fun d hd => List.mem_cons_of_mem _ hd) (fun _ => rfl)
          (by simpa [LineEnd.chars] using hrest)
        simpa [LineEnd.chars, linesFrom] using hline
      · have hline := Cut.line offset .feed (hplain read fun d hd => hd)
          (fun hlast => absurd (List.getLast?_reverse ▸ hlast) hreturn)
          (by simpa [LineEnd.chars] using hrest)
        rw [linesFrom, if_pos rfl]
        · simpa [LineEnd.chars] using hline
        · rintro content rfl
          exact hreturn rfl
    · have hrest := @ih (c :: read)
        (fun hm => (List.mem_cons.mp hm).elim (fun he => hfeed he.symm) hread) n offset before
      rw [Rules.linesFrom_cons hfeed]
      simpa using hrest

theorem ofList_cut (text : List Char) : Cut 1 [] text (ofList text) :=
  @linesFrom_cut [] List.not_mem_nil 1 0 [] text

variable {n : Nat} {before text : List Char} {l : Line} {lines : List Line}

theorem Cut.eq_nil_iff (h : Cut n before text lines) : text = [] ↔ areEmpty lines = true := by
  cases h with
  | last offset hs => simp [areEmpty]
  | line offset e hs hreturn h => cases e <;> simp [areEmpty, LineEnd.chars]

/-- What follows a blank line. -/
theorem Cut.of_blank (h : Cut n before text (l :: lines)) (hl : l.IsBlank) :
    ∃ (e : LineEnd) (rest : List Char) (offset : Nat),
      l = ⟨n, offset, [], before, e.chars ++ rest⟩ ∧
        Cut (n + 1) (e.chars.reverse ++ before) rest lines := by
  cases h with
  | last offset hs => exact absurd rfl hl.2
  | @line _ _ s rest _ offset e hs hreturn h =>
    have hs : s = [] := hl.1
    subst hs
    exact ⟨e, rest, offset, rfl, h⟩

/-- Another line end of the same kind is read where the next line is blank and ends alike. -/
theorem Cut.prefix_iff (h : Cut n before text lines) (e : LineEnd) :
    e.chars <+: text ↔
      ∃ next ∈ lines.head?, next.IsBlank ∧ next.rest.head? = e.chars.head? := by
  cases h with
  | last offset hs =>
    have hnone : ¬ e.chars <+: text := by
      rintro ⟨r, rfl⟩
      cases e <;> simp [LineEnd.chars] at hs
    simp [hnone, IsBlank]
  | @line _ _ s rest _ offset e' hs hreturn h =>
    cases s with
    | nil => cases e <;> cases e' <;> simp [LineEnd.chars, IsBlank]
    | cons d s =>
      have hd : d ≠ '\n' := fun he => hs (he ▸ List.mem_cons_self)
      have hnone : ¬ e.chars <+: d :: (s ++ (e'.chars ++ rest)) := by
        cases e with
        | feed => simpa [LineEnd.chars] using Ne.symm hd
        | returnFeed =>
          cases s with
          | nil =>
            cases e' with
            | feed =>
              rintro ⟨r, hr⟩
              exact LineEnd.noConfusion (hreturn (congrArg some (List.cons.inj hr).1.symm))
            | returnFeed => simp [LineEnd.chars]
          | cons d' s =>
            rintro ⟨r, hr⟩
            have hfeed : '\n' = d' := (List.cons.inj (List.cons.inj hr).2).1
            exact hs (List.mem_cons_of_mem d (hfeed ▸ List.mem_cons_self))
      simp [hnone, IsBlank]

/-- The text before a line that has no blank line before it, last character first. -/
inductive Fresh : Bool → List Char → Prop
  | start : Fresh true []
  | after {before : List Char} (e : LineEnd) (hne : before ≠ []) (hfeed : before.head? ≠ some '\n')
    (hreturn : before.head? = some '\r' → e = .returnFeed) :
    Fresh false (e.chars.reverse ++ before)

theorem Fresh.ofLine {s : List Char} {e : LineEnd} (hne : s ≠ []) (hs : '\n' ∉ s)
    (hreturn : s.getLast? = some '\r' → e = .returnFeed) (before : List Char) :
    Fresh false (e.chars.reverse ++ (s.reverse ++ before)) := by
  have hhead : (s.reverse ++ before).head? = s.getLast? := by
    rw [List.head?_append_of_ne_nil _ (by simpa using hne), List.head?_reverse]
  refine .after e (by simp [hne]) (fun hfeed => hs ?_) (hhead ▸ hreturn)
  exact List.mem_of_getLast? (hhead ▸ hfeed)

theorem Fresh.head {start : Bool} (h : Fresh start before) :
    before = [] ∨ before.head? = some '\n' := by
  cases h with
  | start => exact Or.inl rfl
  | after e => cases e <;> exact Or.inr rfl

/-- A text cut at some line. -/
theorem Cut.split {pre : List Line} (h : Cut n before text (pre ++ lines)) (hlines : lines ≠ [])
    {start : Bool} (hbefore : pre = [] → Fresh start before)
    (hpre : ∀ l ∈ pre.getLast?, ¬ l.IsBlank) :
    ∃ before' text', Cut (n + pre.length) before' text' lines ∧
      Fresh (start && pre.isEmpty) before' := by
  induction pre generalizing n before text start with
  | nil => exact ⟨before, text, h, by simpa using hbefore rfl⟩
  | cons l pre ih =>
    rw [List.cons_append] at h
    generalize hrest : pre ++ lines = after at h
    cases h with
    | last offset hs => exact absurd (List.append_eq_nil_iff.mp hrest).2 hlines
    | @line _ _ s rest _ offset e hs hreturn h =>
      subst hrest
      obtain ⟨before', text', hcut, hfresh⟩ := @ih _ _ _ h false
        (by
          rintro rfl
          refine .ofLine (fun hempty => hpre _ rfl ⟨hempty, ?_⟩) hs hreturn before
          cases e <;> exact List.cons_ne_nil _ _)
        (fun l hl => hpre l (by
          cases pre with
          | nil => nomatch hl
          | cons l' pre => simpa using hl))
      refine ⟨before', text', ?_, by simpa using hfresh⟩
      rw [List.length_cons, Nat.add_comm pre.length 1, ← Nat.add_assoc]
      exact hcut

end Line

namespace Rules

open Line (Cut Fresh IsBlank EndAlike areEmpty)

variable {c : RuleSettings} {n : Nat} {before text : List Char} {l : Line} {lines : List Line}
  {start : Bool}

theorem countReturns_of_head {s : List Char} (h : s.head? ≠ some '\n') :
    countReturns s = (0, s) := by
  unfold countReturns
  split
  · exact absurd rfl h
  · rfl

theorem lineEndsBefore_returns (s : List Char) :
    lineEndsBefore ('\n' :: '\r' :: s) = ((lineEndsBefore s).1 + 1, (lineEndsBefore s).2) := by
  unfold lineEndsBefore
  rw [countReturns]
  dsimp only
  rw [Nat.add_right_comm]

theorem lineEndsBefore_feeds {j : Nat} {s : List Char} (hfeed : s.head? ≠ some '\n')
    (hreturn : j = 1 → s.head? ≠ some '\r') :
    lineEndsBefore (List.replicate j '\n' ++ s) = (j, s.isEmpty) := by
  have hnone : countReturns (List.replicate j '\n' ++ s) = (0, List.replicate j '\n' ++ s) := by
    cases j with
    | zero => exact countReturns_of_head hfeed
    | succ j =>
      refine countReturns_of_feed ?_
      cases j with
      | zero => simpa [List.head?_eq_getElem?] using hreturn rfl
      | succ j => simp [List.replicate_succ]
  unfold lineEndsBefore
  rw [hnone]
  dsimp only
  rw [countFeeds_replicate j hfeed, Nat.zero_add]

/-- The rule counts the line ends before a line; the first line of a text has none before it. -/
theorem lineEndsBefore_fresh (h : Fresh start before) :
    lineEndsBefore before = (if start then 0 else 1, start) := by
  cases h with
  | start => rfl
  | @after before e hne hfeed hreturn =>
    have hempty : before.isEmpty = false := List.isEmpty_eq_false_iff.mpr hne
    cases e with
    | feed =>
      have hone := lineEndsBefore_feeds (j := 1) hfeed fun _ hr => nomatch hreturn hr
      rw [hempty] at hone
      exact hone
    | returnFeed =>
      have hzero := lineEndsBefore_feeds (j := 0) hfeed fun hj => nomatch hj
      rw [hempty, List.replicate_zero, List.nil_append] at hzero
      have hone := lineEndsBefore_returns before
      rw [hzero] at hone
      exact hone

/-- Blank lines that all end alike are counted. -/
theorem lineEndsBefore_run (h : Fresh start before) (e : LineEnd) (j : Nat) :
    lineEndsBefore ((List.replicate j e.chars.reverse).flatten ++ before) =
      (if start then j else j + 1, start) := by
  cases e with
  | returnFeed =>
    induction j with
    | zero => exact lineEndsBefore_fresh h
    | succ j ih =>
      have hreturns := lineEndsBefore_returns
        ((List.replicate j LineEnd.returnFeed.chars.reverse).flatten ++ before)
      rw [ih] at hreturns
      cases start <;> exact hreturns
  | feed =>
    cases j with
    | zero => exact lineEndsBefore_fresh h
    | succ j =>
      have hflat : (List.replicate (j + 1) LineEnd.feed.chars.reverse).flatten =
          List.replicate (j + 1) '\n' := by
        simp [LineEnd.chars]
      rw [hflat]
      cases h with
      | start => exact lineEndsBefore_feeds (by simp) (by simp)
      | @after before e hne hfeed hreturn =>
        have hempty : before.isEmpty = false := List.isEmpty_eq_false_iff.mpr hne
        cases e with
        | feed =>
          have hmore := lineEndsBefore_feeds (j := j + 2) hfeed (by omega)
          rw [hempty, List.replicate_succ', List.append_assoc] at hmore
          exact hmore
        | returnFeed =>
          have hmore := lineEndsBefore_feeds (j := j + 2) (s := '\r' :: before) (by simp) (by omega)
          rw [List.replicate_succ', List.append_assoc] at hmore
          exact hmore

theorem blankFollows_iff (e : LineEnd) (rest : List Char) :
    blankFollows (e.chars ++ rest) = true ↔ e.chars <+: rest := by
  have hafter (start s : List Char) : (Text.after? start s).isSome = true ↔ start <+: s := by
    rw [Option.isSome_iff_exists]
    exact ⟨fun ⟨r, hr⟩ => ⟨r, (Text.after?_eq_some.mp hr).symm⟩,
      fun ⟨r, hr⟩ => ⟨r, Text.after?_eq_some.mpr hr.symm⟩⟩
  unfold blankFollows
  rw [Bool.or_eq_true, hafter, hafter]
  cases e <;> simp [LineEnd.chars]

theorem isLast_eq (h : Cut n before text lines) (e : LineEnd) :
    (e.chars ++ text == ['\n'] || e.chars ++ text == ['\r', '\n']) = areEmpty lines := by
  rw [Bool.eq_iff_iff, ← h.eq_nil_iff]
  cases e <;> simp [LineEnd.chars]

/-- What the rule says of a blank line behind `j` others that all end alike. -/
theorem checkBlankLines_cut (hfresh : Fresh start before) {e : LineEnd} {j : Nat}
    (h : Cut n ((List.replicate j e.chars.reverse).flatten ++ before) text (l :: lines))
    (hl : l.IsBlank) :
    checkBlankLines c l =
      if blankFollows l.rest then [] else runProblem c n start (areEmpty lines) (j + 1) := by
  obtain ⟨e', rest, offset, rfl, hrest⟩ := h.of_blank hl
  have hempty : ((List.replicate j e.chars.reverse).flatten ++ before).isEmpty =
      (start && j == 0) := by
    cases j with
    | zero =>
      cases hfresh with
      | start => rfl
      | after e' => cases e' <;> rfl
    | succ j => cases e <;> simp [LineEnd.chars, List.replicate_succ]
  have hne : (e'.chars ++ rest).isEmpty = false := by
    cases e' <;> rfl
  have hcount : (if start = true then (if start = true then j else j + 1) + 1
      else if start = true then j else j + 1) = j + 1 := by
    cases start <;> rfl
  unfold checkBlankLines
  dsimp only
  rw [lineEndsBefore_run hfresh, isLast_eq hrest, hempty, hne]
  dsimp only
  rw [hcount]
  cases blankFollows (e'.chars ++ rest) with
  | true => rfl
  | false =>
    rw [if_neg (by simp), if_neg Bool.false_ne_true]
    unfold runProblem blankLimit tooManyBlank
    have honly : (areEmpty lines && (start && j == 0)) = (start && areEmpty lines && j + 1 == 1) := by
      cases start <;> cases areEmpty lines <;> simp
    rw [honly]

/-- A run of blank lines that all end alike is reported as a whole, at its last line. -/
theorem checkBlankLines_run (hfresh : Fresh start before) {e : LineEnd} {j : Nat}
    {run : List Line}
    (h : Cut n ((List.replicate j e.chars.reverse).flatten ++ before) text (run ++ lines))
    (hne : run ≠ []) (hrun : ∀ l ∈ run, l.IsBlank ∧ l.rest.head? = e.chars.head?)
    (hlines : ∀ l ∈ lines.head?, ¬ l.IsBlank) :
    run.flatMap (checkBlankLines c) =
      runProblem c (n + run.length - 1) start (areEmpty lines) (j + run.length) := by
  induction run generalizing n j text with
  | nil => exact absurd rfl hne
  | cons l run ih =>
    obtain ⟨hl, hend⟩ := hrun l List.mem_cons_self
    have hcheck := checkBlankLines_cut (c := c) hfresh h hl
    obtain ⟨e', rest, offset, rfl, hrest⟩ := h.of_blank hl
    have he : e' = e := by
      cases e' <;> cases e <;> first | rfl | simp [LineEnd.chars] at hend
    subst he
    have hfollows := (blankFollows_iff e' rest).trans (hrest.prefix_iff e')
    rw [List.flatMap_cons, hcheck]
    cases run with
    | nil =>
      rw [if_neg]
      · simp
      · rw [hfollows]
        rintro ⟨next, hnext, hblank, -⟩
        exact hlines next hnext hblank
    | cons next run =>
      obtain ⟨hnext, hsame⟩ := hrun next (List.mem_cons_of_mem _ List.mem_cons_self)
      rw [if_pos (hfollows.mpr ⟨next, rfl, hnext, hsame⟩), List.nil_append]
      rw [← List.append_assoc, ← List.flatten_cons, ← List.replicate_succ] at hrest
      rw [ih hrest (List.cons_ne_nil _ _) (fun l hl => hrun l (List.mem_cons_of_mem _ hl))]
      simp only [List.length_cons]
      congr 1 <;> omega

/-- A configuration that allows no blank lines. -/
def noBlankLines : RuleSettings where
  level := .error
  options := [("max", .int 0), ("max-start", .int 0), ("max-end", .int 0)]

theorem noBlankLines_limits : LimitsBlank noBlankLines :=
  ⟨Int.le_refl 0, Int.le_refl 0, Int.le_refl 0⟩

theorem lineEndsBefore_pos {s : List Char} (h : s.head? = some '\n') :
    0 < (lineEndsBefore s).1 := by
  obtain ⟨r, rfl⟩ := List.head?_eq_some_iff.mp h
  unfold lineEndsBefore
  by_cases hreturn : r.head? = some '\r'
  · obtain ⟨r, rfl⟩ := List.head?_eq_some_iff.mp hreturn
    rw [countReturns]
    exact Nat.lt_of_lt_of_le (Nat.succ_pos _) (Nat.le_add_right _ _)
  · rw [countReturns_of_feed (by simpa [List.head?_eq_getElem?] using hreturn)]
    dsimp only
    rw [countFeeds, Nat.zero_add]
    exact Nat.succ_pos _

/-- Where no blank lines are allowed, each line is reported that is not followed by another one that
ends alike, the only line of a text apart. -/
theorem checkBlankLines_noBlankLines {number offset : Nat} {rest : List Char} (e : LineEnd)
    (hfollows : blankFollows (e.chars ++ rest) = false)
    (hbefore : before.head? = some '\n' ∨ before = [] ∧ rest ≠ []) :
    checkBlankLines noBlankLines ⟨number, offset, [], before, e.chars ++ rest⟩ ≠ [] := by
  have hne : (e.chars ++ rest).isEmpty = false := by
    cases e <;> rfl
  have honly : ((e.chars ++ rest == ['\n'] || e.chars ++ rest == ['\r', '\n']) &&
      before.isEmpty) = false := by
    rcases hbefore with hbefore | ⟨-, hrest⟩
    · obtain ⟨r, rfl⟩ := List.head?_eq_some_iff.mp hbefore
      exact Bool.and_false _
    · cases e <;> simp [LineEnd.chars, hrest]
  have hcount : 0 < (if (lineEndsBefore before).2 then (lineEndsBefore before).1 + 1
      else (lineEndsBefore before).1) := by
    rcases hbefore with hbefore | ⟨rfl, -⟩
    · have hpos := lineEndsBefore_pos hbefore
      split
      · exact Nat.succ_pos _
      · exact hpos
    · exact Nat.one_pos
  have hzero : noBlankLines.int "max" = 0 ∧ noBlankLines.int "max-start" = 0 ∧
      noBlankLines.int "max-end" = 0 := ⟨rfl, rfl, rfl⟩
  unfold checkBlankLines
  dsimp only
  rw [hfollows, hne, honly, hzero.1, hzero.2.1, hzero.2.2, ite_self, ite_self,
    if_neg (by simp), if_neg Bool.false_ne_true, if_pos (Int.natCast_pos.mpr hcount)]
  exact List.cons_ne_nil _ _

/-- The last line of a run is reported. -/
theorem flatMap_noBlankLines_ne_nil {run : List Line} (h : Cut n before text (run ++ lines))
    (hne : run ≠ []) (hrun : ∀ l ∈ run, l.IsBlank) (hlines : ∀ l ∈ lines.head?, ¬ l.IsBlank)
    (hbefore : before.head? = some '\n') :
    run.flatMap (checkBlankLines noBlankLines) ≠ [] := by
  induction run generalizing n before text with
  | nil => exact absurd rfl hne
  | cons l run ih =>
    obtain ⟨e, rest, offset, rfl, hrest⟩ := h.of_blank (hrun l List.mem_cons_self)
    rw [List.flatMap_cons]
    cases run with
    | nil =>
      refine List.append_ne_nil_of_left_ne_nil (checkBlankLines_noBlankLines e ?_ (Or.inl hbefore)) _
      rw [Bool.eq_false_iff, ne_eq, blankFollows_iff, hrest.prefix_iff]
      rintro ⟨next, hnext, hblank, -⟩
      exact hlines next hnext hblank
    | cons next run =>
      exact List.append_ne_nil_of_right_ne_nil _ (ih hrest (List.cons_ne_nil _ _)
        (fun l hl => hrun l (List.mem_cons_of_mem _ hl)) (by cases e <;> rfl))

/-- Where no blank lines are allowed, a run whose lines end differently is reported twice. -/
theorem two_le_length_noBlankLines {run : List Line} (h : Cut n before text (run ++ lines))
    (hmixed : ¬ EndAlike run) (hrun : ∀ l ∈ run, l.IsBlank)
    (hlines : ∀ l ∈ lines.head?, ¬ l.IsBlank)
    (hbefore : before = [] ∨ before.head? = some '\n') :
    2 ≤ (run.flatMap (checkBlankLines noBlankLines)).length := by
  induction run generalizing n before text with
  | nil => exact absurd (fun l hl => nomatch hl) hmixed
  | cons l run ih =>
    obtain ⟨e, rest, offset, rfl, hrest⟩ := h.of_blank (hrun l List.mem_cons_self)
    cases run with
    | nil =>
      refine absurd (fun l hl l' hl' => ?_) hmixed
      rw [List.mem_singleton.mp hl, List.mem_singleton.mp hl']
    | cons next run =>
      have htail (l : Line) (hl : l ∈ next :: run) : l.IsBlank :=
        hrun l (List.mem_cons_of_mem _ hl)
      have hfeed : (e.chars.reverse ++ before).head? = some '\n' := by
        cases e <;> rfl
      rw [List.flatMap_cons, List.length_append]
      by_cases hsame : next.rest.head? = e.chars.head?
      · have hmore := ih hrest (fun halike => hmixed ?_) htail (Or.inr hfeed)
        · omega
        · have hnext (l : Line) (hl : l ∈ next :: run) : l.rest.head? = e.chars.head? :=
            (halike l hl next List.mem_cons_self).trans hsame
          have hall : ∀ l ∈ ⟨n, offset, [], before, e.chars ++ rest⟩ :: next :: run,
              l.rest.head? = e.chars.head? := by
            intro l hl
            rcases List.mem_cons.mp hl with rfl | hl
            · cases e <;> rfl
            · exact hnext l hl
          exact fun l hl l' hl' => (hall l hl).trans (hall l' hl').symm
      · have hfirst := @checkBlankLines_noBlankLines before n offset rest e
          (by
            rw [Bool.eq_false_iff, ne_eq, blankFollows_iff, hrest.prefix_iff]
            rintro ⟨next', hnext, -, hsame'⟩
            cases hnext
            exact hsame hsame')
          (hbefore.symm.imp_right fun hnil => ⟨hnil, fun hempty => ?_⟩)
        · have hlast := flatMap_noBlankLines_ne_nil hrest (List.cons_ne_nil _ _) htail hlines hfeed
          have hfirst := List.length_pos_iff.mpr hfirst
          have hlast := List.length_pos_iff.mpr hlast
          omega
        · have hnext := (htail next List.mem_cons_self).2
          have hempty := hrest.eq_nil_iff.mp hempty
          simp [areEmpty, hnext] at hempty

/-- A run of blank lines among the lines of a text, with the lines before and behind it. -/
structure BlankRun (text : List Char) (pre run post : List Line) : Prop where
  lines : Line.ofList text = pre ++ (run ++ post)
  ne_nil : run ≠ []
  blank : ∀ l ∈ run, l.IsBlank
  before : ∀ l ∈ pre.getLast?, ¬ l.IsBlank
  behind : ∀ l ∈ post.head?, ¬ l.IsBlank

theorem runProblem_length_le (c : RuleSettings) (number : Nat) (start ended : Bool) (run : Nat) :
    (runProblem c number start ended run).length ≤ 1 := by
  unfold runProblem
  split
  · exact Nat.zero_le 1
  · split
    · exact Nat.le_refl 1
    · exact Nat.zero_le 1

/-- The rule reports a run at its last line with its length and the limit for its place, whatever
the limits are, exactly if the lines of the run all end alike. -/
theorem checkBlankLines_reports_run {pre run post : List Line}
    (h : BlankRun text pre run post) :
    (∀ c, LimitsBlank c →
      run.flatMap (checkBlankLines c) =
        runProblem c (pre.length + run.length) pre.isEmpty (areEmpty post) run.length) ↔
      EndAlike run := by
  have hcut := Line.ofList_cut text
  rw [h.lines] at hcut
  obtain ⟨before, rest, hcut, hfresh⟩ := hcut.split
    (List.append_ne_nil_of_left_ne_nil h.ne_nil post) (fun _ => .start) h.before
  rw [Bool.true_and] at hfresh
  constructor
  · intro hreported
    by_contra hmixed
    have htwo := two_le_length_noBlankLines hcut hmixed h.blank h.behind hfresh.head
    rw [hreported noBlankLines noBlankLines_limits] at htwo
    exact absurd (runProblem_length_le _ _ _ _ _) (Nat.not_le_of_lt htwo)
  · intro halike c _
    obtain ⟨l, r, hrun⟩ := List.exists_cons_of_ne_nil h.ne_nil
    have hl : l ∈ run := hrun ▸ List.mem_cons_self
    obtain ⟨e, he⟩ : ∃ e : LineEnd, l.rest.head? = e.chars.head? := by
      have hcut := hcut
      rw [hrun] at hcut
      obtain ⟨e, rest, offset, rfl, -⟩ := hcut.of_blank (h.blank l hl)
      exact ⟨e, by cases e <;> rfl⟩
    have hcheck := checkBlankLines_run (c := c) (j := 0) (e := e) hfresh hcut h.ne_nil
      (fun l' hl' => ⟨h.blank l' hl', (halike l' hl' l hl).trans he⟩) h.behind
    rw [hcheck, Nat.zero_add]
    congr 1
    omega

/-- Three blank lines that end in line feeds, behind a line that does not. -/
theorem checkBlankLines_reports_run_of_feeds :
    let lines := Line.ofList "a\r\n\n\n\nb\n".toList
    let run := (lines.drop 1).take 3
    run.flatMap (checkBlankLines emptyLines.defaults) = [tooManyBlank 4 3 1] := by
  intro lines run
  have h : BlankRun "a\r\n\n\n\nb\n".toList (lines.take 1) run (lines.drop 4) :=
    ⟨rfl, List.cons_ne_nil _ _, by decide, by decide, by decide⟩
  exact (checkBlankLines_reports_run h).mpr (by decide) emptyLines.defaults
    ⟨by decide, by decide, by decide⟩

/-- Four blank lines between two others, which are reported twice and miscounted. -/
theorem checkBlankLines_splits_run :
    let text := "a\n\r\n\r\n\n\nb\n".toList
    let lines := Line.ofList text
    let run := (lines.drop 1).take 4
    BlankRun text (lines.take 1) run (lines.drop 5) ∧
      run.flatMap (checkBlankLines emptyLines.defaults) = [tooManyBlank 3 2 1, tooManyBlank 5 2 1] ∧
        runProblem emptyLines.defaults 5 false false 4 = [tooManyBlank 5 4 1] := by
  intro text lines run
  exact ⟨⟨rfl, List.cons_ne_nil _ _, by decide, by decide, by decide⟩, by decide, by decide⟩

end Rules

end Blueprint
