import Mathlib.Data.Nat.Digits.Defs
import Blueprint.Fix.Lines
import Blueprint.Proofs.BlankRuns
import Blueprint.Proofs.RepairRun
import Blueprint.Proofs.ShiftRecord

/-!
The numbers in a message about blank lines: a repair reads back what the message was made of.
-/

namespace Blueprint

namespace Number

theorem digitValue?_of_isDigit {c : Char} (h : c.isDigit = true) :
    digitValue? 10 c = some (c.toNat - '0'.toNat) := by
  have hrange : '0' ≤ c ∧ c ≤ '9' := by
    unfold Char.isDigit at h
    simp only [Bool.and_eq_true, decide_eq_true_eq] at h
    exact h
  have hlow : 48 ≤ c.toNat := hrange.1
  have hhigh : c.toNat ≤ 57 := hrange.2
  have hvalue : c.toNat - '0'.toNat < 10 := by
    show c.toNat - 48 < 10
    omega
  unfold digitValue?
  rw [if_pos hrange]
  dsimp only
  rw [Option.filter_some, if_pos (decide_eq_true hvalue)]

theorem readFrom?_of_digits {digits : List Char} (h : ∀ c ∈ digits, c.isDigit = true)
    (value : Nat) : readFrom? 10 value digits = some (Nat.ofDigitChars 10 digits value) := by
  induction digits generalizing value with
  | nil => rfl
  | cons c digits ih =>
    rw [readFrom?, digitValue?_of_isDigit (h c List.mem_cons_self), Option.bind_some,
      ih fun d hd => h d (List.mem_cons_of_mem c hd), Nat.ofDigitChars_cons]

theorem isDigit_of_mem_toDigits {n : Nat} {c : Char} (h : c ∈ Nat.toDigits 10 n) :
    c.isDigit = true :=
  Nat.isDigit_of_mem_toDigits (by decide) (by decide) h

/-- What the digits of a number are read back as. -/
theorem natural?_toDigits (n : Nat) : natural? 10 (Nat.toDigits 10 n) = some n := by
  unfold natural?
  rw [if_neg (by simp), readFrom?_of_digits fun c => isDigit_of_mem_toDigits,
    Nat.ofDigitChars_ten_toDigits]

theorem natural64?_toDigits {n : Nat} (h : n < natural64Limit) :
    natural64? (Nat.toDigits 10 n) = some n := by
  have hread : (natural? 10 (Nat.toDigits 10 n)).filter (· < natural64Limit) = some n := by
    rw [natural?_toDigits, Option.filter_some, if_pos (decide_eq_true h)]
  unfold natural64?
  split
  next r hsign =>
    have hplus : '+'.isDigit = true :=
      isDigit_of_mem_toDigits (n := n) (by rw [hsign]; exact List.mem_cons_self)
    exact absurd hplus (by decide)
  · exact hread

end Number

namespace FileLines

theorem isAnyDigit_of_mem_toDigits {n : Nat} {c : Char} (h : c ∈ Nat.toDigits 10 n) :
    Text.isAnyDigit c = true := by
  have hdigit := Number.isDigit_of_mem_toDigits h
  have hrange : c.toNat < 128 := by
    unfold Char.isDigit at hdigit
    simp only [Bool.and_eq_true, decide_eq_true_eq] at hdigit
    have hhigh : c.toNat ≤ 57 := hdigit.2
    omega
  unfold Text.isAnyDigit
  rw [if_pos hrange]
  exact hdigit

/-- Digits before a character that is none are taken off as a whole. -/
theorem digits_span (n : Nat) {c : Char} (hc : Text.isAnyDigit c = false) (rest : List Char) :
    (Nat.toDigits 10 n ++ c :: rest).takeWhile Text.isAnyDigit = Nat.toDigits 10 n ∧
      (Nat.toDigits 10 n ++ c :: rest).dropWhile Text.isAnyDigit = c :: rest := by
  have hall : ∀ d ∈ Nat.toDigits 10 n, Text.isAnyDigit d = true := fun d =>
    isAnyDigit_of_mem_toDigits
  constructor
  · rw [List.takeWhile_append_of_pos hall, List.takeWhile_cons_of_neg (by rw [hc]; decide),
      List.append_nil]
  · rw [List.dropWhile_append_of_pos hall, List.dropWhile_cons_of_neg (by rw [hc]; decide)]

theorem excessHere?_digits (found allowed : Nat) (rest : List Char) :
    excessHere? ('(' :: (Nat.toDigits 10 found ++
        ' ' :: '>' :: ' ' :: (Nat.toDigits 10 allowed ++ ')' :: rest))) =
      some (Nat.toDigits 10 found, Nat.toDigits 10 allowed) := by
  have hne (n : Nat) : (Nat.toDigits 10 n).isEmpty = false := by
    simp
  obtain ⟨htake, hdrop⟩ := digits_span found (c := ' ') (by decide)
    ('>' :: ' ' :: (Nat.toDigits 10 allowed ++ ')' :: rest))
  obtain ⟨htake', hdrop'⟩ := digits_span allowed (c := ')') (by decide) rest
  have hafter : Text.after? " > ".toList
      (' ' :: '>' :: ' ' :: (Nat.toDigits 10 allowed ++ ')' :: rest)) =
        some (Nat.toDigits 10 allowed ++ ')' :: rest) := rfl
  rw [excessHere?]
  dsimp only
  rw [htake, hdrop, hafter]
  dsimp only
  rw [htake', hdrop', hne, hne]
  rfl

/-- What stands before the first parenthesis is passed over. -/
theorem excess?_append {s : List Char} (hs : '(' ∉ s) (rest : List Char) :
    excess? (s ++ rest) = excess? rest := by
  induction s with
  | nil => rfl
  | cons c s ih =>
    have hc : c ≠ '(' := fun h => hs (h ▸ List.mem_cons_self)
    have hhere : excessHere? (c :: (s ++ rest)) = none := by
      unfold excessHere?
      split
      next heq => exact absurd (List.cons.inj heq).1 hc
      · rfl
    rw [List.cons_append, excess?, hhere, Option.none_or,
      ih fun h => hs (List.mem_cons_of_mem c h)]

/-- The message about a run of blank lines says how many of them are too many. -/
theorem excessOf?_message {found allowed : Nat} (hfound : found < Number.natural64Limit)
    (hallowed : allowed < found) :
    excessOf? ("too many blank lines (" ++ toString found ++ " > " ++ toString (allowed : Int)
      ++ ")") = some (found - allowed) := by
  have hint : toString (allowed : Int) = toString allowed := rfl
  have hlist : ("too many blank lines (" ++ toString found ++ " > " ++ toString (allowed : Int)
      ++ ")").toList = "too many blank lines ".toList ++ '(' :: (Nat.toDigits 10 found ++
        ' ' :: '>' :: ' ' :: (Nat.toDigits 10 allowed ++ [')'])) := by
    rw [hint, Nat.toString_eq_ofList_toDigits, Nat.toString_eq_ofList_toDigits]
    simp [String.toList_append]
  have hexcess : excess? ("too many blank lines (" ++ toString found ++ " > "
      ++ toString (allowed : Int) ++ ")").toList =
        some (Nat.toDigits 10 found, Nat.toDigits 10 allowed) := by
    rw [hlist, excess?_append (by decide), excess?, excessHere?_digits, Option.some_or]
  unfold excessOf?
  rw [hexcess]
  show (Number.natural64? (Nat.toDigits 10 found)).bind (fun a =>
    (Number.natural64? (Nat.toDigits 10 allowed)).bind fun b => some (a - b)) = _
  rw [Number.natural64?_toDigits hfound, Number.natural64?_toDigits (Nat.lt_trans hallowed hfound)]
  rfl

end FileLines

end Blueprint

/-!
Repairing runs of blank lines. Each run that is reported is cut down to its limit, the lines between
the runs stay, and nothing is left to report.
-/

namespace Blueprint

theorem sortBy_of_pairwise {α : Type} {before : α → α → Bool} {xs : List α}
    (h : xs.Pairwise fun a b => before b a = false) : sortBy before xs = xs := by
  have hlast (x : α) (sorted : List α) (hx : ∀ y ∈ sorted, before x y = false) :
      insertSorted before x sorted = sorted ++ [x] := by
    induction sorted with
    | nil => rfl
    | cons y sorted ih =>
      rw [insertSorted, if_neg (Bool.eq_false_iff.mp (hx y List.mem_cons_self)),
        ih fun z hz => hx z (List.mem_cons_of_mem y hz)]
      rfl
  have key (sorted : List α) (hs : ∀ x ∈ xs, ∀ y ∈ sorted, before x y = false) :
      xs.foldl (fun sorted x => insertSorted before x sorted) sorted = sorted ++ xs := by
    induction xs generalizing sorted with
    | nil => exact (List.append_nil sorted).symm
    | cons x xs ih =>
      obtain ⟨hx, hxs⟩ := List.pairwise_cons.mp h
      rw [List.foldl_cons, hlast x sorted (hs x List.mem_cons_self), ih hxs,
        List.append_assoc, List.cons_append, List.nil_append]
      intro z hz y hy
      rcases List.mem_append.mp hy with hy | hy
      · exact hs z (List.mem_cons_of_mem x hz) y hy
      · rw [List.mem_singleton.mp hy]
        exact hx z hz
  exact key [] fun _ _ _ hy => absurd hy List.not_mem_nil

namespace Rules

open FileLines (blank FeedEnded ofRuns)

variable {c : RuleSettings}

/-- How many lines of a run stay. -/
def keptBlank (c : RuleSettings) (start ended : Bool) (run : Nat) : Nat :=
  if start && ended && run == 1 then 1 else min run (blankLimit c start ended).toNat

/-- Runs of blank lines cut down to their limits. -/
def cutRuns (c : RuleSettings) (start : Bool) :
    List (Nat × List Char) → Nat → List (Nat × List Char) × Nat
  | [], last => ([], keptBlank c start true last)
  | (k, line) :: r, last =>
    ((keptBlank c start false k, line) :: (cutRuns c false r last).1, (cutRuns c false r last).2)

/-- The lines with their runs of blank lines cut down. -/
def cutLines (c : RuleSettings) (start : Bool) (runs : List (Nat × List Char)) (last : Nat) :
    FileLines :=
  ofRuns (cutRuns c start runs last).1 (cutRuns c start runs last).2

theorem keptBlank_zero (c : RuleSettings) (start ended : Bool) : keptBlank c start ended 0 = 0 := by
  unfold keptBlank
  split
  next h => simp at h
  · exact Nat.zero_min _

theorem cutLines_nil (c : RuleSettings) (start : Bool) (last : Nat) :
    cutLines c start [] last = List.replicate (keptBlank c start true last) blank := rfl

theorem cutLines_cons (c : RuleSettings) (start : Bool) (k : Nat) (line : List Char)
    (r : List (Nat × List Char)) (last : Nat) :
    cutLines c start ((k, line) :: r) last =
      List.replicate (keptBlank c start false k) blank ++ line :: cutLines c false r last := rfl

/-- A run that has been cut down is not reported. -/
theorem LimitsBlank.runProblem_kept (h : LimitsBlank c) (number : Nat) (start ended : Bool)
    (run : Nat) : runProblem c number start ended (keptBlank c start ended run) = [] := by
  have hlimit := h.blankLimit start ended
  unfold keptBlank
  split
  next hone =>
    rw [runProblem, if_pos]
    simp only [Bool.and_eq_true] at hone ⊢
    exact ⟨hone.1, rfl⟩
  · unfold runProblem
    split
    · rfl
    · rw [if_neg (by omega)]

theorem LimitsBlank.runProblems_cut (h : LimitsBlank c) (runs : List (Nat × List Char))
    (last passed : Nat) (start : Bool) :
    runProblems c passed start (cutRuns c start runs last).1 (cutRuns c start runs last).2 = [] := by
  induction runs generalizing passed start with
  | nil => exact h.runProblem_kept _ start true last
  | cons run runs ih =>
    rw [cutRuns, runProblems, h.runProblem_kept, ih]
    rfl

theorem cutRuns_lines (c : RuleSettings) (start : Bool) (runs : List (Nat × List Char))
    (last : Nat) : (cutRuns c start runs last).1.map (·.2) = runs.map (·.2) := by
  induction runs generalizing start with
  | nil => rfl
  | cons run runs ih => rw [cutRuns, List.map_cons, List.map_cons, ih]

theorem cutLines_feedEnded {runs : List (Nat × List Char)} {last : Nat}
    (h : FeedEnded (ofRuns runs last)) (start : Bool) : FeedEnded (cutLines c start runs last) := by
  induction runs generalizing start with
  | nil =>
    rw [cutLines_nil, ← List.append_nil (List.replicate _ blank)]
    exact FeedEnded.nil.replicate_append _
  | cons run runs ih =>
    obtain ⟨k, line⟩ := run
    have hline : FeedEnded (line :: ofRuns runs last) := h.of_replicate_append
    rw [cutLines_cons]
    refine (hline.replace (ih hline.of_cons false) fun hnil => ?_).replicate_append _
    cases runs with
    | nil =>
      have hlast : last = 0 := by simpa [ofRuns] using hnil
      rw [hlast, cutLines_nil, keptBlank_zero]
      rfl
    | cons other runs =>
      obtain ⟨j, line'⟩ := other
      exact absurd hnil (List.append_ne_nil_of_right_ne_nil _ (List.cons_ne_nil _ _))

/-- The lines that are not blank are those between the runs. -/
theorem filter_ofRuns {runs : List (Nat × List Char)} {last : Nat}
    (hlines : FeedEnded (ofRuns runs last)) (hruns : ∀ run ∈ runs, run.2 ≠ blank) :
    (ofRuns runs last).filter (!FileLines.isBlankLine ·) = runs.map (·.2) := by
  have hblank (k : Nat) :
      (List.replicate k blank).filter (fun line => !FileLines.isBlankLine line) = [] := by
    refine List.filter_eq_nil_iff.mpr fun line hline => ?_
    rw [List.eq_of_mem_replicate hline]
    decide
  induction runs with
  | nil => exact hblank last
  | cons run runs ih =>
    obtain ⟨k, line⟩ := run
    have hrest : FeedEnded (line :: ofRuns runs last) := hlines.of_replicate_append
    have hkept : (!FileLines.isBlankLine line) = true := by
      rw [hrest.isBlankLine_head (hruns _ List.mem_cons_self)]
      rfl
    rw [ofRuns, List.filter_append, hblank, List.nil_append, List.filter_cons, if_pos hkept,
      ih hrest.of_cons fun other ho => hruns other (List.mem_cons_of_mem _ ho)]
    rfl

end Rules

namespace Fix

open FileLines (blank FeedEnded ofRuns)
open Rules (LimitsBlank blankLimit keptBlank cutLines runProblem runProblems checkBlankLines)

/-- Of the blank lines of a run as many are removed as a message finds too many. -/
theorem removeBlank_run {lines before rest : FileLines} {k excess index : Nat} {message : String}
    (hlines : lines = before ++ (List.replicate k blank ++ rest))
    (hindex : index + 1 = before.length + k)
    (hexcess : FileLines.excessOf? message = some excess) (hpos : 0 < excess) (hle : excess ≤ k) :
    lines.removeBlank message index =
      some (before ++ (List.replicate (k - excess) blank ++ rest), -(excess : Int)) := by
  have htake : lines.take (index + 1) = before ++ List.replicate k blank := by
    rw [hlines, hindex, ← List.append_assoc]
    exact List.take_left' (by simp)
  have hdrop : lines.drop (index + 1) = rest := by
    rw [hlines, hindex, ← List.append_assoc]
    exact List.drop_left' (by simp)
  have hrun : excess ≤
      ((lines.take (index + 1)).reverse.takeWhile FileLines.isBlankLine).length := by
    have hblank : ∀ line ∈ List.replicate k blank, FileLines.isBlankLine line = true := by
      intro line hline
      rw [List.eq_of_mem_replicate hline]
      decide
    rw [htake, List.reverse_append, List.reverse_replicate, List.takeWhile_append_of_pos hblank,
      List.length_append, List.length_replicate]
    omega
  have hcut : lines.take (index + 1 - excess) = before ++ List.replicate (k - excess) blank := by
    have hshort : index + 1 - excess = before.length + (k - excess) := by omega
    rw [hshort, hlines, List.take_length_add_append, List.take_append_of_le_length (by simp),
      List.take_replicate, Nat.min_eq_left (Nat.sub_le k excess)]
  unfold FileLines.removeBlank
  rw [hexcess, Option.bind_some]
  dsimp only
  rw [Nat.min_eq_right hrun, if_neg (Nat.ne_of_gt hpos), hcut, hdrop, List.append_assoc]

/-- So does the repair of a problem. -/
theorem apply_run {lines before rest : FileLines} {k excess index : Nat} {p : Problem}
    (hlines : lines = before ++ (List.replicate k blank ++ rest))
    (hindex : index + 1 = before.length + k) (hrule : p.rule = "empty-lines")
    (hrepair : p.repair = none) (hexcess : FileLines.excessOf? p.message = some excess)
    (hpos : 0 < excess) (hle : excess ≤ k) :
    apply p lines index =
      some (some (before ++ (List.replicate (k - excess) blank ++ rest), -(excess : Int))) := by
  have hin : ¬lines.length ≤ index := by
    rw [hlines]
    simp
    omega
  unfold apply
  rw [if_neg hin, hrepair]
  dsimp only
  unfold ofRule
  rw [hrule]
  exact congrArg some (removeBlank_run hlines hindex hexcess hpos hle)

theorem Draft.repair?_run {d : Draft} {before rest : FileLines} {k excess : Nat} {p : Problem}
    (hlines : d.lines = before ++ (List.replicate k blank ++ rest))
    (hindex : d.index p + 1 = before.length + k) (hrule : p.rule = "empty-lines")
    (hrepair : p.repair = none) (hexcess : FileLines.excessOf? p.message = some excess)
    (hpos : 0 < excess) (hle : excess ≤ k) :
    d.repair? p = some ⟨before ++ (List.replicate (k - excess) blank ++ rest),
      d.offsets.record p.line (-(excess : Int))⟩ := by
  unfold Draft.repair? Draft.change?
  rw [apply_run hlines hindex hrule hrepair hexcess hpos hle]
  rfl

variable {c : RuleSettings}

/-- A run of blank lines is cut down to its limit, and the lines after it are found where they are
then. -/
theorem repair_run (h : LimitsBlank c) {d : Draft} {before rest : FileLines} {passed k : Nat}
    (hk : k < Number.natural64Limit) (hlines : d.lines = before ++ (List.replicate k blank ++ rest))
    (hshift : ∀ n, passed < n → d.offsets.shiftOf n = (before.length : Int) - passed)
    (start ended : Bool) :
    ∃ d', (runProblem c (passed + k) start ended k).foldlM Draft.repair? d = some d' ∧
      d'.lines = before ++ (List.replicate (keptBlank c start ended k) blank ++ rest) ∧
      ∀ n, passed + k < n →
        d'.offsets.shiftOf n = (before.length + keptBlank c start ended k : Int) - (passed + k) := by
  have hlimit := h.blankLimit start ended
  unfold runProblem keptBlank
  split
  next hone =>
    simp only [Bool.and_eq_true, beq_iff_eq] at hone
    refine ⟨d, rfl, ?_, fun n hn => ?_⟩
    · rw [← hone.2]
      exact hlines
    · rw [hshift n (by omega), hone.2]
      omega
  · split
    next hlong =>
      obtain ⟨allowed, hallowed⟩ := Int.eq_ofNat_of_zero_le hlimit
      rw [hallowed] at hlong ⊢
      have hlt : allowed < k := by omega
      have hmin : min k (allowed : Int).toNat = allowed := by omega
      rw [hmin]
      refine ⟨⟨before ++ (List.replicate (k - (k - allowed)) blank ++ rest),
        d.offsets.record (passed + k) (-((k - allowed : Nat) : Int))⟩, ?_, ?_, fun n hn => ?_⟩
      · have hindex : d.index (Rules.tooManyBlank (passed + k) k allowed) + 1 =
            before.length + k := by
          show d.offsets.current (passed + k) - 1 + 1 = _
          unfold LineShifts.current
          rw [hshift (passed + k) (by omega)]
          omega
        rw [List.foldlM_cons, Draft.repair?_run hlines hindex rfl rfl
          (FileLines.excessOf?_message hk hlt) (by omega) (Nat.sub_le k allowed)]
        rfl
      · rw [Nat.sub_sub_self (Nat.le_of_lt hlt)]
      · rw [LineShifts.shiftOf_record_of_lt d.offsets hn, hshift n (by omega)]
        omega
    next hshort =>
      have hmin : min k (blankLimit c start ended).toNat = k := by omega
      rw [hmin]
      exact ⟨d, rfl, hlines, fun n hn => by rw [hshift n (by omega)]; omega⟩

theorem repair_runs (h : LimitsBlank c) (runs : List (Nat × List Char)) {last : Nat} {d : Draft}
    {before : FileLines} {passed : Nat} (start : Bool)
    (hsize : (ofRuns runs last).length < Number.natural64Limit)
    (hlines : d.lines = before ++ ofRuns runs last)
    (hshift : ∀ n, passed < n → d.offsets.shiftOf n = (before.length : Int) - passed) :
    ∃ d', (runProblems c passed start runs last).foldlM Draft.repair? d = some d' ∧
      d'.lines = before ++ cutLines c start runs last := by
  induction runs generalizing d before passed start with
  | nil =>
    have hk : last < Number.natural64Limit := by simpa [ofRuns] using hsize
    rw [ofRuns, ← List.append_nil (List.replicate last blank)] at hlines
    obtain ⟨d', hrepair, hlines', _⟩ := repair_run h hk hlines hshift start true
    rw [List.append_nil] at hlines'
    exact ⟨d', hrepair, hlines'⟩
  | cons run runs ih =>
    obtain ⟨k, line⟩ := run
    have hparts : (ofRuns ((k, line) :: runs) last).length =
        k + ((ofRuns runs last).length + 1) := by
      rw [ofRuns, List.length_append, List.length_replicate, List.length_cons]
    obtain ⟨d₁, hrepair₁, hlines₁, hshift₁⟩ :=
      repair_run h (k := k) (by omega) hlines hshift start false
    have hnext : d₁.lines =
        (before ++ (List.replicate (keptBlank c start false k) blank ++ [line]))
          ++ ofRuns runs last := by
      rw [hlines₁]
      simp
    have hshift' : ∀ n, passed + k + 1 < n → d₁.offsets.shiftOf n =
        ((before ++ (List.replicate (keptBlank c start false k) blank ++ [line])).length : Int)
          - (passed + k + 1 : Nat) := by
      intro n hn
      rw [hshift₁ n (by omega)]
      simp
      omega
    obtain ⟨d', hrepair', hlines'⟩ := ih false (by omega) hnext hshift'
    refine ⟨d', ?_, ?_⟩
    · rw [runProblems, List.foldlM_append, hrepair₁]
      exact hrepair'
    · rw [hlines', Rules.cutLines_cons]
      simp

/-- Problems of lines of their own are all repaired for themselves, in their order. -/
theorem leading_of_pairwise {previous : Option Problem} {ps : List Problem}
    (h : ps.Pairwise (·.line < ·.line)) (hprevious : ∀ q ∈ previous, ∀ p ∈ ps, q.line < p.line) :
    leading previous ps = ps := by
  induction ps generalizing previous with
  | nil => rfl
  | cons p r ih =>
    obtain ⟨hp, hr⟩ := List.pairwise_cons.mp h
    have hrepeats : repeats previous p = false := by
      unfold repeats
      cases previous with
      | none => rfl
      | some q =>
        have hlt := hprevious q rfl p List.mem_cons_self
        exact decide_eq_false fun hsame => Nat.ne_of_lt hlt hsame.1
    rw [leading, if_neg (Bool.eq_false_iff.mp hrepeats), ih hr]
    intro q hq
    cases Option.mem_some.mp hq
    exact hp

theorem selected_all {ps : List Problem} (hsorted : ps.Pairwise (·.line < ·.line))
    (hfixable : ∀ p ∈ ps, p.fixable = true) : selected .all ps = ps := by
  have hfilter : ps.filter Selection.all.selects = ps := by
    refine List.filter_eq_self.mpr fun p hp => ?_
    unfold Selection.selects
    rw [hfixable p hp]
    rfl
  unfold selected
  rw [hfilter]
  exact sortBy_of_pairwise (hsorted.imp fun hlt => decide_eq_false (Nat.lt_asymm hlt))

end Fix

namespace Rules

open FileLines (blank FeedEnded ofRuns)

variable {c : RuleSettings}

theorem mem_runProblem {number run : Nat} {start ended : Bool} {p : Problem}
    (hp : p ∈ runProblem c number start ended run) :
    p = tooManyBlank number run (blankLimit c start ended) := by
  unfold runProblem at hp
  split at hp
  · cases hp
  · split at hp
    · exact List.mem_singleton.mp hp
    · cases hp

theorem mem_runProblems {runs : List (Nat × List Char)} {last passed : Nat} {start : Bool}
    {p : Problem} (hp : p ∈ runProblems c passed start runs last) :
    ∃ number run limit, p = tooManyBlank number run limit := by
  induction runs generalizing passed start with
  | nil => exact ⟨_, _, _, mem_runProblem hp⟩
  | cons run runs ih =>
    rw [runProblems] at hp
    rcases List.mem_append.mp hp with hp | hp
    · exact ⟨_, _, _, mem_runProblem hp⟩
    · exact ih hp

theorem LimitsBlank.line_of_mem_runProblem (h : LimitsBlank c) {passed run : Nat}
    {start ended : Bool} {p : Problem} (hp : p ∈ runProblem c (passed + run) start ended run) :
    passed < p.line ∧ p.line = passed + run := by
  have hline : p.line = passed + run := by
    rw [mem_runProblem hp]
    rfl
  refine ⟨?_, hline⟩
  rcases Nat.eq_zero_or_pos run with rfl | hpos
  · rw [h.runProblem_zero] at hp
    cases hp
  · omega

/-- Runs are reported from the first to the last one. -/
theorem LimitsBlank.runProblems_sorted (h : LimitsBlank c) (runs : List (Nat × List Char))
    (last passed : Nat) (start : Bool) :
    (∀ p ∈ runProblems c passed start runs last, passed < p.line) ∧
      (runProblems c passed start runs last).Pairwise (·.line < ·.line) := by
  have hone (passed run : Nat) (start ended : Bool) :
      (runProblem c (passed + run) start ended run).Pairwise (·.line < ·.line) := by
    unfold runProblem
    split
    · exact .nil
    · split
      · exact List.pairwise_singleton _ _
      · exact .nil
  induction runs generalizing passed start with
  | nil => exact ⟨fun p hp => (h.line_of_mem_runProblem hp).1, hone _ _ _ _⟩
  | cons run runs ih =>
    obtain ⟨hrest, hsorted⟩ := ih (passed + run.1 + 1) false
    rw [runProblems]
    refine ⟨fun p hp => ?_, List.pairwise_append.mpr ⟨hone _ _ _ _, hsorted, fun p hp q hq => ?_⟩⟩
    · rcases List.mem_append.mp hp with hp | hp
      · exact (h.line_of_mem_runProblem hp).1
      · exact Nat.lt_of_le_of_lt (by omega) (hrest p hp)
    · have hline := (h.line_of_mem_runProblem hp).2
      have hlater := hrest q hq
      omega

/-- A run that is reported is longer than its limit, and one of this length is not reported. -/
theorem LimitsBlank.exists_limit (h : LimitsBlank c) {number run : Nat} {start ended : Bool}
    {p : Problem} (hp : p ∈ runProblem c number start ended run) : ∃ limit : Nat, limit < run ∧
      p = tooManyBlank number run limit ∧ ∀ number, runProblem c number start ended limit = [] := by
  obtain ⟨limit, hlimit⟩ := Int.eq_ofNat_of_zero_le (h.blankLimit start ended)
  have heq := mem_runProblem hp
  have hkept (number : Nat) := h.runProblem_kept number start ended run
  unfold runProblem at hp
  unfold keptBlank at hkept
  split at hp
  · cases hp
  next hone =>
    split at hp
    next hlt =>
      rw [if_neg hone, hlimit, Int.toNat_natCast, Nat.min_eq_right (by omega)] at hkept
      exact ⟨limit, by omega, hlimit ▸ heq, hkept⟩
    · cases hp

/-- A problem is that of a run longer than its limit. Where this run alone is cut down, nothing is
reported at its end. -/
theorem LimitsBlank.exists_run (h : LimitsBlank c) {runs : List (Nat × List Char)}
    {last passed : Nat} {start : Bool} {p : Problem} (hended : FeedEnded (ofRuns runs last))
    (hruns : ∀ run ∈ runs, run.2 ≠ blank) (hp : p ∈ runProblems c passed start runs last) :
    ∃ before k rest limit runs' last',
      ofRuns runs last = before ++ (List.replicate k blank ++ rest) ∧ limit < k ∧
      p = tooManyBlank (passed + (before.length + k)) k (limit : Nat) ∧
      ofRuns runs' last' = before ++ (List.replicate limit blank ++ rest) ∧
      FeedEnded (ofRuns runs' last') ∧ (∀ run ∈ runs', run.2 ≠ blank) ∧
      ∀ q ∈ runProblems c passed start runs' last', q.line ≠ passed + (before.length + limit) := by
  induction runs generalizing passed start with
  | nil =>
    obtain ⟨limit, hlt, heq, hnone⟩ := h.exists_limit hp
    refine ⟨[], last, [], limit, [], limit, (List.append_nil _).symm, hlt, ?_,
      (List.append_nil _).symm, ?_, hruns, fun q hq => ?_⟩
    · rw [heq, List.length_nil, Nat.zero_add]
    · have hnew := FeedEnded.replicate_append limit .nil
      rwa [List.append_nil] at hnew
    · rw [runProblems, hnone] at hq
      cases hq
  | cons run runs ih =>
    obtain ⟨k, line⟩ := run
    have hline := hruns _ List.mem_cons_self
    have hlater : ∀ run ∈ runs, run.2 ≠ blank := fun run hm => hruns run (List.mem_cons_of_mem _ hm)
    have hrest : FeedEnded (line :: ofRuns runs last) := FeedEnded.of_replicate_append hended
    rw [runProblems] at hp
    rcases List.mem_append.mp hp with hp | hp
    · obtain ⟨limit, hlt, heq, hnone⟩ := h.exists_limit hp
      refine ⟨[], k, line :: ofRuns runs last, limit, (limit, line) :: runs, last, rfl, hlt, ?_, rfl,
        hrest.replicate_append limit, List.forall_mem_cons.mpr ⟨hline, hlater⟩, fun q hq => ?_⟩
      · rw [heq, List.length_nil, Nat.zero_add]
      · rw [runProblems, hnone, List.nil_append] at hq
        have := (h.runProblems_sorted runs last (passed + limit + 1) false).1 q hq
        rw [List.length_nil]
        omega
    · obtain ⟨before, n, rest, limit, runs', last', hold, hlt, heq, hnew, hfeed, hruns', hnot⟩ :=
        ih hrest.of_cons hlater hp
      refine ⟨List.replicate k blank ++ line :: before, n, rest, limit, (k, line) :: runs', last',
        ?_, hlt, ?_, ?_, ?_, List.forall_mem_cons.mpr ⟨hline, hruns'⟩, fun q hq => ?_⟩
      · rw [ofRuns, hold, List.append_assoc, List.cons_append]
      · rw [heq, List.length_append, List.length_replicate, List.length_cons]
        congr 1
        omega
      · rw [ofRuns, hnew, List.append_assoc, List.cons_append]
      · refine (hrest.replace hfeed fun hnil => ?_).replicate_append k
        have hlength := congrArg List.length (hold.symm.trans hnil)
        simp at hlength
        omega
      · rw [List.length_append, List.length_replicate, List.length_cons]
        rw [runProblems] at hq
        rcases List.mem_append.mp hq with hq | hq
        · have := (h.line_of_mem_runProblem hq).2
          omega
        · have := hnot q hq
          omega

end Rules

namespace Fix

open FileLines (ofRuns FeedEnded blank)

variable {c : RuleSettings}

/-- Repairing all problems of the rule about blank lines leaves none, and keeps the lines that are
not blank, for all texts whose lines end in line feeds alone and all limits that are no negative
numbers. The message of a problem, from which its repair takes the number of lines, holds numbers of
64 bits; a text has not more characters than that. -/
theorem repairFile_settles_blank_lines {fs : Files} {path text : String}
    (hread : fs.read? path = some text) (hreturn : '\r' ∉ text.toList)
    (hsize : text.length < 2 ^ 64) (hmax : 0 ≤ c.int "max") (hstart : 0 ≤ c.int "max-start")
    (hend : 0 ≤ c.int "max-end") :
    ∃ fs' report text',
      repairFile fs .all path ((Line.ofList text.toList).flatMap (Rules.checkBlankLines c)) =
        (fs', .ok report) ∧
      fs'.read? path = some text' ∧
      (Line.ofList text'.toList).flatMap (Rules.checkBlankLines c) = [] ∧
      (FileLines.ofChars text'.toList).filter (!FileLines.isBlankLine ·) =
        (FileLines.ofChars text.toList).filter (!FileLines.isBlankLine ·) := by
  have hlimits : Rules.LimitsBlank c := ⟨hmax, hstart, hend⟩
  obtain ⟨runs, last, hruns, hlines⟩ := FileLines.exists_runs (FileLines.ofChars text.toList)
  have hended : FeedEnded (ofRuns runs last) := by
    rw [hruns]
    exact FileLines.ofChars_feedEnded hreturn
  have htext : text.toList = (ofRuns runs last).flatten := by
    rw [hruns, FileLines.ofChars_flatten]
  have hproblems : (Line.ofList text.toList).flatMap (Rules.checkBlankLines c) =
      Rules.runProblems c 0 true runs last := by
    rw [htext]
    exact hlimits.check_ofRuns hlines hended
  obtain ⟨_, hsorted⟩ := hlimits.runProblems_sorted runs last 0 true
  have hselected : leading none (selected .all (Rules.runProblems c 0 true runs last)) =
      Rules.runProblems c 0 true runs last := by
    rw [selected_all hsorted, leading_of_pairwise hsorted fun q hq => absurd hq (Option.not_mem_none q)]
    intro p hp
    obtain ⟨number, run, limit, rfl⟩ := Rules.mem_runProblems hp
    rfl
  have hcount : (ofRuns runs last).length < Number.natural64Limit := by
    have hlength := hended.length_le
    rw [← htext, String.length_toList] at hlength
    exact Nat.lt_of_le_of_lt hlength hsize
  rw [hproblems]
  have hrules : ∀ p ∈ Rules.runProblems c 0 true runs last, p.rule ≠ "indentation" := by
    intro p hp
    obtain ⟨number, run, limit, rfl⟩ := Rules.mem_runProblems hp
    exact fun hrule : "empty-lines" = "indentation" => absurd hrule (by decide)
  obtain ⟨fs', report, final, hresult, hrepaired, hread', _⟩ :=
    repairFile_succeeds hread .all hrules
  rw [hselected] at hrepaired
  have hstartLines : (Draft.ofText text).lines = [] ++ ofRuns runs last := hruns.symm
  obtain ⟨d', hfold, hfinal⟩ :=
    repair_runs hlimits runs true hcount hstartLines fun n (_ : 0 < n) => rfl
  have hlast : final = d' := Option.some.inj (hrepaired.symm.trans hfold)
  subst hlast
  have hcut := Rules.cutLines_feedEnded (c := c) hended true
  have hfinalText : final.text.toList = (Rules.cutLines c true runs last).flatten := by
    unfold Draft.text
    rw [String.toList_ofList, hfinal, List.nil_append]
  have hcutLines : ∀ run ∈ (Rules.cutRuns c true runs last).1, run.2 ≠ blank := by
    intro run hrun
    have hmem : run.2 ∈ (Rules.cutRuns c true runs last).1.map (·.2) :=
      List.mem_map_of_mem hrun
    rw [Rules.cutRuns_lines] at hmem
    obtain ⟨old, hold, heq⟩ := List.mem_map.mp hmem
    rw [← heq]
    exact hlines old hold
  refine ⟨fs', report, final.text, hresult, hread', ?_, ?_⟩
  · rw [hfinalText]
    exact (hlimits.check_ofRuns hcutLines hcut).trans (hlimits.runProblems_cut runs last 0 true)
  · rw [hfinalText, hcut.ofChars_flatten, ← hruns, Rules.filter_ofRuns hended hlines]
    exact (Rules.filter_ofRuns hcut hcutLines).trans (Rules.cutRuns_lines c true runs last)

/-- Runs of blank lines at the start, inside and at the end, each longer than its limit. -/
theorem repairFile_settles_blank_lines_around :
    let text := "\n\na: 1\n\n\n\nb: 2\n\n\n"
    let fs := Files.empty.create "b.yaml" (.text text)
    let c := Rules.emptyLines.defaults
    let problems := (Line.ofList text.toList).flatMap (Rules.checkBlankLines c)
    fs.read? "b.yaml" = some text ∧ '\r' ∉ text.toList ∧ text.length < 2 ^ 64 ∧
      0 ≤ c.int "max" ∧ 0 ≤ c.int "max-start" ∧ 0 ≤ c.int "max-end" ∧
      problems.map (·.line) = [2, 6, 9] ∧
      (repairFile fs .all "b.yaml" problems).1.read? "b.yaml" = some "a: 1\n\nb: 2\n\n" ∧
      ∃ fs' report text', repairFile fs .all "b.yaml" problems = (fs', .ok report) ∧
        fs'.read? "b.yaml" = some text' ∧
        (Line.ofList text'.toList).flatMap (Rules.checkBlankLines c) = [] := by
  intro text fs c problems
  have hread : fs.read? "b.yaml" = some text := by decide +kernel
  have hreturn : '\r' ∉ text.toList := by decide +kernel
  have hsize : text.length < 2 ^ 64 := by decide +kernel
  refine ⟨hread, hreturn, hsize, by decide, by decide, by decide, by decide +kernel,
    by decide +kernel, ?_⟩
  obtain ⟨fs', report, text', hresult, hread', hnone, _⟩ :=
    repairFile_settles_blank_lines (c := c) hread hreturn hsize (by decide) (by decide) (by decide)
  exact ⟨fs', report, text', hresult, hread', hnone⟩

end Fix

end Blueprint
