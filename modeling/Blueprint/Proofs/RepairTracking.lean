import Blueprint.Lint.Rules.Lines
import Blueprint.Lint.Run
import Blueprint.Proofs.RepairShape
import Blueprint.Proofs.ShiftRecord
import Blueprint.Proofs.Sorting

/-!
The lines of a file while it is repaired. Beside the lines stand their numbers in the file as it was
read; a repair moves both in the same way. Each repair is tried at the line of its problem, unless an
earlier repair for a problem of the same line has removed it.
-/

namespace Blueprint

/-- A repair that is tried: its problem, the index at which it is tried, and the lines with their
first numbers; a line that a repair has added has none. -/
structure Attempt where
  problem : Problem
  index : Nat
  lines : FileLines
  origins : List (Option Nat)
deriving DecidableEq

namespace Attempt

/-- By how much the attempt makes the file longer. -/
def delta (a : Attempt) : Int :=
  match Fix.apply a.problem a.lines a.index with
  | some (some (_, delta)) => delta
  | _ => 0

/-- The first numbers of the lines after the attempt. -/
def originsAfter (a : Attempt) : List (Option Nat) :=
  moved a.index a.delta none a.origins

/-- The attempt removes the line that the later one is about. -/
def Uproots (a later : Attempt) : Prop :=
  a.problem.line = later.problem.line ∧ a.delta < 0

end Attempt

namespace Fix

def State.attempt (s : State) (origins : List (Option Nat)) (p : Problem) : Attempt :=
  ⟨p, s.offsets.current p.line - 1, s.lines, origins⟩

/-- The repairs that `steps` tries; a problem that shares the last repair tries none. -/
def attempts (path : String) (s : State) (origins : List (Option Nat)) : List Problem → List Attempt
  | [] => []
  | p :: r =>
    let later (origins : List (Option Nat)) : List Attempt :=
      match step path s p with
      | .ok s => attempts path s origins r
      | .error _ => []
    match s.settled? p with
    | some _ => later origins
    | none => s.attempt origins p :: later (s.attempt origins p).originsAfter

/-- The first numbers of the lines of a file. -/
def firstOrigins (lines : FileLines) : List (Option Nat) :=
  (List.range' 1 lines.length).map some

/-- The repairs that are tried on a file. -/
def fileAttempts (fs : Files) (selection : Selection) (path : String) (problems : List Problem) :
    List Attempt :=
  match fs.read? path with
  | none => []
  | some text =>
    let lines := FileLines.ofChars text.toList
    attempts path { files := fs, lines } (firstOrigins lines) (selected selection problems)

theorem step_settled {path : String} {s s' : State} {p : Problem} {changed : Bool}
    (hsettled : s.settled? p = some changed) (h : step path s p = .ok s') :
    s'.lines = s.lines ∧ s'.offsets = s.offsets := by
  unfold step at h
  rw [hsettled] at h
  cases h
  exact ⟨rfl, rfl⟩

theorem step_attempt {path : String} {s s' : State} {origins : List (Option Nat)} {p : Problem}
    (hsettled : s.settled? p = none) (h : step path s p = .ok s') :
    s'.offsets = s.offsets.record p.line (s.attempt origins p).delta ∧
      FileLines.Edits (s.attempt origins p).index (s.attempt origins p).delta s.lines s'.lines ∧
      (s.lines.length ≤ (s.attempt origins p).index → (s.attempt origins p).delta = 0) := by
  unfold step at h
  rw [hsettled] at h
  dsimp only at h
  unfold Attempt.delta State.attempt
  dsimp only
  cases hchange : apply p s.lines (s.offsets.current p.line - 1) with
  | none =>
    rw [hchange] at h
    cases h
  | some change =>
    rw [hchange] at h
    dsimp only at h
    unfold State.accept at h
    cases change with
    | none =>
      cases h
      exact ⟨rfl, (FileLines.Rewrites.refl _ _).edits, fun _ => rfl⟩
    | some change =>
      obtain ⟨new, delta⟩ := change
      obtain ⟨hlt, hedits⟩ := apply_edits hchange
      dsimp only at h
      split at h
      · cases h
        exact ⟨rfl, hedits, fun hle => absurd hlt (Nat.not_lt_of_le hle)⟩
      · cases h

/-- The lines after the first `done` ones of `count` lines: each stands where `shift` puts it. -/
structure Tracks (count done : Nat) (shift : Int) (s : State) (origins : List (Option Nat)) :
    Prop where
  length : origins.length = s.lines.length
  grown : (origins.length : Int) = count + shift
  sorted : (origins.filterMap id).Pairwise (· < ·)
  later : ∀ line, done < line → s.offsets.shiftOf line = shift
  place : ∀ line, done < line → line ≤ count →
    ∃ i : Nat, (i : Int) + 1 = line + shift ∧ origins[i]? = some (some line)

/-- A line stands where its shift puts it, and the later lines stand behind it. -/
structure Stands (count line : Nat) (shift : Int) (s : State) (origins : List (Option Nat)) :
    Prop where
  behind : s.offsets.shiftOf line ≤ shift
  place : line ≤ count →
    ∃ i : Nat, (i : Int) + 1 = line + s.offsets.shiftOf line ∧ origins[i]? = some (some line)
  beyond : count < line → s.offsets.shiftOf line = shift

variable {count done line : Nat} {shift : Int} {s s' : State} {origins : List (Option Nat)}

theorem Tracks.mono (h : Tracks count done shift s origins) (hle : done ≤ line) :
    Tracks count line shift s origins where
  length := h.length
  grown := h.grown
  sorted := h.sorted
  later other hlt := h.later other (Nat.lt_of_le_of_lt hle hlt)
  place other hlt := h.place other (Nat.lt_of_le_of_lt hle hlt)

theorem Tracks.stands (h : Tracks count done shift s origins) (hlt : done < line) :
    Stands count line shift s origins := by
  have hshift := h.later line hlt
  refine ⟨by omega, ?_, fun _ => hshift⟩
  intro hle
  rw [hshift]
  exact h.place line hlt hle

/-- The lines that come later depend on nothing but the lines and the shifts. -/
theorem Tracks.congr (h : Tracks count done shift s origins) (hl : s'.lines = s.lines)
    (ho : s'.offsets = s.offsets) : Tracks count done shift s' origins := by
  refine ⟨by rw [hl]; exact h.length, h.grown, h.sorted, ?_, h.place⟩
  rw [ho]
  exact h.later

theorem Stands.congr (h : Stands count line shift s origins) (ho : s'.offsets = s.offsets) :
    Stands count line shift s' origins := by
  refine ⟨?_, ?_, ?_⟩
  · rw [ho]
    exact h.behind
  · rw [ho]
    exact h.place
  · rw [ho]
    exact h.beyond

/-- A repair that is tried within the file at a line that stands is tried at this line. -/
theorem Stands.current (h : Stands count line shift s origins)
    (hg : (origins.length : Int) = count + shift)
    (hin : s.offsets.current line - 1 < origins.length) :
    line ≤ count ∧
      ((s.offsets.current line - 1 : Nat) : Int) + 1 = line + s.offsets.shiftOf line ∧
      origins[s.offsets.current line - 1]? = some (some line) := by
  unfold LineShifts.current at hin ⊢
  by_cases hle : line ≤ count
  · obtain ⟨i, hi, hget⟩ := h.place hle
    have hindex : (max 1 ((line : Int) + s.offsets.shiftOf line)).toNat - 1 = i := by omega
    rw [hindex]
    exact ⟨hle, hi, hget⟩
  · have hshift := h.beyond (Nat.lt_of_not_le hle)
    omega

theorem pairwise_filterMap_inj {xs : List (Option Nat)} (h : (xs.filterMap id).Pairwise (· < ·))
    {i j n : Nat} (hi : xs[i]? = some (some n)) (hj : xs[j]? = some (some n)) : i = j := by
  induction xs generalizing i j with
  | nil => cases hi
  | cons x xs ih =>
    have hmem {k : Nat} (hk : xs[k]? = some (some n)) : n ∈ xs.filterMap id :=
      List.mem_filterMap.mpr ⟨some n, List.mem_of_getElem? hk, rfl⟩
    have htail : (xs.filterMap id).Pairwise (· < ·) := by
      cases x with
      | none => exact h
      | some m => exact (List.pairwise_cons.mp h).2
    have hfirst {k : Nat} (hx : x = some n) (hk : xs[k]? = some (some n)) : False := by
      subst hx
      exact Nat.lt_irrefl n ((List.pairwise_cons.mp h).1 n (hmem hk))
    cases i with
    | zero =>
      cases j with
      | zero => rfl
      | succ j => exact (hfirst (Option.some.inj hi) hj).elim
    | succ i =>
      cases j with
      | zero => exact (hfirst (Option.some.inj hj) hi).elim
      | succ j => rw [ih htail hi hj]

/-- An attempt at a line that stands keeps track of the later lines. The line itself goes on standing
unless the attempt takes lines away. -/
theorem Tracks.attempt {a : Attempt} (h : Tracks count line shift s origins)
    (hstands : Stands count line shift s origins)
    (hindex : a.index = s.offsets.current line - 1) (horigins : a.origins = origins)
    (hoffsets : s'.offsets = s.offsets.record line a.delta)
    (hedits : FileLines.Edits a.index a.delta s.lines s'.lines)
    (hout : s.lines.length ≤ a.index → a.delta = 0) :
    Tracks count line (shift + a.delta) s' a.originsAfter ∧
      (0 ≤ a.delta → Stands count line (shift + a.delta) s' a.originsAfter) ∧
      (a.delta < 0 → some line ∉ a.originsAfter) := by
  obtain ⟨label, hrewrites⟩ := hedits.lines
  have hself := LineShifts.shiftOf_record_of_le s.offsets (Nat.le_refl line) a.delta
  unfold Attempt.originsAfter
  rw [horigins]
  by_cases hin : a.index < origins.length
  · have hlines : a.index < s.lines.length := h.length ▸ hin
    obtain ⟨hle, hi, hget⟩ := hstands.current h.grown (by rw [← hindex]; exact hin)
    rw [← hindex] at hi hget
    have hlength := @length_moved _ a.index a.delta none origins hin hedits.bound
    have hbehind := hstands.behind
    refine ⟨⟨?_, ?_, ?_, ?_, ?_⟩, ?_, ?_⟩
    · have hnew := @length_moved _ a.index a.delta label s.lines hlines hedits.bound
      have hsame := hrewrites.length
      have hold := h.length
      omega
    · have hgrown := h.grown
      omega
    · exact h.sorted.sublist (filterMap_moved_sublist origins)
    · intro other hlt
      rw [hoffsets, LineShifts.shiftOf_record_of_lt s.offsets hlt, h.later other hlt]
    · intro other hlt hother
      obtain ⟨i, hplace, hi'⟩ := h.place other hlt hother
      have hbound := hedits.bound
      refine ⟨(i + a.delta).toNat, by omega, ?_⟩
      rw [getElem?_moved_of_gt hin hbound (i := i) (by omega) (by omega)]
      exact hi'
    · intro hgrow
      refine ⟨by rw [hoffsets, hself]; omega, ?_, fun hbeyond => by omega⟩
      intro _
      refine ⟨a.index, by rw [hoffsets, hself]; exact hi, ?_⟩
      rw [getElem?_moved_self hgrow hin]
      exact hget
    · intro hshrink hmem
      obtain ⟨i, hne, hi'⟩ := mem_moved_of_neg hshrink hmem
      exact hne (pairwise_filterMap_inj h.sorted hi' hget)
  · have hzero : a.delta = 0 := hout (by rw [← h.length]; exact Nat.le_of_not_lt hin)
    rw [hzero] at hoffsets hrewrites ⊢
    rw [moved_zero] at hrewrites ⊢
    rw [Int.add_zero]
    have hsame : s'.offsets = s.offsets := hoffsets
    refine ⟨⟨?_, h.grown, h.sorted, ?_, h.place⟩, fun _ => hstands.congr hsame, ?_⟩
    · rw [hrewrites.length]
      exact h.length
    · rw [hsame]
      exact h.later
    · intro hneg
      exact absurd hneg (Int.lt_irrefl 0)

/-- The state after some attempts, the last ones at line `done`: that line stands, or one of them has
removed it. -/
structure Progress (count done : Nat) (shift : Int) (seen : List Attempt) (s : State)
    (origins : List (Option Nat)) : Prop where
  tracks : Tracks count done shift s origins
  past : ∀ a ∈ seen, a.problem.line ≤ done
  here : 1 ≤ done →
    (Stands count done shift s origins ∧ ∀ a ∈ seen, a.problem.line = done → 0 ≤ a.delta) ∨
      (some done ∉ origins ∧ ∃ a ∈ seen, a.problem.line = done ∧ a.delta < 0)

variable {seen : List Attempt}

theorem Progress.ofLines {s : State} (ho : s.offsets = .empty) :
    Progress s.lines.length 0 0 [] s (firstOrigins s.lines) where
  tracks := by
    have hids : (firstOrigins s.lines).filterMap id = List.range' 1 s.lines.length := by
      unfold firstOrigins
      rw [List.filterMap_map]
      exact List.filterMap_some
    refine ⟨by simp [firstOrigins], by simp [firstOrigins], ?_, ?_, ?_⟩
    · rw [hids]
      exact List.pairwise_lt_range'
    · intro line _
      rw [ho]
      rfl
    · intro line hpos hle
      refine ⟨line - 1, by omega, ?_⟩
      unfold firstOrigins
      rw [List.getElem?_map, List.getElem?_range' (by omega)]
      simp only [Option.map_some]
      congr 2
      omega
  past a ha := by cases ha
  here h := absurd h (by omega)

theorem Progress.congr (h : Progress count done shift seen s origins) (hl : s'.lines = s.lines)
    (ho : s'.offsets = s.offsets) : Progress count done shift seen s' origins where
  tracks := h.tracks.congr hl ho
  past := h.past
  here hpos := (h.here hpos).imp_left fun ⟨hstands, hkept⟩ => ⟨hstands.congr ho, hkept⟩

/-- Going on to a line that has not been passed. -/
theorem Progress.advance (h : Progress count done shift seen s origins) (hle : done ≤ line) :
    Progress count line shift seen s origins := by
  refine ⟨h.tracks.mono hle, fun a ha => Nat.le_trans (h.past a ha) hle, ?_⟩
  intro hpos
  by_cases heq : done = line
  · subst heq
    exact h.here hpos
  · refine Or.inl ⟨h.tracks.stands (by omega), ?_⟩
    intro a ha hline
    have := h.past a ha
    omega

/-- An attempt within the file works on the line of its problem if and only if no attempt before it
has removed that line. -/
theorem Progress.origin_iff {p : Problem}
    (h : Progress count p.line shift seen s origins) (hpos : 1 ≤ p.line)
    (hin : (s.attempt origins p).index < s.lines.length) :
    origins[(s.attempt origins p).index]? = some (some p.line) ↔
      ∀ a ∈ seen, ¬a.Uproots (s.attempt origins p) := by
  rcases h.here hpos with ⟨hstands, hkept⟩ | ⟨hgone, a, ha, hline, hneg⟩
  · have hcurrent := hstands.current h.tracks.grown (by rw [h.tracks.length]; exact hin)
    constructor
    · intro _ a ha huproots
      exact absurd huproots.2 (Int.not_lt_of_ge (hkept a ha huproots.1))
    · exact fun _ => hcurrent.2.2
  · constructor
    · intro hget
      exact absurd (List.mem_of_getElem? hget) hgone
    · intro hnone
      exact absurd ⟨hline, hneg⟩ (hnone a ha)

/-- An attempt that comes after its line has been removed keeps the state if it leaves the number of
lines as it is. -/
theorem Progress.attempt {path : String} {p : Problem}
    (h : Progress count p.line shift seen s origins) (hpos : 1 ≤ p.line)
    (hsettled : s.settled? p = none) (hstep : step path s p = .ok s')
    (hstray : ∀ a ∈ seen, a.Uproots (s.attempt origins p) → (s.attempt origins p).delta = 0) :
    Progress count p.line (shift + (s.attempt origins p).delta) (seen ++ [s.attempt origins p]) s'
      (s.attempt origins p).originsAfter := by
  obtain ⟨hoffsets, hedits, hout⟩ := @step_attempt _ _ _ origins _ hsettled hstep
  generalize ha : s.attempt origins p = a at hoffsets hedits hout hstray ⊢
  have hindex : a.index = s.offsets.current p.line - 1 := by rw [← ha]; rfl
  have horigins : a.origins = origins := by rw [← ha]; rfl
  have hline : a.problem.line = p.line := by rw [← ha]; rfl
  have hpast : ∀ b ∈ seen ++ [a], b.problem.line ≤ p.line := by
    intro b hb
    rcases List.mem_append.mp hb with hb | hb
    · exact h.past b hb
    · rw [List.mem_singleton.mp hb]
      exact Nat.le_of_eq hline
  rcases h.here hpos with ⟨hstands, hkept⟩ | ⟨hgone, b, hb, hbline, hneg⟩
  · obtain ⟨htracks, hstay, hleave⟩ :=
      h.tracks.attempt hstands hindex horigins hoffsets hedits hout
    refine ⟨htracks, hpast, fun _ => ?_⟩
    by_cases hdelta : 0 ≤ a.delta
    · refine Or.inl ⟨hstay hdelta, ?_⟩
      intro b hb hbline
      rcases List.mem_append.mp hb with hb | hb
      · exact hkept b hb hbline
      · rw [List.mem_singleton.mp hb]
        exact hdelta
    · have hneg := Int.lt_of_not_ge hdelta
      exact Or.inr ⟨hleave hneg, a, List.mem_append_right _ List.mem_cons_self, hline, hneg⟩
  · have hzero : a.delta = 0 := hstray b hb ⟨hbline.trans hline.symm, hneg⟩
    obtain ⟨label, hrewrites⟩ := hedits.lines
    have hafter : a.originsAfter = origins := by
      unfold Attempt.originsAfter
      rw [horigins, hzero, moved_zero]
    rw [hzero] at hoffsets hrewrites
    rw [moved_zero] at hrewrites
    have hsame : s'.offsets = s.offsets := hoffsets
    rw [hafter, hzero, Int.add_zero]
    refine ⟨?_, hpast, fun _ => Or.inr ⟨hgone, b, List.mem_append_left _ hb, hbline, hneg⟩⟩
    refine ⟨?_, h.tracks.grown, h.tracks.sorted, ?_, h.tracks.place⟩
    · rw [hrewrites.length]
      exact h.tracks.length
    · rw [hsame]
      exact h.tracks.later

theorem attempts_origin_iff {path : String} {ps : List Problem} {earlier later : List Attempt}
    {a : Attempt} (h : Progress count done shift seen s origins)
    (hsorted : ps.Pairwise (·.line ≤ ·.line)) (hle : ∀ p ∈ ps, done ≤ p.line)
    (hpos : ∀ p ∈ ps, 1 ≤ p.line) (hrun : attempts path s origins ps = earlier ++ a :: later)
    (hstray : (seen ++ earlier).Pairwise fun b c => b.Uproots c → c.delta = 0)
    (hin : a.index < a.lines.length) :
    a.origins[a.index]? = some (some a.problem.line) ↔ ∀ b ∈ seen ++ earlier, ¬b.Uproots a := by
  induction ps generalizing done shift seen s origins earlier with
  | nil =>
    rw [attempts] at hrun
    exact absurd hrun.symm (List.append_ne_nil_of_right_ne_nil _ (List.cons_ne_nil _ _))
  | cons p r ih =>
    obtain ⟨hp, hsorted⟩ := List.pairwise_cons.mp hsorted
    have hfirst := hpos p List.mem_cons_self
    have hadvanced := h.advance (hle p List.mem_cons_self)
    have hrest := fun q hq => hpos q (List.mem_cons_of_mem p hq)
    rw [attempts] at hrun
    cases hsettled : s.settled? p with
    | some changed =>
      rw [hsettled] at hrun
      dsimp only at hrun
      split at hrun
      next s' hstep =>
        obtain ⟨hl, ho⟩ := step_settled hsettled hstep
        exact ih (hadvanced.congr hl ho) hsorted hp hrest hrun hstray
      next => exact absurd hrun.symm (List.append_ne_nil_of_right_ne_nil _ (List.cons_ne_nil _ _))
    | none =>
      rw [hsettled] at hrun
      dsimp only at hrun
      cases earlier with
      | nil =>
        obtain ⟨rfl, _⟩ := List.cons.inj hrun
        rw [List.append_nil]
        exact hadvanced.origin_iff hfirst hin
      | cons b earlier =>
        obtain ⟨rfl, htail⟩ := List.cons.inj hrun
        split at htail
        next s' hstep =>
          have hown : ∀ c ∈ seen, c.Uproots (s.attempt origins p) →
              (s.attempt origins p).delta = 0 := by
            intro c hc
            exact (List.pairwise_append.mp hstray).2.2 c hc _ List.mem_cons_self
          have hnext := hadvanced.attempt hfirst hsettled hstep hown
          rw [List.append_cons] at hstray ⊢
          exact ih hnext hsorted hp hrest htail hstray
        next =>
          exact absurd htail.symm (List.append_ne_nil_of_right_ne_nil _ (List.cons_ne_nil _ _))

/-- A repair that is tried within a file is tried at the line of its problem, wherever that line is
by then, if and only if no repair before it has removed this line. Such a repair was tried for a
problem of the same line. Repairs that came too late must not have moved lines in turn. -/
theorem fileAttempts_origin_iff {fs : Files} {selection : Selection} {path : String}
    {problems : List Problem} {earlier later : List Attempt} {a : Attempt}
    (hpos : ∀ p ∈ problems, 1 ≤ p.line)
    (hrun : fileAttempts fs selection path problems = earlier ++ a :: later)
    (hstray : earlier.Pairwise fun b c => b.Uproots c → c.delta = 0)
    (hin : a.index < a.lines.length) :
    a.origins[a.index]? = some (some a.problem.line) ↔ ∀ b ∈ earlier, ¬b.Uproots a := by
  unfold fileAttempts at hrun
  split at hrun
  · exact absurd hrun.symm (List.append_ne_nil_of_right_ne_nil _ (List.cons_ne_nil _ _))
  next text _ =>
    have hselected : ∀ p ∈ selected selection problems, p ∈ problems := by
      intro p hp
      exact (List.mem_filter.mp ((sortBy_perm _ _).mem_iff.mp hp)).1
    have hstart : Progress _ 0 0 [] { files := fs, lines := .ofChars text.toList } _ :=
      Progress.ofLines rfl
    exact attempts_origin_iff hstart (sortBy_pairwise (fun p : Problem => p.line) _) (fun p _ => Nat.zero_le _)
      (fun p hp => hpos p (hselected p hp)) hrun hstray hin

/-- Blank lines are removed, and the repair for the line after them is tried where that line is. -/
theorem fileAttempts_origin_iff_after_removal :
    let blank : Problem :=
      { line := 4, column := some 1, rule := "empty-lines",
        message := "too many blank lines (3 > 1)", fixable := true }
    let word : Problem :=
      { line := 5, column := some 4, rule := "truthy", message := "", fixable := true }
    let first : Attempt :=
      ⟨blank, 3, .ofChars "a: 1\n\n\n\nb: True\n".toList, [some 1, some 2, some 3, some 4, some 5]⟩
    let second : Attempt :=
      ⟨word, 2, .ofChars "a: 1\n\nb: True\n".toList, [some 1, some 2, some 5]⟩
    first.delta = -2 ∧
      fileAttempts (Files.empty.create "b.yaml" (.text "a: 1\n\n\n\nb: True\n")) .all "b.yaml"
        [blank, word] = [first] ++ second :: [] ∧
      (second.origins[second.index]? = some (some 5) ↔ ∀ a ∈ [first], ¬a.Uproots second) := by
  intro blank word first second
  have hrun : fileAttempts (Files.empty.create "b.yaml" (.text "a: 1\n\n\n\nb: True\n")) .all
      "b.yaml" [blank, word] = [first] ++ second :: [] := by decide +kernel
  refine ⟨by decide +kernel, hrun, ?_⟩
  exact fileAttempts_origin_iff (by decide) hrun (List.pairwise_singleton _ _) (by decide +kernel)

/-- A repair that removes the line of its problem tells the later lines alone that they have moved.
The next repair for a problem of this line works on a line that has taken its place. -/
theorem fileAttempts_stray_after_removal :
    let text := "a: 1\r\n\r\n\r\n\r\nb: 2\r\nc: 3\r\n"
    let fs := Files.empty.create "b.yaml" (.text text)
    let l : Linter :=
      { registry := ⟨[Rules.emptyLines, Rules.newLines]⟩
        confs := [("empty-lines", Rules.emptyLines.defaults), ("new-lines", Rules.newLines.defaults)]
        ignore := [] }
    (fileAttempts fs ⟨[⟨none, some 4⟩]⟩ "b.yaml" (l.run fs text (some "b.yaml")).problems).map
        (fun a => (a.problem.rule, a.problem.line, a.index, a.origins[a.index]?)) =
      [("empty-lines", 4, 3, some (some 4)), ("new-lines", 4, 3, some (some 6))] := by
  decide +kernel

end Fix

end Blueprint
