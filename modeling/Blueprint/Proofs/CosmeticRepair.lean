import Blueprint.Fix.Engine
import Blueprint.Proofs.FileAccess
import Blueprint.Proofs.Sorting
import Blueprint.Proofs.VisibleText

/-!
The repairs of the rules about spacing and spelling always succeed and leave what can be seen in
the file.
-/

namespace Blueprint

/-- The rules about spacing and spelling whose problems can be repaired. -/
def cosmeticRules : List String :=
  ["truthy", "trailing-spaces", "colons", "commas", "brackets", "braces", "empty-lines",
   "new-lines"]

/-- A problem of one of these rules; its repair needs nothing but its place. -/
structure Problem.IsCosmetic (p : Problem) : Prop where
  rule : p.rule ∈ cosmeticRules
  repair : p.repair = none

theorem FileLines.ofChars_flatten (s : List Char) : (FileLines.ofChars s).flatten = s := by
  unfold FileLines.ofChars
  induction s with
  | nil => rfl
  | cons c r ih =>
    rw [List.foldr_cons]
    split
    · rw [List.flatten_cons, ih, List.singleton_append]
    · split
      next hnil =>
        rw [hnil] at ih
        rw [← ih]
        rfl
      next line rest hlines =>
        rw [hlines] at ih
        rw [← ih]
        rfl

namespace Fix

open Text FileLines

variable {path : String} {seen : List Char} {s : State}

/-- A repair leaves what can be seen in the lines. -/
def KeepsInk (lines : FileLines) (change : FileLines.Change) : Prop :=
  ∀ new delta, change = some (new, delta) → ink new.flatten = ink lines.flatten

theorem ofRule_keepsInk {p : Problem} (hp : p.rule ∈ cosmeticRules) {lines : FileLines}
    {index : Nat} (hindex : index < lines.length) :
    ∃ change, ofRule p lines index = some change ∧ KeepsInk lines change := by
  unfold ofRule
  unfold cosmeticRules at hp
  simp only [List.mem_cons, List.not_mem_nil, or_false] at hp
  rcases hp with h | h | h | h | h | h | h | h
  · rw [h]
    exact ⟨_, rfl, fun _ _ => mapContent_ink Content.ink_lowerTruth⟩
  · rw [h]
    exact ⟨_, rfl, fun _ _ => mapContent_ink Content.ink_trimSpaces⟩
  · rw [h]
    exact ⟨_, rfl, fun _ _ => mapContent_ink Content.ink_spaceColon⟩
  · rw [h]
    exact ⟨_, rfl, fun _ _ => mapContent_ink Content.ink_spaceCommas⟩
  · rw [h]
    exact ⟨_, rfl, fun _ _ => mapContent_ink (Content.ink_spaceBrackets _ _)⟩
  · rw [h]
    exact ⟨_, rfl, fun _ _ => mapContent_ink (Content.ink_spaceBrackets _ _)⟩
  · rw [h]
    exact ⟨_, rfl, fun _ _ => removeBlank_ink hindex⟩
  · rw [h]
    exact ⟨_, rfl, fun _ _ => endWithFeed_ink⟩

theorem apply_keepsInk {p : Problem} (hp : p.IsCosmetic) (lines : FileLines) (index : Nat) :
    ∃ change, apply p lines index = some change ∧ KeepsInk lines change := by
  unfold apply
  split
  · refine ⟨none, rfl, ?_⟩
    intro new delta h
    cases h
  next hindex =>
    rw [hp.repair]
    exact ofRule_keepsInk hp.rule (Nat.lt_of_not_le hindex)

/-- The file holds the lines, and `seen` is what can be seen in them. -/
structure State.Shows (path : String) (seen : List Char) (s : State) : Prop where
  file : s.files.read? path = some (String.ofList s.lines.flatten)
  seen : ink s.lines.flatten = seen

theorem State.Shows.accept (h : s.Shows path seen) (p : Problem) {change : FileLines.Change}
    (hchange : KeepsInk s.lines change) :
    ∃ s', s.accept path p change = .ok s' ∧ s'.Shows path seen := by
  cases change with
  | none => exact ⟨_, rfl, h.file, h.seen⟩
  | some change =>
    obtain ⟨lines, delta⟩ := change
    obtain ⟨files, hwrite, hread⟩ := Files.write?_of_read? h.file (String.ofList lines.flatten)
    unfold State.accept
    dsimp only
    rw [hwrite]
    exact ⟨_, rfl, hread, (hchange lines delta rfl).trans h.seen⟩

theorem State.Shows.step (h : s.Shows path seen) {p : Problem} (hp : p.IsCosmetic) :
    ∃ s', step path s p = .ok s' ∧ s'.Shows path seen := by
  unfold Fix.step
  split
  · exact ⟨_, rfl, h.file, h.seen⟩
  · obtain ⟨change, happly, hchange⟩ :=
      apply_keepsInk hp s.lines (s.offsets.current p.line - 1)
    rw [happly]
    exact h.accept p hchange

theorem State.Shows.steps (h : s.Shows path seen) {ps : List Problem}
    (hps : ∀ p ∈ ps, p.IsCosmetic) :
    ∃ s', steps path s ps = (s', none) ∧ s'.Shows path seen := by
  induction ps generalizing s with
  | nil => exact ⟨s, rfl, h⟩
  | cons p r ih =>
    obtain ⟨s', hstep, hshows⟩ := h.step (hps p List.mem_cons_self)
    obtain ⟨last, hsteps, hlast⟩ := ih hshows fun q hq => hps q (List.mem_cons_of_mem p hq)
    refine ⟨last, ?_, hlast⟩
    rw [Fix.steps, hstep]
    exact hsteps

/-- Repairs of spacing and spelling succeed on every file that can be read. -/
theorem repairFile_keepsInk {fs : Files} {text : String} {problems : List Problem}
    (hread : fs.read? path = some text) (selection : Selection)
    (hproblems : ∀ p ∈ problems, p.IsCosmetic) :
    ∃ fs' summary text', repairFile fs selection path problems = (fs', .ok summary) ∧
      fs'.read? path = some text' ∧ ink text'.toList = ink text.toList := by
  have hchosen : ∀ p ∈ selected selection problems, p.IsCosmetic := by
    intro p hp
    exact hproblems p (List.mem_filter.mp ((sortBy_perm _ _).mem_iff.mp hp)).1
  unfold repairFile
  dsimp only
  split
  · exact ⟨fs, {}, text, rfl, hread, rfl⟩
  · have hexists : fs.exists? path = true := by
      obtain ⟨place, hfind⟩ := Files.find?_of_read? hread
      unfold Files.exists?
      rw [hfind]
      rfl
    rw [hexists, if_neg (by decide), hread]
    have hstart : State.Shows path (ink text.toList)
        { files := fs, lines := .ofChars text.toList } := by
      refine ⟨?_, ?_⟩
      · rw [FileLines.ofChars_flatten, String.ofList_toList]
        exact hread
      · rw [FileLines.ofChars_flatten]
    obtain ⟨s, hsteps, hshows⟩ := hstart.steps hchosen
    refine ⟨s.files, s.report, String.ofList s.lines.flatten, ?_, hshows.file, ?_⟩
    · dsimp only
      rw [hsteps]
    · rw [String.toList_ofList]
      exact hshows.seen

end Fix

end Blueprint
