import Blueprint.Fix.Reindent
import Blueprint.Proofs.ParserLikeness
import Blueprint.Proofs.VisibleText
import Mathlib.Data.List.DropRight

/-!
Repairing indentation. Of the lines with content the text behind their indentation stays, and all
other lines stay as they are; so does the value, as long as the tokens stay.
-/

namespace Blueprint

open Text (trim trimStart trimEnd dropEndWhile isBlank)

namespace FileLines

variable {line : List Char} {n : Nat}

theorem content_append {s t : List Char} (hs : ∀ c ∈ s.getLast?, isTerminator c = false)
    (ht : ∀ c ∈ t, isTerminator c = true) : content (s ++ t) = s := by
  unfold content dropEndWhile
  rw [List.reverse_append, List.dropWhile_append_of_pos fun c hc => ht c (List.mem_reverse.mp hc)]
  cases hlast : s.reverse with
  | nil => exact (List.reverse_eq_nil_iff.mp hlast).symm
  | cons c r =>
    have hc : s.getLast? = some c := by rw [List.getLast?_eq_head?_reverse, hlast]; rfl
    rw [List.dropWhile_cons_of_neg (by rw [hs c hc]; decide), ← hlast, List.reverse_reverse]

theorem getLast?_content {c : Char} (h : c ∈ (content line).getLast?) : isTerminator c = false := by
  unfold content dropEndWhile at h
  rw [List.getLast?_reverse] at h
  have hnot := List.head?_dropWhile_not isTerminator line.reverse
  rw [Option.mem_def.mp h] at hnot
  exact hnot

/-! Lines under another indentation. -/

/-- A line with content shows something behind its white space. -/
theorem trimStart_ne_nil (h : hasContent line = true) : trimStart line ≠ [] := by
  intro hnil
  unfold hasContent trim at h
  rw [hnil] at h
  cases h

theorem content_indented (h : hasContent (content line) = true) :
    content (indented n line) =
      if leadingSpaces (content line) = n then content line
      else List.replicate n ' ' ++ trimStart (content line) := by
  unfold indented
  split
  · rfl
  · refine content_append ?_ fun c hc => isTerminator_of_mem hc
    intro c hc
    obtain ⟨s, hs⟩ := Text.trimStart_suffix (content line)
    have hne := trimStart_ne_nil h
    rw [List.getLast?_append_of_ne_nil _ hne, ← List.getLast?_append_of_ne_nil s hne, hs] at hc
    exact getLast?_content hc

/-- Another indentation leaves what a line says. -/
theorem trim_indented (h : hasContent (content line) = true) :
    trim (content (indented n line)) = trim (content line) := by
  rw [content_indented h]
  split
  · rfl
  · have hspaces : trimStart (List.replicate n ' ' ++ trimStart (content line)) =
        trimStart (content line) := by
      have hblank : ∀ c ∈ List.replicate n ' ', isBlank c = true := fun c hc => by
        rw [List.eq_of_mem_replicate hc]
        decide
      unfold trimStart
      rw [List.dropWhile_append_of_pos hblank, List.dropWhile_idempotent]
    unfold trim
    rw [hspaces]

theorem leadingSpaces_indented (h : hasContent (content line) = true) :
    leadingSpaces (content (indented n line)) = n := by
  rw [content_indented h]
  split
  next hn => exact hn
  · have hspaces : ∀ c ∈ List.replicate n ' ', (c == ' ') = true := fun c hc => by
      rw [List.eq_of_mem_replicate hc]
      decide
    have hnone : (trimStart (content line)).takeWhile (· == ' ') = [] := by
      cases hrest : trimStart (content line) with
      | nil => rfl
      | cons c r =>
        have hc := Text.head?_trimStart (congrArg List.head? hrest)
        refine List.takeWhile_cons_of_neg fun heq => ?_
        rw [eq_of_beq heq] at hc
        cases hc
    unfold leadingSpaces
    rw [List.takeWhile_append_of_pos hspaces, hnone, List.append_nil, List.length_replicate]

theorem indented_indented (h : hasContent (content line) = true) :
    indented n (indented n line) = indented n line :=
  if_pos (leadingSpaces_indented h)

/-! What a line says depends on its text between white space. -/

theorem hasContent_congr {s s' : List Char} (h : trim s' = trim s) :
    hasContent s' = hasContent s := by
  unfold hasContent
  rw [h]

theorem ofLine_congr {s s' : List Char} (h : trim s' = trim s) :
    LineSense.ofLine s' = LineSense.ofLine s := by
  unfold LineSense.ofLine
  rw [h]

/-- The lines with content, without their terminators. -/
def contents (lines : FileLines) : List (List Char) :=
  (lines.map content).filter hasContent

theorem contents_cons (line : List Char) (lines : FileLines) :
    contents (line :: lines) =
      if hasContent (content line) then content line :: contents lines else contents lines := by
  unfold contents
  rw [List.map_cons, List.filter_cons]

/-- Two lists of lines that differ in their indentation at most. -/
abbrev SameTexts (lines new : FileLines) : Prop :=
  List.Forall₂ (fun line line' => trim (content line') = trim (content line)) lines new

/-- A line and a line of the canonical text that say the same. -/
def SameSense (line canonical : List Char) : Prop :=
  (LineSense.ofLine line).text = (LineSense.ofLine canonical).text

theorem pairIndents?_eq_some {ls cs : List (List Char)} {ns : List Nat}
    (h : pairIndents? ls cs = some ns) :
    List.Forall₂ SameSense ls cs ∧ ns = cs.map leadingSpaces := by
  induction ls generalizing cs ns with
  | nil =>
    cases cs with
    | nil =>
      cases h
      exact ⟨.nil, rfl⟩
    | cons c cs => cases h
  | cons l ls ih =>
    cases cs with
    | nil => cases h
    | cons c cs =>
      obtain ⟨n, hn, h⟩ := Option.bind_eq_some_iff.mp h
      obtain ⟨rest, hrest, h⟩ := Option.bind_eq_some_iff.mp h
      cases h
      obtain ⟨hsense, rfl⟩ := ih hrest
      unfold pairIndent? at hn
      split at hn
      next hsame =>
        cases hn
        exact ⟨.cons hsame hsense, rfl⟩
      · cases hn

/-- Pairing sees nothing of the indentation. -/
theorem SameTexts.pairIndents? {lines new : FileLines} (h : SameTexts lines new)
    (cs : List (List Char)) :
    FileLines.pairIndents? new.contents cs = FileLines.pairIndents? lines.contents cs := by
  induction h generalizing cs with
  | nil => rfl
  | @cons line line' lines new hline _ ih =>
    rw [contents_cons, contents_cons, hasContent_congr hline]
    split
    · cases cs with
      | nil => rfl
      | cons c cs =>
        unfold FileLines.pairIndents? FileLines.pairIndent?
        rw [ofLine_congr hline, ih]
    · exact ih cs

/-! Whole files under other indentations. -/

theorem indentFrom_sameTexts (skip : Nat) (indents : List Nat) (lines : FileLines) :
    SameTexts lines (indentFrom skip indents lines) := by
  induction lines generalizing skip indents with
  | nil => exact .nil
  | cons line lines ih =>
    rw [indentFrom]
    split
    next hcontent =>
      refine .cons ?_ (ih _ _)
      split
      · exact trim_indented hcontent
      · rfl
    · exact .cons rfl (ih _ _)

/-- Lines that have their indentations keep them. -/
theorem indentFrom_indentFrom (skip : Nat) (indents : List Nat) (lines : FileLines) :
    indentFrom skip indents (indentFrom skip indents lines) = indentFrom skip indents lines := by
  induction lines generalizing skip indents with
  | nil => rfl
  | cons line lines ih =>
    rw [indentFrom]
    split
    next hcontent =>
      split
      next hskip =>
        rw [indentFrom, if_pos ((hasContent_congr (trim_indented hcontent)).trans hcontent),
          if_pos hskip, ih, indented_indented hcontent]
      next hskip => rw [indentFrom, if_pos hcontent, if_neg hskip, ih]
    next hnone => rw [indentFrom, if_neg hnone, ih]

/-- What lines become from `index` on under the indentations of the canonical lines: those before
and those without content stay, and the others are paired with the canonical lines in turn. -/
structure Reindented (index : Nat) (canonical : List (List Char)) (lines new : FileLines) :
    Prop where
  length : new.length = lines.length
  kept : ∀ (i : Nat) (line : List Char), lines[i]? = some line →
    i < index ∨ hasContent (content line) = false → new[i]? = some line
  placed : ∀ (i : Nat) (line : List Char), lines[i]? = some line → index ≤ i →
    hasContent (content line) = true →
    ∃ c, canonical[(contents (lines.take i)).length]? = some c ∧ SameSense (content line) c ∧
      new[i]? = some (indented (leadingSpaces c) line)

theorem indentFrom_reindented {lines : FileLines} {canonical : List (List Char)}
    (h : List.Forall₂ SameSense lines.contents canonical) (skip : Nat) :
    Reindented skip canonical lines (indentFrom skip (canonical.map leadingSpaces) lines) := by
  induction lines generalizing canonical skip with
  | nil => exact ⟨rfl, (fun i line hi => nomatch hi), (fun i line hi => nomatch hi)⟩
  | cons first lines ih =>
    rw [contents_cons] at h
    rw [indentFrom]
    split at h
    next hcontent =>
      cases h with
      | @cons _ c _ canonical hsense hrest =>
        obtain ⟨hlength, hkept, hplaced⟩ := ih hrest (skip - 1)
        rw [if_pos hcontent]
        refine ⟨congrArg (· + 1) hlength, fun i line hi hor => ?_, fun i line hi hle hline => ?_⟩
        · cases i with
          | zero =>
            cases Option.some.inj hi
            rcases hor with hlt | hnone
            · rw [if_neg (Nat.ne_of_gt hlt)]
              rfl
            · rw [hcontent] at hnone
              cases hnone
          | succ i => exact hkept i line hi (hor.imp_left fun hlt => by omega)
        · cases i with
          | zero =>
            cases Option.some.inj hi
            rw [if_pos (Nat.le_zero.mp hle)]
            exact ⟨c, rfl, hsense, rfl⟩
          | succ i =>
            rw [List.take_succ_cons, contents_cons, if_pos hcontent]
            exact hplaced i line hi (by omega) hline
    next hnone =>
      obtain ⟨hlength, hkept, hplaced⟩ := ih h (skip - 1)
      rw [if_neg hnone]
      refine ⟨congrArg (· + 1) hlength, fun i line hi hor => ?_, fun i line hi hle hline => ?_⟩
      · cases i with
        | zero => exact hi
        | succ i => exact hkept i line hi (hor.imp_left fun hlt => by omega)
      · cases i with
        | zero =>
          cases Option.some.inj hi
          exact absurd hline hnone
        | succ i =>
          rw [List.take_succ_cons, contents_cons, if_neg hnone]
          exact hplaced i line hi (by omega) hline

/-- The text of a file. -/
def text (lines : FileLines) : String :=
  String.ofList lines.flatten

/-- The lines that a repair leaves. -/
def Change.lines (old : FileLines) (change : Change) : FileLines :=
  (change.map (·.1)).getD old

/-- Other indentations bring in spaces only. -/
theorem indentFrom_isAllowed {lines : FileLines}
    (h : lines.flatten.all DraftDocument.isAllowed = true) (skip : Nat) (indents : List Nat) :
    (indentFrom skip indents lines).flatten.all DraftDocument.isAllowed = true := by
  have hindented {line : List Char} (n : Nat) (hline : line.all DraftDocument.isAllowed = true) :
      (indented n line).all DraftDocument.isAllowed = true := by
    rw [← content_append_terminator line, List.all_append, Bool.and_eq_true_iff] at hline
    unfold indented
    split
    · rw [← content_append_terminator line, List.all_append, hline.1, hline.2]
      rfl
    · obtain ⟨s, hs⟩ := Text.trimStart_suffix (content line)
      have hrest := hline.1
      rw [← hs, List.all_append, Bool.and_eq_true_iff] at hrest
      rw [List.all_append, List.all_append, hrest.2, hline.2, List.all_replicate]
      split <;> rfl
  induction lines generalizing skip indents with
  | nil => rfl
  | cons line lines ih =>
    rw [List.flatten_cons, List.all_append, Bool.and_eq_true_iff] at h
    rw [indentFrom]
    split
    · rw [List.flatten_cons, List.all_append, ih h.2, Bool.and_true]
      split
      · exact hindented _ h.1
      · exact h.1
    · rw [List.flatten_cons, List.all_append, h.1, ih h.2]
      rfl

variable {lines : FileLines} {index : Nat} {change : Change}

/-- A repair that succeeds has paired the lines with those of the canonical text. -/
theorem reindent?_eq_some (h : lines.reindent? index = some change) :
    ∃ v indents, Setting.ofText? lines.text = some v ∧
      pairIndents? lines.contents (v.lines.filter hasContent) = some indents ∧
      change.lines lines = indentFrom index indents lines := by
  obtain ⟨indents, hindents, h⟩ := Option.map_eq_some_iff.mp h
  obtain ⟨canonical, hcanonical, hpairs⟩ := Option.bind_eq_some_iff.mp hindents
  obtain ⟨v, hv, rfl⟩ := Option.map_eq_some_iff.mp hcanonical
  refine ⟨v, indents, hv, hpairs, ?_⟩
  rw [← h]
  dsimp only
  split
  next hsame => exact hsame.symm
  · rfl

/-- The value stays if the tokens stay. -/
theorem ofText?_indentFrom {v : Setting} (hv : Setting.ofText? lines.text = some v) {skip : Nat}
    {indents : List Nat} (h : SameKinds lines.text (text (indentFrom skip indents lines))) :
    Setting.ofText? (text (indentFrom skip indents lines)) = some v := by
  refine Setting.ofText?_of_sameKinds hv ?_ h
  unfold text
  rw [String.toList_ofList]
  refine indentFrom_isAllowed ?_ skip indents
  have hall := Setting.isAllowed_of_ofText? hv
  unfold text at hall
  rwa [String.toList_ofList] at hall

end FileLines

end Blueprint
