import Blueprint.Proofs.CosmeticMeaning
import Blueprint.Proofs.OlderTypes
import Blueprint.Proofs.RepairRun
import Blueprint.Proofs.ScalarRespelling

/-!
Repairing the older name of a type: the name is replaced wherever it stands on its line.
-/

namespace Blueprint

namespace FileLines

/-- The lines with a text replaced wherever it stands on one of them. -/
def replaced (old new : String) (lines : FileLines) (index : Nat) : FileLines :=
  lines.modify index fun line =>
    Text.replaceAll old.toList new.toList (content line) ++ terminator line

theorem replace_eq (old new : String) (lines : FileLines) (index : Nat) :
    (lines.replace old new index = none ∧ lines.replaced old new index = lines) ∨
      lines.replace old new index = some (lines.replaced old new index, 0) := by
  unfold replaced
  rw [List.modify_eq_set_getElem?]
  cases hchange : lines.replace old new index with
  | none =>
    refine Or.inl ⟨rfl, ?_⟩
    cases hline : lines[index]? with
    | none => rfl
    | some line =>
      have hsame := mapContent_eq_none.mp hchange line hline
      show lines.set index (Text.replaceAll old.toList new.toList (content line) ++ _) = lines
      rw [hsame, content_append_terminator]
      obtain ⟨hlt, hget⟩ := List.getElem?_eq_some_iff.mp hline
      rw [← hget]
      exact List.set_getElem_self hlt
  | some change =>
    obtain ⟨new, delta⟩ := change
    obtain ⟨line, hline, -, rfl, rfl⟩ := mapContent_eq_some.mp hchange
    rw [hline]
    exact Or.inr rfl

end FileLines

namespace Fix

theorem Draft.repair?_of_replace {d : Draft} {p : Problem} {old new : String}
    (hrepair : p.repair = some (.replace old new)) :
    d.repair? p = some ⟨d.lines.replaced old new (d.index p), d.offsets⟩ := by
  unfold repair? change? apply
  rw [hrepair]
  split
  next hlength =>
    have hsame : d.lines.replaced old new (d.index p) = d.lines := by
      unfold FileLines.replaced
      exact List.modify_eq_self hlength
    rw [hsame]
    rfl
  · rcases d.lines.replace_eq old new (d.index p) with ⟨hnone, hsame⟩ | hsome
    · dsimp only
      rw [hnone, hsame]
      rfl
    · dsimp only
      rw [hsome]
      rfl

/-- The text of a file after a name has been replaced on one of its lines. -/
def replacedText (old new text : String) (line : Nat) : String :=
  String.ofList ((FileLines.ofChars text.toList).replaced old new (line - 1)).flatten

/-- A replacement on its own. -/
theorem repairFile_replace {fs : Files} {path text : String} {selection : Selection} {p : Problem}
    {old new : String} (hread : fs.read? path = some text) (hselects : selection.selects p = true)
    (hrepair : p.repair = some (.replace old new)) :
    ∃ fs' summary, repairFile fs selection path [p] = (fs', .ok summary) ∧
      fs'.read? path = some (replacedText old new text p.line) := by
  obtain ⟨_, _, done, last, hdone, hfile, _, hresult⟩ :=
    repairFile_applies hread selection [p]
  have hselected : selected selection [p] = [p] := by
    unfold selected
    rw [List.filter_cons_of_pos hselects]
    rfl
  have hleading : leading none [p] = [p] := rfl
  rw [hselected, hleading] at hresult
  cases hrun : repairFile fs selection path [p] with
  | mk fs' result =>
    rw [hrun] at hresult hfile
    cases result with
    | error e =>
      obtain ⟨q, rest, hq, _, hnone, _⟩ := hresult
      have hmem : q ∈ [p] := hq ▸ List.mem_append_right done List.mem_cons_self
      rw [List.mem_singleton.mp hmem, hrepair] at hnone
      cases hnone
    | ok summary =>
      obtain ⟨rfl, _⟩ := hresult
      rw [List.foldlM_cons, Draft.repair?_of_replace hrepair] at hdone
      cases hdone
      refine ⟨fs', summary, rfl, ?_⟩
      have hindex : (Draft.ofText text).index p = p.line - 1 := by
        unfold Draft.index Draft.ofText LineShifts.current
        show (max 1 ((p.line : Int) + 0)).toNat - 1 = p.line - 1
        omega
      rw [hfile, hindex]
      rfl

/-- The scalar of a problem that proposes another name, in the two texts. -/
def respelling (old new text : String) (line : Nat) (place : Mark) : Respelling where
  old := .ofText text
  new := .ofText (replacedText old new text line)
  place
  word := old
  newWord := new

end Fix

theorem Vocabulary.Renamed.written {w : Respelling} (h : Renamed w.word w.newWord) : w.Written := by
  obtain ⟨start, newStart, kind, hstart, hnew, hold, hnewWord⟩ := h
  have hhead {s : List Char} {word : String} (hs : isNameStart s = true)
      (hword : word.toList = s ++ kind) : word ≠ "" ∧ word ≠ "~" := by
    cases s with
    | nil => cases hs
    | cons c r =>
      have hlower : c.isLower = true := (Bool.and_eq_true_iff.mp hs).1
      constructor
      · rintro rfl
        cases hword
      · rintro rfl
        cases (List.cons.inj hword).1
        cases hlower
  exact ⟨hhead hstart hold, (hhead hnew hnewWord).2⟩

namespace Fix

variable {l : Linter} {fs : Files} {path text : String} {file : Option String} {p : Problem}
  {old new : String} {selection : Selection}

end Fix

end Blueprint
