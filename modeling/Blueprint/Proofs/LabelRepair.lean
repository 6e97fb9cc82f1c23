import Blueprint.Proofs.CosmeticMeaning
import Blueprint.Proofs.InsertedEntry
import Blueprint.Proofs.OlderTypes
import Blueprint.Proofs.RepairRun
import Blueprint.Proofs.UnusedInputs

/-!
Repairing an input without a label: the label is put in front of the body of the input.
-/

namespace Blueprint

/-- The input of a section to which a problem proposes to add a label. -/
structure Node.LacksLabel (inputs : Node) (p : Problem) (name : String) (key body : Node) : Prop where
  entry : (name, key, body) ∈ inputs.namedEntries
  line : key.line = p.line
  filled : body.entries ≠ []
  unlabelled : body.get? "display_label" = none

namespace Rules

variable {s : Session} {p : Problem} {name : String}

theorem checkTypedInput_label {input inputType : String} {line : Nat} {body : Node}
    (hp : p ∈ checkTypedInput s input inputType line body) (hrepair : p.repair = some (.addLabel name)) :
    input = name ∧ line = p.line ∧ body.get? "display_label" = none := by
  have hplain {message : String} (hp : p ∈ [inputProblem line message]) :
      input = name ∧ line = p.line ∧ body.get? "display_label" = none := by
    rw [List.mem_singleton.mp hp] at hrepair
    cases hrepair
  unfold checkTypedInput at hp
  dsimp only at hp
  split at hp
  · exact hplain hp
  · split at hp
    · exact hplain hp
    · split at hp
      next hnone =>
        obtain rfl := List.mem_singleton.mp hp
        cases hrepair
        exact ⟨rfl, rfl, Option.isNone_iff_eq_none.mp hnone⟩
      · split at hp
        · exact hplain hp
        · cases hp

theorem checkDefinedInput_label {input : String} {line : Nat} {body : Node}
    (hp : p ∈ checkDefinedInput s input line body) (hrepair : p.repair = some (.addLabel name)) :
    input = name ∧ line = p.line ∧ body.entries ≠ [] ∧ body.get? "display_label" = none := by
  have hplain {message : String} (hp : p = inputProblem line message) : False := by
    rw [hp] at hrepair
    cases hrepair
  unfold checkDefinedInput at hp
  split at hp
  · cases hp
  next hfilled =>
    have hentries : body.entries ≠ [] := fun h => hfilled (List.isEmpty_iff.mpr h)
    rcases List.mem_append.mp hp with hp | hp
    · unfold checkInputKeys at hp
      dsimp only at hp
      split at hp
      · cases hp
      · exact (hplain (List.mem_singleton.mp hp)).elim
    · split at hp
      · exact (hplain (List.mem_singleton.mp hp)).elim
      · split at hp
        · exact (hplain (List.mem_singleton.mp hp)).elim
        · obtain ⟨hname, hline, hlabel⟩ := checkTypedInput_label hp hrepair
          exact ⟨hname, hline, hentries, hlabel⟩

theorem checkInputNode_label {c : RuleSettings} {v : NodeVisit}
    (hp : p ∈ (checkInputNode c v s).1) (hrepair : p.repair = some (.addLabel name)) :
    v.isSection ["inputs"] = true ∧ ∃ key body, v.node.LacksLabel p name key body := by
  unfold checkInputNode at hp
  split at hp
  next hsection =>
    refine ⟨hsection, ?_⟩
    unfold checkInputSection at hp
    dsimp only at hp
    split at hp
    · obtain ⟨item, _, rfl⟩ := List.mem_map.mp hp
      cases hrepair
    · obtain ⟨⟨input, key, body⟩, hentry, hp⟩ := List.mem_flatMap.mp hp
      obtain ⟨rfl, hline, hentries, hlabel⟩ := checkDefinedInput_label hp hrepair
      exact ⟨key, body, hentry, hline, hentries, hlabel⟩
  · split at hp
    · unfold checkInputReference at hp
      split at hp
      · cases hp
      · split at hp
        · cases hp
        · cases List.mem_singleton.mp hp
          cases hrepair
    · cases hp

end Rules

/-- A problem that proposes to add a label stands on the line of an input that has a body and no
label. -/
theorem Linter.run_labels {l : Linter} {fs : Files} {text : String} {file : Option String}
    {p : Problem} {name : String} (hl : l.registry = Registry.builtin)
    (hp : p ∈ (l.run fs text file).problems) (hrule : p.rule = "inputs")
    (hrepair : p.repair = some (.addLabel name)) :
    ∃ root, textRoot? text = some root ∧ ∃ v ∈ root.walk, v.isSection ["inputs"] = true ∧
      ∃ key body, v.node.LacksLabel p name key body := by
  rcases mem_problems hp with hreport | hfault
  · obtain ⟨a, ha, q, s, rfl, hq⟩ := Call.mem_schedule hreport
    have hbuiltin : a.rule ∈ Registry.builtin.rules := hl ▸ mem_registry_of_mem_rulesFor ha
    have hinputs : a.rule = Rules.inputs := Registry.eq_of_name hbuiltin Registry.inputs_mem hrule
    rw [hinputs] at hq
    rcases hq with hq | ⟨e, he, hq⟩
    · change q ∈ (Rules.finishInputs a.conf s).1 at hq
      unfold Rules.finishInputs at hq
      dsimp only at hq
      split at hq
      · obtain ⟨entry, _, rfl⟩ := List.mem_map.mp hq
        cases hrepair
      · cases hq
    · cases e with
      | node v =>
        obtain ⟨root, hroot, hv⟩ := Element.mem_walk he
        obtain ⟨hsection, key, body, hlabel⟩ := Rules.checkInputNode_label (p := q) (c := a.conf) hq hrepair
        exact ⟨root, hroot, v, hv, hsection, key, body,
          ⟨hlabel.entry, hlabel.line, hlabel.filled, hlabel.unlabelled⟩⟩
      | _ => cases hq
  · rw [(textFault?_isFault hfault).repair] at hrepair
    cases hrepair

namespace Fix

/-- The label in a text that has been repaired, in front of the first key of a body. -/
def labelInsertion (text repaired : String) (opening : Mark) (first : Node) (label : String)
    (style : Yaml.ScalarStyle) : Insertion where
  old := .ofText text
  new := .ofText repaired
  opening
  place := first.start
  word := first.text?.getD ""
  key := "display_label"
  text := label
  style

theorem apply_label {p : Problem} {name : String} {lines new : FileLines} {delta : Int} {index : Nat}
    (hrepair : p.repair = some (.addLabel name))
    (h : lines.insertLabel name index = some (new, delta)) :
    apply p lines index = some (some (new, delta)) := by
  obtain ⟨line, _, hget, _⟩ := FileLines.insertLabel_eq_some h
  have hlt : index < lines.length := (List.getElem?_eq_some_iff.mp hget).1
  unfold apply
  rw [if_neg (Nat.not_le.mpr hlt), hrepair]
  exact congrArg some h

variable {l : Linter} {fs : Files} {path text : String} {file : Option String} {p : Problem}
  {name : String} {selection : Selection} {lines : FileLines} {delta : Int}

end Fix

end Blueprint
