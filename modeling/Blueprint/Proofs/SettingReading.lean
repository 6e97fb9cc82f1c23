import Blueprint.Proofs.SettingEquality
import Blueprint.Setting.Read

/-!
Every setting that is read from a text has distinct keys in each of its mappings.
-/

namespace Blueprint

open Setting (Entries)

namespace Draft

variable {target? : Nat → Option Draft}

theorem reading_bind_eq_some {α β : Type} {x : Reading α} {f : α → Reading β} {jumps left : Nat}
    {b : β} (h : (x >>= f) jumps = some (b, left)) :
    ∃ a middle, x jumps = some (a, middle) ∧ f a middle = some (b, left) := by
  obtain ⟨⟨a, middle⟩, hx, hf⟩ := Option.bind_eq_some_iff.mp h
  exact ⟨a, middle, hx, hf⟩

section Collections

variable {read : Draft → Reading Setting}
  (hread : ∀ d jumps v left, read d jumps = some (v, left) → v.Unambiguous)
include hread

theorem mapM_unambiguous {items : List Draft} {vs : List Setting} {jumps left : Nat}
    (h : items.mapM read jumps = some (vs, left)) : ∀ v ∈ vs, v.Unambiguous := by
  induction items generalizing vs jumps with
  | nil =>
    cases h
    exact fun _ hmem => absurd hmem List.not_mem_nil
  | cons item items ih =>
    rw [List.mapM_cons] at h
    obtain ⟨v, _, hv, h⟩ := reading_bind_eq_some h
    obtain ⟨later, _, hlater, h⟩ := reading_bind_eq_some h
    cases h
    exact List.forall_mem_cons.mpr ⟨hread _ _ _ _ hv, ih hlater⟩

theorem readEntries_unambiguous {done entries : Entries} {drafts : List (Draft × Draft)}
    {jumps left : Nat} (h : readEntries read done drafts jumps = some (entries, left))
    (hdone : (Setting.mapping done.reverse).Unambiguous) :
    (Setting.mapping entries).Unambiguous := by
  induction drafts generalizing done jumps with
  | nil =>
    cases h
    exact hdone
  | cons pair drafts ih =>
    obtain ⟨key, _, hkey, h⟩ := reading_bind_eq_some h
    split at h
    · cases h
    next hnew =>
      obtain ⟨value, _, hvalue, h⟩ := reading_bind_eq_some h
      have hapart := Entries.get?_eq_none.mp (Option.not_isSome_iff_eq_none.mp hnew)
      refine ih h ?_
      rw [List.reverse_cons, ← Entries.insert_eq_append
        fun entry hmem => hapart entry (List.mem_reverse.mp hmem)]
      exact Entries.unambiguous_insert hdone (hread _ _ _ _ hkey) (hread _ _ _ _ hvalue)

end Collections

theorem ofPlain?_unambiguous {s : String} {v : Setting} (h : Setting.ofPlain? s = some v) :
    v.Unambiguous := by
  unfold Setting.ofPlain? at h
  repeat' split at h
  all_goals cases h
  all_goals constructor

theorem ofTagged?_unambiguous {tag s : String} {v : Setting} (h : Setting.ofTagged? tag s = some v) :
    v.Unambiguous := by
  unfold Setting.ofTagged? at h
  split at h
  · obtain ⟨b, _, rfl⟩ := Option.map_eq_some_iff.mp h
    exact .bool b
  · repeat' split at h
    · cases h
      constructor
    · cases h
    · obtain ⟨x, _, rfl⟩ := Option.map_eq_some_iff.mp h
      exact .float x
    · cases h
      exact .null
    · cases h
    · cases h
      exact .text s

theorem scalarSetting?_unambiguous {text : String} {style : Yaml.ScalarStyle}
    {tag : Option Yaml.Uri} {v : Setting} (h : scalarSetting? text style tag = some v) :
    v.Unambiguous := by
  have huntagged {w : Setting}
      (hw : (if style = .plain then Setting.ofPlain? text else some (.text text)) = some w) :
      w.Unambiguous := by
    split at hw
    · exact ofPlain?_unambiguous hw
    · cases hw
      exact .text text
  unfold scalarSetting? at h
  dsimp only at h
  split at h
  · obtain ⟨w, hw, rfl⟩ := Option.map_eq_some_iff.mp h
    exact .tagged _ (huntagged hw)
  · split at h
    · exact huntagged h
    · exact ofTagged?_unambiguous h
  · exact huntagged h

theorem underTag_unambiguous (tag : Option Yaml.Uri) {v : Setting} (h : v.Unambiguous) :
    (Setting.underTag tag v).Unambiguous := by
  unfold Setting.underTag
  split
  · exact .tagged _ h
  · exact h

/-- A setting is read from the inside: its items, keys and values are less deep than itself. -/
theorem setting_unambiguous {depth jumps left : Nat} {d : Draft} {v : Setting}
    (h : setting target? depth d jumps = some (v, left)) : v.Unambiguous := by
  induction depth using Nat.strongRecOn generalizing jumps left d v with
  | ind depth ih =>
    rw [setting.eq_def] at h
    obtain ⟨found, _, _, h⟩ := reading_bind_eq_some h
    split at h
    · obtain ⟨w, hw, h⟩ := Option.bind_eq_some_iff.mp h
      cases h
      exact scalarSetting?_unambiguous hw
    · split at h
      · cases h
      · obtain ⟨vs, _, hvs, h⟩ := reading_bind_eq_some h
        cases h
        exact underTag_unambiguous _ <| .list <|
          mapM_unambiguous (fun _ _ _ _ h => ih _ (Nat.lt_succ_self _) h) hvs
    · split at h
      · cases h
      · obtain ⟨entries, _, hentries, h⟩ := reading_bind_eq_some h
        cases h
        exact underTag_unambiguous _ <| readEntries_unambiguous
          (fun _ _ _ _ h => ih _ (Nat.lt_succ_self _) h) hentries Entries.unambiguous_nil
    · cases h

end Draft

/-- The setting of a text has distinct keys in each of its mappings. -/
theorem Setting.ofText?_unambiguous {text : String} {v : Setting} (h : ofText? text = some v) :
    v.Unambiguous := by
  obtain ⟨document, _, h⟩ := Option.bind_eq_some_iff.mp h
  dsimp only at h
  split at h
  · cases h
    exact .null
  · obtain ⟨⟨value, left⟩, hread, h⟩ := Option.bind_eq_some_iff.mp h
    cases h
    exact Draft.setting_unambiguous hread

end Blueprint
