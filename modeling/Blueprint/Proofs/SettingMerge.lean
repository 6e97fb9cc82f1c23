import Blueprint.Setting.Merge
import Mathlib.Data.List.Perm.Basic
import Mathlib.Tactic.Common

/-!
Entries of mappings when one mapping is layered over another. What the overlay gives, other than a
null, is found in the result, and under a text key nothing else is found.
-/

namespace Blueprint.Setting

theorem same_text {k : Setting} {s : String} : k.same (.text s) = true ↔ k = .text s := by
  cases k with
  | text t => exact beq_iff_eq.trans (text.injEq t s).to_iff.symm
  | _ => exact iff_of_false Bool.false_ne_true Setting.noConfusion

theorem text_same {k : Setting} {s : String} : (text s).same k = true ↔ k = .text s := by
  cases k with
  | text t => exact beq_iff_eq.trans (eq_comm.trans (text.injEq t s).to_iff.symm)
  | _ => exact iff_of_false Bool.false_ne_true Setting.noConfusion

theorem int_same {k : Setting} {i : Int} : (int i).same k = true ↔ k = .int i := by
  cases k with
  | int j => exact beq_iff_eq.trans (eq_comm.trans (int.injEq j i).to_iff.symm)
  | _ => exact iff_of_false Bool.false_ne_true Setting.noConfusion

theorem null_same {k : Setting} : null.same k = true ↔ k = .null := by
  cases k with
  | null => exact iff_of_true rfl rfl
  | _ => exact iff_of_false Bool.false_ne_true Setting.noConfusion

theorem holdsAll_iff {entries entries' : Entries} : holdsAll entries' entries = true ↔
    ∀ entry ∈ entries, ∃ e ∈ entries', entry.1.same e.1 = true ∧ entry.2.same e.2 = true := by
  induction entries with
  | nil => exact iff_of_true rfl fun _ hmem => absurd hmem List.not_mem_nil
  | cons entry entries ih =>
    rw [List.forall_mem_cons, ← ih, holdsAll, Bool.and_eq_true, List.any_eq_true]
    simp only [Bool.and_eq_true]

/-- Whatever is the same as a mapping is a mapping with an equal entry for each of its entries. -/
theorem exists_of_mapping_same {entries : Entries} {v : Setting}
    (h : (mapping entries).same v = true) :
    ∃ entries', v = .mapping entries' ∧
      ∀ entry ∈ entries, ∃ e ∈ entries', entry.1.same e.1 = true ∧ entry.2.same e.2 = true := by
  cases v with
  | mapping entries' => exact ⟨entries', rfl, holdsAll_iff.mp (Bool.and_eq_true_iff.mp h).2⟩
  | _ => cases h

theorem merge_of_not_mapping {below : Setting} (h : ∀ entries, below ≠ .mapping entries)
    (v : Setting) : merge below v = v := by
  cases v with
  | mapping overlay =>
    cases below with
    | mapping entries => exact absurd rfl (h entries)
    | _ => rfl
  | _ => rfl

namespace Entries

variable {e : Entries} {k v k' v' : Setting} {s : String} {b : Setting}

/-- No key is equal to an earlier one. -/
def Distinct (e : Entries) : Prop :=
  e.Pairwise fun a b => b.1.same a.1 = false

theorem Distinct.of_keys {e' : Entries} (h : e.Distinct) (hkeys : e'.map (·.1) = e.map (·.1)) :
    Distinct e' := by
  have hmap (e : Entries) :
      e.Distinct ↔ (e.map (·.1)).Pairwise fun a b => b.same a = false := by
    rw [List.pairwise_map]
    exact Iff.rfl
  rw [hmap] at h ⊢
  rwa [hkeys]

/-- No text is the key of two entries. -/
def SingleTexts (e : Entries) : Prop :=
  e.Pairwise fun a b => ∀ s, a.1 = .text s → b.1 ≠ .text s

theorem SingleTexts.perm {e' : Entries} (h : e.SingleTexts) (hperm : e.Perm e') :
    SingleTexts e' :=
  hperm.pairwise h fun hab s hb ha => hab s ha hb

theorem get?_eq_some (h : e.get? (.text s) = some b) : (.text s, b) ∈ e := by
  obtain ⟨⟨key, value⟩, hfind, rfl⟩ := Option.map_eq_some_iff.mp h
  have hsame : (text s).same key = true := by simpa using List.find?_some hfind
  rw [text_same.mp hsame] at hfind
  exact List.mem_of_find?_eq_some hfind

theorem get?_insert_self (e : Entries) (s : String) (v : Setting) :
    (e.insert (.text s) v).get? (.text s) = some v := by
  induction e with
  | nil => simp [insert, get?, text_same]
  | cons entry e ih =>
    rw [insert]
    split
    next hsame => rw [get?, List.find?_cons_of_pos (by exact hsame)]; rfl
    next hother => rw [get?, List.find?_cons_of_neg (by exact hother)]; exact ih

theorem get?_insert_of_ne (hk : k ≠ .text s) (e : Entries) (v : Setting) :
    (e.insert k v).get? (.text s) = e.get? (.text s) := by
  have hmiss : ¬(text s).same k = true := fun h => hk (text_same.mp h)
  induction e with
  | nil => rw [insert, get?, List.find?_cons_of_neg (by exact hmiss)]; rfl
  | cons entry e ih =>
    obtain ⟨key, value⟩ := entry
    rw [insert]
    split
    next hsame =>
      have hkey : ¬(text s).same key = true := by
        intro h
        rw [text_same.mp h] at hsame
        exact hk (same_text.mp hsame)
      rw [get?, get?, List.find?_cons_of_neg (by exact hkey), List.find?_cons_of_neg (by exact hkey)]
    · by_cases hkey : (text s).same key = true
      · rw [get?, get?, List.find?_cons_of_pos (by exact hkey),
          List.find?_cons_of_pos (by exact hkey)]
      · rw [get?, get?, List.find?_cons_of_neg (by exact hkey),
          List.find?_cons_of_neg (by exact hkey)]
        exact ih

theorem mem_insert_of_mem (h : (k', v') ∈ e) (hother : k.same k' = false) :
    (k', v') ∈ e.insert k v := by
  induction e with
  | nil => cases h
  | cons entry e ih =>
    obtain ⟨key, value⟩ := entry
    rw [insert]
    split
    next hsame =>
      rcases List.mem_cons.mp h with heq | h
      · cases heq
        rw [hother] at hsame
        cases hsame
      · exact List.mem_cons_of_mem _ h
    · rcases List.mem_cons.mp h with heq | h
      · rw [heq]
        exact List.mem_cons_self
      · exact List.mem_cons_of_mem _ (ih h)

/-- The new value stands under its key, if no other key of the entries is equal to it. -/
theorem mem_insert_self (hkeys : ∀ entry ∈ e, k.same entry.1 = true → entry.1 = k) :
    (k, v) ∈ e.insert k v := by
  induction e with
  | nil => exact List.mem_singleton.mpr rfl
  | cons entry e ih =>
    rw [insert]
    split
    next hsame =>
      rw [hkeys entry List.mem_cons_self hsame]
      exact List.mem_cons_self
    · exact List.mem_cons_of_mem _ (ih fun x hx => hkeys x (List.mem_cons_of_mem _ hx))

theorem key_of_mem_insert (h : (k', v') ∈ e.insert k v) : k' = k ∨ ∃ w, (k', w) ∈ e := by
  induction e with
  | nil =>
    cases List.mem_singleton.mp h
    exact .inl rfl
  | cons entry e ih =>
    rw [insert] at h
    split at h
    · rcases List.mem_cons.mp h with heq | h
      · cases heq
        exact .inr ⟨_, List.mem_cons_self⟩
      · exact .inr ⟨_, List.mem_cons_of_mem _ h⟩
    · rcases List.mem_cons.mp h with heq | h
      · cases heq
        exact .inr ⟨_, List.mem_cons_self⟩
      · rcases ih h with rfl | ⟨w, hw⟩
        · exact .inl rfl
        · exact .inr ⟨w, List.mem_cons_of_mem _ hw⟩

theorem value_of_mem_insert (h : (k', v') ∈ e.insert k v) : v' = v ∨ (k', v') ∈ e := by
  induction e with
  | nil =>
    cases List.mem_singleton.mp h
    exact .inl rfl
  | cons entry e ih =>
    rw [insert] at h
    split at h
    · rcases List.mem_cons.mp h with heq | h
      · cases heq
        exact .inl rfl
      · exact .inr (List.mem_cons_of_mem _ h)
    · rcases List.mem_cons.mp h with heq | h
      · rw [heq]
        exact .inr List.mem_cons_self
      · exact (ih h).imp_right fun hmem => List.mem_cons_of_mem _ hmem

theorem singleTexts_insert (h : e.SingleTexts) (k v : Setting) : (e.insert k v).SingleTexts := by
  induction e with
  | nil => exact List.pairwise_singleton _ _
  | cons entry e ih =>
    obtain ⟨hfirst, hrest⟩ := List.pairwise_cons.mp h
    rw [insert]
    split
    · exact List.pairwise_cons.mpr ⟨hfirst, hrest⟩
    next hother =>
      refine List.pairwise_cons.mpr ⟨?_, ih hrest⟩
      intro x hx s hentry
      rcases key_of_mem_insert hx with hkey | ⟨w, hw⟩
      · rw [hkey]
        rintro rfl
        exact hother (text_same.mpr hentry)
      · exact hfirst (x.1, w) hw s hentry

theorem text_mem_insert (h : e.SingleTexts) (hmem : (.text s, b) ∈ e.insert (.text s) v) :
    b = v := by
  induction e with
  | nil =>
    cases List.mem_singleton.mp hmem
    rfl
  | cons entry e ih =>
    obtain ⟨key, value⟩ := entry
    obtain ⟨hfirst, hrest⟩ := List.pairwise_cons.mp h
    rw [insert] at hmem
    split at hmem
    next hsame =>
      rcases List.mem_cons.mp hmem with heq | hmem
      · cases heq
        rfl
      · exact absurd rfl (hfirst _ hmem s (text_same.mp hsame))
    next hother =>
      rcases List.mem_cons.mp hmem with heq | hmem
      · cases heq
        exact absurd (text_same.mpr rfl) hother
      · exact ih hrest hmem

theorem mem_of_text_mem_insert (hk : k ≠ .text s) (hmem : (.text s, b) ∈ e.insert k v) :
    (.text s, b) ∈ e := by
  induction e with
  | nil =>
    cases List.mem_singleton.mp hmem
    exact absurd rfl hk
  | cons entry e ih =>
    obtain ⟨key, value⟩ := entry
    rw [insert] at hmem
    split at hmem
    next hsame =>
      rcases List.mem_cons.mp hmem with heq | hmem
      · cases heq
        exact absurd (same_text.mp hsame) hk
      · exact List.mem_cons_of_mem _ hmem
    · rcases List.mem_cons.mp hmem with heq | hmem
      · rw [heq]
        exact List.mem_cons_self
      · exact List.mem_cons_of_mem _ (ih hmem)

/-- Taking out a key removes one entry under it, or there is none. -/
theorem erase_perm (k : Setting) (e : Entries) :
    (∀ entry ∈ e, k.same entry.1 = false) ∧ e.erase k = e ∨
      ∃ entry, k.same entry.1 = true ∧ e.Perm (entry :: e.erase k) := by
  induction e with
  | nil => exact .inl ⟨fun _ h => absurd h List.not_mem_nil, rfl⟩
  | cons entry e ih =>
    rw [erase]
    split
    next hsame =>
      refine .inr ⟨entry, hsame, ?_⟩
      split
      next last hlast =>
        have hmoved : (e.dropLast ++ [last]).Perm (last :: e.dropLast) :=
          List.perm_append_singleton _ _
        have hsplit : e.dropLast ++ [last] = e := List.dropLast_append_getLast? last hlast
        rw [hsplit] at hmoved
        exact hmoved.cons entry
      next hnone =>
        rw [List.getLast?_eq_none_iff.mp hnone]
    next hother =>
      rcases ih with ⟨hnone, hkept⟩ | ⟨x, hx, hperm⟩
      · refine .inl ⟨?_, by rw [hkept]⟩
        intro y hy
        rcases List.mem_cons.mp hy with rfl | hy
        · exact Bool.eq_false_iff.mpr hother
        · exact hnone y hy
      · exact .inr ⟨x, hx, (hperm.cons entry).trans (List.Perm.swap x entry _)⟩

theorem mem_of_mem_erase {entry : Setting × Setting} (h : entry ∈ e.erase k) : entry ∈ e := by
  rcases erase_perm k e with ⟨_, hkept⟩ | ⟨x, _, hperm⟩
  · rwa [hkept] at h
  · exact hperm.mem_iff.mpr (List.mem_cons_of_mem x h)

theorem mem_erase_of_mem (h : (k', v') ∈ e) (hother : k.same k' = false) :
    (k', v') ∈ e.erase k := by
  rcases erase_perm k e with ⟨_, hkept⟩ | ⟨x, hx, hperm⟩
  · rwa [hkept]
  · rcases List.mem_cons.mp (hperm.mem_iff.mp h) with rfl | h
    · rw [hother] at hx
      cases hx
    · exact h

theorem singleTexts_erase (h : e.SingleTexts) (k : Setting) : (e.erase k).SingleTexts := by
  rcases erase_perm k e with ⟨_, hkept⟩ | ⟨x, _, hperm⟩
  · rwa [hkept]
  · exact (List.pairwise_cons.mp (h.perm hperm)).2

theorem text_not_mem_erase (h : e.SingleTexts) : (.text s, b) ∉ e.erase (.text s) := by
  intro hmem
  rcases erase_perm (.text s) e with ⟨hnone, hkept⟩ | ⟨x, hx, hperm⟩
  · rw [hkept] at hmem
    exact Bool.eq_false_iff.mp (hnone _ hmem) (text_same.mpr rfl)
  · exact (List.pairwise_cons.mp (h.perm hperm)).1 _ hmem s (text_same.mp hx) rfl

end Entries

open Entries

/-- What is left of `result` when one entry of an overlay is applied to it. -/
def layer (base result : Entries) (k v : Setting) : Entries :=
  if v.isNull then result.erase k
  else
    match base.get? k with
    | some below => result.insert k (merge below v)
    | none => result.insert k v

theorem mergeEntries_cons (base result : Entries) (k v : Setting) (overlay : Entries) :
    mergeEntries base result ((k, v) :: overlay) =
      mergeEntries base (layer base result k v) overlay := rfl

/-- Where the overlay takes out nothing, its value is merged with the one below it. -/
theorem get?_mergeEntries {base result overlay : Entries} {s : String} {v : Setting}
    (hnull : ∀ entry ∈ overlay, entry.2.isNull = false) (hdistinct : overlay.Distinct)
    (h : (.text s, v) ∈ overlay) :
    (mergeEntries base result overlay).get? (.text s) =
      some (((base.get? (.text s)).map fun below => merge below v).getD v) := by
  have hlayer (result : Entries) {k v : Setting} (hv : v.isNull = false) :
      layer base result k v =
        result.insert k (((base.get? k).map fun below => merge below v).getD v) := by
    unfold layer
    rw [hv, if_neg Bool.false_ne_true]
    split
    next below hbelow => rw [hbelow]; rfl
    next hnone => rw [hnone]; rfl
  have hkeep (result : Entries) {overlay : Entries} (hnull : ∀ entry ∈ overlay, entry.2.isNull = false)
      (hother : ∀ entry ∈ overlay, entry.1 ≠ .text s) :
      (mergeEntries base result overlay).get? (.text s) = result.get? (.text s) := by
    induction overlay generalizing result with
    | nil => rfl
    | cons entry overlay ih =>
      rw [mergeEntries_cons, ih _ (fun x hx => hnull x (List.mem_cons_of_mem _ hx))
        fun x hx => hother x (List.mem_cons_of_mem _ hx), hlayer _ (hnull entry List.mem_cons_self),
        get?_insert_of_ne (hother entry List.mem_cons_self)]
  induction overlay generalizing result with
  | nil => cases h
  | cons entry overlay ih =>
    obtain ⟨hfirst, hrest⟩ := List.pairwise_cons.mp hdistinct
    have hlater : ∀ x ∈ overlay, x.2.isNull = false := fun x hx => hnull x (List.mem_cons_of_mem _ hx)
    rw [mergeEntries_cons]
    rcases List.mem_cons.mp h with rfl | h
    · have hother : ∀ x ∈ overlay, x.1 ≠ .text s := by
        intro x hx heq
        have hne := hfirst x hx
        rw [heq, text_same.mpr rfl] at hne
        cases hne
      rw [hkeep _ hlater hother, hlayer _ (hnull _ List.mem_cons_self), get?_insert_self]
    · exact ih hlater hrest h

section Flat

variable {base result overlay : Entries} {k v k' v' b : Setting} {s : String}

/-- Over values that are no mappings an entry takes out a key or gives it its value. -/
theorem layer_eq (hbase : ∀ entry ∈ base, ∀ entries, entry.2 ≠ .mapping entries)
    (result : Entries) (k v : Setting) :
    layer base result k v = if v.isNull then result.erase k else result.insert k v := by
  unfold layer
  split
  · rfl
  · split
    next below hbelow =>
      obtain ⟨entry, hfind, rfl⟩ := Option.map_eq_some_iff.mp hbelow
      rw [merge_of_not_mapping (hbase entry (List.mem_of_find?_eq_some hfind))]
    · rfl

variable (hbase : ∀ entry ∈ base, ∀ entries, entry.2 ≠ .mapping entries)
include hbase

theorem singleTexts_layer (h : result.SingleTexts) (k v : Setting) :
    (layer base result k v).SingleTexts := by
  rw [layer_eq hbase]
  split
  · exact singleTexts_erase h k
  · exact singleTexts_insert h k v

theorem mem_layer_of_mem (h : (k', v') ∈ result) (hother : k.same k' = false) :
    (k', v') ∈ layer base result k v := by
  rw [layer_eq hbase]
  split
  · exact mem_erase_of_mem h hother
  · exact mem_insert_of_mem h hother

theorem key_of_mem_layer (h : (k', v') ∈ layer base result k v) :
    k' = k ∨ ∃ w, (k', w) ∈ result := by
  rw [layer_eq hbase] at h
  split at h
  · exact .inr ⟨v', mem_of_mem_erase h⟩
  · exact key_of_mem_insert h

theorem mem_mergeEntries_of_mem (h : (k', v') ∈ result)
    (hother : ∀ entry ∈ overlay, entry.1.same k' = false) :
    (k', v') ∈ mergeEntries base result overlay := by
  induction overlay generalizing result with
  | nil => exact h
  | cons entry overlay ih =>
    rw [mergeEntries_cons]
    exact ih (mem_layer_of_mem hbase h (hother entry List.mem_cons_self))
      fun x hx => hother x (List.mem_cons_of_mem _ hx)

/-- Every entry of the overlay but the nulls is one of the result. -/
theorem mem_mergeEntries (hdistinct : overlay.Distinct)
    (hkeys : ∀ entry ∈ overlay, ∀ x ∈ result, entry.1.same x.1 = true → x.1 = entry.1)
    (h : (k, v) ∈ overlay) (hv : v.isNull = false) : (k, v) ∈ mergeEntries base result overlay := by
  induction overlay generalizing result with
  | nil => cases h
  | cons entry overlay ih =>
    obtain ⟨hfirst, hrest⟩ := List.pairwise_cons.mp hdistinct
    rw [mergeEntries_cons]
    rcases List.mem_cons.mp h with rfl | h
    · refine mem_mergeEntries_of_mem hbase ?_ hfirst
      rw [layer_eq hbase, if_neg (by rw [hv]; exact Bool.false_ne_true)]
      exact mem_insert_self (hkeys _ List.mem_cons_self)
    · refine ih hrest ?_ h
      intro x hx y hy hsame
      rcases key_of_mem_layer hbase hy with hkey | ⟨w, hw⟩
      · rw [hkey, hfirst x hx] at hsame
        cases hsame
      · exact hkeys x (List.mem_cons_of_mem _ hx) (y.1, w) hw hsame

theorem mem_of_text_mem_mergeEntries (hother : ∀ entry ∈ overlay, entry.1 ≠ .text s)
    (h : (.text s, b) ∈ mergeEntries base result overlay) : (.text s, b) ∈ result := by
  induction overlay generalizing result with
  | nil => exact h
  | cons entry overlay ih =>
    rw [mergeEntries_cons] at h
    have hlayer := ih (fun x hx => hother x (List.mem_cons_of_mem _ hx)) h
    rw [layer_eq hbase] at hlayer
    split at hlayer
    · exact mem_of_mem_erase hlayer
    · exact mem_of_text_mem_insert (hother entry List.mem_cons_self) hlayer

/-- Under a text key of the overlay only the value that the overlay gives is left. -/
theorem text_mem_mergeEntries (hresult : result.SingleTexts) (hdistinct : overlay.Distinct)
    (hover : (.text s, v) ∈ overlay) (h : (.text s, b) ∈ mergeEntries base result overlay) :
    b = v := by
  induction overlay generalizing result with
  | nil => cases hover
  | cons entry overlay ih =>
    obtain ⟨hfirst, hrest⟩ := List.pairwise_cons.mp hdistinct
    rw [mergeEntries_cons] at h
    rcases List.mem_cons.mp hover with rfl | hover
    · have hlater : ∀ x ∈ overlay, x.1 ≠ .text s := by
        intro x hx heq
        have hne := hfirst x hx
        rw [heq, text_same.mpr rfl] at hne
        cases hne
      have hlayer := mem_of_text_mem_mergeEntries hbase hlater h
      rw [layer_eq hbase] at hlayer
      split at hlayer
      · exact absurd hlayer (text_not_mem_erase hresult)
      · exact text_mem_insert hresult hlayer
    · exact ih (singleTexts_layer hbase hresult entry.1 entry.2) hrest hover h

end Flat

end Blueprint.Setting
