import Blueprint.Proofs.SettingReading

/-!
What a layered setting holds under each key, and when layering an overlay once more changes nothing:
exactly if the overlay does not bring a null into a place where there is no mapping below it. Such a
null is not taken for the removal of a key but copied.
-/

namespace Blueprint.Setting

open Entries

def isMapping : Setting → Bool
  | mapping _ => true
  | _ => false

/-- The entries of a mapping without a tag. -/
def ownEntries : Setting → Entries
  | mapping entries => entries
  | _ => []

/-- What lies below the value that an overlay has under a key. -/
def beneath (base k : Setting) : Setting :=
  (base.ownEntries.get? k).getD null

mutual

/-- Whether a null of an overlay is copied: one in a mapping that lies over something else. -/
def copiesNull (base : Setting) : Setting → Bool
  | mapping overlay => copiesNullOf base overlay
  | _ => false

def copiesNullOf (base : Setting) : Entries → Bool
  | [] => false
  | (k, v) :: r =>
    (if v.isNull then !base.isMapping else copiesNull (base.beneath k) v) || copiesNullOf base r

end

/-- The value that the mappings inside each other have under a list of keys. -/
def at? : Setting → List Setting → Option Setting
  | v, [] => some v
  | v, k :: path => (v.ownEntries.get? k).bind fun inner => at? inner path

theorem copiesNull_eq_false {base : Setting} {overlay : Entries} :
    copiesNull base (mapping overlay) = false ↔ ∀ k v, (k, v) ∈ overlay →
      (v.isNull = true → base.isMapping = true) ∧
        (v.isNull = false → copiesNull (base.beneath k) v = false) := by
  rw [copiesNull]
  induction overlay with
  | nil => exact iff_of_true rfl fun _ _ h => absurd h List.not_mem_nil
  | cons entry overlay ih =>
    obtain ⟨x, w⟩ := entry
    rw [copiesNullOf, Bool.or_eq_false_iff, ih]
    constructor
    · rintro ⟨hfirst, hrest⟩ k v hmem
      rcases List.mem_cons.mp hmem with heq | hmem
      · cases heq
        cases hnull : w.isNull with
        | true => simpa [hnull] using hfirst
        | false => simpa [hnull] using hfirst
      · exact hrest k v hmem
    · intro h
      refine ⟨?_, fun k v hmem => h k v (List.mem_cons_of_mem _ hmem)⟩
      obtain ⟨hmapping, hinner⟩ := h x w List.mem_cons_self
      cases hnull : w.isNull with
      | true => simpa using hmapping hnull
      | false => simpa using hinner hnull

theorem merge_null (v : Setting) : merge null v = v :=
  merge_of_not_mapping (fun _ => Setting.noConfusion) v

section Layer

variable {base result overlay : Entries} {a b k q v : Setting}

theorem layer_eq_insert (hv : v.isNull = false) :
    layer base result k v = result.insert k (merge ((base.get? k).getD null) v) := by
  unfold layer
  rw [hv, if_neg Bool.false_ne_true]
  cases base.get? k with
  | none => rw [Option.getD_none, merge_null]
  | some below => rfl

theorem get?_layer (hresult : (mapping result).Unambiguous) (hk : k.Unambiguous)
    (hq : q.Unambiguous) :
    (layer base result k v).get? q =
      if k.same q = true then
        if v.isNull then none else some (merge ((base.get? q).getD null) v)
      else result.get? q := by
  cases hnull : v.isNull with
  | true =>
    unfold layer
    rw [hnull, if_pos rfl, get?_erase hresult hk hq]
    rfl
  | false =>
    rw [layer_eq_insert hnull, get?_insert hresult hk hq]
    split
    next hsame =>
      rw [get?_congr hk hq hsame]
      rfl
    · rfl

theorem unambiguous_layer (hbase : (mapping base).Unambiguous)
    (hresult : (mapping result).Unambiguous) (hk : k.Unambiguous)
    (hmerge : ∀ below : Setting, below.Unambiguous → (merge below v).Unambiguous) :
    (mapping (layer base result k v)).Unambiguous := by
  cases hnull : v.isNull with
  | true =>
    unfold layer
    rw [hnull, if_pos rfl]
    exact unambiguous_erase hresult k
  | false =>
    rw [layer_eq_insert hnull]
    refine unambiguous_insert hresult hk (hmerge _ ?_)
    cases hget : base.get? k with
    | none => exact .null
    | some below => exact unambiguous_of_get? hbase hget

theorem unambiguous_mergeEntries (hbase : (mapping base).Unambiguous)
    (hresult : (mapping result).Unambiguous)
    (hoverlay : ∀ entry ∈ overlay, entry.1.Unambiguous ∧
      ∀ below : Setting, below.Unambiguous → (merge below entry.2).Unambiguous) :
    (mapping (mergeEntries base result overlay)).Unambiguous := by
  induction overlay generalizing result with
  | nil => exact hresult
  | cons entry overlay ih =>
    obtain ⟨⟨hkey, hmerge⟩, hrest⟩ := List.forall_mem_cons.mp hoverlay
    rw [mergeEntries_cons]
    exact ih (unambiguous_layer hbase hresult hkey hmerge) hrest

theorem Unambiguous.merge (ha : a.Unambiguous) (hb : b.Unambiguous) :
    (a.merge b).Unambiguous := by
  induction hb generalizing a with
  | mapping hdistinct hkeys hvalues _ ih =>
    cases a with
    | mapping base =>
      exact unambiguous_mergeEntries ha ha fun entry hmem => ⟨hkeys entry hmem, fun _ => ih entry hmem⟩
    | _ => exact .mapping hdistinct hkeys hvalues
  | list items => exact .list items
  | tagged name value => exact .tagged name value
  | _ => constructor

/-- Under each key the overlay decides: a null leaves nothing there, any other value lies over what
was there, and where the overlay has nothing all stays. -/
theorem get?_mergeEntries_eq (hbase : (mapping base).Unambiguous)
    (hresult : (mapping result).Unambiguous) (hoverlay : (mapping overlay).Unambiguous)
    (hq : q.Unambiguous) :
    (mergeEntries base result overlay).get? q =
      match Entries.get? overlay q with
      | none => result.get? q
      | some v => if v.isNull then none else some (merge ((base.get? q).getD null) v) := by
  induction overlay generalizing result with
  | nil => rfl
  | cons entry overlay ih =>
    obtain ⟨x, w⟩ := entry
    obtain ⟨hx, hw, hfirst, hrest⟩ := unambiguous_cons.mp hoverlay
    rw [mergeEntries_cons, get?_cons, hq.same_comm hx,
      ih (unambiguous_layer hbase hresult hx fun _ h => h.merge hw) hrest,
      get?_layer hresult hx hq]
    by_cases hsame : x.same q = true
    · have hnone : Entries.get? overlay q = none := by
        refine get?_eq_none.mpr fun entry hmem => ?_
        rw [← hx.same_congr hq hsame, hx.same_comm (key_unambiguous hrest hmem)]
        exact hfirst entry hmem
      rw [hnone, if_pos hsame, if_pos hsame]
    · rw [if_neg hsame, if_neg hsame]

/-- The keys of a merged mapping are keys of what is merged. -/
theorem key_of_mem_mergeEntries {v' : Setting} (h : (k, v') ∈ mergeEntries base result overlay) :
    (∃ w, (k, w) ∈ overlay) ∨ ∃ w, (k, w) ∈ result := by
  induction overlay generalizing result with
  | nil => exact .inr ⟨v', h⟩
  | cons entry overlay ih =>
    obtain ⟨x, w⟩ := entry
    rw [mergeEntries_cons] at h
    rcases ih h with ⟨u, hu⟩ | ⟨u, hu⟩
    · exact .inl ⟨u, List.mem_cons_of_mem _ hu⟩
    · cases hnull : w.isNull with
      | true =>
        unfold layer at hu
        rw [hnull, if_pos rfl] at hu
        exact .inr ⟨u, mem_of_mem_erase hu⟩
      | false =>
        rw [layer_eq_insert hnull] at hu
        rcases key_of_mem_insert hu with rfl | hold
        · exact .inl ⟨w, List.mem_cons_self⟩
        · exact .inr hold

/-- Whether a mapping has what an overlay makes of a setting: under each key of the overlay its
value over what was there, or nothing for a null that lies over a mapping, and the rest as it was. -/
def IsLayered (a : Setting) (overlay merged : Entries) : Prop :=
  ∀ q : Setting, q.Unambiguous → merged.get? q =
    match overlay.get? q with
    | none => a.ownEntries.get? q
    | some v =>
      if v.isNull then if a.isMapping then none else some v
      else some (merge (a.beneath q) v)

theorem merge_mapping (ha : a.Unambiguous) (hoverlay : (mapping overlay).Unambiguous) :
    ∃ merged : Entries, merge a (mapping overlay) = mapping merged ∧
      (mapping merged).Unambiguous ∧ IsLayered a overlay merged := by
  cases a with
  | mapping base =>
    refine ⟨_, rfl, ha.merge hoverlay, fun q hq => ?_⟩
    exact get?_mergeEntries_eq ha ha hoverlay hq
  | _ =>
    refine ⟨overlay, rfl, hoverlay, fun q _ => ?_⟩
    cases hget : overlay.get? q with
    | none => rfl
    | some v =>
      show some v = if v.isNull then some v else some (merge null v)
      rw [merge_null, ite_self]

namespace IsLayered

variable {merged : Entries}

theorem get?_of_none (h : IsLayered a overlay merged) (hq : q.Unambiguous)
    (hv : overlay.get? q = none) : merged.get? q = a.ownEntries.get? q := by
  rw [h q hq, hv]

theorem get?_of_null (h : IsLayered a overlay merged) (hq : q.Unambiguous)
    (hv : overlay.get? q = some v) (hnull : v.isNull = true) :
    merged.get? q = if a.isMapping then none else some v := by
  rw [h q hq, hv]
  exact if_pos hnull

theorem get?_of_value (h : IsLayered a overlay merged) (hq : q.Unambiguous)
    (hv : overlay.get? q = some v) (hnull : v.isNull = false) :
    merged.get? q = some (merge (a.beneath q) v) := by
  rw [h q hq, hv]
  exact if_neg (Bool.eq_false_iff.mp hnull)

theorem beneath_of_value (h : IsLayered a overlay merged) (hq : q.Unambiguous)
    (hv : overlay.get? q = some v) (hnull : v.isNull = false) :
    (mapping merged).beneath q = merge (a.beneath q) v := by
  show (merged.get? q).getD null = _
  rw [h.get?_of_value hq hv hnull]
  rfl

end IsLayered

end Layer

section Again

variable {a b k q v : Setting} {overlay : Entries}

theorem beneath_unambiguous (ha : a.Unambiguous) (k : Setting) : (a.beneath k).Unambiguous := by
  unfold beneath
  cases a with
  | mapping base =>
    show ((Entries.get? base k).getD null).Unambiguous
    cases hget : Entries.get? base k with
    | none => exact .null
    | some below => exact Entries.unambiguous_of_get? ha hget
  | _ => exact .null

theorem beneath_congr (hk : k.Unambiguous) (hq : q.Unambiguous) (h : k.same q = true)
    (a : Setting) : a.beneath k = a.beneath q := by
  unfold beneath
  rw [get?_congr hk hq h]

/-- The key of an overlay under which a key finds its value. -/
theorem exists_key (hoverlay : (mapping overlay).Unambiguous) (hq : q.Unambiguous)
    (h : overlay.get? q = some v) :
    ∃ k, (k, v) ∈ overlay ∧ ∀ a : Setting, a.beneath q = a.beneath k := by
  obtain ⟨k, hmem, hsame⟩ := exists_of_get?_eq_some h
  exact ⟨k, hmem, beneath_congr hq (key_unambiguous hoverlay hmem) hsame⟩

/-- Once an overlay has been layered over a setting, layering it over the result changes nothing,
exactly if it copies no null. -/
theorem merge_merge_same_iff (ha : a.Unambiguous) (hb : b.Unambiguous) :
    (merge (merge a b) b).same (merge a b) = true ↔ copiesNull a b = false := by
  induction hb generalizing a with
  | @mapping overlay hdistinct hkeys hvalues _ ih =>
    have hoverlay : (mapping overlay).Unambiguous := .mapping hdistinct hkeys hvalues
    obtain ⟨merged, hmerged, hunamb, hlayer⟩ := merge_mapping ha hoverlay
    rw [hmerged]
    obtain ⟨again, hagain, hunamb', hlayer'⟩ := merge_mapping hunamb hoverlay
    rw [hagain, same_iff_get? hunamb' hunamb, copiesNull_eq_false]
    have hinner {q : Setting} (hq : q.Unambiguous) {v : Setting} (hv : overlay.get? q = some v)
        (hnull : v.isNull = false) :
        again.get? q = some (merge (merge (a.beneath q) v) v) := by
      rw [hlayer'.get?_of_value hq hv hnull, hlayer.beneath_of_value hq hv hnull]
    constructor
    · intro h k v hmem
      have hk := hkeys (k, v) hmem
      have hv : overlay.get? k = some v := get?_of_mem hoverlay hmem
      have hrel := h k hk
      constructor
      · intro hnull
        rw [hlayer.get?_of_null hk hv hnull, hlayer'.get?_of_null hk hv hnull] at hrel
        cases hmapping : a.isMapping with
        | true => rfl
        | false =>
          rw [hmapping] at hrel
          cases hrel
      · intro hnull
        rw [hlayer.get?_of_value hk hv hnull, hinner hk hv hnull] at hrel
        cases hrel with
        | some hsame => exact (ih (k, v) hmem (beneath_unambiguous ha k)).mp hsame
    · intro h q hq
      cases hv : overlay.get? q with
      | none =>
        rw [show again.get? q = merged.get? q from hlayer'.get?_of_none hq hv]
        cases hvalue : merged.get? q with
        | none => exact .none
        | some w => exact .some (unambiguous_of_get? hunamb hvalue).same_refl
      | some v =>
        obtain ⟨k, hmem, hkey⟩ := exists_key hoverlay hq hv
        obtain ⟨hmapping, hcopies⟩ := h k v hmem
        cases hnull : v.isNull with
        | true =>
          rw [hlayer.get?_of_null hq hv hnull, hlayer'.get?_of_null hq hv hnull, hmapping hnull]
          exact .none
        | false =>
          rw [hlayer.get?_of_value hq hv hnull, hinner hq hv hnull, hkey]
          exact .some ((ih (k, v) hmem (beneath_unambiguous ha k)).mpr (hcopies hnull))
  | list items => exact iff_of_true (Unambiguous.list items).same_refl rfl
  | tagged name value => exact iff_of_true (Unambiguous.tagged name value).same_refl rfl
  | _ => exact iff_of_true (Unambiguous.same_refl (by constructor)) rfl

theorem at?_cons (e : Entries) (k : Setting) (path : List Setting) :
    (mapping e).at? (k :: path) = (e.get? k).bind fun inner => inner.at? path := rfl

theorem isNull_of_at? {path : List Setting} (h : a.at? (k :: path) = some v) : a.isNull = false := by
  cases a with
  | mapping entries => rfl
  | _ => cases h

theorem at?_merge_of_null (ha : a.Unambiguous) (hoverlay : (mapping overlay).Unambiguous)
    (hq : q.Unambiguous) (hv : overlay.get? q = some v) (hnull : v.isNull = true) :
    (merge a (mapping overlay)).at? [q] = if a.isMapping then none else some v := by
  obtain ⟨merged, hmerged, _, hlayer⟩ := merge_mapping ha hoverlay
  rw [hmerged, at?_cons, hlayer.get?_of_null hq hv hnull]
  split <;> rfl

/-- Under a value other than null, a path goes on in what is layered there. -/
theorem at?_merge_of_value (ha : a.Unambiguous) (hoverlay : (mapping overlay).Unambiguous)
    (hq : q.Unambiguous) (hv : overlay.get? q = some v) (hnull : v.isNull = false)
    (path : List Setting) :
    (merge a (mapping overlay)).at? (q :: path) = (merge (a.beneath q) v).at? path := by
  obtain ⟨merged, hmerged, _, hlayer⟩ := merge_mapping ha hoverlay
  rw [hmerged, at?_cons, hlayer.get?_of_value hq hv hnull, Option.bind_some]

/-- An overlay removes every key under which it has a null, exactly if it copies no null. -/
theorem forall_at?_merge_iff (ha : a.Unambiguous) (hb : b.Unambiguous) :
    (∀ path : List Setting, path ≠ [] → (∀ k ∈ path, k.Unambiguous) → ∀ v, b.at? path = some v →
      v.isNull = true → (merge a b).at? path = none) ↔ copiesNull a b = false := by
  induction hb generalizing a with
  | @mapping overlay hdistinct hkeys hvalues _ ih =>
    have hoverlay : (mapping overlay).Unambiguous := .mapping hdistinct hkeys hvalues
    rw [copiesNull_eq_false]
    constructor
    · intro h k v hmem
      have hk := hkeys (k, v) hmem
      have hv : overlay.get? k = some v := get?_of_mem hoverlay hmem
      have hstep (path : List Setting) : (mapping overlay).at? (k :: path) = v.at? path := by
        rw [at?_cons, hv, Option.bind_some]
      constructor
      · intro hnull
        have hnone := h [k] (List.cons_ne_nil _ _) (List.forall_mem_singleton.mpr hk) v (hstep [])
          hnull
        rw [at?_merge_of_null ha hoverlay hk hv hnull] at hnone
        cases hmapping : a.isMapping with
        | true => rfl
        | false =>
          rw [hmapping] at hnone
          cases hnone
      · intro hnull
        refine (ih (k, v) hmem (beneath_unambiguous ha k)).mp fun path _ hpath w hw hwnull => ?_
        rw [← at?_merge_of_value ha hoverlay hk hv hnull]
        exact h (k :: path) (List.cons_ne_nil _ _) (List.forall_mem_cons.mpr ⟨hk, hpath⟩) w
          ((hstep path).trans hw) hwnull
    · intro h path hne hpath w hw hwnull
      cases path with
      | nil => exact absurd rfl hne
      | cons q path =>
        obtain ⟨hq, hpath⟩ := List.forall_mem_cons.mp hpath
        obtain ⟨v, hv, hw⟩ := Option.bind_eq_some_iff.mp hw
        obtain ⟨k, hmem, hkey⟩ := exists_key hoverlay hq hv
        obtain ⟨hmapping, hcopies⟩ := h k v hmem
        cases path with
        | nil =>
          cases hw
          rw [at?_merge_of_null ha hoverlay hq hv hwnull, hmapping hwnull, if_pos rfl]
        | cons r path =>
          have hnull := isNull_of_at? hw
          rw [at?_merge_of_value ha hoverlay hq hv hnull, hkey]
          exact (ih (k, v) hmem (beneath_unambiguous ha k)).mpr (hcopies hnull) (r :: path)
            (List.cons_ne_nil _ _) hpath w hw hwnull
  | _ =>
    refine iff_of_true (fun path hne _ w hw _ => ?_) rfl
    cases path with
    | nil => exact absurd rfl hne
    | cons k path => cases hw

/-- Layering an overlay twice is layering it once, up to the order of entries, and no null of it is
left as a value, both of them exactly if the overlay copies no null: if each of its nulls stands in a
mapping that lies over a mapping. -/
theorem merge_twice_iff (ha : a.Unambiguous) (hb : b.Unambiguous) :
    ((merge (merge a b) b).same (merge a b) = true ↔ copiesNull a b = false) ∧
      ((∀ path : List Setting, path ≠ [] → (∀ k ∈ path, k.Unambiguous) →
          ∀ v, b.at? path = some v → v.isNull = true → (merge a b).at? path = none) ↔
        copiesNull a b = false) :=
  ⟨merge_merge_same_iff ha hb, forall_at?_merge_iff ha hb⟩

/-- An overlay that removes a key of an inner mapping and adds another one. -/
theorem merge_twice_of_removal :
    let path := [text "k", text "x"]
    ∃ a b, ofText? "k: \x7bx: 1, y: 2\x7d" = some a ∧ ofText? "k: \x7bx: ~, z: 3\x7d" = some b ∧
      a.Unambiguous ∧ b.Unambiguous ∧ (merge (merge a b) b).same (merge a b) = true ∧
      ∃ v, b.at? path = some v ∧ v.isNull = true ∧ (merge a b).at? path = none := by
  intro path
  have hread : ((ofText? "k: \x7bx: 1, y: 2\x7d").any fun a =>
      (ofText? "k: \x7bx: ~, z: 3\x7d").any fun b =>
        !copiesNull a b && (b.at? path).any isNull) = true := by decide +kernel
  obtain ⟨a, htexta, hread⟩ := (Option.any_eq_true _ _).mp hread
  obtain ⟨b, htextb, hread⟩ := (Option.any_eq_true _ _).mp hread
  obtain ⟨hcopies, hnull⟩ := Bool.and_eq_true_iff.mp hread
  obtain ⟨v, hv, hnull⟩ := (Option.any_eq_true _ _).mp hnull
  have ha := ofText?_unambiguous htexta
  have hb := ofText?_unambiguous htextb
  have hkeys : ∀ k ∈ path, k.Unambiguous :=
    List.forall_mem_cons.mpr ⟨.text "k", List.forall_mem_singleton.mpr (.text "x")⟩
  obtain ⟨hsame, hremoved⟩ := merge_twice_iff ha hb
  rw [Bool.not_eq_true'] at hcopies
  exact ⟨a, b, htexta, htextb, ha, hb, hsame.mpr hcopies, v, hv, hnull,
    hremoved.mpr hcopies path (List.cons_ne_nil _ _) hkeys v hv hnull⟩

/-- A null in a mapping of the overlay for which there is no mapping below is copied, and removes
its own key when the overlay is layered again. -/
theorem merge_twice_copies_null :
    let path := [text "k", text "x"]
    ∃ a b, ofText? "\x7b\x7d" = some a ∧ ofText? "k: \x7bx: ~\x7d" = some b ∧
      a.Unambiguous ∧ b.Unambiguous ∧ (merge (merge a b) b).same (merge a b) = false ∧
      ((merge a b).at? path).any isNull = true ∧ (merge (merge a b) b).at? path = none := by
  intro path
  have hread : ((ofText? "\x7b\x7d").any fun a => (ofText? "k: \x7bx: ~\x7d").any fun b =>
      !(merge (merge a b) b).same (merge a b) && (((merge a b).at? path).any isNull &&
        ((merge (merge a b) b).at? path).isNone)) = true := by decide +kernel
  obtain ⟨a, htexta, hread⟩ := (Option.any_eq_true _ _).mp hread
  obtain ⟨b, htextb, hread⟩ := (Option.any_eq_true _ _).mp hread
  obtain ⟨hother, hread⟩ := Bool.and_eq_true_iff.mp hread
  obtain ⟨hnull, hnone⟩ := Bool.and_eq_true_iff.mp hread
  rw [Bool.not_eq_true'] at hother
  exact ⟨a, b, htexta, htextb, ofText?_unambiguous htexta, ofText?_unambiguous htextb, hother, hnull,
    Option.isNone_iff_eq_none.mp hnone⟩

end Again

end Blueprint.Setting
