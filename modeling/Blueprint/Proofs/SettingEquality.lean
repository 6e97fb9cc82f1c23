import Blueprint.Proofs.SettingMerge

/-!
Settings in which every mapping has distinct keys. Among them equality is an equivalence, and what a
key finds in a mapping depends neither on how the key is written nor on the order of the entries.
-/

namespace Blueprint

namespace Number.Double

theorem same_iff {x y : Double} : x.same y = true ↔
    x = y ∨ (∃ n e, x = finite n 0 e) ∧ ∃ n e, y = finite n 0 e := by
  unfold same
  split
  next n e n' e' => exact iff_of_true rfl (.inr ⟨⟨n, e, rfl⟩, n', e', rfl⟩)
  next hzeros =>
    rw [beq_iff_eq]
    refine ⟨.inl, ?_⟩
    rintro (h | ⟨⟨n, e, rfl⟩, n', e', rfl⟩)
    · exact h
    · exact absurd rfl (hzeros n e n' e' rfl)

theorem same_refl (x : Double) : x.same x = true :=
  same_iff.mpr (.inl rfl)

theorem same_symm {x y : Double} (h : x.same y = true) : y.same x = true :=
  same_iff.mpr ((same_iff.mp h).imp Eq.symm And.symm)

theorem same_trans {x y z : Double} (hxy : x.same y = true) (hyz : y.same z = true) :
    x.same z = true := by
  rw [same_iff] at hxy hyz ⊢
  rcases hxy with rfl | ⟨hx, hy⟩
  · exact hyz
  · rcases hyz with rfl | ⟨_, hz⟩
    · exact .inr ⟨hx, hy⟩
    · exact .inr ⟨hx, hz⟩

end Number.Double

section Cover

variable {α β : Type} {R : α → β → Prop} {xs : List α} {ys : List β}

/-- If each of some things has a partner and no two have the same one, there are as many partners. -/
theorem length_le_of_partners (hcover : ∀ x ∈ xs, ∃ y ∈ ys, R x y)
    (hapart : xs.Pairwise fun a b => ∀ y, R a y → ¬R b y) : xs.length ≤ ys.length := by
  induction xs generalizing ys with
  | nil => exact Nat.zero_le _
  | cons x xs ih =>
    obtain ⟨hx, hrest⟩ := List.pairwise_cons.mp hapart
    obtain ⟨y, hy, hxy⟩ := hcover x List.mem_cons_self
    obtain ⟨before, after, rfl⟩ := List.append_of_mem hy
    have hfewer : xs.length ≤ (before ++ after).length := by
      refine ih (fun a ha => ?_) hrest
      obtain ⟨z, hz, haz⟩ := hcover a (List.mem_cons_of_mem x ha)
      refine ⟨z, ?_, haz⟩
      rcases List.mem_append.mp hz with hz | hz
      · exact List.mem_append_left _ hz
      · rcases List.mem_cons.mp hz with rfl | hz
        · exact absurd haz (hx a ha z hxy)
        · exact List.mem_append_right _ hz
    simp only [List.length_append, List.length_cons] at hfewer ⊢
    omega

/-- If there are no more partners than things, each of them is a partner. -/
theorem exists_of_partners (hcover : ∀ x ∈ xs, ∃ y ∈ ys, R x y)
    (hapart : xs.Pairwise fun a b => ∀ y, R a y → ¬R b y) (hlength : ys.length ≤ xs.length) :
    ∀ y ∈ ys, ∃ x ∈ xs, R x y := by
  intro y hy
  by_contra hnone
  obtain ⟨before, after, rfl⟩ := List.append_of_mem hy
  have hfewer : xs.length ≤ (before ++ after).length := by
    refine length_le_of_partners (fun a ha => ?_) hapart
    obtain ⟨z, hz, haz⟩ := hcover a ha
    refine ⟨z, ?_, haz⟩
    rcases List.mem_append.mp hz with hz | hz
    · exact List.mem_append_left _ hz
    · rcases List.mem_cons.mp hz with rfl | hz
      · exact absurd ⟨a, ha, haz⟩ hnone
      · exact List.mem_append_right _ hz
  simp only [List.length_append, List.length_cons] at hfewer hlength
  omega

end Cover

namespace Setting

/-- Whether each mapping in a setting has distinct keys. -/
inductive Unambiguous : Setting → Prop
  | null : Unambiguous null
  | bool (b : Bool) : Unambiguous (bool b)
  | int (i : Int) : Unambiguous (int i)
  | float (x : Number.Double) : Unambiguous (float x)
  | text (s : String) : Unambiguous (text s)
  | list {items : List Setting} (items_ok : ∀ v ∈ items, Unambiguous v) : Unambiguous (list items)
  | mapping {entries : Entries} (distinct : entries.Distinct)
      (keys : ∀ entry ∈ entries, Unambiguous entry.1)
      (values : ∀ entry ∈ entries, Unambiguous entry.2) : Unambiguous (mapping entries)
  | tagged (name : String) {v : Setting} (value : Unambiguous v) : Unambiguous (tagged name v)

section Same

variable {v w : Setting}

theorem sameItems_iff {items items' : List Setting} :
    sameItems items items' = true ↔ List.Forall₂ (fun a b => a.same b = true) items items' := by
  induction items generalizing items' with
  | nil =>
    cases items' with
    | nil => exact iff_of_true rfl .nil
    | cons b items' => exact iff_of_false Bool.false_ne_true nofun
  | cons a items ih =>
    cases items' with
    | nil => exact iff_of_false Bool.false_ne_true nofun
    | cons b items' =>
      rw [List.forall₂_cons, ← ih]
      exact Bool.and_eq_true_iff

theorem bool_same {b : Bool} : (bool b).same v = true ↔ v = .bool b := by
  cases v with
  | bool c => exact beq_iff_eq.trans (eq_comm.trans (bool.injEq c b).to_iff.symm)
  | _ => exact iff_of_false Bool.false_ne_true Setting.noConfusion

theorem float_same {x : Number.Double} :
    (float x).same v = true ↔ ∃ y, v = .float y ∧ x.same y = true := by
  cases v with
  | float y => simp [same]
  | _ => exact iff_of_false Bool.false_ne_true nofun

theorem list_same {items : List Setting} : (list items).same v = true ↔
    ∃ items', v = .list items' ∧ List.Forall₂ (fun a b => a.same b = true) items items' := by
  cases v with
  | list items' => simp [same, sameItems_iff]
  | _ => exact iff_of_false Bool.false_ne_true nofun

theorem tagged_same {name : String} : (tagged name w).same v = true ↔
    ∃ w', v = .tagged name w' ∧ w.same w' = true := by
  cases v with
  | tagged other w' =>
    refine Bool.and_eq_true_iff.trans ?_
    rw [beq_iff_eq]
    constructor
    · rintro ⟨rfl, h⟩
      exact ⟨w', rfl, h⟩
    · rintro ⟨_, heq, h⟩
      cases heq
      exact ⟨rfl, h⟩
  | _ => exact iff_of_false Bool.false_ne_true nofun

theorem mapping_same {entries : Entries} : (mapping entries).same v = true ↔
    ∃ entries' : Entries, v = .mapping entries' ∧ entries.length = entries'.length ∧
      ∀ entry ∈ entries, ∃ e ∈ entries', entry.1.same e.1 = true ∧ entry.2.same e.2 = true := by
  cases v with
  | mapping entries' => simp [same, holdsAll_iff]
  | _ => exact iff_of_false Bool.false_ne_true nofun

end Same

namespace Unambiguous

variable {a b c : Setting}

theorem same_refl (ha : a.Unambiguous) : a.same a = true := by
  induction ha with
  | null => rfl
  | bool b => exact bool_same.mpr rfl
  | int i => exact int_same.mpr rfl
  | float x => exact x.same_refl
  | text s => exact text_same.mpr rfl
  | list _ ih => exact list_same.mpr ⟨_, rfl, List.forall₂_same.mpr ih⟩
  | mapping _ _ _ ihkeys ihvalues =>
    exact mapping_same.mpr
      ⟨_, rfl, rfl, fun entry h => ⟨entry, h, ihkeys entry h, ihvalues entry h⟩⟩
  | tagged name _ ih => exact tagged_same.mpr ⟨_, rfl, ih⟩

theorem same_trans (ha : a.Unambiguous) (hab : a.same b = true) (hbc : b.same c = true) :
    a.same c = true := by
  induction ha generalizing b c with
  | null => rwa [null_same.mp hab] at hbc
  | bool b => rwa [bool_same.mp hab] at hbc
  | int i => rwa [int_same.mp hab] at hbc
  | float x =>
    obtain ⟨y, rfl, hxy⟩ := float_same.mp hab
    obtain ⟨z, rfl, hyz⟩ := float_same.mp hbc
    exact Number.Double.same_trans hxy hyz
  | text s => rwa [text_same.mp hab] at hbc
  | list _ ih =>
    obtain ⟨items', rfl, hitems⟩ := list_same.mp hab
    obtain ⟨items'', rfl, hitems'⟩ := list_same.mp hbc
    refine list_same.mpr ⟨items'', rfl, ?_⟩
    clear * - ih hitems hitems'
    induction hitems generalizing items'' with
    | nil => exact hitems'
    | cons hxy _ ihrest =>
      obtain ⟨hhead, htail⟩ := List.forall_mem_cons.mp ih
      cases hitems' with
      | cons hyz hrest => exact .cons (hhead hxy hyz) (ihrest htail _ hrest)
  | mapping _ _ _ ihkeys ihvalues =>
    obtain ⟨entries', rfl, hlength, hfound⟩ := mapping_same.mp hab
    obtain ⟨entries'', rfl, hlength', hfound'⟩ := mapping_same.mp hbc
    refine mapping_same.mpr ⟨entries'', rfl, hlength.trans hlength', fun entry h => ?_⟩
    obtain ⟨entry', h', hkey, hvalue⟩ := hfound entry h
    obtain ⟨entry'', h'', hkey', hvalue'⟩ := hfound' entry' h'
    exact ⟨entry'', h'', ihkeys entry h hkey hkey', ihvalues entry h hvalue hvalue'⟩
  | tagged name _ ih =>
    obtain ⟨b', rfl, hvalue⟩ := tagged_same.mp hab
    obtain ⟨c', rfl, hvalue'⟩ := tagged_same.mp hbc
    exact tagged_same.mpr ⟨c', rfl, ih hvalue hvalue'⟩

/-- The entries of one mapping find different partners in the other one, since their keys differ, so
that both mappings having one size each entry of the other one is found. -/
theorem same_symm (ha : a.Unambiguous) (hab : a.same b = true) : b.same a = true := by
  induction ha generalizing b with
  | null => rw [null_same.mp hab]; rfl
  | bool b => rw [bool_same.mp hab]; exact bool_same.mpr rfl
  | int i => rw [int_same.mp hab]; exact int_same.mpr rfl
  | float x =>
    obtain ⟨y, rfl, hxy⟩ := float_same.mp hab
    exact Number.Double.same_symm hxy
  | text s => rw [text_same.mp hab]; exact text_same.mpr rfl
  | list _ ih =>
    obtain ⟨items', rfl, hitems⟩ := list_same.mp hab
    refine list_same.mpr ⟨_, rfl, ?_⟩
    clear * - ih hitems
    induction hitems with
    | nil => exact .nil
    | cons hxy _ ihrest =>
      obtain ⟨hhead, htail⟩ := List.forall_mem_cons.mp ih
      exact .cons (hhead hxy) (ihrest htail)
  | mapping hdistinct hkeys _ ihkeys ihvalues =>
    obtain ⟨entries', rfl, hlength, hfound⟩ := mapping_same.mp hab
    refine mapping_same.mpr ⟨_, rfl, hlength.symm, fun entry' h' => ?_⟩
    obtain ⟨entry, h, hkey, hvalue⟩ := exists_of_partners hfound
      (hdistinct.imp_of_mem fun {x y} hx hy hxy entry hxe hye =>
        Bool.eq_false_iff.mp hxy (same_trans (hkeys y hy) hye.1 (ihkeys x hx hxe.1)))
      (Nat.le_of_eq hlength.symm) entry' h'
    exact ⟨entry, h, ihkeys entry h hkey, ihvalues entry h hvalue⟩
  | tagged name _ ih =>
    obtain ⟨b', rfl, hvalue⟩ := tagged_same.mp hab
    exact tagged_same.mpr ⟨_, rfl, ih hvalue⟩

theorem same_comm (ha : a.Unambiguous) (hb : b.Unambiguous) : a.same b = b.same a :=
  Bool.eq_iff_iff.mpr ⟨ha.same_symm, hb.same_symm⟩

/-- Equal settings are equal to the same settings. -/
theorem same_congr (ha : a.Unambiguous) (hb : b.Unambiguous) (h : a.same b = true) (c : Setting) :
    a.same c = b.same c :=
  Bool.eq_iff_iff.mpr ⟨hb.same_trans (ha.same_symm h), ha.same_trans h⟩

end Unambiguous

namespace Entries

variable {e e' : Entries} {k q v w : Setting}

theorem distinct_of_unambiguous (he : (mapping e).Unambiguous) : e.Distinct := by
  cases he with
  | mapping distinct _ _ => exact distinct

theorem key_unambiguous (he : (mapping e).Unambiguous) {entry : Setting × Setting}
    (h : entry ∈ e) : entry.1.Unambiguous := by
  cases he with
  | mapping _ keys _ => exact keys entry h

theorem value_unambiguous (he : (mapping e).Unambiguous) {entry : Setting × Setting}
    (h : entry ∈ e) : entry.2.Unambiguous := by
  cases he with
  | mapping _ _ values => exact values entry h

theorem unambiguous_nil : (mapping []).Unambiguous :=
  .mapping List.Pairwise.nil (fun _ h => absurd h List.not_mem_nil)
    fun _ h => absurd h List.not_mem_nil

theorem unambiguous_cons : (mapping ((k, v) :: e)).Unambiguous ↔
    k.Unambiguous ∧ v.Unambiguous ∧ (∀ entry ∈ e, entry.1.same k = false) ∧
      (mapping e).Unambiguous := by
  constructor
  · intro h
    obtain ⟨hfirst, hrest⟩ := List.pairwise_cons.mp (distinct_of_unambiguous h)
    exact ⟨key_unambiguous h List.mem_cons_self, value_unambiguous h List.mem_cons_self, hfirst,
      .mapping hrest (fun entry hmem => key_unambiguous h (List.mem_cons_of_mem _ hmem))
        fun entry hmem => value_unambiguous h (List.mem_cons_of_mem _ hmem)⟩
  · rintro ⟨hk, hv, hfirst, he⟩
    exact .mapping (List.pairwise_cons.mpr ⟨hfirst, distinct_of_unambiguous he⟩)
      (List.forall_mem_cons.mpr ⟨hk, fun entry => key_unambiguous he⟩)
      (List.forall_mem_cons.mpr ⟨hv, fun entry => value_unambiguous he⟩)

theorem get?_cons (x w : Setting) (e : Entries) (q : Setting) :
    Entries.get? ((x, w) :: e) q = if q.same x = true then some w else e.get? q := by
  split
  next h => rw [get?, List.find?_cons_of_pos (by exact h)]; rfl
  next h => rw [get?, List.find?_cons_of_neg (by exact h)]; rfl

theorem get?_eq_none : e.get? q = none ↔ ∀ entry ∈ e, q.same entry.1 = false := by
  rw [get?, Option.map_eq_none_iff, List.find?_eq_none]
  simp only [Bool.not_eq_true]

theorem exists_of_get?_eq_some (h : e.get? q = some v) : ∃ k, (k, v) ∈ e ∧ q.same k = true := by
  obtain ⟨⟨k, w⟩, hfind, rfl⟩ := Option.map_eq_some_iff.mp h
  have hsame : q.same k = true := by simpa using List.find?_some hfind
  exact ⟨k, List.mem_of_find?_eq_some hfind, hsame⟩

/-- A key finds the value of the one entry whose key is equal to it. -/
theorem get?_eq_some_iff (he : (mapping e).Unambiguous) (hq : q.Unambiguous) :
    e.get? q = some v ↔ ∃ k, (k, v) ∈ e ∧ q.same k = true := by
  refine ⟨exists_of_get?_eq_some, ?_⟩
  rintro ⟨k, hmem, hsame⟩
  induction e with
  | nil => cases hmem
  | cons entry e ih =>
    obtain ⟨x, w⟩ := entry
    obtain ⟨hx, _, hfirst, hrest⟩ := unambiguous_cons.mp he
    rw [get?_cons]
    rcases List.mem_cons.mp hmem with heq | hmem
    · cases heq
      rw [if_pos hsame]
    · have hother : ¬q.same x = true := fun h =>
        Bool.eq_false_iff.mp (hfirst _ hmem)
          ((key_unambiguous hrest hmem).same_trans (hq.same_symm hsame) h)
      rw [if_neg hother]
      exact ih hrest hmem

/-- The key of an entry finds the value of this entry. -/
theorem get?_of_mem (he : (mapping e).Unambiguous) (h : (k, v) ∈ e) : e.get? k = some v := by
  have hk := key_unambiguous he h
  exact (get?_eq_some_iff he hk).mpr ⟨k, h, hk.same_refl⟩

theorem get?_congr (hk : k.Unambiguous) (hq : q.Unambiguous) (h : k.same q = true) (e : Entries) :
    e.get? k = e.get? q := by
  unfold get?
  simp only [hk.same_congr hq h]

theorem unambiguous_of_get? (he : (mapping e).Unambiguous) (h : e.get? q = some v) :
    v.Unambiguous := by
  obtain ⟨k, hmem, _⟩ := exists_of_get?_eq_some h
  exact value_unambiguous he hmem

theorem get?_insert (he : (mapping e).Unambiguous) (hk : k.Unambiguous) (hq : q.Unambiguous)
    (v : Setting) : (e.insert k v).get? q = if k.same q = true then some v else e.get? q := by
  induction e with
  | nil => rw [insert, get?_cons, hq.same_comm hk]
  | cons entry e ih =>
    obtain ⟨x, w⟩ := entry
    obtain ⟨hx, _, _, hrest⟩ := unambiguous_cons.mp he
    rw [insert]
    split
    next hsame =>
      have hsplit : q.same x = k.same q := by
        rw [hq.same_comm hx, ← hk.same_congr hx hsame]
      rw [get?_cons, get?_cons, hsplit]
      split <;> rfl
    next hother =>
      rw [get?_cons, get?_cons, ih hrest]
      split
      next hfound =>
        rw [if_neg fun h => hother (hk.same_trans h hfound)]
      · rfl

theorem unambiguous_insert (he : (mapping e).Unambiguous) (hk : k.Unambiguous)
    (hv : v.Unambiguous) : (mapping (e.insert k v)).Unambiguous := by
  induction e with
  | nil =>
    exact unambiguous_cons.mpr ⟨hk, hv, fun _ h => absurd h List.not_mem_nil, unambiguous_nil⟩
  | cons entry e ih =>
    obtain ⟨x, w⟩ := entry
    obtain ⟨hx, hw, hfirst, hrest⟩ := unambiguous_cons.mp he
    rw [insert]
    split
    · exact unambiguous_cons.mpr ⟨hx, hv, hfirst, hrest⟩
    next hother =>
      refine unambiguous_cons.mpr ⟨hx, hw, fun entry hmem => ?_, ih hrest⟩
      rcases key_of_mem_insert hmem with hkey | ⟨w', hmem⟩
      · rw [hkey]
        exact Bool.eq_false_iff.mpr hother
      · exact hfirst (entry.1, w') hmem

/-- A new key is added at the end. -/
theorem insert_eq_append (h : ∀ entry ∈ e, k.same entry.1 = false) (v : Setting) :
    e.insert k v = e ++ [(k, v)] := by
  induction e with
  | nil => rfl
  | cons entry e ih =>
    obtain ⟨hfirst, hrest⟩ := List.forall_mem_cons.mp h
    rw [insert, if_neg (Bool.eq_false_iff.mp hfirst), ih hrest]
    rfl

theorem unambiguous_perm (he : (mapping e).Unambiguous) (hperm : e.Perm e') :
    (mapping e').Unambiguous := by
  have hback {entry : Setting × Setting} (h : entry ∈ e') : entry ∈ e := hperm.mem_iff.mpr h
  refine .mapping ?_ (fun _ h => key_unambiguous he (hback h))
    fun _ h => value_unambiguous he (hback h)
  -- Permutations keep a symmetric relation only.
  have hboth : e.Pairwise fun a b => a.1.same b.1 = false ∧ b.1.same a.1 = false := by
    refine (distinct_of_unambiguous he).imp_of_mem fun {a b} ha hb hab => ?_
    rw [(key_unambiguous he ha).same_comm (key_unambiguous he hb), and_self]
    exact hab
  exact (hperm.pairwise hboth And.symm).imp And.right

theorem unambiguous_erase (he : (mapping e).Unambiguous) (k : Setting) :
    (mapping (e.erase k)).Unambiguous := by
  rcases erase_perm k e with ⟨_, hkept⟩ | ⟨x, _, hperm⟩
  · rwa [hkept]
  · exact (unambiguous_cons.mp (unambiguous_perm he hperm)).2.2.2

/-- Among distinct keys, taking out a key leaves the other ones. -/
theorem mem_erase_iff (he : (mapping e).Unambiguous) (hk : k.Unambiguous)
    {entry : Setting × Setting} :
    entry ∈ e.erase k ↔ entry ∈ e ∧ k.same entry.1 = false := by
  refine ⟨fun h => ⟨mem_of_mem_erase h, ?_⟩, fun h => mem_erase_of_mem h.1 h.2⟩
  rcases erase_perm k e with ⟨hnone, hkept⟩ | ⟨x, hx, hperm⟩
  · rw [hkept] at h
    exact hnone entry h
  · obtain ⟨hkeyx, _, hfirst, hrest⟩ := unambiguous_cons.mp (unambiguous_perm he hperm)
    rw [← Bool.not_eq_true]
    intro hsame
    exact Bool.eq_false_iff.mp (hfirst entry h)
      ((key_unambiguous hrest h).same_trans (hk.same_symm hsame) hx)

theorem get?_erase (he : (mapping e).Unambiguous) (hk : k.Unambiguous) (hq : q.Unambiguous) :
    (e.erase k).get? q = if k.same q = true then none else e.get? q := by
  have herase := unambiguous_erase he k
  split
  next hsame =>
    refine get?_eq_none.mpr fun entry hmem => ?_
    rw [← hk.same_congr hq hsame]
    exact ((mem_erase_iff he hk).mp hmem).2
  next hother =>
    refine Option.ext fun v => ?_
    rw [get?_eq_some_iff herase hq, get?_eq_some_iff he hq]
    refine exists_congr fun x => and_congr_left fun hsame => ?_
    rw [mem_erase_iff he hk, and_iff_left_iff_imp]
    intro hmem
    rw [Bool.eq_false_iff]
    intro h
    exact hother (hk.same_trans h (hq.same_symm hsame))

/-- Distinct keys that are all found in other entries are no more than these. -/
theorem length_le_of_keys (he : (mapping e).Unambiguous)
    (h : ∀ entry ∈ e, ∃ entry' ∈ e', entry.1.same entry'.1 = true) : e.length ≤ e'.length :=
  length_le_of_partners h <| (distinct_of_unambiguous he).imp_of_mem
    fun {_ _} ha hb hab _ hfound hfound' => Bool.eq_false_iff.mp hab <|
      (key_unambiguous he hb).same_trans hfound' ((key_unambiguous he ha).same_symm hfound)

/-- Mappings are equal exactly if each key finds equal values in them, or none in both. -/
theorem same_iff_get? (he : (mapping e).Unambiguous) (he' : (mapping e').Unambiguous) :
    (mapping e).same (mapping e') = true ↔ ∀ q, q.Unambiguous →
      Option.Rel (fun v w => v.same w = true) (e.get? q) (e'.get? q) := by
  constructor
  · intro h q hq
    obtain ⟨_, ⟨⟩, _, hfound⟩ := mapping_same.mp h
    obtain ⟨_, ⟨⟩, _, hback⟩ := mapping_same.mp (he.same_symm h)
    cases hget : e.get? q with
    | some v =>
      obtain ⟨k, hmem, hsame⟩ := exists_of_get?_eq_some hget
      obtain ⟨⟨k', w⟩, hmem', hkey, hvalue⟩ := hfound (k, v) hmem
      have hget' := (get?_eq_some_iff he' hq).mpr ⟨k', hmem', hq.same_trans hsame hkey⟩
      rw [hget']
      exact .some hvalue
    | none =>
      have hget' : e'.get? q = none := by
        refine get?_eq_none.mpr fun entry' hmem' => Bool.eq_false_iff.mpr fun hsame => ?_
        obtain ⟨entry, hmem, hkey, _⟩ := hback entry' hmem'
        exact Bool.eq_false_iff.mp (get?_eq_none.mp hget entry hmem) (hq.same_trans hsame hkey)
      rw [hget']
      exact .none
  · intro h
    have hfound : ∀ entry ∈ e, ∃ entry' ∈ e',
        entry.1.same entry'.1 = true ∧ entry.2.same entry'.2 = true := by
      intro entry hmem
      have hrel := h entry.1 (key_unambiguous he hmem)
      rw [get?_of_mem he hmem] at hrel
      cases hget' : e'.get? entry.1 with
      | none =>
        rw [hget'] at hrel
        cases hrel
      | some w =>
        rw [hget'] at hrel
        obtain ⟨k', hmem', hsame⟩ := exists_of_get?_eq_some hget'
        cases hrel with
        | some hvalue => exact ⟨(k', w), hmem', hsame, hvalue⟩
    have hback : ∀ entry' ∈ e', ∃ entry ∈ e, entry'.1.same entry.1 = true := by
      intro entry' hmem'
      have hrel := h entry'.1 (key_unambiguous he' hmem')
      rw [get?_of_mem he' hmem'] at hrel
      cases hget : e.get? entry'.1 with
      | none =>
        rw [hget] at hrel
        cases hrel
      | some v =>
        obtain ⟨k, hmem, hsame⟩ := exists_of_get?_eq_some hget
        exact ⟨(k, v), hmem, hsame⟩
    have hkeys : ∀ entry ∈ e, ∃ entry' ∈ e', entry.1.same entry'.1 = true := fun entry hmem =>
      (hfound entry hmem).imp fun _ h => ⟨h.1, h.2.1⟩
    exact mapping_same.mpr ⟨e', rfl,
      Nat.le_antisymm (length_le_of_keys he hkeys) (length_le_of_keys he' hback), hfound⟩

end Entries

end Setting

end Blueprint
