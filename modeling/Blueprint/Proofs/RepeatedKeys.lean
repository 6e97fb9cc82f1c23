import Blueprint.Lint.Rules.Values
import Blueprint.Proofs.FileAccess

/-!
Keys that repeat in a mapping. Of equal keys a node takes the first one and its generic value keeps
the last one. A mapping for which no repeated key is reported is looked up in the same way by both.
-/

namespace Blueprint

theorem Table.mem_insertEntry {α : Type} {key : String} {value : α} {known : List (String × α)}
    {field : String × α} (h : field ∈ insertEntry key value known) :
    field = (key, value) ∨ field ∈ known := by
  induction known with
  | nil => exact Or.inl (List.mem_singleton.mp h)
  | cons entry r ih =>
    rw [insertEntry] at h
    split at h
    · exact (List.mem_cons.mp h).imp_right (List.mem_cons_of_mem entry)
    · split at h
      · exact List.mem_cons.mp h
      · rcases List.mem_cons.mp h with rfl | h
        · exact Or.inr List.mem_cons_self
        · exact (ih h).imp_right (List.mem_cons_of_mem entry)

namespace Node

variable {entries : List (Node × Node)}

/-- The values under a key, in the order of the entries. -/
def valuesUnder (key : String) (entries : List (Node × Node)) : List Node :=
  (entries.filter (·.1.keyName == key)).map (·.2)

theorem valuesUnder_cons (key : String) (entry : Node × Node) (entries : List (Node × Node)) :
    valuesUnder key (entry :: entries) =
      if entry.1.keyName = key then entry.2 :: valuesUnder key entries
      else valuesUnder key entries := by
  unfold valuesUnder
  rw [List.filter_cons]
  by_cases h : entry.1.keyName = key
  · rw [if_pos (beq_iff_eq.mpr h), if_pos h, List.map_cons]
  · rw [if_neg (mt beq_iff_eq.mp h), if_neg h]

/-- A key that is looked up is found at its first entry. -/
theorem get?_eq_head? (hscalar : ∀ e ∈ entries, e.1.text?.isSome = true) (start stop : Mark)
    (flow : Bool) (key : String) :
    (mapping start stop flow entries).get? key = (valuesUnder key entries).head? := by
  have hkey : ∀ e ∈ entries, e.1.isText key = (e.1.keyName == key) := by
    intro e he
    obtain ⟨name, hname⟩ := Option.isSome_iff_exists.mp (hscalar e he)
    rw [isText, keyName, hname]
    rfl
  rw [valuesUnder, ← List.filter_congr hkey, List.head?_map, List.head?_filter]
  rfl

theorem fields_cons (known : List (String × Generic)) (entry : Node × Node)
    (entries : List (Node × Node)) :
    fields known (entry :: entries) =
      fields (Table.insertEntry entry.1.keyName entry.2.value known) entries := rfl

/-- The generic value keeps the last entry of a key. -/
theorem lookup_fields (key : String) (known : List (String × Generic))
    (entries : List (Node × Node)) :
    (fields known entries).lookup key =
      ((valuesUnder key entries).getLast?.map value).or (known.lookup key) := by
  induction entries generalizing known with
  | nil => rfl
  | cons entry r ih =>
    rw [fields_cons, ih, Table.lookup_insertEntry, valuesUnder_cons]
    by_cases h : entry.1.keyName = key
    · rw [if_pos h, if_pos h.symm, List.getLast?_cons]
      cases (valuesUnder key r).getLast? <;> rfl
    · rw [if_neg h, if_neg (Ne.symm h)]

/-- Every field of the generic value comes from an entry. -/
theorem mem_fields {known : List (String × Generic)} {field : String × Generic}
    (h : field ∈ fields known entries) :
    field ∈ known ∨ ∃ e ∈ entries, field = (e.1.keyName, e.2.value) := by
  induction entries generalizing known with
  | nil => exact Or.inl h
  | cons entry r ih =>
    rcases ih h with h | ⟨e, he, heq⟩
    · exact (Table.mem_insertEntry h).symm.imp_right fun h => ⟨entry, List.mem_cons_self, h⟩
    · exact Or.inr ⟨e, List.mem_cons_of_mem entry he, heq⟩

/-- Of distinct keys each one has a single value. -/
theorem length_valuesUnder_le (hdistinct : (entries.map (·.1.keyName)).Nodup) (key : String) :
    (valuesUnder key entries).length ≤ 1 := by
  have hkeys : (entries.filter (·.1.keyName == key)).map (·.1.keyName) =
      List.replicate (entries.filter (·.1.keyName == key)).length key := by
    refine List.eq_replicate_iff.mpr ⟨List.length_map _, fun name hname => ?_⟩
    obtain ⟨e, he, rfl⟩ := List.mem_map.mp hname
    exact beq_iff_eq.mp (List.mem_filter.mp he).2
  have hnodup : ((entries.filter (·.1.keyName == key)).map (·.1.keyName)).Nodup :=
    hdistinct.sublist (List.filter_sublist.map _)
  rw [hkeys] at hnodup
  rw [valuesUnder, List.length_map]
  exact List.nodup_replicate.mp hnodup

theorem head?_eq_getLast? {α : Type} {xs : List α} (h : xs.length ≤ 1) :
    xs.head? = xs.getLast? := by
  match xs, h with
  | [], _ => rfl
  | [_], _ => rfl

section Distinct

variable (hscalar : ∀ e ∈ entries, e.1.text?.isSome = true)
  (hdistinct : (entries.map (·.1.keyName)).Nodup) (start stop : Mark) (flow : Bool)

include hscalar hdistinct

/-- A node with distinct keys and its generic value agree on every key. -/
theorem map_value_get? (key : String) :
    ((mapping start stop flow entries).get? key).map value =
      (mapping start stop flow entries).value.get? key :=
  calc ((mapping start stop flow entries).get? key).map value
    _ = (valuesUnder key entries).head?.map value := by rw [get?_eq_head? hscalar]
    _ = (valuesUnder key entries).getLast?.map value := by
      rw [head?_eq_getLast? (length_valuesUnder_le hdistinct key)]
    _ = (fields [] entries).lookup key := by
      rw [lookup_fields, List.lookup_nil, Option.or_none]

theorem exists_get?_of_mem_fields {field : String × Generic} (h : field ∈ fields [] entries) :
    ∃ n, (mapping start stop flow entries).get? field.1 = some n ∧ n.value = field.2 := by
  obtain ⟨e, he, rfl⟩ := (mem_fields h).resolve_left List.not_mem_nil
  have hmem : e.2 ∈ valuesUnder e.1.keyName entries :=
    List.mem_map_of_mem (List.mem_filter.mpr ⟨he, beq_self_eq_true _⟩)
  obtain ⟨n, hn⟩ : ∃ n, valuesUnder e.1.keyName entries = [n] :=
    List.length_eq_one_iff.mp
      (Nat.le_antisymm (length_valuesUnder_le hdistinct _) (List.length_pos_of_mem hmem))
  rw [hn] at hmem
  refine ⟨e.2, ?_, rfl⟩
  rw [get?_eq_head? hscalar, hn, List.mem_singleton.mp hmem]
  rfl

end Distinct

end Node

namespace Rules

/-- What is said of a key that repeats. -/
def duplication (key : Node) : Problem where
  line := key.start.line
  column := some (key.start.column + 1)
  rule := "key-duplicates"
  message := "duplication of key \"" ++ key.keyName ++ "\" in mapping"

/-- Whether an entry before the one at the index has the same key. -/
def hasEarlier (entries : List (Node × Node)) (e : (Node × Node) × Nat) : Bool :=
  (entries.take e.2).any (·.1.keyName == e.1.1.keyName)

/-- The keys that an earlier entry has too, one for each entry that repeats. -/
def repeats (entries : List (Node × Node)) : List Node :=
  (entries.zipIdx.filter (hasEarlier entries)).map (·.1.1)

/-- The key is a scalar, and not the one that may repeat. -/
def IsOrdinary (key : Node) : Prop :=
  ∃ name, key.text? = some name ∧ name ≠ mergeKey

instance (key : Node) : Decidable (IsOrdinary key) :=
  match h : key.text? with
  | none => isFalse fun ⟨name, hname, _⟩ => Option.some_ne_none name (hname.symm.trans h)
  | some name => decidable_of_iff (name ≠ mergeKey)
      ⟨fun hne => ⟨name, h, hne⟩, fun ⟨_, hname, hne⟩ => Option.some.inj (h.symm.trans hname) ▸ hne⟩

theorem IsOrdinary.text? {key : Node} (h : IsOrdinary key) : key.text? = some key.keyName := by
  obtain ⟨name, hname, -⟩ := h
  rw [Node.keyName, hname, Option.getD_some]

theorem IsOrdinary.ne {key : Node} (h : IsOrdinary key) : key.keyName ≠ mergeKey := by
  obtain ⟨name, hname, hne⟩ := h
  rwa [Node.keyName, hname, Option.getD_some]

theorem repeatedKeys_cons {seen : List String} {e : Node × Node} {r : List (Node × Node)}
    (h : IsOrdinary e.1) :
    repeatedKeys seen (e :: r) =
      if e.1.keyName ∈ seen then (e.1.keyName, e.1.start) :: repeatedKeys seen r
      else repeatedKeys (e.1.keyName :: seen) r := by
  rw [repeatedKeys, h.text?]
  dsimp only
  simp only [h.ne, ne_eq, not_false_eq_true, true_and]

/-- The rule walks through the entries; it knows the keys of those that are `done`. -/
theorem repeatedKeys_eq {seen : List String} {done r : List (Node × Node)}
    (hseen : ∀ name, name ∈ seen ↔ ∃ d ∈ done, d.1.keyName = name)
    (hkeys : ∀ e ∈ r, IsOrdinary e.1) :
    repeatedKeys seen r =
      ((r.zipIdx done.length).filter (hasEarlier (done ++ r))).map
        fun e => (e.1.1.keyName, e.1.1.start) := by
  induction r generalizing seen done with
  | nil => rfl
  | cons e r ih =>
    have hrest {seen' : List String}
        (hseen' : ∀ name, name ∈ seen' ↔ ∃ d ∈ done ++ [e], d.1.keyName = name) :=
      ih hseen' fun d hd => hkeys d (List.mem_cons_of_mem e hd)
    rw [List.length_append, List.length_singleton, List.append_assoc, List.singleton_append]
      at hrest
    have hearlier : hasEarlier (done ++ e :: r) (e, done.length) = true ↔ e.1.keyName ∈ seen := by
      rw [hseen, hasEarlier, List.take_left, List.any_eq_true]
      exact exists_congr fun d => and_congr_right fun _ => beq_iff_eq
    rw [repeatedKeys_cons (hkeys e List.mem_cons_self), List.zipIdx_cons, List.filter_cons]
    by_cases hmem : e.1.keyName ∈ seen
    -- A key that repeats is not entered again; it is known from an earlier entry.
    · rw [if_pos hmem, if_pos (hearlier.mpr hmem), List.map_cons, hrest fun name => ?_]
      rw [hseen]
      refine ⟨fun ⟨d, hd, hname⟩ => ⟨d, List.mem_append_left _ hd, hname⟩, ?_⟩
      rintro ⟨d, hd, rfl⟩
      rcases List.mem_append.mp hd with hd | hd
      · exact ⟨d, hd, rfl⟩
      · rw [List.mem_singleton.mp hd]
        exact (hseen _).mp hmem
    · rw [if_neg hmem, if_neg (mt hearlier.mp hmem), hrest fun name => ?_]
      rw [List.mem_cons, hseen]
      constructor
      · rintro (rfl | ⟨d, hd, rfl⟩)
        · exact ⟨e, List.mem_append_right _ List.mem_cons_self, rfl⟩
        · exact ⟨d, List.mem_append_left _ hd, rfl⟩
      · rintro ⟨d, hd, rfl⟩
        rcases List.mem_append.mp hd with hd | hd
        · exact Or.inr ⟨d, hd, rfl⟩
        · exact Or.inl (by rw [List.mem_singleton.mp hd])

/-- Without a key that repeats, the keys are distinct. -/
theorem nodup_of_repeats {entries : List (Node × Node)} (h : repeats entries = []) :
    (entries.map (·.1.keyName)).Nodup := by
  have hnone := List.filter_eq_nil_iff.mp (List.map_eq_nil_iff.mp h)
  refine List.pairwise_map.mpr (List.pairwise_iff_getElem.mpr fun i j hi hj hij heq => ?_)
  refine hnone (entries[j], j) (List.mem_zipIdx_iff_getElem?.mpr (List.getElem?_eq_getElem hj)) ?_
  refine List.any_eq_true.mpr ⟨entries[i], ?_, beq_iff_eq.mpr heq⟩
  exact List.mem_take_iff_getElem.mpr ⟨i, by omega, rfl⟩

/-- The rule reports the keys that repeat, each once and where it stands. When there is none, a key
is looked up in the node and in its generic value with the same result, and that value has no field
besides those of the keys. -/
theorem checkKeys_reports (s : Session) {v : NodeVisit} (hmapping : v.node.isMapping = true)
    (hkeys : ∀ e ∈ v.node.entries, IsOrdinary e.1) :
    checkKeys s v = (repeats v.node.entries).map duplication ∧
      (checkKeys s v = [] →
        (∀ key, (v.node.get? key).map Node.value = v.node.value.get? key) ∧
        ∃ fields, v.node.value = .dict fields ∧
          ∀ field ∈ fields, ∃ n, v.node.get? field.1 = some n ∧ n.value = field.2) := by
  have hreports : checkKeys s v = (repeats v.node.entries).map duplication := by
    unfold checkKeys repeats
    rw [@repeatedKeys_eq [] [] _ (fun _ => by simp) hkeys, List.map_map, List.map_map]
    rfl
  refine ⟨hreports, fun hnone => ?_⟩
  rw [hreports, List.map_eq_nil_iff] at hnone
  have hdistinct := nodup_of_repeats hnone
  obtain ⟨node, keyNode, path⟩ := v
  cases node with
  | mapping start stop flow entries =>
    have hscalar : ∀ e ∈ entries, e.1.text?.isSome = true :=
      fun e he => Option.isSome_iff_exists.mpr ⟨_, (hkeys e he).text?⟩
    exact ⟨Node.map_value_get? hscalar hdistinct start stop flow, _, rfl,
      fun field => Node.exists_get?_of_mem_fields hscalar hdistinct start stop flow⟩
  | _ => cases hmapping

/-- Of three entries the last one repeats the first one; the two before it are looked up. -/
theorem checkKeys_reports_of_entries :
    let word (text : String) (m : Mark) : Node := .scalar m m text .plain false
    let entries : List (Node × Node) :=
      [(word "b" ⟨1, 1, 1⟩, word "x" ⟨4, 1, 4⟩), (word "a" ⟨7, 1, 7⟩, word "y" ⟨10, 1, 10⟩)]
    let later : Node × Node := (word "b" ⟨13, 1, 13⟩, word "z" ⟨16, 1, 16⟩)
    let visit (entries : List (Node × Node)) : NodeVisit :=
      ⟨.mapping ⟨0, 1, 0⟩ ⟨17, 1, 17⟩ true entries, none, []⟩
    (∀ e ∈ entries ++ [later], IsOrdinary e.1) ∧
      checkKeys {} (visit (entries ++ [later])) = [duplication later.1] ∧
      checkKeys {} (visit entries) = [] ∧
      (visit entries).node.value.get? "a" = some (.text "y") := by
  intro word entries later visit
  have hkeys : ∀ e ∈ entries ++ [later], IsOrdinary e.1 := by decide
  have hfirst := checkKeys_reports {} (v := visit (entries ++ [later])) rfl hkeys
  obtain ⟨hnone, hagree⟩ := checkKeys_reports {} (v := visit entries) rfl
    fun e he => hkeys e (List.mem_append_left _ he)
  refine ⟨hkeys, hfirst.1, hnone, ?_⟩
  rw [← (hagree hnone).1 "a"]
  rfl

end Rules

end Blueprint
