import Blueprint.Proofs.UnusedImports

/-!
The types that are suggested for inputs. The type that a default value suggests is one of the current
language, and the value fits it, so that an input which is given this type is not told that its
default does not match.
-/

namespace Blueprint

namespace Node

variable {start stop : Mark} {flow : Bool} {before after : List (Node × Node)} {key value : Node}
  {name other : String}

/-- A new entry is found under its key. -/
theorem get?_inserted (hnone : (mapping start stop flow (before ++ after)).get? name = none)
    (hkey : key.text? = some name) :
    (mapping start stop flow (before ++ (key, value) :: after)).get? name = some value := by
  unfold get? at hnone ⊢
  rw [Option.map_eq_none_iff] at hnone
  change (before ++ after).find? _ = none at hnone
  show ((before ++ (key, value) :: after).find? _).map _ = _
  rw [List.find?_append, Option.or_eq_none_iff] at hnone
  have hfound : key.isText name = true := beq_iff_eq.mpr hkey
  rw [List.find?_append, hnone.1, Option.none_or, List.find?_cons_of_pos (by exact hfound)]
  rfl

/-- A new entry does not matter to look-ups of other keys. -/
theorem get?_inserted_of_ne (hkey : key.text? = some name) (hne : name ≠ other) :
    (mapping start stop flow (before ++ (key, value) :: after)).get? other =
      (mapping start stop flow (before ++ after)).get? other := by
  have hmiss : ¬key.isText other = true := by
    intro htext
    rw [isText, hkey, beq_iff_eq] at htext
    exact hne (Option.some.inj htext)
  show ((before ++ (key, value) :: after).find? _).map _ = ((before ++ after).find? _).map _
  rw [List.find?_append, List.find?_append, List.find?_cons_of_neg (by exact hmiss)]

end Node

namespace Rules

/-- What is said of an input whose default value does not fit its type. -/
def misfitMessage (name inputType : String) (v : Generic) : String :=
  "input \"" ++ name ++ "\" specifies type " ++ inputType ++ ", but the default " ++ v.render
    ++ " does not match it."

variable {v : Generic} {t function : String}

theorem mem_types_of_resultType? (h : resultType? function = some t) :
    t ∈ Vocabulary.currentInputTypes := by
  unfold resultType? at h
  split at h
  · cases h
    decide
  · split at h
    · cases h
      decide
    · split at h
      · cases h
        decide
      · cases h

theorem mem_types_of_suggestedType? (h : suggestedType? v = some t) :
    t ∈ Vocabulary.currentInputTypes := by
  unfold suggestedType? at h
  split at h
  · exact mem_types_of_resultType? h
  · split at h
    · split at h
      · cases h
        decide
      · split at h <;> (cases h; decide)
    all_goals cases h
    all_goals decide

/-- A value belongs to the type that it suggests, if it calls no function. -/
theorem belongs_suggestedType? (hcall : Vocabulary.call? v = none)
    (h : suggestedType? v = some t) : belongs t v = true := by
  unfold suggestedType? at h
  rw [hcall] at h
  cases v with
  | text s =>
    dsimp only at h
    split at h
    next hnumeral =>
      cases h
      exact hnumeral
    · split at h
      next hdecimal =>
        cases h
        exact hdecimal
      · cases h
        rfl
  | null => cases h
  | _ =>
    cases h
    rfl

theorem defaultFits_suggestedType? (h : suggestedType? v = some t) : defaultFits t v = true := by
  unfold defaultFits
  cases hcall : Vocabulary.call? v with
  | none => exact belongs_suggestedType? hcall h
  | some call =>
    unfold suggestedType? at h
    rw [hcall] at h
    dsimp only at h ⊢
    rw [h]
    simp

theorem head?_misfitMessage (name inputType : String) (w : Generic) :
    (misfitMessage name inputType w).toList.head? = some 'i' := by
  unfold misfitMessage
  iterate 6 refine head?_append ?_ _
  rfl

/-- A message with another first letter does not speak of the default value. -/
theorem ne_misfitMessage {message : String} {c : Char} (h : message.toList.head? = some c)
    (hne : c ≠ 'i') (name inputType : String) (w : Generic) :
    message ≠ misfitMessage name inputType w := by
  rintro rfl
  rw [head?_misfitMessage] at h
  exact hne (Option.some.inj h).symm

/-- What is said of the type of an input starts with a capital, or speaks of its default value,
which does not fit the type. -/
theorem message_of_mem_checkTypedInput {s : Session} {name : String} {line : Nat} {body : Node}
    {p : Problem} (hp : p ∈ checkTypedInput s name t line body) :
    (∃ c ∈ ['U', 'I'], p.message.toList.head? = some c) ∨
      ∃ w, defaultOf body = some w ∧ defaultFits t w = false ∧
        p.message = misfitMessage name t w := by
  unfold checkTypedInput at hp
  dsimp only at hp
  split at hp
  · rw [List.mem_singleton.mp hp]
    refine .inl ⟨'U', by decide, ?_⟩
    iterate 6 refine head?_append ?_ _
    rfl
  · split at hp
    · rw [List.mem_singleton.mp hp]
      refine .inl ⟨'I', by decide, ?_⟩
      iterate 4 refine head?_append ?_ _
      rfl
    · split at hp
      · rw [List.mem_singleton.mp hp]
        exact .inl ⟨'I', by decide, head?_append (head?_append rfl _) _⟩
      · split at hp
        next w hmisfit =>
          obtain ⟨hdefault, hfits⟩ := Option.filter_eq_some_iff.mp hmisfit
          rw [Bool.not_eq_true'] at hfits
          rw [List.mem_singleton.mp hp]
          exact .inr ⟨w, hdefault, hfits, rfl⟩
        · cases hp

/-- An input whose default value fits its type is not told otherwise. -/
theorem checkTypedInput_of_fits {s : Session} {name : String} {line : Nat} {body : Node}
    (hdefault : defaultOf body = some v) (hfits : defaultFits t v = true) :
    ∀ p ∈ checkTypedInput s name t line body, ∀ w, p.message ≠ misfitMessage name t w := by
  intro p hp w
  rcases message_of_mem_checkTypedInput hp with ⟨c, hcapital, hstart⟩ | ⟨misfit, hfound, hother, _⟩
  · refine ne_misfitMessage hstart ?_ name t w
    rintro rfl
    exact absurd hcapital (by decide)
  · rw [hdefault] at hfound
    cases hfound
    rw [hfits] at hother
    cases hother

/-- The type that a value suggests is a type of the current language, and the value fits it. An input
without a type, of which the value is the default, is not told that its default does not match once
it has been given this type. -/
theorem suggestedType?_fits (h : suggestedType? v = some t) :
    (∃ types, Vocabulary.inputTypesOf? "nativeedge_1_0" = some types ∧ t ∈ types) ∧
      defaultFits t v = true ∧
      ∀ (start stop : Mark) (flow : Bool) (before after : List (Node × Node)) (key kind : Node),
        (Node.mapping start stop flow (before ++ after)).get? "type" = none →
        defaultOf (.mapping start stop flow (before ++ after)) = some v →
        key.text? = some "type" → kind.text? = some t →
        ∀ (s : Session) (name : String) (line : Nat),
          ∀ p ∈ checkDefinedInput s name line
            (.mapping start stop flow (before ++ (key, kind) :: after)),
            ∀ w, p.message ≠ misfitMessage name t w := by
  refine ⟨⟨_, rfl, mem_types_of_suggestedType? h⟩, defaultFits_suggestedType? h, ?_⟩
  intro start stop flow before after key kind hnone hdefault hkey hkind s name line p hp w
  have hsame : defaultOf (.mapping start stop flow (before ++ (key, kind) :: after)) = some v := by
    rw [← hdefault]
    unfold defaultOf
    rw [Node.get?_inserted_of_ne hkey (by decide)]
  unfold checkDefinedInput at hp
  rw [Node.get?_inserted hnone hkey] at hp
  dsimp only at hp
  rw [hkind] at hp
  split at hp
  · cases hp
  · rcases List.mem_append.mp hp with hp | hp
    · unfold checkInputKeys at hp
      dsimp only at hp
      split at hp
      · cases hp
      · rw [List.mem_singleton.mp hp]
        exact ne_misfitMessage (head?_append rfl _) (by decide) name t w
    · exact checkTypedInput_of_fits hsame (defaultFits_suggestedType? h) p hp w

/-- A default value that calls a function is a mapping, and fits the type of what the function
yields. -/
theorem suggestedType?_fits_of_call :
    let place : Mark := ⟨0, 1, 0⟩
    let word (text : String) : Node := .scalar place place text .plain false
    let call : Node := .mapping place place true
      [(word "concat", .sequence place place true [word "a", word "7"])]
    suggestedType? call.value = some "string" ∧ defaultFits "string" call.value = true ∧
      ∀ (s : Session) (name : String) (line : Nat),
        ∀ p ∈ checkDefinedInput s name line (.mapping place place false
            [(word "default", call), (word "type", word "string")]),
          ∀ w, p.message ≠ misfitMessage name "string" w := by
  intro place word call
  have hsuggested : suggestedType? call.value = some "string" := rfl
  obtain ⟨_, hfits, hfollowed⟩ := suggestedType?_fits hsuggested
  exact ⟨hsuggested, hfits, hfollowed place place false [(word "default", call)] [] (word "type")
    (word "string") rfl rfl rfl rfl⟩

end Rules

end Blueprint
