import Blueprint.Lint.Rules.Templates

/-!
The templates that the calls in a node template read from. A call is found at any depth, also inside
the arguments of calls of other functions; one inside an argument of the same function is not.
-/

namespace Blueprint

namespace Rules

/-- A call of a function with an argument somewhere in a value, below the given keys of mappings. -/
inductive CallAt (function : String) (argument : Generic) : List String → Generic → Prop
  | call {fields : List (String × Generic)} (h : (function, argument) ∈ fields) :
    CallAt function argument [] (.dict fields)
  | field {fields : List (String × Generic)} {key : String} {v : Generic} {keys : List String}
    (hmem : (key, v) ∈ fields) (hcall : CallAt function argument keys v) :
    CallAt function argument (key :: keys) (.dict fields)
  | item {items : List Generic} {v : Generic} {keys : List String}
    (hmem : v ∈ items) (hcall : CallAt function argument keys v) :
    CallAt function argument keys (.list items)

/-- A call that is not inside an argument of a call of the same function. -/
def IsOutermostCall (function : String) (argument v : Generic) : Prop :=
  ∃ keys, CallAt function argument keys v ∧ function ∉ keys

variable {function : String} {argument : Generic}

namespace IsOutermostCall

theorem dict_iff {fields : List (String × Generic)} :
    IsOutermostCall function argument (.dict fields) ↔
      (function, argument) ∈ fields ∨
        ∃ field ∈ fields, field.1 ≠ function ∧ IsOutermostCall function argument field.2 := by
  constructor
  · rintro ⟨_, hcall, houter⟩
    cases hcall with
    | call h => exact Or.inl h
    | field hmem hcall =>
      exact Or.inr ⟨_, hmem, Ne.symm (List.ne_of_not_mem_cons houter), _, hcall,
        List.not_mem_of_not_mem_cons houter⟩
  · rintro (h | ⟨⟨key, v⟩, hmem, hkey, keys, hcall, houter⟩)
    · exact ⟨[], .call h, List.not_mem_nil⟩
    · exact ⟨key :: keys, .field hmem hcall, List.not_mem_cons_of_ne_of_not_mem hkey.symm houter⟩

theorem list_iff {items : List Generic} :
    IsOutermostCall function argument (.list items) ↔
      ∃ v ∈ items, IsOutermostCall function argument v := by
  constructor
  · rintro ⟨keys, hcall, houter⟩
    cases hcall with
    | item hmem hcall => exact ⟨_, hmem, keys, hcall, houter⟩
  · rintro ⟨v, hmem, keys, hcall, houter⟩
    exact ⟨keys, .item hmem hcall, houter⟩

end IsOutermostCall

mutual

/-- The calls of a function that are found are those outside the arguments of its other calls. -/
theorem mem_callArguments : (v : Generic) →
    (argument ∈ callArguments function v ↔ IsOutermostCall function argument v)
  | .dict fields => by
    rw [callArguments, mem_fieldArguments fields, IsOutermostCall.dict_iff]
  | .list items => by
    rw [callArguments, mem_itemArguments items, IsOutermostCall.list_iff]
  | .null | .bool _ | .int _ | .float _ | .text _ => by
    refine iff_of_false List.not_mem_nil ?_
    rintro ⟨_, hcall, -⟩
    cases hcall

theorem mem_fieldArguments : (fields : List (String × Generic)) →
    (argument ∈ fieldArguments function fields ↔
      (function, argument) ∈ fields ∨
        ∃ field ∈ fields, field.1 ≠ function ∧ IsOutermostCall function argument field.2)
  | [] => by simp [fieldArguments]
  | (key, v) :: r => by
    rw [fieldArguments, List.mem_append, mem_fieldArguments r]
    simp only [List.mem_cons, Prod.mk.injEq, exists_eq_or_imp]
    split
    next hkey =>
      simp only [List.mem_singleton, hkey, ne_eq, not_true_eq_false, false_and, false_or, true_and,
        or_assoc]
    next hkey =>
      simp only [mem_callArguments v, Ne.symm hkey, ne_eq, hkey, not_false_eq_true, false_and,
        true_and, false_or]
      exact or_left_comm

theorem mem_itemArguments : (items : List Generic) →
    (argument ∈ itemArguments function items ↔
      ∃ v ∈ items, IsOutermostCall function argument v)
  | [] => by simp [itemArguments]
  | v :: r => by
    rw [itemArguments, List.mem_append, mem_callArguments v, mem_itemArguments r]
    simp only [List.mem_cons, exists_eq_or_imp]

end

theorem calledTemplate?_eq_some {target : String} :
    calledTemplate? argument = some target ↔ ∃ rest, argument = .list (.text target :: rest) := by
  constructor
  · intro h
    obtain ⟨head, hhead, htext⟩ := Option.bind_eq_some_iff.mp h
    obtain ⟨items, hitems, hfirst⟩ := Option.bind_eq_some_iff.mp hhead
    cases argument <;> cases hitems
    cases head <;> cases htext
    obtain ⟨rest, rfl⟩ := List.head?_eq_some_iff.mp hfirst
    exact ⟨rest, rfl⟩
  · rintro ⟨rest, rfl⟩
    rfl

theorem mem_calledTemplates {target : String} {v : Generic} :
    target ∈ calledTemplates function v ↔
      ∃ rest, IsOutermostCall function (.list (.text target :: rest)) v := by
  unfold calledTemplates
  simp only [List.mem_filterMap, mem_callArguments, calledTemplate?_eq_some]
  constructor
  · rintro ⟨_, hcall, rest, rfl⟩
    exact ⟨rest, hcall⟩
  · rintro ⟨rest, hcall⟩
    exact ⟨_, hcall, rest, rfl⟩

/-- The functions whose calls name a template. -/
def readingFunctions : List String :=
  ["get_property", "get_attribute"]

/-- The message about a target names the function and the target. -/
theorem undefinedTarget_injective {other target target' : String}
    (hfunction : function ∈ readingFunctions) (hother : other ∈ readingFunctions)
    (h : function ++ " references undefined target " ++ target =
      other ++ " references undefined target " ++ target') :
    function = other ∧ target = target' := by
  have hlists := congrArg String.toList h
  simp only [String.toList_append] at hlists
  have hsame : function = other := by
    have hfifth := congrArg (·[4]?) hlists
    simp only [readingFunctions, List.mem_cons, List.not_mem_nil, or_false] at hfunction hother
    rcases hfunction with rfl | rfl <;> rcases hother with rfl | rfl
    · rfl
    · simp at hfifth
    · simp at hfifth
    · rfl
  subst hsame
  exact ⟨rfl, String.toList_inj.mp (List.append_cancel_left hlists)⟩

theorem mem_checkCalledTemplates {p : Problem} {c : Context} {line : Nat} {template : Generic} :
    p ∈ checkCalledTemplates c line template ↔
      ∃ function ∈ readingFunctions, ∃ target ∈ calledTemplates function template,
        isKnownTarget c target = false ∧
          templateProblem line (function ++ " references undefined target " ++ target) = p := by
  simp only [checkCalledTemplates, readingFunctions, List.mem_flatMap, List.mem_map,
    List.mem_filter, Bool.not_eq_true', and_assoc]

/-- A target is reported with a function exactly if it is no template that the context knows and no
relative name, and if a call of the function reads from it that is not inside an argument of another
call of this function. -/
theorem checkCalledTemplates_reports (c : Context) (line : Nat) (template : Generic)
    (hfunction : function ∈ readingFunctions) (target : String) :
    templateProblem line (function ++ " references undefined target " ++ target) ∈
        checkCalledTemplates c line template ↔
      target ∉ relativeNames ∧ c.templates.contains target = false ∧
        ∃ rest, IsOutermostCall function (.list (.text target :: rest)) template := by
  have hunknown (target : String) : isKnownTarget c target = false ↔
      target ∉ relativeNames ∧ c.templates.contains target = false := by
    rw [isKnownTarget, Bool.or_eq_false_iff, List.contains_eq_mem, decide_eq_false_iff_not]
  rw [mem_checkCalledTemplates, ← mem_calledTemplates]
  constructor
  · rintro ⟨other, hother, target', htarget, hundefined, heq⟩
    obtain ⟨rfl, rfl⟩ := undefinedTarget_injective hother hfunction (congrArg Problem.message heq)
    exact ⟨((hunknown target').mp hundefined).1, ((hunknown target').mp hundefined).2, htarget⟩
  · rintro ⟨hrelative, hnew, htarget⟩
    exact ⟨function, hfunction, target, htarget, (hunknown target).mpr ⟨hrelative, hnew⟩, rfl⟩

/-- A call inside an argument of a call of the other function is found. -/
theorem checkCalledTemplates_reports_of_argument :
    "get_attribute" ∈ readingFunctions ∧
      templateProblem 1 "get_attribute references undefined target ghost" ∈
        checkCalledTemplates {} 1
          (.dict [("get_property", .list [.text "SELF",
            .dict [("get_attribute", .list [.text "ghost", .text "x"])]])]) := by
  have hfunction : "get_attribute" ∈ readingFunctions := by decide
  refine ⟨hfunction, (checkCalledTemplates_reports {} 1 _ hfunction "ghost").mpr
    ⟨by decide, rfl, [.text "x"], ["get_property"], ?_, by decide⟩⟩
  refine .field List.mem_cons_self (.item (List.mem_cons_of_mem _ List.mem_cons_self) (.call ?_))
  exact List.mem_cons_self

/-- A call inside an argument of a call of the same function is passed over. -/
theorem checkCalledTemplates_misses_inner :
    CallAt "get_property" (.list [.text "ghost", .text "x"]) ["get_property"]
        (.dict [("get_property", .list [.text "SELF",
          .dict [("get_property", .list [.text "ghost", .text "x"])]])]) ∧
      "ghost" ∉ relativeNames ∧ ({} : Context).templates.contains "ghost" = false ∧
      checkCalledTemplates {} 1
        (.dict [("get_property", .list [.text "SELF",
          .dict [("get_property", .list [.text "ghost", .text "x"])]])]) = [] := by
  refine ⟨.field List.mem_cons_self
    (.item (List.mem_cons_of_mem _ List.mem_cons_self) (.call List.mem_cons_self)),
    by decide, rfl, rfl⟩

end Rules

end Blueprint
