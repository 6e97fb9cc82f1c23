import Blueprint.Lint.Registry
import Blueprint.Proofs.CosmeticProblems

/-!
What the problems of a run carry for their repair. Those of the rules about the blueprint language
carry all of it, if they can be repaired; those of the other rules carry nothing. So the problems of
one rule that can be repaired are all of one kind.
-/

namespace Blueprint

/-- A problem that can be repaired tells how. -/
def Problem.CarriesRepair (p : Problem) : Prop :=
  p.fixable = true → p.repair.isSome = true

theorem Problem.onLine_carries (rule : String) (line : Nat) (message : String) :
    (Problem.onLine rule line message).CarriesRepair :=
  fun h => nomatch h

theorem Problem.withRepair_carries (p : Problem) (r : Repair) : (p.withRepair r).CarriesRepair :=
  fun _ => rfl

def CarryRepairs (ps : List Problem) : Prop :=
  ∀ p ∈ ps, p.CarriesRepair

namespace CarryRepairs

variable {ps qs : List Problem} {α : Type}

theorem nil : CarryRepairs [] :=
  List.forall_mem_nil _

theorem singleton {p : Problem} (h : p.CarriesRepair) : CarryRepairs [p] :=
  List.forall_mem_singleton.mpr h

theorem ite {c : Prop} [Decidable c] (hp : CarryRepairs ps) (hq : CarryRepairs qs) :
    CarryRepairs (if c then ps else qs) := by
  split
  · exact hp
  · exact hq

theorem append (hp : CarryRepairs ps) (hq : CarryRepairs qs) : CarryRepairs (ps ++ qs) :=
  List.forall_mem_append.mpr ⟨hp, hq⟩

theorem map {f : α → Problem} (h : ∀ x, (f x).CarriesRepair) (xs : List α) :
    CarryRepairs (xs.map f) :=
  List.forall_mem_map.mpr fun x _ => h x

theorem flatMap {f : α → List Problem} (h : ∀ x, CarryRepairs (f x)) (xs : List α) :
    CarryRepairs (xs.flatMap f) :=
  List.forall_mem_flatMap.mpr fun x _ => h x

theorem optional {f : α → List Problem} (h : ∀ x, CarryRepairs (f x)) (x : Option α) :
    CarryRepairs ((x.map f).getD []) := by
  cases x with
  | none => exact nil
  | some x => exact h x

theorem toList {x : Option Problem} (h : ∀ p ∈ x, p.CarriesRepair) : CarryRepairs x.toList :=
  fun p hp => h p (Option.mem_toList.mp hp)

end CarryRepairs

open Problem (onLine_carries withRepair_carries)

namespace Rules

theorem checkVersion_carry (c : RuleSettings) (v : NodeVisit) (s : Session) :
    CarryRepairs (checkVersion c v s).1 := by
  unfold checkVersion
  split
  · exact .nil
  · split
    · exact .ite .nil (.singleton (onLine_carries _ _ _))
    · split
      · exact .optional (fun _ => .ite (.singleton (onLine_carries _ _ _)) .nil) _
      · exact .nil

theorem checkImport_carry (s : Session) (item : Node) : CarryRepairs (checkImport s item) := by
  unfold checkImport checkOtherImport checkRemoteImport checkPluginVersion checkFileImport
  split
  · exact .ite .nil (.singleton (onLine_carries _ _ _))
  · refine .ite (.ite ?_ ?_) (.ite ?_ (.ite ?_ ?_))
    · exact .ite .nil (.singleton (onLine_carries _ _ _))
    · exact .ite (.singleton (onLine_carries _ _ _)) .nil
    · exact .singleton (onLine_carries _ _ _)
    · exact .singleton (onLine_carries _ _ _)
    · exact .ite .nil (.singleton (onLine_carries _ _ _))

theorem checkImports_carry (s : Session) (v : NodeVisit) : CarryRepairs (checkImports s v) := by
  unfold checkImports
  split
  · split
    · exact .flatMap (checkImport_carry s) _
    · exact .ite .nil (.singleton (onLine_carries _ _ _))
  · exact .nil

theorem checkTypedInput_carry (s : Session) (name inputType : String) (line : Nat) (body : Node) :
    CarryRepairs (checkTypedInput s name inputType line body) := by
  unfold checkTypedInput
  dsimp only
  split
  · exact .singleton (onLine_carries _ _ _)
  · refine .ite (.singleton (onLine_carries _ _ _)) (.ite (.singleton (withRepair_carries _ _)) ?_)
    split
    · exact .singleton (onLine_carries _ _ _)
    · exact .nil

theorem checkDefinedInput_carry (s : Session) (name : String) (line : Nat) (body : Node) :
    CarryRepairs (checkDefinedInput s name line body) := by
  unfold checkDefinedInput checkInputKeys
  refine .ite .nil (.append (.ite .nil (.singleton (onLine_carries _ _ _))) ?_)
  split
  · exact .singleton (onLine_carries _ _ _)
  · split
    · exact .singleton (onLine_carries _ _ _)
    · exact checkTypedInput_carry s name _ line body

theorem checkInputNode_carry (c : RuleSettings) (v : NodeVisit) (s : Session) :
    CarryRepairs (checkInputNode c v s).1 := by
  unfold checkInputNode
  split
  · unfold checkInputSection
    split
    · exact .map (fun _ => onLine_carries _ _ _) _
    · exact .flatMap (fun _ => checkDefinedInput_carry s _ _ _) _
  · split
    · unfold checkInputReference
      split
      · exact .nil
      · split
        · exact .nil
        · exact .singleton (onLine_carries _ _ _)
    · exact .nil

theorem checkNodeType_carry (s : Session) (name : String) (line : Nat) (definition : Node) :
    CarryRepairs (checkNodeType s name line definition) := by
  have hname : CarryRepairs (checkTypeName s name line) := by
    unfold checkTypeName
    extract_lets
    refine .append ?_ ?_
    · exact .ite .nil (.singleton (onLine_carries _ _ _))
    · exact .ite .nil (.singleton (onLine_carries _ _ _))
  unfold checkNodeType checkMentionedTypes
  refine .append (.append ?_ (.ite .nil hname)) ?_
  · exact .ite .nil (.singleton (onLine_carries _ _ _))
  · split
    · exact .nil
    · exact .ite .nil (.map (fun _ => onLine_carries _ _ _) _)

theorem checkNodeTypes_carry (c : RuleSettings) (v : NodeVisit) (s : Session) :
    CarryRepairs (checkNodeTypes c v s).1 := by
  unfold checkNodeTypes
  split
  · exact .flatMap (fun _ => checkNodeType_carry s _ _ _) _
  · exact .nil

theorem checkRelationshipItem_carry (c : Context) (item : Node) :
    CarryRepairs (checkRelationshipItem c item) := by
  unfold checkRelationshipItem checkRelationshipType checkTarget
  refine .ite (.singleton (onLine_carries _ _ _)) (.append ?_ ?_)
  · split
    · refine .toList fun p hp => ?_
      obtain ⟨name, _, hp⟩ := Option.bind_eq_some_iff.mp hp
      split at hp
      · obtain ⟨new, _, rfl⟩ := Option.map_eq_some_iff.mp hp
        exact withRepair_carries _ _
      · cases hp
    · exact .singleton (onLine_carries _ _ _)
  · split
    · exact .ite .nil (.singleton (onLine_carries _ _ _))
    · exact .singleton (onLine_carries _ _ _)

theorem checkLifecycleEntries_carry (line : Nat) (lifecycle : Node) :
    CarryRepairs (checkLifecycleEntries line lifecycle) := by
  unfold checkLifecycleEntries checkOperationNames
  refine .append (.ite .nil (.singleton (onLine_carries _ _ _))) (.flatMap (fun operation => ?_) _)
  refine .optional (fun definition => ?_) _
  unfold checkOperation
  exact .ite .nil (.ite (.singleton (onLine_carries _ _ _))
    (.ite (.singleton (onLine_carries _ _ _)) .nil))

theorem checkDeclaration_carry (key definition : Node) :
    CarryRepairs (checkDeclaration key definition) := by
  unfold checkDeclaration checkRelationshipName
  refine .append ?_ (.flatMap (fun side => .optional (checkLifecycleEntries_carry _) _) _)
  split
  · exact .ite .nil (.singleton (onLine_carries _ _ _))
  · exact .nil

theorem checkRelationships_carry (s : Session) (v : NodeVisit) :
    CarryRepairs (checkRelationships s v) := by
  unfold checkRelationships checkRelationshipList
  refine .ite .nil (.ite ?_ (.ite (.flatMap (fun _ => checkDeclaration_carry _ _) _) .nil))
  split
  · exact .flatMap (checkRelationshipItem_carry s.context) _
  · exact .singleton (onLine_carries _ _ _)

theorem checkOlderType_carries (name : String) (line : Nat) :
    (checkOlderType name line).CarriesRepair := by
  unfold checkOlderType
  dsimp only
  split
  · exact withRepair_carries _ _
  · exact onLine_carries _ _ _

theorem checkTemplateType_carry (name : String) (body : Node) (s : Session) :
    CarryRepairs (checkTemplateType name body s).1 := by
  unfold checkTemplateType checkTypeUse
  split
  · exact .singleton (onLine_carries _ _ _)
  · split
    · exact .nil
    · exact .ite (.ite .nil (.singleton (checkOlderType_carries _ _)))
        (.ite .nil (.singleton (onLine_carries _ _ _)))

theorem checkPropertySection_carry (c : Context) (name : String) (line : Nat)
    (properties : Generic) : CarryRepairs (checkPropertySection c name line properties) := by
  unfold checkPropertySection checkExternal
  refine .append ?_ (.map (fun _ => onLine_carries _ _ _) _)
  split
  · exact .ite (.singleton (onLine_carries _ _ _)) .nil
  · exact .nil

theorem checkInterfaceSection_carry (c : Context) (line : Nat) (interfaces : Node) :
    CarryRepairs (checkInterfaceSection c line interfaces) := by
  unfold checkInterfaceSection checkOperations checkInterfaceName
  refine .flatMap (fun entry => .append ?_ (.ite .nil (.toList fun p hp => ?_))) _
  · exact .flatMap (fun _ => .map (fun _ => onLine_carries _ _ _) _) _
  · obtain ⟨text, _, hp⟩ := Option.bind_eq_some_iff.mp hp
    obtain ⟨new, _, rfl⟩ := Option.map_eq_some_iff.mp hp
    exact onLine_carries _ _ _

theorem checkTemplateBody_carry (name : String) (body : Node) (s : Session) :
    CarryRepairs (checkTemplateBody name body s).1 := by
  unfold checkTemplateBody
  split
  · exact .nil
  · refine .append (.append (.append (.append (.append ?_ ?_) ?_) ?_) ?_) ?_
    · exact .map (fun _ => onLine_carries _ _ _) _
    · exact checkTemplateType_carry name body s
    · exact .flatMap (fun _ => .map (fun _ => onLine_carries _ _ _) _) _
    · exact .optional (fun _ => checkPropertySection_carry _ _ _ _) _
    · exact .optional (checkInterfaceSection_carry _ _) _
    · exact .optional (fun _ => .flatMap (fun _ => .map (fun _ => onLine_carries _ _ _) _) _) _

theorem checkTemplateList_carry (s : Session) (templates : List (String × Node × Node)) :
    CarryRepairs (checkTemplateList s templates).1 := by
  induction templates generalizing s with
  | nil => exact .nil
  | cons t r ih => exact (checkTemplateBody_carry t.1 t.2.2 s).append (ih _)

theorem checkTemplates_carry (c : RuleSettings) (v : NodeVisit) (s : Session) :
    CarryRepairs (checkTemplates c v s).1 := by
  unfold checkTemplates
  split
  · exact (checkTemplateList_carry s _).append (.map (fun _ => onLine_carries _ _ _) _)
  · exact .nil

theorem checkCapabilities_carry (c : RuleSettings) (v : NodeVisit) (s : Session) :
    CarryRepairs (checkCapabilities c v s).1 := by
  have hprovided (designation : String) (t : String × Node × Node) :
      CarryRepairs (checkProvided designation t.1 t.2.1.line t.2.2) := by
    unfold checkProvided
    exact .ite .nil (.map (fun _ => onLine_carries _ _ _) _)
  unfold checkCapabilities
  split
  · exact .nil
  · dsimp only
    split
    · exact .flatMap (hprovided _) _
    · exact .flatMap (hprovided _) _

theorem checkDefinitions_carry (s : Session) (v : NodeVisit) :
    CarryRepairs (checkDefinitions s v) := by
  unfold checkDefinitions checkDefinition
  refine .ite (.flatMap (fun entry => .append ?_ ?_) _) .nil
  · exact .ite .nil (.singleton (onLine_carries _ _ _))
  · exact .ite .nil (.singleton (onLine_carries _ _ _))

theorem checkLabelBody_carry (hides : Bool) (name : String) (line : Nat) (body : Node) :
    CarryRepairs (checkLabelBody hides name line body) := by
  unfold checkLabelBody checkLabelValues checkHiddenLabel
  split
  · exact .singleton (onLine_carries _ _ _)
  · refine .append (.ite .nil (.singleton (onLine_carries _ _ _))) ?_
    split
    · exact .singleton (onLine_carries _ _ _)
    · split
      · exact .singleton (onLine_carries _ _ _)
      · exact .ite (.ite .nil (.singleton (onLine_carries _ _ _))) .nil

theorem checkLabels_carry (s : Session) (v : NodeVisit) : CarryRepairs (checkLabels s v) := by
  unfold checkLabels checkLabelSection
  refine .ite (.append (.ite (.singleton (onLine_carries _ _ _)) .nil) (.ite ?_ (.ite .nil ?_))) .nil
  · exact .flatMap (fun _ => checkLabelBody_carry _ _ _ _) _
  · exact .singleton (onLine_carries _ _ _)

theorem finishImports_carry (c : RuleSettings) (s : Session) :
    CarryRepairs (finishImports c s).1 :=
  .map (fun _ => onLine_carries _ _ _) _

theorem finishInputs_carry (c : RuleSettings) (s : Session) : CarryRepairs (finishInputs c s).1 :=
  .ite (.map (fun _ => onLine_carries _ _ _) _) .nil

end Rules

/-- A rule whose problems carry what their repair needs. -/
structure Rule.CarriesRepairs (r : Rule) : Prop where
  run : ∀ c e s, CarryRepairs (r.run c e s).1
  finish : ∀ c s, CarryRepairs (r.finish c s).1

theorem Rule.carriesRepairs {r : Rule} (hcheck : r.check.Reports CarryRepairs)
    (hfinish : ∀ c s, CarryRepairs (r.finish c s).1) : r.CarriesRepairs :=
  ⟨r.run_reports .nil hcheck, hfinish⟩

theorem Registry.language_carriesRepairs {r : Rule} (hr : r ∈ languageRules) :
    r.CarriesRepairs := by
  have hnone (_ : RuleSettings) (_ : Session) : CarryRepairs [] := .nil
  unfold languageRules at hr
  simp only [List.mem_cons, List.not_mem_nil, or_false] at hr
  rcases hr with rfl | rfl | rfl | rfl | rfl | rfl | rfl | rfl | rfl
  · exact Rule.carriesRepairs Rules.checkVersion_carry hnone
  · exact Rule.carriesRepairs (fun _ v s => Rules.checkImports_carry s v) Rules.finishImports_carry
  · exact Rule.carriesRepairs Rules.checkInputNode_carry Rules.finishInputs_carry
  · exact Rule.carriesRepairs Rules.checkTemplates_carry hnone
  · exact Rule.carriesRepairs (fun _ v s => Rules.checkRelationships_carry s v) hnone
  · exact Rule.carriesRepairs Rules.checkCapabilities_carry hnone
  · exact Rule.carriesRepairs (fun _ v s => Rules.checkDefinitions_carry s v) hnone
  · exact Rule.carriesRepairs (fun _ v s => Rules.checkLabels_carry s v) hnone
  · exact Rule.carriesRepairs Rules.checkNodeTypes_carry hnone

/-- A problem that can be repaired carries its repair if and only if its rule is one about the
language. -/
theorem Linter.run_repair_isSome {l : Linter} {fs : Files} {text : String} {file : Option String}
    {p : Problem} (hl : l.registry = Registry.builtin) (hp : p ∈ (l.run fs text file).problems)
    (hfixable : p.fixable = true) : p.repair.isSome = Registry.isLanguageRule p.rule := by
  rcases mem_problems hp with hreport | hfault
  · obtain ⟨a, ha, q, s, rfl, hq⟩ := Call.mem_schedule hreport
    have hbuiltin : a.rule ∈ Registry.builtin.rules := hl ▸ mem_registry_of_mem_rulesFor ha
    show q.repair.isSome = Registry.isLanguageRule a.rule.name
    rcases List.mem_append.mp hbuiltin with hstyle | hlanguage
    · have hnot : ∀ r ∈ Registry.styleRules, Registry.isLanguageRule r.name = false := by decide
      have hplace := Registry.style_repairsInPlace hstyle
      have hnone : q.repair = none := by
        rcases hq with hq | ⟨e, _, hq⟩
        · exact hplace.finish _ _ q hq
        · exact hplace.run _ _ _ q hq
      rw [hnone, hnot a.rule hstyle]
      rfl
    · have hcarry := Registry.language_carriesRepairs hlanguage
      have hsome : q.repair.isSome = true := by
        rcases hq with hq | ⟨e, _, hq⟩
        · exact hcarry.finish _ _ q hq hfixable
        · exact hcarry.run _ _ _ q hq hfixable
      have hnamed : Registry.isLanguageRule a.rule.name = true :=
        List.any_eq_true.mpr ⟨a.rule, hlanguage, beq_self_eq_true _⟩
      rw [hsome, hnamed]
  · rw [(textFault?_isFault hfault).fixable] at hfixable
    cases hfixable

end Blueprint
