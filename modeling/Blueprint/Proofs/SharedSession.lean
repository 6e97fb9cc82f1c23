import Blueprint.Lint.Registry
import Blueprint.Lint.Run
import Mathlib.Data.List.Nodup

/-!
The rules of a run share one session. What a rule reports depends on few of the entries that rules
make in it, and most rules enter nothing that another rule reads.
-/

namespace Blueprint

/-- What no rule changes in a context. -/
def Context.fixed (c : Context) : Context :=
  { c with
    version := none
    outputs := .empty
    capabilities := .empty
    unusedInputs := .empty
    unusedImports := .empty }

/-- The rules that read the version of the language, besides the one that enters it. -/
def Rules.followingVersion : List String :=
  ["inputs", "node_templates", "relationships", "node_types"]

/-- Whether two sessions look the same to the checks of a rule. -/
structure Session.Alike (name : String) (s s' : Session) : Prop where
  file : s.file = s'.file
  quiet : s.quiet = s'.quiet
  files : s.files = s'.files
  context : s.context.fixed = s'.context.fixed
  version : name ∈ "dsl_version" :: Rules.followingVersion → s.context.version = s'.context.version
  unusedInputs : name = "inputs" → s.context.unusedInputs = s'.context.unusedInputs
  indentation : name = "indentation" → s.indentation = s'.indentation

namespace Session.Alike

variable {name : String} {s s' s'' : Session}

theorem refl (name : String) (s : Session) : s.Alike name s :=
  ⟨rfl, rfl, rfl, rfl, fun _ => rfl, fun _ => rfl, fun _ => rfl⟩

theorem symm (h : s.Alike name s') : s'.Alike name s :=
  ⟨h.file.symm, h.quiet.symm, h.files.symm, h.context.symm, fun hn => (h.version hn).symm,
    fun hn => (h.unusedInputs hn).symm, fun hn => (h.indentation hn).symm⟩

theorem trans (h : s.Alike name s') (h' : s'.Alike name s'') : s.Alike name s'' :=
  ⟨h.file.trans h'.file, h.quiet.trans h'.quiet, h.files.trans h'.files,
    h.context.trans h'.context, fun hn => (h.version hn).trans (h'.version hn),
    fun hn => (h.unusedInputs hn).trans (h'.unusedInputs hn),
    fun hn => (h.indentation hn).trans (h'.indentation hn)⟩

/-- What does not depend on the entries that rules make is the same in both. -/
theorem reads {α : Type} (f : Context → α) (hf : ∀ c, f c.fixed = f c) (h : s.Alike name s') :
    f s.context = f s'.context := by
  rw [← hf, h.context, hf]

theorem templates (h : s.Alike name s') : s.context.templates = s'.context.templates :=
  h.reads (·.templates) fun _ => rfl

theorem inputs (h : s.Alike name s') : s.context.inputs = s'.context.inputs :=
  h.reads (·.inputs) fun _ => rfl

theorem dataTypes (h : s.Alike name s') : s.context.dataTypes = s'.context.dataTypes :=
  h.reads (·.dataTypes) fun _ => rfl

theorem unresolvedImports (h : s.Alike name s') :
    s.context.unresolvedImports = s'.context.unresolvedImports :=
  h.reads (·.unresolvedImports) fun _ => rfl

theorem readsInputs (h : s.Alike name s') :
    s.context.readsInputs = s'.context.readsInputs :=
  h.reads Context.readsInputs fun _ => rfl

theorem knowsType (h : s.Alike name s') (type : String) :
    s.context.knowsType type = s'.context.knowsType type :=
  h.reads (·.knowsType type) fun _ => rfl

theorem suggests (h : s.Alike name s') (rule : String) : s.suggests rule = s'.suggests rule := by
  unfold Session.suggests
  rw [h.quiet]

/-- Contexts that agree on what the rule reads give sessions that look the same to it. -/
theorem withContext (h : s.Alike name s') {c c' : Context} (hfixed : c.fixed = c'.fixed)
    (hversion : name ∈ "dsl_version" :: Rules.followingVersion → c.version = c'.version)
    (hinputs : name = "inputs" → c.unusedInputs = c'.unusedInputs) :
    (s.withContext c).Alike name (s'.withContext c') :=
  ⟨h.file, h.quiet, h.files, hfixed, hversion, hinputs, h.indentation⟩

end Session.Alike

namespace Context

theorem enter_fixed (c : Context) (name : String) : (c.enter name).fixed = c.fixed.enter name := by
  unfold enter
  show Context.fixed (if c.inTemplates && name == "inputs" then _ else _) =
    if c.inTemplates && name == "inputs" then _ else _
  split <;> rfl

theorem enterPart_fixed (c : Context) (t : TokenView) :
    (c.enterPart t).fixed = c.fixed.enterPart t := by
  unfold enterPart
  show Context.fixed (if c.inTemplates then _ else _) = if c.inTemplates then _ else _
  split <;> rfl

/-- Following a token does not depend on the entries that rules make. -/
theorem update_fixed (c : Context) (t : TokenView) : (c.update t).fixed = c.fixed.update t := by
  unfold update
  split
  · rfl
  · rfl
  · show Context.fixed (if c.reading then _ else _) = if c.reading then _ else _
    split
    · dsimp only
      rw [enterPart_fixed]
      split
      · rw [enter_fixed]
      · rfl
    · rfl

theorem enter_entries (c : Context) (name : String) :
    (c.enter name).version = c.version ∧ (c.enter name).unusedInputs = c.unusedInputs ∧
      (c.enter name).unusedImports = c.unusedImports := by
  unfold enter
  split <;> exact ⟨rfl, rfl, rfl⟩

theorem enterPart_entries (c : Context) (t : TokenView) :
    (c.enterPart t).version = c.version ∧ (c.enterPart t).unusedInputs = c.unusedInputs ∧
      (c.enterPart t).unusedImports = c.unusedImports := by
  unfold enterPart
  split <;> exact ⟨rfl, rfl, rfl⟩

/-- Following a token leaves the entries of rules as they are. -/
theorem update_entries (c : Context) (t : TokenView) :
    (c.update t).version = c.version ∧ (c.update t).unusedInputs = c.unusedInputs ∧
      (c.update t).unusedImports = c.unusedImports := by
  unfold update
  split
  · exact ⟨rfl, rfl, rfl⟩
  · exact ⟨rfl, rfl, rfl⟩
  · split
    · dsimp only
      split
      next name _ =>
        obtain ⟨hversion, hinputs, himports⟩ := enterPart_entries (c.enter name) t
        obtain ⟨hversion', hinputs', himports'⟩ := c.enter_entries name
        exact ⟨hversion.trans hversion', hinputs.trans hinputs', himports.trans himports'⟩
      · exact enterPart_entries c t
    · exact ⟨rfl, rfl, rfl⟩

end Context

theorem Session.Alike.observe {name : String} {s s' : Session} (h : s.Alike name s')
    (e : Element) : (Run.observe s e).Alike name (Run.observe s' e) := by
  cases e with
  | token t =>
    obtain ⟨hversion, hinputs, _⟩ := s.context.update_entries t
    obtain ⟨hversion', hinputs', _⟩ := s'.context.update_entries t
    refine h.withContext ?_ ?_ ?_
    · rw [Context.update_fixed, Context.update_fixed, h.context]
    · intro hn
      rw [hversion, hversion', h.version hn]
    · intro hn
      rw [hinputs, hinputs', h.unusedInputs hn]
  | comment c => exact h
  | node v => exact h
  | line l => exact h

/-- The imports that declare none of some types. -/
def ImportedFile.leftBy (t : Table ImportedFile) (types : List String) : Table ImportedFile :=
  t.filter fun _ i => !types.any i.nodeTypes.contains

theorem ImportedFile.leftBy_nil (t : Table ImportedFile) : leftBy t [] = t := by
  show (⟨t.entries.filter fun _ => true⟩ : Table ImportedFile) = t
  rw [List.filter_eq_self.mpr fun _ _ => rfl]

theorem ImportedFile.leftBy_append (t : Table ImportedFile) (types more : List String) :
    leftBy t (types ++ more) = leftBy (leftBy t types) more := by
  unfold leftBy Table.filter
  simp only [List.filter_filter, List.any_append, Bool.not_or, Bool.and_comm]

/-- Marking types as used leaves the imports that declare none of them. -/
theorem Context.foldl_useType (types : List String) (c : Context) :
    types.foldl useType c =
      { c with unusedImports := ImportedFile.leftBy c.unusedImports types } := by
  induction types generalizing c with
  | nil =>
    rw [ImportedFile.leftBy_nil]
    rfl
  | cons type types ih =>
    have hone : ImportedFile.leftBy c.unusedImports [type] = (c.useType type).unusedImports := by
      unfold ImportedFile.leftBy useType
      simp only [List.any_cons, List.any_nil, Bool.or_false]
    rw [List.foldl_cons, ih, ← hone, ← ImportedFile.leftBy_append]
    rfl

/-- The type that a template instantiates, if its check comes as far as marking it. -/
def Rules.instantiatedType? (body : Node) : Option String :=
  if body.isMapping then (body.get? "type").bind Node.text? else none

/-- The node types that a rule marks as used when it sees an element. -/
def Rules.marks (rule : String) : Element → List String
  | .node v =>
    if rule = "node_types" ∧ v.isSection ["node_types"] then
      v.node.namedEntries.filterMap fun (_, _, definition) => parentType? definition
    else if rule = "node_templates" ∧ v.isSection ["node_templates"] then
      v.node.namedEntries.filterMap fun (_, _, body) => instantiatedType? body
    else []
  | _ => []

theorem Rules.marks_of_ne {rule : String} (htypes : rule ≠ "node_types")
    (htemplates : rule ≠ "node_templates") (e : Element) : marks rule e = [] := by
  cases e with
  | node v => exact (if_neg fun h => htypes h.1).trans (if_neg fun h => htemplates h.1)
  | _ => rfl

theorem Rules.leftBy_marks {rule : String} (htypes : rule ≠ "node_types")
    (htemplates : rule ≠ "node_templates") (t : Table ImportedFile) (e : Element) :
    ImportedFile.leftBy t (marks rule e) = t := by
  rw [marks_of_ne htypes htemplates, ImportedFile.leftBy_nil]

/-- A rule that reports what it reads, and whose entries only it reads. Others read the version of
the language, which one rule enters, and which imports are unused, which two rules enter. -/
structure Rule.Confined (r : Rule) : Prop where
  run : ∀ {s s' : Session}, s.Alike r.name s' → ∀ c e,
    (r.run c e s).1 = (r.run c e s').1 ∧ (r.run c e s).2.Alike r.name (r.run c e s').2
  run_other : ∀ name, name ≠ r.name →
    (r.name = "dsl_version" → name ∉ Rules.followingVersion) →
    ∀ c e s, Session.Alike name s (r.run c e s).2
  run_imports : ∀ c e s, (r.run c e s).2.context.unusedImports =
    ImportedFile.leftBy s.context.unusedImports (Rules.marks r.name e)
  finish : r.name ≠ "imports" → ∀ {s s' : Session}, s.Alike r.name s' → ∀ c,
    (r.finish c s).1 = (r.finish c s').1
  finish_still : r.name ≠ "imports" → ∀ c s, (r.finish c s).2 = s

namespace Rule.Confined

variable {r : Rule}

/-- A rule that does not look at the session. -/
theorem ofBlind (hrun : ∀ c e, ∃ ps, ∀ s, r.run c e s = (ps, s))
    (hfinish : r.finish = fun _ s => ([], s)) (htypes : r.name ≠ "node_types")
    (htemplates : r.name ≠ "node_templates") : r.Confined where
  run h c e := by
    obtain ⟨ps, hps⟩ := hrun c e
    rw [hps, hps]
    exact ⟨rfl, h⟩
  run_other name _ _ c e s := by
    obtain ⟨ps, hps⟩ := hrun c e
    rw [hps]
    exact .refl name s
  run_imports c e s := by
    obtain ⟨ps, hps⟩ := hrun c e
    rw [hps, Rules.leftBy_marks htypes htemplates]
  finish _ _ _ _ c := by rw [hfinish]
  finish_still _ c s := by rw [hfinish]

theorem ofNodes {f : RuleSettings → NodeVisit → Session → Findings} (hcheck : r.check = .nodes f)
    (hrun : ∀ {s s' : Session}, s.Alike r.name s' → ∀ c v,
      (f c v s).1 = (f c v s').1 ∧ (f c v s).2.Alike r.name (f c v s').2)
    (hother : ∀ name, name ≠ r.name → (r.name = "dsl_version" → name ∉ Rules.followingVersion) →
      ∀ c v s, Session.Alike name s (f c v s).2)
    (himports : ∀ c v s, (f c v s).2.context.unusedImports =
      ImportedFile.leftBy s.context.unusedImports (Rules.marks r.name (.node v)))
    (hfinish : r.name ≠ "imports" → ∀ {s s' : Session}, s.Alike r.name s' → ∀ c,
      (r.finish c s).1 = (r.finish c s').1)
    (hstill : r.name ≠ "imports" → ∀ c s, (r.finish c s).2 = s) : r.Confined where
  run h c e := by
    unfold Rule.run
    rw [hcheck]
    cases e with
    | node v => exact hrun h c v
    | _ => exact ⟨rfl, h⟩
  run_other name hne hversion c e s := by
    unfold Rule.run
    rw [hcheck]
    cases e with
    | node v => exact hother name hne hversion c v s
    | _ => exact .refl name s
  run_imports c e s := by
    unfold Rule.run
    rw [hcheck]
    cases e with
    | node v => exact himports c v s
    | _ => exact (ImportedFile.leftBy_nil _).symm
  finish := hfinish
  finish_still := hstill

end Rule.Confined

namespace Session.Alike

variable {name : String} {s s' : Session}

theorem withContext_self (name : String) {s : Session} {c : Context}
    (hfixed : c.fixed = s.context.fixed)
    (hversion : name ∈ "dsl_version" :: Rules.followingVersion → c.version = s.context.version)
    (hinputs : name = "inputs" → c.unusedInputs = s.context.unusedInputs) :
    s.Alike name (s.withContext c) :=
  (refl name s).withContext hfixed.symm (fun hn => (hversion hn).symm)
    fun hn => (hinputs hn).symm

theorem resolve (h : s.Alike name s') (path : String) : s.resolve path = s'.resolve path := by
  unfold Session.resolve
  rw [h.file]

/-- Marking types as used does not matter to a check. -/
theorem foldl_useType (h : s.Alike name s') (names : List String) :
    (s.withContext (names.foldl Context.useType s.context)).Alike name
      (s'.withContext (names.foldl Context.useType s'.context)) := by
  rw [Context.foldl_useType, Context.foldl_useType]
  exact h.withContext h.context h.version h.unusedInputs

theorem foldl_useType_self (name : String) (s : Session) (names : List String) :
    s.Alike name (s.withContext (names.foldl Context.useType s.context)) := by
  rw [Context.foldl_useType]
  exact withContext_self name rfl (fun _ => rfl) fun _ => rfl

end Session.Alike

namespace Rules

theorem version_confined : version.Confined := by
  refine .ofNodes rfl ?_ ?_ ?_ (fun _ _ _ _ _ => rfl) fun _ _ _ => rfl
  · intro s s' h c v
    show (checkVersion c v s).1 = (checkVersion c v s').1 ∧
      (checkVersion c v s).2.Alike "dsl_version" (checkVersion c v s').2
    unfold checkVersion
    split
    · exact ⟨rfl, h⟩
    · split
      · exact ⟨rfl, h.withContext h.context (fun _ => rfl) fun hn => absurd hn (by decide)⟩
      · split
        · rw [h.version (by decide)]
          exact ⟨rfl, h⟩
        · exact ⟨rfl, h⟩
  · intro name hne hversion c v s
    show Session.Alike name s (checkVersion c v s).2
    unfold checkVersion
    split
    · exact .refl name s
    · split
      · exact .withContext_self name rfl (fun hn => absurd (List.mem_of_ne_of_mem hne hn) (hversion rfl)) fun _ => rfl
      · split <;> exact .refl name s
  · intro c v s
    rw [leftBy_marks (by decide) (by decide)]
    show (checkVersion c v s).2.context.unusedImports = s.context.unusedImports
    unfold checkVersion
    split
    · rfl
    · split
      · rfl
      · split <;> rfl

theorem imports_confined : imports.Confined := by
  refine .ofNodes rfl ?_ (fun name _ _ _ _ s => .refl name s) ?_ (fun hne => absurd rfl hne)
    fun hne => absurd rfl hne
  · intro s s' h c v
    refine ⟨?_, h⟩
    show checkImports s v = checkImports s' v
    unfold checkImports checkImport checkFileImport
    simp only [h.files, h.resolve]
  · intro c v s
    exact (leftBy_marks (by decide) (by decide) _ _).symm

theorem inputs_confined : inputs.Confined := by
  refine .ofNodes rfl ?_ ?_ ?_ ?_ fun _ _ _ => rfl
  · intro s s' h c v
    have hversion := h.version (by decide)
    show (checkInputNode c v s).1 = (checkInputNode c v s').1 ∧
      (checkInputNode c v s).2.Alike "inputs" (checkInputNode c v s').2
    unfold checkInputNode
    split
    · refine ⟨?_, h⟩
      show checkInputSection s v.node = checkInputSection s' v.node
      unfold checkInputSection checkDefinedInput missingTypeMessage checkTypedInput
      simp only [hversion, h.suggests]
    · split
      · unfold checkInputReference
        rw [h.inputs]
        split
        · exact ⟨rfl, h⟩
        next input _ =>
          split
          · refine ⟨rfl, h.withContext h.context (fun _ => hversion) fun hn => ?_⟩
            show s.context.unusedInputs.erase input = s'.context.unusedInputs.erase input
            rw [h.unusedInputs hn]
          · exact ⟨rfl, h⟩
      · exact ⟨rfl, h⟩
  · intro name hne _ c v s
    show Session.Alike name s (checkInputNode c v s).2
    unfold checkInputNode checkInputReference
    split
    · exact .refl name s
    · split
      · split
        · exact .refl name s
        · split
          · exact .withContext_self name rfl (fun _ => rfl) fun hn => absurd hn hne
          · exact .refl name s
      · exact .refl name s
  · intro c v s
    rw [leftBy_marks (by decide) (by decide)]
    show (checkInputNode c v s).2.context.unusedImports = s.context.unusedImports
    unfold checkInputNode checkInputReference
    split
    · rfl
    · split
      · split
        · rfl
        · split <;> rfl
      · rfl
  · intro _ s s' h c
    show (finishInputs c s).1 = (finishInputs c s').1
    unfold finishInputs
    rw [h.readsInputs, h.unusedInputs rfl]

theorem relationships_confined : relationships.Confined := by
  refine .ofNodes rfl ?_ (fun name _ _ _ _ s => .refl name s) ?_ (fun _ _ _ _ _ => rfl)
    fun _ _ _ => rfl
  · intro s s' h c v
    refine ⟨?_, h⟩
    show checkRelationships s v = checkRelationships s' v
    unfold checkRelationships checkRelationshipList checkRelationshipItem checkRelationshipType
      checkTarget
    simp only [h.version (by decide), h.templates]
  · intro c v s
    exact (leftBy_marks (by decide) (by decide) _ _).symm

theorem capabilities_confined : capabilities.Confined := by
  refine .ofNodes rfl ?_ ?_ ?_ (fun _ _ _ _ _ => rfl) fun _ _ _ => rfl
  · intro s s' h c v
    show (checkCapabilities c v s).1 = (checkCapabilities c v s').1 ∧
      (checkCapabilities c v s).2.Alike "capabilities" (checkCapabilities c v s').2
    unfold checkCapabilities
    dsimp only
    split
    · exact ⟨rfl, h⟩
    · split
      · exact ⟨rfl, h.withContext h.context h.version h.unusedInputs⟩
      · exact ⟨rfl, h.withContext h.context h.version h.unusedInputs⟩
  · intro name _ _ c v s
    show Session.Alike name s (checkCapabilities c v s).2
    unfold checkCapabilities
    dsimp only
    split
    · exact .refl name s
    · split <;> exact .withContext_self name rfl (fun _ => rfl) fun _ => rfl
  · intro c v s
    rw [leftBy_marks (by decide) (by decide)]
    show (checkCapabilities c v s).2.context.unusedImports = s.context.unusedImports
    unfold checkCapabilities
    dsimp only
    split
    · rfl
    · split <;> rfl

theorem nodeTypes_confined : nodeTypes.Confined := by
  refine .ofNodes rfl ?_ ?_ ?_ (fun _ _ _ _ _ => rfl) fun _ _ _ => rfl
  · intro s s' h c v
    have hversion := h.version (by decide)
    show (checkNodeTypes c v s).1 = (checkNodeTypes c v s').1 ∧
      (checkNodeTypes c v s).2.Alike "node_types" (checkNodeTypes c v s').2
    unfold checkNodeTypes
    split
    · refine ⟨?_, h.foldl_useType _⟩
      unfold checkNodeType checkTypeName checkMentionedTypes
      simp only [hversion, h.suggests, h.unresolvedImports, h.dataTypes]
    · exact ⟨rfl, h⟩
  · intro name _ _ c v s
    show Session.Alike name s (checkNodeTypes c v s).2
    unfold checkNodeTypes
    split
    · exact .foldl_useType_self name s _
    · exact .refl name s
  · intro c v s
    show (checkNodeTypes c v s).2.context.unusedImports =
      ImportedFile.leftBy s.context.unusedImports (marks "node_types" (.node v))
    have hmarks : marks "node_types" (.node v) =
        if v.isSection ["node_types"] then
          v.node.namedEntries.filterMap fun (_, _, definition) => parentType? definition
        else [] := by
      simp [marks]
    rw [hmarks]
    unfold checkNodeTypes
    split
    · exact congrArg (·.unusedImports) (Context.foldl_useType _ s.context)
    · exact (ImportedFile.leftBy_nil _).symm

theorem checkTemplateType_alike {s s' : Session} (h : s.Alike "node_templates" s') (name : String)
    (body : Node) :
    (checkTemplateType name body s).1 = (checkTemplateType name body s').1 ∧
      (checkTemplateType name body s).2.Alike "node_templates"
        (checkTemplateType name body s').2 := by
  unfold checkTemplateType
  split
  · exact ⟨rfl, h⟩
  · split
    · exact ⟨rfl, h⟩
    next typeName _ =>
      have hused := h.foldl_useType [typeName]
      refine ⟨?_, hused⟩
      show checkTypeUse (s.context.useType typeName) typeName _ =
        checkTypeUse (s'.context.useType typeName) typeName _
      have hversion : (s.context.useType typeName).version = (s'.context.useType typeName).version :=
        hused.version (by decide)
      have hunresolved : (s.context.useType typeName).unresolvedImports =
          (s'.context.useType typeName).unresolvedImports := hused.unresolvedImports
      have hknows : (s.context.useType typeName).knowsType typeName =
          (s'.context.useType typeName).knowsType typeName := hused.knowsType typeName
      unfold checkTypeUse
      rw [hversion, hunresolved, hknows]

theorem checkTemplateBody_alike {s s' : Session} (h : s.Alike "node_templates" s') (name : String)
    (body : Node) :
    (checkTemplateBody name body s).1 = (checkTemplateBody name body s').1 ∧
      (checkTemplateBody name body s).2.Alike "node_templates"
        (checkTemplateBody name body s').2 := by
  obtain ⟨hproblems, hsession⟩ := checkTemplateType_alike h name body
  unfold checkTemplateBody
  split
  · exact ⟨rfl, h⟩
  · refine ⟨?_, hsession⟩
    dsimp only
    unfold checkCalledTemplates isKnownTarget checkPropertySection unrelatedTargets
      checkInterfaceSection checkInterfaceName
    simp only [hproblems, hsession.templates, hsession.version (by decide)]

theorem checkTemplateList_alike {s s' : Session} (h : s.Alike "node_templates" s')
    (declared : List (String × Node × Node)) :
    (checkTemplateList s declared).1 = (checkTemplateList s' declared).1 ∧
      (checkTemplateList s declared).2.Alike "node_templates"
        (checkTemplateList s' declared).2 := by
  induction declared generalizing s s' with
  | nil => exact ⟨rfl, h⟩
  | cons entry declared ih =>
    obtain ⟨name, key, body⟩ := entry
    obtain ⟨hproblems, hsession⟩ := checkTemplateBody_alike h name body
    obtain ⟨hlater, hlast⟩ := ih hsession
    unfold checkTemplateList
    dsimp only
    exact ⟨by rw [hproblems, hlater], hlast⟩

theorem checkTemplateBody_session (name : String) (body : Node) (s : Session) :
    (checkTemplateBody name body s).2 =
      s.withContext ((instantiatedType? body).toList.foldl Context.useType s.context) := by
  unfold checkTemplateBody checkTemplateType instantiatedType?
  cases hmapping : body.isMapping with
  | false => rfl
  | true =>
    cases hkind : body.get? "type" with
    | none => rfl
    | some kind =>
      cases htext : kind.text? with
      | none => simp [htext]; rfl
      | some text => simp [htext]

/-- Checking templates marks their types as used, and changes nothing else. -/
theorem checkTemplateList_session (s : Session) (declared : List (String × Node × Node)) :
    (checkTemplateList s declared).2 =
      s.withContext ((declared.filterMap fun (_, _, body) => instantiatedType? body).foldl
        Context.useType s.context) := by
  induction declared generalizing s with
  | nil => rfl
  | cons entry declared ih =>
    obtain ⟨name, key, body⟩ := entry
    unfold checkTemplateList
    dsimp only
    rw [ih, checkTemplateBody_session, List.filterMap_cons]
    cases instantiatedType? body <;> rfl

theorem nodeTemplates_confined : nodeTemplates.Confined := by
  refine .ofNodes rfl ?_ ?_ ?_ (fun _ _ _ _ _ => rfl) fun _ _ _ => rfl
  · intro s s' h c v
    obtain ⟨hproblems, hsession⟩ := checkTemplateList_alike h v.node.namedEntries
    show (checkTemplates c v s).1 = (checkTemplates c v s').1 ∧
      (checkTemplates c v s).2.Alike "node_templates" (checkTemplates c v s').2
    unfold checkTemplates
    split
    · refine ⟨?_, hsession⟩
      dsimp only
      rw [hproblems, hsession.templates]
    · exact ⟨rfl, h⟩
  · intro name _ _ c v s
    show Session.Alike name s (checkTemplates c v s).2
    unfold checkTemplates
    split
    · dsimp only
      rw [checkTemplateList_session]
      exact .foldl_useType_self name s _
    · exact .refl name s
  · intro c v s
    show (checkTemplates c v s).2.context.unusedImports =
      ImportedFile.leftBy s.context.unusedImports (marks "node_templates" (.node v))
    have hmarks : marks "node_templates" (.node v) =
        if v.isSection ["node_templates"] then
          v.node.namedEntries.filterMap fun (_, _, body) => instantiatedType? body
        else [] := by
      simp [marks]
    rw [hmarks]
    unfold checkTemplates
    split
    · dsimp only
      rw [checkTemplateList_session]
      exact congrArg (·.unusedImports) (Context.foldl_useType _ s.context)
    · exact (ImportedFile.leftBy_nil _).symm

theorem indentation_confined : indentation.Confined := by
  constructor
  · intro s s' h c e
    have hstate := h.indentation rfl
    cases e with
    | token t =>
      show (checkIndentation c t s).1 = (checkIndentation c t s').1 ∧
        (checkIndentation c t s).2.Alike "indentation" (checkIndentation c t s').2
      unfold checkIndentation
      rw [hstate]
      exact ⟨rfl, ⟨h.file, h.quiet, h.files, h.context, h.version, h.unusedInputs, fun _ => rfl⟩⟩
    | _ => exact ⟨rfl, h⟩
  · intro name hne _ c e s
    cases e with
    | token t =>
      exact ⟨rfl, rfl, rfl, rfl, fun _ => rfl, fun _ => rfl, fun hn => absurd hn hne⟩
    | _ => exact .refl name s
  · intro c e s
    rw [leftBy_marks (by decide) (by decide)]
    cases e <;> rfl
  · intro _ s s' _ c
    rfl
  · intro _ c s
    rfl

end Rules

theorem Registry.builtin_confined {r : Rule} (hr : r ∈ builtin.rules) : r.Confined := by
  rcases List.mem_append.mp hr with hr | hr
  · unfold styleRules at hr
    simp only [List.mem_cons, List.not_mem_nil, or_false] at hr
    rcases hr with rfl | rfl | rfl | rfl | rfl | rfl | rfl | rfl | rfl | rfl | rfl | rfl | rfl | rfl
    case inr.inr.inr.inr.inr.inr.inr.inr.inl => exact Rules.indentation_confined
    all_goals
      exact .ofBlind (fun c e => by cases e <;> exact ⟨_, fun _ => rfl⟩) rfl (by decide) (by decide)
  · unfold languageRules at hr
    simp only [List.mem_cons, List.not_mem_nil, or_false] at hr
    rcases hr with rfl | rfl | rfl | rfl | rfl | rfl | rfl | rfl | rfl
    · exact Rules.version_confined
    · exact Rules.imports_confined
    · exact Rules.inputs_confined
    · exact Rules.nodeTemplates_confined
    · exact Rules.relationships_confined
    · exact Rules.capabilities_confined
    · exact .ofBlind (fun c e => by cases e <;> exact ⟨_, fun _ => rfl⟩) rfl (by decide) (by decide)
    · exact .ofBlind (fun c e => by cases e <;> exact ⟨_, fun _ => rfl⟩) rfl (by decide) (by decide)
    · exact Rules.nodeTypes_confined

theorem Registry.eq_of_name {r q : Rule} (hr : r ∈ builtin.rules) (hq : q ∈ builtin.rules)
    (hname : r.name = q.name) : r = q := by
  have hnames : (builtin.rules.map (·.name)).Nodup := by decide
  exact List.inj_on_of_nodup_map hnames hr hq hname

theorem Registry.version_mem : Rules.version ∈ builtin.rules :=
  List.mem_append_right styleRules List.mem_cons_self

theorem Registry.imports_mem : Rules.imports ∈ builtin.rules :=
  List.mem_append_right styleRules (List.mem_cons_of_mem Rules.version List.mem_cons_self)

/-- What a rule enters at the end does not matter to checks. -/
theorem Registry.finish_alike {r : Rule} (hr : r ∈ builtin.rules) (name : String)
    (c : RuleSettings) (s : Session) : s.Alike name (r.finish c s).2 := by
  by_cases hname : r.name = "imports"
  · rw [eq_of_name hr imports_mem hname]
    exact .foldl_useType_self name s _
  · rw [(builtin_confined hr).finish_still hname]
    exact .refl name s

end Blueprint
