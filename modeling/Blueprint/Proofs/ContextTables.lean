import Blueprint.Proofs.Accounting
import Blueprint.Proofs.SharedSession

/-!
The tables of a context while a document is read. What the document declares was entered before the
first token and stays; what is unused only becomes less; what has been met is not forgotten.
-/

namespace Blueprint

namespace Table

variable {α : Type} {t t' t'' : Table α}

/-- Every key of the first table is one of the second. -/
def KeepsKeys (t t' : Table α) : Prop :=
  ∀ key, t.contains key = true → t'.contains key = true

theorem KeepsKeys.refl (t : Table α) : t.KeepsKeys t :=
  fun _ h => h

theorem KeepsKeys.trans (h : t.KeepsKeys t') (h' : t'.KeepsKeys t'') : t.KeepsKeys t'' :=
  fun key hkey => h' key (h key hkey)

theorem contains_insert (t : Table α) (key : String) (value : α) (name : String) :
    (t.insert key value).contains name = (key == name || t.contains name) := by
  obtain ⟨entries⟩ := t
  show (insertEntry key value entries).any (·.1 == name) =
    (key == name || entries.any (·.1 == name))
  induction entries with
  | nil => rfl
  | cons entry entries ih =>
    unfold insertEntry
    split
    next heq => rw [List.any_cons, List.any_cons, heq, ← Bool.or_assoc, Bool.or_self]
    · split
      · rfl
      · rw [List.any_cons, List.any_cons, ih, ← Bool.or_assoc, ← Bool.or_assoc,
          Bool.or_comm (entry.1 == name)]

theorem keepsKeys_insert (t : Table α) (key : String) (value : α) :
    t.KeepsKeys (t.insert key value) := by
  intro name h
  rw [contains_insert, h, Bool.or_true]

end Table

namespace Context

theorem keepsKeys_insertAll {α : Type} (entries : List (String × α)) (t : Table α) :
    t.KeepsKeys (insertAll t entries) := by
  induction entries generalizing t with
  | nil => exact .refl t
  | cons entry entries ih => exact (t.keepsKeys_insert entry.1 entry.2).trans (ih _)

/-- How a context may change while a document is read. The version of the language, the outputs and
the capabilities are entered again by their rules, and may move to another line. -/
structure Narrows (c c' : Context) : Prop where
  inputs : c'.inputs = c.inputs
  templates : c'.templates = c.templates
  nodeTypes : c'.nodeTypes = c.nodeTypes
  dataTypes : c'.dataTypes = c.dataTypes
  definitions : c'.definitions = c.definitions
  importedTypes : c'.importedTypes = c.importedTypes
  unresolvedImports : c'.unresolvedImports = c.unresolvedImports
  unusedInputs : c'.unusedInputs.entries.Sublist c.unusedInputs.entries
  unusedImports : c'.unusedImports.entries.Sublist c.unusedImports.entries
  sections : c.sections.KeepsKeys c'.sections
  outputs : c.outputs.KeepsKeys c'.outputs
  capabilities : c.capabilities.KeepsKeys c'.capabilities

namespace Narrows

variable {c c' c'' : Context}

theorem refl (c : Context) : c.Narrows c :=
  ⟨rfl, rfl, rfl, rfl, rfl, rfl, rfl, List.Sublist.refl _, List.Sublist.refl _, .refl _, .refl _,
    .refl _⟩

theorem trans (h : c.Narrows c') (h' : c'.Narrows c'') : c.Narrows c'' where
  inputs := h'.inputs.trans h.inputs
  templates := h'.templates.trans h.templates
  nodeTypes := h'.nodeTypes.trans h.nodeTypes
  dataTypes := h'.dataTypes.trans h.dataTypes
  definitions := h'.definitions.trans h.definitions
  importedTypes := h'.importedTypes.trans h.importedTypes
  unresolvedImports := h'.unresolvedImports.trans h.unresolvedImports
  unusedInputs := h'.unusedInputs.trans h.unusedInputs
  unusedImports := h'.unusedImports.trans h.unusedImports
  sections := h.sections.trans h'.sections
  outputs := h.outputs.trans h'.outputs
  capabilities := h.capabilities.trans h'.capabilities

end Narrows

theorem enter_narrows (c : Context) (name : String) : c.Narrows (c.enter name) := by
  unfold enter
  split
  · exact .refl c
  · refine { Narrows.refl c with sections := ?_ }
    show c.sections.KeepsKeys (if name = "" then c.sections else c.sections.add name)
    split
    · exact .refl _
    · exact c.sections.keepsKeys_insert name ()

theorem enterPart_narrows (c : Context) (t : TokenView) : c.Narrows (c.enterPart t) := by
  unfold enterPart
  split <;> exact { Narrows.refl c with }

/-- Following a token enters sections. -/
theorem update_narrows (c : Context) (t : TokenView) : c.Narrows (c.update t) := by
  unfold update
  split
  · exact { Narrows.refl c with }
  · exact { Narrows.refl c with }
  · split
    · dsimp only
      split
      next name _ => exact (c.enter_narrows name).trans (enterPart_narrows _ t)
      · exact c.enterPart_narrows t
    · exact .refl c

theorem readInput_narrows (c : Context) (name : String) : c.Narrows (c.readInput name) :=
  { Narrows.refl c with unusedInputs := List.filter_sublist }

theorem useTypes_narrows (c : Context) (types : List String) :
    c.Narrows (types.foldl useType c) := by
  rw [foldl_useType]
  exact { Narrows.refl c with unusedImports := List.filter_sublist }

end Context

namespace Rules

variable (c : RuleSettings) (v : NodeVisit) (s : Session)

theorem checkVersion_narrows : s.context.Narrows (checkVersion c v s).2.context := by
  unfold checkVersion
  split
  · exact .refl _
  · split
    · exact { Context.Narrows.refl s.context with }
    · split <;> exact .refl _

theorem checkInputNode_narrows : s.context.Narrows (checkInputNode c v s).2.context := by
  unfold checkInputNode checkInputReference
  split
  · exact .refl _
  · split
    · split
      · exact .refl _
      next name _ =>
        split
        · exact s.context.readInput_narrows name
        · exact .refl _
    · exact .refl _

theorem checkTemplates_narrows : s.context.Narrows (checkTemplates c v s).2.context := by
  unfold checkTemplates
  split
  · dsimp only
    rw [checkTemplateList_session]
    exact s.context.useTypes_narrows _
  · exact .refl _

theorem checkCapabilities_narrows : s.context.Narrows (checkCapabilities c v s).2.context := by
  unfold checkCapabilities
  dsimp only
  split
  · exact .refl _
  · split
    · exact { Context.Narrows.refl s.context with outputs := Context.keepsKeys_insertAll _ _ }
    · exact { Context.Narrows.refl s.context with capabilities := Context.keepsKeys_insertAll _ _ }

theorem checkNodeTypes_narrows : s.context.Narrows (checkNodeTypes c v s).2.context := by
  unfold checkNodeTypes
  split
  · exact s.context.useTypes_narrows _
  · exact .refl _

end Rules

namespace Registry

/-- The check of a rule enters no declaration and forgets nothing that has been met. -/
theorem builtin_run_narrows {r : Rule} (hr : r ∈ builtin.rules) (c : RuleSettings) (e : Element)
    (s : Session) : s.context.Narrows (r.run c e s).2.context := by
  -- Rules of five names write to the context; all others leave it as it is.
  by_cases hversion : r = Rules.version
  · subst hversion
    cases e with
    | node v => exact Rules.checkVersion_narrows c v s
    | _ => exact .refl _
  by_cases hinputs : r = Rules.inputs
  · subst hinputs
    cases e with
    | node v => exact Rules.checkInputNode_narrows c v s
    | _ => exact .refl _
  by_cases htemplates : r = Rules.nodeTemplates
  · subst htemplates
    cases e with
    | node v => exact Rules.checkTemplates_narrows c v s
    | _ => exact .refl _
  by_cases hcapabilities : r = Rules.capabilities
  · subst hcapabilities
    cases e with
    | node v => exact Rules.checkCapabilities_narrows c v s
    | _ => exact .refl _
  by_cases htypes : r = Rules.nodeTypes
  · subst htypes
    cases e with
    | node v => exact Rules.checkNodeTypes_narrows c v s
    | _ => exact .refl _
  have hsame : (r.run c e s).2.context = s.context := by
    rcases List.mem_append.mp hr with hr | hr
    · unfold styleRules at hr
      simp only [List.mem_cons, List.not_mem_nil, or_false] at hr
      rcases hr with rfl | rfl | rfl | rfl | rfl | rfl | rfl | rfl | rfl | rfl | rfl | rfl | rfl | rfl
      all_goals cases e <;> rfl
    · unfold languageRules at hr
      simp only [List.mem_cons, List.not_mem_nil, or_false, hversion, hinputs, htemplates,
        hcapabilities, htypes, false_or] at hr
      rcases hr with rfl | rfl | rfl | rfl
      all_goals cases e <;> rfl
  rw [hsame]
  exact .refl _

/-- At the end the types of the node templates are marked as used. -/
theorem builtin_finish_narrows {r : Rule} (hr : r ∈ builtin.rules) (c : RuleSettings)
    (s : Session) : s.context.Narrows (r.finish c s).2.context := by
  by_cases hname : r.name = "imports"
  · rw [eq_of_name hr imports_mem hname]
    exact s.context.useTypes_narrows _
  · rw [(builtin_confined hr).finish_still hname]
    exact .refl _

end Registry

namespace Call

/-- Whether a call is one of a rule that is built in, or follows an element. -/
def IsBuiltin : Call → Prop
  | observe _ => True
  | check a _ | finish a => a.rule ∈ Registry.builtin.rules

theorem make_narrows {c : Call} (hc : c.IsBuiltin) (file : Option String) (s : Session) :
    s.context.Narrows (make file s c).2.context := by
  cases c with
  | observe e =>
    cases e with
    | token t => exact s.context.update_narrows t
    | _ => exact .refl _
  | check a e => exact Registry.builtin_run_narrows hc a.conf e s
  | finish a => exact Registry.builtin_finish_narrows hc a.conf s

theorem makeAll_narrows {cs : List Call} (hcs : ∀ c ∈ cs, c.IsBuiltin) (file : Option String)
    (s : Session) : s.context.Narrows (makeAll file s cs).2.context := by
  induction cs generalizing s with
  | nil => exact .refl _
  | cons c cs ih =>
    rw [makeAll_cons]
    exact (make_narrows (hcs c List.mem_cons_self) file s).trans
      (ih (fun d hd => hcs d (List.mem_cons_of_mem c hd)) _)

theorem isBuiltin_of_mem_ofElement {active : List ActiveRule} {e : Element}
    (hactive : ∀ a ∈ active, a.rule ∈ Registry.builtin.rules) {c : Call}
    (hc : c ∈ ofElement active e) : c.IsBuiltin := by
  rcases List.mem_cons.mp hc with rfl | hc
  · trivial
  · obtain ⟨a, ha, rfl⟩ := List.mem_map.mp hc
    exact hactive a (List.mem_filter.mp ha).1

theorem isBuiltin_of_mem_schedule {active : List ActiveRule} {es : List Element}
    (hactive : ∀ a ∈ active, a.rule ∈ Registry.builtin.rules) {c : Call}
    (hc : c ∈ schedule active es) : c.IsBuiltin := by
  rcases List.mem_append.mp hc with hc | hc
  · obtain ⟨e, _, hc⟩ := List.mem_flatMap.mp hc
    exact isBuiltin_of_mem_ofElement hactive hc
  · obtain ⟨a, ha, rfl⟩ := List.mem_map.mp hc
    exact hactive a ha

end Call

namespace Run

/-- Between any two calls of a run with rules that are built in, over its elements, and at its end,
nothing changes what the document declares, adds to what is unused, or forgets a section, an output
or a capability. The run may start in any session, that after the index of a document among them. -/
theorem context_narrows {active : List ActiveRule}
    (hactive : ∀ a ∈ active, a.rule ∈ Registry.builtin.rules) (r : Run) (es : List Element) :
    (∀ before between after, Call.schedule active es = before ++ between ++ after →
      (Call.makeAll r.file r.session before).2.context.Narrows
        (Call.makeAll r.file r.session (before ++ between)).2.context) ∧
    (∀ before after, es = before ++ after →
      (steps active r before).1.session.context.Narrows (steps active r es).1.session.context) ∧
    (steps active r es).1.session.context.Narrows
      (eachRule r.file (fun a s => a.rule.finish a.conf s) (steps active r es).1.session
        active).2.context := by
  refine ⟨?_, ?_, ?_⟩
  · intro before between after hschedule
    rw [Call.makeAll_append]
    refine Call.makeAll_narrows (fun c hc => ?_) _ _
    have hmem : c ∈ Call.schedule active es := by
      rw [hschedule]
      exact List.mem_append_left after (List.mem_append_right before hc)
    exact Call.isBuiltin_of_mem_schedule hactive hmem
  · rintro before after rfl
    rw [(steps_state active r before).2.1, (steps_state active r (before ++ after)).2.1,
      List.flatMap_append, Call.makeAll_append]
    refine Call.makeAll_narrows (fun c hc => ?_) _ _
    obtain ⟨e, _, hc⟩ := List.mem_flatMap.mp hc
    exact Call.isBuiltin_of_mem_ofElement hactive hc
  · rw [Call.eachRule_finish]
    refine Call.makeAll_narrows (fun c hc => ?_) _ _
    obtain ⟨a, ha, rfl⟩ := List.mem_map.mp hc
    exact hactive a ha

/-- A document that reads its only input: the run marks the input as used and meets a section. -/
theorem context_narrows_of_reading :
    let text := "inputs:\n  a:\n    type: string\noutputs:\n  b:\n    value: \x7bget_input: a\x7d\n"
    let source := Source.ofText text
    let root := (Node.compose source text.toList).toOption.join
    let active : List ActiveRule :=
      [⟨Rules.inputs, Rules.inputs.defaults⟩, ⟨Rules.capabilities, Rules.capabilities.defaults⟩]
    let r : Run :=
      { file := none, directives := ⟨[], [], [], [], []⟩
        session := (root.map ({} : Session).index).getD {} }
    let es := Element.ofText source text.toList root
    (∀ a ∈ active, a.rule ∈ Registry.builtin.rules) ∧
      r.session.context.unusedInputs.entries = [("a", 2)] ∧
      (steps active r es).1.session.context.unusedInputs.entries = [] ∧
      (steps active r es).1.session.context.outputs.entries = [("b", 5)] ∧
      r.session.context.Narrows (steps active r es).1.session.context := by
  intro text source root active r es
  have hactive : ∀ a ∈ active, a.rule ∈ Registry.builtin.rules := by
    intro a ha
    rcases List.mem_cons.mp ha with rfl | ha
    · simp [Registry.builtin, Registry.languageRules]
    · rw [List.mem_singleton.mp ha]
      simp [Registry.builtin, Registry.languageRules]
  refine ⟨hactive, by decide +kernel, by decide +kernel, by decide +kernel, ?_⟩
  clear_value es r
  exact (context_narrows hactive r es).2.1 [] es rfl

end Run

end Blueprint
