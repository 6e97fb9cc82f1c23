import Blueprint.Proofs.CosmeticProblems
import Blueprint.Proofs.StreamOrder

/-!
The problems about older names of types: each one that proposes another name is about the type of a
node template or of a relationship, stands on its line, and changes only how its name starts.
-/

namespace Blueprint

namespace Vocabulary

/-- Whether this is what the name of a type may start with: letters, points and underscores, a small
letter first. -/
def isNameStart (s : List Char) : Bool :=
  s.head?.any Char.isLower && s.all fun c => c.isAlpha || c == '.' || c == '_'

/-- Two names that differ in how they start. -/
def Renamed (old new : String) : Prop :=
  ∃ start newStart kind, isNameStart start = true ∧ isNameStart newStart = true ∧
    old.toList = start ++ kind ∧ new.toList = newStart ++ kind

theorem after?_eq_some {start name rest : String} (h : after? start name = some rest) :
    name = start ++ rest := by
  unfold after? at h
  obtain ⟨r, hr, rfl⟩ := Option.map_eq_some_iff.mp h
  rw [← String.toList_inj, Text.after?_eq_some.mp hr, String.toList_append, String.toList_ofList]

theorem Renamed.of_starts {start newStart : String} (h : isNameStart start.toList = true)
    (h' : isNameStart newStart.toList = true) (kind : String) :
    Renamed (start ++ kind) (newStart ++ kind) :=
  ⟨_, _, kind.toList, h, h', String.toList_append, String.toList_append⟩

/-- How the older names of types start, each with the start that takes its place. -/
def typeStarts : List (String × String) :=
  movedNodeTypes ++
    providers.map (fun p => (olderStart ++ p ++ ".nodes.", "nativeedge.nodes." ++ p ++ ".")) ++
    providers.map (fun p =>
      (olderStart ++ p ++ ".relationships.", "nativeedge.relationships." ++ p ++ ".")) ++
    [(olderStart ++ "openstack.nova_net.nodes.", "nativeedge.nodes.openstack."),
      (olderStart ++ "openstack.", "nativeedge.relationships.openstack."),
      (olderStart, currentStart)]

/-- The second name is the first one with the start that takes the place of its own. -/
def Restarted (old new : String) : Prop :=
  ∃ start ∈ typeStarts, ∃ kind, old = start.1 ++ kind ∧ new = start.2 ++ kind

/-- A name whose start tells its provider. -/
theorem restarted_of_provider {part newPart rest new : String}
    (hstarts : ∀ p ∈ providers, (olderStart ++ p ++ part, newPart ++ p ++ ".") ∈ typeStarts)
    (h : providers.findSome? (fun p => (after? (p ++ part) rest).map (newPart ++ p ++ "." ++ ·)) =
      some new) : Restarted (olderStart ++ rest) new := by
  obtain ⟨p, hp, hmap⟩ := List.exists_of_findSome?_eq_some h
  obtain ⟨kind, hkind, rfl⟩ := Option.map_eq_some_iff.mp hmap
  refine ⟨_, hstarts p hp, kind, ?_, rfl⟩
  rw [after?_eq_some hkind, String.append_assoc, String.append_assoc, String.append_assoc]

theorem restarted_of_current {rest new : String} {known : List String}
    (h : (some (currentStart ++ rest)).filter known.contains = some new) :
    Restarted (olderStart ++ rest) new := by
  obtain ⟨hnew, _⟩ := Option.filter_eq_some_iff.mp h
  cases hnew
  exact ⟨(olderStart, currentStart), by decide, rest, rfl, rfl⟩

theorem newNodeType?_restarted {name new : String} (h : newNodeType? name = some new) :
    Restarted name new := by
  unfold newNodeType? at h
  split at h
  next hmoved =>
    obtain ⟨earlier, later, hlist, _⟩ := List.lookup_eq_some_iff.mp hmoved
    have hmoves : (name, _) ∈ movedNodeTypes :=
      hlist ▸ List.mem_append_right earlier List.mem_cons_self
    cases h
    refine ⟨(name, new), ?_, "", String.append_empty.symm, String.append_empty.symm⟩
    unfold typeStarts
    rw [List.append_assoc, List.append_assoc]
    exact List.mem_append_left _ hmoves
  · obtain ⟨rest, hrest, h⟩ := Option.bind_eq_some_iff.mp h
    rw [after?_eq_some hrest]
    dsimp only at h
    split at h
    next kind hkind =>
      cases h
      rw [after?_eq_some hkind, ← String.append_assoc]
      exact ⟨(olderStart ++ "openstack.nova_net.nodes.", "nativeedge.nodes.openstack."),
        by decide, kind, rfl, rfl⟩
    · split at h
      next hprovider =>
        cases h
        exact restarted_of_provider (by decide) hprovider
      · exact restarted_of_current h

theorem newRelationship?_restarted {name new : String} (h : newRelationship? name = some new) :
    Restarted name new := by
  unfold newRelationship? at h
  obtain ⟨rest, hrest, h⟩ := Option.bind_eq_some_iff.mp h
  rw [after?_eq_some hrest]
  dsimp only at h
  split at h
  next hprovider =>
    cases h
    exact restarted_of_provider (by decide) hprovider
  · split at h
    next kind hkind =>
      cases h
      rw [after?_eq_some hkind, ← String.append_assoc]
      exact ⟨(olderStart ++ "openstack.", "nativeedge.relationships.openstack."),
        by decide, kind, rfl, rfl⟩
    · exact restarted_of_current h

/-- The second name is the one that takes the place of the first, of a node type or of a
relationship. -/
def Proposes (old new : String) : Prop :=
  newNodeType? old = some new ∨ newRelationship? old = some new

instance (old new : String) : Decidable (Proposes old new) :=
  inferInstanceAs (Decidable (_ ∨ _))

theorem Proposes.restarted {old new : String} (h : Proposes old new) : Restarted old new :=
  h.elim newNodeType?_restarted newRelationship?_restarted

theorem Proposes.renamed {old new : String} (h : Proposes old new) : Renamed old new := by
  have hstarts : ∀ start ∈ typeStarts,
      isNameStart start.1.toList = true ∧ isNameStart start.2.toList = true := by decide
  obtain ⟨start, hstart, kind, rfl, rfl⟩ := h.restarted
  exact .of_starts (hstarts start hstart).1 (hstarts start hstart).2 kind

end Vocabulary

/-! The nodes that a walk visits. -/

namespace Node

variable {keyNode : Option Node} {path : List PathStep} {n : Node} {v : NodeVisit}

theorem mem_walkFrom_self : ⟨n, keyNode, path⟩ ∈ walkFrom keyNode path n := by
  cases n <;> exact List.mem_cons_self

theorem walkItems_of_mem {items : List Node} (h : n ∈ items) (path : List PathStep) (index : Nat) :
    ∃ k step, walkFrom k (path ++ [step]) n ⊆ walkItems path index items := by
  induction items generalizing index with
  | nil => cases h
  | cons item items ih =>
    rw [walkItems]
    rcases List.mem_cons.mp h with rfl | h
    · exact ⟨none, .index index, List.subset_append_left _ _⟩
    · obtain ⟨k, step, hsub⟩ := ih h (index + 1)
      exact ⟨k, step, List.subset_append_of_subset_right _ hsub⟩

theorem walkEntries_of_mem {entries : List (Node × Node)} {key : Node} (h : (key, n) ∈ entries)
    (path : List PathStep) :
    walkFrom (some key) (path ++ [.key key.keyName]) n ⊆ walkEntries path entries := by
  induction entries with
  | nil => cases h
  | cons entry entries ih =>
    obtain ⟨k, v⟩ := entry
    rw [walkEntries]
    rcases List.mem_cons.mp h with heq | h
    · cases heq
      exact List.subset_append_of_subset_left _ (List.subset_append_right _ _)
    · exact List.subset_append_of_subset_right _ (ih h)

/-- The walk goes through the entries of each mapping that it visits. -/
theorem walkFrom_entry {key value : Node} (h : (key, value) ∈ n.entries) :
    walkFrom (some key) (path ++ [.key key.keyName]) value ⊆ walkFrom keyNode path n := by
  cases n with
  | mapping start stop flow entries =>
    rw [walkFrom]
    exact List.subset_cons_of_subset _ (walkEntries_of_mem h path)
  | _ => cases h

theorem walkFrom_item {item : Node} (h : item ∈ n.items) :
    ∃ k step, walkFrom k (path ++ [step]) item ⊆ walkFrom keyNode path n := by
  cases n with
  | sequence start stop flow items =>
    obtain ⟨k, step, hsub⟩ := walkItems_of_mem h path 0
    rw [walkFrom]
    exact ⟨k, step, List.subset_cons_of_subset _ hsub⟩
  | _ => cases h

theorem mem_entries_of_get? {key : String} {child : Node} (h : n.get? key = some child) :
    ∃ k, (k, child) ∈ n.entries ∧ k.text? = some key := by
  unfold get? at h
  obtain ⟨⟨k, v⟩, hfind, rfl⟩ := Option.map_eq_some_iff.mp h
  refine ⟨k, List.mem_of_find?_eq_some hfind, ?_⟩
  have htext := List.find?_some hfind
  exact beq_iff_eq.mp htext

mutual

/-- The walk goes on from each node that it visits. -/
theorem walkFrom_subset : {n : Node} → {keyNode : Option Node} → {path : List PathStep} →
    v ∈ walkFrom keyNode path n → walkFrom v.keyNode v.path v.node ⊆ walkFrom keyNode path n
  | scalar .., _, _, h => by
    cases List.mem_singleton.mp h
    exact List.Subset.refl _
  | .alias .., _, _, h => by
    cases List.mem_singleton.mp h
    exact List.Subset.refl _
  | sequence _ _ _ items, _, _, h => by
    rw [walkFrom] at h
    rcases List.mem_cons.mp h with rfl | h
    · exact List.Subset.refl _
    · rw [walkFrom]
      exact List.subset_cons_of_subset _ (walkItems_subset h)
  | mapping _ _ _ entries, _, _, h => by
    rw [walkFrom] at h
    rcases List.mem_cons.mp h with rfl | h
    · exact List.Subset.refl _
    · rw [walkFrom]
      exact List.subset_cons_of_subset _ (walkEntries_subset h)

theorem walkItems_subset : {items : List Node} → {path : List PathStep} → {index : Nat} →
    v ∈ walkItems path index items →
    walkFrom v.keyNode v.path v.node ⊆ walkItems path index items
  | [], _, _, h => nomatch h
  | _ :: _, _, _, h => by
    rw [walkItems] at h ⊢
    rcases List.mem_append.mp h with h | h
    · exact List.subset_append_of_subset_left _ (walkFrom_subset h)
    · exact List.subset_append_of_subset_right _ (walkItems_subset h)

theorem walkEntries_subset : {entries : List (Node × Node)} → {path : List PathStep} →
    v ∈ walkEntries path entries →
    walkFrom v.keyNode v.path v.node ⊆ walkEntries path entries
  | [], _, h => nomatch h
  | (_, _) :: _, _, h => by
    rw [walkEntries] at h ⊢
    rcases List.mem_append.mp h with h | h
    · refine List.subset_append_of_subset_left _ ?_
      rcases List.mem_append.mp h with h | h
      · exact List.subset_append_of_subset_left _ (walkFrom_subset h)
      · exact List.subset_append_of_subset_right _ (walkFrom_subset h)
    · exact List.subset_append_of_subset_right _ (walkEntries_subset h)

end

end Node

theorem Element.mem_walk {text : String} (h : .node v ∈ ofDocument text) :
    ∃ root, textRoot? text = some root ∧ v ∈ root.walk := by
  have hv : v ∈ visits text := by
    rw [← ofDocument_nodes]
    exact List.mem_filterMap.mpr ⟨_, h, rfl⟩
  unfold visits at hv
  cases hroot : textRoot? text with
  | none =>
    rw [hroot] at hv
    cases hv
  | some root =>
    rw [hroot] at hv
    exact ⟨root, rfl, hv⟩

/-! What the two rules report. -/

/-- Whether a node is the type on whose line a problem proposes another name. -/
structure NodeVisit.IsRenamed (v : NodeVisit) (p : Problem) (old new : String) : Prop where
  key : v.key? = some "type"
  text : v.node.text? = some old
  line : v.node.line = p.line
  renamed : Vocabulary.Renamed old new

/-- The problems propose other names for types among these nodes only. -/
def RenamesTypes (vs : List NodeVisit) (ps : List Problem) : Prop :=
  ∀ p ∈ ps, ∀ old new, p.repair = some (.replace old new) →
    Vocabulary.Proposes old new ∧ ∃ v ∈ vs, v.IsRenamed p old new

namespace RenamesTypes

variable {vs ws : List NodeVisit} {ps qs : List Problem}

theorem of_inPlace (h : InPlace ps) : RenamesTypes vs ps := by
  intro p hp old new hrepair
  rw [h p hp] at hrepair
  cases hrepair

theorem append (hp : RenamesTypes vs ps) (hq : RenamesTypes vs qs) :
    RenamesTypes vs (ps ++ qs) := by
  intro p h
  rcases List.mem_append.mp h with h | h
  · exact hp p h
  · exact hq p h

theorem mono (h : RenamesTypes vs ps) (hsub : vs ⊆ ws) : RenamesTypes ws ps := by
  intro p hp old new hrepair
  obtain ⟨hproposes, v, hv, hrenamed⟩ := h p hp old new hrepair
  exact ⟨hproposes, v, hsub hv, hrenamed⟩

end RenamesTypes

namespace Rules

variable {keyNode : Option Node} {path : List PathStep}

theorem checkTypeUse_renames (c : Context) {body kind : Node} {name : String}
    (hkind : body.get? "type" = some kind) (hname : kind.text? = some name) :
    RenamesTypes (Node.walkFrom keyNode path body) (checkTypeUse c name kind.line) := by
  unfold checkTypeUse
  split
  · split
    · exact .of_inPlace .nil
    · intro p hp old new hrepair
      rw [List.mem_singleton.mp hp] at hrepair ⊢
      unfold checkOlderType at hrepair ⊢
      dsimp only at hrepair ⊢
      split at hrepair
      next new' hnew =>
        cases hrepair
        obtain ⟨k, hentry, hk⟩ := Node.mem_entries_of_get? hkind
        have hproposes : Vocabulary.Proposes name new := .inl hnew
        exact ⟨hproposes, _, Node.walkFrom_entry hentry Node.mem_walkFrom_self, hk, hname, rfl,
          hproposes.renamed⟩
      · cases hrepair
  · exact .of_inPlace (.ite .nil (.singleton rfl))

theorem checkTemplateType_renames (name : String) (body : Node) (s : Session) :
    RenamesTypes (Node.walkFrom keyNode path body) (checkTemplateType name body s).1 := by
  unfold checkTemplateType
  split
  · exact .of_inPlace (.singleton rfl)
  next kind hkind =>
    split
    · exact .of_inPlace .nil
    next typeName hname => exact checkTypeUse_renames _ hkind hname

theorem ofPart_inPlace {f : Node → List Problem} (h : ∀ n, InPlace (f n)) (body : Node)
    (name : String) : InPlace (ofPart body name f) := by
  unfold ofPart
  cases body.get? name with
  | none => exact .nil
  | some n => exact h n

theorem checkCalledTemplates_inPlace (c : Context) (line : Nat) (template : Generic) :
    InPlace (checkCalledTemplates c line template) :=
  .flatMap (fun _ => .map (fun _ => rfl) _) _

theorem checkPropertySection_inPlace (c : Context) (name : String) (line : Nat)
    (properties : Generic) : InPlace (checkPropertySection c name line properties) := by
  unfold checkPropertySection checkExternal
  refine .append ?_ (.map (fun _ => rfl) _)
  split
  · exact .ite (.singleton rfl) .nil
  · exact .nil

theorem checkInterfaceSection_inPlace (c : Context) (line : Nat) (interfaces : Node) :
    InPlace (checkInterfaceSection c line interfaces) := by
  unfold checkInterfaceSection checkOperations checkInterfaceName
  refine .flatMap (fun entry => .append ?_ (.ite .nil ?_)) _
  · exact .flatMap (fun _ => .map (fun _ => rfl) _) _
  · cases h : entry.1.text?.bind fun text =>
      (Vocabulary.newInterface? text).map fun new =>
        templateProblem line
          ("deprecated interfaces. Replace usage of " ++ text ++ " with " ++ new ++ ".") with
    | none => exact .nil
    | some p =>
      obtain ⟨text, _, hmap⟩ := Option.bind_eq_some_iff.mp h
      obtain ⟨new, _, rfl⟩ := Option.map_eq_some_iff.mp hmap
      exact .singleton rfl

theorem checkTemplateBody_renames (name : String) (body : Node) (s : Session) :
    RenamesTypes (Node.walkFrom keyNode path body) (checkTemplateBody name body s).1 := by
  unfold checkTemplateBody
  split
  · exact .of_inPlace .nil
  · refine .append (.append (.append (.append (.append ?_ ?_) ?_) ?_) ?_) ?_
    · exact .of_inPlace (.map (fun _ => rfl) _)
    · exact checkTemplateType_renames name body s
    · exact .of_inPlace (checkCalledTemplates_inPlace _ _ _)
    · exact .of_inPlace (ofPart_inPlace (fun _ => checkPropertySection_inPlace _ _ _ _) _ _)
    · exact .of_inPlace (ofPart_inPlace (checkInterfaceSection_inPlace _ _) _ _)
    · exact .of_inPlace
        (ofPart_inPlace (fun _ => .flatMap (fun _ => .map (fun _ => rfl) _) _) _ _)

theorem checkTemplateList_renames {vs : List NodeVisit} {s : Session}
    {templates : List (String × Node × Node)}
    (h : ∀ t ∈ templates, ∃ keyNode path, Node.walkFrom keyNode path t.2.2 ⊆ vs) :
    RenamesTypes vs (checkTemplateList s templates).1 := by
  induction templates generalizing s with
  | nil => exact .of_inPlace .nil
  | cons t r ih =>
    obtain ⟨keyNode, path, hsub⟩ := h t List.mem_cons_self
    exact ((checkTemplateBody_renames t.1 t.2.2 s).mono hsub).append
      (ih fun u hu => h u (List.mem_cons_of_mem t hu))

theorem checkTemplates_renames (c : RuleSettings) (v : NodeVisit) (s : Session) :
    RenamesTypes (Node.walkFrom v.keyNode v.path v.node) (checkTemplates c v s).1 := by
  unfold checkTemplates
  split
  · refine .append (checkTemplateList_renames fun t ht => ?_) (.of_inPlace (.map (fun _ => rfl) _))
    obtain ⟨⟨k, body⟩, hentry, hname⟩ := List.mem_filterMap.mp ht
    obtain ⟨name, _, rfl⟩ := Option.map_eq_some_iff.mp hname
    exact ⟨_, _, Node.walkFrom_entry hentry⟩
  · exact .of_inPlace .nil

theorem checkRelationshipItem_renames (c : Context) (item : Node) :
    RenamesTypes (Node.walkFrom keyNode path item) (checkRelationshipItem c item) := by
  unfold checkRelationshipItem
  split
  · exact .of_inPlace (.singleton rfl)
  · refine .append ?_ (.of_inPlace ?_)
    · split
      next kind hkind =>
        intro p hp old new hrepair
        unfold checkRelationshipType at hp
        obtain ⟨name, hname, hp⟩ := Option.bind_eq_some_iff.mp (Option.mem_toList.mp hp)
        split at hp
        · obtain ⟨new', hnew, rfl⟩ := Option.map_eq_some_iff.mp hp
          cases hrepair
          obtain ⟨k, hentry, hk⟩ := Node.mem_entries_of_get? hkind
          have hproposes : Vocabulary.Proposes old new := .inr hnew
          exact ⟨hproposes, _, Node.walkFrom_entry hentry Node.mem_walkFrom_self, hk, hname, rfl,
            hproposes.renamed⟩
        · cases hp
      · exact .of_inPlace (.singleton rfl)
    · split
      · exact .ite .nil (.singleton rfl)
      · exact .singleton rfl

theorem checkRelationshipList_renames (c : Context) (n : Node) :
    RenamesTypes (Node.walkFrom keyNode path n) (checkRelationshipList c n) := by
  unfold checkRelationshipList
  split
  next items hitems =>
    intro p hp
    obtain ⟨item, hitem, hp⟩ := List.mem_flatMap.mp hp
    have hmem : item ∈ n.items := by
      unfold Node.items
      rw [hitems]
      exact hitem
    obtain ⟨k, step, hsub⟩ := Node.walkFrom_item hmem
    exact (checkRelationshipItem_renames c item).mono hsub p hp
  · exact .of_inPlace (.singleton rfl)

theorem checkLifecycleEntries_inPlace (line : Nat) (lifecycle : Node) :
    InPlace (checkLifecycleEntries line lifecycle) := by
  have hoperation (operation : String) (definition : Node) :
      InPlace (checkOperation line operation definition) := by
    unfold checkOperation
    exact .ite .nil (.ite (.singleton rfl) (.ite (.singleton rfl) .nil))
  unfold checkLifecycleEntries checkOperationNames
  refine .append (.ite .nil (.singleton rfl)) (.flatMap (fun operation => ?_) _)
  cases lifecycle.get? operation with
  | none => exact .nil
  | some definition => exact hoperation operation definition

theorem checkDeclaration_inPlace (key definition : Node) :
    InPlace (checkDeclaration key definition) := by
  unfold checkDeclaration checkRelationshipName
  refine .append ?_ (.flatMap (fun side => ?_) _)
  · split
    · exact .ite .nil (.singleton rfl)
    · exact .nil
  · cases (definition.get? side).bind (·.get? lifecycleInterface) with
    | none => exact .nil
    | some lifecycle => exact checkLifecycleEntries_inPlace _ _

theorem checkRelationships_renames (s : Session) (v : NodeVisit) :
    RenamesTypes (Node.walkFrom v.keyNode v.path v.node) (checkRelationships s v) := by
  unfold checkRelationships
  split
  · exact .of_inPlace .nil
  · split
    · exact checkRelationshipList_renames _ _
    · exact .of_inPlace (.ite (.flatMap (fun _ => checkDeclaration_inPlace _ _) _) .nil)

end Rules

/-- The rules that propose other names for types. -/
def renamingRules : List String :=
  ["node_templates", "relationships"]

theorem Registry.renaming_rules {r : Rule} (hr : r ∈ builtin.rules) (hname : r.name ∈ renamingRules) :
    r = Rules.nodeTemplates ∨ r = Rules.relationships := by
  have hrules : builtin.rules.filter (fun r => renamingRules.contains r.name) =
      [Rules.nodeTemplates, Rules.relationships] := rfl
  have hmem : r ∈ [Rules.nodeTemplates, Rules.relationships] :=
    hrules ▸ List.mem_filter.mpr ⟨hr, List.contains_iff_mem.mpr hname⟩
  simpa using hmem

/-- A problem that proposes another name has it from the vocabulary, and stands on the line of a
type with the older one. -/
theorem Linter.run_proposes {l : Linter} {fs : Files} {text : String} {file : Option String}
    {p : Problem} {old new : String} (hl : l.registry = Registry.builtin)
    (hp : p ∈ (l.run fs text file).problems) (hrule : p.rule ∈ renamingRules)
    (hrepair : p.repair = some (.replace old new)) :
    Vocabulary.Proposes old new ∧
      ∃ root, textRoot? text = some root ∧ ∃ v ∈ root.walk, v.IsRenamed p old new := by
  rcases mem_problems hp with hreport | hfault
  · obtain ⟨a, ha, q, s, rfl, hq⟩ := Call.mem_schedule hreport
    have hbuiltin : a.rule ∈ Registry.builtin.rules := hl ▸ mem_registry_of_mem_rulesFor ha
    have hkind := Registry.renaming_rules hbuiltin hrule
    rcases hq with hq | ⟨e, he, hq⟩
    · rcases hkind with hrule | hrule
      · rw [hrule] at hq
        cases hq
      · rw [hrule] at hq
        cases hq
    · have hnode : ∃ v, e = .node v ∧ RenamesTypes (Node.walkFrom v.keyNode v.path v.node) [q] := by
        cases e with
        | node v =>
          refine ⟨v, rfl, ?_⟩
          intro p hp
          rw [List.mem_singleton.mp hp]
          rcases hkind with hrule | hrule
          · rw [hrule] at hq
            exact Rules.checkTemplates_renames a.conf v _ q hq
          · rw [hrule] at hq
            exact Rules.checkRelationships_renames _ v q hq
        | _ =>
          rcases hkind with hrule | hrule
          · rw [hrule] at hq
            cases hq
          · rw [hrule] at hq
            cases hq
      obtain ⟨v, rfl, hrenames⟩ := hnode
      obtain ⟨root, hroot, hv⟩ := Element.mem_walk he
      obtain ⟨hproposes, u, hu, hrenamed⟩ := hrenames q List.mem_cons_self old new hrepair
      have hvisited : u ∈ root.walk := by
        rw [root.walk_eq] at hv ⊢
        exact Node.walkFrom_subset hv hu
      exact ⟨hproposes, root, hroot, u, hvisited,
        ⟨hrenamed.key, hrenamed.text, hrenamed.line, hrenamed.renamed⟩⟩
  · rw [(textFault?_isFault hfault).repair] at hrepair
    cases hrepair

theorem Linter.run_renames {l : Linter} {fs : Files} {text : String} {file : Option String}
    {p : Problem} {old new : String} (hl : l.registry = Registry.builtin)
    (hp : p ∈ (l.run fs text file).problems) (hrule : p.rule ∈ renamingRules)
    (hrepair : p.repair = some (.replace old new)) :
    ∃ root, textRoot? text = some root ∧ ∃ v ∈ root.walk, v.IsRenamed p old new :=
  (run_proposes hl hp hrule hrepair).2

end Blueprint
