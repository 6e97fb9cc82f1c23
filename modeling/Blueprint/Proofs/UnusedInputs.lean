import Blueprint.Proofs.ContextTables
import Blueprint.Proofs.RuleAlone
import Blueprint.Proofs.StreamOrder

/-!
The inputs that are reported as unused: those that the document declares and that no node of its tree
reads, wherever the node stands.
-/

namespace Blueprint

namespace Node

/-- Whether a document has a definition for an input among its top-level inputs. -/
def DeclaresInput (root : Node) (name : String) : Prop :=
  ∃ inputs key body, root.get? "inputs" = some inputs ∧ (key, body) ∈ inputs.entries ∧
    key.text? = some name ∧ body.entries ≠ []

/-- Whether a value names an input: itself, or as its first item. -/
def Names (value : Node) (name : String) : Prop :=
  value.text? = some name ∨
    ∃ item rest, value.items? = some (item :: rest) ∧ item.text? = some name

/-- Whether some node of a document reads an input. -/
def ReadsInput (root : Node) (name : String) : Prop :=
  ∃ v ∈ root.walk, v.key? = some "get_input" ∧ v.node.Names name

end Node

theorem Rules.referenceName?_eq_some {n : Node} {name : String} :
    referenceName? n = some name ↔ n.Names name := by
  unfold referenceName? Node.Names
  cases n with
  | sequence start stop flow items =>
    cases items with
    | nil => simp [Node.items?, Node.text?]
    | cons item rest => simp [Node.items?, Node.text?]
  | _ => simp [Node.items?, Node.text?]

instance (root : Node) (name : String) : Decidable (root.ReadsInput name) :=
  decidable_of_iff
    (∃ v ∈ root.walk, v.key? = some "get_input" ∧ Rules.referenceName? v.node = some name) <| by
    simp only [Rules.referenceName?_eq_some, Node.ReadsInput]

theorem Table.contains_erase {α : Type} (t : Table α) (key name : String) :
    (t.erase key).contains name = (t.contains name && key != name) := by
  unfold erase contains
  rw [Bool.eq_iff_iff, Bool.and_eq_true]
  simp only [List.any_eq_true, List.mem_filter, bne_iff_ne, beq_iff_eq]
  constructor
  · rintro ⟨entry, ⟨hentry, hkey⟩, rfl⟩
    exact ⟨⟨entry, hentry, rfl⟩, Ne.symm hkey⟩
  · rintro ⟨⟨entry, hentry, rfl⟩, hkey⟩
    exact ⟨entry, ⟨hentry, Ne.symm hkey⟩, rfl⟩

namespace Context

theorem contains_insertAll {α : Type} (entries : List (String × α)) (t : Table α) (name : String) :
    (insertAll t entries).contains name = (t.contains name || entries.any (·.1 == name)) := by
  induction entries generalizing t with
  | nil => exact (Bool.or_false _).symm
  | cons entry entries ih =>
    show (insertAll (t.insert entry.1 entry.2) entries).contains name = _
    rw [ih, Table.contains_insert, List.any_cons, Bool.or_comm (entry.1 == name), Bool.or_assoc]

theorem definedInputs_any {root : Node} {name : String} :
    (definedInputs root).any (·.1 == name) = true ↔ root.DeclaresInput name := by
  unfold definedInputs declarations Node.DeclaresInput Node.namedEntries
  cases root.get? "inputs" with
  | none => simp
  | some inputs =>
    simp only [Option.map_some, Option.getD_some, List.any_eq_true, List.mem_filterMap,
      Option.map_eq_some_iff, beq_iff_eq, Option.ite_none_left_eq_some, List.isEmpty_iff,
      Option.some.injEq]
    constructor
    · rintro ⟨_, ⟨_, ⟨⟨key, body⟩, hentry, text, htext, rfl⟩, hbody, rfl⟩, rfl⟩
      exact ⟨inputs, key, body, rfl, hentry, htext, hbody⟩
    · rintro ⟨_, key, body, rfl, hentry, htext, hbody⟩
      exact ⟨_, ⟨_, ⟨(key, body), hentry, name, htext, rfl⟩, hbody, rfl⟩, rfl⟩

end Context

instance (root : Node) (name : String) : Decidable (root.DeclaresInput name) :=
  decidable_of_iff _ Context.definedInputs_any

/-- The imports of a file do not change its inputs. -/
theorem Session.index_inputs (s : Session) (root : Node) :
    (s.index root).context.inputs =
        Context.insertAll s.context.inputs (Context.definedInputs root) ∧
      (s.index root).context.unusedInputs =
        Context.insertAll s.context.unusedInputs (Context.definedInputs root) := by
  have hitem (s : Session) (item : Node) :
      (s.importItem item).context.inputs = s.context.inputs ∧
        (s.importItem item).context.unusedInputs = s.context.unusedInputs := by
    unfold importItem importFile
    dsimp only
    split
    · exact ⟨rfl, rfl⟩
    · split
      · exact ⟨rfl, rfl⟩
      · split
        · exact ⟨rfl, rfl⟩
        · split
          · split
            · exact ⟨rfl, rfl⟩
            · split <;> exact ⟨rfl, rfl⟩
          · exact ⟨rfl, rfl⟩
  have hfold (items : List Node) (s : Session) :
      (items.foldl importItem s).context.inputs = s.context.inputs ∧
        (items.foldl importItem s).context.unusedInputs = s.context.unusedInputs := by
    induction items generalizing s with
    | nil => exact ⟨rfl, rfl⟩
    | cons item items ih =>
      obtain ⟨hinputs, hunused⟩ := ih (s.importItem item)
      exact ⟨hinputs.trans (hitem s item).1, hunused.trans (hitem s item).2⟩
  exact hfold _ _

namespace Registry

theorem inputs_mem : Rules.inputs ∈ builtin.rules := by
  simp [builtin, languageRules]

/-- Only the rule about inputs marks inputs as read. -/
theorem run_unusedInputs {r : Rule} (hr : r ∈ builtin.rules) (hname : r.name ≠ "inputs")
    (c : RuleSettings) (e : Element) (s : Session) :
    (r.run c e s).2.context.unusedInputs = s.context.unusedInputs := by
  by_cases hversion : r.name = "dsl_version"
  · rw [eq_of_name hr version_mem hversion]
    cases e with
    | node v =>
      show (Rules.checkVersion c v s).2.context.unusedInputs = s.context.unusedInputs
      unfold Rules.checkVersion
      split
      · rfl
      · split
        · rfl
        · split <;> rfl
    | _ => rfl
  · have halike := (builtin_confined hr).run_other "inputs" hname.symm
      (fun h => absurd h hversion) c e s
    exact (halike.unusedInputs rfl).symm

end Registry

namespace Call

/-- Whether a call lets the rule about inputs see a node that reads an input. -/
def ReadsInput (name : String) : Call → Prop
  | check a (.node v) =>
    a.rule.name = "inputs" ∧ v.key? = some "get_input" ∧ v.node.Names name
  | _ => False

variable {file : Option String} {name : String}

theorem checkInputNode_unused {s : Session} (hinput : s.context.inputs.contains name = true)
    (c : RuleSettings) (v : NodeVisit) :
    (Rules.checkInputNode c v s).2.context.unusedInputs.contains name = true ↔
      s.context.unusedInputs.contains name = true ∧
        ¬(v.key? = some "get_input" ∧ v.node.Names name) := by
  unfold Rules.checkInputNode
  split
  next hsection =>
    -- The value of the section is the value of another key.
    have hkey : v.key? ≠ some "get_input" := by
      intro hkey
      simp [NodeVisit.isSection, hkey] at hsection
    simp [hkey]
  · split
    next hkey =>
      unfold Rules.checkInputReference
      rw [← Rules.referenceName?_eq_some]
      cases href : Rules.referenceName? v.node with
      | none => simp
      | some read =>
        dsimp only
        by_cases hsame : read = name
        · subst hsame
          rw [if_pos hinput]
          show (s.context.unusedInputs.erase read).contains read = true ↔ _
          simp [Table.contains_erase, hkey]
        · split
          · show (s.context.unusedInputs.erase read).contains name = true ↔ _
            simp [Table.contains_erase, hsame]
          · simp [hsame]
    next hkey => simp [hkey]

theorem make_unusedInputs {c : Call} (hc : c.IsBuiltin) {s : Session}
    (hinput : s.context.inputs.contains name = true) :
    (make file s c).2.context.unusedInputs.contains name = true ↔
      s.context.unusedInputs.contains name = true ∧ ¬c.ReadsInput name := by
  cases c with
  | observe e =>
    have hsame : (make file s (observe e)).2.context.unusedInputs = s.context.unusedInputs := by
      cases e with
      | token t => exact (s.context.update_entries t).2.1
      | _ => rfl
    rw [hsame]
    simp [ReadsInput]
  | finish a =>
    have hsame := (Registry.finish_alike hc "inputs" a.conf s).unusedInputs rfl
    show (a.rule.finish a.conf s).2.context.unusedInputs.contains name = true ↔ _
    rw [← hsame]
    simp [ReadsInput]
  | check a e =>
    show (a.rule.run a.conf e s).2.context.unusedInputs.contains name = true ↔ _
    by_cases hname : a.rule.name = "inputs"
    · rw [Registry.eq_of_name hc Registry.inputs_mem hname]
      cases e with
      | node v =>
        rw [ReadsInput, and_iff_right hname]
        exact checkInputNode_unused hinput a.conf v
      | _ => simp [ReadsInput, Rule.run, Rules.inputs]
    · rw [Registry.run_unusedInputs hc hname]
      cases e <;> simp [ReadsInput, hname]

/-- An input stays unused over calls none of which reads it. -/
theorem makeAll_unusedInputs {cs : List Call} (hcs : ∀ c ∈ cs, c.IsBuiltin) {s : Session}
    (hinput : s.context.inputs.contains name = true) :
    (makeAll file s cs).2.context.unusedInputs.contains name = true ↔
      s.context.unusedInputs.contains name = true ∧ ∀ c ∈ cs, ¬c.ReadsInput name := by
  induction cs generalizing s with
  | nil => simp [makeAll]
  | cons c cs ih =>
    have hc := hcs c List.mem_cons_self
    have hstill := (make_narrows hc file s).inputs
    rw [makeAll_cons]
    dsimp only
    rw [ih (fun d hd => hcs d (List.mem_cons_of_mem c hd)) (hstill ▸ hinput),
      make_unusedInputs hc hinput, List.forall_mem_cons, and_assoc]

end Call

namespace Rules

theorem unusedInput_injective {name other : String}
    (h : "input " ++ name ++ " is unused." = "input " ++ other ++ " is unused.") :
    name = other := by
  have hlists := congrArg String.toList h
  simp only [String.toList_append] at hlists
  exact String.toList_inj.mp (List.append_cancel_left (List.append_cancel_right hlists))

/-- The inputs that are reported at the end, if a section that reads inputs has been entered. -/
theorem mem_finishInputs {c : RuleSettings} {s : Session} {name : String} :
    (∃ p ∈ (finishInputs c s).1, p.message = "input " ++ name ++ " is unused.") ↔
      s.context.readsInputs = true ∧ s.context.unusedInputs.contains name = true := by
  unfold finishInputs Table.contains
  dsimp only
  split
  next hreads =>
    simp only [List.mem_map, List.any_eq_true, beq_iff_eq, hreads, true_and]
    constructor
    · rintro ⟨_, ⟨entry, hentry, rfl⟩, hmessage⟩
      exact ⟨entry, hentry, unusedInput_injective hmessage⟩
    · rintro ⟨entry, hentry, rfl⟩
      exact ⟨_, ⟨entry, hentry, rfl⟩, rfl⟩
  next hreads => simp [hreads]

end Rules

/-- The last calls of the rule about inputs report what it finds in the session before them. -/
theorem Call.mem_makeAll_finishInputs (file : Option String) {s : Session}
    {active : List ActiveRule} (hactive : ∀ a ∈ active, a.rule = Rules.inputs) {p : Problem} :
    p ∈ (makeAll file s (active.map finish)).1 ↔
      ∃ a ∈ active, ∃ q ∈ (Rules.finishInputs a.conf s).1, p = a.sign file q := by
  induction active with
  | nil => simp [makeAll]
  | cons a active ih =>
    have hfinish : make file s (finish a) =
        ((Rules.finishInputs a.conf s).1.map (a.sign file), s) := by
      show ((a.rule.finish a.conf s).1.map (a.sign file), (a.rule.finish a.conf s).2) = _
      rw [hactive a List.mem_cons_self]
      rfl
    rw [List.map_cons, makeAll_cons, hfinish, List.mem_append,
      ih fun b hb => hactive b (List.mem_cons_of_mem a hb), List.exists_mem_cons_iff, List.mem_map]
    simp only [eq_comm]

namespace Linter

variable {l : Linter} (hl : ∀ r ∈ l.registry.rules, r ∈ Registry.builtin.rules) (fs : Files)
  (text : String) (file : Option String)

/-- Before the first element every input that the document declares is unused. -/
theorem startRun_inputs (l : Linter) (name : String) :
    (l.startRun fs text file).session.context.unusedInputs =
        (l.startRun fs text file).session.context.inputs ∧
      ((l.startRun fs text file).session.context.inputs.contains name = true ↔
        ∃ root, textRoot? text = some root ∧ root.DeclaresInput name) := by
  unfold startRun
  dsimp only
  cases textRoot? text with
  | none => exact ⟨rfl, by simp [Table.contains, Table.empty]⟩
  | some root =>
    let session : Session := { file, quiet := l.quiet, files := fs }
    obtain ⟨hinputs, hunused⟩ := Session.index_inputs session root
    show (session.index root).context.unusedInputs = (session.index root).context.inputs ∧
      ((session.index root).context.inputs.contains name = true ↔ _)
    rw [hinputs, hunused, Context.contains_insertAll]
    refine ⟨rfl, ?_⟩
    have hnone : session.context.inputs.contains name = false := rfl
    rw [hnone, Bool.false_or, Context.definedInputs_any]
    simp

/-- Which input a check reads does not depend on where its node stands among the elements. -/
theorem exists_readsInput {a : ActiveRule} (ha : a ∈ l.rulesFor file) (hrule : a.rule = Rules.inputs)
    (name : String) :
    (∃ c ∈ (Element.ofDocument text).flatMap (Call.ofElement (l.rulesFor file)),
        c.ReadsInput name) ↔
      ∃ root, textRoot? text = some root ∧ root.ReadsInput name := by
  have hvisits (v : NodeVisit) : Element.node v ∈ Element.ofDocument text ↔
      ∃ root, textRoot? text = some root ∧ v ∈ root.walk := by
    have hmem : v ∈ Element.visits text ↔ Element.node v ∈ Element.ofDocument text := by
      rw [← Element.ofDocument_nodes, List.mem_filterMap]
      constructor
      · rintro ⟨e, he, hnode⟩
        cases e with
        | node w => exact Option.some.inj hnode ▸ he
        | _ => cases hnode
      · intro hv
        exact ⟨_, hv, rfl⟩
    rw [← hmem]
    unfold Element.visits
    cases textRoot? text with
    | none => simp
    | some root => simp
  constructor
  · rintro ⟨c, hc, hreads⟩
    obtain ⟨e, he, hc⟩ := List.mem_flatMap.mp hc
    rcases List.mem_cons.mp hc with rfl | hc
    · exact absurd hreads id
    · obtain ⟨b, _, rfl⟩ := List.mem_map.mp hc
      cases e with
      | node v =>
        obtain ⟨root, hroot, hv⟩ := (hvisits v).mp he
        exact ⟨root, hroot, v, hv, hreads.2⟩
      | _ => exact absurd hreads id
  · rintro ⟨root, hroot, v, hv, hreads⟩
    have he : Element.node v ∈ Element.ofDocument text := (hvisits v).mpr ⟨root, hroot, hv⟩
    refine ⟨.check a (.node v), List.mem_flatMap.mpr ⟨_, he, ?_⟩, ?_⟩
    · have hkind : (a.rule.kind == (Element.node v).kind) = true := by
        rw [hrule]
        rfl
      exact List.mem_cons_of_mem _ (List.mem_map.mpr ⟨a, List.mem_filter.mpr ⟨ha, hkind⟩, rfl⟩)
    · exact ⟨by rw [hrule]; rfl, hreads⟩

include hl in
/-- After the last element, the inputs that no node has read are unused. -/
theorem scanned_unusedInputs {a : ActiveRule} (ha : a ∈ l.rulesFor file)
    (hrule : a.rule = Rules.inputs) (name : String) :
    (l.scanned fs text file).1.session.context.unusedInputs.contains name = true ↔
      ∃ root, textRoot? text = some root ∧ root.DeclaresInput name ∧ ¬root.ReadsInput name := by
  have hcalls : ∀ c ∈ (Element.ofDocument text).flatMap (Call.ofElement (l.rulesFor file)),
      c.IsBuiltin := by
    intro c hc
    obtain ⟨e, _, hc⟩ := List.mem_flatMap.mp hc
    exact Call.isBuiltin_of_mem_ofElement (fun b hb => hl _ (mem_registry_of_mem_rulesFor hb)) hc
  obtain ⟨hsame, hdeclared⟩ := startRun_inputs fs text file l name
  rw [(scanned_state fs file l text).2]
  by_cases hinput : (l.startRun fs text file).session.context.inputs.contains name = true
  · have hreads := not_congr (exists_readsInput (l := l) text file ha hrule name)
    push Not at hreads
    obtain ⟨root, hroot, hdeclares⟩ := hdeclared.mp hinput
    rw [Call.makeAll_unusedInputs hcalls hinput, hsame, and_iff_right hinput, hreads]
    constructor
    · intro h
      exact ⟨root, hroot, hdeclares, h root hroot⟩
    · rintro ⟨other, hother, _, hnone⟩ node hnode
      rw [hother] at hnode
      exact Option.some.inj hnode ▸ hnone
  · have hsub := (Call.makeAll_narrows hcalls file (l.startRun fs text file).session).unusedInputs
    constructor
    · intro h
      refine absurd ?_ hinput
      rw [← hsame]
      obtain ⟨entry, hentry, hkey⟩ := List.any_eq_true.mp h
      exact List.any_eq_true.mpr ⟨entry, hsub.subset hentry, hkey⟩
    · rintro ⟨root, hroot, hdeclares, _⟩
      exact absurd (hdeclared.mpr ⟨root, hroot, hdeclares⟩) hinput

/-- When the rule about inputs is on, it reports at the end of a run the inputs that the document
declares and that none of its nodes reads, provided that a section that reads inputs has been
entered. Where the nodes stand, before the declaration or after it, does not matter. -/
theorem finish_reports_unused (l : Linter) (hl : ∀ r ∈ l.registry.rules, r ∈ Registry.builtin.rules)
    (fs : Files) (text : String) (file : Option String) {a : ActiveRule}
    (ha : a ∈ l.rulesFor file) (hrule : a.rule = Rules.inputs) (name : String) :
    (∃ p ∈ (Call.makeAll file (l.scanned fs text file).1.session
          ((l.rulesFor file).map .finish)).1,
        p.rule = "inputs" ∧ p.message = "input " ++ name ++ " is unused.") ↔
      (l.scanned fs text file).1.session.context.readsInputs = true ∧
        ∃ root, textRoot? text = some root ∧ root.DeclaresInput name ∧ ¬root.ReadsInput name := by
  have hsuits : ∀ c ∈ (l.rulesFor file).map Call.finish,
      c.Suits "inputs" (l.scanned fs text file).1.session.context.version file := by
    intro c hc
    obtain ⟨b, hb, rfl⟩ := List.mem_map.mp hc
    exact Call.suits_finish (hl _ (mem_registry_of_mem_rulesFor hb)) (by decide)
  have hown := (Call.makeAll_concerning hsuits (.refl "inputs" _) fun _ => rfl).1
  rw [List.filter_map] at hown
  have hinputs : ∀ b ∈ (l.rulesFor file).filter (Call.concerns "inputs" ∘ Call.finish),
      b.rule = Rules.inputs := by
    intro b hb
    obtain ⟨hb, hname⟩ := List.mem_filter.mp hb
    exact Registry.eq_of_name (hl _ (mem_registry_of_mem_rulesFor hb)) Registry.inputs_mem
      (eq_of_beq hname)
  rw [← scanned_unusedInputs hl fs text file ha hrule name, ← Rules.mem_finishInputs (c := a.conf)]
  constructor
  · rintro ⟨p, hp, hname, hmessage⟩
    have hp : p ∈ List.filter (·.rule == "inputs") _ :=
      List.mem_filter.mpr ⟨hp, beq_iff_eq.mpr hname⟩
    rw [hown] at hp
    obtain ⟨b, _, q, hq, rfl⟩ := (Call.mem_makeAll_finishInputs file hinputs).mp hp
    exact ⟨q, hq, hmessage⟩
  · rintro ⟨q, hq, hmessage⟩
    have ha : a ∈ (l.rulesFor file).filter (Call.concerns "inputs" ∘ Call.finish) := by
      refine List.mem_filter.mpr ⟨ha, ?_⟩
      show (a.rule.name == "inputs") = true
      rw [hrule]
      rfl
    have hp := (Call.mem_makeAll_finishInputs file hinputs).mpr ⟨a, ha, q, hq, rfl⟩
    rw [← hown] at hp
    obtain ⟨hp, hname⟩ := List.mem_filter.mp hp
    exact ⟨_, hp, eq_of_beq hname, hmessage⟩

/-- An input that is read before its declaration, one that is read after it, and one that nothing
reads. -/
theorem finish_reports_unused_of_reading :
    let l := ofNames ["inputs"]
    let text := "outputs:\n  o:\n    value: \x7bget_input: [a, b]\x7d\ninputs:\n" ++
      "  a:\n    type: string\n  b:\n    type: string\n"
    let active : ActiveRule := ⟨Rules.inputs, Rules.inputs.defaults⟩
    (∀ r ∈ l.registry.rules, r ∈ Registry.builtin.rules) ∧ active ∈ l.rulesFor none ∧
      active.rule = Rules.inputs ∧
      (∃ p ∈ (Call.makeAll none (l.scanned .empty text none).1.session
            ((l.rulesFor none).map .finish)).1,
          p.rule = "inputs" ∧ p.message = "input b is unused.") ∧
      ¬∃ p ∈ (Call.makeAll none (l.scanned .empty text none).1.session
            ((l.rulesFor none).map .finish)).1,
          p.rule = "inputs" ∧ p.message = "input a is unused." := by
  intro l text active
  have hactive : active ∈ l.rulesFor none := by
    have hrules : l.rulesFor none = [active] := rfl
    rw [hrules]
    exact List.mem_singleton_self _
  have hread : (l.scanned .empty text none).1.session.context.readsInputs = true := by
    decide +kernel
  have hb : (textRoot? text).any (fun root =>
      decide (root.DeclaresInput "b" ∧ ¬root.ReadsInput "b")) = true := by decide +kernel
  have ha : (textRoot? text).all (fun root => decide (root.ReadsInput "a")) = true := by
    decide +kernel
  refine ⟨fun _ h => h, hactive, rfl, ?_, ?_⟩
  · obtain ⟨root, hroot, hunused⟩ := (Option.any_eq_true _ _).mp hb
    exact (finish_reports_unused l (fun _ h => h) .empty text none hactive rfl "b").mpr
      ⟨hread, root, hroot, of_decide_eq_true hunused⟩
  · intro h
    obtain ⟨_, root, hroot, _, hnone⟩ :=
      (finish_reports_unused l (fun _ h => h) .empty text none hactive rfl "a").mp h
    rw [hroot] at ha
    exact hnone (of_decide_eq_true ha)

end Linter

end Blueprint
