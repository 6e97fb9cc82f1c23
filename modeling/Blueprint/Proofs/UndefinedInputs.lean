import Blueprint.Proofs.SuggestedTypes
import Blueprint.Proofs.UnusedInputs

/-!
The inputs that are reported as undefined: each node that reads an input is reported on its line,
once, unless the document has a definition for the input, wherever this definition stands.
-/

namespace Blueprint

/-- Whether a node reads an input, and stands on this line. -/
def NodeVisit.ReadsOn (v : NodeVisit) (name : String) (line : Nat) : Prop :=
  v.key? = some "get_input" ∧ v.node.Names name ∧ v.node.line = line

instance (v : NodeVisit) (name : String) (line : Nat) : Decidable (v.ReadsOn name line) :=
  decidable_of_iff (v.key? = some "get_input" ∧ Rules.referenceName? v.node = some name ∧
    v.node.line = line) <| by
    rw [Rules.referenceName?_eq_some, NodeVisit.ReadsOn]

namespace Rules

/-- What is said of an input that is read but not defined. -/
def undefinedMessage (name : String) : String :=
  "undefined input \"" ++ name ++ "\""

/-- Whether a problem says that an input which is read on this line is not defined. -/
def saysUndefined (name : String) (line : Nat) (p : Problem) : Bool :=
  p.rule == "inputs" && (p.line == line && p.message == undefinedMessage name)

variable {name : String} {line : Nat}

theorem undefinedMessage_injective {other : String}
    (h : undefinedMessage name = undefinedMessage other) : name = other := by
  unfold undefinedMessage at h
  simpa using h

theorem place_of_saysUndefined {p : Problem} (h : saysUndefined name line p = true) :
    p.rule = "inputs" ∧ p.line = line := by
  obtain ⟨hrule, h⟩ := Bool.and_eq_true_iff.mp h
  exact ⟨eq_of_beq hrule, eq_of_beq (Bool.and_eq_true_iff.mp h).1⟩

/-- A message with another first letter does not say that an input is undefined. -/
theorem not_saysUndefined {p : Problem} {c : Char} (h : p.message.toList.head? = some c)
    (hne : c ≠ 'u') : saysUndefined name line p = false := by
  refine Bool.eq_false_iff.mpr fun hspoken => ?_
  have hmessage := eq_of_beq (Bool.and_eq_true_iff.mp (Bool.and_eq_true_iff.mp hspoken).2).2
  have hstart : (undefinedMessage name).toList.head? = some 'u' :=
    head?_append (head?_append rfl _) _
  rw [hmessage, hstart] at h
  exact hne (Option.some.inj h).symm

theorem checkTypedInput_start (s : Session) (input inputType : String) (n : Nat) (body : Node) :
    ∀ p ∈ checkTypedInput s input inputType n body,
      ∃ c, p.message.toList.head? = some c ∧ c ≠ 'u' := by
  intro p hp
  rcases message_of_mem_checkTypedInput hp with ⟨c, hcapital, hstart⟩ | ⟨w, _, _, hmessage⟩
  · refine ⟨c, hstart, ?_⟩
    rintro rfl
    exact absurd hcapital (by decide)
  · rw [hmessage]
    exact ⟨'i', head?_misfitMessage input inputType w, by decide⟩

theorem checkDefinedInput_start (s : Session) (input : String) (n : Nat) (body : Node) :
    ∀ p ∈ checkDefinedInput s input n body, ∃ c, p.message.toList.head? = some c ∧ c ≠ 'u' := by
  unfold checkDefinedInput
  intro p hp
  split at hp
  · cases hp
  · rcases List.mem_append.mp hp with hp | hp
    · unfold checkInputKeys at hp
      dsimp only at hp
      split at hp
      · cases hp
      · exact forall_mem_onLine (head?_append rfl _) (by decide) p hp
    · split at hp
      · refine forall_mem_onLine (c := 'i') ?_ (by decide) p hp
        iterate 3 refine head?_append ?_ _
        rfl
      · split at hp
        · exact forall_mem_onLine (head?_append (head?_append rfl _) _) (by decide)
            p hp
        · exact checkTypedInput_start s input _ n body p hp

theorem checkInputSection_start (s : Session) (n : Node) :
    ∀ p ∈ checkInputSection s n, ∃ c, p.message.toList.head? = some c ∧ c ≠ 'u' := by
  unfold checkInputSection
  intro p hp
  split at hp
  · obtain ⟨item, _, rfl⟩ := List.mem_map.mp hp
    exact forall_mem_onLine rfl (by decide) _ (List.mem_singleton_self _)
  · obtain ⟨⟨input, key, body⟩, _, hp⟩ := List.mem_flatMap.mp hp
    exact checkDefinedInput_start s input key.line body p hp

/-- The check of a node says once that an input is undefined, if the node reads an input that is not
among those of the document. -/
theorem checkInputNode_undefined (a : ActiveRule) (ha : a.rule.name = "inputs")
    (file : Option String) (c : RuleSettings) (v : NodeVisit) (s : Session) (name : String)
    (line : Nat) :
    ((checkInputNode c v s).1.map (a.sign file)).countP (saysUndefined name line) =
      if v.ReadsOn name line ∧ s.context.inputs.contains name = false then 1 else 0 := by
  unfold checkInputNode
  split
  next hsection =>
    -- The value of the section is the value of another key.
    have hkey : ¬v.ReadsOn name line := by
      intro hreads
      simp [NodeVisit.isSection, hreads.1] at hsection
    rw [if_neg fun h => hkey h.1, List.countP_eq_zero]
    intro p hp
    obtain ⟨q, hq, rfl⟩ := List.mem_map.mp hp
    obtain ⟨c, hstart, hne⟩ := checkInputSection_start s v.node q hq
    rw [Bool.not_eq_true]
    exact not_saysUndefined hstart hne
  · split
    next hkey =>
      unfold checkInputReference
      cases href : referenceName? v.node with
      | none =>
        have hreads : ¬v.ReadsOn name line := by
          intro hreads
          rw [referenceName?_eq_some.mpr hreads.2.1] at href
          cases href
        rw [if_neg fun h => hreads h.1]
        rfl
      | some read =>
        have hreads : v.ReadsOn name line ↔ read = name ∧ v.node.line = line := by
          rw [NodeVisit.ReadsOn, and_iff_right hkey, ← referenceName?_eq_some, href,
            Option.some.injEq]
        dsimp only
        split
        next hknown =>
          rw [if_neg]
          · rfl
          · rintro ⟨h, hunknown⟩
            obtain ⟨rfl, _⟩ := hreads.mp h
            rw [hknown] at hunknown
            cases hunknown
        next hunknown =>
          have hspoken : saysUndefined name line
              (a.sign file (inputProblem v.node.line (undefinedMessage read))) = true ↔
                v.node.line = line ∧ read = name := by
            simp only [saysUndefined, ActiveRule.sign, ha, inputProblem, Problem.onLine,
              BEq.rfl, Bool.true_and, Bool.and_eq_true, beq_iff_eq]
            exact and_congr_right fun _ =>
              ⟨undefinedMessage_injective, congrArg undefinedMessage⟩
          rw [List.map_singleton, List.countP_singleton]
          refine if_congr (hspoken.trans ?_) rfl rfl
          rw [hreads]
          constructor
          · rintro ⟨hline, rfl⟩
            exact ⟨⟨rfl, hline⟩, Bool.eq_false_iff.mpr hunknown⟩
          · rintro ⟨⟨hread, hline⟩, _⟩
            exact ⟨hline, hread⟩
    next hkey =>
      rw [if_neg fun h => hkey h.1.1]
      rfl

end Rules

namespace Call

/-- Whether a call lets the rule about inputs see a node that reads an input on this line. -/
def readsOn (name : String) (line : Nat) : Call → Bool
  | check a (.node v) => a.rule.name == "inputs" && decide (v.ReadsOn name line)
  | _ => false

variable {file : Option String} {name : String} {line : Nat}

/-- Other rules do not speak of undefined inputs. -/
theorem not_saysUndefined_sign {a : ActiveRule} (ha : a.rule.name ≠ "inputs")
    (ps : List Problem) :
    (ps.map (a.sign file)).countP (Rules.saysUndefined name line) = 0 := by
  rw [List.countP_eq_zero]
  intro p hp hspoken
  obtain ⟨q, _, rfl⟩ := List.mem_map.mp hp
  exact ha (eq_of_beq (Bool.and_eq_true_iff.mp hspoken).1)

theorem make_undefined {c : Call} (hc : c.IsBuiltin) (s : Session) :
    (make file s c).1.countP (Rules.saysUndefined name line) =
      if c.readsOn name line = true ∧ s.context.inputs.contains name = false then 1 else 0 := by
  cases c with
  | observe e => exact (if_neg fun h => Bool.false_ne_true h.1).symm
  | finish a =>
    rw [if_neg fun h => Bool.false_ne_true h.1]
    show ((a.rule.finish a.conf s).1.map (a.sign file)).countP _ = 0
    by_cases hname : a.rule.name = "inputs"
    · rw [Registry.eq_of_name hc Registry.inputs_mem hname, List.countP_eq_zero]
      intro p hp
      obtain ⟨q, hq, rfl⟩ := List.mem_map.mp hp
      rw [Bool.not_eq_true]
      change q ∈ (Rules.finishInputs a.conf s).1 at hq
      unfold Rules.finishInputs at hq
      dsimp only at hq
      split at hq
      · obtain ⟨entry, _, rfl⟩ := List.mem_map.mp hq
        have hstart : ("input " ++ entry.1 ++ " is unused.").toList.head? = some 'i' :=
          Rules.head?_append (Rules.head?_append rfl _) _
        exact Rules.not_saysUndefined hstart (by decide)
      · cases hq
    · exact not_saysUndefined_sign hname _
  | check a e =>
    show ((a.rule.run a.conf e s).1.map (a.sign file)).countP _ = _
    by_cases hname : a.rule.name = "inputs"
    · cases e with
      | node v =>
        have hreads : (check a (.node v)).readsOn name line = true ↔ v.ReadsOn name line := by
          simp [readsOn, hname]
        rw [Registry.eq_of_name hc Registry.inputs_mem hname]
        refine (Rules.checkInputNode_undefined a hname file a.conf v s name line).trans ?_
        exact if_congr (and_congr_left fun _ => hreads.symm) rfl rfl
      | _ =>
        rw [Registry.eq_of_name hc Registry.inputs_mem hname]
        exact (if_neg fun h => Bool.false_ne_true h.1).symm
    · have hreads : (check a e).readsOn name line = false := by
        cases e <;> simp [readsOn, hname]
      rw [not_saysUndefined_sign hname, hreads, if_neg fun h => Bool.false_ne_true h.1]

/-- No call changes which inputs the document defines. -/
theorem makeAll_undefined {cs : List Call} (hcs : ∀ c ∈ cs, c.IsBuiltin) (s : Session) :
    (makeAll file s cs).1.countP (Rules.saysUndefined name line) =
      if s.context.inputs.contains name = true then 0 else cs.countP (·.readsOn name line) := by
  induction cs generalizing s with
  | nil => simp [makeAll]
  | cons c cs ih =>
    have hc := hcs c List.mem_cons_self
    have hstill := (make_narrows hc file s).inputs
    rw [makeAll_cons, List.countP_append, make_undefined hc,
      ih (fun d hd => hcs d (List.mem_cons_of_mem c hd)), hstill, List.countP_cons]
    cases s.context.inputs.contains name with
    | true => simp
    | false => simp [Nat.add_comm]

/-- If the rule about inputs is on once, it sees each node once. -/
theorem countP_schedule {active : List ActiveRule} (es : List Element)
    (hactive : ∀ a ∈ active, a.rule ∈ Registry.builtin.rules)
    (hone : active.countP (·.rule.name == "inputs") = 1) :
    (schedule active es).countP (·.readsOn name line) =
      (es.filterMap Element.node?).countP (·.ReadsOn name line) := by
  have hkind : ∀ a ∈ active, (a.rule.name == "inputs" && a.rule.kind == .node) =
      (a.rule.name == "inputs") := by
    intro a ha
    by_cases hname : a.rule.name = "inputs"
    · rw [Registry.eq_of_name (hactive a ha) Registry.inputs_mem hname]
      rfl
    · simp [hname]
  have helement (e : Element) : (ofElement active e).countP (·.readsOn name line) =
      e.node?.toList.countP (·.ReadsOn name line) := by
    unfold ofElement
    rw [List.countP_cons_of_neg (by simp [readsOn]), List.countP_map, List.countP_filter]
    cases e with
    | node v =>
      by_cases hreads : v.ReadsOn name line
      · have hsame : active.countP
            (fun a => a.rule.name == "inputs" && a.rule.kind == (Element.node v).kind) = 1 :=
          (List.countP_congr fun a ha => Bool.eq_iff_iff.mp (hkind a ha)).trans hone
        simpa [readsOn, Element.node?, hreads] using hsame
      · simp [readsOn, Element.node?, hreads]
    | _ => simp [readsOn, Element.node?]
  have hfinish : (active.map finish).countP (·.readsOn name line) = 0 := by
    rw [List.countP_map, List.countP_eq_zero]
    intro a _
    simp [readsOn]
  unfold schedule
  rw [List.countP_append, hfinish, Nat.add_zero]
  induction es with
  | nil => rfl
  | cons e es ih =>
    rw [List.flatMap_cons, List.countP_append, helement, ih, ← List.countP_append]
    cases e <;> rfl

end Call

namespace Linter

variable {l : Linter} {file : Option String}

/-- In a registry with distinct names, no rule is on twice. -/
theorem countP_rulesFor (hnames : (l.registry.rules.map (·.name)).Nodup) {a : ActiveRule}
    (ha : a ∈ l.rulesFor file) :
    (l.rulesFor file).countP (·.rule.name == a.rule.name) = 1 := by
  have hsub := (l.rulesFor_sublist file).map (·.name)
  rw [List.map_map] at hsub
  have hone := List.count_eq_one_of_mem (hsub.nodup hnames) (List.mem_map_of_mem ha)
  rwa [List.count, List.countP_map] at hone

theorem textFault?_of_root {text : String} {root : Node} (h : textRoot? text = some root) :
    textFault? text = none := by
  unfold textRoot? at h
  unfold textFault?
  cases hcompose : Node.compose (Source.ofText text) text.toList with
  | error fault =>
    rw [hcompose] at h
    cases h
  | ok found => rfl

/-- Before directives are followed, each node that reads an undefined input is reported once. -/
theorem reports_undefined (hl : ∀ r ∈ l.registry.rules, r ∈ Registry.builtin.rules)
    (hone : (l.rulesFor file).countP (·.rule.name == "inputs") = 1) (fs : Files) {text : String}
    {root : Node} (hroot : textRoot? text = some root) (name : String) (line : Nat) :
    (l.reports fs text file).countP (Rules.saysUndefined name line) =
      if root.DeclaresInput name then 0 else root.walk.countP (·.ReadsOn name line) := by
  have hactive : ∀ b ∈ l.rulesFor file, b.rule ∈ Registry.builtin.rules := fun b hb =>
    hl _ (mem_registry_of_mem_rulesFor hb)
  have hknown := (startRun_inputs fs text file l name).2
  rw [hroot] at hknown
  unfold reports calls
  rw [Call.makeAll_undefined fun c hc => Call.isBuiltin_of_mem_schedule hactive hc,
    Call.countP_schedule _ hactive hone, Element.ofDocument_nodes]
  unfold Element.visits
  rw [hroot]
  exact if_congr (hknown.trans (by simp)) rfl rfl

/-- A node that reads an input is reported on its line, once, if the document has no definition for
the input and no directive withholds the report; a definition counts wherever it stands. -/
theorem run_reports_undefined (l : Linter) (hl : ∀ r ∈ l.registry.rules, r ∈ Registry.builtin.rules)
    (hnames : (l.registry.rules.map (·.name)).Nodup) (fs : Files) (text : String)
    (file : Option String) (hread : l.run fs text file ≠ .skipped) {a : ActiveRule}
    (ha : a ∈ l.rulesFor file) (hrule : a.rule = Rules.inputs) {root : Node}
    (hroot : textRoot? text = some root) (name : String) (line : Nat) :
    (l.run fs text file).problems.countP (Rules.saysUndefined name line) =
      if root.DeclaresInput name ∨ (l.directivesFor text file).wasOff line "inputs" = true then 0
      else root.walk.countP (·.ReadsOn name line) := by
  have hone := countP_rulesFor hnames ha
  rw [hrule] at hone
  have hreports := reports_undefined hl hone fs hroot name line
  obtain ⟨scanned, atEnd, judged, hrun, hperm, hyield⟩ := l.run_account fs text file hread
  rw [textFault?_of_root hroot, Gate.pass_none] at hyield
  rw [hrun]
  show (scanned ++ atEnd).countP _ = _
  rw [hyield, List.countP_filter]
  -- The directives withhold all of these problems or none, since they have one line and one rule.
  have hplace {p : Problem} (h : Rules.saysUndefined name line p = true) :
      Run.withheldBy (l.directivesFor text file) p =
        (l.directivesFor text file).wasOff line "inputs" := by
    obtain ⟨hrule, hline⟩ := Rules.place_of_saysUndefined h
    unfold Run.withheldBy
    rw [hline, hrule]
  by_cases hoff : (l.directivesFor text file).wasOff line "inputs" = true
  · rw [if_pos (Or.inr hoff), List.countP_eq_zero]
    intro p _ hp
    obtain ⟨hspoken, hkept⟩ := Bool.and_eq_true_iff.mp hp
    rw [hplace hspoken, hoff] at hkept
    cases hkept
  · have hkept : judged.countP (fun p => Rules.saysUndefined name line p &&
        !Run.withheldBy (l.directivesFor text file) p) =
          judged.countP (Rules.saysUndefined name line) := by
      refine List.countP_congr fun p _ => ?_
      rw [Bool.and_eq_true, and_iff_left_iff_imp]
      intro hspoken
      rw [hplace hspoken, Bool.eq_false_iff.mpr hoff]
      rfl
    rw [hkept, hperm.countP_eq, hreports]
    exact if_congr (or_iff_left hoff).symm rfl rfl

/-- An input that is read before its definition, and one that has none. -/
theorem run_reports_undefined_of_reading :
    let l := ofNames ["inputs"]
    let text := "outputs:\n  o:\n    value: [\x7bget_input: [a, k]\x7d, \x7bget_input: b\x7d]\n" ++
      "inputs:\n  a:\n    type: string\n"
    (∀ r ∈ l.registry.rules, r ∈ Registry.builtin.rules) ∧
      (l.registry.rules.map (·.name)).Nodup ∧ l.run .empty text none ≠ .skipped ∧
      ⟨Rules.inputs, Rules.inputs.defaults⟩ ∈ l.rulesFor none ∧
      (l.run .empty text none).problems.countP (Rules.saysUndefined "a" 3) = 0 ∧
      (l.run .empty text none).problems.countP (Rules.saysUndefined "b" 3) = 1 := by
  intro l text
  have hactive : (⟨Rules.inputs, Rules.inputs.defaults⟩ : ActiveRule) ∈ l.rulesFor none := by
    have hrules : l.rulesFor none = [⟨Rules.inputs, Rules.inputs.defaults⟩] := rfl
    rw [hrules]
    exact List.mem_singleton_self _
  have hnames : (l.registry.rules.map (·.name)).Nodup := by decide +kernel
  have hread : l.run .empty text none ≠ .skipped := run_ne_skipped (by decide +kernel) .empty
  have hroots : (textRoot? text).any (fun root => decide (root.DeclaresInput "a" ∧
      ¬root.DeclaresInput "b" ∧ root.walk.countP (·.ReadsOn "b" 3) = 1)) = true := by
    decide +kernel
  obtain ⟨root, hroot, hdecides⟩ := (Option.any_eq_true _ _).mp hroots
  obtain ⟨ha, hb, hreads⟩ := of_decide_eq_true hdecides
  have hon : (l.directivesFor text none).wasOff 3 "inputs" = false := by decide +kernel
  have hreports :=
    run_reports_undefined l (fun _ h => h) hnames .empty text none hread hactive rfl hroot
  refine ⟨fun _ h => h, hnames, hread, hactive, ?_, ?_⟩
  · rw [hreports, if_pos (Or.inl ha)]
  · rw [hreports, if_neg, hreads]
    rintro (h | h)
    · exact hb h
    · rw [hon] at h
      cases h

/-- An entry of the inputs without a body is no definition: an input that it names is reported. -/
theorem run_reports_bodiless_input :
    let l := ofNames ["inputs"]
    let text := "inputs:\n  a:\noutputs:\n  o:\n    value: \x7bget_input: a\x7d\n"
    (textRoot? text).any (fun root => (root.get? "inputs").any fun inputs =>
        inputs.entries.any (·.1.text? == some "a") &&
          root.walk.any fun v => decide (v.ReadsOn "a" 5)) = true ∧
      l.run .empty text none ≠ .skipped ∧
      (l.run .empty text none).problems.countP (Rules.saysUndefined "a" 5) = 1 :=
  ⟨by decide +kernel, run_ne_skipped (by decide +kernel) .empty, by decide +kernel⟩

end Linter

end Blueprint
