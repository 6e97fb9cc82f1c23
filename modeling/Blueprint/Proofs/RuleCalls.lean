import Blueprint.Proofs.Schedule
import Blueprint.Proofs.SharedSession

/-!
The calls of one rule among the calls of others: they report what they report without them.
-/

namespace Blueprint

/-- Whether the rule that enters the version of the language finds this version, if any, in an
element. -/
def Element.keepsVersion (version : Option String) : Element → Bool
  | .node v => !v.isSection ["tosca_definitions_version"] || v.node.text?.all (some · == version)
  | _ => true

/-- A version that is stated again is not entered anew. -/
theorem Rules.version_still {e : Element} {s : Session}
    (he : e.keepsVersion s.context.version = true) (c : RuleSettings) :
    (Rules.version.run c e s).2 = s := by
  cases e with
  | node v =>
    show (checkVersion c v s).2 = s
    unfold checkVersion
    cases htext : v.node.text? with
    | none => rfl
    | some text =>
      dsimp only
      split
      next hsection =>
        have hsame : some text = s.context.version := by
          simpa [Element.keepsVersion, hsection, htext] using he
        show s.withContext { s.context with version := some text } = s
        rw [hsame]
        rfl
      · split <;> rfl
  | _ => rfl

/-- A rule that does not enter the version of the language keeps it. -/
theorem Rule.Confined.keeps_version {r : Rule} (hr : r.Confined) (hname : r.name ≠ "dsl_version")
    (c : RuleSettings) (e : Element) (s : Session) :
    (r.run c e s).2.context.version = s.context.version := by
  have hother : r.name = "dsl_version" → "inputs" ∉ Rules.followingVersion ∧
      "node_types" ∉ Rules.followingVersion := fun h => absurd h hname
  by_cases hinputs : "inputs" = r.name
  · have hne : "node_types" ≠ r.name := by
      rw [← hinputs]
      decide
    exact ((hr.run_other _ hne (fun h => (hother h).2) c e s).version (by decide)).symm
  · exact ((hr.run_other _ hinputs (fun h => (hother h).1) c e s).version (by decide)).symm

namespace Call

/-- Whether a call is one of a rule, or one that every run makes. -/
def concerns (name : String) : Call → Bool
  | observe _ => true
  | check a _ | finish a => a.rule.name == name

/-- Whether calls, other than those of one rule, leave what it reads as it is. A rule that reads the
version of the language relies on this one. -/
structure Suits (name : String) (version : Option String) (file : Option String) (c : Call) :
    Prop where
  keeps : name ∈ Rules.followingVersion → ∀ s : Session, s.context.version = version →
    (make file s c).2.context.version = version
  own : c.concerns name = true → ∀ {s s' : Session}, s.Alike name s' →
    (make file s c).1 = (make file s' c).1 ∧ (make file s c).2.Alike name (make file s' c).2
  other : c.concerns name = false →
    ∀ s : Session, (name ∈ Rules.followingVersion → s.context.version = version) →
      s.Alike name (make file s c).2

variable {name : String} {version file : Option String}

theorem make_filter (s : Session) (c : Call) :
    (make file s c).1.filter (·.rule == name) =
      if c.concerns name then (make file s c).1 else [] := by
  have hsigned (a : ActiveRule) (ps : List Problem) :
      (ps.map (a.sign file)).filter (·.rule == name) =
        if a.rule.name == name then ps.map (a.sign file) else [] := by
    split
    next hname =>
      refine List.filter_eq_self.mpr fun p hp => ?_
      obtain ⟨q, _, rfl⟩ := List.mem_map.mp hp
      exact hname
    next hname =>
      refine List.filter_eq_nil_iff.mpr fun p hp => ?_
      obtain ⟨q, _, rfl⟩ := List.mem_map.mp hp
      exact hname
  cases c with
  | observe e => rfl
  | check a e => exact hsigned a _
  | finish a => exact hsigned a _

/-- The calls of one rule report the same among the calls of others and without them. -/
theorem makeAll_concerning {cs : List Call} (hcs : ∀ c ∈ cs, c.Suits name version file)
    {s s' : Session} (h : s.Alike name s')
    (hs : name ∈ Rules.followingVersion → s.context.version = version) :
    (makeAll file s cs).1.filter (·.rule == name) =
        (makeAll file s' (cs.filter (·.concerns name))).1 ∧
      (makeAll file s cs).2.Alike name (makeAll file s' (cs.filter (·.concerns name))).2 ∧
      (name ∈ Rules.followingVersion → (makeAll file s cs).2.context.version = version) := by
  induction cs generalizing s s' with
  | nil => exact ⟨rfl, h, hs⟩
  | cons c cs ih =>
    have hc := hcs c List.mem_cons_self
    have hrest := @ih fun d hd => hcs d (List.mem_cons_of_mem c hd)
    rw [makeAll_cons, List.filter_append, make_filter]
    cases hconcerns : c.concerns name with
    | true =>
      obtain ⟨hproblems, hsession⟩ := hc.own hconcerns h
      obtain ⟨hlater, hlast, hversion⟩ := hrest hsession fun hn => hc.keeps hn s (hs hn)
      rw [List.filter_cons_of_pos hconcerns, makeAll_cons, if_pos rfl, hlater, hproblems]
      exact ⟨rfl, hlast, hversion⟩
    | false =>
      obtain ⟨hlater, hlast, hversion⟩ :=
        hrest ((hc.other hconcerns s hs).symm.trans h) fun hn => hc.keeps hn s (hs hn)
      rw [List.filter_cons_of_neg (by simp [hconcerns]), if_neg Bool.false_ne_true, hlater]
      exact ⟨rfl, hlast, hversion⟩

theorem suits_observe (e : Element) : (observe e).Suits name version file where
  keeps _ s hs := by
    cases e with
    | token t => exact (s.context.update_entries t).1.trans hs
    | _ => exact hs
  own _ _ _ h := ⟨rfl, h.observe e⟩
  other hconcerns := by cases hconcerns

theorem suits_check {a : ActiveRule} (ha : a.rule ∈ Registry.builtin.rules) {e : Element}
    (hversion : name ∈ Rules.followingVersion → a.rule.name = "dsl_version" →
      e.keepsVersion version = true) : (check a e).Suits name version file where
  keeps hn s hs := by
    show (a.rule.run a.conf e s).2.context.version = version
    by_cases hname : a.rule.name = "dsl_version"
    · subst hs
      rw [Registry.eq_of_name ha Registry.version_mem hname,
        Rules.version_still (hversion hn hname)]
    · rw [(Registry.builtin_confined ha).keeps_version hname, hs]
  own hconcerns s s' h := by
    have hname : a.rule.name = name := eq_of_beq hconcerns
    subst hname
    obtain ⟨hproblems, hsession⟩ := (Registry.builtin_confined ha).run h a.conf e
    exact ⟨congrArg (List.map (a.sign file)) hproblems, hsession⟩
  other hconcerns s hs := by
    have hne : name ≠ a.rule.name := (ne_of_beq_false hconcerns).symm
    show s.Alike name (a.rule.run a.conf e s).2
    by_cases hn : a.rule.name = "dsl_version" ∧ name ∈ Rules.followingVersion
    · have hstill := hs hn.2
      subst hstill
      rw [Registry.eq_of_name ha Registry.version_mem hn.1,
        Rules.version_still (hversion hn.2 hn.1)]
      exact .refl name s
    · exact (Registry.builtin_confined ha).run_other name hne
        (fun hname hfollows => hn ⟨hname, hfollows⟩) a.conf e s

theorem suits_finish {a : ActiveRule} (ha : a.rule ∈ Registry.builtin.rules)
    (himports : name ≠ "imports") : (finish a).Suits name version file where
  keeps _ s hs :=
    ((Registry.finish_alike ha "inputs" a.conf s).version (by decide)).symm.trans hs
  own hconcerns s s' h := by
    have hname : a.rule.name = name := eq_of_beq hconcerns
    subst hname
    have hconfined := Registry.builtin_confined ha
    refine ⟨congrArg (List.map (a.sign file)) (hconfined.finish himports h a.conf), ?_⟩
    show ((a.rule.finish a.conf s).2).Alike a.rule.name (a.rule.finish a.conf s').2
    rw [hconfined.finish_still himports, hconfined.finish_still himports]
    exact h
  other _ s _ := Registry.finish_alike ha name a.conf s

theorem ofElement_filter (active : List ActiveRule) (e : Element) :
    (ofElement active e).filter (·.concerns name) =
      ofElement (active.filter (·.rule.name == name)) e := by
  unfold ofElement
  rw [List.filter_cons_of_pos rfl, List.filter_map, List.filter_filter, List.filter_filter]
  congr 3
  funext a
  exact Bool.and_comm _ _

end Call

end Blueprint
