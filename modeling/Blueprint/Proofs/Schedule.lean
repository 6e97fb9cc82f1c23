import Blueprint.Lint.Run

/-!
The calls that a run makes: every rule sees every element of its kind, in the order of the rules, and
ends after the last element.
-/

namespace Blueprint

/-- A call made during a run, of a rule or to follow an element in the session. -/
inductive Call where
  | observe (e : Element)
  | check (a : ActiveRule) (e : Element)
  | finish (a : ActiveRule)

/-- A problem with the name and the level of its rule and the file of the run. -/
def ActiveRule.sign (a : ActiveRule) (file : Option String) (p : Problem) : Problem :=
  { p with rule := a.rule.name, level := a.conf.level, file }

namespace Call

def make (file : Option String) (s : Session) : Call → Findings
  | observe e => ([], Run.observe s e)
  | check a e => ((a.rule.run a.conf e s).1.map (a.sign file), (a.rule.run a.conf e s).2)
  | finish a => ((a.rule.finish a.conf s).1.map (a.sign file), (a.rule.finish a.conf s).2)

/-- Makes the calls in turn, each in the session that the one before it leaves. -/
def makeAll (file : Option String) : Session → List Call → Findings
  | s, [] => ([], s)
  | s, c :: r =>
    let (problems, s) := make file s c
    let (later, s) := makeAll file s r
    (problems ++ later, s)

/-- The calls for one element. -/
def ofElement (active : List ActiveRule) (e : Element) : List Call :=
  observe e :: (active.filter (·.rule.kind == e.kind)).map (check · e)

/-- The calls of a run over the given elements. -/
def schedule (active : List ActiveRule) (es : List Element) : List Call :=
  es.flatMap (ofElement active) ++ active.map finish

theorem makeAll_cons (file : Option String) (s : Session) (c : Call) (cs : List Call) :
    makeAll file s (c :: cs) =
      ((make file s c).1 ++ (makeAll file (make file s c).2 cs).1,
        (makeAll file (make file s c).2 cs).2) := rfl

theorem makeAll_append (file : Option String) (s : Session) (cs ds : List Call) :
    makeAll file s (cs ++ ds) =
      ((makeAll file s cs).1 ++ (makeAll file (makeAll file s cs).2 ds).1,
        (makeAll file (makeAll file s cs).2 ds).2) := by
  induction cs generalizing s with
  | nil => rfl
  | cons c cs ih =>
    rw [List.cons_append, makeAll_cons, makeAll_cons, ih]
    simp only [List.append_assoc]

theorem eachRule_eq_makeAll {file : Option String} {f : ActiveRule → Session → Findings}
    {call : ActiveRule → Call}
    (h : ∀ a s, make file s (call a) = ((f a s).1.map (a.sign file), (f a s).2)) (s : Session)
    (rules : List ActiveRule) :
    Run.eachRule file f s rules = makeAll file s (rules.map call) := by
  induction rules generalizing s with
  | nil => rfl
  | cons a rules ih =>
    rw [List.map_cons, makeAll_cons, h, ← ih]
    rfl

theorem eachRule_check (file : Option String) (e : Element) (s : Session)
    (rules : List ActiveRule) :
    Run.eachRule file (fun a s => a.rule.run a.conf e s) s rules =
      makeAll file s (rules.map (check · e)) :=
  eachRule_eq_makeAll (fun _ _ => rfl) s rules

theorem eachRule_finish (file : Option String) (s : Session) (rules : List ActiveRule) :
    Run.eachRule file (fun a s => a.rule.finish a.conf s) s rules =
      makeAll file s (rules.map finish) :=
  eachRule_eq_makeAll (fun _ _ => rfl) s rules

theorem makeAll_ofElement (file : Option String) (active : List ActiveRule) (s : Session)
    (e : Element) :
    makeAll file s (ofElement active e) =
      Run.eachRule file (fun a s => a.rule.run a.conf e s) (Run.observe s e)
        (active.filter (·.rule.kind == e.kind)) := by
  rw [eachRule_check, ofElement, makeAll_cons]
  rfl

theorem mem_makeAll {file : Option String} {s : Session} {cs : List Call} {p : Problem}
    (h : p ∈ (makeAll file s cs).1) : ∃ c ∈ cs, ∃ s', p ∈ (make file s' c).1 := by
  induction cs generalizing s with
  | nil => cases h
  | cons c cs ih =>
    rw [makeAll_cons] at h
    rcases List.mem_append.mp h with h | h
    · exact ⟨c, List.mem_cons_self, s, h⟩
    · obtain ⟨d, hd, s', hp⟩ := ih h
      exact ⟨d, List.mem_cons_of_mem c hd, s', hp⟩

/-- A problem that a call of these rules reports comes from one of them, at its end or for one of the
elements. -/
theorem mem_schedule {file : Option String} {s : Session} {active : List ActiveRule}
    {es : List Element} {p : Problem} (h : p ∈ (makeAll file s (schedule active es)).1) :
    ∃ a ∈ active, ∃ q s', p = a.sign file q ∧
      (q ∈ (a.rule.finish a.conf s').1 ∨ ∃ e ∈ es, q ∈ (a.rule.run a.conf e s').1) := by
  obtain ⟨c, hc, s', hp⟩ := mem_makeAll h
  unfold schedule at hc
  rcases List.mem_append.mp hc with hc | hc
  · obtain ⟨e, he, hc⟩ := List.mem_flatMap.mp hc
    unfold ofElement at hc
    rcases List.mem_cons.mp hc with rfl | hc
    · cases hp
    · obtain ⟨a, ha, rfl⟩ := List.mem_map.mp hc
      obtain ⟨q, hq, rfl⟩ := List.mem_map.mp hp
      exact ⟨a, (List.mem_filter.mp ha).1, q, s', rfl, Or.inr ⟨e, he, hq⟩⟩
  · obtain ⟨a, ha, rfl⟩ := List.mem_map.mp hc
    obtain ⟨q, hq, rfl⟩ := List.mem_map.mp hp
    exact ⟨a, ha, q, s', rfl, Or.inl hq⟩

end Call

end Blueprint
