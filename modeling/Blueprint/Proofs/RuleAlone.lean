import Blueprint.Proofs.DirectiveFold
import Blueprint.Proofs.FaultPlace
import Blueprint.Proofs.UnusedImports

/-!
What a run yields of one rule, and what a run yields in which it is the only rule.
-/

namespace Blueprint

namespace Directives

/-- Whether directives say the same about a rule, in runs whose other rules may differ. -/
structure Alike (name : String) (d d' : Directives) : Prop where
  rules : d.rules.contains name = d'.rules.contains name
  disabled : d.disabled.contains name = d'.disabled.contains name
  onLine : d.onLine.contains name = d'.onLine.contains name
  onNextLine : d.onNextLine.contains name = d'.onNextLine.contains name
  history : ∀ line, d.wasOff line name = d'.wasOff line name

variable {name : String} {d d' : Directives}

theorem contains_meant (active names : List String) (rule : String) :
    (meant active names).contains rule =
      (active.contains rule && (names.isEmpty || names.contains rule)) := by
  by_cases h : rule ∈ active
  · rw [contains_meant_of_mem h, List.contains_iff_mem.mpr h, Bool.true_and]
  · have hmeant : rule ∉ meant active names := fun hmem => h (mem_of_mem_meant hmem)
    simp [h, hmeant]

theorem Alike.meant (h : d.Alike name d') (names : List String) :
    (meant d.rules names).contains name = (Directives.meant d'.rules names).contains name := by
  rw [contains_meant, contains_meant, h.rules]

theorem contains_append (names more : List String) (name : String) :
    (names ++ more).contains name = (names.contains name || more.contains name) := by
  simp

theorem Alike.readComment (h : d.Alike name d') (text : List Char) (inline : Bool) :
    (d.readComment text inline).Alike name (d'.readComment text inline) := by
  unfold Directives.readComment
  split
  next directive _ =>
    cases directive with
    | disable names =>
      refine ⟨h.rules, ?_, h.onLine, h.onNextLine, h.history⟩
      show (Directives.meant d.rules names ++ d.disabled).contains name =
        (Directives.meant d'.rules names ++ d'.disabled).contains name
      rw [contains_append, contains_append, h.meant, h.disabled]
    | enable names =>
      refine ⟨h.rules, ?_, h.onLine, h.onNextLine, h.history⟩
      have hfilter (disabled : List String) :
          (if names.isEmpty then [] else disabled.filter (!names.contains ·)).contains name =
            (disabled.contains name && !(names.isEmpty || names.contains name)) := by
        cases names.isEmpty <;> simp
      show (if names.isEmpty then [] else d.disabled.filter (!names.contains ·)).contains name =
        (if names.isEmpty then [] else d'.disabled.filter (!names.contains ·)).contains name
      rw [hfilter, hfilter, h.disabled]
    | disableLine names =>
      unfold apply
      dsimp only
      split
      · refine ⟨h.rules, h.disabled, ?_, h.onNextLine, h.history⟩
        rw [contains_append, contains_append, h.meant, h.onLine]
      · refine ⟨h.rules, h.disabled, h.onLine, ?_, h.history⟩
        rw [contains_append, contains_append, h.meant, h.onNextLine]
  · exact h

theorem Alike.isOff (h : d.Alike name d') : d.isOff name = d'.isOff name := by
  unfold Directives.isOff off
  rw [contains_append, contains_append, h.disabled, h.onLine]

theorem Alike.endLine (h : d.Alike name d') {n : Nat} (hended : d.EndedBy n)
    (hended' : d'.EndedBy n) : (d.endLine (n + 1)).Alike name (d'.endLine (n + 1)) := by
  refine ⟨h.rules, h.disabled, h.onNextLine, rfl, ?_⟩
  intro line
  by_cases hline : line = n + 1
  · rw [hline, endLine_wasOff_self hended, endLine_wasOff_self hended', h.isOff]
  · rw [endLine_wasOff_of_ne hline, endLine_wasOff_of_ne hline, h.history]

theorem readComment_endedBy {n : Nat} (h : d.EndedBy n) (text : List Char) (inline : Bool) :
    (d.readComment text inline).EndedBy n := by
  unfold EndedBy
  rw [readComment_history]
  exact h

end Directives

namespace Run

theorem take_filter (due p : Problem → Bool) (waiting : List Problem) :
    (take due waiting).1.filter p = (take due (waiting.filter p)).1 ∧
      (take due waiting).2.filter p = (take due (waiting.filter p)).2 := by
  unfold take
  dsimp only
  rw [sortBy_filter Problem.placeBefore_strict]
  simp only [List.filter_filter, Bool.and_comm, and_self]

/-- The state of a run, and that of a run of one of its rules alone, while line `n + 1` is read. -/
structure Alike (name : String) (version : Option String) (n : Nat) (r r' : Run) : Prop where
  file : r.file = r'.file
  session : r.session.Alike name r'.session
  version : name ∈ Rules.followingVersion → r.session.context.version = version
  waiting : r.waiting.filter (·.rule == name) = r'.waiting
  directives : r.directives.Alike name r'.directives
  ended : r.directives.EndedBy n
  ended' : r'.directives.EndedBy n
  gate : r.gate = none
  gate' : r'.gate = none

variable {name : String} {version : Option String} {n : Nat} {r r' : Run}

theorem Alike.reported (h : r.Alike name version n r') {active : List ActiveRule} {e : Element}
    (hsuits : ∀ c ∈ Call.ofElement active e, c.Suits name version r.file) :
    (reported active r e).Alike name version n
      (reported (active.filter (·.rule.name == name)) r' e) := by
  obtain ⟨hproblems, hsession, hversion⟩ := Call.makeAll_concerning hsuits h.session h.version
  rw [Call.ofElement_filter] at hproblems hsession
  unfold Run.reported
  rw [← h.file]
  refine ⟨rfl, hsession, hversion, ?_, h.directives, h.ended, h.ended', h.gate, h.gate'⟩
  rw [List.filter_append, h.waiting, hproblems]

theorem Alike.endLine (h : r.Alike name version n r') :
    (r.endLine (n + 1)).1.Alike name version (n + 1) (r'.endLine (n + 1)).1 ∧
      (r.endLine (n + 1)).2.filter (·.rule == name) = (r'.endLine (n + 1)).2 := by
  obtain ⟨hdue, hleft⟩ := take_filter (·.line ≤ n + 1) (·.rule == name) r.waiting
  rw [h.waiting] at hdue hleft
  rw [endLine_eq h.gate, endLine_eq h.gate']
  refine ⟨⟨h.file, h.session, h.version, hleft, h.directives.endLine h.ended h.ended',
    Directives.endLine_endedBy h.ended, Directives.endLine_endedBy h.ended', rfl, rfl⟩, ?_⟩
  dsimp only
  rw [← hdue, List.filter_filter, List.filter_filter]
  apply List.filter_congr
  intro p _
  rw [Bool.and_comm]
  cases hrule : p.rule == name with
  | false => simp
  | true =>
    rw [eq_of_beq hrule, h.directives.isOff, h.directives.history]

/-- One step of a run, and of a run of one of its rules alone. -/
theorem Alike.step (h : r.Alike name version n r') {active : List ActiveRule} {e : Element}
    (hsuits : ∀ c ∈ Call.ofElement active e, c.Suits name version r.file)
    (hline : ∀ l, e = .line l → l.number = n + 1) :
    (step active r e).1.Alike name version (if e.line?.isSome then n + 1 else n)
        (step (active.filter (·.rule.name == name)) r' e).1 ∧
      (step active r e).2.filter (·.rule == name) =
        (step (active.filter (·.rule.name == name)) r' e).2 := by
  have hreported := h.reported hsuits
  rw [step_eq, step_eq]
  cases e with
  | token t => exact ⟨hreported, rfl⟩
  | node v => exact ⟨hreported, rfl⟩
  | comment c =>
    exact ⟨⟨hreported.file, hreported.session, hreported.version, hreported.waiting,
      hreported.directives.readComment c.text c.inline,
      Directives.readComment_endedBy hreported.ended c.text c.inline,
      Directives.readComment_endedBy hreported.ended' c.text c.inline, hreported.gate,
      hreported.gate'⟩, rfl⟩
  | line l =>
    dsimp only
    rw [hline l rfl]
    exact hreported.endLine

theorem Alike.steps {active : List ActiveRule} {es : List Element} {k : Nat}
    (h : r.Alike name version n r')
    (hsuits : ∀ e ∈ es, ∀ c ∈ Call.ofElement active e, c.Suits name version r.file)
    (hlines : (es.filterMap Element.line?).map (·.number) = List.range' (n + 1) k) :
    (steps active r es).1.Alike name version (n + k)
        (steps (active.filter (·.rule.name == name)) r' es).1 ∧
      (steps active r es).2.filter (·.rule == name) =
        (steps (active.filter (·.rule.name == name)) r' es).2 := by
  induction es generalizing r r' n k with
  | nil =>
    cases k with
    | zero => exact ⟨h, rfl⟩
    | succ k => cases hlines
  | cons e es ih =>
    have hnumber : ∀ l, e = .line l → l.number = n + 1 := by
      rintro l rfl
      cases k with
      | zero => cases hlines
      | succ k => exact (List.cons.inj hlines).1
    obtain ⟨hstep, hyield⟩ := h.step (hsuits e List.mem_cons_self) hnumber
    have hrest {m j : Nat} (hm : (if e.line?.isSome then n + 1 else n) = m)
        (hj : (es.filterMap Element.line?).map (·.number) = List.range' (m + 1) j)
        (hsum : m + j = n + k) :
        (steps active r (e :: es)).1.Alike name version (n + k)
            (steps (active.filter (·.rule.name == name)) r' (e :: es)).1 ∧
          (steps active r (e :: es)).2.filter (·.rule == name) =
            (steps (active.filter (·.rule.name == name)) r' (e :: es)).2 := by
      rw [hm] at hstep
      have hfile := (step_state active r e).1
      obtain ⟨hlast, hlater⟩ := ih hstep
        (fun d hd => by rw [hfile]; exact hsuits d (List.mem_cons_of_mem e hd)) hj
      rw [hsum] at hlast
      refine ⟨hlast, ?_⟩
      show ((Run.step active r e).2 ++ (Run.steps active (Run.step active r e).1 es).2).filter
        (·.rule == name) = (Run.step _ r' e).2 ++ (Run.steps _ (Run.step _ r' e).1 es).2
      rw [List.filter_append, hyield, hlater]
    cases e with
    | line l =>
      cases k with
      | zero => cases hlines
      | succ k => exact @hrest (n + 1) k rfl (List.cons.inj hlines).2 (by omega)
    | token t => exact hrest rfl hlines rfl
    | node v => exact hrest rfl hlines rfl
    | comment c => exact hrest rfl hlines rfl

/-- At the end the rule yields what it yields alone, if its last reports are those that it makes
alone, apart from some. -/
theorem Alike.finish (h : r.Alike name version n r') {active : List ActiveRule}
    {kept : Problem → Bool} (hwaiting : ∀ p ∈ r'.waiting, kept p = true)
    (hlast : (Call.makeAll r.file r.session (active.map .finish)).1.filter (·.rule == name) =
      (Call.makeAll r'.file r'.session
        ((active.filter (·.rule.name == name)).map .finish)).1.filter kept) :
    (r.finish active).filter (·.rule == name) =
      (r'.finish (active.filter (·.rule.name == name))).filter kept := by
  have hall : (r.waiting ++ (Call.makeAll r.file r.session (active.map .finish)).1).filter
        (·.rule == name) =
      (r'.waiting ++ (Call.makeAll r'.file r'.session
        ((active.filter (·.rule.name == name)).map .finish)).1).filter kept := by
    rw [List.filter_append, List.filter_append, h.waiting, hlast,
      List.filter_eq_self.mpr hwaiting]
  rw [finish_eq h.gate, finish_eq h.gate', List.filter_comm, List.filter_comm kept,
    sortBy_filter Problem.placeBefore_strict (·.rule == name),
    sortBy_filter Problem.placeBefore_strict kept, ← hall]
  apply List.filter_congr
  intro p hp
  have hrule := (List.mem_filter.mp ((sortBy_perm _ _).mem_iff.mp hp)).2
  rw [eq_of_beq hrule, h.directives.history]

end Run

namespace Linter

/-- The linter that runs one rule of those that a linter runs. -/
def only (l : Linter) (name : String) : Linter :=
  { l with confs := l.confs.filter (·.1 == name) }

theorem lookup_only (confs : List (String × RuleSettings)) (name rule : String) :
    (confs.filter (·.1 == name)).lookup rule =
      if rule == name then confs.lookup rule else none := by
  induction confs with
  | nil => cases rule == name <;> rfl
  | cons entry confs ih =>
    obtain ⟨key, conf⟩ := entry
    rw [List.filter_cons]
    by_cases hkey : key = name
    · subst hkey
      rw [beq_self_eq_true, if_pos rfl, List.lookup_cons, List.lookup_cons, ih]
      cases rule == key <;> rfl
    · rw [beq_eq_false_iff_ne.mpr hkey, if_neg Bool.false_ne_true, ih]
      split
      next hrule =>
        have hne : rule ≠ key := fun heq => hkey (heq.symm.trans (eq_of_beq hrule))
        rw [List.lookup_cons, beq_eq_false_iff_ne.mpr hne]
      · rfl

theorem rulesFor_only (l : Linter) (name : String) (file : Option String) :
    (l.only name).rulesFor file = (l.rulesFor file).filter (·.rule.name == name) := by
  unfold rulesFor
  rw [List.filter_filterMap]
  apply List.filterMap_congr
  intro rule _
  show ((((l.confs.filter (·.1 == name)).lookup rule.name).filter _).map _) = _
  rw [lookup_only]
  cases hname : rule.name == name with
  | true =>
    rw [if_pos rfl]
    generalize (l.confs.lookup rule.name).filter _ = conf
    cases conf with
    | none => rfl
    | some conf => simp [Option.filter, hname]
  | false =>
    rw [if_neg Bool.false_ne_true]
    generalize (l.confs.lookup rule.name).filter _ = conf
    cases conf with
    | none => rfl
    | some conf => simp [Option.filter, hname]

/-- The version that a text states at its top. -/
def statedVersion? (text : String) : Option String :=
  ((textRoot? text).bind (·.get? "tosca_definitions_version")).bind Node.text?

end Linter

/-- The imports of a file do not change the version. -/
theorem Session.index_version (s : Session) (root : Node) :
    (s.index root).context.version =
      ((root.get? "tosca_definitions_version").bind Node.text?).or s.context.version := by
  have hitem (s : Session) (item : Node) :
      (s.importItem item).context.version = s.context.version := by
    unfold importItem importFile
    dsimp only
    split
    · rfl
    · split
      · rfl
      · split
        · rfl
        · split
          · split
            · rfl
            · split <;> rfl
          · rfl
  have hfold (items : List Node) (s : Session) :
      (items.foldl importItem s).context.version = s.context.version := by
    induction items generalizing s with
    | nil => rfl
    | cons item items ih => rw [List.foldl_cons, ih, hitem]
  unfold index
  dsimp only
  rw [hfold]
  rfl

namespace Linter

theorem startRun_version (l : Linter) (fs : Files) (text : String) (file : Option String) :
    (l.startRun fs text file).session.context.version = statedVersion? text := by
  unfold startRun statedVersion?
  dsimp only
  cases textRoot? text with
  | none => rfl
  | some root =>
    show (Session.index _ root).context.version = _
    rw [Session.index_version]
    exact Option.or_none

/-- The paths of the imports that declare a node type which a check has marked as used. -/
def importsMarked (l : Linter) (fs : Files) (text : String) (file : Option String) :
    List String :=
  ImportedFile.pathsUsedBy (l.startRun fs text file).session.context.unusedImports
    ((l.calls text file).flatMap Call.marks)

theorem startRun_nodup (l : Linter) (fs : Files) (text : String) (file : Option String) :
    (l.startRun fs text file).session.context.unusedImports.keys.Nodup := by
  unfold startRun
  dsimp only
  cases textRoot? text with
  | none => exact List.nodup_nil
  | some root => exact Session.index_nodup root List.nodup_nil

/-- Whether no check of a file enters another version than the one that its text states. -/
def KeepsVersion (l : Linter) (text : String) (file : Option String) : Prop :=
  (∀ a ∈ l.rulesFor file, a.rule.name ≠ "dsl_version") ∨
    ∀ e ∈ Element.ofDocument text, e.keepsVersion (statedVersion? text) = true

section Alone

variable {l : Linter} (hl : l.registry = Registry.builtin) (fs : Files) {text : String}
  (file : Option String) (name : String)

include hl in
theorem builtin_of_mem_rulesFor {a : ActiveRule} (ha : a ∈ l.rulesFor file) :
    a.rule ∈ Registry.builtin.rules := by
  rw [← hl]
  exact mem_registry_of_mem_rulesFor ha

include hl in
theorem ofElement_cases {e : Element} {c : Call} (hc : c ∈ Call.ofElement (l.rulesFor file) e) :
    c = .observe e ∨ ∃ a, c = .check a e ∧ a ∈ l.rulesFor file ∧
      a.rule ∈ Registry.builtin.rules := by
  rcases List.mem_cons.mp hc with rfl | hc
  · exact Or.inl rfl
  · obtain ⟨a, ha, rfl⟩ := List.mem_map.mp hc
    have ha := (List.mem_filter.mp ha).1
    exact Or.inr ⟨a, rfl, ha, builtin_of_mem_rulesFor hl file ha⟩

include hl in
theorem ofElement_suits (hversion : name ∈ Rules.followingVersion → l.KeepsVersion text file) :
    ∀ e ∈ Element.ofDocument text, ∀ c ∈ Call.ofElement (l.rulesFor file) e,
      c.Suits name (statedVersion? text) file := by
  intro e he c hc
  rcases ofElement_cases hl file hc with rfl | ⟨a, rfl, ha, hbuiltin⟩
  · exact Call.suits_observe e
  · refine Call.suits_check hbuiltin fun hname hrule => ?_
    rcases hversion hname with hnone | hkeeps
    · exact absurd hrule (hnone a ha)
    · exact hkeeps e he

theorem startRun_alike (hcompose : textFault? text = none) :
    (l.startRun fs text file).Alike name (statedVersion? text) 0
      ((l.only name).startRun fs text file) := by
  have hended (d : Directives) (hhistory : d.history = []) : d.EndedBy 0 := by
    intro entry hentry
    rw [hhistory] at hentry
    cases hentry
  refine ⟨rfl, .refl name _, fun _ => l.startRun_version fs text file, rfl, ?_, hended _ rfl,
    hended _ rfl, hcompose, hcompose⟩
  refine ⟨?_, rfl, rfl, rfl, fun _ => rfl⟩
  show (l.namesFor file).contains name = ((l.only name).namesFor file).contains name
  unfold namesFor
  rw [rulesFor_only, Bool.eq_iff_iff, List.contains_iff_mem, List.contains_iff_mem]
  constructor
  · intro h
    obtain ⟨a, ha, hname⟩ := List.mem_map.mp h
    exact List.mem_map.mpr ⟨a, List.mem_filter.mpr ⟨ha, beq_iff_eq.mpr hname⟩, hname⟩
  · intro h
    obtain ⟨a, ha, hname⟩ := List.mem_map.mp h
    exact List.mem_map.mpr ⟨a, (List.mem_filter.mp ha).1, hname⟩

/-- The state of a run after the last element. -/
def scanned (l : Linter) (fs : Files) (text : String) (file : Option String) :
    Run × List Problem :=
  Run.steps (l.rulesFor file) (l.startRun fs text file) (Element.ofDocument text)

theorem scanned_state (l : Linter) (text : String) :
    (l.scanned fs text file).1.file = file ∧
      (l.scanned fs text file).1.session =
        (Call.makeAll file (l.startRun fs text file).session
          ((Element.ofDocument text).flatMap (Call.ofElement (l.rulesFor file)))).2 := by
  obtain ⟨hfile, hsession, _⟩ :=
    Run.steps_state (l.rulesFor file) (l.startRun fs text file) (Element.ofDocument text)
  have hstart : (l.startRun fs text file).file = file := rfl
  rw [hstart] at hfile hsession
  unfold scanned
  exact ⟨hfile, hsession⟩

include hl in
theorem scanned_alike (hcompose : textFault? text = none)
    (hversion : name ∈ Rules.followingVersion → l.KeepsVersion text file) :
    ∃ n, (l.scanned fs text file).1.Alike name (statedVersion? text) n
        ((l.only name).scanned fs text file).1 ∧
      (l.scanned fs text file).2.filter (·.rule == name) =
        ((l.only name).scanned fs text file).2 := by
  unfold scanned
  rw [rulesFor_only]
  exact ⟨_, (startRun_alike fs file name hcompose).steps (ofElement_suits hl file name hversion)
    (Element.ofDocument_lines text)⟩

theorem run_problems (hread : l.run fs text file ≠ .skipped) :
    (l.run fs text file).problems =
      (l.scanned fs text file).2 ++ (l.scanned fs text file).1.finish (l.rulesFor file) := by
  rw [l.run_eq fs text file hread]
  rfl

theorem run_skipped_iff (l : Linter) (text : String) :
    l.run fs text file = .skipped ↔
      (file.any l.ignores || Directive.coversFile (firstLine text.toList)) = true := by
  constructor
  · intro h
    by_contra hread
    exact run_ne_skipped (Bool.eq_false_iff.mpr hread) fs h
  · intro h
    unfold run
    dsimp only
    rw [if_pos h]

theorem only_skipped_iff (l : Linter) (text : String) :
    (l.only name).run fs text file = .skipped ↔ l.run fs text file = .skipped := by
  have hignores : (l.only name).ignores = l.ignores := rfl
  rw [run_skipped_iff, run_skipped_iff, hignores]

include hl in
/-- What a run yields of a rule follows from what the rule reports at the end. -/
theorem run_filter_of_last (hcompose : textFault? text = none)
    (hversion : name ∈ Rules.followingVersion → l.KeepsVersion text file) {kept : Problem → Bool}
    (hscan : ∀ p ∈ ((l.only name).scanned fs text file).2, kept p = true)
    (hwaiting : ∀ p ∈ ((l.only name).scanned fs text file).1.waiting, kept p = true)
    (hlast : (Call.makeAll file (l.scanned fs text file).1.session
        ((l.rulesFor file).map .finish)).1.filter (·.rule == name) =
      (Call.makeAll file ((l.only name).scanned fs text file).1.session
        (((l.rulesFor file).filter (·.rule.name == name)).map .finish)).1.filter kept) :
    (l.run fs text file).problems.filter (·.rule == name) =
      ((l.only name).run fs text file).problems.filter kept := by
  by_cases hskip : l.run fs text file = .skipped
  · rw [hskip, (only_skipped_iff fs file name l text).mpr hskip]
    rfl
  · have hread' := mt (only_skipped_iff fs file name l text).mp hskip
    obtain ⟨n, halike, hyield⟩ := scanned_alike hl fs file name hcompose hversion
    have hfile := (scanned_state fs file l text).1
    have hend : ((l.scanned fs text file).1.finish (l.rulesFor file)).filter (·.rule == name) =
        (((l.only name).scanned fs text file).1.finish
          ((l.rulesFor file).filter (·.rule.name == name))).filter kept := by
      refine halike.finish hwaiting ?_
      rw [← halike.file, hfile]
      exact hlast
    rw [run_problems fs file hskip, run_problems fs file hread', List.filter_append,
      List.filter_append, hyield, List.filter_eq_self.mpr hscan, rulesFor_only, hend]

include hl in
theorem last_of_ne_imports (hcompose : textFault? text = none)
    (hversion : name ∈ Rules.followingVersion → l.KeepsVersion text file)
    (himports : name ≠ "imports") :
    (Call.makeAll file (l.scanned fs text file).1.session
        ((l.rulesFor file).map .finish)).1.filter (·.rule == name) =
      (Call.makeAll file ((l.only name).scanned fs text file).1.session
        (((l.rulesFor file).filter (·.rule.name == name)).map .finish)).1 := by
  obtain ⟨n, halike, _⟩ := scanned_alike hl fs file name hcompose hversion
  have hsuits : ∀ c ∈ (l.rulesFor file).map Call.finish,
      c.Suits name (statedVersion? text) file := by
    intro c hc
    obtain ⟨a, ha, rfl⟩ := List.mem_map.mp hc
    exact Call.suits_finish (builtin_of_mem_rulesFor hl file ha) himports
  obtain ⟨hproblems, _⟩ := Call.makeAll_concerning hsuits halike.session halike.version
  rw [List.filter_map] at hproblems
  exact hproblems

/-- What has been yielded or waits after the last element has been reported. -/
theorem scanned_reported (hcompose : textFault? text = none) {p : Problem}
    (hp : p ∈ (l.scanned fs text file).2 ++ (l.scanned fs text file).1.waiting) :
    p ∈ (Call.makeAll file (l.startRun fs text file).session
      ((Element.ofDocument text).flatMap (Call.ofElement (l.rulesFor file)))).1 := by
  have hended : (l.startRun fs text file).directives.EndedBy 0 := by
    intro entry h
    cases h
  obtain ⟨judged, hperm, hgate⟩ :=
    Run.steps_accounts (l.rulesFor file) (Element.ofDocument_lines text) hended
  have hwait : (l.startRun fs text file).waiting = [] := rfl
  have hfile : (l.startRun fs text file).file = file := rfl
  have hnone : (l.startRun fs text file).gate = none := hcompose
  rw [hwait, hfile, List.nil_append] at hperm
  rw [hnone, Gate.releaseAll_none] at hgate
  unfold scanned at hp
  rw [← (Prod.mk.inj hgate).2] at hp
  refine hperm.mem_iff.mp (List.mem_append.mpr ?_)
  rcases List.mem_append.mp hp with hp | hp
  · exact Or.inl (List.mem_filter.mp hp).1
  · exact Or.inr hp

include hl in
/-- Before the end, the rule about imports does not say that an import is unused. -/
theorem scanned_only_imports (hcompose : textFault? text = none) (paths : List String) {p : Problem}
    (hp : p ∈ ((l.only "imports").scanned fs text file).2 ++
      ((l.only "imports").scanned fs text file).1.waiting) :
    (!Rules.saysUnused paths p) = true := by
  obtain ⟨c, hc, s, hp⟩ := Call.mem_makeAll (scanned_reported fs file hcompose hp)
  obtain ⟨e, _, hc⟩ := List.mem_flatMap.mp hc
  rcases ofElement_cases (l := l.only "imports") hl file hc with rfl | ⟨a, rfl, ha, hbuiltin⟩
  · cases hp
  · rw [rulesFor_only] at ha
    have hname := eq_of_beq (List.mem_filter.mp ha).2
    obtain ⟨q, hq, rfl⟩ := List.mem_map.mp hp
    rw [Registry.eq_of_name hbuiltin Registry.imports_mem hname] at hq
    cases e with
    | node v =>
      show (!Rules.saysUnused paths q) = true
      rw [Rules.checkImports_not_saysUnused s v paths q hq]
      rfl
    | _ => cases hq

include hl in
theorem scanned_unusedImports :
    (l.scanned fs text file).1.session.context.unusedImports =
      ImportedFile.leftBy (l.startRun fs text file).session.context.unusedImports
        ((l.calls text file).flatMap Call.marks) := by
  have hfinish : ((l.rulesFor file).map Call.finish).flatMap Call.marks = [] := by
    rw [List.flatMap_map]
    exact List.flatMap_eq_nil_iff.mpr fun _ _ => rfl
  unfold calls Call.schedule
  rw [List.flatMap_append, hfinish, List.append_nil, (scanned_state fs file l text).2]
  refine Call.makeAll_unusedImports ?_ _
  intro c hc
  obtain ⟨e, _, hc⟩ := List.mem_flatMap.mp hc
  rcases ofElement_cases hl file hc with rfl | ⟨a, rfl, _, hbuiltin⟩
  · exact Or.inl ⟨e, rfl⟩
  · exact Or.inr ⟨a, e, rfl, hbuiltin⟩

theorem only_imports_marks : ((l.only "imports").calls text file).flatMap Call.marks = [] := by
  apply List.flatMap_eq_nil_iff.mpr
  intro c hc
  unfold calls Call.schedule at hc
  rw [rulesFor_only] at hc
  rcases List.mem_append.mp hc with hc | hc
  · obtain ⟨e, _, hc⟩ := List.mem_flatMap.mp hc
    rcases List.mem_cons.mp hc with rfl | hc
    · rfl
    · obtain ⟨a, ha, rfl⟩ := List.mem_map.mp hc
      have hname := eq_of_beq (List.mem_filter.mp (List.mem_filter.mp ha).1).2
      exact Rules.marks_of_ne (by rw [hname]; decide) (by rw [hname]; decide) e
  · obtain ⟨a, _, rfl⟩ := List.mem_map.mp hc
    rfl

end Alone

/-- Rules do not interfere, with two exceptions. The rules that read the version of the language may
find another one than their text states, if the rule about the version enters it. And the rule about
imports does not call an import unused if another rule has marked a type of it as used. -/
theorem run_rule_alone (l : Linter) (hl : l.registry = Registry.builtin) (fs : Files)
    (text : String) (hcompose : textFault? text = none) (file : Option String) :
    (∀ name, name ≠ "imports" →
      (name ∈ Rules.followingVersion → l.KeepsVersion text file) →
        (l.run fs text file).problems.filter (·.rule == name) =
          ((l.only name).run fs text file).problems) ∧
      (l.run fs text file).problems.filter (·.rule == "imports") =
        ((l.only "imports").run fs text file).problems.filter
          (!Rules.saysUnused (l.importsMarked fs text file) ·) := by
  constructor
  · intro name himports hversion
    have hkept (ps : List Problem) : ps.filter (fun _ => true) = ps :=
      List.filter_eq_self.mpr fun _ _ => rfl
    have hfilter := run_filter_of_last hl fs file name hcompose hversion (fun _ _ => rfl)
      (fun _ _ => rfl)
      ((last_of_ne_imports hl fs file name hcompose hversion himports).trans (hkept _).symm)
    rw [hfilter, hkept]
  · have hversion : "imports" ∈ Rules.followingVersion → l.KeepsVersion text file :=
      fun h => absurd h (by decide)
    obtain ⟨n, halike, _⟩ := scanned_alike hl fs file "imports" hcompose hversion
    have hsolo : ((l.only "imports").scanned fs text file).1.session.context.unusedImports =
        (l.startRun fs text file).session.context.unusedImports := by
      rw [scanned_unusedImports (l := l.only "imports") hl fs file, only_imports_marks,
        ImportedFile.leftBy_nil]
      rfl
    refine run_filter_of_last hl fs file "imports" hcompose hversion
      (fun p hp => scanned_only_imports hl fs file hcompose _ (List.mem_append_left _ hp))
      (fun p hp => scanned_only_imports hl fs file hcompose _ (List.mem_append_right _ hp)) ?_
    refine Call.makeAll_finish_imports (fun a ha => builtin_of_mem_rulesFor hl file ha)
      (l.startRun_nodup fs text file) _ halike.session ?_ ?_
    · rw [hsolo]
      exact scanned_unusedImports hl fs file
    · rw [hsolo]
      exact List.Subset.refl _

/-- A linter of some rules with the defaults of their options. -/
def ofNames (names : List String) : Linter where
  registry := .builtin
  confs := (Registry.builtin.rules.filter (names.contains ·.name)).map fun r => (r.name, r.defaults)
  ignore := []

/-- A version that is stated once, and an import of which a declaration uses a type. -/
theorem run_rule_alone_of_declaration :
    let l := ofNames ["dsl_version", "imports", "node_types"]
    let fs := Files.empty.create "t.yaml" (.text "node_types:\n  A: \x7b\x7d\n")
    let text := "tosca_definitions_version: x\nimports:\n- t.yaml\n" ++
      "node_types:\n  B:\n    derived_from: A\n"
    textFault? text = none ∧ l.importsMarked fs text none = ["t.yaml"] ∧
      (l.run fs text none).problems.filter (·.rule == "node_types") =
        ((l.only "node_types").run fs text none).problems ∧
      (l.run fs text none).problems.filter (·.rule == "imports") =
        ((l.only "imports").run fs text none).problems.filter (!Rules.saysUnused ["t.yaml"] ·) := by
  intro l fs text
  have hcompose : textFault? text = none := by decide +kernel
  have hmarked : l.importsMarked fs text none = ["t.yaml"] := by decide +kernel
  have hkeeps : l.KeepsVersion text none := Or.inr (by decide +kernel)
  obtain ⟨hrules, himports⟩ := run_rule_alone l rfl fs text hcompose none
  rw [hmarked] at himports
  exact ⟨hcompose, hmarked, hrules "node_types" (by decide) (fun _ => hkeeps), himports⟩

/-- The rule about node types marks the type that a declaration is derived from. Without it, an
unused file is reported, which is the one that declares this type. -/
theorem run_imports_differs_alone :
    let l := ofNames ["imports", "node_types"]
    let fs := Files.empty.create "types.yaml" (.text "node_types:\n  my.nodes.Thing: \x7b\x7d\n")
    let text := "imports:\n- types.yaml\n" ++
      "node_types:\n  nativeedge.nodes.Sub:\n    derived_from: my.nodes.Thing\n"
    textFault? text = none ∧
      (l.run fs text none).problems.filter (·.rule == "imports") = [] ∧
      ((l.only "imports").run fs text none).problems.map (fun p => (p.line, p.message)) =
        [(2, "unused import item: types.yaml")] :=
  ⟨by decide +kernel, by decide +kernel, by decide +kernel⟩

end Linter

end Blueprint
