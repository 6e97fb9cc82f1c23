import Blueprint.Proofs.RuleCalls

/-!
The imports that are reported as unused: what checks of other rules mark as used is not reported, and
nothing else changes what the rule about imports reports.
-/

namespace Blueprint

namespace Table

variable {α : Type}

theorem insertEntry_keys {key : String} (value : α) {entries : List (String × α)}
    (h : entries.any (·.1 == key) = false) :
    ((insertEntry key value entries).map (·.1)).Perm (key :: entries.map (·.1)) := by
  induction entries with
  | nil => exact List.Perm.refl _
  | cons entry entries ih =>
    rw [List.any_cons, Bool.or_eq_false_iff] at h
    obtain ⟨hne, hrest⟩ := h
    rw [insertEntry, if_neg (ne_of_beq_false hne).symm]
    split
    · exact List.Perm.refl _
    · exact ((ih hrest).cons _).trans (List.Perm.swap key _ _)

/-- A new key leaves the keys distinct. -/
theorem insert_nodup {t : Table α} {key : String} (value : α) (hnew : t.contains key = false)
    (h : t.keys.Nodup) : (t.insert key value).keys.Nodup := by
  have hkeys := insertEntry_keys value hnew
  refine hkeys.nodup_iff.mpr (List.nodup_cons.mpr ⟨?_, h⟩)
  intro hmem
  obtain ⟨entry, hentry, hkey⟩ := List.mem_map.mp hmem
  exact List.any_eq_false.mp hnew entry hentry (beq_iff_eq.mpr hkey)

end Table

namespace Session

theorem importFile_nodup {s : Session} (path : String) (line : Nat)
    (h : s.context.unusedImports.keys.Nodup) :
    (s.importFile path line).context.unusedImports.keys.Nodup := by
  unfold importFile
  split
  · exact h
  · dsimp only
    split
    · exact h
    · show (if s.context.unusedImports.contains path then s.context.unusedImports
        else s.context.unusedImports.insert path _).keys.Nodup
      split
      · exact h
      next hnew => exact Table.insert_nodup _ (Bool.eq_false_iff.mpr hnew) h

theorem importItem_nodup {s : Session} (item : Node) (h : s.context.unusedImports.keys.Nodup) :
    (s.importItem item).context.unusedImports.keys.Nodup := by
  unfold importItem
  dsimp only
  split
  · exact h
  · split
    · exact h
    · split
      · exact h
      · split
        · exact importFile_nodup _ _ h
        · exact h

/-- Every import is entered under a path of its own. -/
theorem index_nodup {s : Session} (root : Node) (h : s.context.unusedImports.keys.Nodup) :
    (s.index root).context.unusedImports.keys.Nodup := by
  have hfold (items : List Node) {s : Session} (h : s.context.unusedImports.keys.Nodup) :
      (items.foldl importItem s).context.unusedImports.keys.Nodup := by
    induction items generalizing s with
    | nil => exact h
    | cons item items ih => exact ih (importItem_nodup item h)
  exact hfold _ h

end Session

theorem ImportedFile.leftBy_comm (t : Table ImportedFile) (types more : List String) :
    leftBy (leftBy t types) more = leftBy (leftBy t more) types := by
  unfold leftBy Table.filter
  simp only [List.filter_filter, Bool.and_comm]

namespace Call

/-- The node types that a call marks as used before the end. -/
def marks : Call → List String
  | check a e => Rules.marks a.rule.name e
  | observe _ | finish _ => []

/-- Before the end, an import stops being unused only if one of its types is marked. -/
theorem makeAll_unusedImports {file : Option String} {cs : List Call}
    (hcs : ∀ c ∈ cs, (∃ e, c = observe e) ∨
      ∃ a e, c = check a e ∧ a.rule ∈ Registry.builtin.rules) (s : Session) :
    (makeAll file s cs).2.context.unusedImports =
      ImportedFile.leftBy s.context.unusedImports (cs.flatMap marks) := by
  induction cs generalizing s with
  | nil => exact (ImportedFile.leftBy_nil _).symm
  | cons c cs ih =>
    rw [makeAll_cons, List.flatMap_cons, ImportedFile.leftBy_append]
    dsimp only
    rw [ih fun d hd => hcs d (List.mem_cons_of_mem c hd)]
    congr 1
    rcases hcs c List.mem_cons_self with ⟨e, rfl⟩ | ⟨a, e, rfl, ha⟩
    · rw [marks, ImportedFile.leftBy_nil]
      cases e with
      | token t => exact (s.context.update_entries t).2.2
      | _ => rfl
    · exact (Registry.builtin_confined ha).run_imports a.conf e s

end Call

namespace Rules

/-- Whether a problem says that one of these imports is unused. -/
def saysUnused (paths : List String) (p : Problem) : Bool :=
  paths.any fun path => p.message == "unused import item: " ++ path

theorem head?_append {start : String} {c : Char} (h : start.toList.head? = some c) (rest : String) :
    (start ++ rest).toList.head? = some c := by
  rw [String.toList_append, List.head?_append, h]
  rfl

/-- A message that starts differently does not say that an import is unused. -/
theorem not_saysUnused {ps : List Problem}
    (h : ∀ p ∈ ps, ∃ c, p.message.toList.head? = some c ∧ c ≠ 'u') (paths : List String) :
    ∀ p ∈ ps, saysUnused paths p = false := by
  intro p hp
  obtain ⟨c, hstart, hne⟩ := h p hp
  apply List.any_eq_false.mpr
  intro path _ heq
  have hunused : p.message.toList.head? = some 'u' := by
    rw [eq_of_beq heq]
    exact head?_append rfl path
  rw [hstart] at hunused
  exact hne (Option.some.inj hunused)

theorem forall_mem_onLine {rule message : String} {line : Nat} {c : Char}
    (h : message.toList.head? = some c) (hne : c ≠ 'u') :
    ∀ p ∈ [Problem.onLine rule line message], ∃ c, p.message.toList.head? = some c ∧ c ≠ 'u' := by
  intro p hp
  rw [List.mem_singleton.mp hp]
  exact ⟨c, h, hne⟩

theorem checkImport_start (s : Session) (item : Node) :
    ∀ p ∈ checkImport s item, ∃ c, p.message.toList.head? = some c ∧ c ≠ 'u' := by
  unfold checkImport
  split
  · unfold checkOtherImport
    split
    · intro p hp
      cases hp
    · exact forall_mem_onLine rfl (by decide)
  next text _ =>
    dsimp only
    split
    · unfold checkRemoteImport checkPluginVersion
      split
      · split
        · intro p hp
          cases hp
        · exact forall_mem_onLine (head?_append (head?_append rfl _) _) (by decide)
      · split
        · exact forall_mem_onLine (head?_append rfl _) (by decide)
        · intro p hp
          cases hp
    · unfold checkFileImport
      split
      · exact forall_mem_onLine (head?_append (head?_append rfl _) _) (by decide)
      · split
        · exact forall_mem_onLine (head?_append (head?_append rfl _) _) (by decide)
        · split
          · intro p hp
            cases hp
          · exact forall_mem_onLine (head?_append (head?_append rfl _) _) (by decide)

/-- Checks of imports do not say that an import is unused. -/
theorem checkImports_not_saysUnused (s : Session) (v : NodeVisit) (paths : List String) :
    ∀ p ∈ checkImports s v, saysUnused paths p = false := by
  refine not_saysUnused ?_ paths
  unfold checkImports
  split
  · split
    next items _ =>
      intro p hp
      obtain ⟨item, _, hp⟩ := List.mem_flatMap.mp hp
      exact checkImport_start s item p hp
    · split
      · intro p hp
        cases hp
      · exact forall_mem_onLine rfl (by decide)
  · intro p hp
    cases hp

/-- A session with other unused imports. -/
def withUnusedImports (s : Session) (t : Table ImportedFile) : Session :=
  s.withContext { s.context with unusedImports := t }

/-- The types that node templates have. -/
def usedTypes (c : Context) : List String :=
  c.templates.values.filterMap (·.nodeType)

/-- What is said of an unused import. -/
def unusedImport (a : ActiveRule) (file : Option String) (entry : String × ImportedFile) : Problem :=
  a.sign file (importProblem entry.2.line ("unused import item: " ++ entry.1))

theorem saysUnused_unusedImport (paths : List String) (a : ActiveRule) (file : Option String)
    (entry : String × ImportedFile) :
    saysUnused paths (unusedImport a file entry) = paths.contains entry.1 := by
  unfold saysUnused
  rw [List.contains_eq_any_beq]
  congr 1
  funext path
  show ("unused import item: " ++ entry.1 == "unused import item: " ++ path) = (entry.1 == path)
  rw [Bool.eq_iff_iff, beq_iff_eq, beq_iff_eq]
  constructor
  · intro h
    have hlists := congrArg String.toList h
    rw [String.toList_append, String.toList_append] at hlists
    exact String.toList_inj.mp (List.append_cancel_left hlists)
  · intro h
    rw [h]

end Rules

/-- The paths of the imports that declare one of some types. -/
def ImportedFile.pathsUsedBy (t : Table ImportedFile) (types : List String) : List String :=
  (t.filter fun _ i => types.any i.nodeTypes.contains).keys

/-- An import is left by some types unless its path is among those that are used. -/
theorem ImportedFile.mem_pathsUsedBy {t : Table ImportedFile} (ht : t.keys.Nodup)
    {entry : String × ImportedFile} (hentry : entry ∈ t.entries) (types : List String) :
    (pathsUsedBy t types).contains entry.1 = types.any entry.2.nodeTypes.contains := by
  rw [Bool.eq_iff_iff, List.contains_iff_mem]
  constructor
  · intro h
    obtain ⟨other, hother, hkey⟩ := List.mem_map.mp h
    obtain ⟨hmem, hused⟩ := List.mem_filter.mp hother
    have hsame : other = entry := List.inj_on_of_nodup_map ht hmem hentry hkey
    rw [← hsame]
    exact hused
  · intro h
    exact List.mem_map.mpr ⟨entry, List.mem_filter.mpr ⟨hentry, h⟩, rfl⟩

namespace Call

variable {file : Option String}

theorem make_finish_imports {a : ActiveRule} (ha : a.rule = Rules.imports) (s : Session) :
    let left := ImportedFile.leftBy s.context.unusedImports (Rules.usedTypes s.context)
    make file s (finish a) =
      (left.entries.map (Rules.unusedImport a file), Rules.withUnusedImports s left) := by
  have hfinish : Rules.finishImports a.conf s =
      (((Rules.usedTypes s.context).foldl Context.useType s.context).unusedImports.entries.map
          fun entry => Rules.importProblem entry.2.line ("unused import item: " ++ entry.1),
        s.withContext ((Rules.usedTypes s.context).foldl Context.useType s.context)) := rfl
  show ((a.rule.finish a.conf s).1.map (a.sign file), (a.rule.finish a.conf s).2) = _
  rw [ha]
  show ((Rules.finishImports a.conf s).1.map (a.sign file), (Rules.finishImports a.conf s).2) = _
  rw [hfinish, Context.foldl_useType, List.map_map]
  rfl

/-- At the end, marked types keep the imports that declare them from being reported, and nothing
else. -/
theorem makeAll_finish_imports {active : List ActiveRule}
    (hactive : ∀ a ∈ active, a.rule ∈ Registry.builtin.rules) {t : Table ImportedFile}
    (ht : t.keys.Nodup) (types : List String) {s s' : Session} (h : s.Alike "imports" s')
    (hleft : s.context.unusedImports = ImportedFile.leftBy s'.context.unusedImports types)
    (hsub : s'.context.unusedImports.entries ⊆ t.entries) :
    (makeAll file s (active.map finish)).1.filter (·.rule == "imports") =
      (makeAll file s' ((active.filter (·.rule.name == "imports")).map finish)).1.filter
        (!Rules.saysUnused (ImportedFile.pathsUsedBy t types) ·) := by
  induction active generalizing s s' with
  | nil => rfl
  | cons a active ih =>
    have hrule := hactive a List.mem_cons_self
    have hrest := @ih fun b hb => hactive b (List.mem_cons_of_mem a hb)
    rw [List.map_cons, makeAll_cons, List.filter_append, make_filter]
    cases hname : a.rule.name == "imports" with
    | true =>
      have himports := Registry.eq_of_name hrule Registry.imports_mem (eq_of_beq hname)
      have hused : Rules.usedTypes s.context = Rules.usedTypes s'.context := by
        unfold Rules.usedTypes
        rw [h.templates]
      have hkept : ImportedFile.leftBy s.context.unusedImports (Rules.usedTypes s.context) =
          ImportedFile.leftBy
            (ImportedFile.leftBy s'.context.unusedImports (Rules.usedTypes s'.context)) types := by
        rw [hleft, hused, ImportedFile.leftBy_comm]
      have hkeptSub : (ImportedFile.leftBy s'.context.unusedImports
          (Rules.usedTypes s'.context)).entries ⊆ t.entries :=
        fun entry hentry => hsub (List.mem_filter.mp hentry).1
      have hone : concerns "imports" (finish a) = true := hname
      have hkeep : (a :: active).filter (·.rule.name == "imports") =
          a :: active.filter (·.rule.name == "imports") := List.filter_cons_of_pos hname
      rw [hkeep, List.map_cons, makeAll_cons, List.filter_append, make_finish_imports himports,
        make_finish_imports himports, if_pos hone]
      dsimp only
      have hlast (u u' : Table ImportedFile) :
          (Rules.withUnusedImports s u).Alike "imports" (Rules.withUnusedImports s' u') :=
        h.withContext h.context h.version h.unusedInputs
      revert hkept hkeptSub
      generalize ImportedFile.leftBy s.context.unusedImports _ = left
      generalize ImportedFile.leftBy s'.context.unusedImports _ = left'
      intro hkept hkeptSub
      rw [hrest (hlast left left') hkept hkeptSub, hkept, List.filter_map]
      congr 2
      apply List.filter_congr
      intro entry hentry
      show (!types.any entry.2.nodeTypes.contains) =
        !Rules.saysUnused _ (Rules.unusedImport a file entry)
      rw [Rules.saysUnused_unusedImport, ImportedFile.mem_pathsUsedBy ht (hkeptSub hentry)]
    | false =>
      have hstill : (make file s (finish a)).2 = s :=
        (Registry.builtin_confined hrule).finish_still (ne_of_beq_false hname) a.conf s
      have hdrop : (a :: active).filter (·.rule.name == "imports") =
          active.filter (·.rule.name == "imports") :=
        List.filter_cons_of_neg (Bool.eq_false_iff.mp hname)
      have hnone : concerns "imports" (finish a) = false := hname
      rw [hdrop, hnone, if_neg Bool.false_ne_true, hstill]
      exact hrest h hleft hsub

end Call

end Blueprint
