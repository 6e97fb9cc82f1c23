import Mathlib.Data.List.Sort
import Mathlib.Data.String.Basic
import Blueprint.Proofs.DependencySearch
import Blueprint.Proofs.Sorting

/-!
The loops of dependencies that are reported. Each of them is a loop, and no two have the same
members; but a template on a loop may be left out when another loop can be reached without it.
-/

namespace Blueprint

namespace Dependencies

open Relation

variable {d : Dependencies} {name : String} {loop : List String}

/-! Loops are told apart by their members. -/

theorem sortedNames_perm (names : List String) : (sortedNames names).Perm names :=
  sortBy_perm _ names

theorem sortedNames_pairwise (names : List String) : (sortedNames names).Pairwise (· ≤ ·) := by
  have horder : StrictOrder fun a b : String => decide (a < b) := by
    refine ⟨fun h => ?_, fun h h' => ?_⟩
    · exact decide_eq_false (lt_asymm (of_decide_eq_true h))
    · exact decide_eq_true (lt_of_lt_of_le (of_decide_eq_true h)
        (not_lt.mp (of_decide_eq_false h')))
  exact (foldl_insertSorted_pairwise horder names List.Pairwise.nil).imp fun h =>
    not_lt.mp (of_decide_eq_false h)

theorem sortedNames_eq_iff {names others : List String} (h : names.Nodup) (h' : others.Nodup) :
    sortedNames names = sortedNames others ↔ ∀ x, x ∈ names ↔ x ∈ others := by
  constructor
  · intro heq x
    rw [← (sortedNames_perm names).mem_iff, heq, (sortedNames_perm others).mem_iff]
  · intro hsame
    have hperm : names.Perm others := (List.perm_ext_iff_of_nodup h h').mpr hsame
    exact ((sortedNames_perm names).trans
      (hperm.trans (sortedNames_perm others).symm)).eq_of_pairwise'
        (sortedNames_pairwise names) (sortedNames_pairwise others)

/-! The loops behind a list of names. -/

variable {known : List (List String)} {names : List String}

theorem loopsFrom_cons_some (hloop : d.loopFrom? name = some loop) (r : List String) :
    d.loopsFrom known (name :: r) =
      if sortedNames loop ∈ known then d.loopsFrom known r
      else loop :: d.loopsFrom (sortedNames loop :: known) r := by
  rw [loopsFrom, hloop]

theorem loopsFrom_cons_none (hnone : d.loopFrom? name = none) (r : List String) :
    d.loopsFrom known (name :: r) = d.loopsFrom known r := by
  rw [loopsFrom, hnone]

theorem mem_loopsFrom (h : loop ∈ d.loopsFrom known names) :
    (∃ name ∈ names, d.loopFrom? name = some loop) ∧ sortedNames loop ∉ known := by
  induction names generalizing known with
  | nil => cases h
  | cons name r ih =>
    have hlater {others : List (List String)} (h : loop ∈ d.loopsFrom others r) :
        (∃ x ∈ name :: r, d.loopFrom? x = some loop) ∧ sortedNames loop ∉ others := by
      obtain ⟨⟨x, hx, hloop⟩, hnew⟩ := ih h
      exact ⟨⟨x, List.mem_cons_of_mem name hx, hloop⟩, hnew⟩
    cases hfound : d.loopFrom? name with
    | none =>
      rw [loopsFrom_cons_none hfound] at h
      exact hlater h
    | some found =>
      rw [loopsFrom_cons_some hfound] at h
      split at h
      · exact hlater h
      next hnew =>
        rcases List.mem_cons.mp h with rfl | h
        · exact ⟨⟨name, List.mem_cons_self, hfound⟩, hnew⟩
        · obtain ⟨hx, hothers⟩ := hlater h
          exact ⟨hx, List.not_mem_of_not_mem_cons hothers⟩

theorem loopsFrom_pairwise (d : Dependencies) (known : List (List String)) (names : List String) :
    (d.loopsFrom known names).Pairwise fun a b => sortedNames a ≠ sortedNames b := by
  induction names generalizing known with
  | nil => exact List.Pairwise.nil
  | cons name r ih =>
    cases hfound : d.loopFrom? name with
    | none =>
      rw [loopsFrom_cons_none hfound]
      exact ih known
    | some found =>
      rw [loopsFrom_cons_some hfound]
      split
      · exact ih known
      · refine List.pairwise_cons.mpr ⟨fun other hother heq => ?_, ih _⟩
        exact (mem_loopsFrom hother).2 (heq ▸ List.mem_cons_self)

/-- The loop that is found from a name is among them, up to the order of its members, unless it is
known. -/
theorem exists_mem_loopsFrom (known : List (List String)) (hname : name ∈ names)
    (hloop : d.loopFrom? name = some loop) :
    sortedNames loop ∈ known ∨
      ∃ found ∈ d.loopsFrom known names, sortedNames found = sortedNames loop := by
  induction names generalizing known with
  | nil => cases hname
  | cons first r ih =>
    cases hfound : d.loopFrom? first with
    | none =>
      rw [loopsFrom_cons_none hfound]
      rcases List.mem_cons.mp hname with rfl | hname
      · rw [hloop] at hfound
        cases hfound
      · exact ih known hname
    | some found =>
      rw [loopsFrom_cons_some hfound]
      rcases List.mem_cons.mp hname with rfl | hname
      · cases hloop.symm.trans hfound
        split
        next hknown => exact .inl hknown
        · exact .inr ⟨loop, List.mem_cons_self, rfl⟩
      · split
        · exact ih known hname
        · rcases ih _ hname with hknown | ⟨other, hother, heq⟩
          · rcases List.mem_cons.mp hknown with heq | hknown
            · exact .inr ⟨found, List.mem_cons_self, heq.symm⟩
            · exact .inl hknown
          · exact .inr ⟨other, List.mem_cons_of_mem found hother, heq⟩

/-! Where the search goes. Names that lead to no loop are left behind, so it follows the first
target that leads to one. -/

instance (d : Dependencies) : DecidablePred d.LeadsToLoop := fun _ =>
  decidable_of_iff _ loopFrom?_isSome

/-- The first target of a name that leads to a loop. -/
def next? (d : Dependencies) (name : String) : Option String :=
  (d.targets name).find? (d.LeadsToLoop ·)

def Follows (d : Dependencies) (name target : String) : Prop :=
  d.next? name = some target

variable {path visited : List String} {result : Search} {start : String}

theorem Follows.dependsOn {target : String} (h : d.Follows name target) :
    d.DependsOn name target :=
  List.mem_of_find?_eq_some h

/-- A loop that is found can be reached from one of the names. -/
theorem Searches.exists_reaches (h : d.Searches path visited names result) :
    ∀ loop ∈ result.1, ∃ x ∈ names, ∃ y ∈ loop, ReflTransGen d.DependsOn x y := by
  induction h with
  | done => exact fun _ h => nomatch h
  | @closes path _ name _ hmem =>
    intro loop hloop
    cases hloop
    obtain ⟨_, _, _, hdrop⟩ := dropWhile_ne hmem
    exact ⟨name, List.mem_cons_self, name, hdrop ▸ List.mem_cons_self, .refl⟩
  | known _ _ _ ih =>
    intro loop hloop
    obtain ⟨x, hx, hreach⟩ := ih loop hloop
    exact ⟨x, List.mem_cons_of_mem _ hx, hreach⟩
  | found _ _ _ ih =>
    intro loop hloop
    obtain ⟨x, hx, y, hy, hreach⟩ := ih loop hloop
    exact ⟨_, List.mem_cons_self, y, hy, hreach.head hx⟩
  | passed _ _ _ _ _ ih =>
    intro loop hloop
    obtain ⟨x, hx, hreach⟩ := ih loop hloop
    exact ⟨x, List.mem_cons_of_mem _ hx, hreach⟩

theorem Searches.follows (h : d.Searches path visited names result) (hpath : path.Nodup)
    (hsettled : d.Settled path visited)
    (hnames : ∀ x ∈ names, Trail d.DependsOn start (path ++ [x]))
    (hnext : ∀ x, names.find? (d.LeadsToLoop ·) = some x → Trail d.Follows start (path ++ [x])) :
    ∀ loop ∈ result.1, IsLoop d.Follows loop ∧ ∀ x ∈ loop, ReflTransGen d.Follows start x := by
  induction h with
  | done => exact fun _ h => nomatch h
  | closes hmem =>
    intro loop hloop
    cases hloop
    obtain ⟨hisLoop, hself, _⟩ := (hnames _ List.mem_cons_self).closes hpath hmem
    have hleads : d.LeadsToLoop _ := ⟨_, .refl, hisLoop.returns hself⟩
    obtain ⟨hfollows, _, hreach⟩ :=
      (hnext _ (List.find?_cons_of_pos (decide_eq_true hleads))).closes hpath hmem
    exact ⟨hfollows, hreach⟩
  | known hmem hvisited _ ih =>
    have hleads := hsettled.not_leads hvisited hmem
    refine ih hpath hsettled (fun x hx => hnames x (List.mem_cons_of_mem _ hx)) fun x hx => ?_
    exact hnext x ((List.find?_cons_of_neg (by simpa using hleads)).trans hx)
  | found hmem hnew htargets ih =>
    intro loop hloop
    have hnodup := nodup_append_singleton hpath hmem
    have htrails := fun x (hx : x ∈ d.targets _) => (hnames _ List.mem_cons_self).next hx
    obtain ⟨hisLoop, _⟩ := htargets.isLoop hnodup htrails loop hloop
    obtain ⟨x, hx, y, hy, hreach⟩ := htargets.exists_reaches loop hloop
    have hleads : d.LeadsToLoop _ := ⟨y, hreach.head hx, hisLoop.returns hy⟩
    have htrail := hnext _ (List.find?_cons_of_pos (decide_eq_true hleads))
    exact ih hnodup (hsettled.enter hnew) htrails (fun x hx => htrail.next hx) loop hloop
  | passed hmem hnew htargets _ _ ih =>
    obtain ⟨hsub, hinner, htried⟩ := htargets.settled rfl (hsettled.enter hnew)
    have hleft := hinner.leave htried
    have hleads := hleft.not_leads (hsub List.mem_cons_self) hmem
    refine ih hpath hleft (fun x hx => hnames x (List.mem_cons_of_mem _ hx)) fun x hx => ?_
    exact hnext x ((List.find?_cons_of_neg (by simpa using hleads)).trans hx)

/-- A loop that is found goes from each name to its first target that leads to a loop. -/
theorem follows_of_loopFrom? (h : d.loopFrom? name = some loop) :
    IsLoop d.Follows loop ∧ ∀ x ∈ loop, ReflTransGen d.Follows name x := by
  have hstart (step : String → String → Prop) {x : String} (hx : x ∈ [name]) :
      Trail step name ([] ++ [x]) := by
    rw [List.mem_singleton.mp hx]
    exact .singleton step name
  exact (searches_iff.mpr rfl).follows List.nodup_nil (fun _ h => nomatch h)
    (fun _ hx => hstart _ hx) (fun _ hx => hstart _ (List.mem_of_find?_eq_some hx)) loop h

theorem Follows.mem_of_reaches {x y : String} (hloop : IsLoop d.Follows loop) (hx : x ∈ loop)
    (h : ReflTransGen d.Follows x y) : y ∈ loop := by
  induction h with
  | refl => exact hx
  | tail _ hstep ih =>
    obtain ⟨z, hz, hnext⟩ := hloop.exists_step ih
    cases hstep.symm.trans hnext
    exact hz

/-- Nothing leads away from a name to which one comes back. -/
theorem Follows.back {x : String} (hname : TransGen d.Follows name name)
    (h : ReflTransGen d.Follows name x) : ReflTransGen d.Follows x name := by
  induction h with
  | refl => exact .refl
  | tail _ hstep ih =>
    rcases ih.cases_head with rfl | ⟨y, hnext, hback⟩
    · obtain ⟨y, hnext, hback⟩ := TransGen.head'_iff.mp hname
      cases hstep.symm.trans hnext
      exact hback
    · cases hstep.symm.trans hnext
      exact hback

theorem isLoop_of_mem_loops (h : loop ∈ d.loops) : IsLoop d.DependsOn loop := by
  obtain ⟨⟨_, _, hloop⟩, _⟩ := mem_loopsFrom h
  exact (isLoop_of_loopFrom? hloop).1

theorem loops_pairwise (d : Dependencies) :
    d.loops.Pairwise fun a b => ¬ ∀ x, x ∈ a ↔ x ∈ b := by
  refine (loopsFrom_pairwise d [] d.keys).imp_of_mem fun ha hb hne hsame => hne ?_
  have hdistinct {loop : List String} (h : loop ∈ d.loops) := (isLoop_of_mem_loops h).distinct
  exact (sortedNames_eq_iff (hdistinct ha) (hdistinct hb)).mpr hsame

/-- The loop that is found from a name on a loop is reported. -/
theorem exists_mem_loops (h : TransGen d.DependsOn name name) :
    ∃ loop ∈ d.loops, ∃ found, d.loopFrom? name = some found ∧ ∀ x, x ∈ loop ↔ x ∈ found := by
  obtain ⟨target, htarget, _⟩ := TransGen.head'_iff.mp h
  have hkey : name ∈ d.keys := mem_keys_of_targets (List.ne_nil_of_mem htarget)
  obtain ⟨found, hfound⟩ := Option.isSome_iff_exists.mp (loopFrom?_isSome.mpr ⟨name, .refl, h⟩)
  rcases exists_mem_loopsFrom [] hkey hfound with hknown | ⟨loop, hloop, heq⟩
  · cases hknown
  · have hdistinct := (isLoop_of_mem_loops hloop).distinct
    exact ⟨loop, hloop, found, hfound,
      (sortedNames_eq_iff hdistinct (isLoop_of_loopFrom? hfound).1.distinct).mp heq⟩

/-- The members of the loops that are reported. -/
theorem exists_mem_loops_iff :
    (∃ loop ∈ d.loops, name ∈ loop) ↔ TransGen d.Follows name name := by
  constructor
  · rintro ⟨loop, hloop, hname⟩
    obtain ⟨⟨_, _, hfound⟩, _⟩ := mem_loopsFrom hloop
    exact (follows_of_loopFrom? hfound).1.returns hname
  · intro hname
    have hdepends : TransGen d.DependsOn name name :=
      TransGen.mono (fun _ _ => Follows.dependsOn) _ _ hname
    obtain ⟨loop, hloop, found, hfound, hsame⟩ := exists_mem_loops hdepends
    refine ⟨loop, hloop, (hsame name).mpr ?_⟩
    obtain ⟨hisLoop, hreach⟩ := follows_of_loopFrom? hfound
    have hhead := List.head_mem hisLoop.nonempty
    exact Follows.mem_of_reaches hisLoop hhead (Follows.back hname (hreach _ hhead))

end Dependencies

namespace Rules

open Relation

/-- The templates with the targets of their relationships. -/
def dependencies (templates : Table TemplateInfo) : Dependencies :=
  ⟨templates.entries.map fun (name, t) => (name, t.targets)⟩

/-- The report of a loop, at the last line of its templates. -/
def loopProblem (templates : Table TemplateInfo) (loop : List String) : Problem :=
  let lines := loop.filterMap fun name => (templates.get? name).map (·.line)
  templateProblem (lines.foldl max 0)
    ("A dependency loop consistent of " ++ Vocabulary.inBrackets loop ++ " was identified.")

/-- What is reported are loops, no two of them with the same members. From each template on a loop
one gets to a loop that is reported. The template is itself a member of one if and only if one comes
back to it by going from each template to the first of its targets that leads to a loop. -/
theorem checkLoops_reports (templates : Table TemplateInfo) :
    let d := dependencies templates
    checkLoops templates = d.loops.map (loopProblem templates) ∧
      (∀ loop ∈ d.loops, Dependencies.IsLoop d.DependsOn loop) ∧
      d.loops.Pairwise (fun a b => ¬ ∀ x, x ∈ a ↔ x ∈ b) ∧
      (∀ name, TransGen d.DependsOn name name →
        ∃ loop ∈ d.loops, ∀ x ∈ loop, ReflTransGen d.DependsOn name x) ∧
      ∀ name, (∃ loop ∈ d.loops, name ∈ loop) ↔ TransGen d.Follows name name := by
  intro d
  refine ⟨rfl, fun _ => Dependencies.isLoop_of_mem_loops, d.loops_pairwise, fun name hname => ?_,
    fun _ => Dependencies.exists_mem_loops_iff⟩
  obtain ⟨loop, hloop, found, hfound, hsame⟩ := Dependencies.exists_mem_loops hname
  exact ⟨loop, hloop, fun x hx =>
    (Dependencies.isLoop_of_loopFrom? hfound).2 x ((hsame x).mp hx)⟩

/-- Of two loops with a common template only one is reported: `c` and `b` depend on each other, but
`b` has `a` as its first target, and `a` depends on `b` as well. -/
theorem checkLoops_misses_second :
    let info (line : Nat) (targets : List String) : TemplateInfo := ⟨line, none, targets⟩
    let templates : Table TemplateInfo :=
      ⟨[("a", info 2 ["b"]), ("b", info 3 ["a", "c"]), ("c", info 4 ["b"])]⟩
    let d := dependencies templates
    TransGen d.DependsOn "c" "c" ∧ checkLoops templates = [loopProblem templates ["a", "b"]] ∧
      ¬ ∃ loop ∈ d.loops, "c" ∈ loop := by
  intro info templates d
  have hforth : d.DependsOn "c" "b" := by decide
  have hback : d.DependsOn "b" "c" := by decide
  have hloops : d.loops = [["a", "b"]] := by decide
  refine ⟨.tail (.single hforth) hback, congrArg (List.map (loopProblem templates)) hloops, ?_⟩
  rw [hloops]
  decide

end Rules

end Blueprint
