import Mathlib.Logic.Relation
import Mathlib.Data.List.Chain
import Mathlib.Data.List.Nodup
import Mathlib.Data.List.Perm.Subperm
import Blueprint.Lint.Rules.Templates

/-!
The search for a loop of dependencies. It comes to an end for every table, and finds a loop exactly
when one can be reached.
-/

namespace Blueprint.Dependencies

open Relation

/-- A template depends on another one that is a target of its relationships. -/
def DependsOn (d : Dependencies) (name target : String) : Prop :=
  target ∈ d.targets name

instance (d : Dependencies) (name target : String) : Decidable (d.DependsOn name target) :=
  inferInstanceAs (Decidable (target ∈ d.targets name))

/-- Distinct names, each of which goes to the next one, and the last one to the first. -/
structure IsLoop (step : String → String → Prop) (loop : List String) : Prop where
  nonempty : loop ≠ []
  distinct : loop.Nodup
  chain : loop.IsChain step
  closes : step (loop.getLast nonempty) (loop.head nonempty)

/-- A name from which one gets to a name that depends on itself. -/
def LeadsToLoop (d : Dependencies) (name : String) : Prop :=
  ∃ target, ReflTransGen d.DependsOn name target ∧ TransGen d.DependsOn target target

/-- What the search behind names comes to, one name after the other, when they are reached along
`path`. Nothing bounds how deep it goes. -/
inductive Searches (d : Dependencies) : List String → List String → List String → Search → Prop
  | done {path visited} : Searches d path visited [] (none, visited)
  | closes {path visited name rest} (h : name ∈ path) :
      Searches d path visited (name :: rest) (some (path.dropWhile (· != name)), visited)
  | known {path visited name rest result} (h : name ∉ path) (hvisited : name ∈ visited)
      (hrest : Searches d path visited rest result) :
      Searches d path visited (name :: rest) result
  | found {path visited name rest loop seen} (h : name ∉ path) (hnew : name ∉ visited)
      (htargets : Searches d (path ++ [name]) (name :: visited) (d.targets name)
        (some loop, seen)) :
      Searches d path visited (name :: rest) (some loop, seen)
  | passed {path visited name rest seen result} (h : name ∉ path) (hnew : name ∉ visited)
      (htargets : Searches d (path ++ [name]) (name :: visited) (d.targets name) (none, seen))
      (hrest : Searches d path seen rest result) :
      Searches d path visited (name :: rest) result

variable {d : Dependencies} {path visited names : List String} {name : String} {result : Search}

/-! The search ends: along a path every name but the last one is a key, and none comes twice. -/

theorem mem_keys_of_targets (h : d.targets name ≠ []) : name ∈ d.keys := by
  unfold targets Table.get? at h
  cases hlookup : d.entries.lookup name with
  | none =>
    rw [hlookup] at h
    exact absurd rfl h
  | some ts =>
    obtain ⟨before, after, hentries, _⟩ := List.lookup_eq_some_iff.mp hlookup
    unfold Table.keys
    rw [hentries, List.map_append]
    exact List.mem_append_right _ List.mem_cons_self

theorem nodup_append_singleton (hpath : path.Nodup) (h : name ∉ path) :
    (path ++ [name]).Nodup := by
  rw [← List.concat_eq_append]
  exact hpath.concat h

/-- A path that goes on from key to key is followed to its end. -/
theorem searchEach_searches {fuel : Nat} (hpath : path.Nodup) (hkeys : path ⊆ d.keys)
    (hfuel : d.keys.length < path.length + fuel) (visited names : List String) :
    d.Searches path visited names (searchEach (d.searchFrom fuel path) visited names) := by
  induction fuel generalizing path visited names with
  | zero =>
    have hlength := (List.subperm_of_subset hpath hkeys).length_le
    omega
  | succ fuel ih =>
    induction names generalizing visited with
    | nil => exact .done
    | cons name rest ihnames =>
      rw [searchEach, searchFrom]
      by_cases hmem : name ∈ path
      · rw [if_pos hmem]
        exact .closes hmem
      · by_cases hvisited : name ∈ visited
        · rw [if_neg hmem, if_pos hvisited]
          exact .known hmem hvisited (ihnames visited)
        · rw [if_neg hmem, if_neg hvisited]
          have htargets : d.Searches (path ++ [name]) (name :: visited) (d.targets name)
              (searchEach (d.searchFrom fuel (path ++ [name])) (name :: visited)
                (d.targets name)) := by
            by_cases hnone : d.targets name = []
            · rw [hnone]
              exact .done
            · refine ih (nodup_append_singleton hpath hmem) ?_ ?_ _ _
              · intro x hx
                rcases List.mem_append.mp hx with hx | hx
                · exact hkeys hx
                · exact List.mem_singleton.mp hx ▸ mem_keys_of_targets hnone
              · rw [List.length_append, List.length_singleton]
                omega
          split
          next heq =>
            rw [heq] at htargets
            exact .found hmem hvisited htargets
          next heq =>
            rw [heq] at htargets
            exact .passed hmem hvisited htargets (ihnames _)

theorem Searches.unique {other : Search} (h : d.Searches path visited names result)
    (h' : d.Searches path visited names other) : result = other := by
  induction h generalizing other with
  | done =>
    cases h'
    rfl
  | closes hmem =>
    cases h' with
    | closes => rfl
    | known hmem' => exact absurd hmem hmem'
    | found hmem' => exact absurd hmem hmem'
    | passed hmem' => exact absurd hmem hmem'
  | known hmem hvisited _ ih =>
    cases h' with
    | closes hmem' => exact absurd hmem' hmem
    | known _ _ hrest => exact ih hrest
    | found _ hnew => exact absurd hvisited hnew
    | passed _ hnew => exact absurd hvisited hnew
  | found hmem hnew _ ih =>
    cases h' with
    | closes hmem' => exact absurd hmem' hmem
    | known _ hvisited => exact absurd hvisited hnew
    | found _ _ htargets => exact ih htargets
    | passed _ _ htargets => cases ih htargets
  | passed hmem hnew _ _ ihtargets ih =>
    cases h' with
    | closes hmem' => exact absurd hmem' hmem
    | known _ hvisited => exact absurd hvisited hnew
    | found _ _ htargets => cases ihtargets htargets
    | passed _ _ htargets hrest =>
      cases ihtargets htargets
      exact ih hrest

theorem searches_iff :
    d.Searches [] [] [name] result ↔
      result = d.searchFrom (d.entries.length + 2) [] [] name := by
  have hkeys : d.keys.length = d.entries.length := List.length_map _
  have hends : d.Searches [] [] [name]
      (searchEach (d.searchFrom (d.entries.length + 2) []) [] [name]) := by
    refine searchEach_searches List.nodup_nil (List.nil_subset _) ?_ _ _
    rw [hkeys, List.length_nil]
    omega
  have hone : searchEach (d.searchFrom (d.entries.length + 2) []) [] [name] =
      d.searchFrom (d.entries.length + 2) [] [] name := by
    rw [searchEach]
    split
    next heq => exact heq.symm
    next heq => exact heq.symm
  rw [hone] at hends
  exact ⟨fun h => h.unique hends, fun h => h ▸ hends⟩

/-! What is found is a loop. -/

theorem dropWhile_ne (h : name ∈ path) :
    ∃ before after, path = before ++ name :: after ∧
      path.dropWhile (· != name) = name :: after := by
  obtain ⟨before, after, rfl, hbefore⟩ := List.eq_append_cons_of_mem h
  refine ⟨before, after, rfl, ?_⟩
  have hpassed : ∀ x ∈ before, (x != name) = true := fun x hx =>
    bne_iff_ne.mpr fun heq => hbefore (heq ▸ hx)
  rw [List.dropWhile_append_of_pos hpassed, List.dropWhile_cons_of_neg (by simp)]

section Trails

variable {step : String → String → Prop} {start x : String} {loop : List String}

/-- The names that one passes from `start` on, step by step. -/
structure Trail (step : String → String → Prop) (start : String) (names : List String) : Prop where
  start : names.head? = some start
  chain : names.IsChain step

theorem Trail.singleton (step : String → String → Prop) (start : String) :
    Trail step start [start] :=
  ⟨rfl, .singleton start⟩

theorem Trail.reaches (h : Trail step start names) (hx : x ∈ names) :
    ReflTransGen step start x := by
  refine h.chain.induction _ _ (fun _ _ hxy hx => hx.tail hxy) (fun hne => ?_) x hx
  have hhead := h.start
  rw [List.head?_eq_some_head hne] at hhead
  rw [Option.some.inj hhead]

theorem Trail.next {target : String} (h : Trail step start (path ++ [name]))
    (hstep : step name target) : Trail step start (path ++ [name] ++ [target]) := by
  refine ⟨?_, List.isChain_append.mpr ⟨h.chain, .singleton _, ?_⟩⟩
  · rw [List.head?_append, h.start]
    rfl
  · intro x hx y hy
    rw [List.getLast?_concat] at hx
    cases hx
    cases hy
    exact hstep

/-- A trail that comes back to one of its names has run into a loop. -/
theorem Trail.closes (h : Trail step start (path ++ [name])) (hpath : path.Nodup)
    (hname : name ∈ path) :
    IsLoop step (path.dropWhile (· != name)) ∧ name ∈ path.dropWhile (· != name) ∧
      ∀ x ∈ path.dropWhile (· != name), ReflTransGen step start x := by
  obtain ⟨before, after, rfl, hdrop⟩ := dropWhile_ne hname
  rw [hdrop]
  refine ⟨?_, List.mem_cons_self, fun x hx => ?_⟩
  · have hchain := h.chain
    rw [List.append_assoc] at hchain
    obtain ⟨hloop, _, hlast⟩ := List.isChain_append.mp hchain.right_of_append
    refine ⟨List.cons_ne_nil _ _, (List.nodup_append.mp hpath).2.1, hloop, ?_⟩
    exact hlast _ (List.getLast?_eq_some_getLast _) _ rfl
  · exact h.reaches (List.mem_append_left _ (List.mem_append_right before hx))

theorem IsLoop.exists_step (h : IsLoop step loop) (hx : x ∈ loop) : ∃ y ∈ loop, step x y := by
  obtain ⟨before, after, rfl⟩ := List.append_of_mem hx
  cases after with
  | nil =>
    have hclose := h.closes
    rw [List.getLast_append_singleton] at hclose
    exact ⟨_, List.head_mem h.nonempty, hclose⟩
  | cons y after =>
    refine ⟨y, List.mem_append_right before (List.mem_cons_of_mem x List.mem_cons_self), ?_⟩
    exact (List.isChain_append.mp h.chain).2.1.rel

theorem IsLoop.returns (h : IsLoop step loop) (hx : x ∈ loop) : TransGen step x x := by
  have hforth : ReflTransGen step (loop.head h.nonempty) x :=
    Trail.reaches ⟨List.head?_eq_some_head h.nonempty, h.chain⟩ hx
  have hback : ReflTransGen step x (loop.getLast h.nonempty) := by
    obtain ⟨before, after, rfl⟩ := List.append_of_mem hx
    rw [List.getLast_append_of_ne_nil _ (List.cons_ne_nil x after)]
    exact Trail.reaches ⟨rfl, h.chain.right_of_append⟩ (List.getLast_mem _)
  exact (TransGen.tail' hback h.closes).trans_left hforth

end Trails

theorem Searches.isLoop {start : String} (h : d.Searches path visited names result)
    (hpath : path.Nodup) (hnames : ∀ name ∈ names, Trail d.DependsOn start (path ++ [name])) :
    ∀ loop ∈ result.1, IsLoop d.DependsOn loop ∧ ∀ x ∈ loop, ReflTransGen d.DependsOn start x := by
  induction h with
  | done => exact fun _ h => nomatch h
  | closes hmem =>
    intro loop hloop
    cases hloop
    obtain ⟨hisLoop, _, hreach⟩ := (hnames _ List.mem_cons_self).closes hpath hmem
    exact ⟨hisLoop, hreach⟩
  | known _ _ _ ih => exact ih hpath fun x hx => hnames x (List.mem_cons_of_mem _ hx)
  | found hmem _ _ ih =>
    refine ih (nodup_append_singleton hpath hmem) fun target htarget => ?_
    exact (hnames _ List.mem_cons_self).next htarget
  | passed _ _ _ _ _ ih => exact ih hpath fun x hx => hnames x (List.mem_cons_of_mem _ hx)

/-! What has been visited and left is on no loop, and depends only on such names. -/

/-- The visited names that are not on the path are settled: none of them is on a loop, and their
targets are among them. -/
def Settled (d : Dependencies) (path visited : List String) : Prop :=
  ∀ name ∈ visited, name ∉ path →
    ¬ TransGen d.DependsOn name name ∧ ∀ target ∈ d.targets name, target ∈ visited ∧ target ∉ path

theorem Settled.reaches (h : d.Settled path visited) {name target : String} (hname : name ∈ visited)
    (hpath : name ∉ path) (hreach : ReflTransGen d.DependsOn name target) :
    target ∈ visited ∧ target ∉ path := by
  induction hreach with
  | refl => exact ⟨hname, hpath⟩
  | tail _ hstep ih => exact (h _ ih.1 ih.2).2 _ hstep

theorem Settled.enter (h : d.Settled path visited) (hnew : name ∉ visited) :
    d.Settled (path ++ [name]) (name :: visited) := by
  intro x hx hxpath
  have hxname : x ≠ name := fun heq =>
    hxpath (List.mem_append_right _ (heq ▸ List.mem_singleton_self x))
  obtain ⟨hloop, htargets⟩ := h x ((List.mem_cons.mp hx).resolve_left hxname)
    fun hmem => hxpath (List.mem_append_left _ hmem)
  refine ⟨hloop, fun target htarget => ?_⟩
  obtain ⟨hvisited, hpath⟩ := htargets target htarget
  refine ⟨List.mem_cons_of_mem _ hvisited, fun hmem => ?_⟩
  rcases List.mem_append.mp hmem with hmem | hmem
  · exact hpath hmem
  · exact hnew (List.mem_singleton.mp hmem ▸ hvisited)

theorem Settled.leave {seen : List String} (h : d.Settled (path ++ [name]) seen)
    (htargets : ∀ target ∈ d.targets name, target ∈ seen ∧ target ∉ path ++ [name]) :
    d.Settled path seen := by
  have hoff {x : String} (hx : x ∉ path ++ [name]) : x ∉ path := fun hmem =>
    hx (List.mem_append_left _ hmem)
  intro x hx hxpath
  by_cases hname : x = name
  · subst hname
    refine ⟨fun hloop => ?_, fun target htarget => ?_⟩
    · -- A loop through the name would lead back to it from one of its targets, all of which are
      -- settled without it.
      obtain ⟨target, htarget, hback⟩ := TransGen.head'_iff.mp hloop
      obtain ⟨hseen, hout⟩ := htargets target htarget
      exact (h.reaches hseen hout hback).2 (List.mem_append_right _ (List.mem_singleton_self x))
    · obtain ⟨hseen, hout⟩ := htargets target htarget
      exact ⟨hseen, hoff hout⟩
  · have hout : x ∉ path ++ [name] := fun hmem =>
      (List.mem_append.mp hmem).elim hxpath fun hmem => hname (List.mem_singleton.mp hmem)
    obtain ⟨hloop, hclosed⟩ := h x hx hout
    refine ⟨hloop, fun target htarget => ?_⟩
    obtain ⟨hseen, htargetout⟩ := hclosed target htarget
    exact ⟨hseen, hoff htargetout⟩

/-- A search that finds no loop settles the names that it starts from. -/
theorem Searches.settled (h : d.Searches path visited names result) (hnone : result.1 = none)
    (hsettled : d.Settled path visited) :
    visited ⊆ result.2 ∧ d.Settled path result.2 ∧
      ∀ name ∈ names, name ∈ result.2 ∧ name ∉ path := by
  induction h with
  | done => exact ⟨List.Subset.refl _, hsettled, fun _ h => nomatch h⟩
  | closes => cases hnone
  | known hmem hvisited _ ih =>
    obtain ⟨hsub, hleft, hrest⟩ := ih hnone hsettled
    exact ⟨hsub, hleft, List.forall_mem_cons.mpr ⟨⟨hsub hvisited, hmem⟩, hrest⟩⟩
  | found => cases hnone
  | passed hmem hnew _ _ ihtargets ihrest =>
    obtain ⟨hsub, hinner, htargets⟩ := ihtargets rfl (hsettled.enter hnew)
    obtain ⟨hsubrest, hleft, hrest⟩ := ihrest hnone (hinner.leave htargets)
    have hname := hsubrest (hsub List.mem_cons_self)
    refine ⟨fun x hx => hsubrest (hsub (List.mem_cons_of_mem _ hx)), hleft, ?_⟩
    exact List.forall_mem_cons.mpr ⟨⟨hname, hmem⟩, hrest⟩

theorem Settled.not_leads (h : d.Settled path visited) (hname : name ∈ visited)
    (hpath : name ∉ path) : ¬ d.LeadsToLoop name := by
  rintro ⟨target, hreach, hloop⟩
  obtain ⟨hvisited, hout⟩ := h.reaches hname hpath hreach
  exact (h target hvisited hout).1 hloop

theorem not_leads_of_none (hnone : d.loopFrom? name = none) : ¬ d.LeadsToLoop name := by
  obtain ⟨_, hsettled, hname⟩ := (searches_iff.mpr rfl).settled hnone fun _ h => nomatch h
  obtain ⟨hvisited, hpath⟩ := hname name (List.mem_singleton_self name)
  exact hsettled.not_leads hvisited hpath

theorem isLoop_of_loopFrom? {loop : List String} (h : d.loopFrom? name = some loop) :
    IsLoop d.DependsOn loop ∧ ∀ x ∈ loop, ReflTransGen d.DependsOn name x := by
  refine (searches_iff.mpr rfl).isLoop List.nodup_nil (fun x hx => ?_) loop h
  rw [List.mem_singleton.mp hx]
  exact .singleton _ name

theorem loopFrom?_isSome : (d.loopFrom? name).isSome ↔ d.LeadsToLoop name := by
  constructor
  · intro hsome
    obtain ⟨loop, hloop⟩ := Option.isSome_iff_exists.mp hsome
    obtain ⟨hisLoop, hreach⟩ := isLoop_of_loopFrom? hloop
    have hhead := List.head_mem hisLoop.nonempty
    exact ⟨_, hreach _ hhead, hisLoop.returns hhead⟩
  · intro hleads
    by_contra hnone
    exact not_leads_of_none (Option.not_isSome_iff_eq_none.mp hnone) hleads

/-- The search for a loop behind a name ends, whatever the table and the name, and with a single
result. It finds a loop if and only if one can be reached along the dependencies, and what it finds
is a loop that can be reached. -/
theorem loopFrom?_decides (d : Dependencies) (name : String) :
    (∃ seen, ∀ result, d.Searches [] [] [name] result ↔ result = (d.loopFrom? name, seen)) ∧
      ((d.loopFrom? name).isSome ↔ d.LeadsToLoop name) ∧
      ∀ loop ∈ d.loopFrom? name,
        IsLoop d.DependsOn loop ∧ ∀ x ∈ loop, ReflTransGen d.DependsOn name x :=
  ⟨⟨_, fun _ => searches_iff⟩, loopFrom?_isSome, fun _ => isLoop_of_loopFrom?⟩

example :
    let d : Dependencies := ⟨[("a", ["b"]), ("b", ["c"]), ("c", ["b"])]⟩
    d.loopFrom? "a" = some ["b", "c"] ∧ d.loopFrom? "d" = none := by
  decide

end Blueprint.Dependencies
