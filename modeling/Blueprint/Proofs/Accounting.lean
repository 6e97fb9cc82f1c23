import Mathlib.Data.List.TakeWhile
import Blueprint.Lint.Run
import Blueprint.Proofs.DirectiveHistory
import Blueprint.Proofs.Schedule
import Blueprint.Proofs.Sorting

/-!
What the gate lets through: every problem, with the fault of the text in its place among them.
-/

namespace Blueprint.Gate

theorem releaseAll_cons (g : Gate) (p : Problem) (ps : List Problem) :
    g.releaseAll (p :: ps) =
      (((g.release p).1.releaseAll ps).1,
        (g.release p).2 ++ ((g.release p).1.releaseAll ps).2) := rfl

theorem releaseAll_append (g : Gate) (ps qs : List Problem) :
    g.releaseAll (ps ++ qs) =
      (((g.releaseAll ps).1.releaseAll qs).1,
        (g.releaseAll ps).2 ++ ((g.releaseAll ps).1.releaseAll qs).2) := by
  induction ps generalizing g with
  | nil => rfl
  | cons p ps ih =>
    rw [List.cons_append, releaseAll_cons, releaseAll_cons, ih]
    simp only [List.append_assoc]

/-- Everything that the gate lets through, the fault at the end if nothing has released it. -/
def pass (g : Gate) (ps : List Problem) : List Problem :=
  (g.releaseAll ps).2 ++ (g.releaseAll ps).1.toList

theorem releaseAll_none (ps : List Problem) : releaseAll none ps = (none, ps) := by
  induction ps with
  | nil => rfl
  | cons p ps ih =>
    rw [releaseAll_cons, release, ih]
    rfl

theorem pass_none (ps : List Problem) : pass none ps = ps := by
  unfold pass
  rw [releaseAll_none]
  exact List.append_nil ps

def isEarly (fault p : Problem) : Bool :=
  placeLt (place p) (place fault)

/-- The problems from the first on that does not stand before the fault. -/
def late (fault : Problem) (ps : List Problem) : List Problem :=
  ps.dropWhile (isEarly fault)

/-- The late problems without the first of them, if that is at the place of the fault. -/
def behind (fault : Problem) (ps : List Problem) : List Problem :=
  ((late fault ps).take 1).filter (fun p => place p ≠ place fault) ++ (late fault ps).tail

theorem behind_sublist (fault : Problem) (ps : List Problem) :
    (behind fault ps).Sublist (late fault ps) :=
  calc (behind fault ps).Sublist ((late fault ps).take 1 ++ (late fault ps).tail) :=
        List.filter_sublist.append_right _
    _ = late fault ps := by rw [← List.drop_one, List.take_append_drop]

theorem pass_some_eq (fault : Problem) (ps : List Problem) :
    pass (some fault) ps = ps.takeWhile (isEarly fault) ++ fault :: behind fault ps := by
  unfold behind late
  induction ps with
  | nil => rfl
  | cons p ps ih =>
    unfold pass at ih ⊢
    rw [releaseAll_cons, release, ← isEarly]
    by_cases hlt : isEarly fault p = true
    · rw [List.takeWhile_cons_of_pos hlt, List.dropWhile_cons_of_pos hlt, if_pos hlt]
      exact congrArg (p :: ·) ih
    · rw [List.takeWhile_cons_of_neg hlt, List.dropWhile_cons_of_neg hlt, if_neg hlt]
      by_cases heq : place p = place fault
      · rw [if_pos heq, releaseAll_none]
        simp [heq]
      · rw [if_neg heq, releaseAll_none]
        simp [heq]

/-- The fault takes its place behind the problems before it. It strikes out the problem that
releases it, if that is at the same place. -/
theorem pass_some (fault : Problem) (ps : List Problem) :
    ∃ earlier struck later, ps = earlier ++ struck ++ later ∧ struck.length ≤ 1 ∧
      (∀ p ∈ struck, place p = place fault) ∧
      (∀ p ∈ earlier, placeLt (place p) (place fault) = true) ∧
      pass (some fault) ps = earlier ++ fault :: later := by
  have hearlier (p : Problem) (hp : p ∈ ps.takeWhile (isEarly fault)) : isEarly fault p = true :=
    List.mem_takeWhile_imp hp
  have hsplit : ps.takeWhile (isEarly fault) ++ late fault ps = ps :=
    List.takeWhile_append_dropWhile
  rw [pass_some_eq, behind]
  cases hlate : late fault ps with
  | nil =>
    rw [hlate] at hsplit
    exact ⟨_, [], [], by simpa using hsplit.symm, Nat.zero_le 1, by simp, hearlier, rfl⟩
  | cons p rest =>
    rw [hlate] at hsplit
    by_cases heq : place p = place fault
    · exact ⟨_, [p], rest, by simpa using hsplit.symm, Nat.le_refl 1, by simpa using heq, hearlier,
        by simp [heq]⟩
    · exact ⟨_, [], p :: rest, by simpa using hsplit.symm, Nat.zero_le 1, by simp, hearlier,
        by simp [heq]⟩

/-- Of the problems that the gate lets through, those beside the fault are at other places, if that
is so of the late ones behind the first. -/
theorem pass_some_apart (fault : Problem) (ps : List Problem) :
    ∃ earlier later, pass (some fault) ps = earlier ++ fault :: later ∧
      ((∀ p ∈ earlier ++ later, place p ≠ place fault) ↔
        ∀ p ∈ (late fault ps).tail, place p ≠ place fault) := by
  refine ⟨_, _, pass_some_eq fault ps, ?_⟩
  constructor
  · intro h p hp
    exact h p (List.mem_append_right _ (List.mem_append_right _ hp))
  · intro h p hp
    rcases List.mem_append.mp hp with hp | hp
    · intro heq
      have hlt := List.mem_takeWhile_imp hp
      unfold isEarly at hlt
      rw [heq] at hlt
      simp [placeLt] at hlt
    · rcases List.mem_append.mp hp with hp | hp
      · exact of_decide_eq_true (List.mem_filter.mp hp).2
      · exact h p hp

theorem mem_pass {g : Gate} {ps : List Problem} {p : Problem} (h : p ∈ g.pass ps) :
    p ∈ ps ∨ g = some p := by
  cases g with
  | none =>
    rw [pass_none] at h
    exact Or.inl h
  | some fault =>
    obtain ⟨earlier, struck, later, hps, _, _, _, hpass⟩ := pass_some fault ps
    rw [hpass] at h
    rcases List.mem_append.mp h with h | h
    · left
      rw [hps]
      exact List.mem_append_left _ (List.mem_append_left _ h)
    · rcases List.mem_cons.mp h with h | h
      · right
        rw [h]
      · left
        rw [hps]
        exact List.mem_append_right _ h

end Blueprint.Gate

/-!
The account of a run: each problem that a rule reports waits until it is judged, it is judged once,
and what directives withhold depends only on its line and its rule.
-/

namespace Blueprint

namespace Run

theorem take_perm (due : Problem → Bool) (waiting : List Problem) :
    ((take due waiting).1 ++ (take due waiting).2).Perm waiting :=
  ((sortBy_perm _ _).append_right _).trans (List.filter_append_perm due waiting)

theorem mem_take {due : Problem → Bool} {waiting : List Problem} {p : Problem}
    (h : p ∈ (take due waiting).1) : due p = true :=
  (List.mem_filter.mp ((sortBy_perm _ _).mem_iff.mp h)).2

/-- Between two states of a run, the problems that waited and those reported since are judged once
or still wait; the gate gets those that `off` does not withhold. -/
def Accounts (off : Problem → Bool) (r : Run) (reports : List Problem) (r' : Run)
    (yielded : List Problem) : Prop :=
  ∃ judged, (judged ++ r'.waiting).Perm (r.waiting ++ reports) ∧
    r.gate.releaseAll (judged.filter (!off ·)) = (r'.gate, yielded)

variable {off : Problem → Bool} {r : Run}

theorem Accounts.trans {r₁ r₂ : Run} {reports₁ reports₂ yielded₁ yielded₂ : List Problem}
    (h₁ : r.Accounts off reports₁ r₁ yielded₁) (h₂ : r₁.Accounts off reports₂ r₂ yielded₂) :
    r.Accounts off (reports₁ ++ reports₂) r₂ (yielded₁ ++ yielded₂) := by
  obtain ⟨judged₁, hperm₁, hgate₁⟩ := h₁
  obtain ⟨judged₂, hperm₂, hgate₂⟩ := h₂
  refine ⟨judged₁ ++ judged₂, ?_, ?_⟩
  · calc (judged₁ ++ judged₂ ++ r₂.waiting).Perm (judged₁ ++ (r₁.waiting ++ reports₂)) := by
          rw [List.append_assoc]
          exact hperm₂.append_left judged₁
      _ |>.Perm (r.waiting ++ reports₁ ++ reports₂) := by
          rw [← List.append_assoc]
          exact hperm₁.append_right reports₂
      _ = r.waiting ++ (reports₁ ++ reports₂) := List.append_assoc _ _ _
  · rw [List.filter_append, Gate.releaseAll_append, hgate₁, hgate₂]

theorem Accounts.wait {r' : Run} {problems : List Problem} (hw : r'.waiting = r.waiting ++ problems)
    (hg : r'.gate = r.gate) : r.Accounts off problems r' [] :=
  ⟨[], by rw [hw]; rfl, by rw [hg]; rfl⟩

theorem endLine_accounts {n : Nat} (hoff : ∀ p, p.line ≤ n → off p =
      if p.line = n then r.directives.isOff p.rule else r.directives.wasOff p.line p.rule) :
    r.Accounts off [] (r.endLine n).1 (r.endLine n).2 := by
  refine ⟨(take (·.line ≤ n) r.waiting).1, ?_, ?_⟩
  · rw [List.append_nil]
    exact take_perm _ _
  · have hfilter : (take (·.line ≤ n) r.waiting).1.filter (!off ·) =
        (take (·.line ≤ n) r.waiting).1.filter fun p =>
          !(if p.line = n then r.directives.isOff p.rule
            else r.directives.wasOff p.line p.rule) := by
      apply List.filter_congr
      intro p hp
      rw [hoff p (of_decide_eq_true (mem_take hp))]
    rw [hfilter]
    rfl

/-- The run after the rules have seen an element. -/
def reported (active : List ActiveRule) (r : Run) (e : Element) : Run :=
  let found := Call.makeAll r.file r.session (Call.ofElement active e)
  { r with session := found.2, waiting := r.waiting ++ found.1 }

theorem step_eq (active : List ActiveRule) (r : Run) (e : Element) :
    step active r e =
      match e with
      | .comment c =>
        ({ reported active r e with directives := r.directives.readComment c.text c.inline }, [])
      | .line l => (reported active r e).endLine l.number
      | _ => (reported active r e, []) := by
  unfold step reported
  have hcalls := Call.makeAll_ofElement r.file active r.session e
  cases e with
  | _ =>
    dsimp only
    rw [hcalls]

theorem step_state (active : List ActiveRule) (r : Run) (e : Element) :
    (step active r e).1.file = r.file ∧
      (step active r e).1.session =
        (Call.makeAll r.file r.session (Call.ofElement active e)).2 ∧
      (step active r e).1.directives = r.directives.follow e := by
  rw [step_eq]
  cases e with
  | token t => exact ⟨rfl, rfl, rfl⟩
  | node v => exact ⟨rfl, rfl, rfl⟩
  | comment c => exact ⟨rfl, rfl, rfl⟩
  | line l => exact ⟨rfl, rfl, rfl⟩

theorem step_accounts (active : List ActiveRule) {e : Element}
    (hoff : ∀ l, e = .line l → ∀ p, p.line ≤ l.number → off p =
      if p.line = l.number then r.directives.isOff p.rule
      else r.directives.wasOff p.line p.rule) :
    r.Accounts off (Call.makeAll r.file r.session (Call.ofElement active e)).1
      (step active r e).1 (step active r e).2 := by
  rw [step_eq]
  cases e with
  | token t => exact .wait rfl rfl
  | node v => exact .wait rfl rfl
  | comment c => exact .wait rfl rfl
  | line l =>
    have hwait : r.Accounts off _ (reported active r (.line l)) [] := .wait rfl rfl
    simpa using hwait.trans (endLine_accounts (hoff l rfl))

theorem steps_state (active : List ActiveRule) (r : Run) (es : List Element) :
    (steps active r es).1.file = r.file ∧
      (steps active r es).1.session =
        (Call.makeAll r.file r.session (es.flatMap (Call.ofElement active))).2 ∧
      (steps active r es).1.directives = r.directives.followAll es := by
  induction es generalizing r with
  | nil => exact ⟨rfl, rfl, rfl⟩
  | cons e es ih =>
    obtain ⟨hfile, hsession, hdirectives⟩ := step_state active r e
    obtain ⟨hfile', hsession', hdirectives'⟩ := ih (step active r e).1
    rw [List.flatMap_cons, Call.makeAll_append]
    refine ⟨hfile'.trans hfile, ?_, ?_⟩
    · rw [hfile, hsession] at hsession'
      exact hsession'
    · rw [hdirectives] at hdirectives'
      exact hdirectives'

/-- Whether directives withhold a problem, as the last line leaves it. -/
def withheldBy (d : Directives) (p : Problem) : Bool :=
  d.wasOff p.line p.rule

theorem steps_accounts (active : List ActiveRule) {es : List Element} {n k : Nat}
    (hlines : (es.filterMap Element.line?).map (·.number) = List.range' (n + 1) k)
    (hended : r.directives.EndedBy n) :
    r.Accounts (withheldBy (r.directives.followAll es))
      (Call.makeAll r.file r.session (es.flatMap (Call.ofElement active))).1
      (steps active r es).1 (steps active r es).2 := by
  induction es generalizing r n k with
  | nil => exact .wait (List.append_nil _).symm rfl
  | cons e es ih =>
    obtain ⟨hfile, hsession, hdirectives⟩ := step_state active r e
    have hrest := @ih (step active r e).1
    have hfirst {off : Problem → Bool} := @step_accounts off r active e
    rw [List.flatMap_cons, Call.makeAll_append]
    rw [hfile, hsession, hdirectives] at hrest
    cases e with
    | token t => exact (hfirst (fun l hl => by cases hl)).trans (hrest hlines hended)
    | node v => exact (hfirst (fun l hl => by cases hl)).trans (hrest hlines hended)
    | comment c =>
      refine (hfirst (fun l hl => by cases hl)).trans (hrest hlines ?_)
      unfold Directives.EndedBy Directives.follow
      rw [Directives.readComment_history]
      exact hended
    | line l =>
      cases k with
      | zero => cases hlines
      | succ k =>
        rw [List.range'_succ] at hlines
        obtain ⟨hnumber, hlines⟩ := List.cons.inj hlines
        have hnumber : l.number = n + 1 := hnumber
        have hended' : Directives.EndedBy (n + 1) (r.directives.follow (.line l)) := by
          show Directives.EndedBy (n + 1) (r.directives.endLine l.number)
          rw [hnumber]
          exact Directives.endLine_endedBy hended
        refine (hfirst ?_).trans (hrest hlines hended')
        intro l' hl' p hp
        cases hl'
        show ((r.directives.endLine l.number).followAll es).wasOff p.line p.rule = _
        rw [Directives.followAll_wasOff hlines (by omega)]
        split
        next heq => rw [heq, hnumber, Directives.endLine_wasOff_self hended]
        next hne => exact Directives.endLine_wasOff_of_ne hne p.rule

end Run

end Blueprint
