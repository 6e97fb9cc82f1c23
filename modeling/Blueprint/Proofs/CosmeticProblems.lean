import Blueprint.Lint.Registry
import Blueprint.Proofs.CosmeticRepair
import Blueprint.Proofs.FaultPlace
import Blueprint.Proofs.RunAccount

/-!
The problems that a run reports for the rules about spacing and spelling need nothing but their
place to be repaired.
-/

namespace Blueprint

/-- Whether repairs of these problems need nothing but their place. -/
def InPlace (ps : List Problem) : Prop :=
  ∀ p ∈ ps, p.repair = none

theorem InPlace.nil : InPlace [] := by
  intro p hp
  cases hp

theorem InPlace.singleton {p : Problem} (h : p.repair = none) : InPlace [p] := by
  intro q hq
  rw [List.mem_singleton.mp hq]
  exact h

theorem InPlace.ite {c : Prop} [Decidable c] {ps qs : List Problem} (hp : InPlace ps)
    (hq : InPlace qs) : InPlace (if c then ps else qs) := by
  split
  · exact hp
  · exact hq

theorem InPlace.append {ps qs : List Problem} (hp : InPlace ps) (hq : InPlace qs) :
    InPlace (ps ++ qs) := by
  intro p h
  rcases List.mem_append.mp h with h | h
  · exact hp p h
  · exact hq p h

theorem InPlace.map {α : Type} {f : α → Problem} (h : ∀ x, (f x).repair = none) (xs : List α) :
    InPlace (xs.map f) := by
  intro p hp
  obtain ⟨x, _, rfl⟩ := List.mem_map.mp hp
  exact h x

theorem InPlace.flatMap {α : Type} {f : α → List Problem} (h : ∀ x, InPlace (f x)) (xs : List α) :
    InPlace (xs.flatMap f) := by
  intro p hp
  obtain ⟨x, _, hp⟩ := List.mem_flatMap.mp hp
  exact h x p hp

theorem InPlace.toList {α : Type} {f : α → Problem} (h : ∀ x, (f x).repair = none) (x : Option α) :
    InPlace (x.map f).toList := by
  cases x with
  | none => exact .nil
  | some x => exact .singleton (h x)

theorem InPlace.asFixable {ps : List Problem} (h : InPlace ps) :
    InPlace (ps.map Problem.asFixable) := by
  intro p hp
  obtain ⟨q, hq, rfl⟩ := List.mem_map.mp hp
  exact h q hq

namespace Spacing

theorem check_inPlace (b : Spacing) (rule : String) (spaces : Int) (line column : Nat) :
    InPlace (b.check rule spaces line column) := by
  unfold check
  split
  · exact .singleton rfl
  · split
    · exact .singleton rfl
    · exact .nil

theorem after_inPlace (b : Spacing) (rule : String) (l : Lexeme) (next : Option Lexeme) :
    InPlace (b.after rule l next) := by
  unfold after
  split
  · split
    · exact check_inPlace _ _ _ _ _
    · exact .nil
  · exact .nil

theorem before_inPlace (b : Spacing) (rule : String) (l : Lexeme) (prev : Option Lexeme) :
    InPlace (b.before rule l prev) := by
  unfold before
  split
  · dsimp only
    split
    · exact check_inPlace _ _ _ _ _
    · exact .nil
  · exact .nil

end Spacing

theorem Delimiters.check_inPlace (d : Delimiters) (c : RuleSettings) (t : TokenView) :
    InPlace (d.check c t) := by
  unfold check
  apply InPlace.asFixable
  unfold problems
  split
  · exact Spacing.after_inPlace _ _ _ _
  · split
    · exact Spacing.before_inPlace _ _ _ _
    · exact .nil

namespace Rules

theorem colonProblems_inPlace (c : RuleSettings) (t : TokenView) :
    InPlace (colonProblems c t) := by
  unfold colonProblems
  split
  · split
    · exact .nil
    · exact .append (Spacing.before_inPlace _ _ _ _) (Spacing.after_inPlace _ _ _ _)
  · split
    · exact Spacing.after_inPlace _ _ _ _
    · exact .nil
  · exact .nil

theorem commaProblems_inPlace (c : RuleSettings) (t : TokenView) :
    InPlace (commaProblems c t) := by
  unfold commaProblems
  split
  · refine .append ?_ (Spacing.after_inPlace _ _ _ _)
    unfold beforeComma
    dsimp only
    split
    · exact .singleton rfl
    · exact Spacing.before_inPlace _ _ _ _
  · exact .nil

theorem checkTruth_inPlace (c : RuleSettings) (t : TokenView) : InPlace (checkTruth c t) := by
  unfold checkTruth
  split
  · exact .singleton rfl
  · exact .nil

theorem checkBlankLines_inPlace (c : RuleSettings) (l : Line) :
    InPlace (checkBlankLines c l) := by
  unfold checkBlankLines
  exact .ite .nil (.ite .nil (.ite (.singleton rfl) .nil))

theorem checkLineEnding_inPlace (c : RuleSettings) (l : Line) :
    InPlace (checkLineEnding c l) := by
  unfold checkLineEnding
  dsimp only
  split
  · exact .nil
  · exact .singleton rfl

theorem checkLineEnd_inPlace (c : RuleSettings) (l : Line) : InPlace (checkLineEnd c l) := by
  unfold checkLineEnd
  dsimp only
  split
  · split
    · exact .singleton rfl
    · exact .nil
  · exact .nil

theorem checkEmptyValue_inPlace (c : RuleSettings) (t : TokenView) :
    InPlace (checkEmptyValue c t) := by
  unfold checkEmptyValue
  exact .ite (.toList (fun _ => rfl) _) .nil

theorem checkIndentation_inPlace (c : RuleSettings) (t : TokenView) (s : Session) :
    InPlace (checkIndentation c t s).1 :=
  .toList (fun _ => rfl) _

theorem hyphenProblems_inPlace (c : RuleSettings) (t : TokenView) :
    InPlace (hyphenProblems c t) := by
  unfold hyphenProblems
  exact .ite (Spacing.after_inPlace _ _ _ _) .nil

theorem checkLength_inPlace (c : RuleSettings) (l : Line) : InPlace (checkLength c l) := by
  unfold checkLength
  exact .ite .nil (.singleton rfl)

theorem checkComment_inPlace (c : RuleSettings) (x : Comment) :
    InPlace (checkDistance c x ++ checkStart c x) := by
  unfold checkDistance checkStart
  exact .append (.ite (.singleton rfl) .nil) (.ite (.singleton rfl) .nil)

end Rules

/-- Whether all that a check reports is of one kind. -/
def Check.Reports (P : List Problem → Prop) : Check → Prop
  | .tokens f => ∀ c t s, P (f c t s).1
  | .comments f => ∀ c x s, P (f c x s).1
  | .nodes f => ∀ c v s, P (f c v s).1
  | .lines f => ∀ c l s, P (f c l s).1

theorem Rule.run_reports {P : List Problem → Prop} (r : Rule) (hnil : P [])
    (h : r.check.Reports P) (c : RuleSettings) (e : Element) (s : Session) : P (r.run c e s).1 := by
  unfold Rule.run
  cases hcheck : r.check <;> rw [hcheck] at h <;> cases e
  all_goals first | exact hnil | exact h c _ s

/-- A rule whose problems are repaired in place. -/
structure Rule.RepairsInPlace (r : Rule) : Prop where
  run : ∀ c e s, InPlace (r.run c e s).1
  finish : ∀ c s, InPlace (r.finish c s).1

theorem Rule.repairsInPlace {r : Rule} (hcheck : r.check.Reports InPlace)
    (hfinish : r.finish = fun _ s => ([], s)) : r.RepairsInPlace := by
  refine ⟨fun c e s => r.run_reports .nil hcheck c e s, fun c s => ?_⟩
  rw [hfinish]
  exact .nil

theorem Registry.style_repairsInPlace {r : Rule} (hr : r ∈ styleRules) : r.RepairsInPlace := by
  unfold styleRules at hr
  simp only [List.mem_cons, List.not_mem_nil, or_false] at hr
  rcases hr with rfl | rfl | rfl | rfl | rfl | rfl | rfl | rfl | rfl | rfl | rfl | rfl | rfl | rfl
  · exact Rule.repairsInPlace (fun c t _ => Delimiters.check_inPlace _ c t) rfl
  · exact Rule.repairsInPlace (fun c t _ => Delimiters.check_inPlace _ c t) rfl
  · exact Rule.repairsInPlace (fun c t _ => (Rules.colonProblems_inPlace c t).asFixable) rfl
  · exact Rule.repairsInPlace (fun c t _ => (Rules.commaProblems_inPlace c t).asFixable) rfl
  · exact Rule.repairsInPlace (fun c x _ => Rules.checkComment_inPlace c x) rfl
  · exact Rule.repairsInPlace (fun c l _ => Rules.checkBlankLines_inPlace c l) rfl
  · exact Rule.repairsInPlace (fun c t _ => Rules.checkEmptyValue_inPlace c t) rfl
  · exact Rule.repairsInPlace (fun c t _ => Rules.hyphenProblems_inPlace c t) rfl
  · exact Rule.repairsInPlace Rules.checkIndentation_inPlace rfl
  · exact Rule.repairsInPlace (fun _ _ _ => .map (fun _ => rfl) _) rfl
  · exact Rule.repairsInPlace (fun c l _ => Rules.checkLength_inPlace c l) rfl
  · exact Rule.repairsInPlace (fun c l _ => Rules.checkLineEnding_inPlace c l) rfl
  · exact Rule.repairsInPlace (fun c l _ => Rules.checkLineEnd_inPlace c l) rfl
  · exact Rule.repairsInPlace (fun c t _ => Rules.checkTruth_inPlace c t) rfl

theorem Registry.cosmetic_repairsInPlace {r : Rule} (hr : r ∈ builtin.rules)
    (hname : r.name ∈ cosmeticRules) : r.RepairsInPlace := by
  have hlanguage : ∀ q ∈ languageRules, q.name ∉ cosmeticRules := by decide
  rcases List.mem_append.mp hr with hr | hr
  · exact style_repairsInPlace hr
  · exact absurd hname (hlanguage r hr)

namespace Linter

theorem run_isCosmetic {l : Linter} {fs : Files} {text : String} {file : Option String}
    {p : Problem} (hl : l.registry = Registry.builtin) (hp : p ∈ (l.run fs text file).problems)
    (hrule : p.rule ∈ cosmeticRules) : p.IsCosmetic := by
  refine ⟨hrule, ?_⟩
  rcases mem_problems hp with hreport | hfault
  · obtain ⟨a, ha, q, s, rfl, hq⟩ := Call.mem_schedule hreport
    have hbuiltin : a.rule ∈ Registry.builtin.rules := by
      rw [← hl]
      exact mem_registry_of_mem_rulesFor ha
    have hrepairs := Registry.cosmetic_repairsInPlace hbuiltin hrule
    show q.repair = none
    rcases hq with hq | ⟨e, _, hq⟩
    · exact hrepairs.finish _ _ q hq
    · exact hrepairs.run _ _ _ q hq
  · exact (textFault?_isFault hfault).repair

end Linter

end Blueprint
