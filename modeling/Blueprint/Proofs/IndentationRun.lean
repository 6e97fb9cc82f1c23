import Blueprint.Proofs.BlockLayout
import Blueprint.Proofs.FaultPlace
import Blueprint.Proofs.Reindentation
import Blueprint.Proofs.SectionTracker

/-!
The rule of indentation over whole texts. It reports nothing in a laid out document, and so nothing
in one that has been laid out by a repair.
-/

namespace Blueprint

open Indentation (Passes)

theorem Indentation.frames_ne_nil {s s' : Indentation} {t : TokenView}
    (h : s.check t = (.fits, s')) : s.frames ≠ [] := by
  intro hnil
  unfold check top? at h
  rw [hnil] at h
  cases h

theorem Rules.checkIndentation_fits {c : RuleSettings} {t : TokenView} {s : Session}
    {state s' : Indentation} (h : state.check t = (.fits, s'))
    (hstate : state = if t.curr.kind = .streamStart ∨ s.indentation.frames = [] then
      freshIndentation c else s.indentation) :
    checkIndentation c t s = ([], { s with indentation := s' }) := by
  unfold checkIndentation
  rw [← hstate]
  dsimp only
  rw [h]
  rfl

namespace Call

open Element (view? ofLexemes)

variable {a : ActiveRule} {t : TokenView} {es : List Element}

/-- The calls of the rule at a token that its check does not complain of report nothing. -/
theorem makeAll_token (ha : a.rule = Rules.indentation) (file : Option String) {s : Session}
    {state s' : Indentation} (h : state.check t = (.fits, s'))
    (hstate : state = if t.curr.kind = .streamStart ∨ s.indentation.frames = [] then
      Rules.freshIndentation a.conf else s.indentation) :
    ∃ s₁ : Session, s₁.indentation = s' ∧ makeAll file s (ofElement [a] (.token t)) = ([], s₁) := by
  obtain ⟨rule, conf⟩ := a
  obtain rfl : rule = Rules.indentation := ha
  have hcheck := Rules.checkIndentation_fits (s := s.withContext (s.context.update t)) h hstate
  refine ⟨{ s.withContext (s.context.update t) with indentation := s' }, rfl, ?_⟩
  show ((Rules.checkIndentation conf t (s.withContext (s.context.update t))).1.map _ ++ [],
    (Rules.checkIndentation conf t (s.withContext (s.context.update t))).2) = _
  rw [hcheck]
  rfl

theorem makeAll_other (ha : a.rule = Rules.indentation) (file : Option String) {e : Element}
    (he : view? e = none) (s : Session) : makeAll file s (ofElement [a] e) = ([], s) := by
  obtain ⟨rule, conf⟩ := a
  obtain rfl : rule = Rules.indentation := ha
  cases e with
  | token t => cases he
  | _ => rfl

theorem makeAll_others (ha : a.rule = Rules.indentation) (file : Option String)
    (hes : ∀ e ∈ es, view? e = none) (s : Session) :
    makeAll file s (es.flatMap (ofElement [a])) = ([], s) := by
  induction es with
  | nil => rfl
  | cons e es ih =>
    rw [List.flatMap_cons, makeAll_append, makeAll_other ha file (hes e List.mem_cons_self),
      ih fun e' he' => hes e' (List.mem_cons_of_mem e he')]
    rfl

/-- The calls up to a token that the check does not complain of report nothing. -/
theorem makeAll_first (ha : a.rule = Rules.indentation) (file : Option String)
    {ts : List TokenView} {s : Session} {state s' : Indentation}
    (hes : es.filterMap view? = t :: ts) (h : state.check t = (.fits, s'))
    (hstate : state = if t.curr.kind = .streamStart ∨ s.indentation.frames = [] then
      Rules.freshIndentation a.conf else s.indentation) :
    ∃ (later : List Element) (s₁ : Session), later.filterMap view? = ts ∧ s₁.indentation = s' ∧
      (makeAll file s (es.flatMap (ofElement [a]))).1 =
        (makeAll file s₁ (later.flatMap (ofElement [a]))).1 := by
  obtain ⟨before, e, later, rfl, hbefore, he, hlater⟩ := List.filterMap_eq_cons_iff.mp hes
  obtain rfl : e = .token t := by
    cases e <;> cases he
    rfl
  obtain ⟨s₁, hs₁, hcalls⟩ := makeAll_token ha file h hstate
  refine ⟨later, s₁, hlater, hs₁, ?_⟩
  rw [List.flatMap_append, makeAll_append, makeAll_others ha file hbefore, List.flatMap_cons,
    makeAll_append, hcalls]
  rfl

/-- The rule goes over the elements of a text like its check over the tokens. -/
theorem makeAll_of_passes (ha : a.rule = Rules.indentation) (file : Option String)
    {source : Source} {s : Session} {ls : List Lexeme} {prev : Option Lexeme}
    {path : List (Container × Mark)} {last : Indentation}
    (hviews : es.filterMap view? = (ofLexemes source prev path ls).filterMap view?)
    (hpasses : Passes [] s.indentation prev path ls last) :
    (makeAll file s (es.flatMap (ofElement [a]))).1 = [] := by
  induction ls generalizing es s prev path with
  | nil => rw [makeAll_others ha file (List.filterMap_eq_nil_iff.mp hviews)]
  | cons l r ih =>
    rw [Element.views_cons] at hviews
    obtain ⟨hkind, s', hcheck, hpasses⟩ := hpasses
    rw [List.append_nil] at hcheck
    obtain ⟨later, s₁, hlater, rfl, hcalls⟩ := makeAll_first ha file hviews hcheck
      (if_neg (not_or.mpr ⟨hkind, Indentation.frames_ne_nil hcheck⟩)).symm
    rw [hcalls]
    exact ih hlater hpasses

end Call

namespace Linter

variable {fs : Files} {text : String} {file : Option String}

theorem rulesFor_ofRule (r : Rule) (file : Option String) :
    (ofRule r).rulesFor file = [⟨r, r.defaults⟩] := by
  have hkept : (file.any r.defaults.ignores) = false := by
    cases file <;> rfl
  unfold rulesFor ofRule
  simp [List.lookup_cons, Option.filter, hkept]

/-- The rule with its defaults reports nothing in a laid out document. -/
theorem reports_of_layout (fs : Files) (file : Option String)
    (h : BlockLayout.Document (Lexeme.ofText (Source.ofText text) text.toList)) :
    (ofRule Rules.indentation).reports fs text file = [] := by
  let a : ActiveRule := ⟨Rules.indentation, Rules.indentation.defaults⟩
  let fresh : Indentation := Rules.freshIndentation Rules.indentation.defaults
  let root : Frame := ⟨.root, 0, none, false, false⟩
  obtain ⟨first, r, hlexemes, hkind, hwalks⟩ :
      ∃ first r, Lexeme.ofText (Source.ofText text) text.toList = first :: r ∧
        first.kind = .streamStart ∧ Indentation.Walks [root] 0 r [] [root] 0 :=
    h.walks rfl ⟨rfl, rfl⟩
  have hviews := Element.views_eq text
  unfold Element.views Element.lexical at hviews
  rw [hlexemes, Element.views_cons] at hviews
  have hfresh : fresh.Stands [root] 0 :=
    ⟨rfl, fun heq => (nomatch heq), rfl, Nat.le_refl _⟩
  let t : TokenView := ⟨first, none, r.head?, r[1]?, []⟩
  have hkind' : t.curr.kind = .streamStart := hkind
  obtain ⟨s₁, hplace, hs₁⟩ := hfresh.place (l := first) (Or.inl (by
    unfold Indentation.showsText
    rw [hkind]))
  obtain ⟨s₂, hcheck, hs₂⟩ := Indentation.check_eq (t := t) hfresh.top?_eq hplace
    (by unfold Indentation.enter; rw [hkind']) hs₁
    (by rw [Indentation.closeFrames]; rfl)
  obtain ⟨later, s, hlater, rfl, hcalls⟩ := Call.makeAll_first (a := a) rfl file
    (s := ((ofRule Rules.indentation).startRun fs text file).session) hviews hcheck
    (if_pos (Or.inl hkind)).symm
  obtain ⟨last, hpasses, _⟩ := hwalks _ (some first) (Element.pathAfter [] first)
    (hs₂.mono (Nat.zero_le _))
  unfold reports calls Call.schedule
  rw [rulesFor_ofRule, Call.makeAll_append, hcalls,
    Call.makeAll_of_passes (a := a) rfl file hlater hpasses]
  rfl

/-- A run of the rule with its defaults over a laid out document yields nothing of the rule. -/
theorem run_of_layout (fs : Files) (file : Option String)
    (h : BlockLayout.Document (Lexeme.ofText (Source.ofText text) text.toList)) :
    ∀ p ∈ ((ofRule Rules.indentation).run fs text file).problems, p.rule ≠ "indentation" := by
  intro p hp
  rcases mem_problems hp with hreport | hfault
  · rw [reports_of_layout fs file h] at hreport
    cases hreport
  · rw [(textFault?_isFault hfault).rule]
    decide

end Linter

namespace FileLines

/-- The tokens of a file. -/
def lexemes (lines : FileLines) : List Lexeme :=
  Lexeme.ofText (Source.ofText lines.text) lines.text.toList

end FileLines

end Blueprint
