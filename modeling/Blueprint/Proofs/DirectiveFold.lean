import Blueprint.Proofs.DirectiveHistory

/-!
What directives say about a line, read off the comments alone: what the last comments up to the line
leave switched off, and what a comment says about this one line.
-/

namespace Blueprint

namespace Directive

/-- Whether a rule is switched off, for all that follows, once some comments have been read. -/
def offAfter (active : List String) (rule : String) (cs : List Comment) : Bool :=
  cs.foldl (fun off c =>
    match ofComment? c.text with
    | some (.disable names) => off || (Directives.meant active names).contains rule
    | some (.enable names) => off && !(Directives.meant active names).contains rule
    | _ => off) false

/-- Whether a comment switches a rule off for one line: its own line, or the next one if the comment
stands alone. -/
def offForLine (active : List String) (rule : String) (line : Nat) (c : Comment) : Bool :=
  match ofComment? c.text with
  | some (.disableLine names) =>
    (Directives.meant active names).contains rule
      && line == if c.inline then c.line else c.line + 1
  | _ => false

/-- Whether the comments of the lines up to `line` switch a rule off on it. -/
def offOn (active : List String) (cs : List Comment) (line : Nat) (rule : String) : Bool :=
  let read := cs.filter (·.line ≤ line)
  offAfter active rule read || read.any (offForLine active rule line)

theorem offAfter_append (active : List String) (rule : String) (cs : List Comment) (c : Comment) :
    offAfter active rule (cs ++ [c]) =
      match ofComment? c.text with
      | some (.disable names) =>
        offAfter active rule cs || (Directives.meant active names).contains rule
      | some (.enable names) =>
        offAfter active rule cs && !(Directives.meant active names).contains rule
      | _ => offAfter active rule cs := by
  unfold offAfter
  rw [List.foldl_append]
  rfl

theorem offForLine_line {active : List String} {rule : String} {line : Nat} {c : Comment}
    (h : offForLine active rule line c = true) : line = c.line ∨ line = c.line + 1 := by
  unfold offForLine at h
  split at h
  · rw [Bool.and_eq_true, beq_iff_eq] at h
    rcases Bool.eq_false_or_eq_true c.inline with hi | hi
    · rw [hi] at h
      exact Or.inl h.2
    · rw [hi] at h
      exact Or.inr h.2
  · cases h

end Directive

namespace Directives

theorem contains_meant_of_mem {active names : List String} {rule : String} (h : rule ∈ active) :
    (meant active names).contains rule = (names.isEmpty || names.contains rule) := by
  unfold meant
  split
  next hempty => simp [hempty, h]
  next hempty =>
    rw [Bool.not_eq_true] at hempty
    simp [hempty, h]

theorem mem_of_mem_meant {active names : List String} {rule : String}
    (h : rule ∈ meant active names) : rule ∈ active := by
  unfold meant at h
  split at h
  · exact h
  · exact List.contains_iff_mem.mp (List.mem_filter.mp h).2

theorem readComment_rules (d : Directives) (text : List Char) (inline : Bool) :
    (d.readComment text inline).rules = d.rules := by
  unfold readComment
  split
  next directive _ =>
    cases directive with
    | disable names => rfl
    | enable names => rfl
    | disableLine names =>
      unfold apply
      dsimp only
      split <;> rfl
  · rfl

variable {d : Directives} (hactive : ∀ rule ∈ d.disabled, rule ∈ d.rules)

include hactive in
theorem readComment_active (text : List Char) (inline : Bool) :
    ∀ rule ∈ (d.readComment text inline).disabled, rule ∈ d.rules := by
  intro rule hrule
  unfold readComment at hrule
  split at hrule
  next directive _ =>
    cases directive with
    | disable names =>
      rcases List.mem_append.mp hrule with h | h
      · exact mem_of_mem_meant h
      · exact hactive rule h
    | enable names =>
      unfold apply at hrule
      dsimp only at hrule
      split at hrule
      · cases hrule
      · exact hactive rule (List.mem_filter.mp hrule).1
    | disableLine names =>
      unfold apply at hrule
      dsimp only at hrule
      split at hrule <;> exact hactive rule hrule
  · exact hactive rule hrule

include hactive in
theorem enable_disabled (names : List String) (inline : Bool) (rule : String) :
    (d.apply inline (.enable names)).disabled.contains rule =
      (d.disabled.contains rule && !(meant d.rules names).contains rule) := by
  show (if names.isEmpty then [] else d.disabled.filter (!names.contains ·)).contains rule = _
  by_cases hrule : rule ∈ d.disabled
  · rw [contains_meant_of_mem (hactive rule hrule)]
    split
    next hempty => simp [hempty]
    next hempty =>
      rw [Bool.not_eq_true] at hempty
      simp [hempty, hrule]
  · split <;> simp [hrule]

include hactive in
/-- Reading one more comment takes the fold one step further. -/
theorem readComment_disabled {cs : List Comment} {rule : String}
    (h : d.disabled.contains rule = Directive.offAfter d.rules rule cs) (c : Comment) :
    (d.readComment c.text c.inline).disabled.contains rule =
      Directive.offAfter d.rules rule (cs ++ [c]) := by
  rw [Directive.offAfter_append, ← h]
  unfold readComment
  cases hdirective : Directive.ofComment? c.text with
  | none => rfl
  | some directive =>
    cases directive with
    | disable names =>
      show (meant d.rules names ++ d.disabled).contains rule =
        (d.disabled.contains rule || (meant d.rules names).contains rule)
      rw [Bool.or_comm]
      simp
    | enable names => exact enable_disabled hactive names c.inline rule
    | disableLine names =>
      unfold apply
      dsimp only
      split <;> rfl

theorem readComment_onLine (d : Directives) (c : Comment) (rule : String) :
    (d.readComment c.text c.inline).onLine.contains rule =
        (d.onLine.contains rule || Directive.offForLine d.rules rule c.line c) ∧
      (d.readComment c.text c.inline).onNextLine.contains rule =
        (d.onNextLine.contains rule || Directive.offForLine d.rules rule (c.line + 1) c) := by
  unfold readComment Directive.offForLine
  cases hdirective : Directive.ofComment? c.text with
  | none => simp
  | some directive =>
    cases directive with
    | disable names => simp [apply]
    | enable names => simp [apply]
    | disableLine names =>
      unfold apply
      dsimp only
      cases hinline : c.inline with
      | true => simp [Bool.or_comm]
      | false => simp [Bool.or_comm]

/-- While line `n + 1` is read, the sets follow the comments met so far, and the history holds what
these say about the lines that have ended. -/
structure Follows (n : Nat) (cs : List Comment) (d : Directives) : Prop where
  known : ∀ rule ∈ d.disabled, rule ∈ d.rules
  disabled : ∀ rule, d.disabled.contains rule = Directive.offAfter d.rules rule cs
  onLine : ∀ rule, d.onLine.contains rule = cs.any (Directive.offForLine d.rules rule (n + 1))
  onNextLine : ∀ rule,
    d.onNextLine.contains rule = cs.any (Directive.offForLine d.rules rule (n + 2))
  ended : d.EndedBy n
  history : ∀ line, line ≤ n → ∀ rule,
    d.wasOff line rule = Directive.offOn d.rules cs line rule
  behind : ∀ c ∈ cs, c.line ≤ n + 1

theorem Follows.ofRules (rules : List String) :
    ({ rules } : Directives).Follows 0 [] where
  known rule h := by cases h
  disabled _ := rfl
  onLine _ := rfl
  onNextLine _ := rfl
  ended entry h := by cases h
  history _ _ _ := rfl
  behind c h := by cases h

variable {n : Nat} {cs : List Comment}

/-- Reading a comment of the line that is being read. -/
theorem Follows.readComment (h : d.Follows n cs) {c : Comment} (hc : c.line = n + 1) :
    (d.readComment c.text c.inline).Follows n (cs ++ [c]) := by
  have hany (line : Nat) (rule : String) :
      (cs ++ [c]).any (Directive.offForLine d.rules rule line) =
        (cs.any (Directive.offForLine d.rules rule line) ||
          Directive.offForLine d.rules rule line c) := by
    simp
  have hrules := readComment_rules d c.text c.inline
  constructor
  · rw [hrules]
    exact readComment_active h.known c.text c.inline
  · intro rule
    rw [hrules]
    exact readComment_disabled h.known (h.disabled rule) c
  · intro rule
    rw [(readComment_onLine d c rule).1, hrules, hany, h.onLine rule, hc]
  · intro rule
    rw [(readComment_onLine d c rule).2, hrules, hany, h.onNextLine rule, hc]
  · unfold EndedBy
    rw [readComment_history]
    exact h.ended
  · intro line hle rule
    rw [readComment_wasOff, hrules, h.history line hle rule]
    unfold Directive.offOn
    have hlate : decide (c.line ≤ line) = false := decide_eq_false (by omega)
    rw [List.filter_append, List.filter_singleton, hlate]
    simp
  · intro e he
    rcases List.mem_append.mp he with he | he
    · exact h.behind e he
    · rw [List.mem_singleton.mp he]
      omega

/-- Ending the line that is being read: what the sets say about it enters the history. -/
theorem Follows.endLine (h : d.Follows n cs) : (d.endLine (n + 1)).Follows (n + 1) cs := by
  constructor
  · exact h.known
  · exact h.disabled
  · exact h.onNextLine
  · intro rule
    show false = cs.any (Directive.offForLine d.rules rule (n + 3))
    symm
    apply List.any_eq_false.mpr
    intro c hc hoff
    have hbehind := h.behind c hc
    rcases Directive.offForLine_line hoff with heq | heq
    · omega
    · omega
  · exact endLine_endedBy h.ended
  · intro line hle rule
    by_cases hline : line = n + 1
    · subst hline
      rw [endLine_wasOff_self h.ended]
      unfold isOff off Directive.offOn
      have hall : cs.filter (·.line ≤ n + 1) = cs :=
        List.filter_eq_self.mpr fun c hc => decide_eq_true (h.behind c hc)
      show (d.disabled ++ d.onLine).contains rule =
        (Directive.offAfter d.rules rule (cs.filter (·.line ≤ n + 1)) ||
          (cs.filter (·.line ≤ n + 1)).any (Directive.offForLine d.rules rule (n + 1)))
      rw [hall, ← h.disabled rule, ← h.onLine rule]
      simp
    · rw [endLine_wasOff_of_ne hline]
      exact h.history line (by omega) rule
  · intro c hc
    exact Nat.le_succ_of_le (h.behind c hc)

theorem Follows.followAll {es : List Element} {k : Nat} (h : d.Follows n cs)
    (htimely : Element.Timely n es)
    (hlines : (es.filterMap Element.line?).map (·.number) = List.range' (n + 1) k) :
    (d.followAll es).Follows (n + k) (cs ++ Element.comments es) ∧
      (d.followAll es).rules = d.rules := by
  induction es generalizing d n k cs with
  | nil =>
    cases k with
    | zero =>
      unfold Element.comments
      rw [List.filterMap_nil, List.append_nil]
      exact ⟨h, rfl⟩
    | succ k => cases hlines
  | cons e es ih =>
    cases htimely with
    | token htimely => exact ih h htimely hlines
    | node htimely => exact ih h htimely hlines
    | @comment _ c _ hc htimely =>
      obtain ⟨hfollows, hrules⟩ := ih (h.readComment hc) htimely hlines
      rw [List.append_assoc] at hfollows
      exact ⟨hfollows, hrules.trans (readComment_rules d c.text c.inline)⟩
    | @line _ l _ hnumber htimely =>
      cases k with
      | zero => cases hlines
      | succ k =>
        rw [List.range'_succ] at hlines
        have hended : (d.follow (.line l)).Follows (n + 1) cs := by
          show (d.endLine l.number).Follows (n + 1) cs
          rw [hnumber]
          exact h.endLine
        obtain ⟨hfollows, hrules⟩ := ih hended htimely (List.cons.inj hlines).2
        rw [Nat.add_right_comm, Nat.add_assoc] at hfollows
        exact ⟨hfollows, hrules⟩

end Directives

end Blueprint
