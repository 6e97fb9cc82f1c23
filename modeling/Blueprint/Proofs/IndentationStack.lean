import Blueprint.Lint.Rules.Indented

/-!
The stack of the indentation check. Whatever tokens come, in any order, its frames stand on the
frames that they need, so that closing frames always comes to an end inside the stack.
-/

namespace Blueprint

open Yaml (TokenKind)

namespace Indentation

variable {s s' : Indentation} {frames below : List Frame} {top : Frame} {t : TokenView}

/-- A stack with the root at its bottom and nowhere else, in which values stand on keys and entries
on sequences. -/
inductive Nested : List Frame → Prop
  | root {f : Frame} (h : f.kind = .root) : Nested [f]
  | push {f top : Frame} {below : List Frame} (hroot : f.kind ≠ .root)
    (hvalue : f.kind = .value → top.kind = .key)
    (hentry : f.kind = .blockEntry → top.kind = .blockSequence) (h : Nested (top :: below)) :
    Nested (f :: top :: below)

theorem Nested.ne_nil (h : Nested frames) : frames ≠ [] := by
  cases h <;> exact List.cons_ne_nil _ _

theorem Nested.plain (h : Nested frames) {f : Frame} (hroot : f.kind ≠ .root)
    (hvalue : f.kind ≠ .value) (hentry : f.kind ≠ .blockEntry) : Nested (f :: frames) := by
  obtain ⟨top, below, rfl⟩ := List.exists_cons_of_ne_nil h.ne_nil
  exact .push hroot (fun he => absurd he hvalue) (fun he => absurd he hentry) h

/-- Below every frame but the root there is another one. -/
theorem Nested.of_cons (h : Nested (top :: below)) (hroot : top.kind ≠ .root) : Nested below := by
  cases h with
  | root h => exact absurd h hroot
  | push _ _ _ h => exact h

theorem Nested.value (h : Nested (top :: below)) (hkind : top.kind = .value) :
    ∃ key rest, below = key :: rest ∧ key.kind = .key := by
  cases h with
  | root h => exact FrameKind.noConfusion (hkind.symm.trans h)
  | push _ hvalue _ _ => exact ⟨_, _, rfl, hvalue hkind⟩

theorem Nested.entry (h : Nested (top :: below)) (hkind : top.kind = .blockEntry) :
    ∃ list rest, below = list :: rest ∧ list.kind = .blockSequence := by
  cases h with
  | root h => exact FrameKind.noConfusion (hkind.symm.trans h)
  | push _ _ hentry _ => exact ⟨_, _, rfl, hentry hkind⟩

theorem Nested.bottom (h : Nested frames) :
    ∃ inner root, frames = inner ++ [root] ∧ root.kind = .root ∧ ∀ f ∈ inner, f.kind ≠ .root := by
  induction h with
  | @root f h => exact ⟨[], f, rfl, h, fun _ hf => nomatch hf⟩
  | @push f top below hroot _ _ _ ih =>
    obtain ⟨inner, root, hframes, hkind, hinner⟩ := ih
    refine ⟨f :: inner, root, by rw [hframes, List.cons_append], hkind, fun g hg => ?_⟩
    rcases List.mem_cons.mp hg with rfl | hg
    · exact hroot
    · exact hinner g hg

theorem Nested.of_append {inner : List Frame} (h : Nested (inner ++ top :: below)) :
    Nested (top :: below) := by
  induction inner with
  | nil => exact h
  | cons f inner ih =>
    refine ih (h.of_cons fun hroot => ?_)
    cases hrest : inner ++ top :: below with
    | nil => exact absurd hrest (List.append_ne_nil_of_right_ne_nil _ (List.cons_ne_nil _ _))
    | cons g rest =>
      rw [List.cons_append, hrest] at h
      cases h with
      | push hne _ _ _ => exact hne hroot

/-- Frames were closed as asked, and what is left is a part of the stack. -/
structure Unwound (frames : List Frame) (r : List Frame × Bool) : Prop where
  fit : r.2 = true
  suffix : r.1 <:+ frames
  nested : Nested r.1

theorem Unwound.cons {r : List Frame × Bool} (h : Unwound frames r) (top : Frame) :
    Unwound (top :: frames) r :=
  ⟨h.fit, h.suffix.trans (List.suffix_cons top frames), h.nested⟩

/-- Closing frames comes to an end in the stack. A frame that is closed together with the one above
it is not the root. -/
theorem Nested.closeFrames (h : Nested frames) (t : TokenView) (consumed skip : Bool)
    (hskip : skip = true → ∀ f ∈ frames.head?, f.kind ≠ .root) :
    Unwound frames (closeFrames t consumed skip frames) := by
  induction frames generalizing consumed skip with
  | nil => exact absurd rfl h.ne_nil
  | cons top below ih =>
    have hstay : Unwound (top :: below) (top :: below, true) := ⟨rfl, List.suffix_refl _, h⟩
    have hone (hroot : top.kind ≠ .root) (consumed : Bool) :
        Unwound (top :: below) (Indentation.closeFrames t consumed false below) :=
      (ih (h.of_cons hroot) consumed false fun hs => Bool.noConfusion hs).cons top
    have htwo {next : Frame} {rest : List Frame} (hbelow : below = next :: rest)
        (hroot : top.kind ≠ .root) (hnext : next.kind ≠ .root) :
        Unwound (top :: below) (Indentation.closeFrames t consumed true below) := by
      refine (ih (h.of_cons hroot) consumed true fun _ f hf => ?_).cons top
      rw [hbelow] at hf
      cases hf
      exact hnext
    have hclose (hroot : top.kind ≠ .root) (closes : Bool) :
        Unwound (top :: below) (if closes && !consumed then
          Indentation.closeFrames t true false below else (top :: below, true)) := by
      split
      · exact hone hroot true
      · exact hstay
    rw [Indentation.closeFrames]
    dsimp only
    split
    next hs => exact hone (hskip hs top rfl) consumed
    · cases hkind : top.kind with
      | root => exact hstay
      | flowSequence => exact hclose (by simp [hkind]) _
      | flowMapping => exact hclose (by simp [hkind]) _
      | blockMapping => exact hclose (by simp [hkind]) _
      | blockSequence => exact hclose (by simp [hkind]) _
      | blockEntry =>
        obtain ⟨list, rest, hbelow, hlist⟩ := h.entry hkind
        have hroot : top.kind ≠ .root := by simp [hkind]
        dsimp only
        rw [if_neg (by simp [hbelow])]
        split
        · exact htwo hbelow hroot (by simp [hlist])
        · split
          · exact hone hroot consumed
          · exact hstay
      | value =>
        obtain ⟨key, rest, hbelow, hkey⟩ := h.value hkind
        dsimp only
        split
        · exact hstay
        · rw [if_pos (by simp [hbelow, hkey])]
          exact htwo hbelow (by simp [hkind]) (by simp [hkey])
      | key =>
        dsimp only
        split
        · exact hone (by simp [hkind]) consumed
        · exact hstay

@[simp] theorem expect_frames (s : Indentation) (base : Int) (found : Lexeme) :
    (s.expect base found).2.frames = s.frames := by
  unfold expect
  split <;> rfl

@[simp] theorem sequenceIndent_frames (s : Indentation) (keyIndent : Int) (next : Lexeme) :
    (s.sequenceIndent keyIndent next).2.frames = s.frames := by
  unfold sequenceIndent
  dsimp only
  split
  · rfl
  · split
    · rfl
    · exact expect_frames s keyIndent next
  · split
    · rfl
    · exact expect_frames s keyIndent next
  · split
    · rfl
    · exact expect_frames _ keyIndent next

@[simp] theorem expectFirst_frames (s : Indentation) (top : Frame) (l : Lexeme) :
    (s.expectFirst top l).2.frames = s.frames := by
  unfold expectFirst
  split
  · rfl
  · split
    · exact expect_frames s top.indent l
    · rfl

@[simp] theorem place_frames (s : Indentation) (top : Frame) (l : Lexeme) :
    (s.place top l).2.frames = s.frames := by
  unfold place
  dsimp only
  split
  · split
    · exact expectFirst_frames s top l
    · rfl
  · split
    · exact expectFirst_frames s top l
    · rfl

theorem openBlock_frames {kind : FrameKind} {first : TokenKind}
    (h : s.openBlock kind first t = some s') :
    ∃ f, (f.kind = kind ∧ f.implicit = false) ∧ s'.frames = f :: s.frames := by
  unfold openBlock at h
  split at h
  · split at h
    · cases h
      exact ⟨_, ⟨rfl, rfl⟩, rfl⟩
    · cases h
  · cases h

theorem openFlow_frames {kind : FrameKind} (h : s.openFlow kind t = some s') :
    ∃ f, (f.kind = kind ∧ f.implicit = false) ∧ s'.frames = f :: s.frames := by
  unfold openFlow at h
  split at h
  next next _ =>
    have hframes : (if next.start.line = t.curr.start.line then ((next.start.column : Int), s)
        else s.expect s.lineIndent next).2.frames = s.frames := by
      split
      · rfl
      · exact expect_frames s s.lineIndent next
    cases h
    exact ⟨_, ⟨by rfl, by rfl⟩, congrArg _ hframes⟩
  · cases h

/-- An entry stands on the sequence at the top, or on one that it opens. -/
theorem openEntry_frames (h : s.openEntry t = some s') :
    ∃ entry lists, entry.kind = .blockEntry ∧ s'.frames = entry :: (lists ++ s.frames) ∧
      ((lists = [] ∧ s.top?.map (·.kind) = some .blockSequence) ∨
        ∃ list, lists = [list] ∧ list.kind = .blockSequence ∧ list.implicit = true ∧
          s.top?.map (·.kind) ≠ some .blockSequence) := by
  unfold openEntry at h
  split at h
  next next _ =>
    have hframes (s₁ : Indentation) : (if next.start.line = t.curr.stop.line ∨
        next.start.column = t.curr.start.column then ((next.start.column : Int), s₁)
        else s₁.expect t.curr.start.column next).2.frames = s₁.frames := by
      split
      · rfl
      · exact expect_frames s₁ _ next
    cases h
    by_cases htop : s.top?.map (·.kind) = some .blockSequence
    · rw [if_pos htop]
      exact ⟨_, [], by rfl, congrArg _ (hframes s), Or.inl ⟨rfl, htop⟩⟩
    · rw [if_neg htop]
      exact ⟨_, [_], by rfl, congrArg _ (hframes (s.push _)), Or.inr ⟨_, rfl, rfl, rfl, htop⟩⟩
  · cases h

theorem openValue_frames (h : s.openValue t = some s') :
    ∃ top, s.top? = some top ∧ top.kind = .key ∧
      (s'.frames = s.frames ∨ ∃ f, f.kind = .value ∧ s'.frames = f :: s.frames) := by
  unfold openValue at h
  split at h
  next top prev htop _ =>
    refine ⟨top, htop, ?_⟩
    split at h
    · cases h
    next hkey =>
      refine ⟨Decidable.not_not.mp hkey, ?_⟩
      split at h
      · cases h
        exact Or.inl rfl
      next next _ =>
        split at h
        · cases h
          exact Or.inl rfl
        · have hframes : (if top.explicitKey then s.expect top.indent next
              else if next.start.line = prev.start.line then ((next.start.column : Int), s)
              else if next.kind = .blockSequenceStart ∨ next.kind = .blockEntry then
                s.sequenceIndent top.indent next
              else s.expect top.indent next).2.frames = s.frames := by
            split
            · exact expect_frames s _ next
            · split
              · rfl
              · split
                · exact sequenceIndent_frames s _ next
                · exact expect_frames s _ next
          cases h
          exact Or.inr ⟨_, by rfl, congrArg _ hframes⟩
  · cases h

/-- A frame on top of the stack, standing on the frame that it needs. -/
theorem Nested.push_top (h : Nested frames) (htop : frames.head? = some top) {f : Frame}
    (hroot : f.kind ≠ .root) (hvalue : f.kind = .value → top.kind = .key)
    (hentry : f.kind = .blockEntry → top.kind = .blockSequence) : Nested (f :: frames) := by
  obtain ⟨below, rfl⟩ := List.head?_eq_some_iff.mp htop
  exact .push hroot hvalue hentry h

theorem Nested.enter (h : Nested s.frames) (he : s.enter t = some s') : Nested s'.frames := by
  have hplain {kind : FrameKind} (hroot : kind ≠ .root) (hvalue : kind ≠ .value)
      (hentry : kind ≠ .blockEntry)
      (hs : ∃ f : Frame, (f.kind = kind ∧ f.implicit = false) ∧ s'.frames = f :: s.frames) :
      Nested s'.frames := by
    obtain ⟨f, ⟨rfl, -⟩, hframes⟩ := hs
    rw [hframes]
    exact h.plain hroot hvalue hentry
  unfold Indentation.enter at he
  split at he
  · exact hplain (by decide) (by decide) (by decide) (openBlock_frames he)
  · exact hplain (by decide) (by decide) (by decide) (openBlock_frames he)
  · exact hplain (by decide) (by decide) (by decide) (openFlow_frames he)
  · exact hplain (by decide) (by decide) (by decide) (openFlow_frames he)
  · split at he
    · cases he
      exact h
    · obtain ⟨entry, lists, hentry, hframes, hlists⟩ := openEntry_frames he
      rw [hframes]
      rcases hlists with ⟨rfl, htop⟩ | ⟨list, rfl, hlist, -, -⟩
      · obtain ⟨list, htop, hlist⟩ := Option.map_eq_some_iff.mp htop
        exact h.push_top htop (by simp [hentry]) (by simp [hentry]) fun _ => hlist
      · refine .push (by simp [hentry]) (by simp [hentry]) (fun _ => hlist) ?_
        exact h.plain (by simp [hlist]) (by simp [hlist]) (by simp [hlist])
  · obtain ⟨top, -, rfl⟩ := Option.map_eq_some_iff.mp he
    exact @hplain .key (by decide) (by decide) (by decide) ⟨_, ⟨by rfl, by rfl⟩, rfl⟩
  · obtain ⟨top, htop, hkey, hframes | ⟨f, hvalue, hframes⟩⟩ := openValue_frames he
    · exact hframes ▸ h
    · rw [hframes]
      exact h.push_top htop (by simp [hvalue]) (fun _ => hkey) (by simp [hvalue])
  · cases he
    exact h

/-- The state behind the frames that a token opens, before any are closed. -/
def entered? (s : Indentation) (t : TokenView) : Option Indentation :=
  s.top?.bind fun top => (s.place top t.curr).2.enter t

theorem Nested.entered (h : Nested s.frames) (he : s.entered? t = some s') : Nested s'.frames := by
  obtain ⟨top, -, he⟩ := Option.bind_eq_some_iff.mp he
  exact Nested.enter (by rwa [place_frames]) he

theorem Nested.check (h : Nested s.frames) (t : TokenView) : Nested (s.check t).2.frames := by
  obtain ⟨top, below, hframes⟩ := List.exists_cons_of_ne_nil h.ne_nil
  have htop : s.top? = some top := congrArg List.head? hframes
  have hentered (s' : Indentation) (he : (s.place top t.curr).2.enter t = some s') :
      Nested s'.frames := h.entered (Option.bind_eq_some_iff.mpr ⟨top, htop, he⟩)
  unfold Indentation.check
  rw [htop]
  dsimp only
  split
  · rw [place_frames]
    exact h
  next s' he => exact ((hentered s' he).closeFrames t false false Bool.noConfusion).nested

/-- What holds of the stack of the check at any time. -/
structure Sound (frames : List Frame) : Prop where
  root : ∃ inner bottom, frames = inner ++ [bottom] ∧ bottom.kind = .root ∧
    ∀ f ∈ inner, f.kind ≠ .root
  value : ∀ {inner value below}, frames = inner ++ value :: below → value.kind = .value →
    ∃ key ∈ below.head?, key.kind = .key
  entry : ∀ {inner entry below}, frames = inner ++ entry :: below → entry.kind = .blockEntry →
    ∃ list ∈ below.head?, list.kind = .blockSequence

theorem Nested.sound (h : Nested frames) : Sound frames where
  root := h.bottom
  value := by
    rintro inner value below rfl hkind
    obtain ⟨key, rest, rfl, hkey⟩ := h.of_append.value hkind
    exact ⟨key, rfl, hkey⟩
  entry := by
    rintro inner entry below rfl hkind
    obtain ⟨list, rest, rfl, hlist⟩ := h.of_append.entry hkind
    exact ⟨list, rfl, hlist⟩

end Indentation

namespace Rules

open Indentation (Nested Sound closeFrames)

variable {c : RuleSettings}

/-- The state in which a token is checked; each stream starts anew. -/
def indentationBefore (c : RuleSettings) (t : TokenView) (s : Session) : Indentation :=
  if t.curr.kind = .streamStart ∨ s.indentation.frames = [] then freshIndentation c
  else s.indentation

/-- The session after tokens. -/
def afterTokens (c : RuleSettings) (ts : List TokenView) (s : Session) : Session :=
  ts.foldl (fun s t => (checkIndentation c t s).2) s

theorem indentationBefore_nested {s : Session}
    (h : s.indentation.frames = [] ∨ Nested s.indentation.frames) (t : TokenView) :
    Nested (indentationBefore c t s).frames := by
  unfold indentationBefore
  split
  · exact .root rfl
  next hs => exact h.resolve_left fun hnil => hs (Or.inr hnil)

theorem checkIndentation_nested {s : Session}
    (h : s.indentation.frames = [] ∨ Nested s.indentation.frames) (t : TokenView) :
    Nested (checkIndentation c t s).2.indentation.frames :=
  (indentationBefore_nested h t).check t

theorem afterTokens_nested {s : Session}
    (h : s.indentation.frames = [] ∨ Nested s.indentation.frames) (ts : List TokenView) :
    (afterTokens c ts s).indentation.frames = [] ∨
      Nested (afterTokens c ts s).indentation.frames := by
  induction ts generalizing s with
  | nil => exact h
  | cons t ts ih => exact ih (Or.inr (checkIndentation_nested h t))

theorem closeFrames_entered {s : Session}
    (h : s.indentation.frames = [] ∨ Nested s.indentation.frames) (t : TokenView)
    {entered : Indentation} (he : (indentationBefore c t s).entered? t = some entered) :
    (closeFrames t false false entered.frames).2 = true ∧
      (closeFrames t false false entered.frames).1 <:+ entered.frames := by
  have hclosed := ((indentationBefore_nested h t).entered he).closeFrames t false false
    Bool.noConfusion
  exact ⟨hclosed.fit, hclosed.suffix⟩

/-- Whatever tokens have come, the stack is sound behind the next one, and closing the frames that
this one closes succeeds: it takes frames off the top until one stays. -/
theorem indentation_stack_sound (c : RuleSettings) (s : Session) (ts : List TokenView)
    (t : TokenView) :
    let s := afterTokens c ts { s with indentation := {} }
    Sound (checkIndentation c t s).2.indentation.frames ∧
      ∀ entered, (indentationBefore c t s).entered? t = some entered →
        (closeFrames t false false entered.frames).2 = true ∧
          (closeFrames t false false entered.frames).1 <:+ entered.frames := by
  have h := afterTokens_nested (c := c) (s := { s with indentation := {} }) (Or.inl rfl) ts
  exact ⟨(checkIndentation_nested h t).sound, fun _ he => closeFrames_entered h t he⟩

end Rules

end Blueprint
