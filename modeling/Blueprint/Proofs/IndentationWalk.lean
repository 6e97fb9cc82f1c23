import Blueprint.Lint.Indent

/-!
Walks of the indentation check: what it keeps between two tokens, which frames are closed behind a
node, and how the walks over parts of a document make up one over the whole.
-/

namespace Blueprint

open Yaml (TokenKind)

/-- A token that starts and ends on a line. -/
def Lexeme.OnLine (l : Lexeme) (n : Nat) : Prop :=
  l.start.line = n ∧ l.stop.line = n

namespace Indentation

variable {top : Frame} {below frames : List Frame} {l : Lexeme} {t : TokenView} {n : Nat}
  {s : Indentation}

/-- The state of the check at some place of a block layout, on line `n` or a later one. Two columns
are the unit, and no list has been met that is indented below its key. -/
structure Stands (frames : List Frame) (n : Nat) (s : Indentation) : Prop where
  unit : s.unit = some 2
  sequences : s.sequences ≠ .indented
  frames : s.frames = frames
  line : n ≤ s.line

/-- A token that need not start its line, or stands where its frame expects it. -/
def Fits (top : Frame) (n : Nat) (l : Lexeme) : Prop :=
  showsText l = false ∨ l.start.line ≤ n ∨
    (l.start.column = top.indent ∧ isFlowEnd l.kind = false ∧ top.explicitKey = false)

/-- The line that is reached behind a token. -/
def lineAfter (n : Nat) (l : Lexeme) : Nat :=
  if showsText l then lastLine l else n

theorem Stands.mono {m : Nat} (h : s.Stands frames n) (hm : m ≤ n) : s.Stands frames m :=
  ⟨h.unit, h.sequences, h.frames, Nat.le_trans hm h.line⟩

theorem Stands.push (h : s.Stands frames n) (f : Frame) : (s.push f).Stands (f :: frames) n :=
  ⟨h.unit, h.sequences, congrArg (f :: ·) h.frames, h.line⟩

theorem Stands.expect (h : s.Stands frames n) (base : Int) (found : Lexeme) :
    s.expect base found = (base + 2, s) := by
  unfold Indentation.expect
  rw [h.unit]

theorem Stands.sequenceIndent {c : Nat} (h : s.Stands frames n) (hl : l.start.column = c) :
    ∃ s', s.sequenceIndent c l = ((c : Int), s') ∧ s'.Stands frames n := by
  unfold Indentation.sequenceIndent
  rw [hl]
  split
  · exact ⟨s, rfl, h⟩
  next hindented => exact absurd hindented h.sequences
  · exact ⟨s, by simp, h⟩
  · exact ⟨{ s with sequences := .notIndented }, by simp, h.unit, by simp, h.frames, h.line⟩

theorem Stands.place (h : s.Stands (top :: below) n) (hfits : Fits top n l) :
    ∃ s₁, s.place top l = (.fits, s₁) ∧ s₁.Stands (top :: below) (lineAfter n l) := by
  unfold Indentation.place lineAfter
  dsimp only
  cases hvisible : showsText l with
  | false =>
    rw [Bool.false_and, if_neg Bool.false_ne_true]
    dsimp only
    rw [if_neg Bool.false_ne_true, if_pos rfl]
    exact ⟨s, rfl, h⟩
  | true =>
    rw [Bool.true_and]
    by_cases hfirst : s.line < l.start.line
    · have hline := h.line
      obtain ⟨hcolumn, hend, hexplicit⟩ :=
        (hfits.resolve_left (by simp [hvisible])).resolve_left (by omega)
      have hexpected : s.expectFirst top l = (top.indent, s) := by
        unfold expectFirst
        rw [hend, hexplicit]
        simp
      rw [decide_eq_true hfirst, if_pos rfl, hexpected]
      dsimp only
      rw [if_pos rfl, if_pos hcolumn.symm]
      exact ⟨_, rfl, h.unit, h.sequences, h.frames, Nat.le_refl _⟩
    · rw [decide_eq_false hfirst, if_neg Bool.false_ne_true]
      dsimp only
      rw [if_pos rfl, if_pos rfl]
      exact ⟨_, rfl, h.unit, h.sequences, h.frames, Nat.le_refl _⟩

theorem check_eq {s₁ s₂ : Indentation} {opened closed : List Frame} (htop : s.top? = some top)
    (hplace : s.place top t.curr = (.fits, s₁)) (henter : s₁.enter t = some s₂)
    (h₂ : s₂.Stands opened n) (hclose : closeFrames t false false opened = (closed, true)) :
    ∃ s', s.check t = (.fits, s') ∧ s'.Stands closed n := by
  unfold Indentation.check
  rw [htop]
  dsimp only
  rw [hplace, henter]
  dsimp only
  rw [h₂.frames, hclose]
  exact ⟨_, rfl, h₂.unit, h₂.sequences, rfl, h₂.line⟩

theorem Stands.top?_eq (h : s.Stands (top :: below) n) : s.top? = some top := by
  unfold top?
  rw [h.frames]
  rfl

/-! Frames that are closed. -/

variable {closed : List Frame} {next : Option TokenKind}

/-- A token that can be the last one of a node. -/
def endsNode : TokenKind → Bool
  | .scalar .. | .alias _ | .flowMappingEnd | .flowSequenceEnd | .blockEnd => true
  | _ => false

/-- What is left of the frames around a node behind it, before a token of the kind `next`: a value
ends its key, and an item its list if that has no end of its own and no item follows. -/
inductive Closes (next : Option TokenKind) : List Frame → List Frame → Prop
  | root {top : Frame} {below : List Frame} : top.kind = .root →
    Closes next (top :: below) (top :: below)
  | value {top key mapping : Frame} {below : List Frame} : top.kind = .value → key.kind = .key →
    mapping.kind = .blockMapping → Closes next (top :: key :: mapping :: below) (mapping :: below)
  | between {top list : Frame} {below : List Frame} : top.kind = .blockEntry →
    list.kind = .blockSequence → next = some .blockEntry →
    Closes next (top :: list :: below) (list :: below)
  | last {top list : Frame} {below : List Frame} : top.kind = .blockEntry →
    list.kind = .blockSequence → list.implicit = false → next = some .blockEnd →
    Closes next (top :: list :: below) (list :: below)
  | lastBelowKey {top list value key mapping : Frame} {below : List Frame} :
    top.kind = .blockEntry → list.implicit = true → value.kind = .value → key.kind = .key →
    mapping.kind = .blockMapping → next ≠ some .blockEntry →
    Closes next (top :: list :: value :: key :: mapping :: below) (mapping :: below)

theorem closeFrames_block {consumed : Bool}
    (hkind : top.kind = .blockMapping ∨ top.kind = .blockSequence)
    (hconsumed : consumed = true ∨ t.curr.kind ≠ .blockEnd) :
    closeFrames t consumed false (top :: below) = (top :: below, true) := by
  rcases hkind with hkind | hkind <;> rcases hconsumed with hconsumed | hconsumed <;>
    simp [closeFrames, hkind, hconsumed]

theorem closeFrames_skip {consumed : Bool} :
    closeFrames t consumed true (top :: below) = closeFrames t consumed false below := by
  simp [closeFrames]

theorem closeFrames_value {key mapping : Frame} {consumed : Bool}
    (hend : endsNode t.curr.kind = true) (hconsumed : consumed = true ∨ t.curr.kind ≠ .blockEnd) (htop : top.kind = .value)
    (hkey : key.kind = .key) (hmapping : mapping.kind = .blockMapping) :
    closeFrames t consumed false (top :: key :: mapping :: below) = (mapping :: below, true) := by
  have hvalue : (t.curr.kind == .value) = false ∧ isDecoration t.curr.kind = false := by
    cases hk : t.curr.kind <;> rw [hk] at hend <;> first | exact ⟨rfl, rfl⟩ | cases hend
  rw [closeFrames]
  simp only [htop, hvalue, hkey, List.head?_cons, Option.any_some, beq_self_eq_true, Bool.or_self,
    if_true, if_neg Bool.false_ne_true]
  rw [closeFrames_skip, closeFrames_block (Or.inl hmapping) hconsumed]

/-- Behind the last token of a node the frames around it are closed. -/
theorem Closes.closeFrames {consumed : Bool} (h : Closes t.nextKind frames closed)
    (hend : endsNode t.curr.kind = true)
    (hconsumed : consumed = true ∨ t.curr.kind ≠ .blockEnd) :
    Indentation.closeFrames t consumed false frames = (closed, true) := by
  have hkind : (t.curr.kind != .blockEntry) = true ∧ isDecoration t.curr.kind = false := by
    cases hk : t.curr.kind <;> rw [hk] at hend <;> first | exact ⟨rfl, rfl⟩ | cases hend
  cases h with
  | root htop => simp [Indentation.closeFrames, htop]
  | value htop hkey hmapping => exact closeFrames_value hend hconsumed htop hkey hmapping
  | between htop hlist hnext =>
    rw [Indentation.closeFrames]
    simp [htop, hnext, closeFrames_block (Or.inr hlist) hconsumed]
  | last htop hlist himplicit hnext =>
    rw [Indentation.closeFrames]
    simp [htop, hnext, himplicit, closeFrames_block (Or.inr hlist) hconsumed]
  | lastBelowKey htop himplicit hvalue hkey hmapping hnext =>
    rw [Indentation.closeFrames]
    simp [htop, hkind, himplicit, hnext, closeFrames_skip,
      closeFrames_value hend hconsumed hvalue hkey hmapping]

/-- A tag or an anchor leaves the frames around its node. -/
theorem Closes.closeFrames_decoration (h : Closes next (top :: below) closed)
    (hkind : isDecoration t.curr.kind = true)
    (hnext : top.kind = .blockEntry → t.nextKind ≠ some .blockEntry ∧ t.nextKind ≠ some .blockEnd) :
    Indentation.closeFrames t false false (top :: below) = (top :: below, true) := by
  cases h with
  | between htop | last htop | lastBelowKey htop => simp [Indentation.closeFrames, *]
  | _ => simp [Indentation.closeFrames, *]

/-! Walks over tokens. -/

/-- The check goes over tokens of one stream, before `after`, without a complaint. -/
def Passes (after : List Lexeme) (s : Indentation) (prev : Option Lexeme)
    (path : List (Container × Mark)) : List Lexeme → Indentation → Prop
  | [], s' => s' = s
  | l :: r, s' => l.kind ≠ .streamStart ∧
    ∃ s₁, s.check ⟨l, prev, (r ++ after).head?, (r ++ after)[1]?, path⟩ = (.fits, s₁) ∧
      Passes after s₁ (some l) (Element.pathAfter path l) r s'

/-- From each state with these frames on line `m`, tokens lead to one with other frames on line
`n`. -/
def Walks (frames : List Frame) (m : Nat) (ls after : List Lexeme) (closed : List Frame) (n : Nat) :
    Prop :=
  ∀ (s : Indentation) (prev : Option Lexeme) (path : List (Container × Mark)), s.Stands frames m →
    ∃ s', Passes after s prev path ls s' ∧ s'.Stands closed n

variable {ls r after : List Lexeme} {opened : List Frame} {k m : Nat}

theorem Walks.nil : Walks frames n [] after frames n :=
  fun s _ _ h => ⟨s, rfl, h⟩

theorem Walks.mono {m' n' : Nat} (h : Walks frames m ls after closed n) (hm : m ≤ m')
    (hn : n' ≤ n) : Walks frames m' ls after closed n' := fun s prev path hs => by
  obtain ⟨s', hpasses, hs'⟩ := h s prev path (hs.mono hm)
  exact ⟨s', hpasses, hs'.mono hn⟩

theorem Passes.append {s s₁ : Indentation} {prev : Option Lexeme} {path : List (Container × Mark)}
    (h : Passes (r ++ after) s prev path ls s₁)
    (hr : ∀ prev path, ∃ s', Passes after s₁ prev path r s' ∧ s'.Stands closed n) :
    ∃ s', Passes after s prev path (ls ++ r) s' ∧ s'.Stands closed n := by
  induction ls generalizing s prev path with
  | nil =>
    cases h
    exact hr prev path
  | cons l ls ih =>
    obtain ⟨hkind, s₂, hcheck, h⟩ := h
    rw [← List.append_assoc] at hcheck
    obtain ⟨s', hpasses, hs'⟩ := ih h
    exact ⟨s', ⟨hkind, s₂, hcheck, hpasses⟩, hs'⟩

theorem Walks.append (h : Walks frames m ls (r ++ after) opened k)
    (hr : Walks opened k r after closed n) : Walks frames m (ls ++ r) after closed n :=
  fun s prev path hs => by
    obtain ⟨s₁, hpasses, hs₁⟩ := h s prev path hs
    exact hpasses.append fun prev path => hr s₁ prev path hs₁

theorem Walks.cons (h : Walks frames m [l] (r ++ after) opened k)
    (hr : Walks opened k r after closed n) : Walks frames m (l :: r) after closed n :=
  h.append hr

/-- A walk over one token that fits, opens frames and closes some. -/
theorem Walks.token (hkind : l.kind ≠ .streamStart) (hfits : Fits top n l)
    (henter : ∀ (t : TokenView) (s₁ : Indentation), t.curr = l → t.next = after.head? →
      t.nextNext = after[1]? → s₁.Stands (top :: below) (lineAfter n l) →
      ∃ s₂ opened, s₁.enter t = some s₂ ∧ s₂.Stands opened (lineAfter n l) ∧
        closeFrames t false false opened = (closed, true)) :
    Walks (top :: below) n [l] after closed (lineAfter n l) := fun s prev path hs => by
  obtain ⟨s₁, hplace, hs₁⟩ := hs.place hfits
  obtain ⟨s₂, opened, henter, hs₂, hclose⟩ :=
    henter ⟨l, prev, after.head?, after[1]?, path⟩ s₁ rfl rfl rfl hs₁
  obtain ⟨s', hcheck, hs'⟩ := check_eq hs.top?_eq hplace henter hs₂ hclose
  exact ⟨s', ⟨hkind, s', hcheck, rfl⟩, hs'⟩

/-- Tokens of a stream that open no frames. -/
def opensNothing : TokenKind → Bool
  | .streamStart | .blockMappingStart | .blockSequenceStart | .flowMappingStart
  | .flowSequenceStart | .blockEntry | .key | .value => false
  | _ => true

theorem enter_of_opensNothing {t : TokenView} (h : opensNothing t.curr.kind = true)
    (s : Indentation) : s.enter t = some s := by
  unfold enter
  cases hk : t.curr.kind <;> rw [hk] at h <;> first | rfl | cases h

/-- A walk over one token that opens no frames. -/
theorem Walks.still (hfits : Fits top n l) (hkind : opensNothing l.kind = true)
    (hclose : ∀ t : TokenView, t.curr = l → t.next = after.head? →
      closeFrames t false false (top :: below) = (closed, true)) :
    Walks (top :: below) n [l] after closed (lineAfter n l) := by
  refine .token (fun hstart => ?_) hfits fun t s₁ hcurr hnext _ hs₁ =>
    ⟨s₁, _, ?_, hs₁, hclose t hcurr hnext⟩
  · rw [hstart] at hkind
    cases hkind
  · exact enter_of_opensNothing (by rwa [hcurr]) s₁

theorem lineAfter_onLine (h : l.OnLine n) : lineAfter n l = n := by
  unfold lineAfter lastLine
  rw [h.1, h.2]
  simp

/-- The kind of the first of some tokens. -/
def kindOf? (ls : List Lexeme) : Option TokenKind :=
  ls.head?.map (·.kind)

/-- The token that ends a flow collection closes its frame. -/
theorem closeFrames_flow {flow : Frame} {frames : List Frame}
    (hkinds : flow.kind = .flowMapping ∧ t.curr.kind = .flowMappingEnd ∨
      flow.kind = .flowSequence ∧ t.curr.kind = .flowSequenceEnd) :
    closeFrames t false false (flow :: frames) = closeFrames t true false frames := by
  rw [closeFrames]
  rcases hkinds with ⟨hflow, hkind⟩ | ⟨hflow, hkind⟩ <;> simp [hflow, hkind]

/-- A flow collection without items. -/
theorem walks_flow {first last : Lexeme} {kind : FrameKind}
    (hkinds : kind = .flowMapping ∧ first.kind = .flowMappingStart ∧ last.kind = .flowMappingEnd ∨
      kind = .flowSequence ∧ first.kind = .flowSequenceStart ∧ last.kind = .flowSequenceEnd)
    (hfirst : first.OnLine n) (hlast : last.start.line = n)
    (hcloses : Closes (kindOf? after) (top :: below) closed) :
    Walks (top :: below) n [first, last] after closed 0 := fun s prev path hs => by
  obtain ⟨s₁, hplace, hs₁⟩ := hs.place (l := first) (Or.inr (Or.inl (Nat.le_of_eq hfirst.1)))
  rw [lineAfter_onLine hfirst] at hs₁
  let t : TokenView := ⟨first, prev, some last, ([last] ++ after)[1]?, path⟩
  let flow : Frame := { kind, indent := last.start.column, lineIndent := some s₁.lineIndent }
  have henter : s₁.enter t = some (s₁.push flow) := by
    have hopen : s₁.enter t = s₁.openFlow kind t := by
      unfold enter
      rcases hkinds with ⟨rfl, hkind, _⟩ | ⟨rfl, hkind, _⟩ <;> rw [show t.curr.kind = _ from hkind]
    rw [hopen]
    unfold openFlow
    simp [t, flow, hlast, hfirst.1]
  have hstay : closeFrames t false false (flow :: top :: below) = (flow :: top :: below, true) := by
    rw [closeFrames]
    rcases hkinds with ⟨rfl, hkind, _⟩ | ⟨rfl, hkind, _⟩ <;> simp [t, flow, hkind]
  obtain ⟨s₂, hcheck, hs₂⟩ := check_eq hs.top?_eq hplace henter (hs₁.push flow) hstay
  have hwalk : Walks (flow :: top :: below) n [last] after closed (lineAfter n last) := by
    refine .still (Or.inr (Or.inl (Nat.le_of_eq hlast))) ?_ fun t hcurr hnext => ?_
    · rcases hkinds with ⟨_, _, hkind⟩ | ⟨_, _, hkind⟩ <;> rw [hkind] <;> rfl
    · have hclose : t.nextKind = kindOf? after := congrArg (Option.map _) hnext
      have hends : kind = .flowMapping ∧ t.curr.kind = .flowMappingEnd ∨
          kind = .flowSequence ∧ t.curr.kind = .flowSequenceEnd := by
        rw [hcurr]
        exact hkinds.imp (fun h => ⟨h.1, h.2.2⟩) fun h => ⟨h.1, h.2.2⟩
      rw [closeFrames_flow hends]
      refine Closes.closeFrames (hclose ▸ hcloses) ?_ (Or.inl rfl)
      rcases hkinds with ⟨_, _, hkind⟩ | ⟨_, _, hkind⟩ <;> rw [hcurr, hkind] <;> rfl
  obtain ⟨s', hpasses, hs'⟩ := hwalk s₂ (some first) (Element.pathAfter path first) hs₂
  refine ⟨s', ⟨?_, s₂, hcheck, hpasses⟩, hs'.mono (Nat.zero_le _)⟩
  rcases hkinds with ⟨_, hkind, _⟩ | ⟨_, hkind, _⟩ <;> rw [hkind] <;> exact TokenKind.noConfusion

end Indentation

end Blueprint
