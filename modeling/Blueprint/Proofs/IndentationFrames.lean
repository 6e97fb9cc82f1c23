import Blueprint.Proofs.IndentationWalk
import Blueprint.Proofs.ParserEffects

/-!
The stack of the indentation check next to the stack of the parser. A collection of the parser has
one frame; while a node of it is read, the frames of its key, value or entry stand above. The check
is late in closing keys and values, so that some may be left above the frame of their mapping.
-/

namespace Blueprint

open Yaml (TokenKind Expect)

namespace Indentation

variable {t : TokenView} {consumed : Bool} {top key f : Frame} {fs above below frames : List Frame}
  {x y : Expect} {s : List Expect} {next : Option TokenKind}

/-! Keys and values that are left behind. -/

/-- Frames of values, each above that of its key. -/
inductive Spent : List Frame → Prop
  | nil : Spent []
  | value {value key : Frame} {fs : List Frame} (hvalue : value.kind = .value)
    (hkey : key.kind = .key) (h : Spent fs) : Spent (value :: key :: fs)

/-- The frame of a key, which may be above values that have been read. -/
inductive Marked : List Frame → Prop
  | key {key : Frame} {fs : List Frame} (hkey : key.kind = .key) (h : Spent fs) : Marked (key :: fs)

def Slack (fs : List Frame) : Prop :=
  Spent fs ∨ Marked fs

/-- What becomes of such frames before a token of the kind `next`: one that ends keys takes the key
off, before another one the key stays. -/
structure Settles (next : Option TokenKind) (fs fs' : List Frame) : Prop where
  slack : Slack fs'
  spent : next.any endsKey = true → Spent fs'
  marked : next.any endsKey = false → Marked fs → fs' = fs

/-- The tokens at which the value on top is not closed. -/
def keepsValue (k : TokenKind) : Bool :=
  k == .value || isDecoration k

/-- Values that have been read are closed. -/
theorem closeFrames_spent (h : Spent fs) (hkind : keepsValue t.curr.kind = false) :
    closeFrames t consumed false (fs ++ below) = closeFrames t consumed false below := by
  have hkind' : (t.curr.kind == .value || isDecoration t.curr.kind) = false := hkind
  induction h with
  | nil => rfl
  | @value value key fs hvalue hkey h ih =>
    rw [List.cons_append, List.cons_append, closeFrames]
    simp only [hvalue, hkind', hkey, List.head?_cons, Option.any_some, beq_self_eq_true, if_true,
      if_neg Bool.false_ne_true]
    rw [closeFrames_skip, ih]

/-- The frames of a collection are closed down to its own one, which stays. -/
theorem closeFrames_slack (h : Slack fs)
    (hstay : closeFrames t consumed false (f :: below) = (f :: below, true)) :
    ∃ fs', Settles t.nextKind fs fs' ∧
      closeFrames t consumed false (fs ++ f :: below) = (fs' ++ f :: below, true) := by
  have hspent {fs : List Frame} (h : Spent fs) : ∃ fs', Spent fs' ∧
      closeFrames t consumed false (fs ++ f :: below) = (fs' ++ f :: below, true) := by
    cases hkind : keepsValue t.curr.kind with
    | false => exact ⟨[], .nil, by rw [closeFrames_spent h hkind, hstay, List.nil_append]⟩
    | true =>
      have hkind' : (t.curr.kind == .value || isDecoration t.curr.kind) = true := hkind
      refine ⟨fs, h, ?_⟩
      cases h with
      | nil => exact hstay
      | value hvalue hkey h =>
        rw [List.cons_append, closeFrames]
        simp [hvalue, hkind']
  -- A value on top is closed or kept by the token itself, a key on top by the one behind it.
  rcases h with h | ⟨hkey, h⟩
  · obtain ⟨fs', h', hclose⟩ := hspent h
    refine ⟨fs', ⟨Or.inl h', fun _ => h', fun _ hmarked => ?_⟩, hclose⟩
    cases h with
    | nil => cases hmarked
    | value hvalue _ _ =>
      cases hmarked with
      | key hkey _ => cases hvalue.symm.trans hkey
  · cases hnext : t.nextKind.any endsKey with
    | false =>
      refine ⟨_, ⟨Or.inr (.key hkey h), fun hends => ?_, fun _ _ => rfl⟩, ?_⟩
      · rw [hnext] at hends
        cases hends
      · rw [List.cons_append, closeFrames]
        simp [hkey, hnext]
    | true =>
      obtain ⟨fs', h', hclose⟩ := hspent h
      refine ⟨fs', ⟨Or.inl h', fun _ => h', fun hkeeps => ?_⟩, ?_⟩
      · rw [hnext] at hkeeps
        cases hkeeps
      · rw [List.cons_append, closeFrames]
        simpa [hkey, hnext] using hclose

/-! The frames of collections. -/

/-- The frame of the collection in which the parser stands. -/
def frameKind : Expect → FrameKind
  | .blockSequence _ | .indentlessSequence => .blockSequence
  | .blockMappingKey _ | .blockMappingValue => .blockMapping
  | .flowSequence _ | .flowPairKey | .flowPairValue | .flowPairEnd => .flowSequence
  | .flowMappingKey _ | .flowMappingValue _ => .flowMapping
  | .document _ | .documentContent | .documentEnd | .blockNode | .nothing => .root

structure Holds (x : Expect) (f : Frame) : Prop where
  kind : f.kind = frameKind x
  implicit : f.implicit = (x.enclosure == .list)

theorem Holds.congr (h : Holds x f) (hkind : frameKind y = frameKind x)
    (hin : y.enclosure = x.enclosure) : Holds y f :=
  ⟨h.kind.trans hkind.symm, by rw [h.implicit, hin]⟩

/-- A collection is left open by every token but its own end. -/
theorem closeFrames_stays (h : Holds x f) (hin : x.enclosure ≠ .document)
    (hopen : consumed = true ∨ x.closer? ≠ some t.curr.kind) :
    closeFrames t consumed false (f :: below) = (f :: below, true) := by
  obtain ⟨hkind, himplicit⟩ := h
  rw [closeFrames]
  cases x with
  | document | documentContent | documentEnd | blockNode | nothing => exact absurd rfl hin
  | indentlessSequence => simp [hkind, himplicit, frameKind, Expect.enclosure]
  | _ =>
    rcases hopen with rfl | hne
    · simp [hkind, frameKind]
    · have hne' := fun heq => hne (congrArg some heq)
      simp [hkind, frameKind, Ne.symm hne']

/-- The end of a collection closes its frame. -/
theorem closeFrames_closes (h : Holds x f) (hclose : x.closer? = some t.curr.kind) :
    closeFrames t false false (f :: below) = closeFrames t true false below := by
  obtain ⟨hkind, himplicit⟩ := h
  rw [closeFrames]
  cases x with
  | document | documentContent | documentEnd | blockNode | nothing | indentlessSequence =>
    cases hclose
  | _ =>
    have hcurr := Option.some.inj hclose
    simp [hkind, himplicit, frameKind, Expect.enclosure, ← hcurr]

/-- What stands above the frame of a collection while a node of it is read. -/
def Above : Expect → List Frame → Prop
  | .blockMappingValue | .flowPairValue | .flowMappingValue false => Marked
  | .blockMappingKey false | .flowSequence false | .flowPairEnd | .flowMappingKey false
  | .flowMappingValue true => Slack
  | .blockSequence false | .indentlessSequence => fun fs => ∃ e, fs = [e] ∧ e.kind = .blockEntry
  | _ => fun _ => False

/-- The parser comes back to a block mapping. -/
def InMapping (s : List Expect) : Prop :=
  ∃ y r, s = y :: r ∧ y.takesLists = true ∧ y.resumes = true

/-- The frames while a node is read, behind which the parser comes back to the first part of its
stack. -/
inductive Inner : List Expect → List Frame → Prop
  | root {f : Frame} (hf : f.kind = .root) : Inner [.documentEnd] [f]
  | node {x : Expect} {s : List Expect} {above below : List Frame} {f : Frame}
    (habove : Above x above) (hf : Holds x f) (hlist : x = .indentlessSequence → InMapping s)
    (h : Inner s below) : Inner (x :: s) (above ++ f :: below)

theorem Inner.waits (h : Inner s frames) : ∃ y r, s = y :: r ∧ y.resumes = true := by
  cases h with
  | root hf => exact ⟨_, _, rfl, rfl⟩
  | @node x s above below f habove hf hlist h =>
    refine ⟨x, s, rfl, ?_⟩
    unfold Above at habove
    split at habove <;> first | rfl | cases habove

/-- The parser stands between the nodes of a collection, other than a sequence of blocks. -/
def isPart (x : Expect) : Bool :=
  x.enclosure != .document && x.enclosure != .list && frameKind x != .blockSequence

/-- Before a token of the kind `next`, the parser counts on the frame of a key. -/
def CountsOnKey : Expect → Option TokenKind → Prop
  | .blockMappingValue, next | .flowMappingValue false, next | .flowPairKey, next =>
    next.any endsKey = false
  | .flowPairValue, next => next = some .value
  | _, _ => False

/-- The parser goes no further. -/
def Stuck : Expect → Option TokenKind → Prop
  | .blockSequence _, next => next ≠ some .blockEntry ∧ next ≠ some .blockEnd
  | .blockMappingKey _, next | .blockMappingValue, next =>
    next.any Yaml.Parser.endsBlockPart = false
  | _, _ => False

/-- The frames between the nodes of such a collection. -/
inductive Part (x : Expect) (s : List Expect) (next : Option TokenKind) : List Frame → Prop
  | part {above below : List Frame} {f : Frame} (hslack : Slack above)
    (hspent : next.any endsKey = true → Spent above)
    (hmarked : CountsOnKey x next → Marked above) (hf : Holds x f) (h : Inner s below) :
    Part x s next (above ++ f :: below)

/-- The frames where the parser stands, before a token of the kind `next`. A list without a start has
a frame from its first entry on, unless that is empty. -/
inductive Rests : List Expect → Option TokenKind → List Frame → Prop
  | outside {x : Expect} {next : Option TokenKind} {f : Frame} (hx : x.enclosure = .document)
    (hroot : x ≠ .documentContent ∧ x ≠ .blockNode) (hf : f.kind = .root) : Rests [x] next [f]
  | content {x : Expect} {next : Option TokenKind} {f : Frame}
    (hx : x = .documentContent ∨ x = .blockNode) (hf : f.kind = .root) :
    Rests [x, .documentEnd] next [f]
  | sequence {first : Bool} {s : List Expect} {next : Option TokenKind} {f : Frame}
    {below : List Frame} (hf : Holds (.blockSequence first) f) (h : Inner s below) :
    Rests (.blockSequence first :: s) next (f :: below)
  | list {s : List Expect} {f : Frame} {below : List Frame} (hf : Holds .indentlessSequence f)
    (hlist : InMapping s) (h : Inner s below) :
    Rests (.indentlessSequence :: s) (some .blockEntry) (f :: below)
  | fresh {s : List Expect} {frames : List Frame} (hlist : InMapping s) (h : Inner s frames) :
    Rests (.indentlessSequence :: s) (some .blockEntry) frames
  | ended {s : List Expect} {next : Option TokenKind} {frames : List Frame}
    (hnext : next ≠ some .blockEntry) (hlist : InMapping s) (h : Rests s next frames) :
    Rests (.indentlessSequence :: s) next frames
  | part {x : Expect} {s : List Expect} {next : Option TokenKind} {frames : List Frame}
    (hx : isPart x = true) (h : Part x s next frames) : Rests (x :: s) next frames
  | stuck {x : Expect} {s : List Expect} {next : Option TokenKind} {frames below : List Frame}
    (hx : Stuck x next) (h : Inner s below) : Rests (x :: s) next frames

theorem CountsOnKey.keeps (h : CountsOnKey x next) : next.any endsKey = false := by
  unfold CountsOnKey at h
  split at h
  · exact h
  · exact h
  · exact h
  · rw [h]
    rfl
  · cases h

/-- Frames that have settled above that of a collection. -/
theorem Settles.part {fs' : List Frame} (h : Settles next fs fs')
    (hmarked : CountsOnKey x next → Marked fs) (hf : Holds x f) (hinner : Inner s below) :
    Part x s next (fs' ++ f :: below) := by
  refine .part h.slack h.spent (fun hcounts => ?_) hf hinner
  rw [h.marked hcounts.keeps (hmarked hcounts)]
  exact hmarked hcounts

/-- Where the parser counts on a key after a node, the key was left above. -/
theorem Above.marked (h : Above x above) (hcounts : CountsOnKey x next) : Marked above := by
  unfold CountsOnKey at hcounts
  split at hcounts
  · exact h
  · exact h
  · cases h
  · exact h
  · cases hcounts

/-- What stands above the frame of a collection is the frame of an entry in sequences of blocks, and
keys and values in all others. -/
theorem Above.cases (h : Above x above) : (isPart x = true ∧ Slack above) ∨
    ((∃ e, above = [e] ∧ e.kind = .blockEntry) ∧
      (x = .blockSequence false ∨ x = .indentlessSequence)) := by
  unfold Above at h
  split at h
  · exact Or.inl ⟨rfl, Or.inr h⟩
  · exact Or.inl ⟨rfl, Or.inr h⟩
  · exact Or.inl ⟨rfl, Or.inr h⟩
  · exact Or.inl ⟨rfl, h⟩
  · exact Or.inl ⟨rfl, h⟩
  · exact Or.inl ⟨rfl, h⟩
  · exact Or.inl ⟨rfl, h⟩
  · exact Or.inl ⟨rfl, h⟩
  · exact Or.inr ⟨h, Or.inl rfl⟩
  · exact Or.inr ⟨h, Or.inr rfl⟩
  · cases h

/-- Keys that have not been closed stay above their collection. -/
theorem Above.settles {fs' : List Frame} (h : Above x above) (hx : isPart x = true)
    (hsettles : Settles next above fs') (hnext : next.any endsKey = false) : Above x fs' := by
  have hmarked (h : Marked above) : Marked fs' := hsettles.marked hnext h ▸ h
  unfold Above at h ⊢
  split at h
  · exact hmarked h
  · exact hmarked h
  · exact hmarked h
  · exact hsettles.slack
  · exact hsettles.slack
  · exact hsettles.slack
  · exact hsettles.slack
  · exact hsettles.slack
  · cases hx
  · cases hx
  · cases h

theorem enclosure_of_isPart (h : isPart x = true) : x.enclosure ≠ .document := by
  intro hin
  rw [isPart, hin] at h
  cases h

/-- Two places in one collection. -/
structure Alike (x y : Expect) : Prop where
  kind : frameKind y = frameKind x
  inside : y.enclosure = x.enclosure
  part : isPart y = true

theorem Alike.refl (hx : isPart x = true) : Alike x x :=
  ⟨rfl, rfl, hx⟩

theorem Part.congr {frames : List Frame} (h : Part x s next frames) (hxy : Alike x y)
    (hcounts : CountsOnKey y next → CountsOnKey x next) : Part y s next frames := by
  obtain ⟨hslack, hspent, hmarked, hf, h⟩ := h
  exact .part hslack hspent (hmarked ∘ hcounts) (hf.congr hxy.kind hxy.inside) h

/-- The frames around a node that starts here. -/
theorem Part.inner {frames : List Frame} (h : Part x s next frames) (hxy : Alike x y)
    (habove : Above y = Slack ∨ Above y = Marked ∧ CountsOnKey x next) :
    Inner (y :: s) frames := by
  obtain ⟨hslack, -, hmarked, hf, h⟩ := h
  have hlist : y ≠ .indentlessSequence := by
    rintro rfl
    cases hxy.part
  refine .node ?_ (hf.congr hxy.kind hxy.inside) (fun heq => absurd heq hlist) h
  rcases habove with habove | ⟨habove, hcounts⟩
  · exact habove ▸ hslack
  · exact habove ▸ hmarked hcounts

/-- An entry is closed before the next one and at the end of the sequence. -/
theorem closeFrames_entry (htop : top.kind = .blockEntry)
    (hnext : t.nextKind = some .blockEntry ∨
      t.nextKind = some .blockEnd ∧ (t.curr.kind = .blockEntry ∨ f.implicit = false)) :
    closeFrames t consumed false (top :: f :: below) =
      closeFrames t consumed false (f :: below) := by
  rw [closeFrames]
  rcases hnext with hnext | ⟨hnext, hkind | himplicit⟩
  · simp [htop, hnext]
  · simp [htop, hnext, hkind]
  · simp [htop, hnext, himplicit]

/-- Before another token it stays, unless its list has ended. -/
theorem closeFrames_entry_stays (htop : top.kind = .blockEntry)
    (hnext : t.nextKind ≠ some .blockEntry) (hend : t.nextKind ≠ some .blockEnd)
    (hlist : t.curr.kind = .blockEntry ∨ f.implicit = false ∨ isDecoration t.curr.kind = true) :
    closeFrames t consumed false (top :: f :: below) = (top :: f :: below, true) := by
  rw [closeFrames]
  rcases hlist with hkind | himplicit | hdecoration
  · simp [htop, hnext, hend, hkind]
  · simp [htop, hnext, hend, himplicit]
  · simp [htop, hnext, hend, hdecoration]

/-- The end of a list is seen at the last token of its last entry. -/
theorem closeFrames_list (htop : top.kind = .blockEntry) (hnext : t.nextKind ≠ some .blockEntry)
    (hentry : t.curr.kind ≠ .blockEntry) (hdecoration : isDecoration t.curr.kind = false)
    (himplicit : f.implicit = true) :
    closeFrames t consumed false (top :: f :: below) = closeFrames t consumed false below := by
  rw [closeFrames]
  simp [htop, himplicit, hnext, hentry, hdecoration, closeFrames_skip]

/-- The collection around a node stays open at a token that is not its end. -/
theorem Inner.stays (below : List Frame) (hin : x.enclosure ≠ .document) (hf : Holds x f)
    (hopen : consumed = true ∨ t.curr.kind.closes = false) :
    closeFrames t consumed false (f :: below) = (f :: below, true) := by
  refine closeFrames_stays hf hin (hopen.imp_right fun hcloses hcloser => ?_)
  have hends : t.curr.kind.closes = true := by
    generalize t.curr.kind = k at hcloser ⊢
    unfold Expect.closer? at hcloser
    cases hx : x.enclosure <;> rw [hx] at hcloser <;> cases hcloser <;> rfl
  rw [hends] at hcloses
  cases hcloses

theorem closeFrames_root (hf : f.kind = .root) :
    closeFrames t consumed false (f :: below) = (f :: below, true) := by
  rw [closeFrames]
  simp [hf]

theorem Rests.root (hf : f.kind = .root) : Rests [.documentEnd] next [f] :=
  .outside rfl ⟨Expect.noConfusion, Expect.noConfusion⟩ hf

/-- Behind a node the frames of its collection are closed down to that of the collection, or to an
entry that has to be the last thing the parser reads. The end of a list is another matter. -/
theorem Inner.closes_own (habove : Above x above) (hf : Holds x f) (h : Inner s below)
    (hlist : x = .indentlessSequence → InMapping s ∧ t.nextKind = some .blockEntry)
    (hopen : consumed = true ∨ t.curr.kind.closes = false) :
    ∃ frames', closeFrames t consumed false (above ++ f :: below) = (frames', true) ∧
      Rests (x :: s) t.nextKind frames' := by
  rcases habove.cases with ⟨hx, hslack⟩ | ⟨⟨e, rfl, he⟩, rfl | rfl⟩
  · obtain ⟨above', hsettles, hclose⟩ :=
      closeFrames_slack hslack (Inner.stays below (enclosure_of_isPart hx) hf hopen)
    exact ⟨_, hclose, .part hx (hsettles.part habove.marked hf h)⟩
  · rw [List.singleton_append]
    have himplicit : f.implicit = false := hf.implicit
    by_cases hnext : t.nextKind = some .blockEntry ∨ t.nextKind = some .blockEnd
    · rw [closeFrames_entry he (hnext.imp_right fun hend => ⟨hend, Or.inr himplicit⟩),
        Inner.stays _ Yaml.Enclosure.noConfusion hf hopen]
      exact ⟨_, rfl, .sequence hf h⟩
    · obtain ⟨hnext, hend⟩ := not_or.mp hnext
      exact ⟨_, closeFrames_entry_stays he hnext hend (Or.inr (Or.inl himplicit)),
        .stuck ⟨hnext, hend⟩ h⟩
  · obtain ⟨hin, hnext⟩ := hlist rfl
    rw [List.singleton_append, closeFrames_entry he (Or.inl hnext),
      Inner.stays _ Yaml.Enclosure.noConfusion hf hopen, hnext]
    exact ⟨_, rfl, .list hf hin h⟩

/-- The last token of a node closes the frames that the node leaves. -/
theorem Inner.closes {frames : List Frame} (h : Inner s frames)
    (hkind : keepsValue t.curr.kind = false) (hentry : t.curr.kind ≠ .blockEntry)
    (hopen : consumed = true ∨ t.curr.kind.closes = false) :
    ∃ frames', closeFrames t consumed false frames = (frames', true) ∧
      Rests s t.nextKind frames' := by
  have hdecoration : isDecoration t.curr.kind = false := (Bool.or_eq_false_iff.mp hkind).2
  induction h with
  | @root f hf => exact ⟨[f], closeFrames_root hf, .root hf⟩
  | @node x s above below f habove hf hlist h ih =>
    by_cases hends : x = .indentlessSequence ∧ t.nextKind ≠ some .blockEntry
    · -- The end of a list is the end of a value of the mapping around it.
      obtain ⟨rfl, hnext⟩ := hends
      obtain ⟨e, rfl, he⟩ := habove
      rw [List.singleton_append, closeFrames_list he hnext hentry hdecoration hf.implicit]
      obtain ⟨frames', hclose, hrests⟩ := ih
      exact ⟨frames', hclose, .ended hnext (hlist rfl) hrests⟩
    · exact Inner.closes_own habove hf h
        (fun hx => ⟨hlist hx, Decidable.of_not_not fun hnext => hends ⟨hx, hnext⟩⟩) hopen

/-- Behind a list whose last entry was left open, the parser finds no end of its mapping. -/
theorem InMapping.stuck (h : InMapping s) (hinner : Inner s below)
    (hnext : next.any Yaml.Parser.endsBlockPart = false) {frames : List Frame} :
    Rests s next frames := by
  obtain ⟨y, r, rfl, hy, -⟩ := h
  cases hinner with
  | root => cases hy
  | node _ _ _ h =>
    refine .stuck ?_ h
    cases y <;> first | exact hnext | cases hy

theorem InMapping.not_list (h : InMapping (x :: s)) :
    x ≠ .blockSequence false ∧ x ≠ .indentlessSequence := by
  obtain ⟨y, r, heq, hy, -⟩ := h
  obtain ⟨rfl, rfl⟩ := List.cons.inj heq
  constructor <;> rintro rfl <;> cases hy

theorem closes_of_isDecoration {k : TokenKind} (h : isDecoration k = true) : k.closes = false := by
  cases k <;> first | rfl | cases h

/-- An anchor or a tag that is a whole node closes an entry only if the next token says so. That is
enough unless the parser ends a list there. -/
theorem Inner.closes_bare {frames : List Frame} (h : Inner s frames)
    (hkind : isDecoration t.curr.kind = true)
    (hlast : s.head? = some .indentlessSequence →
      t.nextKind.any Yaml.Parser.endsBlockPart = false) :
    ∃ frames', closeFrames t false false frames = (frames', true) ∧
      Rests s t.nextKind frames' := by
  cases h with
  | @root f hf => exact ⟨[f], closeFrames_root hf, .root hf⟩
  | @node x s above below f habove hf hlist h =>
    by_cases hends : x = .indentlessSequence ∧ t.nextKind ≠ some .blockEntry
    · obtain ⟨rfl, hnext⟩ := hends
      obtain ⟨e, rfl, he⟩ := habove
      have hends := hlast rfl
      have hend : t.nextKind ≠ some .blockEnd := fun heq => by
        rw [heq] at hends
        cases hends
      exact ⟨_, closeFrames_entry_stays he hnext hend (Or.inr (Or.inr hkind)),
        .ended hnext (hlist rfl) ((hlist rfl).stuck h hends)⟩
    · exact Inner.closes_own habove hf h
        (fun hx => ⟨hlist hx, Decidable.of_not_not fun hnext => hends ⟨hx, hnext⟩⟩)
        (Or.inr (closes_of_isDecoration hkind))

/-- A token before a node leaves the frames around it as they are, up to values that have been
read. -/
theorem Inner.keeps {frames : List Frame} (h : Inner s frames)
    (hcurr : isDecoration t.curr.kind = true ∨ InMapping s) (hopen : t.curr.kind.closes = false)
    (hnext : t.nextKind.any endsKey = false)
    (hentry : t.nextKind = some .blockEntry → InMapping s) :
    ∃ frames', closeFrames t false false frames = (frames', true) ∧ Inner s frames' := by
  cases h with
  | @root f hf => exact ⟨[f], closeFrames_root hf, .root hf⟩
  | @node x s above below f habove hf hlist h =>
    rcases habove.cases with ⟨hx, hslack⟩ | ⟨⟨e, rfl, he⟩, hx⟩
    · obtain ⟨above', hsettles, hclose⟩ := closeFrames_slack hslack
        (Inner.stays below (enclosure_of_isPart hx) hf (Or.inr hopen))
      exact ⟨_, hclose, .node (habove.settles hx hsettles hnext) hf hlist h⟩
    · have hout : ¬InMapping (x :: s) := fun hin => hx.elim hin.not_list.1 hin.not_list.2
      have hx : Above x [e] := by rcases hx with rfl | rfl <;> exact ⟨e, rfl, he⟩
      have hend : t.nextKind ≠ some .blockEnd := fun heq => by
        rw [heq] at hnext
        cases hnext
      exact ⟨_, closeFrames_entry_stays he (hout ∘ hentry) hend
        (Or.inr (Or.inr (hcurr.resolve_right hout))), .node hx hf hlist h⟩

/-! Where the parser stands. -/

theorem Rests.waits {stack : List Expect} {frames : List Frame} (h : Rests stack next frames)
    (hend : stack.head? ≠ some .nothing) : Expect.Waits stack := by
  cases h with
  | @outside x _ _ hx hroot =>
    cases x with
    | document | documentEnd => exact rfl
    | documentContent => exact absurd rfl hroot.1
    | blockNode => exact absurd rfl hroot.2
    | nothing => exact absurd rfl hend
    | _ => cases hx
  | content hx => rcases hx with rfl | rfl <;> exact ⟨_, _, rfl, rfl⟩
  | sequence _ h => exact h.waits
  | list _ _ h => exact h.waits
  | fresh _ h => exact h.waits
  | ended _ hlist _ =>
    obtain ⟨y, r, rfl, -, hy⟩ := hlist
    exact ⟨y, r, rfl, hy⟩
  | @part x s _ _ hx h =>
    obtain ⟨-, -, -, -, h⟩ := h
    cases x <;> first | exact h.waits | cases hx
  | @stuck x s _ _ _ hx h => cases x <;> first | exact h.waits | cases hx

theorem Rests.part_or_stuck {frames : List Frame} (h : Rests (x :: s) next frames)
    (hx : isPart x = true) : Part x s next frames ∨ Stuck x next ∧ ∃ below, Inner s below := by
  cases h with
  | outside hin => exact absurd hin (enclosure_of_isPart hx)
  | content hcontent => rcases hcontent with rfl | rfl <;> cases hx
  | sequence | list | fresh | ended => cases hx
  | part _ h => exact Or.inl h
  | stuck hstuck h => exact Or.inr ⟨hstuck, _, h⟩

theorem Rests.of_part {frames : List Frame} (h : Rests (x :: s) next frames)
    (hx : isPart x = true) (hstuck : ¬Stuck x next) : Part x s next frames :=
  (h.part_or_stuck hx).resolve_right fun h => hstuck h.1

theorem Rests.of_sequence {first : Bool} {frames : List Frame}
    (h : Rests (.blockSequence first :: s) next frames)
    (hnext : next = some .blockEntry ∨ next = some .blockEnd) :
    ∃ f below, frames = f :: below ∧ Holds (.blockSequence first) f ∧ Inner s below := by
  cases h with
  | outside hin => cases hin
  | content hcontent => rcases hcontent with h | h <;> cases h
  | sequence hf h => exact ⟨_, _, rfl, hf, h⟩
  | part hx => cases hx
  | stuck hx => exact absurd hnext (not_or.mpr hx)

theorem Rests.of_list {frames : List Frame}
    (h : Rests (.indentlessSequence :: s) (some .blockEntry) frames) :
    InMapping s ∧ ((∃ f below, frames = f :: below ∧ Holds .indentlessSequence f ∧ Inner s below) ∨
      Inner s frames) := by
  cases h with
  | outside hin => cases hin
  | content hcontent => rcases hcontent with h | h <;> cases h
  | list hf hlist h => exact ⟨hlist, Or.inl ⟨_, _, rfl, hf, h⟩⟩
  | fresh hlist h => exact ⟨hlist, Or.inr h⟩
  | ended hnext => exact absurd rfl hnext
  | part hx => cases hx
  | stuck hx => cases hx

theorem Rests.of_ended {frames : List Frame} (h : Rests (.indentlessSequence :: s) next frames)
    (hnext : next ≠ some .blockEntry) : Rests s next frames := by
  cases h with
  | outside hin => cases hin
  | content hcontent => rcases hcontent with h | h <;> cases h
  | list | fresh => exact absurd rfl hnext
  | ended _ _ h => exact h
  | part hx => cases hx
  | stuck hx => cases hx

/-- Around the root of a document and between documents there is one frame. -/
theorem Rests.of_document {frames : List Frame} (h : Rests (x :: s) next frames)
    (hx : x.enclosure = .document) : ∃ f, f.kind = .root ∧ frames = [f] := by
  cases h with
  | outside _ _ hf | content _ hf => exact ⟨_, hf, rfl⟩
  | sequence | list | fresh | ended => cases hx
  | part hpart => exact absurd hx (enclosure_of_isPart hpart)
  | stuck hstuck => cases x <;> first | exact hstuck.elim | cases hx

theorem Rests.of_content {frames : List Frame} (h : Rests (x :: s) next frames)
    (hx : x = .documentContent ∨ x = .blockNode) : s = [.documentEnd] := by
  cases h with
  | outside _ hroot => exact absurd hx (not_or.mpr hroot)
  | content => rfl
  | sequence | list | fresh | ended => rcases hx with h | h <;> cases h
  | part hpart => rcases hx with rfl | rfl <;> cases hpart
  | stuck hstuck => rcases hx with rfl | rfl <;> cases hstuck

end Indentation

end Blueprint
