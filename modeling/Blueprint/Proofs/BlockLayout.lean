import Blueprint.Proofs.IndentationWalk

/-!
Block layout. Each level of a laid out document stands two columns deeper, lists below a key stand
at its column, and all else stands on the line of its key or hyphen. The check of indentation finds
nothing in it.
-/

namespace Blueprint

open Yaml (TokenKind)

namespace BlockLayout

open Indentation

def isLeaf : TokenKind → Bool
  | .scalar .. | .alias _ => true
  | _ => false

/-- A value that starts on line `n`: a scalar, an alias or an empty collection, after its tag and
anchor. -/
inductive Inline (n : Nat) : List Lexeme → Prop
  | leaf {l : Lexeme} : isLeaf l.kind = true → l.start.line = n → Inline n [l]
  | emptyMapping {first last : Lexeme} : first.kind = .flowMappingStart → first.OnLine n →
    last.kind = .flowMappingEnd → last.start.line = n → Inline n [first, last]
  | emptyList {first last : Lexeme} : first.kind = .flowSequenceStart → first.OnLine n →
    last.kind = .flowSequenceEnd → last.start.line = n → Inline n [first, last]
  | decorated {l : Lexeme} {value : List Lexeme} : isDecoration l.kind = true → l.OnLine n →
    Inline n value → Inline n (l :: value)

/-- A plain key and its colon, on one line at a column. -/
structure KeyAt (c n : Nat) (key name colon : Lexeme) : Prop where
  kind : key.kind = .key
  column : key.start.column = c
  bare : key.stop.index ≤ key.start.index
  line : key.OnLine n
  nameKind : name.isScalar = true
  nameLine : name.OnLine n
  colonKind : colon.kind = .value
  colonLine : colon.OnLine n

/-- At most one tag or anchor, on a line. -/
def LeadOn (n : Nat) (lead : List Lexeme) : Prop :=
  lead = [] ∨ ∃ l : Lexeme, lead = [l] ∧ isDecoration l.kind = true ∧ l.OnLine n

def StartsOn (n : Nat) (ls : List Lexeme) : Prop :=
  ∀ l ∈ ls.head?, l.start.line = n

def StartsBelow (n : Nat) (ls : List Lexeme) : Prop :=
  ∀ l ∈ ls.head?, n < l.start.line

mutual

/-- A block mapping at a column. -/
inductive Mapping : Nat → List Lexeme → Prop
  | block {c : Nat} {first last : Lexeme} {entries : List Lexeme} :
    first.kind = .blockMappingStart → first.start.column = c → StartsOn first.start.line entries →
    Entries c entries → last.kind = .blockEnd → Mapping c (first :: (entries ++ [last]))

/-- The entries of a mapping at a column. -/
inductive Entries : Nat → List Lexeme → Prop
  | last {c n : Nat} {key name colon : Lexeme} {value : List Lexeme} :
    KeyAt c n key name colon → Value c n value → Entries c (key :: name :: colon :: value)
  | cons {c n : Nat} {key name colon : Lexeme} {value rest : List Lexeme} :
    KeyAt c n key name colon → Value c n value → Entries c rest →
    Entries c (key :: name :: colon :: (value ++ rest))

/-- The value of a key at a column of line `n`. -/
inductive Value : Nat → Nat → List Lexeme → Prop
  | missing {c n : Nat} : Value c n []
  | inline {c n : Nat} {value : List Lexeme} : Inline n value → Value c n value
  | mapping {c n : Nat} {lead value : List Lexeme} : LeadOn n lead → StartsBelow n value →
    Mapping (c + 2) value → Value c n (lead ++ value)
  | list {c n : Nat} {lead value : List Lexeme} : LeadOn n lead → StartsBelow n value →
    Items c value → Value c n (lead ++ value)

/-- The items of a list at a column. -/
inductive Items : Nat → List Lexeme → Prop
  | last {c n : Nat} {hyphen : Lexeme} {item : List Lexeme} : hyphen.kind = .blockEntry →
    hyphen.start.column = c → hyphen.OnLine n → Item n item → Items c (hyphen :: item)
  | cons {c n : Nat} {hyphen : Lexeme} {item rest : List Lexeme} : hyphen.kind = .blockEntry →
    hyphen.start.column = c → hyphen.OnLine n → Item n item → Items c rest →
    Items c (hyphen :: (item ++ rest))

/-- What stands behind a hyphen on line `n`. A block may stand at any column there, and below a tag
or anchor at the column of that. -/
inductive Item : Nat → List Lexeme → Prop
  | inline {n : Nat} {item : List Lexeme} : Inline n item → Item n item
  | block {c n : Nat} {item : List Lexeme} : StartsOn n item → Block c item → Item n item
  | decorated {n : Nat} {l : Lexeme} {item : List Lexeme} : isDecoration l.kind = true →
    l.OnLine n → Block l.start.column item → Item n (l :: item)

/-- A block collection at a column. -/
inductive Block : Nat → List Lexeme → Prop
  | mapping {c : Nat} {ls : List Lexeme} : Mapping c ls → Block c ls
  | list {c : Nat} {first last : Lexeme} {items : List Lexeme} :
    first.kind = .blockSequenceStart → first.start.column = c →
    StartsOn first.start.line items → Items c items → last.kind = .blockEnd →
    Block c (first :: (items ++ [last]))

end

/-- The marks around a document. -/
def isMark : TokenKind → Bool
  | .versionDirective .. | .tagDirective .. | .documentStart | .documentEnd => true
  | _ => false

/-- One document that is a block. -/
inductive Document : List Lexeme → Prop
  | block {first last : Lexeme} {before root after : List Lexeme} : first.kind = .streamStart →
    (∀ l ∈ before ++ after, isMark l.kind = true ∧ l.start.column = 0) → Block 0 root →
    last.kind = .streamEnd → Document (first :: (before ++ (root ++ (after ++ [last]))))

/-! Values on a line. -/

variable {top mapping : Frame} {below closed : List Frame} {ls value item after : List Lexeme}
  {key name colon hyphen l : Lexeme} {c n : Nat}

/-- Tokens with which a value on the line of its key can start. -/
def startsInline : TokenKind → Bool
  | .scalar .. | .alias _ | .anchor _ | .tag _ | .flowMappingStart | .flowSequenceStart => true
  | _ => false

theorem startsInline_of_isDecoration {k : TokenKind} (h : isDecoration k = true) :
    startsInline k = true := by
  cases k <;> first | rfl | cases h

theorem Inline.head (h : Inline n value) :
    ∃ l r, value = l :: r ∧ l.start.line = n ∧ startsInline l.kind = true := by
  cases h with
  | @leaf l hkind hline =>
    refine ⟨l, [], rfl, hline, ?_⟩
    cases hk : l.kind <;> rw [hk] at hkind <;> first | rfl | cases hkind
  | emptyMapping hkind hline => exact ⟨_, _, rfl, hline.1, by rw [hkind]; rfl⟩
  | emptyList hkind hline => exact ⟨_, _, rfl, hline.1, by rw [hkind]; rfl⟩
  | decorated hkind hline => exact ⟨_, _, rfl, hline.1, startsInline_of_isDecoration hkind⟩

theorem goesOn_of_startsInline (h : startsInline l.kind = true) :
    l.kind ≠ .blockEntry ∧ l.kind ≠ .blockEnd := by
  cases hk : l.kind <;> rw [hk] at h <;> first | exact absurd h (by decide) | simp

/-- A tag or an anchor on the line that has been reached. -/
theorem walks_decoration {next : Option TokenKind} (hkind : isDecoration l.kind = true)
    (hline : l.OnLine n) (hcloses : Closes next (top :: below) closed)
    (hafter : top.kind = .blockEntry → kindOf? after ≠ some .blockEntry ∧
      kindOf? after ≠ some .blockEnd) :
    Walks (top :: below) n [l] after (top :: below) n := by
  have hwalk : Walks (top :: below) n [l] after (top :: below) (lineAfter n l) := by
    refine .still (Or.inr (Or.inl (Nat.le_of_eq hline.1))) ?_ fun t hcurr hnext => ?_
    · cases hk : l.kind <;> rw [hk] at hkind <;> first | rfl | cases hkind
    · have hnext' : t.nextKind = kindOf? after := congrArg (Option.map _) hnext
      exact hcloses.closeFrames_decoration (by rwa [hcurr]) (hnext' ▸ hafter)
  rwa [lineAfter_onLine hline] at hwalk

theorem Inline.walks (h : Inline n value) (hcloses : Closes (kindOf? after) (top :: below) closed) :
    Walks (top :: below) n value after closed 0 := by
  induction h with
  | @leaf l hkind hline =>
    have hleaf : opensNothing l.kind = true ∧ endsNode l.kind = true ∧ l.kind ≠ .blockEnd := by
      cases hk : l.kind <;> rw [hk] at hkind <;>
        first | exact ⟨rfl, rfl, TokenKind.noConfusion⟩ | cases hkind
    have hfits : Fits top n l := Or.inr (Or.inl (Nat.le_of_eq hline))
    refine .mono (.still hfits hleaf.1 fun t hcurr hnext => ?_) (Nat.le_refl _) (Nat.zero_le _)
    have hnext' : t.nextKind = kindOf? after := congrArg (Option.map _) hnext
    exact (hnext' ▸ hcloses).closeFrames (by rw [hcurr]; exact hleaf.2.1)
      (Or.inr (by rw [hcurr]; exact hleaf.2.2))
  | emptyMapping hfirst hline hlast hlast' =>
    exact walks_flow (Or.inl ⟨rfl, hfirst, hlast⟩) hline hlast' hcloses
  | emptyList hfirst hline hlast hlast' =>
    exact walks_flow (Or.inr ⟨rfl, hfirst, hlast⟩) hline hlast' hcloses
  | decorated hkind hline hvalue ih =>
    refine .cons (walks_decoration hkind hline hcloses fun _ => ?_) ih
    obtain ⟨l, r, rfl, _, hstart⟩ := hvalue.head
    simpa [kindOf?] using goesOn_of_startsInline hstart

/-! Keys and hyphens. -/

/-- The frame of a key at a column. -/
def keyFrame (c : Nat) : Frame where
  kind := .key
  indent := c

/-- The frames at the items of a list at a column; below a key the first item opens one. -/
def listFrames (c : Nat) : List Frame → List Frame
  | top :: below =>
    if top.kind = .blockSequence then top :: below
    else { kind := .blockSequence, indent := c, implicit := true } :: top :: below
  | [] => []

/-- The column at which the value of a key at column `c` of line `n` is expected. -/
inductive Expects (c n : Nat) (start : Lexeme) : Int → Prop
  | inline : start.start.line = n → Expects c n start start.start.column
  | mapping : start.start.line ≠ n → start.kind = .blockMappingStart → Expects c n start (c + 2)
  | list : start.start.line ≠ n → start.kind = .blockEntry → start.start.column = c →
    Expects c n start c

/-- A colon opens the frame of the value behind it. -/
theorem colon_opens {t : TokenView} {s : Indentation} {start : Lexeme} {indent : Int}
    (hkind : t.curr.kind = .value) (hline : t.curr.OnLine n) (hprev : t.prev = some name)
    (hname : name.OnLine n) (hs : s.Stands (keyFrame c :: below) n)
    (hstart : valueStart t name = some start) (hgoes : endsKey start.kind = false)
    (hexpects : Expects c n start indent) :
    ∃ s', s.check t = (.fits, s') ∧
      s'.Stands ({ kind := .value, indent } :: keyFrame c :: below) n := by
  obtain ⟨s₁, hplace, hs₁⟩ := hs.place (l := t.curr) (Or.inr (Or.inl (Nat.le_of_eq hline.1)))
  rw [lineAfter_onLine hline] at hs₁
  have hopens : ∃ s₂, s₁.openValue t = some s₂ ∧
      s₂.Stands ({ kind := .value, indent } :: keyFrame c :: below) n := by
    unfold openValue
    rw [hs₁.top?_eq, hprev]
    dsimp only
    rw [hstart]
    dsimp only
    cases hexpects with
    | inline hinline => exact ⟨_, by simp [keyFrame, hgoes, hinline, hname.1], hs₁.push _⟩
    | mapping hbelow hmapping =>
      exact ⟨_, by simp [keyFrame, hmapping, hbelow, hname.1, hs₁.expect, endsKey], hs₁.push _⟩
    | list hbelow hentry hcolumn =>
      obtain ⟨s₂, hs₂, hstands⟩ := hs₁.sequenceIndent hcolumn
      exact ⟨_, by simp [keyFrame, hentry, hbelow, hname.1, hs₂, endsKey], hstands.push _⟩
  obtain ⟨s₂, henter, hs₂⟩ := hopens
  refine check_eq hs.top?_eq hplace (by unfold enter; rw [hkind]; exact henter) hs₂ ?_
  rw [closeFrames]
  simp [hkind]

/-- The frame of an item that starts with a token. -/
def itemFrame (l : Lexeme) : Frame where
  kind := .blockEntry
  indent := l.start.column

/-- A hyphen opens the frame of its item at the column at which that starts. -/
theorem walks_hyphen (hkind : hyphen.kind = .blockEntry) (hcolumn : hyphen.start.column = c)
    (hline : hyphen.OnLine n) (htop : top.indent = c ∧ top.explicitKey = false)
    (hstart : l.start.line = n)
    (hgoes : l.kind ≠ .blockEntry ∧ l.kind ≠ .blockEnd) :
    Walks (top :: below) 0 [hyphen] (l :: after)
      (itemFrame l :: listFrames c (top :: below)) n := by
  have hafter : n ≤ lineAfter 0 hyphen := by
    unfold lineAfter
    rw [show showsText hyphen = true by unfold showsText; rw [hkind], if_pos rfl]
    unfold lastLine
    rw [hline.1, hline.2]
    simp
  have hfits : Fits top 0 hyphen :=
    Or.inr (Or.inr ⟨by rw [hcolumn, htop.1], by rw [hkind]; rfl, htop.2⟩)
  refine .mono (.token (by simp [hkind]) hfits fun t s hcurr hnext _ hs => ?_) (Nat.le_refl _)
    hafter
  have hnext' : t.nextKind = some l.kind := congrArg (Option.map _) hnext
  have hentry : s.enter t = s.openEntry t := by
    unfold enter
    rw [hcurr, hkind]
    simp [hnext', hgoes]
  have hopens : ∃ s₂, s.openEntry t = some s₂ ∧
      s₂.Stands (itemFrame l :: listFrames c (top :: below)) (lineAfter 0 hyphen) := by
    unfold openEntry
    rw [hnext, List.head?_cons, hcurr, hs.top?_eq]
    dsimp only
    rw [if_pos (Or.inl (hstart.trans hline.2.symm)), Option.map_some, listFrames]
    refine ⟨_, rfl, .push ?_ (itemFrame l)⟩
    dsimp only
    by_cases hlist : top.kind = .blockSequence
    · rw [if_pos (congrArg some hlist), if_pos hlist]
      exact hs
    · rw [if_neg fun h => hlist (Option.some.inj h), if_neg hlist, hcolumn]
      exact hs.push _
  obtain ⟨s₂, henter, hs₂⟩ := hopens
  refine ⟨s₂, _, hentry.trans henter, hs₂, ?_⟩
  rw [closeFrames]
  simp [itemFrame, hcurr, hkind, hnext', hgoes]

theorem Mapping.head (h : Mapping c ls) : ∃ l r, ls = l :: r ∧ l.start.column = c ∧
    l.kind = .blockMappingStart := by
  cases h with
  | block hkind hcolumn => exact ⟨_, _, rfl, hcolumn, hkind⟩

/-- A block starts with a token of its own at its column. -/
theorem Block.head (h : Block c ls) : ∃ l r, ls = l :: r ∧ l.start.column = c ∧
    (l.kind = .blockMappingStart ∨ l.kind = .blockSequenceStart) := by
  cases h with
  | mapping h =>
    obtain ⟨l, r, rfl, hcolumn, hkind⟩ := h.head
    exact ⟨l, r, rfl, hcolumn, Or.inl hkind⟩
  | list hkind hcolumn => exact ⟨_, _, rfl, hcolumn, Or.inr hkind⟩

theorem Items.head (h : Items c ls) : ∃ l r, ls = l :: r ∧ l.start.column = c ∧
    l.kind = .blockEntry := by
  cases h with
  | last hkind hcolumn => exact ⟨_, _, rfl, hcolumn, hkind⟩
  | cons hkind hcolumn => exact ⟨_, _, rfl, hcolumn, hkind⟩

theorem Item.head (h : Item n item) : ∃ l r, item = l :: r ∧ l.start.line = n ∧
    l.kind ≠ .blockEntry ∧ l.kind ≠ .blockEnd := by
  cases h with
  | inline h =>
    obtain ⟨l, r, rfl, hline, hstart⟩ := h.head
    exact ⟨l, r, rfl, hline, goesOn_of_startsInline hstart⟩
  | block hline h =>
    obtain ⟨l, r, rfl, _, hkind⟩ := h.head
    refine ⟨l, r, rfl, hline l rfl, ?_⟩
    rcases hkind with hkind | hkind <;> simp [hkind]
  | decorated hkind hline =>
    exact ⟨_, _, rfl, hline.1, goesOn_of_startsInline (startsInline_of_isDecoration hkind)⟩

theorem Entries.head (h : Entries c ls) : ∃ l r, ls = l :: r ∧ l.kind = .key := by
  cases h with
  | last hkey => exact ⟨_, _, rfl, hkey.kind⟩
  | cons hkey => exact ⟨_, _, rfl, hkey.kind⟩

/-- The end of a block closes its frame and the node that it is. -/
theorem walks_end {frame : Frame} {last : Lexeme}
    (hframe : frame.kind = .blockMapping ∨ frame.kind = .blockSequence)
    (hexplicit : frame.implicit = false) (hkind : last.kind = .blockEnd)
    (hcloses : Closes (kindOf? after) below closed) :
    Walks (frame :: below) 0 [last] after closed 0 := by
  have hhidden : showsText last = false := by unfold showsText; rw [hkind]
  refine .mono (.still (Or.inl hhidden) (by rw [hkind]; rfl) fun t hcurr hnext => ?_)
    (Nat.le_refl _) (Nat.zero_le _)
  have hnext' : t.nextKind = kindOf? after := congrArg (Option.map _) hnext
  have hclose : closeFrames t true false below = (closed, true) := (hnext' ▸ hcloses).closeFrames
    (by rw [hcurr, hkind]; rfl) (Or.inl rfl)
  rw [closeFrames]
  rcases hframe with hframe | hframe <;> simp [hframe, hcurr, hkind, hexplicit, hclose]

/-- The frame of a block collection at a column. -/
def blockFrame (kind : FrameKind) (c : Nat) : Frame where
  kind
  indent := c

/-- A block collection whose parts are walked over. -/
theorem walks_block {kind : FrameKind} {first last : Lexeme}
    (hkinds : kind = .blockMapping ∧ first.kind = .blockMappingStart ∧ kindOf? ls = some .key ∨
      kind = .blockSequence ∧ first.kind = .blockSequenceStart ∧ kindOf? ls = some .blockEntry)
    (hcolumn : first.start.column = c) (hline : StartsOn first.start.line ls)
    (hlast : last.kind = .blockEnd) (htop : top.indent = c ∧ top.explicitKey = false)
    (hcloses : Closes (kindOf? after) (top :: below) closed)
    (hinner : Walks (blockFrame kind c :: top :: below) 0 ls ([last] ++ after)
      (blockFrame kind c :: top :: below) 0) :
    Walks (top :: below) 0 (first :: (ls ++ [last])) after closed 0 := by
  have hblock : kind = .blockMapping ∨ kind = .blockSequence := hkinds.imp And.left And.left
  refine .cons ?_ (.append hinner (walks_end hblock rfl hlast hcloses))
  have hfits : Fits top 0 first := by
    refine Or.inr (Or.inr ⟨by rw [hcolumn, htop.1], ?_, htop.2⟩)
    rcases hkinds with ⟨_, hkind, _⟩ | ⟨_, hkind, _⟩ <;> rw [hkind] <;> rfl
  refine .mono (.token ?_ hfits fun t s hcurr hnext _ hs =>
    ⟨_, _, ?_, hs.push (blockFrame kind c), ?_⟩) (Nat.le_refl _) (Nat.zero_le _)
  · rcases hkinds with ⟨_, hkind, _⟩ | ⟨_, hkind, _⟩ <;> rw [hkind] <;> exact TokenKind.noConfusion
  · cases ls with
    | nil => rcases hkinds with ⟨_, _, hkind⟩ | ⟨_, _, hkind⟩ <;> cases hkind
    | cons l r =>
      have hopen : s.enter t = s.openBlock kind l.kind t := by
        unfold enter
        rcases hkinds with ⟨rfl, hkind, hl⟩ | ⟨rfl, hkind, hl⟩ <;>
          rw [hcurr, hkind, show l.kind = _ from Option.some.inj hl]
      rw [hopen]
      unfold openBlock
      rw [hnext, hcurr, List.cons_append, List.cons_append, List.head?_cons]
      dsimp only
      rw [if_pos ⟨rfl, hline l rfl⟩, hcolumn]
      rfl
  · refine closeFrames_block hblock (Or.inr ?_)
    rw [hcurr]
    rcases hkinds with ⟨_, hkind, _⟩ | ⟨_, hkind, _⟩ <;> rw [hkind] <;> exact TokenKind.noConfusion

/-- The first two tokens of an entry open the frame of its key. -/
theorem KeyAt.walks (h : KeyAt c n key name colon)
    (hindent : mapping.indent = c ∧ mapping.explicitKey = false)
    (hvalue : ∀ (s : Indentation) (path : List (Container × Mark)),
      s.Stands (keyFrame c :: mapping :: below) n →
      ∃ s', Passes after s (some name) path (colon :: value) s' ∧ s'.Stands closed 0) :
    Walks (mapping :: below) 0 (key :: name :: colon :: value) after closed 0 := by
  intro s prev path hs
  obtain ⟨text, style, hname⟩ : ∃ text style, name.kind = .scalar text style := by
    have hscalar := h.nameKind
    unfold Lexeme.isScalar Lexeme.scalar? at hscalar
    split at hscalar
    next text style hkind => exact ⟨text, style, hkind⟩
    · cases hscalar
  have hkey : Walks (mapping :: below) 0 [key] (name :: colon :: (value ++ after))
      (keyFrame c :: mapping :: below) n := by
    have hfits : Fits mapping 0 key :=
      Or.inr (Or.inr ⟨by rw [h.column, hindent.1], by rw [h.kind]; rfl, hindent.2⟩)
    have hline : n ≤ lineAfter 0 key := by
      unfold lineAfter lastLine
      rw [show showsText key = true by unfold showsText; rw [h.kind], h.line.1, h.line.2]
      simp
    refine .mono (.token (by simp [h.kind]) hfits fun t s hcurr hnext _ hs =>
      ⟨_, _, ?_, hs.push (keyFrame c), ?_⟩) (Nat.le_refl _) hline
    · have hbare : hasQuestionMark key = false := by
        unfold hasQuestionMark
        rw [decide_eq_false (Nat.not_lt.mpr h.bare), Bool.and_false]
      unfold enter
      rw [hcurr, h.kind]
      dsimp only
      rw [hs.top?_eq, Option.map_some, hbare, hindent.1]
      rfl
    · have hnext' : t.nextKind = some name.kind := congrArg (Option.map _) hnext
      rw [closeFrames]
      simp [keyFrame, hnext', hname, endsKey]
  have hwalk : Walks (keyFrame c :: mapping :: below) n [name] (colon :: (value ++ after))
      (keyFrame c :: mapping :: below) (lineAfter n name) := by
    refine .still (Or.inr (Or.inl (Nat.le_of_eq h.nameLine.1))) (by rw [hname]; rfl)
      fun t hcurr hnext => ?_
    have hnext' : t.nextKind = some colon.kind := congrArg (Option.map _) hnext
    rw [closeFrames]
    simp [keyFrame, hnext', h.colonKind, endsKey]
  rw [lineAfter_onLine h.nameLine] at hwalk
  obtain ⟨s₁, ⟨hkind₁, _, hcheck₁, rfl⟩, hs₁⟩ := hkey s prev path hs
  obtain ⟨s₂, ⟨hkind₂, _, hcheck₂, rfl⟩, hs₂⟩ :=
    hwalk s₁ (some key) (Element.pathAfter path key) hs₁
  obtain ⟨s', hpasses, hs'⟩ := hvalue s₂ _ hs₂
  exact ⟨s', ⟨hkind₁, s₁, hcheck₁, hkind₂, s₂, hcheck₂, hpasses⟩, hs'⟩

/-! Values. -/

theorem valueStart_of_plain {t : TokenView} (h : ∀ l ∈ t.next, isDecoration l.kind = false) :
    valueStart t name = t.next := by
  unfold valueStart
  split
  next l l' hl hl' =>
    rw [h l hl, if_neg fun hand => Bool.false_ne_true hand.1, hl]
  · rfl

/-- A tag or an anchor is not the start of a value below it. -/
theorem valueStart_of_lead {t : TokenView} {lead r : List Lexeme} (hlead : LeadOn n lead)
    (hname : name.OnLine n) (hbelow : n < l.start.line) (hkind : isDecoration l.kind = false)
    (hnext : t.next = (lead ++ l :: r).head?) (hnextNext : t.nextNext = (lead ++ l :: r)[1]?) :
    valueStart t name = some l := by
  rcases hlead with rfl | ⟨d, rfl, hd, hline⟩
  · rw [valueStart_of_plain fun l' hl' => ?_, hnext]
    · rfl
    · rw [hnext] at hl'
      rwa [← Option.some.inj hl']
  · unfold valueStart
    rw [hnext, hnextNext]
    simp [hd, hline.1, hname.1, hbelow]

theorem valueStart_inline {t : TokenView} {r : List Lexeme} (h : Inline n (l :: r))
    (hnext : t.next = (l :: (r ++ after)).head?)
    (hnextNext : t.nextNext = (l :: (r ++ after))[1]?) : valueStart t name = some l := by
  unfold valueStart
  rw [hnext, hnextNext]
  cases h with
  | leaf hkind =>
    have hplain : isDecoration l.kind = false := by
      cases hk : l.kind <;> rw [hk] at hkind <;> first | rfl | cases hkind
    cases after <;> simp [hplain]
  | emptyMapping hkind => simp [hkind, isDecoration]
  | emptyList hkind => simp [hkind, isDecoration]
  | decorated hkind hline hvalue =>
    obtain ⟨l', r', rfl, hline', _⟩ := hvalue.head
    simp [hline', hline.1]

/-- The tag or anchor before a value. -/
theorem LeadOn.walks {lead : List Lexeme} {next : Option TokenKind} (h : LeadOn n lead)
    (htop : top.kind = .value) (hcloses : Closes next (top :: below) closed) :
    Walks (top :: below) n lead after (top :: below) n := by
  rcases h with rfl | ⟨l, rfl, hkind, hline⟩
  · exact .nil
  · refine walks_decoration hkind hline hcloses fun hentry => ?_
    rw [htop] at hentry
    cases hentry

/-- The frames at the items of a list. -/
theorem listFrames_eq (htop : top.indent = c ∧ top.explicitKey = false) (below : List Frame) :
    ∃ list rest, listFrames c (top :: below) = list :: rest ∧ list.kind = .blockSequence ∧
      (list.indent = c ∧ list.explicitKey = false) ∧
      listFrames c (list :: rest) = list :: rest := by
  by_cases hkind : top.kind = .blockSequence
  · exact ⟨top, below, if_pos hkind, hkind, htop, if_pos hkind⟩
  · exact ⟨_, top :: below, if_neg hkind, rfl, ⟨rfl, rfl⟩, rfl⟩

/-- A value below the line of its key starts with a token at which its frame expects it. -/
theorem colon_walks {indent : Int} (hcolon : colon.kind = .value)
    (hline : colon.OnLine n) (hname : name.OnLine n)
    (hstart : ∀ t : TokenView, t.next = (value ++ after).head? → t.nextNext = (value ++ after)[1]? →
      valueStart t name = some l) (hgoes : endsKey l.kind = false) (hexpects : Expects c n l indent)
    (hvalue : Walks ({ kind := .value, indent } :: keyFrame c :: mapping :: below) n value after
      (mapping :: below) 0) {s : Indentation} {path : List (Container × Mark)}
    (hs : s.Stands (keyFrame c :: mapping :: below) n) :
    ∃ s', Passes after s (some name) path (colon :: value) s' ∧ s'.Stands (mapping :: below) 0 := by
  let t : TokenView := ⟨colon, some name, (value ++ after).head?, (value ++ after)[1]?, path⟩
  obtain ⟨s₁, hcheck, hs₁⟩ :=
    colon_opens (t := t) hcolon hline rfl hname hs (hstart t rfl rfl) hgoes hexpects
  obtain ⟨s', hpasses, hs'⟩ := hvalue s₁ (some colon) (Element.pathAfter path colon) hs₁
  exact ⟨s', ⟨by simp [hcolon], s₁, hcheck, hpasses⟩, hs'⟩

/-- A colon without a value ends its key. -/
theorem colon_missing (hcolon : colon.kind = .value) (hline : colon.OnLine n)
    (hmapping : mapping.kind = .blockMapping)
    (hafter : kindOf? after = some .key ∨ kindOf? after = some .blockEnd) {s : Indentation}
    {path : List (Container × Mark)} (hs : s.Stands (keyFrame c :: mapping :: below) n) :
    ∃ s', Passes after s (some name) path [colon] s' ∧ s'.Stands (mapping :: below) 0 := by
  let t : TokenView := ⟨colon, some name, after.head?, after[1]?, path⟩
  obtain ⟨l, hl, hends⟩ : ∃ l, t.next = some l ∧ (l.kind = .key ∨ l.kind = .blockEnd) := by
    cases after with
    | nil => rcases hafter with hafter | hafter <;> cases hafter
    | cons l r => exact ⟨l, rfl, hafter.imp Option.some.inj Option.some.inj⟩
  have hkind : t.curr.kind = .value := hcolon
  obtain ⟨s₁, hplace, hs₁⟩ := hs.place (l := colon) (Or.inr (Or.inl (Nat.le_of_eq hline.1)))
  have henter : s₁.enter t = some s₁ := by
    have hstart : valueStart t name = some l := by
      rw [valueStart_of_plain fun l' hl' => ?_, hl]
      rw [← Option.some.inj (hl.symm.trans hl')]
      rcases hends with hends | hends <;> rw [hends] <;> rfl
    unfold enter
    rw [hkind]
    dsimp only
    unfold openValue
    rw [hs₁.top?_eq, show t.prev = some name from rfl]
    dsimp only
    rw [hstart]
    rcases hends with hends | hends <;> simp [keyFrame, hends, endsKey]
  have hclose : closeFrames t false false (keyFrame c :: mapping :: below) =
      (mapping :: below, true) := by
    have hnext : t.nextKind = some l.kind := congrArg (Option.map _) hl
    have hblock : closeFrames t false false (mapping :: below) = (mapping :: below, true) :=
      closeFrames_block (Or.inl hmapping) (Or.inr (by rw [hkind]; exact TokenKind.noConfusion))
    rw [closeFrames]
    rcases hends with hends | hends <;> simp [keyFrame, hnext, hends, endsKey, hblock]
  obtain ⟨s', hcheck, hs'⟩ := check_eq (t := t) hs.top?_eq hplace henter hs₁ hclose
  exact ⟨s', ⟨by simp [hcolon], s', hcheck, rfl⟩, hs'.mono (Nat.zero_le _)⟩

mutual

theorem Mapping.walks {c : Nat} {ls : List Lexeme} (h : Mapping c ls) {after : List Lexeme}
    {top : Frame} {below closed : List Frame} (htop : top.indent = c ∧ top.explicitKey = false)
    (hcloses : Closes (kindOf? after) (top :: below) closed) :
    Walks (top :: below) 0 ls after closed 0 := by
  match h with
  | .block hfirst hcolumn hline hentries hlast =>
    obtain ⟨l, r, heq, hkey⟩ := hentries.head
    refine walks_block (Or.inl ⟨rfl, hfirst, ?_⟩) hcolumn hline hlast htop hcloses
      (hentries.walks ⟨rfl, rfl, rfl⟩ (congrArg some hlast))
    rw [heq]
    exact congrArg some hkey
termination_by structural h

theorem Entries.walks {c : Nat} {ls : List Lexeme} (h : Entries c ls) {after : List Lexeme}
    {mapping : Frame} {below : List Frame}
    (hmapping : mapping.kind = .blockMapping ∧ mapping.indent = c ∧ mapping.explicitKey = false)
    (hafter : kindOf? after = some .blockEnd) :
    Walks (mapping :: below) 0 ls after (mapping :: below) 0 := by
  match h with
  | .last hkey hvalue =>
    exact hkey.walks hmapping.2 fun s path hs =>
      hvalue.walks hkey.colonKind hkey.colonLine hkey.nameLine hmapping.1 (Or.inr hafter) hs
  | @Entries.cons _ n key name colon value rest hkey hvalue hrest =>
    obtain ⟨l, r, heq, hnext⟩ := hrest.head
    have hwalk : Walks (mapping :: below) 0 (key :: name :: colon :: value) (rest ++ after)
        (mapping :: below) 0 := hkey.walks hmapping.2 fun s path hs =>
      hvalue.walks hkey.colonKind hkey.colonLine hkey.nameLine hmapping.1
        (Or.inl (by rw [heq]; exact congrArg some hnext)) hs
    exact hwalk.append (hrest.walks hmapping hafter)
termination_by structural h

theorem Value.walks {c n : Nat} {value : List Lexeme} (h : Value c n value) {after : List Lexeme}
    {name colon : Lexeme} {mapping : Frame} {below : List Frame} {s : Indentation}
    {path : List (Container × Mark)} (hcolon : colon.kind = .value) (hline : colon.OnLine n)
    (hname : name.OnLine n) (hmapping : mapping.kind = .blockMapping)
    (hafter : kindOf? after = some .key ∨ kindOf? after = some .blockEnd)
    (hs : s.Stands (keyFrame c :: mapping :: below) n) :
    ∃ s', Passes after s (some name) path (colon :: value) s' ∧ s'.Stands (mapping :: below) 0 := by
  have hcloses (indent : Int) : Closes (kindOf? after)
      ({ kind := .value, indent } :: keyFrame c :: mapping :: below) (mapping :: below) :=
    .value rfl rfl hmapping
  match h with
  | .missing => exact colon_missing hcolon hline hmapping hafter hs
  | .inline hinline =>
    obtain ⟨l, r, rfl, hstart, hkind⟩ := hinline.head
    have hgoes : endsKey l.kind = false := by
      cases hk : l.kind <;> rw [hk] at hkind <;> first | rfl | cases hkind
    exact colon_walks hcolon hline hname (fun t hnext hnn => valueStart_inline hinline hnext hnn)
      hgoes (.inline hstart) (hinline.walks (hcloses _)) hs
  | @Value.mapping _ _ lead value hlead hbelow hvalue =>
    obtain ⟨l, r, heq, _, hkind⟩ := hvalue.head
    have hplain : isDecoration l.kind = false ∧ endsKey l.kind = false := by
      rw [hkind]
      exact ⟨rfl, rfl⟩
    have hwalk := hvalue.walks ⟨rfl, rfl⟩ (hcloses (c + 2 : Nat))
    subst heq
    refine colon_walks hcolon hline hname (fun t hnext hnn => ?_) hplain.2
      (.mapping (Nat.ne_of_gt (hbelow l rfl)) hkind)
      (.append (hlead.walks rfl (hcloses _)) (hwalk.mono (Nat.zero_le _) (Nat.le_refl _))) hs
    rw [List.append_assoc] at hnext hnn
    exact valueStart_of_lead hlead hname (hbelow l rfl) hplain.1 hnext hnn
  | @Value.list _ _ lead value hlead hbelow hvalue =>
    obtain ⟨l, r, heq, hcolumn, hkind⟩ := hvalue.head
    have hplain : isDecoration l.kind = false ∧ endsKey l.kind = false := by
      rw [hkind]
      exact ⟨rfl, rfl⟩
    have hends : kindOf? after ≠ some .blockEntry := by
      rcases hafter with hafter | hafter <;> rw [hafter] <;> simp
    let top : Frame := { kind := .value, indent := c }
    have hwalk : Walks (top :: keyFrame c :: mapping :: below) 0 value after (mapping :: below) 0 :=
      hvalue.walks ⟨rfl, rfl⟩ fun item hitem => .lastBelowKey hitem rfl rfl rfl hmapping hends
    subst heq
    refine colon_walks hcolon hline hname (fun t hnext hnn => ?_) hplain.2
      (.list (Nat.ne_of_gt (hbelow l rfl)) hkind hcolumn)
      (.append (hlead.walks rfl (hcloses _)) (hwalk.mono (Nat.zero_le _) (Nat.le_refl _))) hs
    rw [List.append_assoc] at hnext hnn
    exact valueStart_of_lead hlead hname (hbelow l rfl) hplain.1 hnext hnn
termination_by structural h

theorem Items.walks {c : Nat} {ls : List Lexeme} (h : Items c ls) {after : List Lexeme}
    {top : Frame} {below closed : List Frame} (htop : top.indent = c ∧ top.explicitKey = false)
    (hcloses : ∀ item : Frame, item.kind = .blockEntry →
      Closes (kindOf? after) (item :: listFrames c (top :: below)) closed) :
    Walks (top :: below) 0 ls after closed 0 := by
  match h with
  | @Items.last _ n hyphen item hkind hcolumn hline hitem =>
    obtain ⟨l, r, heq, hstart, hgoes⟩ := hitem.head
    have hwalk : Walks (itemFrame l :: listFrames c (top :: below)) n item after closed 0 :=
      hitem.walks rfl (by rw [heq]; rintro _ ⟨⟩; rfl) (hcloses _ rfl)
    subst heq
    exact .cons (walks_hyphen hkind hcolumn hline htop hstart hgoes) hwalk
  | @Items.cons _ n hyphen item rest hkind hcolumn hline hitem hrest =>
    obtain ⟨l, r, heq, hstart, hgoes⟩ := hitem.head
    obtain ⟨l', r', heq', _, hkind'⟩ := hrest.head
    obtain ⟨list, outer, hframes, hlist, hindent, hsame⟩ := listFrames_eq htop below
    have hwalk : Walks (itemFrame l :: list :: outer) n item (rest ++ after) (list :: outer) 0 := by
      refine hitem.walks rfl (by rw [heq]; rintro _ ⟨⟩; rfl) (.between rfl hlist ?_)
      rw [heq']
      exact congrArg some hkind'
    have hwalks := hrest.walks hindent fun item hitem => by
      rw [hsame, ← hframes]
      exact hcloses item hitem
    subst heq
    rw [← hframes] at hwalk
    exact .cons (walks_hyphen hkind hcolumn hline htop hstart hgoes)
      (.append hwalk (hframes ▸ hwalks))
termination_by structural h

theorem Item.walks {n : Nat} {item : List Lexeme} (h : Item n item) {after : List Lexeme}
    {top : Frame} {below closed : List Frame} (hexplicit : top.explicitKey = false)
    (hindent : ∀ l ∈ item.head?, top.indent = l.start.column)
    (hcloses : Closes (kindOf? after) (top :: below) closed) :
    Walks (top :: below) n item after closed 0 := by
  match h with
  | .inline h => exact h.walks hcloses
  | .block hline h =>
    obtain ⟨l, r, heq, hcolumn, _⟩ := h.head
    refine (h.walks ⟨?_, hexplicit⟩ hcloses).mono (Nat.zero_le _) (Nat.le_refl _)
    rw [hindent l (heq ▸ rfl), hcolumn]
  | @Item.decorated _ l value hkind hline h =>
    obtain ⟨l', r, heq, _, hkind'⟩ := h.head
    refine .cons (walks_decoration hkind hline hcloses fun _ => ?_)
      ((h.walks ⟨hindent l rfl, hexplicit⟩ hcloses).mono (Nat.zero_le _) (Nat.le_refl _))
    rw [heq]
    rcases hkind' with hkind' | hkind' <;> simp [kindOf?, hkind']
termination_by structural h

theorem Block.walks {c : Nat} {ls : List Lexeme} (h : Block c ls) {after : List Lexeme}
    {top : Frame} {below closed : List Frame} (htop : top.indent = c ∧ top.explicitKey = false)
    (hcloses : Closes (kindOf? after) (top :: below) closed) :
    Walks (top :: below) 0 ls after closed 0 := by
  match h with
  | .mapping h => exact h.walks htop hcloses
  | .list hfirst hcolumn hline hitems hlast =>
    obtain ⟨l, r, heq, _, hentry⟩ := hitems.head
    refine walks_block (Or.inr ⟨rfl, hfirst, ?_⟩) hcolumn hline hlast htop hcloses
      (hitems.walks ⟨rfl, rfl⟩ fun item hitem => .last hitem rfl rfl (congrArg some hlast))
    rw [heq]
    exact congrArg some hentry
termination_by structural h

end

/-! Documents. -/

/-- A token at the root that opens no frames. -/
theorem walks_root (hroot : top.kind = .root) (hfits : Fits top 0 l)
    (hkind : opensNothing l.kind = true) :
    Walks (top :: below) 0 [l] after (top :: below) 0 := by
  refine .mono (.still hfits hkind fun t _ _ => ?_) (Nat.le_refl _) (Nat.zero_le _)
  rw [closeFrames]
  simp [hroot]

theorem walks_marks {marks : List Lexeme} (hroot : top.kind = .root)
    (htop : top.indent = 0 ∧ top.explicitKey = false)
    (hmarks : ∀ l ∈ marks, isMark l.kind = true ∧ l.start.column = 0) :
    Walks (top :: below) 0 marks after (top :: below) 0 := by
  induction marks with
  | nil => exact .nil
  | cons l marks ih =>
    obtain ⟨hkind, hcolumn⟩ := hmarks l List.mem_cons_self
    have hopens : opensNothing l.kind = true ∧ isFlowEnd l.kind = false := by
      cases hk : l.kind <;> rw [hk] at hkind <;> first | exact ⟨rfl, rfl⟩ | cases hkind
    refine .cons (walks_root hroot (Or.inr (Or.inr ⟨?_, hopens.2, htop.2⟩)) hopens.1)
      (ih fun l' hl' => hmarks l' (List.mem_cons_of_mem l hl'))
    rw [hcolumn, htop.1]
    rfl

/-- The check goes over a laid out document without a complaint. -/
theorem Document.walks (h : Document ls) (hroot : top.kind = .root)
    (htop : top.indent = 0 ∧ top.explicitKey = false) :
    ∃ first r, ls = first :: r ∧ first.kind = .streamStart ∧
      Walks (top :: below) 0 r [] (top :: below) 0 := by
  cases h with
  | @block first last before root after hfirst hmarks hblock hlast =>
    have hend : showsText last = false ∧ opensNothing last.kind = true := by
      unfold showsText
      rw [hlast]
      exact ⟨rfl, rfl⟩
    refine ⟨first, _, rfl, hfirst, .append (walks_marks hroot htop fun l hl => ?_)
      (.append (hblock.walks htop (.root hroot)) (.append (walks_marks hroot htop fun l hl => ?_)
        (walks_root hroot (Or.inl hend.1) hend.2)))⟩
    · exact hmarks l (List.mem_append_left _ hl)
    · exact hmarks l (List.mem_append_right _ hl)

end BlockLayout

end Blueprint
