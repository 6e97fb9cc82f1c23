import Blueprint.Proofs.TokenOrder

/-!
The scanner of documents keeps its tokens in the order of the text, whatever it reads next.
-/

namespace Blueprint.Yaml

/-- A position that a reader of the text passes. -/
def IsPlace (text : List Char) (m : Mark) : Prop :=
  ∃ n, m = ((Cursor.ofList text).skip .document n).mark

/-- The start of the line after the one in which the text ends. -/
def IsAfterEnd (text : List Char) (m : Mark) : Prop :=
  ∃ n, isEnd ((Cursor.ofList text).skip .document n).first = true ∧
    m = ⟨((Cursor.ofList text).skip .document n).mark.index,
      ((Cursor.ofList text).skip .document n).mark.line + 1, 0⟩

/-- The ends of blocks and the bounds of the stream have no text of their own. -/
def TokenKind.isBound : TokenKind → Bool
  | .streamStart | .streamEnd | .blockEnd => true
  | _ => false

/-- A token stands at a place of the text; only one without text may stand after its end. -/
def Token.PlacedIn (text : List Char) (t : Token) : Prop :=
  IsPlace text t.mark ∨ (t.kind.isBound = true ∧ IsAfterEnd text t.mark)

/-- A cursor in a text: at one of its places or, once the end has been met, at the start of the line
after it. -/
def Cursor.Within (text : List Char) (c : Cursor) : Prop :=
  (∃ n, c = (Cursor.ofList text).skip .document n) ∨
    (isEnd c.first = true ∧ c.mark.column = 0 ∧ IsAfterEnd text c.mark)

theorem Cursor.Within.place {text : List Char} {c : Cursor} (h : c.Within text)
    (hne : isEnd c.first = false) : ∃ n, c = (Cursor.ofList text).skip .document n := by
  rcases h with h | ⟨hend, _⟩
  · exact h
  · rw [hne] at hend
    cases hend

/-- Before the end has been met, moving forward stays at the places of the text. -/
theorem Cursor.Within.reaches {text : List Char} {a b : Cursor} (h : a.Within text)
    (hne : isEnd a.first = false) (hr : a.Reaches .document b) :
    ∃ n, b = (Cursor.ofList text).skip .document n := by
  obtain ⟨n, rfl⟩ := h.place hne
  obtain ⟨m, rfl⟩ := hr
  exact ⟨n + m, (Cursor.skip_add .document n m _).symm⟩

theorem Cursor.Within.isPlace {text : List Char} {c : Cursor} (h : c.Within text)
    (hne : isEnd c.first = false) : IsPlace text c.mark := by
  obtain ⟨n, rfl⟩ := h.place hne
  exact ⟨n, rfl⟩

/-- A token without text may stand wherever the scanner stands. -/
theorem Cursor.Within.placedIn {text : List Char} {c : Cursor} (h : c.Within text)
    {kind : TokenKind} (hk : kind.isBound = true) : Token.PlacedIn text ⟨kind, c.mark⟩ := by
  rcases h with ⟨n, rfl⟩ | ⟨_, _, hafter⟩
  · exact Or.inl ⟨n, rfl⟩
  · exact Or.inr ⟨hk, hafter⟩

namespace Scanner

/-- The keys that may still be recognized, the innermost first. -/
def openKeys (s : Scanner) : List SimpleKey :=
  s.keys.filter (·.possible)

/-- The tokens handed out so far and those that wait are in the order of the text. -/
structure InOrder (text : List Char) (done : List Token) (s : Scanner) : Prop where
  taken : s.taken = done.length
  within : s.here.Within text
  tokens : TokensInOrder (Token.PlacedIn text) done.length (done ++ s.queue) s.mark s.openKeys

variable {text : List Char} {done : List Token} {s s' : Scanner}

/-- The order concerns nothing but the place reached, the tokens and the keys. -/
theorem InOrder.congr (h : s.InOrder text done) (hh : s'.here = s.here) (hq : s'.queue = s.queue)
    (ht : s'.taken = s.taken) (hk : s'.keys = s.keys) : s'.InOrder text done := by
  refine ⟨ht ▸ h.taken, hh ▸ h.within, ?_⟩
  have := h.tokens
  unfold openKeys Scanner.mark at this ⊢
  rwa [hh, hq, hk]

theorem InOrder.withKeys {ks : List SimpleKey} (h : s.InOrder text done)
    (hs : (ks.filter (·.possible)).Sublist s.openKeys) :
    ({ s with keys := ks } : Scanner).InOrder text done :=
  ⟨h.taken, h.within, h.tokens.sublist hs⟩

theorem InOrder.moved {c : Cursor} (h : s.InOrder text done) (hne : isEnd s.here.first = false)
    (hr : s.here.Reaches .document c) : ({ s with here := c } : Scanner).InOrder text done :=
  ⟨h.taken, Or.inl (h.within.reaches hne hr), h.tokens.moved hr.notAfter⟩

/-- A token that starts where the scanner stands is put at the end. -/
theorem InOrder.push {kind : TokenKind} (h : s.InOrder text done)
    (hp : Token.PlacedIn text ⟨kind, s.mark⟩) : (s.push kind s.mark).InOrder text done := by
  refine ⟨h.taken, h.within, ?_⟩
  have := h.tokens.push hp (.refl s.mark) (.refl s.mark)
  simpa [Scanner.push, openKeys, Scanner.mark] using this

theorem closeFrom_frame (column : Int) (outer : List Int) (s : Scanner) :
    (closeFrom column outer s).here = s.here ∧ (closeFrom column outer s).keys = s.keys ∧
      (closeFrom column outer s).flow = s.flow := by
  induction outer generalizing s with
  | nil => exact ⟨rfl, rfl, rfl⟩
  | cons indent r ih =>
    rw [closeFrom]
    split
    · exact ih _
    · exact ⟨rfl, rfl, rfl⟩

theorem closeBlocks_here (s : Scanner) (column : Int) : (s.closeBlocks column).here = s.here := by
  unfold closeBlocks
  split
  · rfl
  · exact (closeFrom_frame column s.indents s).1

theorem InOrder.closeFrom {column : Int} {outer : List Int} (h : s.InOrder text done) :
    (closeFrom column outer s).InOrder text done := by
  induction outer generalizing s with
  | nil => exact h
  | cons indent r ih =>
    rw [Scanner.closeFrom]
    split
    · exact ih ((h.push (h.within.placedIn rfl)).congr rfl rfl rfl rfl)
    · exact h

theorem InOrder.closeBlocks (h : s.InOrder text done) (column : Int) :
    (s.closeBlocks column).InOrder text done := by
  unfold Scanner.closeBlocks
  split
  · exact h
  · exact h.closeFrom

theorem dropStaleKeys_ok (h : s.dropStaleKeys = .ok s') :
    ∃ ks, s' = { s with keys := ks } ∧ (ks.filter (·.possible)).Sublist s.openKeys ∧
      ∀ k ∈ ks, k.possible → s.mark.line ≤ k.mark.line := by
  unfold dropStaleKeys at h
  dsimp only at h
  split at h
  · obtain ⟨_, hfail, _⟩ := bind_eq_ok.mp h
    cases hfail
  · cases h
    refine ⟨_, rfl, ?_, ?_⟩
    · unfold openKeys
      induction s.keys with
      | nil => exact .refl _
      | cons k r ih =>
        rw [List.map_cons, List.filter_cons, List.filter_cons]
        split <;> split <;> simp_all
    · intro k hk hp
      obtain ⟨j, _, rfl⟩ := List.mem_map.mp hk
      split at hp
      · cases hp
      next fresh =>
        rw [if_neg fresh]
        simp only [hp, Bool.true_and, Bool.or_eq_true, decide_eq_true_eq, not_or] at fresh
        omega

theorem dropKey_ok (h : s.dropKey = .ok s') :
    ∃ ks, s' = { s with keys := ks } ∧ (ks.filter (·.possible)).Sublist s.openKeys := by
  unfold dropKey at h
  split at h
  next hk =>
    cases h
    exact ⟨s.keys, rfl, .refl _⟩
  next k r hk =>
    split at h
    · cases h
    · cases h
      refine ⟨_, rfl, ?_⟩
      unfold openKeys
      rw [hk]
      exact (List.sublist_cons_self k r).filter _

theorem InOrder.dropKey (h : s.InOrder text done) (hs : s.dropKey = .ok s') :
    s'.InOrder text done ∧ s'.here = s.here := by
  obtain ⟨ks, rfl, hsub⟩ := dropKey_ok hs
  exact ⟨h.withKeys hsub, rfl⟩

theorem InOrder.saveKey (h : s.InOrder text done) (hne : isEnd s.here.first = false)
    (hs : s.saveKey .document = .ok s') :
    s'.InOrder text done ∧ s'.here = s.here := by
  unfold Scanner.saveKey at hs
  dsimp only at hs
  split at hs
  · cases hs
    exact ⟨h, rfl⟩
  · obtain ⟨t, ht, hs⟩ := bind_eq_ok.mp hs
    obtain ⟨ks, rfl, hsub⟩ := dropKey_ok ht
    cases hs
    have hdrop : ((ks.drop 1).filter (·.possible)).Sublist s.openKeys :=
      ((List.drop_sublist 1 ks).filter _).trans hsub
    refine ⟨⟨h.taken, h.within, ?_⟩, rfl⟩
    have hnum : s.taken + s.queue.length = (done ++ s.queue).length := by
      rw [List.length_append, h.taken]
    exact (h.tokens.sublist hdrop).save (by simp) hnum rfl (Or.inl (h.within.isPlace hne))

/-- A token read ahead of the scanner is put at the end, and the scanner goes on behind it. -/
theorem InOrder.read {kind : TokenKind} {first : Cursor} (h : s.InOrder text done)
    (hne : isEnd s.here.first = false) (hf : s.here.Reaches .document first)
    (hr : first.Reaches .document s'.here) (hq : s'.queue = s.queue ++ [⟨kind, first.mark⟩])
    (ht : s'.taken = s.taken) (hk : s'.openKeys.Sublist s.openKeys) : s'.InOrder text done := by
  refine ⟨ht ▸ h.taken, Or.inl (h.within.reaches hne (hf.trans hr)), ?_⟩
  obtain ⟨n, hn⟩ := h.within.reaches hne hf
  have := (h.tokens.sublist hk).push (t := ⟨kind, first.mark⟩) (Or.inl ⟨n, hn ▸ rfl⟩)
    hf.notAfter hr.notAfter
  rwa [hq, ← List.append_assoc]

theorem InOrder.openBlock (h : s.InOrder text done) (hne : isEnd s.here.first = false)
    (column : Nat) (kind : TokenKind) :
    (s.openBlock column none kind s.mark).InOrder text done := by
  unfold Scanner.openBlock
  split
  · exact h
  · exact (h.push (Or.inl (h.within.isPlace hne))).congr rfl rfl rfl rfl

theorem openBlock_here (s : Scanner) (column : Nat) (kind : TokenKind) :
    (s.openBlock column none kind s.mark).here = s.here := by
  unfold openBlock
  split
  · rfl
  · rfl

theorem InOrder.fetchStreamEnd (h : s.InOrder text done) (hend : isEnd s.here.first = true)
    (hs : s.fetchStreamEnd = .ok s') : s'.InOrder text done := by
  unfold Scanner.fetchStreamEnd at hs
  dsimp only at hs
  generalize hm : (if s.mark.column = 0 then s.mark
    else (⟨s.mark.index, s.mark.line + 1, 0⟩ : Mark)) = m at hs
  have later : s.mark.NotAfter m := by
    rw [← hm]
    split
    · exact .refl _
    · exact ⟨le_rfl, Nat.le_add_right _ _⟩
  have within : ({ s.here with mark := m } : Cursor).Within text := by
    rw [← hm]
    split
    · exact h.within
    next hcol =>
      rcases h.within with ⟨n, hn⟩ | ⟨_, hcol', _⟩
      · refine Or.inr ⟨hend, rfl, n, hn ▸ hend, ?_⟩
        rw [Scanner.mark, hn]
      · exact absurd hcol' hcol
  have h1 : ({ s with here := { s.here with mark := m } } : Scanner).InOrder text done :=
    ⟨h.taken, within, h.tokens.moved later⟩
  obtain ⟨t, ht, hs⟩ := bind_eq_ok.mp hs
  cases hs
  have h2 := ((h1.closeBlocks (-1)).dropKey ht).1
  exact (h2.push (h2.within.placedIn rfl)).congr rfl rfl rfl rfl

theorem InOrder.fetchDirective (h : s.InOrder text done) (hne : isEnd s.here.first = false)
    (hs : s.fetchDirective .document = .ok s') : s'.InOrder text done := by
  unfold Scanner.fetchDirective at hs
  obtain ⟨t, ht, hs⟩ := bind_eq_ok.mp hs
  obtain ⟨h1, hhere⟩ := (h.closeBlocks (-1)).dropKey ht
  rw [closeBlocks_here] at hhere
  obtain ⟨⟨kind, stop⟩, hread, hs⟩ := bind_eq_ok.mp hs
  cases hs
  exact h1.read (hhere ▸ hne) (.refl _ _) ((t.here.reaches_advance _).trans (readDirective_endsLine hread).reaches)
    rfl rfl (.refl _)

theorem InOrder.fetchIndicator {kind : TokenKind} (h : s.InOrder text done)
    (hne : isEnd s.here.first = false) (hs : s.fetchIndicator .document kind = .ok s') :
    s'.InOrder text done := by
  unfold Scanner.fetchIndicator at hs
  obtain ⟨t, ht, hs⟩ := bind_eq_ok.mp hs
  obtain ⟨h1, hhere⟩ := (h.closeBlocks (-1)).dropKey ht
  rw [closeBlocks_here] at hhere
  cases hs
  exact h1.read (hhere ▸ hne) (.refl _ _) (t.here.reaches_skip _ 3) rfl rfl (.refl _)

theorem InOrder.fetchFlowStart {kind : TokenKind} (h : s.InOrder text done)
    (hne : isEnd s.here.first = false) (hs : s.fetchFlowStart .document kind = .ok s') :
    s'.InOrder text done := by
  unfold Scanner.fetchFlowStart at hs
  obtain ⟨t, ht, hs⟩ := bind_eq_ok.mp hs
  obtain ⟨h1, hhere⟩ := h.saveKey hne ht
  dsimp only at hs
  split at hs
  · obtain ⟨_, hfail, _⟩ := bind_eq_ok.mp hs
    cases hfail
  · cases hs
    exact h1.read (hhere ▸ hne) (.refl _ _) (t.here.reaches_advance _) rfl rfl (.refl _)

theorem InOrder.fetchFlowEnd {kind : TokenKind} (h : s.InOrder text done)
    (hne : isEnd s.here.first = false) (hs : s.fetchFlowEnd .document kind = .ok s') :
    s'.InOrder text done := by
  unfold Scanner.fetchFlowEnd at hs
  obtain ⟨t, ht, hs⟩ := bind_eq_ok.mp hs
  obtain ⟨h1, hhere⟩ := h.dropKey ht
  cases hs
  refine h1.read (hhere ▸ hne) (.refl _ _) (t.here.reaches_advance _) rfl rfl ?_
  unfold openKeys
  dsimp only
  split
  · exact (List.drop_sublist 1 t.keys).filter _
  · exact .refl _

theorem InOrder.fetchFlowEntry (h : s.InOrder text done) (hne : isEnd s.here.first = false)
    (hs : s.fetchFlowEntry .document = .ok s') : s'.InOrder text done := by
  unfold Scanner.fetchFlowEntry at hs
  obtain ⟨t, ht, hs⟩ := bind_eq_ok.mp hs
  obtain ⟨h1, hhere⟩ := h.dropKey ht
  cases hs
  exact h1.read (hhere ▸ hne) (.refl _ _) (t.here.reaches_advance _) rfl rfl (.refl _)

theorem InOrder.fetchBlockEntry (h : s.InOrder text done) (hne : isEnd s.here.first = false)
    (hs : s.fetchBlockEntry .document = .ok s') : s'.InOrder text done := by
  unfold Scanner.fetchBlockEntry at hs
  dsimp only at hs
  split at hs
  · obtain ⟨_, hfail, _⟩ := bind_eq_ok.mp hs
    cases hfail
  · split at hs
    · obtain ⟨_, hfail, _⟩ := bind_eq_ok.mp hs
      cases hfail
    · obtain ⟨t, ht, hs⟩ := bind_eq_ok.mp hs
      obtain ⟨h1, hhere⟩ := (h.openBlock hne _ _).dropKey ht
      rw [openBlock_here] at hhere
      cases hs
      exact h1.read (hhere ▸ hne) (.refl _ _) (t.here.reaches_advance _) rfl rfl (.refl _)

theorem InOrder.fetchKey (h : s.InOrder text done) (hne : isEnd s.here.first = false)
    (hs : s.fetchKey .document = .ok s') : s'.InOrder text done := by
  unfold Scanner.fetchKey at hs
  dsimp only at hs
  split at hs
  · obtain ⟨_, hfail, _⟩ := bind_eq_ok.mp hs
    cases hfail
  · obtain ⟨t, ht, hs⟩ := bind_eq_ok.mp hs
    obtain ⟨h1, hhere⟩ := (h.openBlock hne _ _).dropKey ht
    rw [openBlock_here] at hhere
    cases hs
    exact h1.read (hhere ▸ hne) (.refl _ _) (t.here.reaches_advance _) rfl rfl (.refl _)

theorem InOrder.fetchAnchor {kind : String → TokenKind} (h : s.InOrder text done)
    (hne : isEnd s.here.first = false) (hs : s.fetchAnchor .document kind = .ok s') :
    s'.InOrder text done := by
  unfold Scanner.fetchAnchor at hs
  obtain ⟨t, ht, hs⟩ := bind_eq_ok.mp hs
  obtain ⟨h1, hhere⟩ := h.saveKey hne ht
  obtain ⟨⟨name, stop⟩, hread, hs⟩ := bind_eq_ok.mp hs
  cases hs
  exact h1.read (hhere ▸ hne) (.refl _ _) ((t.here.reaches_advance _).trans (readAnchor_passes hread).reaches) rfl rfl (.refl _)

theorem InOrder.fetchTag (h : s.InOrder text done) (hne : isEnd s.here.first = false)
    (hs : s.fetchTag .document = .ok s') : s'.InOrder text done := by
  unfold Scanner.fetchTag at hs
  obtain ⟨t, ht, hs⟩ := bind_eq_ok.mp hs
  obtain ⟨h1, hhere⟩ := h.saveKey hne ht
  obtain ⟨⟨tag, stop⟩, hread, hs⟩ := bind_eq_ok.mp hs
  cases hs
  exact h1.read (hhere ▸ hne) (.refl _ _) ((t.here.reaches_advance _).trans (readTag_passes hread).reaches) rfl rfl (.refl _)

/-- A scalar is put where its content starts, which a block scalar's header precedes. -/
theorem InOrder.scalar {style : ScalarStyle} {r : ScalarRead} (h : s.InOrder text done)
    (hne : isEnd s.here.first = false) (hr : r.From .document s.here)
    (hh : s'.here = r.stop) (hq : s'.queue = (s.pushScalar style r).queue)
    (ht : s'.taken = s.taken) (hk : s'.keys = s.keys) : s'.InOrder text done := by
  obtain ⟨first, hf, hstart, hstop⟩ := hr
  simp only [pushScalar, Scanner.push, hstart] at hq
  have hkeys : s'.openKeys = s.openKeys := by
    unfold openKeys
    rw [hk]
  exact h.read hne hf (hh ▸ hstop) hq ht (hkeys ▸ List.Sublist.refl _)

theorem InOrder.fetchBlockScalar {literal : Bool} (h : s.InOrder text done)
    (hne : isEnd s.here.first = false) (hs : s.fetchBlockScalar .document literal = .ok s') :
    s'.InOrder text done := by
  unfold Scanner.fetchBlockScalar at hs
  obtain ⟨t, ht, hs⟩ := bind_eq_ok.mp hs
  obtain ⟨h1, hhere⟩ := h.saveKey hne ht
  obtain ⟨r, hread, hs⟩ := bind_eq_ok.mp hs
  cases hs
  exact h1.scalar (hhere ▸ hne) (readBlock_from hread).of_advance rfl rfl rfl rfl

theorem InOrder.fetchQuoted {single : Bool} (h : s.InOrder text done)
    (hne : isEnd s.here.first = false) (hs : s.fetchQuoted .document single = .ok s') :
    s'.InOrder text done := by
  unfold Scanner.fetchQuoted at hs
  obtain ⟨t, ht, hs⟩ := bind_eq_ok.mp hs
  obtain ⟨h1, hhere⟩ := h.saveKey hne ht
  obtain ⟨r, hread, hs⟩ := bind_eq_ok.mp hs
  cases hs
  exact h1.scalar (hhere ▸ hne) (readQuoted_from hread) rfl rfl rfl rfl

theorem InOrder.fetchPlain (h : s.InOrder text done) (hne : isEnd s.here.first = false)
    (hs : s.fetchPlain .document = .ok s') : s'.InOrder text done := by
  unfold Scanner.fetchPlain at hs
  obtain ⟨t, ht, hs⟩ := bind_eq_ok.mp hs
  obtain ⟨h1, hhere⟩ := h.saveKey hne ht
  obtain ⟨r, hread, hs⟩ := bind_eq_ok.mp hs
  cases hs
  exact h1.scalar (hhere ▸ hne) (readPlain_from hread) rfl rfl rfl rfl

/-- Putting a token before the one with a number concerns the tokens that wait. -/
theorem append_insertAt (s : Scanner) {number : Nat} (kind : TokenKind) (m : Mark)
    (ht : s.taken = done.length) (hn : done.length ≤ number) :
    done ++ (s.insertAt number kind m).queue =
      (done ++ s.queue).take number ++ ⟨kind, m⟩ :: (done ++ s.queue).drop number := by
  rw [List.take_append, List.drop_append, List.take_of_length_le hn, List.drop_of_length_le hn,
    insertAt, ht]
  simp

/-- A colon on the line of a saved key recognizes the key. -/
theorem InOrder.recognize {k : SimpleKey} {r : List SimpleKey} (h : s.InOrder text done)
    (hne : isEnd s.here.first = false)
    (hk : s.keys = k :: r) (hp : k.possible = true) (hl : s.mark.line ≤ k.mark.line) :
    ({ (s.insertAt k.token .key k.mark).openBlock k.mark.column (some k.token) .blockMappingStart
        s.mark with keys := { k with possible := false } :: r } : Scanner).InOrder text done := by
  have tokens := h.tokens
  have hopen : s.openKeys = k :: r.filter (·.possible) := by
    simp [openKeys, hk, hp]
  rw [hopen] at tokens
  have fit := tokens.fits k (by simp)
  have hkey := append_insertAt s .key k.mark h.taken fit.waiting
  unfold Scanner.openBlock
  split
  · refine ⟨h.taken, h.within, ?_⟩
    have := tokens.insertKey
    rwa [← hkey] at this
  · refine ⟨h.taken, h.within, ?_⟩
    have := tokens.insertMapping hl (Or.inl (h.within.isPlace hne))
    have hmap := append_insertAt (s.insertAt k.token .key k.mark) .blockMappingStart s.mark
      h.taken fit.waiting
    rw [hkey, TokensInOrder.take_insert fit.counted, TokensInOrder.drop_insert fit.counted] at hmap
    rwa [← hmap] at this

/-- The colon is put after what it has recognized. -/
theorem InOrder.value {t : Scanner} (h : t.InOrder text done) (hhere : t.here = s.here)
    (hne : isEnd s.here.first = false) (hh : s'.here = t.here.advance .document)
    (hq : s'.queue = t.queue ++ [⟨.value, s.mark⟩]) (ht : s'.taken = t.taken)
    (hk : s'.openKeys.Sublist t.openKeys) : s'.InOrder text done := by
  have hq' : s'.queue = t.queue ++ [⟨.value, t.here.mark⟩] := by
    rw [hq, Scanner.mark, hhere]
  exact h.read (hhere ▸ hne) (.refl .document t.here) (hh ▸ t.here.reaches_advance _) hq' ht hk

theorem InOrder.fetchValue (h : s.InOrder text done) (hne : isEnd s.here.first = false)
    (fresh : ∀ k ∈ s.keys, k.possible → s.mark.line ≤ k.mark.line)
    (hs : s.fetchValue .document = .ok s') : s'.InOrder text done := by
  unfold Scanner.fetchValue at hs
  dsimp only at hs
  split at hs
  next =>
    cases hs
    exact h.read hne (.refl _ _) (s.here.reaches_advance _) rfl rfl (.refl _)
  next k r hk =>
    split at hs
    next hp =>
      cases hs
      have hl := fresh k (hk ▸ List.mem_cons_self) hp
      have h1 := h.recognize hne hk hp hl
      have hhere : ((s.insertAt k.token .key k.mark).openBlock k.mark.column (some k.token)
          .blockMappingStart s.mark).here = s.here := by
        unfold Scanner.openBlock
        split
        · rfl
        · rfl
      exact h1.value hhere hne rfl rfl rfl (.refl _)
    · split at hs
      · split at hs
        · obtain ⟨_, hfail, _⟩ := bind_eq_ok.mp hs
          cases hfail
        · cases hs
          have h1 := h.openBlock hne s.mark.column .blockMappingStart
          exact h1.value (openBlock_here s _ _) hne rfl rfl rfl (.refl _)
      · cases hs
        exact h.read hne (.refl _ _) (s.here.reaches_advance _) rfl rfl (.refl _)

end Scanner

end Blueprint.Yaml
