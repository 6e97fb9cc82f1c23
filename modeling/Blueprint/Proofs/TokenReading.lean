import Blueprint.Proofs.PlainScalars
import Blueprint.Proofs.ScanOrder

/-!
What a scanner does when it reads one more token: which text is read as the token, and how the tokens
that wait and the keys that may still be recognized change.
-/

namespace Blueprint.Yaml

namespace TokenKind

def style? : TokenKind → Option ScalarStyle
  | .scalar _ style => some style
  | _ => none

def isPlain (k : TokenKind) : Bool :=
  k.style? == some .plain

def isBlockScalar (k : TokenKind) : Bool :=
  k.style? == some .literal || k.style? == some .folded

def isDirective : TokenKind → Bool
  | .versionDirective .. | .tagDirective .. => true
  | _ => false

/-- The marks of a document have three characters. -/
def isDocumentMark : TokenKind → Bool
  | .documentStart | .documentEnd => true
  | _ => false

/-- The other tokens that are read from a text of their own. -/
def isWord : TokenKind → Bool
  | .scalar .. | .documentStart | .documentEnd | .versionDirective .. | .tagDirective ..
  | .streamStart | .streamEnd | .blockEnd | .blockSequenceStart | .blockMappingStart => false
  | _ => true

/-- The character of a token that is a sign. -/
def sign? : TokenKind → Option Char
  | .flowSequenceStart => some '['
  | .flowSequenceEnd => some ']'
  | .flowMappingStart => some '\x7b'
  | .flowMappingEnd => some '\x7d'
  | .flowEntry => some ','
  | .blockEntry => some '-'
  | .key => some '?'
  | .value => some ':'
  | _ => none

theorem isWord_of_sign? {k : TokenKind} {c : Char} (h : k.sign? = some c) : k.isWord = true := by
  cases k <;> first | rfl | cases h

/-- The references of nodes to one another. -/
def isReference : TokenKind → Bool
  | .alias _ | .anchor _ => true
  | _ => false

/-- The tokens that stand for no text. -/
def isBare : TokenKind → Bool
  | .streamStart | .streamEnd | .blockEnd | .blockSequenceStart | .blockMappingStart | .key => true
  | _ => false

end TokenKind

def quotedStyle (single : Bool) : ScalarStyle :=
  if single then .singleQuoted else .doubleQuoted

/-- From `a` on, to just before `b`, there is no white space. -/
def WordAt (text : List Char) (a b : Nat) : Prop :=
  ∀ i, a ≤ i → i < b → inYamlWord .document (charAt text i) = true

theorem WordAt.single {text : List Char} {a : Nat}
    (h : inYamlWord .document (charAt text a) = true) : WordAt text a (a + 1) := by
  intro i ha hi
  rwa [Nat.le_antisymm (Nat.le_of_lt_succ hi) ha]

/-- The text from `a` on, to just before the last index, is read as a token. -/
inductive Spells (text : List Char) (a : Nat) : Token → Nat → Prop
  | plain {s : String} {b : Nat} : a < b → Spells text a ⟨.scalar s .plain, (placeAt text a).mark⟩ b
  | quoted {s : String} {single : Bool} {b : Nat} :
    a < b → b = quotedStop single (a + 1) (text.drop (a + 1)) →
    Spells text a ⟨.scalar s (quotedStyle single), (placeAt text a).mark⟩ b
  | block {s : String} {style : ScalarStyle} {c b : Nat} :
    style = .literal ∨ style = .folded → a < c → c ≤ b →
    Spells text a ⟨.scalar s style, (placeAt text c).mark⟩ b
  | documentMark {kind : TokenKind} : kind.isDocumentMark = true →
    (∀ i < 3, charAt text (a + i) ≠ '#') → Spells text a ⟨kind, (placeAt text a).mark⟩ (a + 3)
  | word {kind : TokenKind} {b : Nat} : kind.isWord = true → a < b → WordAt text a b →
    Spells text a ⟨kind, (placeAt text a).mark⟩ b
  | directive {kind : TokenKind} {b : Nat} : kind.isDirective = true → a < b →
    (∀ i, a ≤ i → i + 1 < b → charAt text i ≠ '\n') →
    Spells text a ⟨kind, (placeAt text a).mark⟩ b

/-- How the text of a token is written, from `a` on to just before the last index, and what stands
right behind it. -/
inductive Written (text : List Char) (a : Nat) : TokenKind → Nat → Prop
  | sign {kind : TokenKind} : kind.sign? = some (charAt text a) → Written text a kind (a + 1)
  | reference {kind : TokenKind} {b : Nat} : kind.isReference = true → a < b →
    (∀ i, a < i → i < b → isNameChar (charAt text i) = true) →
    endsAnchor .document (charAt text b) = true → Written text a kind b
  | tag {t : Tag} {b : Nat} : a < b → Dialect.document.isGap (charAt text b) = true →
    Written text a (.tag t) b
  | plain {s : List Char} {b : Nat} : PlainAt text a s b →
    Written text a (.scalar (String.ofList s) .plain) b
  | quoted {s : String} {single : Bool} {b : Nat} : a + 1 < b →
    charAt text (b - 1) = quoteOf single → Written text a (.scalar s (quotedStyle single)) b
  | block {s : String} {style : ScalarStyle} {b : Nat} : style = .literal ∨ style = .folded →
    Lexeme.opensBlockText (some (charAt text a)) = true →
    isEnd (charAt text b) = true ∨ inGap .document (charAt text (b - 1)) = true →
    Written text a (.scalar s style) b
  | documentMark {kind : TokenKind} : kind.isDocumentMark = true →
    Dialect.document.isGap (charAt text (a + 3)) = true → Written text a kind (a + 3)
  | directive {kind : TokenKind} {b : Nat} : kind.isDirective = true →
    isEnd (charAt text b) = true ∨ inGap .document (charAt text (b - 1)) = true →
    Written text a kind b

/-- The start of a block and the token that opens it. -/
inductive Opening : TokenKind → TokenKind → Prop
  | list : Opening .blockSequenceStart .blockEntry
  | key : Opening .blockMappingStart .key
  | value : Opening .blockMappingStart .value

theorem Opening.isWord {start kind : TokenKind} (h : Opening start kind) : kind.isWord = true := by
  cases h <;> rfl

theorem Opening.start {start kind : TokenKind} (h : Opening start kind) :
    start = .blockSequenceStart ∨ start = .blockMappingStart := by
  cases h
  · exact Or.inl rfl
  · exact Or.inr rfl
  · exact Or.inr rfl

/-- How the tokens that wait and the open keys change when `t` is read at `m`: it is put at the end,
behind the start of a block that it opens; it may be a key; or it is the colon of a saved key. -/
inductive Adds (ts : List Token) (ks : List SimpleKey) (m : Mark) :
    Token → List Token → List SimpleKey → Prop
  | push {t : Token} {ks' : List SimpleKey} : ks'.Sublist ks → Adds ts ks m t (ts ++ [t]) ks'
  | opens {start kind : TokenKind} {ks' : List SimpleKey} : Opening start kind →
    ks'.Sublist ks → Adds ts ks m ⟨kind, m⟩ (ts ++ [⟨start, m⟩, ⟨kind, m⟩]) ks'
  | save {t : Token} {k : SimpleKey} {ks' : List SimpleKey} :
    k.token = ts.length → k.mark = m → ks'.Sublist ks → Adds ts ks m t (ts ++ [t]) (k :: ks')
  | recognize {k : SimpleKey} {r ks' : List SimpleKey} {starts : List Token} :
    (k :: r).Sublist ks → starts = [] ∨ starts = [⟨.blockMappingStart, m⟩] → ks'.Sublist r →
    Adds ts ks m ⟨.value, m⟩
      (ts.take k.token ++ (starts ++ ⟨.key, k.mark⟩ :: ts.drop k.token) ++ [⟨.value, m⟩]) ks'

theorem Adds.mono {ts : List Token} {ks ks₁ : List SimpleKey} {m : Mark} {t : Token}
    {ts' : List Token} {ks' : List SimpleKey} (hsub : ks₁.Sublist ks) (h : Adds ts ks₁ m t ts' ks') :
    Adds ts ks m t ts' ks' := by
  cases h with
  | push hks => exact .push (hks.trans hsub)
  | opens hopening hks => exact .opens hopening (hks.trans hsub)
  | save hnumber hmark hks => exact .save hnumber hmark (hks.trans hsub)
  | recognize hk hstarts hks => exact .recognize (hk.trans hsub) hstarts hks

namespace Scanner

/-- What reading a token does to a scanner that stands at `a`: blocks end there, then the token is
added. -/
structure Steps (text : List Char) (s : Scanner) (a : Nat) (t : Token) (b : Nat) (s' : Scanner) :
    Prop where
  spells : Spells text a t b
  written : Written text a t.kind b
  here : s'.here = placeAt text b
  adds : ∃ ends : List Token, (∀ u ∈ ends, u = ⟨.blockEnd, (placeAt text a).mark⟩) ∧
    Adds (s.queue ++ ends) s.openKeys (placeAt text a).mark t s'.queue s'.openKeys
  few : s'.queue.length + s'.indents.length ≤ s.queue.length + s.indents.length + 4
  size : s'.size = s.size
  taken : s'.taken = s.taken
  started : s'.started = s.started

variable {text : List Char} {s s' u : Scanner} {a b : Nat}

/-- The ends of blocks are put at the place reached, one for each block. -/
theorem closeFrom_ends (column : Int) (outer : List Int) (s : Scanner) (h : s.indents = outer) :
    ∃ ends ind ins, closeFrom column outer s =
        { s with queue := s.queue ++ ends, indent := ind, indents := ins } ∧
      (∀ u ∈ ends, u = ⟨.blockEnd, s.mark⟩) ∧
      ends.length + ins.length = s.indents.length := by
  induction outer generalizing s with
  | nil => exact ⟨[], s.indent, s.indents, by simp [closeFrom], by simp, by simp⟩
  | cons indent r ih =>
    rw [closeFrom]
    split
    · obtain ⟨ends, ind, ins, heq, hends, hlen⟩ :=
        ih { s.push .blockEnd s.mark with indent, indents := r } rfl
      refine ⟨⟨.blockEnd, s.mark⟩ :: ends, ind, ins, ?_, ?_, ?_⟩
      · rw [heq]
        simp [push]
      · intro u hu
        rcases List.mem_cons.mp hu with rfl | hu
        · rfl
        · exact hends u hu
      · rw [h, List.length_cons, List.length_cons]
        dsimp only at hlen
        omega
    · exact ⟨[], s.indent, s.indents, by simp, by simp, by simp⟩

theorem closeBlocks_ends (s : Scanner) (column : Int) :
    ∃ ends ind ins, s.closeBlocks column =
        { s with queue := s.queue ++ ends, indent := ind, indents := ins } ∧
      (∀ u ∈ ends, u = ⟨.blockEnd, s.mark⟩) ∧
      ends.length + ins.length = s.indents.length := by
  unfold closeBlocks
  split
  · exact ⟨[], s.indent, s.indents, by simp, by simp, by simp⟩
  · exact closeFrom_ends column s.indents s rfl

/-- The open keys after a token has been read at `m`: the key that may begin with it comes first. -/
def KeysAfter (s : Scanner) (m : Mark) (ks : List SimpleKey) : Prop :=
  ks.Sublist s.openKeys ∨ ∃ k ks', ks = k :: ks' ∧ k.token = s.queue.length ∧ k.mark = m ∧
    ks'.Sublist s.openKeys

/-- A key that is saved begins with the next token. -/
theorem saveKey_ok (htaken : s.taken = 0) (h : s.saveKey .document = .ok s') :
    ∃ ks, s' = { s with keys := ks } ∧ s.KeysAfter s.mark s'.openKeys := by
  unfold saveKey at h
  dsimp only at h
  split at h
  · cases h
    exact ⟨s.keys, rfl, Or.inl (.refl _)⟩
  · obtain ⟨t, ht, h⟩ := bind_eq_ok.mp h
    obtain ⟨ks, rfl, hsub⟩ := dropKey_ok ht
    cases h
    refine ⟨_, rfl, Or.inr ⟨_, (ks.drop 1).filter (·.possible), rfl, ?_, rfl, ?_⟩⟩
    · show s.taken + s.queue.length = s.queue.length
      rw [htaken, Nat.zero_add]
    · exact ((List.drop_sublist 1 ks).filter _).trans hsub

/-- A token that is put at the end. -/
theorem Steps.of_push {t : Token} (hspells : Spells text a t b)
    (hwritten : Written text a t.kind b) (hhere : s'.here = placeAt text b)
    (hqueue : s'.queue = s.queue ++ [t]) (hindents : s'.indents = s.indents)
    (hkeys : s.KeysAfter (placeAt text a).mark s'.openKeys)
    (hframe : s'.size = s.size ∧ s'.taken = s.taken ∧ s'.started = s.started) :
    s.Steps text a t b s' := by
  refine ⟨hspells, hwritten, hhere, ⟨[], by simp, ?_⟩, ?_, hframe.1, hframe.2.1, hframe.2.2⟩
  · rw [List.append_nil, hqueue]
    rcases hkeys with hsub | ⟨k, ks', hks, hnumber, hmark, hsub⟩
    · exact .push hsub
    · rw [hks]
      exact .save hnumber hmark hsub
  · rw [hqueue, hindents, List.length_append, List.length_singleton]
    omega

/-- The blocks that end before a token is read are added to it. -/
theorem Steps.after_close (column : Int) {t : Token} (hhere : s.here = placeAt text a)
    (h : (s.closeBlocks column).Steps text a t b s') : s.Steps text a t b s' := by
  obtain ⟨ends, ind, ins, hclose, hends, hlen⟩ := s.closeBlocks_ends column
  rw [hclose] at h
  obtain ⟨more, hmore, hadds⟩ := h.adds
  refine ⟨h.spells, h.written, h.here, ⟨ends ++ more, ?_, ?_⟩, ?_, h.size, h.taken, h.started⟩
  · intro u hu
    rcases List.mem_append.mp hu with hu | hu
    · rw [hends u hu, mark, hhere]
    · exact hmore u hu
  · rw [← List.append_assoc]
    exact hadds
  · have := h.few
    dsimp only at this
    rw [List.length_append] at this
    omega

theorem readDirective_isDirective {d : Dialect} {c stop : Cursor} {kind : TokenKind}
    (h : readDirective d c = .ok (kind, stop)) : kind.isDirective = true := by
  have hend {k : TokenKind} {x y : Cursor} (hk : k.isDirective = true)
      (h : (if !d.isBreakOrEnd x.first then do
          fail .directiveEnd c.mark
          pure (k, y)
        else pure (k, y)) = Except.ok (kind, stop)) : kind.isDirective = true := by
    split at h
    · obtain ⟨_, hfail, _⟩ := bind_eq_ok.mp h
      cases hfail
    · cases h
      exact hk
  unfold readDirective at h
  obtain ⟨⟨name, afterName⟩, _, h⟩ := bind_eq_ok.mp h
  dsimp only at h
  split at h
  · obtain ⟨⟨k, next⟩, hversion, h⟩ := bind_eq_ok.mp h
    refine hend ?_ h
    unfold readVersion at hversion
    obtain ⟨⟨major, point⟩, _, hversion⟩ := bind_eq_ok.mp hversion
    dsimp only at hversion
    split at hversion
    · obtain ⟨_, hfail, _⟩ := bind_eq_ok.mp hversion
      cases hfail
    · obtain ⟨⟨minor, _⟩, _, hversion⟩ := bind_eq_ok.mp hversion
      cases hversion
      rfl
  · split at h
    · obtain ⟨⟨k, next⟩, htag, h⟩ := bind_eq_ok.mp h
      refine hend ?_ h
      unfold readTagDirective at htag
      obtain ⟨⟨handle, gap⟩, _, htag⟩ := bind_eq_ok.mp htag
      dsimp only at htag
      split at htag
      · obtain ⟨_, hfail, _⟩ := bind_eq_ok.mp htag
        cases hfail
      · obtain ⟨⟨uri, _⟩, _, htag⟩ := bind_eq_ok.mp htag
        dsimp only at htag
        split at htag
        · cases htag
          rfl
        · cases htag
    · split at h
      · obtain ⟨_, hfail, _⟩ := bind_eq_ok.mp h
        cases hfail
      · exact hend rfl h

/-- A line that is read to its end has its line feed at the end. -/
theorem placeAt_endsLine {stop : Cursor} (h : (placeAt text a).EndsLine .document stop) :
    ∃ b, a ≤ b ∧ stop = placeAt text b ∧ (∀ i, a ≤ i → i + 1 < b → charAt text i ≠ '\n') ∧
      (isEnd (charAt text b) = true ∨ Dialect.document.isBreak (charAt text (b - 1)) = true) := by
  obtain ⟨e, he, hend, rfl⟩ := h
  obtain ⟨m, ham, rfl, hline⟩ := placeAt_passes he
  obtain ⟨b, hb, hmb, hmoves, hbreaks, hfeed⟩ := @placeAt_skipBreak text m
  refine ⟨b, ham.trans hmb, hb, ?_, ?_⟩
  case refine_2 =>
    rw [placeAt_first, Dialect.isBreakOrEnd] at hend
    rcases Nat.eq_or_lt_of_le hmb with rfl | hlt
    · refine Or.inl ((Bool.or_eq_true_iff.mp hend).resolve_left fun hbreak => ?_)
      exact Nat.lt_irrefl _ (hmoves hbreak)
    · exact Or.inr (hbreaks (b - 1) (by omega) (by omega))
  intro i ha hi hfound
  by_cases hm : i < m
  · have hin := hline i ha hm
    rw [hfound] at hin
    exact absurd hin (by decide)
  · exact hfeed i (Nat.le_of_not_lt hm) hi hfound

theorem fetchDirective_steps (hhere : s.here = placeAt text a) (hchar : charAt text a = '%')
    (h : s.fetchDirective .document = .ok s') : ∃ t b, s.Steps text a t b s' := by
  unfold fetchDirective at h
  obtain ⟨u, hu, h⟩ := bind_eq_ok.mp h
  obtain ⟨ks, rfl, hsub⟩ := dropKey_ok hu
  obtain ⟨⟨kind, stop⟩, hread, h⟩ := bind_eq_ok.mp h
  cases h
  dsimp only at hread
  rw [closeBlocks_here, hhere] at hread
  have hends := readDirective_endsLine hread
  rw [placeAt_advance] at hends
  obtain ⟨b, hb, rfl, hfeed, hend⟩ := placeAt_endsLine hends
  have hkind := readDirective_isDirective hread
  have hspells : Spells text a ⟨kind, (placeAt text a).mark⟩ b := by
    refine .directive hkind hb ?_
    intro i ha hi
    rcases Nat.eq_or_lt_of_le ha with rfl | ha
    · rw [hchar]
      decide
    · exact hfeed i ha hi
  refine ⟨⟨kind, (placeAt text a).mark⟩, b, .after_close (-1) hhere ?_⟩
  have hwritten : Written text a kind b :=
    .directive hkind (hend.imp_right fun hbreak => by rw [inGap, hbreak, Bool.or_true])
  refine Steps.of_push hspells hwritten rfl ?_ rfl (Or.inl hsub) ⟨rfl, rfl, rfl⟩
  show _ ++ [Token.mk kind (s.closeBlocks (-1)).here.mark] = _
  rw [closeBlocks_here, hhere]

theorem documentMark_of_atIndicator (h : (placeAt text a).atIndicator .document = true) :
    ∀ i < 3, charAt text (a + i) ≠ '#' := by
  simp only [Cursor.atIndicator, placeAt_first, placeAt_ahead, Bool.and_eq_true, Bool.or_eq_true,
    beq_iff_eq] at h
  intro i hi
  have hi : i = 0 ∨ i = 1 ∨ i = 2 := by omega
  rcases h.2 with ⟨⟨h0, h1⟩, h2⟩ | ⟨⟨h0, h1⟩, h2⟩ <;> rcases hi with rfl | rfl | rfl <;>
    simp [h0, h1, h2]

theorem fetchIndicator_steps {kind : TokenKind} (hhere : s.here = placeAt text a)
    (hkind : kind.isDocumentMark = true) (hind : (placeAt text a).atIndicator .document = true)
    (h : s.fetchIndicator .document kind = .ok s') : ∃ t b, s.Steps text a t b s' := by
  unfold fetchIndicator at h
  obtain ⟨u, hu, h⟩ := bind_eq_ok.mp h
  obtain ⟨ks, rfl, hsub⟩ := dropKey_ok hu
  cases h
  refine ⟨⟨kind, (placeAt text a).mark⟩, a + 3, .after_close (-1) hhere ?_⟩
  have hgap : Dialect.document.isGap (charAt text (a + 3)) = true := by
    rw [Cursor.atIndicator, placeAt_ahead] at hind
    exact (Bool.and_eq_true_iff.mp (Bool.and_eq_true_iff.mp hind).1).2
  refine Steps.of_push (.documentMark hkind (documentMark_of_atIndicator hind))
    (.documentMark hkind hgap) ?_ ?_ rfl (Or.inl hsub) ⟨rfl, rfl, rfl⟩
  · show (s.closeBlocks (-1)).here.skip .document 3 = placeAt text (a + 3)
    rw [closeBlocks_here, hhere, placeAt_skip]
  · show _ ++ [Token.mk kind (s.closeBlocks (-1)).here.mark] = _
    rw [closeBlocks_here, hhere]

/-- A token of one character. -/
theorem Steps.of_character {kind : TokenKind} (hhere : s.here = placeAt text a)
    (hchar : inYamlWord .document (charAt text a) = true)
    (hsign : kind.sign? = some (charAt text a)) (hqueue : s'.queue = s.queue ++ [⟨kind, s.mark⟩])
    (hs' : s'.here = s.here.advance .document) (hindents : s'.indents = s.indents)
    (hkeys : s.KeysAfter s.mark s'.openKeys)
    (hframe : s'.size = s.size ∧ s'.taken = s.taken ∧ s'.started = s.started) :
    ∃ t b, s.Steps text a t b s' := by
  have hmark : s.mark = (placeAt text a).mark := by rw [mark, hhere]
  refine ⟨⟨kind, (placeAt text a).mark⟩, a + 1, ?_⟩
  have hkind := TokenKind.isWord_of_sign? hsign
  refine .of_push (.word hkind (Nat.lt_succ_self a) (.single hchar)) (.sign hsign) ?_ ?_ hindents ?_
    hframe
  · rw [hs', hhere, placeAt_advance]
  · rw [hqueue, hmark]
  · rwa [← hmark]

theorem fetchFlowStart_steps {kind : TokenKind} (hhere : s.here = placeAt text a)
    (hchar : inYamlWord .document (charAt text a) = true)
    (htaken : s.taken = 0) (hsign : kind.sign? = some (charAt text a))
    (h : s.fetchFlowStart .document kind = .ok s') : ∃ t b, s.Steps text a t b s' := by
  unfold fetchFlowStart at h
  obtain ⟨u, hu, h⟩ := bind_eq_ok.mp h
  obtain ⟨ks, rfl, hkeys⟩ := saveKey_ok htaken hu
  dsimp only at h
  split at h
  · obtain ⟨_, hfail, _⟩ := bind_eq_ok.mp h
    cases hfail
  · cases h
    exact Steps.of_character hhere hchar hsign rfl rfl rfl hkeys ⟨rfl, rfl, rfl⟩

theorem fetchFlowEnd_steps {kind : TokenKind} (hhere : s.here = placeAt text a)
    (hchar : inYamlWord .document (charAt text a) = true)
    (hsign : kind.sign? = some (charAt text a)) (h : s.fetchFlowEnd .document kind = .ok s') :
    ∃ t b, s.Steps text a t b s' := by
  unfold fetchFlowEnd at h
  obtain ⟨u, hu, h⟩ := bind_eq_ok.mp h
  obtain ⟨ks, rfl, hsub⟩ := dropKey_ok hu
  cases h
  refine Steps.of_character hhere hchar hsign rfl rfl rfl (Or.inl ?_) ⟨rfl, rfl, rfl⟩
  refine List.Sublist.trans ?_ hsub
  unfold openKeys
  dsimp only
  split
  · exact (List.drop_sublist 1 ks).filter _
  · exact .refl _

theorem fetchFlowEntry_steps (hhere : s.here = placeAt text a) (hcomma : charAt text a = ',')
    (h : s.fetchFlowEntry .document = .ok s') : ∃ t b, s.Steps text a t b s' := by
  unfold fetchFlowEntry at h
  obtain ⟨u, hu, h⟩ := bind_eq_ok.mp h
  obtain ⟨ks, rfl, hsub⟩ := dropKey_ok hu
  cases h
  exact Steps.of_character hhere (by rw [hcomma]; rfl) (by rw [hcomma]; rfl) rfl rfl rfl (Or.inl hsub)
    ⟨rfl, rfl, rfl⟩

/-- A token that opens a block unless one is open at its column. -/
theorem Steps.of_opening {start kind : TokenKind} (hopening : Opening start kind) (column : Nat)
    (hhere : s.here = placeAt text a)
    (hchar : inYamlWord .document (charAt text a) = true)
    (hsign : kind.sign? = some (charAt text a))
    (hqueue : s'.queue = (s.openBlock column none start s.mark).queue ++ [⟨kind, s.mark⟩])
    (hs' : s'.here = s.here.advance .document)
    (hindents : s'.indents = (s.openBlock column none start s.mark).indents)
    (hkeys : s'.openKeys.Sublist s.openKeys)
    (hframe : s'.size = s.size ∧ s'.taken = s.taken ∧ s'.started = s.started) :
    ∃ t b, s.Steps text a t b s' := by
  unfold openBlock at hqueue hindents
  split at hqueue
  next hopen =>
    rw [if_pos hopen] at hindents
    exact Steps.of_character hhere hchar hsign hqueue hs' hindents (Or.inl hkeys) hframe
  next hopen =>
    rw [if_neg hopen] at hindents
    have hmark : s.mark = (placeAt text a).mark := by rw [mark, hhere]
    refine ⟨⟨kind, (placeAt text a).mark⟩, a + 1,
      .word hopening.isWord (Nat.lt_succ_self a) (.single hchar), .sign hsign, ?_,
      ⟨[], by simp, ?_⟩, ?_, hframe.1, hframe.2.1, hframe.2.2⟩
    · rw [hs', hhere, placeAt_advance]
    · have hadds : Adds s.queue s.openKeys (placeAt text a).mark ⟨kind, (placeAt text a).mark⟩
          (s.queue ++ [⟨start, (placeAt text a).mark⟩, ⟨kind, (placeAt text a).mark⟩]) s'.openKeys :=
        .opens hopening hkeys
      rw [List.append_nil, hqueue]
      simpa [push, hmark] using hadds
    · rw [hqueue, hindents]
      simp [push]
      omega

theorem openBlock_frame (s : Scanner) (column : Nat) (number : Option Nat) (kind : TokenKind)
    (m : Mark) : (s.openBlock column number kind m).here = s.here ∧
      (s.openBlock column number kind m).openKeys = s.openKeys ∧
      (s.openBlock column number kind m).size = s.size ∧
      (s.openBlock column number kind m).taken = s.taken ∧
      (s.openBlock column number kind m).started = s.started := by
  unfold openBlock
  split
  · exact ⟨rfl, rfl, rfl, rfl, rfl⟩
  · cases number <;> exact ⟨rfl, rfl, rfl, rfl, rfl⟩

theorem fetchBlockEntry_steps (hhere : s.here = placeAt text a) (hchar : charAt text a = '-')
    (h : s.fetchBlockEntry .document = .ok s') : ∃ t b, s.Steps text a t b s' := by
  unfold fetchBlockEntry at h
  dsimp only at h
  split at h
  · obtain ⟨_, hfail, _⟩ := bind_eq_ok.mp h
    cases hfail
  · split at h
    · obtain ⟨_, hfail, _⟩ := bind_eq_ok.mp h
      cases hfail
    · obtain ⟨u, hu, h⟩ := bind_eq_ok.mp h
      obtain ⟨hh, hk, hsize, htaken, hstarted⟩ :=
        openBlock_frame s s.mark.column none .blockSequenceStart s.mark
      obtain ⟨ks, rfl, hsub⟩ := dropKey_ok hu
      cases h
      refine Steps.of_opening .list s.mark.column hhere (by rw [hchar]; rfl) (by rw [hchar]; rfl) ?_ ?_
        rfl ?_ ?_
      · show _ ++ [Token.mk .blockEntry (s.openBlock _ _ _ _).here.mark] = _
        rw [hh, mark]
      · show (s.openBlock _ _ _ _).here.advance _ = _
        rw [hh]
      · exact hk ▸ hsub
      · exact ⟨hsize, htaken, hstarted⟩

theorem fetchKey_steps (hhere : s.here = placeAt text a) (hchar : charAt text a = '?')
    (h : s.fetchKey .document = .ok s') : ∃ t b, s.Steps text a t b s' := by
  unfold fetchKey at h
  dsimp only at h
  split at h
  · obtain ⟨_, hfail, _⟩ := bind_eq_ok.mp h
    cases hfail
  · obtain ⟨u, hu, h⟩ := bind_eq_ok.mp h
    obtain ⟨hh, hk, hsize, htaken, hstarted⟩ :=
      openBlock_frame s s.mark.column none .blockMappingStart s.mark
    obtain ⟨ks, rfl, hsub⟩ := dropKey_ok hu
    cases h
    refine Steps.of_opening .key s.mark.column hhere (by rw [hchar]; rfl) (by rw [hchar]; rfl) ?_ ?_
      rfl ?_ ?_
    · show _ ++ [Token.mk .key (s.openBlock _ _ _ _).here.mark] = _
      rw [hh, mark]
    · show (s.openBlock _ _ _ _).here.advance _ = _
      rw [hh]
    · exact hk ▸ hsub
    · exact ⟨hsize, htaken, hstarted⟩

/-- A key that is recognized is put before its first token, and a block that it opens before it. -/
theorem recognized_queue (htaken : s.taken = 0) {k : SimpleKey} (hk : k.token ≤ s.queue.length)
    (column : Nat) (m : Mark) (hu : u = (s.insertAt k.token .key k.mark).openBlock column
      (some k.token) .blockMappingStart m) : ∃ starts : List Token,
      u.queue = s.queue.take k.token ++ (starts ++ ⟨.key, k.mark⟩ :: s.queue.drop k.token) ∧
      ((starts = [] ∧ u.indent = s.indent ∧ u.indents = s.indents) ∨
        (starts = [⟨.blockMappingStart, m⟩] ∧ s.flow = 0 ∧ s.indent < column ∧
          u.indents = s.indent :: s.indents)) := by
  have hkey : (s.insertAt k.token .key k.mark).queue =
      s.queue.take k.token ++ ⟨.key, k.mark⟩ :: s.queue.drop k.token := by
    rw [insertAt, htaken, Nat.sub_zero]
  subst hu
  unfold openBlock
  split
  · exact ⟨[], hkey, Or.inl ⟨rfl, rfl, rfl⟩⟩
  next hopen =>
    obtain ⟨hflow, hdeep⟩ := not_or.mp hopen
    refine ⟨[⟨.blockMappingStart, m⟩], ?_,
      Or.inr ⟨rfl, Nat.eq_zero_of_not_pos hflow, Int.not_le.mp hdeep, rfl⟩⟩
    show List.take (k.token - s.taken) (s.insertAt k.token .key k.mark).queue ++
      ⟨.blockMappingStart, m⟩ :: List.drop (k.token - s.taken) (s.insertAt k.token .key k.mark).queue = _
    rw [hkey, htaken, Nat.sub_zero, TokensInOrder.take_insert hk, TokensInOrder.drop_insert hk]
    rfl

theorem fetchValue_steps (hhere : s.here = placeAt text a) (hcolon : charAt text a = ':')
    (htaken : s.taken = 0)
    (hcounted : ∀ k ∈ s.openKeys, k.token ≤ s.queue.length)
    (h : s.fetchValue .document = .ok s') : ∃ t b, s.Steps text a t b s' := by
  have hmark : s.mark = (placeAt text a).mark := by rw [mark, hhere]
  have hchar : inYamlWord .document (charAt text a) = true := by rw [hcolon]; rfl
  have hsign : TokenKind.value.sign? = some (charAt text a) := by rw [hcolon]; rfl
  unfold fetchValue at h
  dsimp only at h
  split at h
  next =>
    cases h
    exact Steps.of_character hhere hchar hsign rfl rfl rfl (Or.inl (.refl _)) ⟨rfl, rfl, rfl⟩
  next k r hkeys =>
    split at h
    next hp =>
      cases h
      have hopen : s.openKeys = k :: r.filter (·.possible) := by
        simp [openKeys, hkeys, hp]
      have hk := hcounted k (hopen ▸ List.mem_cons_self)
      obtain ⟨starts, hqueue, hcases⟩ :=
        recognized_queue htaken hk k.mark.column s.mark rfl
      have hstarts := hcases.imp And.left And.left
      obtain ⟨hh, _, hsize, htaken', hstarted⟩ := openBlock_frame
        (s.insertAt k.token .key k.mark) k.mark.column (some k.token) .blockMappingStart s.mark
      refine ⟨⟨.value, (placeAt text a).mark⟩, a + 1,
        .word rfl (Nat.lt_succ_self a) (.single hchar), .sign hsign, ?_,
        ⟨[], by simp, ?_⟩, ?_, hsize, htaken', hstarted⟩
      · show (openBlock _ _ _ _ _).here.advance _ = _
        rw [hh]
        show s.here.advance .document = _
        rw [hhere, placeAt_advance]
      · rw [List.append_nil, ← hmark]
        have hkeys : (k :: r.filter (·.possible)).Sublist s.openKeys := hopen ▸ List.Sublist.refl _
        have hadds : Adds s.queue s.openKeys s.mark ⟨.value, s.mark⟩ _ _ :=
          .recognize hkeys hstarts (.refl _)
        rw [← hqueue] at hadds
        exact hadds
      · show ((openBlock _ _ _ _ _).queue ++ [_]).length + (openBlock _ _ _ _ _).indents.length ≤ _
        rw [hqueue]
        rcases hcases with ⟨rfl, -, hindents⟩ | ⟨rfl, -, -, hindents⟩ <;> rw [hindents] <;>
          simp only [List.length_append, List.length_take, List.length_cons, List.length_drop,
            List.length_nil] <;> omega
    next hp =>
      split at h
      · split at h
        · obtain ⟨_, hfail, _⟩ := bind_eq_ok.mp h
          cases hfail
        · cases h
          obtain ⟨hh, hk, hsize, htaken, hstarted⟩ :=
            openBlock_frame s s.mark.column none .blockMappingStart s.mark
          refine Steps.of_opening .value s.mark.column hhere hchar hsign rfl ?_ rfl ?_ ?_
          · show (s.openBlock _ _ _ _).here.advance _ = _
            rw [hh]
          · exact hk ▸ List.Sublist.refl _
          · exact ⟨hsize, htaken, hstarted⟩
      · cases h
        exact Steps.of_character hhere hchar hsign rfl rfl rfl (Or.inl (.refl _)) ⟨rfl, rfl, rfl⟩

/-- A token that may be a key, read from here to a place ahead. -/
theorem Steps.of_saved {ks : List SimpleKey} {t : Token} {stop : Cursor}
    (hhere : s.here = placeAt text a) (hspells : Spells text a t b)
    (hwritten : Written text a t.kind b) (hkeys : s.KeysAfter s.mark (ks.filter (·.possible))) (hstop : stop = placeAt text b)
    (hqueue : s'.queue = s.queue ++ [t]) (hs' : s'.here = stop) (hindents : s'.indents = s.indents)
    (hks : s'.keys = ks)
    (hframe : s'.size = s.size ∧ s'.taken = s.taken ∧ s'.started = s.started) :
    ∃ t b, s.Steps text a t b s' := by
  refine ⟨t, b, .of_push hspells hwritten (hs'.trans hstop) hqueue hindents ?_ hframe⟩
  rw [mark, hhere] at hkeys
  rwa [openKeys, hks]

/-- A word that is read behind its first character. -/
theorem placeAt_word {stop : Cursor} (hchar : inYamlWord .document (charAt text a) = true)
    (h : (placeAt text (a + 1)).Passes .document (inYamlWord .document) stop) :
    ∃ b, a < b ∧ stop = placeAt text b ∧ WordAt text a b := by
  obtain ⟨b, hb, hstop, hword⟩ := placeAt_passes h
  refine ⟨b, hb, hstop, ?_⟩
  intro i ha hi
  rcases Nat.eq_or_lt_of_le ha with rfl | ha
  · exact hchar
  · exact hword i ha hi

/-- The name of an anchor or alias is read from its indicator on. -/
theorem readAnchor_written {name : String} {stop : Cursor}
    (h : readAnchor .document (placeAt text a) = .ok (name, stop)) :
    ∃ b, a < b ∧ stop = placeAt text b ∧
      (∀ i, a < i → i < b → isNameChar (charAt text i) = true) ∧
      endsAnchor .document (charAt text b) = true := by
  unfold readAnchor at h
  dsimp only at h
  split at h
  · cases h
  next hname =>
    cases h
    rw [placeAt_advance] at hname ⊢
    obtain ⟨b, hb, hstop, hword⟩ :=
      placeAt_passes (takeWhile_passes .document (q := isNameChar) (fun _ => id) (placeAt text (a + 1)))
    refine ⟨b, hb, hstop, hword, ?_⟩
    rw [hstop, placeAt_first] at hname
    simpa using (not_or.mp (fun h => hname (Bool.or_eq_true_iff.mpr h))).2

theorem fetchAnchor_steps {kind : String → TokenKind} (hhere : s.here = placeAt text a)
    (hchar : inYamlWord .document (charAt text a) = true)
    (htaken : s.taken = 0) (hkind : ∀ name, (kind name).isWord = true)
    (hreference : ∀ name, (kind name).isReference = true)
    (h : s.fetchAnchor .document kind = .ok s') : ∃ t b, s.Steps text a t b s' := by
  unfold fetchAnchor at h
  obtain ⟨u, hu, h⟩ := bind_eq_ok.mp h
  obtain ⟨ks, rfl, hkeys⟩ := saveKey_ok htaken hu
  obtain ⟨⟨name, stop⟩, hread, h⟩ := bind_eq_ok.mp h
  cases h
  dsimp only at hread
  rw [hhere] at hread
  obtain ⟨b, hb, hstop, hname, hends⟩ := readAnchor_written hread
  have hword : WordAt text a b := by
    intro i ha hi
    rcases Nat.eq_or_lt_of_le ha with rfl | ha
    · exact hchar
    · exact inYamlWord_of_isNameChar (hname i ha hi)
  refine Steps.of_saved hhere (.word (hkind name) hb hword) (.reference (hreference name) hb hname hends)
    hkeys hstop ?_ rfl rfl rfl ⟨rfl, rfl, rfl⟩
  rw [← hhere]
  rfl

theorem fetchTag_steps (hhere : s.here = placeAt text a)
    (hchar : inYamlWord .document (charAt text a) = true) (htaken : s.taken = 0)
    (h : s.fetchTag .document = .ok s') : ∃ t b, s.Steps text a t b s' := by
  unfold fetchTag at h
  obtain ⟨u, hu, h⟩ := bind_eq_ok.mp h
  obtain ⟨ks, rfl, hkeys⟩ := saveKey_ok htaken hu
  obtain ⟨⟨tag, stop⟩, hread, h⟩ := bind_eq_ok.mp h
  cases h
  have hpasses := readTag_passes hread
  dsimp only at hpasses
  rw [hhere, placeAt_advance] at hpasses
  obtain ⟨b, hb, hstop, hword⟩ := placeAt_word hchar hpasses
  have hspells : Spells text a ⟨.tag tag, (placeAt text a).mark⟩ b := .word rfl hb hword
  have hgap := readTag_isGap hread
  rw [show stop = placeAt text b from hstop, placeAt_first] at hgap
  refine Steps.of_saved hhere hspells (.tag hb hgap) hkeys hstop ?_ rfl rfl rfl ⟨rfl, rfl, rfl⟩
  rw [← hhere]
  rfl

theorem fetchBlockScalar_steps {literal : Bool} (hhere : s.here = placeAt text a)
    (hopens : Lexeme.opensBlockText (some (charAt text a)) = true) (htaken : s.taken = 0) (h : s.fetchBlockScalar .document literal = .ok s') :
    ∃ t b, s.Steps text a t b s' := by
  unfold fetchBlockScalar at h
  obtain ⟨u, hu, h⟩ := bind_eq_ok.mp h
  obtain ⟨ks, rfl, hkeys⟩ := saveKey_ok htaken hu
  obtain ⟨r, hread, h⟩ := bind_eq_ok.mp h
  cases h
  dsimp only at hread
  rw [hhere] at hread
  have hend : isEnd (charAt text a) = false := by
    by_contra hend
    rw [beq_iff_eq.mp (Bool.of_not_eq_false hend)] at hopens
    cases hopens
  obtain ⟨c, b, hc, hb, -, hstart, hstop, -, hbehind⟩ := readBlock_stops hend hread
  have hstyle : (if literal then ScalarStyle.literal else .folded) = .literal ∨
      (if literal then ScalarStyle.literal else .folded) = .folded := by
    cases literal
    · exact Or.inr rfl
    · exact Or.inl rfl
  have hspells : Spells text a ⟨.scalar (String.ofList r.text) _, (placeAt text c).mark⟩ b :=
    .block hstyle hc hb
  refine Steps.of_saved hhere hspells (.block hstyle hopens hbehind) hkeys hstop ?_ rfl rfl rfl ⟨rfl, rfl, rfl⟩
  rw [← hstart]
  rfl

theorem fetchQuoted_steps {single : Bool} (hhere : s.here = placeAt text a)
    (htaken : s.taken = 0) (h : s.fetchQuoted .document single = .ok s') :
    ∃ t b, s.Steps text a t b s' := by
  unfold fetchQuoted at h
  obtain ⟨u, hu, h⟩ := bind_eq_ok.mp h
  obtain ⟨ks, rfl, hkeys⟩ := saveKey_ok htaken hu
  obtain ⟨r, hread, h⟩ := bind_eq_ok.mp h
  cases h
  dsimp only at hread
  rw [hhere] at hread
  obtain ⟨hstart, hlt, hstop, hquote⟩ := readQuoted_closes hread
  have hspells : Spells text a
      ⟨.scalar (String.ofList r.text) (quotedStyle single), (placeAt text a).mark⟩ _ :=
    .quoted (Nat.lt_of_succ_lt hlt) rfl
  have hwritten : Written text a (.scalar (String.ofList r.text) (quotedStyle single)) _ :=
    .quoted hlt hquote
  refine Steps.of_saved hhere hspells hwritten hkeys hstop ?_ rfl rfl rfl ⟨rfl, rfl, rfl⟩
  rw [← hstart]
  rfl

theorem fetchPlain_steps (hhere : s.here = placeAt text a) (htaken : s.taken = 0)
    (hend : isEnd (charAt text a) = false) (hhash : charAt text a ≠ '#')
    (hind : (placeAt text a).atIndicator .document = false)
    (hends : endsPlain .document (0 < s.flow) (charAt text a) (charAt text (a + 1)) = false)
    (h : s.fetchPlain .document = .ok s') : ∃ t b, s.Steps text a t b s' := by
  unfold fetchPlain at h
  obtain ⟨u, hu, h⟩ := bind_eq_ok.mp h
  obtain ⟨ks, rfl, hkeys⟩ := saveKey_ok htaken hu
  obtain ⟨r, hread, h⟩ := bind_eq_ok.mp h
  cases h
  dsimp only at hread
  rw [hhere] at hread
  obtain ⟨hstart, b, hb, hstop⟩ := readPlain_moves hend hhash hind hends hread
  have hspells : Spells text a ⟨.scalar (String.ofList r.text) .plain, (placeAt text a).mark⟩ b :=
    .plain hb
  have hwritten : Written text a (.scalar (String.ofList r.text) .plain) b := by
    have hplain := readPlain_written hend hhash hind hends hread
    rw [hstop, placeAt_index] at hplain
    exact .plain hplain
  refine Steps.of_saved hhere hspells hwritten hkeys hstop ?_ rfl rfl rfl ⟨rfl, rfl, rfl⟩
  rw [← hstart]
  rfl

/-- Where no colon separates a key from its value and no flow indicator stands, a plain scalar may
start. -/
theorem endsPlain_of_not_valueStarts (hhere : s.here = placeAt text a)
    (hvalue : ¬(s.here.first == ':' && s.valueStarts .document) = true)
    (hind : isFlowIndicator (charAt text a) = false) :
    endsPlain .document (0 < s.flow) (charAt text a) (charAt text (a + 1)) = false := by
  rw [hhere, placeAt_first] at hvalue
  unfold valueStarts at hvalue
  dsimp only at hvalue
  rw [hhere, placeAt_ahead] at hvalue
  unfold endsPlain
  rw [hind, Bool.and_false, Bool.or_false]
  cases hcolon : charAt text a == ':' with
  | false => rfl
  | true =>
    rw [hcolon, Bool.true_and] at hvalue
    simp only [Bool.or_eq_true, Bool.and_eq_true, not_or, not_and] at hvalue
    obtain ⟨hgap, hflow⟩ := hvalue
    rw [Bool.true_and, Bool.of_not_eq_true hgap, Bool.false_or]
    cases hf : decide (0 < s.flow) with
    | false => rfl
    | true =>
      have hnext := (hflow hf).1.2
      rw [Bool.of_not_eq_true hnext, Bool.and_false]

/-- Every token but the end of the stream takes a text of its own. -/
theorem fetchHere_steps (hhere : s.here = placeAt text a) (htaken : s.taken = 0)
    (hcounted : ∀ k ∈ s.openKeys, k.token ≤ s.queue.length)
    (hend : isEnd (charAt text a) = false) (hhash : charAt text a ≠ '#')
    (h : s.fetchHere .document = .ok s') : ∃ t b, s.Steps text a t b s' := by
  have hfirst : s.here.first = charAt text a := by rw [hhere, placeAt_first]
  have hahead : s.here.ahead 1 = charAt text (a + 1) := by rw [hhere, placeAt_ahead]
  have hchar {x : Char} (hx : s.here.first = x) (hin : inYamlWord .document x = true) :
      inYamlWord .document (charAt text a) = true := by rwa [← hfirst, hx]
  have hsign {x : Char} {kind : TokenKind} (hx : s.here.first = x) (hkind : kind.sign? = some x) :
      kind.sign? = some (charAt text a) := by rwa [← hfirst, hx]
  unfold fetchHere at h
  dsimp only at h
  rw [if_neg (by rw [hfirst, hend]; exact Bool.false_ne_true)] at h
  split at h
  next hpercent =>
    refine fetchDirective_steps hhere ?_ h
    rw [← hfirst]
    exact beq_iff_eq.mp (Bool.and_eq_true_iff.mp hpercent).2
  · split at h
    next hind =>
      rw [hhere] at hind
      refine fetchIndicator_steps hhere ?_ hind h
      split <;> rfl
    next hind =>
      split at h
      next hx => exact fetchFlowStart_steps hhere (hchar hx rfl) htaken (hsign hx rfl) h
      next hx => exact fetchFlowStart_steps hhere (hchar hx rfl) htaken (hsign hx rfl) h
      next hx => exact fetchFlowEnd_steps hhere (hchar hx rfl) (hsign hx rfl) h
      next hx => exact fetchFlowEnd_steps hhere (hchar hx rfl) (hsign hx rfl) h
      next hx => exact fetchFlowEntry_steps hhere (hfirst.symm.trans hx) h
      next hx => exact fetchAnchor_steps hhere (hchar hx rfl) htaken (fun _ => rfl) (fun _ => rfl) h
      next hx => exact fetchAnchor_steps hhere (hchar hx rfl) htaken (fun _ => rfl) (fun _ => rfl) h
      next hx => exact fetchTag_steps hhere (hchar hx rfl) htaken h
      · exact fetchQuoted_steps hhere htaken h
      · exact fetchQuoted_steps hhere htaken h
      next hnot₁ hnot₂ hnot₃ hnot₄ hnot₅ _ _ _ _ _ =>
        have hsign {x : Char} {p : Bool} (h : (s.here.first == x && p) = true) :
            charAt text a = x := hfirst.symm.trans (beq_iff_eq.mp (Bool.and_eq_true_iff.mp h).1)
        split at h
        next hx => exact fetchBlockEntry_steps hhere (hsign hx) h
        · split at h
          next hx => exact fetchKey_steps hhere (hsign hx) h
          · split at h
            next hx => exact fetchValue_steps hhere (hsign hx) htaken hcounted h
            next hvalue =>
              split at h
              next hx => exact fetchBlockScalar_steps hhere (by rw [hsign hx]; rfl) htaken h
              · split at h
                next hx => exact fetchBlockScalar_steps hhere (by rw [hsign hx]; rfl) htaken h
                · split at h
                  · rw [hhere] at hind
                    refine fetchPlain_steps hhere htaken hend hhash (Bool.of_not_eq_true hind) ?_ h
                    refine endsPlain_of_not_valueStarts hhere hvalue ?_
                    rw [← hfirst]
                    simp only [isFlowIndicator, Bool.or_eq_false_iff, beq_eq_false_iff_ne]
                    exact ⟨⟨⟨⟨hnot₅, hnot₁⟩, hnot₃⟩, hnot₂⟩, hnot₄⟩
                  · cases h

/-- White space and comments from `n` up to a character of another kind. A comment ends with its line
or with the text. -/
structure Skips (text : List Char) (n a : Nat) : Prop where
  le : n ≤ a
  hash : charAt text a ≠ '#'
  solid : charAt text a ≠ ' '
  lineBreak : Dialect.document.isBreak (charAt text a) = false
  ends : isEnd (charAt text n) = true → a = n
  passed : ∀ i, n ≤ i → i < a → inGap .document (charAt text i) = true ∨ ∃ m, i < m ∧ m ≤ a ∧
    Dialect.document.isBreakOrEnd (charAt text m) = true ∧ (isEnd (charAt text m) = true → a = m)

theorem Skips.comments {n i : Nat} (h : Skips text n a) (hi : n ≤ i) (hia : i < a)
    (hhash : charAt text i = '#') : ∃ m, i < m ∧ m ≤ a ∧
      Dialect.document.isBreakOrEnd (charAt text m) = true ∧
      (isEnd (charAt text m) = true → a = m) := by
  refine (h.passed i hi hia).resolve_left fun hgap => ?_
  rw [hhash] at hgap
  cases hgap

/-- White space is passed over. -/
theorem Skips.space {n m : Nat} (h : Skips text m a) (hnm : n < m)
    (hend : isEnd (charAt text n) = false)
    (hspace : ∀ i, n ≤ i → i < m → inGap .document (charAt text i) = true) : Skips text n a where
  le := (Nat.le_of_lt hnm).trans h.le
  hash := h.hash
  solid := h.solid
  lineBreak := h.lineBreak
  ends hn := by
    rw [hend] at hn
    cases hn
  passed i hi hia := by
    by_cases him : i < m
    · exact Or.inl (hspace i hi him)
    · exact h.passed i (Nat.le_of_not_lt him) hia

/-- A comment is passed over. -/
theorem Skips.comment {n m : Nat} (h : Skips text m a) (hnm : n < m)
    (hend : isEnd (charAt text n) = false)
    (hline : Dialect.document.isBreakOrEnd (charAt text m) = true) : Skips text n a where
  le := (Nat.le_of_lt hnm).trans h.le
  hash := h.hash
  solid := h.solid
  lineBreak := h.lineBreak
  ends hn := by
    rw [hend] at hn
    cases hn
  passed i hi hia := by
    by_cases him : i < m
    · exact Or.inr ⟨m, him, h.le, hline, h.ends⟩
    · exact h.passed i (Nat.le_of_not_lt him) hia

/-- White space and comments are passed over. -/
theorem toToken_place {n fuel : Nat} (hhere : s.here = placeAt text n)
    (hfuel : text.length - n < fuel) :
    ∃ a allowed, s.toToken .document fuel = { s with here := placeAt text a, keyAllowed := allowed } ∧
      Skips text n a := by
  induction fuel generalizing s n with
  | zero => exact absurd hfuel (Nat.not_lt_zero _)
  | succ fuel ih =>
    have hfirst : s.here.first = charAt text n := by rw [hhere, placeAt_first]
    have hgo {u : Scanner} {m : Nat} {allowed : Bool} (hm : n < m)
        (hend : isEnd (charAt text n) = false)
        (hskips : ∀ a, Skips text m a → Skips text n a)
        (hu : u = { s with here := placeAt text m, keyAllowed := allowed }) :
        ∃ a allowed, u.toToken .document fuel =
            { s with here := placeAt text a, keyAllowed := allowed } ∧ Skips text n a := by
      have hlt := lt_length_of_charAt hend
      obtain ⟨a, allowed, heq, ha⟩ := ih (s := u) (n := m) (by rw [hu]) (by omega)
      refine ⟨a, allowed, ?_, hskips a ha⟩
      rw [heq, hu]
    rw [toToken, hfirst]
    split
    next hspace =>
      have hchar : charAt text n = ' ' ∨ charAt text n = '\t' := by
        rcases Bool.or_eq_true_iff.mp hspace with h | h
        · exact Or.inl (beq_iff_eq.mp h)
        · exact Or.inr (beq_iff_eq.mp (Bool.and_eq_true_iff.mp h).1)
      have hend : isEnd (charAt text n) = false := by
        rcases hchar with h | h <;> rw [h] <;> rfl
      refine hgo (Nat.lt_succ_self n) hend
        (fun a ha => ha.space (Nat.lt_succ_self n) hend ?_) (by rw [hhere, placeAt_advance])
      intro i hi hin
      rw [show i = n by omega]
      rcases hchar with h | h <;> rw [h] <;> rfl
    next hspace =>
      split
      next hbreak =>
        obtain ⟨m, hm, _, hlt, hbreaks, _⟩ := @placeAt_skipBreak text n
        have hend := isEnd_of_isBreak hbreak
        refine hgo (hlt hbreak) hend (fun a ha => ha.space (hlt hbreak) hend ?_) (by rw [hhere, hm])
        intro i hi him
        rw [inGap, hbreaks i hi him, Bool.or_true]
      next hbreak =>
        split
        next hhash =>
          have hhash := beq_iff_eq.mp hhash
          have hend : isEnd (charAt text n) = false := by rw [hhash]; rfl
          obtain ⟨m, hm, hlt, hline⟩ := placeAt_skipComment hhash
          exact hgo hlt hend (fun a ha => ha.comment hlt hend hline) (by rw [hhere, hm])
        next hhash =>
          refine ⟨n, s.keyAllowed, by rw [← hhere]; rfl, le_rfl, fun heq => hhash (beq_iff_eq.mpr heq),
            fun heq => hspace ?_, Bool.of_not_eq_true hbreak, fun _ => rfl,
            fun i hi hin => by omega⟩
          rw [heq]
          rfl

/-- What the end of the text does to a scanner that has met it at `a`. -/
structure Ends (text : List Char) (s : Scanner) (a : Nat) (s' : Scanner) : Prop where
  index : s'.mark.index = a
  queue : ∃ ends, s'.queue = s.queue ++ ends ++ [⟨.streamEnd, s'.mark⟩] ∧
    ∀ u ∈ ends, u.kind = .blockEnd ∧ u.mark.index = a ∧ lineAt text a ≤ u.mark.line
  line : s'.mark.line = lineAt text a + 1 ∨
    (s'.mark.line = lineAt text a ∧ (placeAt text a).mark.column = 0)
  keys : s'.openKeys.Sublist s.openKeys
  few : s'.queue.length ≤ s.queue.length + s.indents.length + 1

theorem fetchStreamEnd_ends (hhere : s.here = placeAt text a) (h : s.fetchStreamEnd = .ok s') :
    s.Ends text a s' := by
  unfold fetchStreamEnd at h
  dsimp only at h
  generalize hm : (if s.mark.column = 0 then s.mark
    else (⟨s.mark.index, s.mark.line + 1, 0⟩ : Mark)) = m at h
  have hmark : m.index = a ∧ (m.line = lineAt text a + 1 ∨
      (m.line = lineAt text a ∧ (placeAt text a).mark.column = 0)) := by
    rw [← hm, mark, hhere]
    split
    next hcolumn => exact ⟨placeAt_index, Or.inr ⟨placeAt_line, hcolumn⟩⟩
    · exact ⟨placeAt_index, Or.inl (by rw [placeAt_line])⟩
  obtain ⟨u, hu, h⟩ := bind_eq_ok.mp h
  obtain ⟨ends, ind, ins, hclose, hends, hlen⟩ :=
    closeBlocks_ends { s with here := { s.here with mark := m } } (-1)
  rw [hclose] at hu
  obtain ⟨ks, rfl, hsub⟩ := dropKey_ok hu
  cases h
  refine ⟨hmark.1, ⟨ends, rfl, ?_⟩, hmark.2, hsub, ?_⟩
  · intro u hu
    rw [hends u hu]
    have hline : lineAt text a ≤ m.line := by omega
    exact ⟨rfl, hmark.1, hline⟩
  · show (s.queue ++ ends ++ [_]).length ≤ _
    rw [List.length_append, List.length_append, List.length_singleton]
    dsimp only at hlen
    omega

/-- Before a token is read, white space is passed over, and keys and blocks may end. -/
theorem fetch_steps_at {n : Nat} (hstarted : s.started = true) (hhere : s.here = placeAt text n)
    (hsize : s.size = text.length) (htaken : s.taken = 0)
    (hcounted : ∀ k ∈ s.openKeys, k.token ≤ s.queue.length) (h : s.fetch .document = .ok s') :
    ∃ a, (s.toToken .document (s.size + 1)).here = placeAt text a ∧ Skips text n a ∧
      ((isEnd (charAt text a) = false ∧ ∃ t b, s.Steps text a t b s') ∨
        (isEnd (charAt text a) = true ∧ s.Ends text a s')) := by
  unfold fetch at h
  dsimp only at h
  rw [hstarted, if_neg (by decide)] at h
  obtain ⟨u, hu, h⟩ := bind_eq_ok.mp h
  have hfuel : text.length - n < s.size + 1 := by omega
  obtain ⟨a, allowed, hplace, hskips⟩ := toToken_place hhere hfuel
  rw [hplace] at hu
  obtain ⟨ks, hkeys, hsub, _⟩ := dropStaleKeys_ok hu
  have hplaced : u.here = placeAt text a := by rw [hkeys]
  have hsub : u.openKeys.Sublist s.openKeys := by
    rw [hkeys]
    exact hsub
  obtain ⟨ends, ind, ins, hclose, hends, hlen⟩ := u.closeBlocks_ends u.mark.column
  refine ⟨a, by rw [hplace], hskips, ?_⟩
  cases hend : isEnd (charAt text a) with
  | false =>
    have hsteps : ∃ t b, (u.closeBlocks u.mark.column).Steps text a t b s' := by
      refine fetchHere_steps ?_ ?_ ?_ hend hskips.hash h
      · rw [hclose, hplaced]
      · rw [hclose, hkeys]
        exact htaken
      · rw [hclose]
        intro k hk
        refine (hcounted k (hsub.subset hk)).trans ?_
        rw [List.length_append, hkeys]
        exact Nat.le_add_right _ _
    obtain ⟨t, b, hsteps⟩ := hsteps
    have hopen := hsteps.after_close _ hplaced
    obtain ⟨more, hmore, hadds⟩ := hopen.adds
    refine Or.inl ⟨rfl, t, b, hopen.spells, hopen.written, hopen.here, ⟨more, hmore, ?_⟩, ?_, ?_, ?_, ?_⟩
    · have hadds := hadds.mono hsub
      rwa [show u.queue = s.queue by rw [hkeys]] at hadds
    · have := hopen.few
      rwa [show u.queue = s.queue by rw [hkeys], show u.indents = s.indents by rw [hkeys]] at this
    · rw [hopen.size, hkeys]
    · rw [hopen.taken, hkeys]
    · rw [hopen.started, hkeys]
  | true =>
    have hends' : (u.closeBlocks u.mark.column).Ends text a s' := by
      unfold fetchHere at h
      dsimp only at h
      rw [if_pos (by rw [hclose, hplaced, placeAt_first, hend])] at h
      exact fetchStreamEnd_ends (by rw [hclose, hplaced]) h
    rw [hclose] at hends'
    obtain ⟨more, hqueue, hmore⟩ := hends'.queue
    refine Or.inr ⟨rfl, hends'.index, ⟨ends ++ more, ?_, ?_⟩, hends'.line,
      hends'.keys.trans hsub, ?_⟩
    · rw [hqueue, List.append_assoc u.queue, hkeys]
    · intro e he
      rcases List.mem_append.mp he with he | he
      · rw [hends e he, mark, hplaced]
        exact ⟨rfl, placeAt_index, Nat.le_of_eq placeAt_line.symm⟩
      · exact hmore e he
    · have := hends'.few
      rw [hkeys] at this hlen
      dsimp only at this hlen
      rw [List.length_append] at this
      omega

theorem fetch_steps {n : Nat} (hstarted : s.started = true) (hhere : s.here = placeAt text n)
    (hsize : s.size = text.length) (htaken : s.taken = 0)
    (hcounted : ∀ k ∈ s.openKeys, k.token ≤ s.queue.length) (h : s.fetch .document = .ok s') :
    ∃ a, Skips text n a ∧ ((isEnd (charAt text a) = false ∧ ∃ t b, s.Steps text a t b s') ∨
      (isEnd (charAt text a) = true ∧ s.Ends text a s')) :=
  let ⟨a, _, ha⟩ := fetch_steps_at hstarted hhere hsize htaken hcounted h
  ⟨a, ha⟩

end Scanner

end Blueprint.Yaml
