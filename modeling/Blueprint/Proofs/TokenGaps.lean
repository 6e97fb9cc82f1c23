import Blueprint.Proofs.HeadedBlocks
import Blueprint.Proofs.PlacedTokens
import Blueprint.Proofs.TokenRanges

/-!
What stands between a sign and the tokens beside it, in a text without unusual characters: before the
sign there is white space from where the last token stops, behind it there is nothing but spaces up to
where the next token of the line starts.
-/

namespace Blueprint

open Yaml (Token TokenKind PlacedToken charAt placeAt)
open Yaml.Scanner (Skips)
open Yaml.PlacedToken (Follows Fits)

/-- A text of lines that each have a line end, with no white space but spaces and tabs in them. -/
structure OrdinaryText (text : List Char) : Prop where
  blanks : ∀ i, Text.isBlank (charAt text i) = true → Yaml.inGap .document (charAt text i) = true
  nul : ∀ i < text.length, charAt text i ≠ '\x00'
  returns : ∀ i, charAt text i = '\r' → charAt text (i + 1) = '\n'
  ended : text.getLast? = some '\n'

namespace OrdinaryText

variable {text : List Char} {n a i j : Nat}

theorem last (h : OrdinaryText text) : text[text.length - 1]? = some '\n' := by
  rw [← List.getLast?_eq_getElem?]
  exact h.ended

/-- A line break goes on or the line ends behind it. -/
theorem line_lt (h : OrdinaryText text)
    (hbreak : Yaml.Dialect.document.isBreak (charAt text i) = true) (hia : i < a)
    (ha : Yaml.Dialect.document.isBreak (charAt text a) = false) : lineAt text i < lineAt text a := by
  rcases Yaml.Aside.eq_of_isBreak hbreak with hfeed | hreturn
  · exact lineAt_lt (Yaml.getElem?_of_charAt hfeed (by decide)) hia
  · have hfeed := h.returns i hreturn
    have hne : i + 1 ≠ a := by
      rintro rfl
      rw [hfeed] at ha
      cases ha
    exact (lineAt_mono text (Nat.le_succ i)).trans_lt
      (lineAt_lt (Yaml.getElem?_of_charAt hfeed (by decide)) (Nat.lt_of_le_of_ne hia hne))

theorem isEnd_iff (h : OrdinaryText text) :
    Yaml.isEnd (charAt text i) = true ↔ text.length ≤ i := by
  refine ⟨fun hend => Nat.not_lt.mp fun hlt => h.nul i hlt (beq_iff_eq.mp hend), ?_⟩
  exact Yaml.isEnd_charAt_of_le

/-- White space on a line is spaces. -/
theorem spaces (h : OrdinaryText text) (hskips : Skips text n a) (ha : a ≤ text.length)
    (hnj : n ≤ j) (hja : j < a) (hline : lineAt text a = lineAt text j) :
    Yaml.isSpace (charAt text j) = true := by
  have hnone {r : Nat} (hr : j ≤ r) (hra : r < a) :
      Yaml.Dialect.document.isBreak (charAt text r) ≠ true := fun hbreak => by
    have hlt := h.line_lt hbreak hra hskips.lineBreak
    have hmono := lineAt_mono text hr
    omega
  rcases hskips.passed j hnj hja with hgap | ⟨m, hjm, hma, hline', hends⟩
  · exact (Bool.or_eq_true_iff.mp hgap).resolve_right (hnone le_rfl hja)
  · rcases Bool.or_eq_true_iff.mp hline' with hbreak | hend
    · rcases Nat.eq_or_lt_of_le hma with rfl | hlt
      · rw [hskips.lineBreak] at hbreak
        cases hbreak
      · exact absurd hbreak (hnone (Nat.le_of_lt hjm) hlt)
    -- The comment would end with the text, which has a line feed at its end.
    · have hend' : Yaml.isEnd (charAt text a) = true := (hends hend).symm ▸ hend
      have hlength := h.isEnd_iff.mp hend'
      have hlast := lineAt_lt (j := a) h.last (by omega)
      have hmono := lineAt_mono text (show j ≤ text.length - 1 by omega)
      omega

theorem inWord_of_isNameChar (hord : OrdinaryText text)
    (h : Yaml.isNameChar (charAt text i) = true) :
    (Lexeme.inWord (charAt text i) && !Yaml.isFlowIndicator (charAt text i)) = true := by
  have hword : Yaml.inYamlWord .document (charAt text i) = true := Yaml.inYamlWord_of_isNameChar h
  refine Bool.and_eq_true_iff.mpr ⟨?_, ?_⟩
  · rw [Lexeme.inWord, Bool.not_eq_true']
    refine Bool.of_not_eq_true fun hblank => ?_
    rw [Yaml.inYamlWord, Yaml.isGap_of_inGap (hord.blanks i hblank)] at hword
    cases hword
  · rw [Bool.not_eq_true']
    refine Bool.of_not_eq_true fun hind => ?_
    simp only [Yaml.isFlowIndicator, Bool.or_eq_true, beq_iff_eq] at hind
    rcases hind with (((hc | hc) | hc) | hc) | hc <;> rw [hc] at h <;> exact absurd h (by decide)

end OrdinaryText

namespace Yaml

/-- A block scalar is written behind its indicator. -/
theorem Written.opensBlock {text : List Char} {a b : Nat} {kind : TokenKind}
    (h : Written text a kind b) (hblock : kind.isBlockScalar = true) :
    Lexeme.opensBlockText (some (charAt text a)) = true := by
  obtain ⟨s, style, rfl, hstyle⟩ := TokenKind.exists_of_isBlockScalar hblock
  generalize hkind : TokenKind.scalar s style = kind at h
  cases h with
  | block _ hopens _ => exact hopens
  | plain _ =>
    cases hkind
    rcases hstyle with h | h <;> cases h
  | @quoted _ single _ _ _ => cases single <;> cases hkind <;> rcases hstyle with h | h <;> cases h
  | tag _ _ => cases hkind
  | sign h | reference h _ _ _ | documentMark h _ | directive h _ =>
    subst hkind
    cases h

theorem Written.sign_eq {text : List Char} {a b : Nat} {kind : TokenKind} {c : Char}
    (h : Written text a kind b) (hsign : kind.sign? = some c) : charAt text a = c ∧ b = a + 1 := by
  cases h with
  | sign h => exact ⟨Option.some.inj (h.symm.trans hsign), rfl⟩
  | reference h _ _ _ | documentMark h _ | directive h _ =>
    cases kind <;> first | exact Bool.noConfusion h | cases hsign
  | plain _ | quoted _ _ | block _ _ _ | tag _ _ => cases hsign

/-- The signs that stand behind what they belong to. -/
def TokenKind.isTrailing : TokenKind → Bool
  | .value | .flowEntry | .flowSequenceEnd | .flowMappingEnd => true
  | _ => false

/-- The tokens whose text is not seen to its end, as what follows has no part in it. -/
def TokenKind.isLoose (k : TokenKind) : Bool :=
  k.isBlockScalar || k.isDirective ||
    match k with
    | .tag _ => true
    | _ => false

/-- What is read as one of these tokens ends with white space, if it is not followed by some. -/
theorem Written.loose {text : List Char} {a b : Nat} {kind : TokenKind} (h : Written text a kind b)
    (hloose : kind.isLoose = true) (hgap : Dialect.document.isGap (charAt text b) = false) :
    inGap .document (charAt text (b - 1)) = true := by
  have hend := isEnd_of_not_isGap hgap
  cases h with
  | tag _ htag =>
    rw [hgap] at htag
    cases htag
  | block _ _ hblock => exact hblock.resolve_left (by rw [hend]; exact Bool.false_ne_true)
  | directive _ hdirective => exact hdirective.resolve_left (by rw [hend]; exact Bool.false_ne_true)
  | sign h => cases kind <;> first | exact Bool.noConfusion hloose | cases h
  | reference h _ _ _ | documentMark h _ =>
    cases kind <;> first | exact Bool.noConfusion h | cases hloose
  | plain _ => cases hloose
  | @quoted _ single _ _ _ => cases single <;> cases hloose

namespace PlacedToken

variable {text : List Char} {g : PlacedToken}

/-- The start of a block is put where the next token starts. -/
theorem Fits.isPut (h : g.Fits text) (hkind : g.token.kind = .blockMappingStart) : g.IsPut := by
  refine ⟨by rw [hkind]; exact TokenKind.noConfusion, ?_⟩
  cases h with
  | start => cases hkind
  | read hspells _ =>
    have hnot := hspells.isBlockStart
    rw [hkind] at hnot
    cases hnot
  | put _ _ hle _ => exact hle
  | close _ hle _ _ _ => exact hle

/-- A token is marked where its text starts, unless it is a block scalar. -/
theorem Fits.mark (h : g.Fits text) (hstart : g.token.kind ≠ .blockMappingStart)
    (hblock : g.token.kind.isBlockScalar = false) :
    g.token.mark.index = g.first ∧ lineAt text g.first ≤ g.token.mark.line := by
  have hplace {t : Token} {a : Nat} (hm : t.mark = (placeAt text a).mark) :
      t.mark.index = a ∧ lineAt text a ≤ t.mark.line := by
    rw [hm, placeAt_index, placeAt_line]
    exact ⟨rfl, le_rfl⟩
  cases h with
  | start => exact ⟨rfl, le_rfl⟩
  | read hspells _ =>
    cases hspells with
    | plain _ | quoted _ _ | documentMark _ _ | word _ _ _ | directive _ _ _ => exact hplace rfl
    | block hstyle _ _ => rcases hstyle with rfl | rfl <;> cases hblock
  | put _ _ _ hmark => exact hplace (hmark.resolve_left hstart)
  | close _ _ _ hindex hline => exact ⟨hindex, hline⟩

/-- A block scalar is marked where its content starts, behind the indicator. -/
theorem Fits.block (h : g.Fits text) (hblock : g.token.kind.isBlockScalar = true) :
    ∃ c, g.first < c ∧ g.token.mark = (placeAt text c).mark ∧
      Lexeme.opensBlockText (some (charAt text g.first)) = true := by
  obtain ⟨s, style, hkind, hstyle⟩ := TokenKind.exists_of_isBlockScalar hblock
  cases h with
  | start => cases hkind
  | put hbare _ _ _ =>
    rw [hkind] at hbare
    cases hbare
  | close hclose _ _ _ _ =>
    rw [hkind] at hclose
    rcases hclose with hclose | hclose <;> cases hclose
  | @read t a b hspells hwritten =>
    cases hspells with
    | plain _ => cases hblock
    | @quoted _ single _ _ _ => cases single <;> cases hblock
    | @block s style c _ hstyle hac _ =>
      exact ⟨c, hac, rfl, hwritten.opensBlock hblock⟩
    | @documentMark kind hmark _ =>
      obtain rfl : kind = _ := hkind
      cases hmark
    | @word kind _ hword _ _ =>
      obtain rfl : kind = _ := hkind
      cases hword
    | @directive kind _ hdirective _ _ =>
      obtain rfl : kind = _ := hkind
      cases hdirective

/-- A sign stands where its text starts, unless it is that of a key without one. -/
theorem Fits.sign {c : Char} (h : g.Fits text) (hsign : g.token.kind.sign? = some c) :
    charAt text g.first = c ∧ g.upto = g.first + 1 ∧ g.token.mark = (placeAt text g.first).mark ∨
      g.token.kind = .key ∧ g.IsPut ∧ g.token.mark = (placeAt text g.first).mark := by
  cases h with
  | start => cases hsign
  | @read t a b hspells hwritten =>
    obtain ⟨hchar, hb⟩ := hwritten.sign_eq hsign
    refine Or.inl ⟨hchar, hb, ?_⟩
    cases hspells with
    | plain _ | quoted _ _ | documentMark _ _ | word _ _ _ | directive _ _ _ => rfl
    | block _ _ _ => cases hsign
  | @put t a n hbare hstart hle hmark =>
    obtain ⟨kind, mark⟩ := t
    have hkey : kind = .key := by cases kind <;> first | rfl | exact Bool.noConfusion hbare | cases hsign
    subst hkey
    exact Or.inr ⟨rfl, ⟨TokenKind.noConfusion, hle⟩, hmark.resolve_left TokenKind.noConfusion⟩
  | @close t a n hkind _ _ _ _ =>
    obtain ⟨kind, mark⟩ := t
    rcases hkind with rfl | rfl <;> cases hsign

theorem Fits.trailing (h : g.Fits text) (htrailing : g.token.kind.isTrailing = true) :
    g.token.kind.sign? = some (charAt text g.first) ∧ g.upto = g.first + 1 ∧
      g.token.mark = (placeAt text g.first).mark := by
  obtain ⟨c, hc⟩ : ∃ c, g.token.kind.sign? = some c := by
    generalize g.token.kind = kind at htrailing
    cases kind <;> first | exact ⟨_, rfl⟩ | cases htrailing
  rcases h.sign hc with ⟨hchar, hread⟩ | ⟨hkey, -⟩
  · exact ⟨by rw [hc, hchar], hread⟩
  · rw [hkey] at htrailing
    cases htrailing

end PlacedToken

end Yaml

namespace Lexeme

/-- A run ends before a character of another kind. -/
theorem eq_false_of_takeWhile {p : Char → Bool} {s : List Char} {x : Char}
    (h : s[(s.takeWhile p).length]? = some x) : p x = false := by
  induction s with
  | nil => cases h
  | cons c r ih =>
    rw [List.takeWhile_cons] at h
    split at h
    · exact ih h
    next hc =>
      cases h
      exact Bool.of_not_eq_true hc

/-- A run goes on as long as the characters are of its kind. -/
theorem le_runEnd {text : List Char} {p : Char → Bool} {index b limit : Nat} (hb : b ≤ limit)
    (hlimit : limit ≤ text.length) (hp : ∀ j, index ≤ j → j < b → p (charAt text j) = true) :
    b ≤ runEnd (Source.ofList text) p index limit := by
  unfold runEnd
  by_contra hlt
  have hget := @getElem?_slice text index limit
    (((Source.ofList text).slice index limit).takeWhile p).length (by omega)
  have hin : index + (((Source.ofList text).slice index limit).takeWhile p).length < text.length := by
    omega
  rw [List.getElem?_eq_getElem hin] at hget
  have hfalse := eq_false_of_takeWhile hget
  rw [← Yaml.charAt_of_getElem? (List.getElem?_eq_getElem hin), hp _ (by omega) (by omega)] at hfalse
  cases hfalse

section Written

variable {text : List Char} {l : Lexeme} {limit a b : Nat}

/-- The sign of a token is all that its lexeme covers. -/
theorem stopIndex_sign {c : Char} (hsign : l.kind.sign? = some c) (hc : charAt text l.start.index = c) :
    l.stopIndex (Source.ofList text) limit = l.start.index + 1 := by
  by_cases hkey : l.kind = .key
  · have hquestion : text[l.start.index]? = some '?' := by
      rw [hkey] at hsign
      cases hsign
      exact Yaml.getElem?_of_charAt hc (by decide)
    unfold stopIndex
    rw [hkey]
    exact if_pos (List.getElem?_toArray.trans hquestion)
  · refine stopIndex_of_isWord (TokenKind.isWord_of_sign? hsign) ?_ hkey
    generalize l.kind = kind at hsign
    cases kind <;> first | rfl | cases hsign

/-- A lexeme that can be seen to its end leaves only white space of what has been read as its token. -/
theorem stopIndex_written {t : Token} (hspells : Yaml.Spells text a t b)
    (hwritten : Yaml.Written text a t.kind b) (hord : OrdinaryText text)
    (hloose : t.kind.isLoose = false) (hkind : l.kind = t.kind) (hstart : l.start.index = a)
    (hmark : t.mark.index = a) (hb : b ≤ limit) (hlimit : limit ≤ text.length) :
    l.stopIndex (Source.ofList text) limit ≤ limit ∧
      ∀ j, l.stopIndex (Source.ofList text) limit ≤ j → j < b →
        Text.isBlank (charAt text j) = true := by
  have hlt := hspells.lt
  have hexact (hseen : l.stopIndex (Source.ofList text) limit = b) :
      l.stopIndex (Source.ofList text) limit ≤ limit ∧
        ∀ j, l.stopIndex (Source.ofList text) limit ≤ j → j < b →
          Text.isBlank (charAt text j) = true := by
    rw [hseen]
    exact ⟨hb, fun j hj hju => absurd hju (Nat.not_lt.mpr hj)⟩
  obtain ⟨kind, mark⟩ := t
  obtain rfl : kind = l.kind := hkind.symm
  dsimp only at *
  generalize hshown : l.kind = kind at hwritten
  cases hwritten with
  | sign hsign =>
    rw [← hshown, ← hstart] at hsign
    exact hexact ((stopIndex_sign hsign rfl).trans (congrArg (· + 1) hstart))
  | reference href _ hname _ =>
    have hnamed : l.kind.isName = true := by
      rw [hshown]
      cases kind <;> first | rfl | cases href
    rw [stopIndex_of_isName hnamed, hstart]
    refine ⟨runEnd_le_limit (by omega), fun j hj hju => absurd hju (Nat.not_lt.mpr ?_)⟩
    refine (le_runEnd (p := fun c => inWord c && !Yaml.isFlowIndicator c) hb hlimit
      fun i hi hib => ?_).trans hj
    exact hord.inWord_of_isNameChar (hname i hi hib)
  | tag _ _ =>
    rw [hshown] at hloose
    cases hloose
  | @plain s _ hplain =>
    rw [stopIndex_plain hshown, hstart]
    refine ⟨plainStop_le_limit (by omega), fun j hj hju => ?_⟩
    by_contra hsolid
    have haj : a ≤ j := (Nat.le_add_right a _).trans hj
    have hget : text[j]? = some (charAt text j) := by
      rw [List.getElem?_eq_getElem (by omega),
        Yaml.charAt_of_getElem? (List.getElem?_eq_getElem (by omega))]
    refine absurd hj (Nat.not_le.mpr (lt_plainStop haj (by omega) hget
      (Bool.of_not_eq_true hsolid) fun i hi hij hhash => Bool.of_not_eq_true fun hblank => ?_))
    exact hplain.bare i hi (by omega) (hord.blanks i hblank) (Yaml.charAt_of_getElem? hhash)
  | @quoted s single _ _ _ =>
    refine hexact ?_
    have hstop := hspells.stop_of_quoted hshown
    rw [hmark] at hstop
    rw [stopIndex_quoted hshown, hstart]
    exact hstop.symm
  | block hstyle _ _ =>
    rw [hshown] at hloose
    rcases hstyle with rfl | rfl <;> cases hloose
  | documentMark hdocument _ =>
    refine hexact ?_
    rw [stopIndex_of_documentMark (hshown ▸ hdocument), hstart]
  | directive hdirective _ =>
    exact absurd hloose (by simp [TokenKind.isLoose, hshown, hdirective])

end Written

/-- Two neighbouring lexemes with the places of their tokens, and what comes behind them. -/
structure Adjoins (text : List Char) (g u : PlacedToken) (next : Option PlacedToken)
    (l n : Lexeme) : Prop where
  fits : g.Fits text ∧ u.Fits text
  follows : Follows text g u
  closed : PlacedToken.Closed text g.upto
  third : ∀ v ∈ next, v.Fits text ∧ Follows text u v ∧ u.token.Leads v.token ∧
    u.token.Heads v.token
  leads : g.token.Leads u.token
  placed : g.token.PlacedIn text ∧ u.token.PlacedIn text
  within : u.token.mark.index ≤ text.length
  opened : u.token.kind = .blockMappingStart → next.isSome = true
  left : ∃ after, l = made (Source.ofList text) after g.token (some u.token)
  right : n = made (Source.ofList text) l.stop.index u.token (next.map (·.token))

section Start

variable {text : List Char} {a c after : Nat} {kind : TokenKind}

/-- An indicator of a block scalar is on the line of the content or before it. A lexeme that starts on
the line of the indicator starts there at the latest. -/
theorem begin_block (hkind : kind.isBlockScalar = true) (hac : a < c) (hc : c ≤ text.length)
    (hopens : opensBlockText (some (charAt text a)) = true) (hafter : after ≤ a) {m : Mark}
    (hm : m = (begin (Source.ofList text) ⟨kind, (placeAt text c).mark⟩ after).start) :
    m.line = lineAt text c ∧ (m.line = lineAt text a → m.index ≤ a) ∧
      (m.index ≤ a → opensBlockText (some (charAt text m.index)) = true) := by
  have hbegin : begin (Source.ofList text) ⟨kind, (placeAt text c).mark⟩ after =
      (⟨kind, (placeAt text c).mark, (placeAt text c).mark⟩ : Lexeme).atIndicator
        (Source.ofList text) after := by
    obtain ⟨s, style, rfl, hstyle⟩ := Yaml.TokenKind.exists_of_isBlockScalar hkind
    rcases hstyle with rfl | rfl <;> rfl
  rw [hbegin] at hm
  have hplace : (placeAt text c).mark.line = lineAt text (placeAt text c).mark.index := by
    rw [Yaml.placeAt_line, Yaml.placeAt_index]
  have hline := (atIndicator_line (l := ⟨kind, (placeAt text c).mark, (placeAt text c).mark⟩)
    hplace after).2
  rw [← hm, Yaml.placeAt_line] at hline
  unfold atIndicator at hm
  dsimp only at hm
  rw [Yaml.placeAt_line, Yaml.placeAt_index] at hm
  generalize hfirst : max after ((Source.ofList text).lineStart (lineAt text c)) = first at hm
  generalize hs : (Source.ofList text).slice first c = s at hm
  have hlength : s.length = c - first := by
    rw [← hs, Source.slice_ofList, List.length_drop, List.length_take, Nat.min_eq_left hc]
  have hget {k : Nat} (hk : first + k < c) : s[k]? = text[first + k]? := by
    rw [← hs, getElem?_slice hk]
  -- The indicator ends the run before the lexeme if it stands on the line of the content.
  have hrun (hfa : first ≤ a) :
      first + (s.takeWhile fun c => !opensBlockText (some c)).length ≤ a := by
    by_contra hlt
    obtain ⟨x, hx, hnot⟩ := getElem?_of_lt_takeWhile (p := fun c => !opensBlockText (some c)) (s := s)
      (k := a - first) (by omega)
    rw [hget (by omega), show first + (a - first) = a by omega] at hx
    rw [← Yaml.charAt_of_getElem? hx, hopens] at hnot
    cases hnot
  refine ⟨hline, fun hsame => ?_, fun hma => ?_⟩
  · have hstart := (Source.lineStart_lineAt text a).1
    have hfa : first ≤ a := by
      rw [← hfirst, ← hline, hsame]
      exact Nat.max_le.mpr ⟨hafter, hstart⟩
    have hle := hrun hfa
    rw [if_pos (by omega)] at hm
    rw [hm, (Source.markAt_ofList text _).1]
    exact (Nat.min_le_left _ _).trans hle
  · split at hm
    next hlt =>
      have hindex : m.index = first + (s.takeWhile fun c => !opensBlockText (some c)).length := by
        rw [hm, (Source.markAt_ofList text _).1]
        omega
      have hin : (s.takeWhile fun c => !opensBlockText (some c)).length < s.length := by
        omega
      have hchar := hget hlt
      rw [List.getElem?_eq_getElem hin, ← hindex] at hchar
      rw [Yaml.charAt_of_getElem? hchar.symm]
      simpa using eq_false_of_takeWhile (List.getElem?_eq_getElem hin)
    · rw [hm] at hma
      exact absurd hma (Nat.not_le.mpr (by rwa [Yaml.placeAt_index]))

end Start

namespace Adjoins

variable {text : List Char} {g u : PlacedToken} {next : Option PlacedToken} {l n : Lexeme}

theorem kinds (h : Adjoins text g u next l n) : l.kind = g.token.kind ∧ n.kind = u.token.kind := by
  obtain ⟨after, hl⟩ := h.left
  rw [hl, h.right]
  exact ⟨made_kind, made_kind⟩

theorem right_of_ne (h : Adjoins text g u next l n) (hstart : u.token.kind ≠ .blockMappingStart) :
    n.start = (begin (Source.ofList text) u.token l.stop.index).start := by
  rw [h.right, made_start hstart]

/-- The next lexeme starts where the text of its token does, unless it is a block scalar. -/
theorem right_start (h : Adjoins text g u next l n) (hblock : u.token.kind.isBlockScalar = false) :
    n.start.index = u.first ∧ lineAt text u.first ≤ n.start.line ∧ u.first ≤ text.length := by
  have hwithin := h.within
  by_cases hstart : u.token.kind = .blockMappingStart
  · obtain ⟨v, hv⟩ := Option.isSome_iff_exists.mp (h.opened hstart)
    obtain ⟨hfits, hfollows, hleads, hheads⟩ := h.third v hv
    have hsame := hfollows.same (h.fits.2.isPut hstart)
    have hmark : v.token.mark.index = v.first ∧ lineAt text v.first ≤ v.token.mark.line := by
      rcases hheads.mapping hstart with hkind | hkind <;>
        exact hfits.mark (by rw [hkind]; exact TokenKind.noConfusion) (by rw [hkind]; rfl)
    rw [hsame] at hmark
    by_cases hkey : v.token.kind = .key
    · rw [h.right, hv, Option.map_some, made_start_of_key hstart hkey]
      exact ⟨hmark.1, hmark.2, hmark.1 ▸ (hleads hstart).2.1.trans hwithin⟩
    · have hline : u.token.mark.line = lineAt text u.token.mark.index := by
        rcases h.placed.2 with hplace | ⟨hbound, -⟩
        · exact hplace.line
        · rw [hstart] at hbound
          cases hbound
      obtain ⟨-, -, hindex⟩ := hleads hstart
      have hindex := (hindex.resolve_left hkey).symm.trans hmark.1
      rw [h.right, hv, Option.map_some, made, Option.map_some, Option.getD_some]
      show ((begin (Source.ofList text) u.token l.stop.index).anchored v.token).start.index = u.first ∧
        lineAt text u.first ≤
          ((begin (Source.ofList text) u.token l.stop.index).anchored v.token).start.line ∧
        u.first ≤ text.length
      rw [anchored, if_neg fun heq => hkey heq.2, begin_start hblock, hline, hindex]
      exact ⟨rfl, le_rfl, hindex ▸ hwithin⟩
  · rw [h.right_of_ne hstart, begin_start hblock]
    obtain ⟨hindex, hline⟩ := h.fits.2.mark hstart hblock
    exact ⟨hindex, hline, hindex ▸ hwithin⟩

theorem first_le (h : Adjoins text g u next l n) : u.first ≤ text.length := by
  cases hblock : u.token.kind.isBlockScalar with
  | false => exact (h.right_start hblock).2.2
  | true =>
    obtain ⟨c, hac, hmark, -⟩ := h.fits.2.block hblock
    have hwithin := h.within
    rw [hmark, Yaml.placeAt_index] at hwithin
    omega

/-- Behind a sign there are spaces up to the next lexeme of the line, and then something else. -/
theorem spaces_behind (h : Adjoins text g u next l n) (hord : OrdinaryText text)
    (hstop : l.stop.index = g.upto) (hline : n.start.line = lineAt text g.upto) :
    g.upto ≤ n.start.index ∧
      (∀ j, g.upto ≤ j → j < n.start.index → Yaml.isSpace (charAt text j) = true) ∧
      (n.start.index = g.upto → charAt text g.upto ≠ ' ' ∧
        Yaml.Dialect.document.isBreak (charAt text g.upto) = false) := by
  have hskips := h.follows.skips
  have hmono := lineAt_mono text hskips.le
  cases hblock : u.token.kind.isBlockScalar with
  | false =>
    obtain ⟨hindex, hlater, hin⟩ := h.right_start hblock
    rw [hindex]
    refine ⟨hskips.le, fun j hj hju => hord.spaces hskips hin hj hju ?_, fun heq => ?_⟩
    · have hfirst := lineAt_mono text hj
      have hlast := lineAt_mono text (Nat.le_of_lt hju)
      omega
    rw [← heq]
    exact ⟨hskips.solid, hskips.lineBreak⟩
  | true =>
    have hne : u.token.kind ≠ .blockMappingStart := by
      intro hkind
      rw [hkind] at hblock
      cases hblock
    have hright := h.right_of_ne hne
    obtain ⟨c, hac, hmark, hopens⟩ := h.fits.2.block hblock
    have hwithin := h.within
    have htoken : u.token = ⟨u.token.kind, (placeAt text c).mark⟩ := by rw [← hmark]
    rw [hmark, Yaml.placeAt_index] at hwithin
    rw [hstop, htoken] at hright
    obtain ⟨hcontent, hsame, hfirst⟩ :=
      begin_block hblock hac hwithin hopens hskips.le hright
    have hle := hskips.le
    have hbehind := lineAt_mono text (Nat.le_of_lt hac)
    have hindex := hsame (by omega)
    refine ⟨?_, fun j hj hju => hord.spaces hskips (by omega) hj (by omega) ?_,
      fun heq => ?_⟩
    · rw [hright]
      exact le_begin_start (by omega) le_rfl (by rw [Yaml.placeAt_index]; omega)
    · have hfirst := lineAt_mono text hj
      have hlast := lineAt_mono text (show j ≤ u.first by omega)
      omega
    · have hopens := hfirst hindex
      rw [heq] at hopens
      generalize charAt text g.upto = x at hopens
      simp only [opensBlockText, Bool.or_eq_true, beq_iff_eq, Option.some.injEq] at hopens
      rcases hopens with rfl | rfl <;> decide

theorem stop_line (h : Adjoins text g u next l n) : l.stop.line = lineAt text l.stop.index := by
  obtain ⟨after, rfl⟩ := h.left
  show ((Source.ofList text).markAt _).line = lineAt text ((Source.ofList text).markAt _).index
  rw [(Source.markAt_ofList text _).1, (Source.markAt_ofList text _).2, lineAt_min]

/-- A lexeme stops where its token is seen to stop, within the text. -/
theorem left_stop (h : Adjoins text g u next l n)
    (hstart : g.token.kind ≠ .blockMappingStart) (hblock : g.token.kind.isBlockScalar = false)
    (hin : g.token.mark.index ≤ text.length) : l.start = g.token.mark ∧ l.stop.index =
      max g.token.mark.index (min (l.stopIndex (Source.ofList text) u.token.mark.index)
        text.length) := by
  obtain ⟨after, rfl⟩ := h.left
  rw [made_eq_finish hstart]
  have hbegin : (begin (Source.ofList text) g.token after).start = g.token.mark := begin_start hblock
  refine ⟨hbegin, ?_⟩
  rw [finish_stop_index (by rwa [hbegin]), hbegin]
  rfl

/-- The lexeme of a sign is its character. -/
theorem sign_stop (h : Adjoins text g u next l n) {c : Char}
    (hsign : g.token.kind.sign? = some c) (hput : ¬g.IsPut) (hin : g.first < text.length) :
    l.start = (placeAt text g.first).mark ∧ charAt text g.first = c ∧ g.upto = g.first + 1 ∧
      l.stop.index = g.first + 1 := by
  obtain ⟨hchar, hupto, hmark⟩ := (h.fits.1.sign hsign).resolve_right fun hkey => hput hkey.2.1
  have hindex : g.token.mark.index = g.first := by rw [hmark, Yaml.placeAt_index]
  have hstart : g.token.kind ≠ .blockMappingStart := fun hkind => by
    rw [hkind] at hsign
    cases hsign
  have hname : g.token.kind.isName = false := by
    generalize g.token.kind = kind at hsign
    cases kind <;> first | rfl | cases hsign
  have hblock : g.token.kind.isBlockScalar = false := by
    generalize g.token.kind = kind at hsign
    cases kind <;> first | rfl | cases hsign
  obtain ⟨hl, hstop⟩ := h.left_stop hstart hblock (hindex ▸ Nat.le_of_lt hin)
  refine ⟨hl.trans hmark, hchar, hupto, ?_⟩
  have hseen : l.stopIndex (Source.ofList text) u.token.mark.index = g.first + 1 := by
    rw [← hindex, ← hl]
    by_cases hkey : l.kind = .key
    · rw [h.kinds.1] at hkey
      rw [hkey] at hsign
      cases hsign
      have hquestion : text[l.start.index]? = some '?' := by
        rw [hl, hindex]
        exact Yaml.getElem?_of_charAt hchar (by decide)
      unfold stopIndex
      rw [show l.kind = .key from h.kinds.1.trans hkey]
      exact if_pos (List.getElem?_toArray.trans hquestion)
    · have hword := Yaml.TokenKind.isWord_of_sign? hsign
      rw [← h.kinds.1] at hword hname
      exact stopIndex_of_isWord hword hname hkey
  rw [hstop, hseen, hindex]
  omega

section Before

variable (htrailing : u.token.kind.isTrailing = true)

include htrailing

theorem trailing_char (h : Adjoins text g u next l n) :
    u.token.mark.index = u.first ∧ u.token.kind ≠ .key ∧ charAt text u.first ≠ '?' ∧
      Yaml.Dialect.document.isGap (charAt text u.first) = false := by
  obtain ⟨hsign, -, hmark⟩ := h.fits.2.trailing htrailing
  refine ⟨by rw [hmark, Yaml.placeAt_index], ?_⟩
  generalize charAt text u.first = c at hsign
  generalize u.token.kind = kind at hsign htrailing
  cases kind <;> first | exact Bool.noConfusion htrailing | skip
  all_goals
    cases hsign
    exact ⟨TokenKind.noConfusion, by decide, by decide⟩

/-- A token that has been put stops where it starts, at the sign behind it. -/
theorem put_stop (h : Adjoins text g u next l n) (hput : g.IsPut) : l.stop.index = u.first := by
  obtain ⟨hindex, hkey, hquestion, hgap⟩ := h.trailing_char htrailing
  have hfirst := h.follows.same hput
  have hin := Yaml.lt_length_of_charAt (Yaml.isEnd_of_not_isGap hgap)
  by_cases hstart : g.token.kind = .blockMappingStart
  · obtain ⟨-, -, hmark⟩ := h.leads hstart
    have hmark := (hmark.resolve_left hkey).symm
    have hblock : g.token.kind.isBlockScalar = false := by rw [hstart]; rfl
    obtain ⟨after, rfl⟩ := h.left
    rw [made, Option.map_some, Option.getD_some, anchored, if_neg fun heq => hkey heq.2,
      finish_stop_index (by rw [begin_start hblock]; omega), begin_start hblock,
      stopIndex_of_bare (by rw [begin_kind, hstart]; decide), begin_start hblock]
    omega
  · have hbare := h.fits.1.isBare hput
    have hblock : g.token.kind.isBlockScalar = false := by
      generalize g.token.kind = kind at hbare
      cases kind <;> first | rfl | cases hbare
    have hmark : g.token.mark.index = g.first := (h.fits.1.mark hstart hblock).1
    obtain ⟨hl, hstop⟩ := h.left_stop hstart hblock (by omega)
    have hstays : l.stopIndex (Source.ofList text) u.token.mark.index = l.start.index := by
      by_cases hkind : l.kind = .key
      · unfold stopIndex
        rw [hkind]
        refine if_neg fun hchar => hquestion ?_
        rw [hl, hmark, ← hfirst] at hchar
        exact Yaml.charAt_of_getElem? (List.getElem?_toArray.symm.trans hchar)
      · refine stopIndex_of_bare ?_
        rw [← h.kinds.1] at hbare
        generalize l.kind = kind at hbare hkind
        cases kind <;> first | exact Bool.noConfusion hbare | exact absurd rfl hkind | simp
    rw [hstop, hstays, hl]
    omega

/-- A lexeme that can be seen to its end stops before the sign behind it, and it leaves only white
space of what has been read as its token. -/
theorem upto_blank (h : Adjoins text g u next l n) (hord : OrdinaryText text)
    (hloose : g.token.kind.isLoose = false) : l.stop.index ≤ u.first ∧
      ∀ j, l.stop.index ≤ j → j < g.upto → Text.isBlank (charAt text j) = true := by
  obtain ⟨hindex, hkey, hquestion, hgap⟩ := h.trailing_char htrailing
  have hin := Yaml.lt_length_of_charAt (Yaml.isEnd_of_not_isGap hgap)
  have hle := h.follows.skips.le
  -- What has been put stops where the sign stands, which is not before it has been put.
  by_cases hput : g.IsPut
  · have hstop := h.put_stop htrailing hput
    exact ⟨Nat.le_of_eq hstop, fun j hj hju => absurd hput.2 (by omega)⟩
  have hnotBlock : g.token.kind.isBlockScalar = false :=
    (Bool.or_eq_false_iff.mp (Bool.or_eq_false_iff.mp hloose).1).1
  have hstart : g.token.kind ≠ .blockMappingStart := fun hkind => hput (h.fits.1.isPut hkind)
  obtain ⟨hmark, -⟩ := h.fits.1.mark hstart hnotBlock
  rcases h.fits.1.read_of_not_isPut hput with rfl | ⟨hspells, hwritten⟩
  · obtain ⟨hl, hstop⟩ := h.left_stop hstart hnotBlock (Nat.zero_le _)
    rw [stopIndex_of_bare (by rw [h.kinds.1]; decide), hl] at hstop
    exact ⟨by rw [hstop]; exact Nat.zero_le _, fun j _ hju => absurd hju (Nat.not_lt_zero j)⟩
  have hlt := hspells.lt
  obtain ⟨hl, hstop⟩ := h.left_stop hstart hnotBlock (by omega)
  rw [hmark, hindex] at hstop
  obtain ⟨hseen, hblank⟩ := stopIndex_written hspells hwritten hord hloose h.kinds.1
    (hl ▸ hmark) hmark hle (Nat.le_of_lt hin)
  exact ⟨by omega, fun j hj hju => hblank j (by omega) hju⟩

/-- Between a lexeme that can be seen to its end and the sign behind it on the line, there is only
white space. -/
theorem blank_between (h : Adjoins text g u next l n) (hord : OrdinaryText text)
    (hloose : g.token.kind.isLoose = false) {j : Nat} (hj : l.stop.index ≤ j) (hju : j < u.first)
    (hline : lineAt text u.first = lineAt text j) : Text.isBlank (charAt text j) = true := by
  obtain ⟨hindex, -, -, hgap⟩ := h.trailing_char htrailing
  have hin := Yaml.lt_length_of_charAt (Yaml.isEnd_of_not_isGap hgap)
  rcases Nat.lt_or_ge j g.upto with hlt | hge
  · exact (h.upto_blank htrailing hord hloose).2 j hj hlt
  · refine Yaml.isBlank_of_inGap (Bool.or_eq_true_iff.mpr (Or.inl ?_))
    exact hord.spaces h.follows.skips (Nat.le_of_lt hin) hge hju hline

/-- If a lexeme stops before the sign behind it, the sign stands behind white space. -/
theorem blank_before (h : Adjoins text g u next l n) (hord : OrdinaryText text)
    (hstop : l.stop.index < u.first) : Text.isBlank (charAt text (u.first - 1)) = true := by
  obtain ⟨hindex, -, -, hgap⟩ := h.trailing_char htrailing
  have hend := Yaml.isEnd_of_not_isGap hgap
  have hbreak : Yaml.Dialect.document.isBreak (charAt text u.first) = false :=
    h.follows.skips.lineBreak
  rcases Nat.eq_or_lt_of_le h.follows.skips.le with heq | hlt
  · cases hloose : g.token.kind.isLoose with
    | false => exact (h.upto_blank htrailing hord hloose).2 _ (by omega) (by omega)
    | true =>
      have hput : ¬g.IsPut := fun hput => by
        have := h.put_stop htrailing hput
        omega
      rcases h.fits.1.read_of_not_isPut hput with rfl | ⟨-, hwritten⟩
      · cases hloose
      · rw [← heq] at hgap ⊢
        exact Yaml.isBlank_of_inGap (hwritten.loose hloose hgap)
  · rcases h.follows.skips.passed (u.first - 1) (by omega) (by omega) with hblank | ⟨m, hm, hmu, hline, -⟩
    · exact Yaml.isBlank_of_inGap hblank
    · rw [show m = u.first by omega, Yaml.Dialect.isBreakOrEnd, hend, hbreak] at hline
      cases hline

end Before

end Adjoins

/-- Two neighbouring lexemes of a text without a fault have their places. -/
theorem exists_adjoins {text : List Char} {front back : List Lexeme} {l n : Lexeme}
    (herror : (Yaml.Scan.ofList .document text).error = none)
    (hlexemes : ofText (Source.ofList text) text = front ++ l :: n :: back) :
    ∃ g u next, Adjoins text g u next l n := by
  rw [ofText_eq_madeFrom] at hlexemes
  obtain ⟨pre, t, post, after, hts, hl, hback⟩ := eq_of_madeFrom hlexemes
  obtain ⟨gs, hgs⟩ := Yaml.scan_placed herror
  have hhead := Yaml.scan_head? text
  obtain ⟨w, hw, hqueue⟩ := Yaml.scan_held herror
  obtain ⟨hheads, _, _, hend⟩ := Yaml.scan_heads herror
  have hleads : List.IsChain Token.Leads _ := hqueue ▸ hw.surveyed.leads
  obtain ⟨-, hwithin⟩ := Yaml.scan_startsLeft herror
  have hplaced := fun t => @Yaml.scan_tokens_placedIn text t
  generalize (Yaml.Scan.ofList .document text).tokens.map (·.token) = ts at *
  cases post with
  | nil => cases hback
  | cons v post =>
    obtain ⟨rfl, -⟩ := List.cons.inj hback
    have hclosed : ∀ g ∈ gs, PlacedToken.Closed text g.upto := by
      obtain ⟨rest, rfl⟩ := List.head?_eq_some_iff.mp hhead
      exact hgs.closed rfl
    obtain ⟨htokens, hfits, hchain⟩ := hgs
    obtain ⟨gpre, rest, rfl, -, hrest⟩ := List.map_eq_append_iff.mp (htokens.trans hts)
    obtain ⟨g, rest, rfl, rfl, hbehind⟩ := List.map_eq_cons_iff.mp hrest
    obtain ⟨u, rest, rfl, rfl, rfl⟩ := List.map_eq_cons_iff.mp hbehind
    have hafter {R : PlacedToken → PlacedToken → Prop}
        (h : (gpre ++ g :: u :: rest).IsChain R) : R g u ∧ ∀ x ∈ rest.head?, R u x := by
      obtain ⟨hgu, htail⟩ := List.isChain_cons_cons.mp (List.isChain_append.mp h).2.1
      exact ⟨hgu, (List.isChain_cons.mp htail).1⟩
    obtain ⟨hfollows, hfollowed⟩ := hafter hchain
    rw [← htokens, List.isChain_map] at hleads hheads
    obtain ⟨hleads, hled⟩ := hafter hleads
    obtain ⟨-, hheaded⟩ := hafter hheads
    have hmem {x : PlacedToken} (hx : x ∈ g :: u :: rest) :
        x ∈ gpre ++ g :: u :: rest ∧ x.token ∈ ts :=
      ⟨List.mem_append_right _ hx, htokens ▸ List.mem_map_of_mem (List.mem_append_right _ hx)⟩
    have hg := hmem List.mem_cons_self
    have hu := hmem (List.mem_cons_of_mem g List.mem_cons_self)
    refine ⟨g, u, rest.head?, ⟨hfits g hg.1, hfits u hu.1⟩, hfollows, hclosed g hg.1,
      fun x hx => ?_, hleads,
      ⟨hplaced _ hg.2, hplaced _ hu.2⟩, hwithin _ hu.2, fun hstart => ?_, ⟨after, hl⟩, ?_⟩
    · have hx' : x ∈ g :: u :: rest :=
        List.mem_cons_of_mem _ (List.mem_cons_of_mem _ (List.mem_of_mem_head? hx))
      exact ⟨hfits x (hmem hx').1, hfollowed x hx, hled x hx, hheaded x hx⟩
    · -- The last token is the end of the stream.
      cases rest with
      | cons x rest => rfl
      | nil =>
        have hlast := congrArg List.getLast? (hts.symm.trans hend)
        rw [List.getLast?_append, List.getLast?_append] at hlast
        have hlast : u.token = ⟨.streamEnd, _⟩ := Option.some.inj hlast
        rw [hlast] at hstart
        cases hstart
    · rw [List.head?_map]

end Lexeme

end Blueprint
