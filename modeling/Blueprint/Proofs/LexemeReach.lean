import Blueprint.Proofs.ScalarComments

/-!
A comment lies behind the lexeme before it: a lexeme does not reach over a `#` that starts a comment.
Only the lexeme of a block scalar goes on up to the line of the next token.
-/

namespace Blueprint

open Yaml (Token TokenKind charAt)

namespace Lexeme

variable {text : List Char} {l : Lexeme} {limit i : Nat}

theorem getElem?_of_lt_takeWhile {p : Char → Bool} {s : List Char} {k : Nat}
    (hk : k < (s.takeWhile p).length) : ∃ x, s[k]? = some x ∧ p x = true := by
  induction s generalizing k with
  | nil => cases hk
  | cons c r ih =>
    rw [List.takeWhile_cons] at hk
    split at hk
    next hc =>
      cases k with
      | zero => exact ⟨c, rfl, hc⟩
      | succ k => exact ih (Nat.lt_of_succ_lt_succ hk)
    · cases hk

theorem runEnd_spec {p : Char → Bool} {index j : Nat} (hj : index ≤ j)
    (hend : j < runEnd (Source.ofList text) p index limit) : p (charAt text j) = true := by
  obtain ⟨k, rfl⟩ := Nat.exists_eq_add_of_le hj
  obtain ⟨x, hx, hp⟩ := getElem?_of_lt_takeWhile (Nat.lt_of_add_lt_add_left hend)
  rw [Source.slice_ofList, List.getElem?_drop, List.getElem?_take] at hx
  split at hx
  · rwa [Yaml.charAt_of_getElem? hx]
  · cases hx

/-- What precedes a comment ends with the blank character before its `#`. -/
theorem beforeComment_le {s : List Char} {k : Nat} {x : Char} (hhash : s[k + 1]? = some '#')
    (hx : s[k]? = some x) (hblank : Text.isBlank x = true) : beforeComment s ≤ k + 1 := by
  induction s generalizing k with
  | nil => cases hx
  | cons c r ih =>
    cases r with
    | nil => cases hhash
    | cons d r =>
      rw [beforeComment]
      split
      · exact Nat.le_add_left 1 k
      next hcut =>
        cases k with
        | zero =>
          refine absurd ⟨?_, ?_⟩ hcut
          · exact Option.some.inj hhash
          · rwa [Option.some.inj hx]
        | succ k => exact Nat.succ_le_succ (ih hhash hx)

theorem length_trimEnd_le (s : List Char) : (Text.trimEnd s).length ≤ s.length := by
  rw [Text.trimEnd, Text.dropEndWhile, List.length_reverse]
  exact (List.dropWhile_sublist _).length_le.trans (Nat.le_of_eq List.length_reverse)

/-- A plain scalar ends before a comment. -/
theorem plainStop_le {start : Nat} (hstart : start < i) (hhash : text[i]? = some '#')
    (hblank : Text.isBlank (charAt text (i - 1)) = true) :
    plainStop (Source.ofList text) start limit ≤ i := by
  obtain ⟨k, rfl⟩ := Nat.exists_eq_add_of_lt hstart
  unfold plainStop
  dsimp only
  refine Nat.add_le_add_left (Nat.max_le.mpr ⟨?_, Nat.le_add_left 1 k⟩) start
  refine (length_trimEnd_le _).trans ?_
  rw [List.length_take]
  by_cases hk : start + (k + 1) < limit
  · refine (Nat.min_le_left _ _).trans ?_
    have hget : ((Source.ofList text).slice start limit)[k + 1]? = some '#' := by
      rw [getElem?_slice hk]
      exact hhash
    obtain ⟨x, hx⟩ : ∃ x, ((Source.ofList text).slice start limit)[k]? = some x :=
      ⟨_, List.getElem?_eq_getElem (Nat.lt_of_succ_lt (List.getElem?_eq_some_iff.mp hget).1)⟩
    refine beforeComment_le hget hx ?_
    rw [getElem?_slice (Nat.lt_of_succ_lt hk)] at hx
    rw [← Yaml.charAt_of_getElem? hx]
    exact hblank
  · refine (Nat.min_le_right _ _).trans ?_
    rw [Source.slice_ofList, List.length_drop, List.length_take]
    omega

/-- A word ends before white space. -/
theorem inWord_of_lt_stopIndex (hkind : l.kind.isWord = true) (hi : l.start.index < i)
    (hstop : i < l.stopIndex (Source.ofList text) limit) : inWord (charAt text i) = true := by
  unfold stopIndex at hstop
  dsimp only at hstop
  split at hstop
  all_goals try (rename_i heq; rw [heq] at hkind; cases hkind)
  · exact (Bool.and_eq_true_iff.mp (runEnd_spec hi hstop)).1
  · exact (Bool.and_eq_true_iff.mp (runEnd_spec hi hstop)).1
  · exact (Bool.and_eq_true_iff.mp (runEnd_spec hi hstop)).1
  -- The other words have one character.
  all_goals first | omega | (split at hstop <;> omega)

theorem stopIndex_of_documentMark (hkind : l.kind.isDocumentMark = true) :
    l.stopIndex (Source.ofList text) limit = l.start.index + 3 := by
  unfold stopIndex
  dsimp only
  split
  all_goals try rfl
  all_goals rename_i heq; rw [heq] at hkind; cases hkind

theorem stopIndex_of_directive (hkind : l.kind.isDirective = true) :
    l.stopIndex (Source.ofList text) limit = (Source.ofList text).lineEnd l.start.line := by
  unfold stopIndex
  dsimp only
  split
  all_goals try rfl
  all_goals rename_i heq; rw [heq] at hkind; cases hkind

theorem stopIndex_of_bare (hkind : l.kind ∈ [TokenKind.streamStart, .streamEnd, .blockEnd,
    .blockSequenceStart, .blockMappingStart]) :
    l.stopIndex (Source.ofList text) limit = l.start.index := by
  simp only [List.mem_cons, List.not_mem_nil, or_false] at hkind
  unfold stopIndex
  rcases hkind with h | h | h | h | h <;> rw [h]

theorem stopIndex_of_key (hkind : l.kind = .key) :
    l.stopIndex (Source.ofList text) limit ≤ l.start.index + 1 := by
  unfold stopIndex
  rw [hkind]
  dsimp only
  split
  · exact le_rfl
  · exact Nat.le_succ _

/-- What a lexeme covers is settled by its kind and its start, and by where the next token starts. -/
theorem lt_made_stop {after : Nat} {t : Token} {next : Option Token} (hi : i < text.length)
    (hstart : (made (Source.ofList text) after t next).start.index ≤ i)
    (hstop : i < (made (Source.ofList text) after t next).stop.index) :
    ∃ (l : Lexeme) (limit : Nat), l.kind = t.kind ∧
      l.start = (made (Source.ofList text) after t next).start ∧
      i < l.stopIndex (Source.ofList text) limit :=
  ⟨_, _, made_kind, rfl, (lt_finish_stop hi hstart).mp hstop⟩

end Lexeme

namespace Yaml

theorem TokenKind.cases_text (k : TokenKind) : (∃ s style, k = .scalar s style) ∨
    k.isDocumentMark = true ∨ k.isDirective = true ∨ k.isWord = true ∨
    k ∈ [TokenKind.streamStart, .streamEnd, .blockEnd, .blockSequenceStart, .blockMappingStart] := by
  cases k with
  | scalar s style => exact Or.inl ⟨s, style, rfl⟩
  | _ => simp [isDocumentMark, isDirective, isWord]

theorem TokenKind.isWord_of_isDocumentMark {k : TokenKind} (h : k.isDocumentMark = true) :
    k.isWord = false := by
  cases k <;> first | rfl | cases h

theorem TokenKind.of_isDirective {k : TokenKind} (h : k.isDirective = true) :
    k.isWord = false ∧ k.isBound = false := by
  cases k <;> first | exact ⟨rfl, rfl⟩ | cases h

/-- Only a key may be a word without a text of its own. -/
theorem TokenKind.isBare_of_isWord {k : TokenKind} (h : k.isWord = true) (hkey : k ≠ .key) :
    k.isBare = false := by
  cases k <;> first | rfl | exact absurd rfl hkey | cases h

theorem Spells.stop_of_quoted {text : List Char} {a b : Nat} {t : Token} {s : String} {single : Bool}
    (h : Spells text a t b) (hkind : t.kind = .scalar s (quotedStyle single)) :
    b = quotedStop single (t.mark.index + 1) (text.drop (t.mark.index + 1)) := by
  cases h with
  | plain _ => cases single <;> cases hkind
  | @quoted _ other _ _ hstop =>
    have hsame : other = single := by
      cases other <;> cases single <;> first | rfl | cases hkind
    rw [placeAt_index, ← hsame, hstop]
  | block hstyle _ _ => rcases hstyle with rfl | rfl <;> cases single <;> cases hkind
  | @documentMark kind hmark _ =>
    obtain rfl : kind = _ := hkind
    cases hmark
  | @word kind _ hword _ _ =>
    obtain rfl : kind = _ := hkind
    cases hword
  | @directive kind _ hdirective _ _ =>
    obtain rfl : kind = _ := hkind
    cases hdirective

theorem Spells.first_of_isWord {text : List Char} {a b : Nat} {t : Token} (h : Spells text a t b)
    (hkind : t.kind.isWord = true) : inYamlWord .document (charAt text t.mark.index) = true := by
  cases h with
  | plain _ => cases hkind
  | quoted _ _ => cases hkind
  | block _ _ _ => cases hkind
  | documentMark hmark _ => exact absurd hkind (by simp [TokenKind.isWord_of_isDocumentMark hmark])
  | word _ hab hword =>
    rw [placeAt_index]
    exact hword _ le_rfl hab
  | directive hdirective _ _ => exact absurd hkind (by simp [TokenKind.of_isDirective hdirective])

theorem isBlank_of_inGap {x : Char} (h : inGap .document x = true) : Text.isBlank x = true := by
  rcases eq_of_isGap (isGap_of_inGap h) with rfl | rfl | rfl | rfl | rfl | rfl | rfl | rfl <;>
    first | rfl | cases h

/-- A comment starts at an index of a document: a `#` in no scalar, at the start of a line or behind
white space. -/
structure Scan.StartsComment (text : List Char) (i : Nat) : Prop where
  hash : text[i]? = some '#'
  behindGap : i = 0 ∨ inGap .document (charAt text (i - 1)) = true
  outside : ∀ r ∈ Scan.readings text, ¬r.Holds i

end Yaml

open Yaml (Scan Reading)

section Reach

variable {text : List Char} {i after : Nat} {pre post : List Token} {t : Token} {w : Yaml.Scanner}

/-- The lexeme of a token other than a block scalar does not cover the start of a comment. -/
theorem made_stop_le (hw : w.Finished text (Scan.readings text)) (hqueue : w.queue = pre ++ t :: post)
    (hcomment : Scan.StartsComment text i)
    (hplaced : t.PlacedIn text) (hdirective : t.kind.isDirective → t.mark.line ≠ lineAt text i)
    (hblock : t.kind.isBlockScalar = false)
    (hstart : (Lexeme.made (Source.ofList text) after t post.head?).start.index ≤ i) :
    (Lexeme.made (Source.ofList text) after t post.head?).stop.index ≤ i := by
  by_contra hcovered
  have hin := (List.getElem?_eq_some_iff.mp hcomment.hash).1
  obtain ⟨l, limit, hkind, hl, hstop⟩ := Lexeme.lt_made_stop hin hstart (Nat.lt_of_not_le hcovered)
  have ht : t ∈ w.queue := by
    rw [hqueue]
    exact List.mem_append_right _ List.mem_cons_self
  have hhash : charAt text i = '#' := Yaml.charAt_of_getElem? hcomment.hash
  rw [← hl] at hstart
  by_cases hbare : t.kind ∈ [TokenKind.streamStart, .streamEnd, .blockEnd, .blockSequenceStart,
      .blockMappingStart]
  · rw [Lexeme.stopIndex_of_bare (hkind ▸ hbare)] at hstop
    exact absurd hstop (Nat.not_lt.mpr hstart)
  have hne : t.kind ≠ .blockMappingStart ∧ t.kind ≠ .streamStart := by
    constructor <;> intro heq <;> exact hbare (by simp [heq])
  have hmark : l.start = t.mark := by
    rw [hl, Lexeme.made_start hne.1, Lexeme.begin_start hblock]
  rw [hmark] at hstart
  have hfirst (k : Nat) (hk : k < t.kind.reach) : t.mark.index + k ≠ i := by
    rintro rfl
    exact hw.surveyed.bare t ht hne.2 hblock k hk hhash
  have hbefore : t.mark.index < i := by
    refine Nat.lt_of_le_of_ne hstart (hfirst 0 ?_)
    unfold TokenKind.reach
    split <;> decide
  have hgap := hcomment.behindGap.resolve_left (Nat.ne_of_gt (Nat.zero_lt_of_lt hbefore))
  have hread (h : t.kind.isBare = false) :
      ∃ r ∈ Scan.readings text, r.token = t ∧ ∃ a, Yaml.Spells text a t r.stop := by
    obtain ⟨r, hr, rfl⟩ := hw.surveyed.read t ht h
    exact ⟨r, hr, rfl, hw.surveyed.spelt r hr h⟩
  rcases t.kind.cases_text with ⟨s, style, hscalar⟩ | hdocument | hdir | hword | hmem
  · have hquoted {single : Bool} (hstyle : style = Yaml.quotedStyle single) : False := by
      obtain ⟨r, hr, rfl, a, hspells⟩ := hread (by rw [hscalar]; rfl)
      rw [hstyle] at hscalar
      rw [Lexeme.stopIndex_quoted (hkind.trans hscalar), hmark,
        ← hspells.stop_of_quoted hscalar] at hstop
      exact hcomment.outside r hr ⟨by rw [hscalar]; rfl, hstart, hstop⟩
    cases style with
    | plain =>
      rw [Lexeme.stopIndex_plain (hkind.trans hscalar), hmark] at hstop
      exact absurd hstop (Nat.not_lt.mpr
        (Lexeme.plainStop_le hbefore hcomment.hash (Yaml.isBlank_of_inGap hgap)))
    | singleQuoted => exact @hquoted true rfl
    | doubleQuoted => exact @hquoted false rfl
    | literal | folded =>
      rw [hscalar] at hblock
      cases hblock
  · rw [Lexeme.stopIndex_of_documentMark (hkind ▸ hdocument), hmark] at hstop
    refine hfirst (i - t.mark.index) ?_ (by omega)
    rw [TokenKind.reach, if_pos hdocument]
    omega
  · rw [Lexeme.stopIndex_of_directive (hkind ▸ hdir), hmark] at hstop
    have hline : t.mark.line = lineAt text t.mark.index := by
      rcases hplaced with hplace | ⟨hbound, _⟩
      · exact hplace.line
      · rw [(TokenKind.of_isDirective hdir).2] at hbound
        cases hbound
    have hle := Source.lineAt_le_of_lt_lineEnd (by rw [hline]; exact Nat.succ_pos _) hstop
    have hmono := lineAt_mono text hstart
    exact hdirective hdir (by omega)
  · by_cases hkey : t.kind = .key
    · have hle := @Lexeme.stopIndex_of_key text l limit (hkind.trans hkey)
      rw [hmark] at hle
      omega
    · by_cases hnext : t.mark.index + 1 = i
      · obtain ⟨r, _, _, a, hspells⟩ := hread (TokenKind.isBare_of_isWord hword hkey)
        have hchar := hspells.first_of_isWord hword
        rw [show t.mark.index = i - 1 by omega, Yaml.inYamlWord, Yaml.isGap_of_inGap hgap] at hchar
        cases hchar
      · have hinner : Lexeme.inWord (charAt text (i - 1)) = true :=
          Lexeme.inWord_of_lt_stopIndex (hkind ▸ hword) (by rw [hmark]; omega)
            (Nat.lt_of_le_of_lt (Nat.sub_le i 1) hstop)
        rw [Lexeme.inWord, Yaml.isBlank_of_inGap hgap] at hinner
        cases hinner
  · exact hbare hmem

end Reach

end Blueprint
