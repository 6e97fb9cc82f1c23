import Blueprint.Lint.Rules.Spacing
import Blueprint.Proofs.BlockAnchors
import Blueprint.Proofs.LexemeReach

/-!
The ranges of neighbouring tokens. A token stops where the next one starts or before it, but for three
kinds of token whose range is not told from their own text.
-/

namespace Blueprint

open Yaml (Token TokenKind charAt)

namespace Source

theorem startsAfter_le {b n : Nat} {s : List Char} (h : n ∈ startsAfter b s) : n ≤ b + s.length := by
  induction s generalizing b with
  | nil => cases h
  | cons c r ih =>
    rw [startsAfter] at h
    rw [List.length_cons]
    split at h
    · rcases List.mem_cons.mp h with rfl | h
      · omega
      · have := ih h
        omega
    · have := ih h
      omega

/-- A line ends in the text. -/
theorem lineEnd_le (text : List Char) (line : Nat) :
    (ofList text).lineEnd line ≤ text.length := by
  have hnext {n : Nat} (h : (ofList text).lineStarts[line]? = some n) : n ≤ text.length := by
    have hmem : n ∈ 0 :: startsAfter 0 text := by
      rw [ofList, List.getElem?_toArray] at h
      exact List.mem_of_getElem? h
    rcases List.mem_cons.mp hmem with rfl | hmem
    · exact Nat.zero_le _
    · simpa using startsAfter_le hmem
  have hsize := size_ofList text
  unfold lineEnd
  cases h : (ofList text).lineStarts[line]? with
  | none =>
    dsimp only
    split <;> omega
  | some n =>
    have hle := hnext h
    dsimp only
    split
    · exact (Nat.sub_le _ _).trans ((Nat.sub_le _ _).trans hle)
    · exact (Nat.sub_le _ _).trans hle

end Source

namespace Lexeme

variable {text : List Char} {l : Lexeme} {limit index i q : Nat} {p : Char → Bool}

theorem runEnd_le_limit (h : index ≤ limit) :
    runEnd (Source.ofList text) p index limit ≤ limit := by
  have hrun := (List.takeWhile_prefix p (l := (Source.ofList text).slice index limit)).length_le
  rw [Source.slice_ofList, List.length_drop, List.length_take] at hrun
  rw [runEnd, Source.slice_ofList]
  omega

theorem runEnd_le (hi : index ≤ i) (hp : p (charAt text i) = false) :
    runEnd (Source.ofList text) p index limit ≤ i := by
  by_contra hlt
  rw [runEnd_spec hi (Nat.not_le.mp hlt)] at hp
  cases hp

theorem plainStop_le_limit {start : Nat} (h : start < limit) :
    plainStop (Source.ofList text) start limit ≤ limit := by
  have htrim := length_trimEnd_le (((Source.ofList text).slice start limit).take
    (beforeComment ((Source.ofList text).slice start limit)))
  have hslice : ((Source.ofList text).slice start limit).length ≤ limit - start := by
    rw [Source.slice_ofList, List.length_drop, List.length_take]
    omega
  rw [List.length_take] at htrim
  unfold plainStop
  dsimp only
  omega

/-- A block scalar covers a character at least. -/
theorem lt_blockStop_self (start : Mark) :
    start.index < blockStop (Source.ofList text) start limit := by
  unfold blockStop
  dsimp only
  split
  · exact Nat.lt_of_succ_le (Nat.le_add_right _ _)
  · exact Nat.lt_of_succ_le (Nat.le_max_right _ _)

/-- A block scalar stops before a place on the line of the next token, if its header does. -/
theorem blockStop_le {start : Mark} (hq : start.index < q) (hql : q ≤ limit)
    (hline : lineAt text q = lineAt text limit)
    (hheader : opensBlockText (text[start.index]?) = true →
      q = limit ∨ ∃ i, start.index < i ∧ i ≤ q ∧ inWord (charAt text i) = false) :
    blockStop (Source.ofList text) start limit ≤ q := by
  have hlimit : ((Source.ofList text).markAt limit).line = lineAt text q :=
    (Source.markAt_ofList text limit).2.trans hline.symm
  unfold blockStop
  dsimp only
  rw [hlimit]
  split
  next hopens =>
    have hchar : (Source.ofList text).char? start.index = text[start.index]? :=
      List.getElem?_toArray
    rw [hchar] at hopens
    rcases hheader hopens.2 with rfl | ⟨i, hi, hiq, hblank⟩
    · exact runEnd_le_limit hq
    · exact (runEnd_le hi hblank).trans hiq
  · exact Nat.max_le.mpr ⟨(Source.lineStart_lineAt text q).1, hq⟩

theorem stopIndex_of_isName (hkind : l.kind.isName = true) :
    l.stopIndex (Source.ofList text) limit =
      runEnd (Source.ofList text) (fun c => inWord c && !Yaml.isFlowIndicator c)
        (l.start.index + 1) limit := by
  unfold stopIndex
  dsimp only
  split
  all_goals try rfl
  all_goals rename_i heq; rw [heq] at hkind; cases hkind

theorem stopIndex_of_isWord (hkind : l.kind.isWord = true) (hname : l.kind.isName = false)
    (hkey : l.kind ≠ .key) : l.stopIndex (Source.ofList text) limit = l.start.index + 1 := by
  unfold stopIndex
  dsimp only
  split
  all_goals try rfl
  all_goals rename_i heq; rw [heq] at hkind hname
  all_goals first | exact Bool.noConfusion hkind | exact Bool.noConfusion hname | exact absurd heq hkey

end Lexeme

namespace Yaml

theorem TokenKind.exists_of_isBlockScalar {k : TokenKind} (h : k.isBlockScalar = true) :
    ∃ s style, k = .scalar s style ∧ (style = .literal ∨ style = .folded) := by
  cases k with
  | scalar s style =>
    refine ⟨s, style, rfl, ?_⟩
    cases style <;> first | exact Or.inl rfl | exact Or.inr rfl | cases h
  | _ => cases h

/-- What stands behind a token: from `q` on the next one, which is told of at `limit` on the same line.
The token has been read up to there, and it can be seen from its text if there is more up to the limit. -/
structure Token.Before (text : List Char) (t : Token) (q limit : Nat) : Prop where
  le : q ≤ limit
  line : lineAt text q = lineAt text limit
  leaves : q = limit ∨ t.Leaves text q
  spelt : t.kind.isBare = false → ∃ a b, Spells text a t b ∧ b ≤ q

end Yaml

namespace Lexeme

variable {text : List Char} {l : Lexeme} {t : Token} {limit q : Nat}

theorem inWord_of_inGap {x : Char} (h : Yaml.inGap .document x = true) : inWord x = false := by
  rw [inWord, Yaml.isBlank_of_inGap h]
  rfl

/-- The header of an empty block scalar ends before white space. -/
theorem stopIndex_block_le (h : t.Before text q limit) (hblock : t.kind.isBlockScalar = true)
    (hkind : l.kind = t.kind) (hstart : l.start.index ≤ t.mark.index) (hq : l.start.index < q)
    (htq : t.mark.index ≤ q) : l.stopIndex (Source.ofList text) limit ≤ q := by
  obtain ⟨s, style, hscalar, hstyle⟩ := TokenKind.exists_of_isBlockScalar hblock
  rw [stopIndex_block hstyle (hkind.trans hscalar)]
  refine blockStop_le hq h.le h.line fun hopens => h.leaves.imp_right fun hleaves => ?_
  obtain ⟨hbefore, hinner⟩ := hleaves.block hblock
  have hchar : opensBlockText (some (charAt text l.start.index)) = true := by
    cases hget : text[l.start.index]? with
    | none =>
      rw [hget] at hopens
      cases hopens
    | some c => rwa [Yaml.charAt_of_getElem? hget, ← hget]
  rcases Nat.eq_or_lt_of_le hstart with heq | hlt
  · rcases hinner (heq ▸ hchar) with hempty | ⟨i, hi, hiq, hgap⟩
    · omega
    · exact ⟨i, heq ▸ hi, Nat.le_of_lt hiq, inWord_of_inGap hgap⟩
  · refine ⟨t.mark.index - 1, Nat.lt_of_le_of_ne (Nat.le_sub_one_of_lt hlt) ?_, by omega,
      inWord_of_inGap hbefore⟩
    intro heq
    rw [← heq] at hbefore
    generalize charAt text l.start.index = x at hchar hbefore
    simp only [opensBlockText, Bool.or_eq_true, beq_iff_eq, Option.some.injEq] at hchar
    rcases hchar with rfl | rfl <;> cases hbefore

theorem stopIndex_name_le (h : t.Before text q limit) (hname : t.kind.isName = true)
    (hkind : l.kind = t.kind) (hstart : l.start = t.mark) (hq : l.start.index < q) :
    l.stopIndex (Source.ofList text) limit ≤ q := by
  rw [stopIndex_of_isName (hkind ▸ hname)]
  rcases h.leaves with rfl | hleaves
  · exact runEnd_le_limit hq
  · obtain ⟨i, hi, hiq, hgap⟩ := hleaves.name hname
    refine (runEnd_le (hstart ▸ hi) ?_).trans (Nat.le_of_lt hiq)
    rw [inWord_of_inGap hgap, Bool.false_and]

theorem stopIndex_plain_le {s : String} (h : t.Before text q limit) (hplain : t.kind = .scalar s .plain)
    (hkind : l.kind = t.kind) (hstart : l.start = t.mark) (hq : l.start.index < q) :
    l.stopIndex (Source.ofList text) limit ≤ q := by
  rw [stopIndex_plain (hkind.trans hplain)]
  rcases h.leaves with rfl | hleaves
  · exact plainStop_le_limit hq
  · obtain ⟨i, hi, hiq, hhash, -, hgap⟩ := hleaves.plain (by rw [hplain]; rfl)
    refine (plainStop_le (hstart ▸ hi) ?_ (Yaml.isBlank_of_inGap hgap)).trans hiq
    exact Yaml.getElem?_of_charAt hhash (by decide)

/-- A token whose text has been read stops before the next one, if a block scalar starts before it and
a directive ends before it. -/
theorem stopIndex_le (h : t.Before text q limit) (hbare : t.kind.isBare = false)
    (hkind : l.kind = t.kind) (hstart : l.start.index ≤ t.mark.index)
    (hsame : t.kind.isBlockScalar = false → l.start = t.mark)
    (hblock : t.kind.isBlockScalar = true → l.start.index < q)
    (hdirective : t.kind.isDirective = true → (Source.ofList text).lineEnd l.start.line ≤ q) :
    l.stopIndex (Source.ofList text) limit ≤ q := by
  obtain ⟨a, b, hspells, hbq⟩ := h.spelt hbare
  cases hspells with
  | plain hab =>
    refine stopIndex_plain_le h rfl hkind (hsame rfl) ?_
    rw [hsame rfl, Yaml.placeAt_index]
    exact hab.trans_le hbq
  | @quoted _ single _ hab hstop =>
    rw [stopIndex_quoted hkind, hsame (by cases single <;> rfl), Yaml.placeAt_index, ← hstop]
    exact hbq
  | @block s style c _ hstyle hac hcb =>
    have hscalar : (TokenKind.scalar s style).isBlockScalar = true := by
      rcases hstyle with rfl | rfl <;> rfl
    refine stopIndex_block_le h hscalar hkind hstart (hblock hscalar) ?_
    rw [Yaml.placeAt_index]
    exact hcb.trans hbq
  | @documentMark kind hmark _ =>
    have hscalar : kind.isBlockScalar = false := by cases kind <;> first | rfl | cases hmark
    rw [stopIndex_of_documentMark (hkind ▸ hmark), hsame hscalar, Yaml.placeAt_index]
    exact hbq
  | @word kind _ hword hab _ =>
    have hscalar : kind.isBlockScalar = false := by cases kind <;> first | rfl | cases hword
    have hq : l.start.index < q := by
      rw [hsame hscalar, Yaml.placeAt_index]
      exact hab.trans_le hbq
    cases hname : kind.isName with
    | true => exact stopIndex_name_le h hname hkind (hsame hscalar) hq
    | false =>
      rw [stopIndex_of_isWord (hkind ▸ hword) (hkind ▸ hname) ?_]
      · exact hq
      · rw [hkind]
        rintro rfl
        cases hbare
  | directive hdir _ _ =>
    rw [stopIndex_of_directive (hkind ▸ hdir)]
    exact hdirective hdir

/-! Neighbours. -/

/-- The tokens whose range goes beyond the start of the next one. A block scalar without content of
which the scanner has passed the line is left where it stands, at the next token. The mark of a key
covers a question mark that is the first character of the key itself. A directive covers its line up
to the line feed, wherever the scanner has gone on before. -/
def Overruns (text : List Char) (t u : Lexeme) : Prop :=
  (t.kind.isBlockScalar = true ∧ t.start.index = u.start.index ∧ t.start.index < text.length) ∨
  (t.kind = .key ∧ t.start.index = u.start.index ∧ text[t.start.index]? = some '?') ∨
  (t.kind.isDirective = true ∧ u.start.index < (Source.ofList text).lineEnd t.start.line)

instance (text : List Char) (t u : Lexeme) : Decidable (t.Overruns text u) :=
  inferInstanceAs (Decidable (_ ∨ _ ∨ _))

section Neighbours

variable {rs : List Yaml.Reading} {ts front back : List Token} {ks : List Yaml.SimpleKey}
  {n after : Nat} {u : Token}

/-- A token is told to be before the mark of the next one. -/
theorem before_mark (hsurveyed : Yaml.Surveyed text rs ts ks n) (hts : ts = front ++ t :: u :: back) :
    t.Before text u.mark.index u.mark.index := by
  refine ⟨le_rfl, rfl, Or.inl rfl, fun hbare => ?_⟩
  obtain ⟨a, b, hspells, hlater⟩ := hsurveyed.placed_at hts hbare
  exact ⟨a, b, hspells, hlater u List.mem_cons_self⟩

/-- A token before the start of a block mapping is told to be before the first key, which is on the
line of the colon where the mapping is marked. -/
theorem before_key {v : Token} (hsurveyed : Yaml.Surveyed text rs ts ks n)
    (hsorted : ts.Pairwise Token.MayPrecede) (hleft : Yaml.StartsLeft text ts)
    (hplaced : ∀ t ∈ ts, t.PlacedIn text) (hts : ts = front ++ t :: u :: v :: back)
    (hstart : u.kind = .blockMappingStart) (hkey : v.kind = .key)
    (hback : v.mark.index ≤ u.mark.index) : t.Before text v.mark.index u.mark.index := by
  have hline {x : Token} (hx : x ∈ ts) (hbound : x.kind.isBound = false) :
      x.mark.line = lineAt text x.mark.index := by
    rcases hplaced x hx with hplace | ⟨hend, -⟩
    · exact hplace.line
    · rw [hbound] at hend
      cases hend
  have hu := hline (x := u) (by simp [hts]) (by rw [hstart]; rfl)
  have hv := hline (x := v) (by simp [hts]) (by rw [hkey]; rfl)
  have hpairs : (u :: v :: back).Pairwise Token.MayPrecede := by
    rw [hts] at hsorted
    exact (List.pairwise_cons.mp (List.pairwise_append.mp hsorted).2.1).2
  have hlines := ((List.pairwise_cons.mp hpairs).1 v List.mem_cons_self).1
  have hmono := lineAt_mono text hback
  refine ⟨hback, by omega, ?_, fun hbare => ?_⟩
  · exact (hleft t u v ⟨front, back, by rw [hts]; simp⟩ hstart hkey).imp_left fun heq =>
      congrArg Mark.index heq.symm
  · obtain ⟨a, b, hspells, hlater⟩ := hsurveyed.placed_at hts hbare
    exact ⟨a, b, hspells, hlater v (List.mem_cons_of_mem _ List.mem_cons_self)⟩

/-- The lexeme of the next token starts at a place that the token itself is told to be before: at the
mark of the next token, or at the first key of the block mapping that starts there. -/
theorem exists_before (hsurveyed : Yaml.Surveyed text rs ts ks n)
    (hsorted : ts.Pairwise Token.MayPrecede) (hleft : Yaml.StartsLeft text ts)
    (hplaced : ∀ t ∈ ts, t.PlacedIn text) (hts : ts = front ++ t :: u :: back) :
    ∃ q, t.Before text q u.mark.index ∧ (∀ v ∈ back.head?, q ≤ v.mark.index) ∧
      ∀ after, (made (Source.ofList text) after u back.head?).start.index ≤ q := by
  have hleads : (u :: back).IsChain Token.Leads := by
    have := hsurveyed.leads
    rw [hts] at this
    exact (List.isChain_append.mp this).2.1.of_cons
  have hpairs : (u :: back).Pairwise Token.MayPrecede := by
    rw [hts] at hsorted
    exact (List.pairwise_cons.mp (List.pairwise_append.mp hsorted).2.1).2
  have hown (hv : ∀ v ∈ back.head?, u.mark.index ≤ v.mark.index) :
      ∃ q, t.Before text q u.mark.index ∧ (∀ v ∈ back.head?, q ≤ v.mark.index) ∧
        ∀ after, (made (Source.ofList text) after u back.head?).start.index ≤ q :=
    ⟨u.mark.index, before_mark hsurveyed hts, hv, fun _ => made_start_le_mark hleads⟩
  by_cases hstart : u.kind = .blockMappingStart
  · cases back with
    | nil => exact hown nofun
    | cons v back =>
      obtain ⟨-, hback, hkey | hsame⟩ := (List.isChain_cons_cons.mp hleads).1 hstart
      · refine ⟨v.mark.index, before_key hsurveyed hsorted hleft hplaced hts hstart hkey hback,
          fun x hx => ?_, fun after => ?_⟩
        · cases hx
          exact le_rfl
        · exact Nat.le_of_eq (congrArg Mark.index (made_start_of_key hstart hkey))
      · refine hown fun x hx => ?_
        cases hx
        exact Nat.le_of_eq hsame.symm
  · exact hown fun v hv =>
      ((List.pairwise_cons.mp hpairs).1 v (List.mem_of_mem_head? hv)).2.resolve_left hstart

/-- Where a token stops: within the text, and not before its start. -/
theorem finish_stop_index (hstart : l.start.index ≤ text.length) :
    (l.finish (Source.ofList text) limit).stop.index =
      max l.start.index (min (l.stopIndex (Source.ofList text) limit) text.length) := by
  show ((Source.ofList text).markAt _).index = _
  rw [(Source.markAt_ofList text _).1, Source.size_ofList]
  omega

/-- A token stops before a place that it is told to be before, but for the tokens that overrun. -/
theorem finish_stop_le {x : Nat} (h : t.Before text q limit) (hkind : l.kind = t.kind)
    (hmark : t.kind ≠ .blockMappingStart → l.start = (begin (Source.ofList text) t after).start)
    (hlength : l.start.index ≤ text.length) (hx : l.start.index ≤ x) (hxq : x ≤ q)
    (hblock : t.kind.isBlockScalar = true → l.start.index < text.length → l.start.index ≠ x)
    (hkey : t.kind = .key → text[l.start.index]? = some '?' → l.start.index ≠ x)
    (hdirective : t.kind.isDirective = true → (Source.ofList text).lineEnd l.start.line ≤ x) :
    (l.finish (Source.ofList text) limit).stop.index ≤ q := by
  rw [finish_stop_index hlength]
  refine Nat.max_le.mpr ⟨hx.trans hxq, ?_⟩
  -- Tokens that stand for no text stop where they start; the others have been read before `q`.
  cases hbare : t.kind.isBare with
  | false =>
    have hne : t.kind ≠ .blockMappingStart := by
      intro heq
      rw [heq] at hbare
      cases hbare
    have hstart := hmark hne
    rcases Nat.eq_or_lt_of_le hlength with hend | hlt
    · exact (Nat.min_le_right _ _).trans (hend ▸ hx.trans hxq)
    · refine (Nat.min_le_left _ _).trans (stopIndex_le h hbare hkind ?_ (fun hscalar => ?_)
        (fun hscalar => ?_) (fun hdir => (hdirective hdir).trans hxq))
      · rw [hstart]
        exact begin_start_le
      · rw [hstart, begin_start hscalar]
      · exact (Nat.lt_of_le_of_ne hx (hblock hscalar hlt)).trans_le hxq
  | true =>
    refine (Nat.min_le_left _ _).trans ?_
    by_cases hk : t.kind = .key
    · unfold stopIndex
      rw [hkind, hk]
      dsimp only
      split
      next hquestion =>
        have hne := hkey hk (List.getElem?_toArray.symm.trans hquestion)
        omega
      · exact hx.trans hxq
    · have hnone : l.kind ∈ [TokenKind.streamStart, .streamEnd, .blockEnd, .blockSequenceStart,
          .blockMappingStart] := by
        rw [hkind]
        obtain ⟨kind, mark⟩ := t
        cases kind <;> first | exact Bool.noConfusion hbare | exact absurd rfl hk | simp
      rw [stopIndex_of_bare hnone]
      exact hx.trans hxq

/-- A token that overruns stops behind the start of the next one. -/
theorem lt_finish_stop_of_overruns {m : Lexeme} (hlength : l.start.index ≤ text.length)
    (h : Overruns text (l.finish (Source.ofList text) limit) m) :
    m.start.index < (l.finish (Source.ofList text) limit).stop.index := by
  rw [finish_stop_index hlength]
  rcases h with ⟨hblock, hsame, hlt⟩ | ⟨hkey, hsame, hquestion⟩ | ⟨hdirective, hlt⟩
  · obtain ⟨s, style, hscalar, hstyle⟩ := TokenKind.exists_of_isBlockScalar hblock
    have hbehind : l.start.index < l.stopIndex (Source.ofList text) limit := by
      have hscalar : l.kind = .scalar s style := hscalar
      rw [stopIndex_block hstyle hscalar]
      exact lt_blockStop_self l.start
    have hlt : l.start.index < text.length := hlt
    have hsame : l.start.index = m.start.index := hsame
    omega
  · have hbehind : l.stopIndex (Source.ofList text) limit = l.start.index + 1 := by
      unfold stopIndex
      rw [show l.kind = .key from hkey]
      exact if_pos (List.getElem?_toArray.trans hquestion)
    have hlt : l.start.index < text.length := (List.getElem?_eq_some_iff.mp hquestion).1
    have hsame : l.start.index = m.start.index := hsame
    omega
  · have hline : l.stopIndex (Source.ofList text) limit =
        (Source.ofList text).lineEnd l.start.line := stopIndex_of_directive hdirective
    have hend := Source.lineEnd_le text l.start.line
    have hlt : m.start.index < (Source.ofList text).lineEnd l.start.line := hlt
    omega

theorem made_stop_le {m : Lexeme} (hl : l = made (Source.ofList text) after t (some u))
    (h : t.Before text q u.mark.index) (hlength : l.start.index ≤ text.length)
    (hlm : l.start.index ≤ m.start.index) (hmq : m.start.index ≤ q)
    (hnot : ¬Overruns text l m) : l.stop.index ≤ q := by
  have hmade : l = ((begin (Source.ofList text) t after).anchored u).finish (Source.ofList text)
    u.mark.index := hl
  have hkind : l.kind = t.kind := hl ▸ made_kind
  have hstart (hne : t.kind ≠ .blockMappingStart) :
      ((begin (Source.ofList text) t after).anchored u).start =
        (begin (Source.ofList text) t after).start := by
    rw [anchored, if_neg fun heq => hne (begin_kind.symm.trans heq.1)]
  obtain ⟨hblock, hnot⟩ := not_or.mp hnot
  obtain ⟨hkey, hdirective⟩ := not_or.mp hnot
  rw [hkind] at hblock hkey hdirective
  rw [hmade] at hblock hkey hdirective hlength hlm ⊢
  exact finish_stop_le h ((anchored_kind _ u).trans begin_kind) hstart hlength hlm hmq
    (fun hscalar hlt hsame => hblock ⟨hscalar, hsame, hlt⟩)
    (fun hk hquestion hsame => hkey ⟨hk, hsame, hquestion⟩)
    fun hdir => Nat.not_lt.mp fun hlt => hdirective ⟨hdir, hlt⟩

/-- A token starts before it stops, and stops before the next one starts unless it overruns. -/
theorem made_apart (hsurveyed : Yaml.Surveyed text rs ts ks n)
    (hsorted : ts.Pairwise Token.MayPrecede) (hleft : Yaml.StartsLeft text ts)
    (hplaced : ∀ t ∈ ts, t.PlacedIn text) (hwithin : ∀ t ∈ ts, t.mark.index ≤ text.length)
    (hts : ts = front ++ t :: u :: back) (hl : l = made (Source.ofList text) after t (some u))
    {m : Lexeme} (hm : m = made (Source.ofList text) l.stop.index u back.head?) :
    l.start.index ≤ l.stop.index ∧ (l.stop.index ≤ m.start.index ↔ ¬Overruns text l m) := by
  obtain ⟨q, hbefore, hnext, hmq⟩ := exists_before hsurveyed hsorted hleft hplaced hts
  have hpairs : (t :: u :: back).Pairwise Token.MayPrecede := by
    rw [hts] at hsorted
    exact (List.pairwise_append.mp hsorted).2.1
  have hleads : (t :: u :: back).IsChain Token.Leads := by
    have := hsurveyed.leads
    rw [hts] at this
    exact (List.isChain_append.mp this).2.1
  have hstart (v : Token) (hv : v ∈ u :: back) : l.start.index ≤ v.mark.index :=
    hl ▸ made_start_le hpairs hleads hv
  have hlength : l.start.index ≤ text.length :=
    (hstart u List.mem_cons_self).trans (hwithin u (by simp [hts]))
  have hstop : l.start.index ≤ l.stop.index := hl ▸ le_made_stop (hl ▸ hlength) le_rfl
  -- The next token stays behind what stops before its own mark and that of the token after it.
  have hfollows {i : Nat} (hi : i ≤ text.length) (hil : i ≤ l.stop.index)
      (hu : i ≤ u.mark.index) (hv : ∀ v ∈ back.head?, i ≤ v.mark.index) : i ≤ m.start.index :=
    hm ▸ le_made_start hi hil hu hv
  have hlm : l.start.index ≤ m.start.index := hfollows hlength hstop (hstart u List.mem_cons_self)
    fun v hv => hstart v (List.mem_cons_of_mem u (List.mem_of_mem_head? hv))
  refine ⟨hstop, fun hle hover => ?_, fun hnot => ?_⟩
  · have hmade : l = ((begin (Source.ofList text) t after).anchored u).finish (Source.ofList text)
      u.mark.index := hl
    rw [hmade] at hover hle hlength
    exact Nat.not_lt.mpr hle (lt_finish_stop_of_overruns hlength hover)
  · have hlq := made_stop_le hl hbefore hlength hlm (hm ▸ hmq _) hnot
    have hu := hbefore.le.trans (hwithin u (by simp [hts]))
    exact hfollows (hlq.trans hu) le_rfl (hlq.trans hbefore.le) fun v hv => hlq.trans (hnext v hv)

/-- The same of all the lexemes of tokens. -/
theorem madeFrom_apart (hsurveyed : Yaml.Surveyed text rs ts ks n)
    (hsorted : ts.Pairwise Token.MayPrecede) (hleft : Yaml.StartsLeft text ts)
    (hplaced : ∀ t ∈ ts, t.PlacedIn text) (hwithin : ∀ t ∈ ts, t.mark.index ≤ text.length)
    (hts : ts = front ++ back) :
    (madeFrom (Source.ofList text) after back).IsChain fun l m =>
      l.start.index ≤ l.stop.index ∧ (l.stop.index ≤ m.start.index ↔ ¬Overruns text l m) := by
  induction back generalizing after front with
  | nil => exact .nil
  | cons t r ih =>
    have hlater (after : Nat) := @ih (front ++ [t]) after (by rw [hts]; simp)
    cases r with
    | nil => exact .singleton _
    | cons u r =>
      have hnext := hlater (made (Source.ofList text) after t (some u)).stop.index
      rw [madeFrom] at hnext ⊢
      exact .cons_cons (made_apart hsurveyed hsorted hleft hplaced hwithin hts rfl rfl) hnext

end Neighbours

end Lexeme

/-- A check for fewer spaces than none reports nothing between tokens that do not overlap. -/
theorem Spacing.quiet_of_apart {b : Spacing} {t u : Lexeme} (hmin : b.min = some 0)
    (hmax : b.max = none) (h : t.stop.index ≤ u.start.index) (rule : String) :
    b.after rule t (some u) = [] ∧ b.before rule u (some t) = [] := by
  have hcheck (line column : Nat) :
      b.check rule ((u.start.index : Int) - t.stop.index) line column = [] := by
    unfold Spacing.check
    rw [hmin, hmax, if_neg (by simp), if_neg (by simpa using h)]
  unfold Spacing.after Spacing.before
  dsimp only
  rw [hcheck, hcheck, ite_self, ite_self]
  exact ⟨rfl, rfl⟩

/-- The ranges of the tokens of a document that is scanned without a fault: each token starts before
it stops, and of two neighbours the first one stops where the second one starts or before it, just if
it does not overrun. Then the spaces between the two are never fewer than none. -/
theorem TokenStream.views_apart {text : List Char}
    (herror : (Yaml.Scan.ofList .document text).error = none) :
    ((views (Source.ofList text) ((Yaml.Scan.ofList .document text).tokens.map (·.token))).map
      (·.curr)).IsChain fun t u =>
        t.start.index ≤ t.stop.index ∧ (t.stop.index ≤ u.start.index ↔ ¬t.Overruns text u) ∧
        (¬t.Overruns text u → ∀ (b : Spacing) (rule : String), b.min = some 0 → b.max = none →
          b.after rule t (some u) = [] ∧ b.before rule u (some t) = []) := by
  obtain ⟨w, hw, hqueue⟩ := Yaml.scan_held herror
  obtain ⟨hleft, hwithin⟩ := Yaml.scan_startsLeft herror
  have hlexemes : (views (Source.ofList text)
      ((Yaml.Scan.ofList .document text).tokens.map (·.token))).map (·.curr) =
        Lexeme.madeFrom (Source.ofList text) 0
          ((Yaml.Scan.ofList .document text).tokens.map (·.token)) := by
    rw [views_eq, viewsFrom_curr]
    exact Lexeme.ofText_eq_madeFrom
  rw [hlexemes]
  refine (Lexeme.madeFrom_apart (hqueue ▸ hw.surveyed) (Yaml.scan_tokens_mayPrecede text) hleft
    (fun t ht => Yaml.scan_tokens_placedIn ht) hwithin (List.nil_append _).symm).imp ?_
  rintro t u ⟨hstart, hapart⟩
  exact ⟨hstart, hapart, fun hnot b rule hmin hmax =>
    Spacing.quiet_of_apart hmin hmax (hapart.mpr hnot) rule⟩

/-- A literal with content and a quoted key: no token overruns. -/
theorem TokenStream.views_apart_of_literal :
    (Yaml.Scan.ofList .document "a: |\n  x\n\"b\": [1] # c\n".toList).error = none ∧
    ((views (Source.ofList "a: |\n  x\n\"b\": [1] # c\n".toList)
      ((Yaml.Scan.ofList .document "a: |\n  x\n\"b\": [1] # c\n".toList).tokens.map (·.token))).map
        (·.curr)).IsChain fun t u =>
          t.start.index ≤ t.stop.index ∧ t.stop.index ≤ u.start.index ∧
          ∀ (b : Spacing) (rule : String), b.min = some 0 → b.max = none →
            b.after rule t (some u) = [] ∧ b.before rule u (some t) = [] := by
  have hscan : (Yaml.Scan.ofList .document "a: |\n  x\n\"b\": [1] # c\n".toList).error = none := by
    decide +kernel
  have hnone : ((views (Source.ofList "a: |\n  x\n\"b\": [1] # c\n".toList)
      ((Yaml.Scan.ofList .document "a: |\n  x\n\"b\": [1] # c\n".toList).tokens.map
        (·.token))).map (·.curr)).IsChain fun t u =>
          ¬t.Overruns "a: |\n  x\n\"b\": [1] # c\n".toList u := by
    decide +kernel
  refine ⟨hscan, List.isChain_iff_getElem.mpr fun i hi => ?_⟩
  obtain ⟨hstart, hapart, hquiet⟩ :=
    List.isChain_iff_getElem.mp (TokenStream.views_apart hscan) i hi
  have hfree := List.isChain_iff_getElem.mp hnone i hi
  exact ⟨hstart, hapart.mpr hfree, hquiet hfree⟩

/-- A literal without content before a key in the first column overlaps with it. -/
theorem TokenStream.views_overlap_of_empty :
    (Yaml.Scan.ofList .document "a: |\nb: 1\n".toList).error = none ∧
    ¬((views (Source.ofList "a: |\nb: 1\n".toList)
      ((Yaml.Scan.ofList .document "a: |\nb: 1\n".toList).tokens.map (·.token))).map
        (·.curr)).IsChain fun t u =>
          t.start.index ≤ t.stop.index ∧ t.stop.index ≤ u.start.index := by
  decide +kernel

end Blueprint
