import Blueprint.Fix.Content
import Blueprint.Proofs.TidyLines

/-!
A plain scalar that is a word stands alone on its line: it is a whole run of the characters of words.
-/

namespace Blueprint

open Yaml (Token TokenKind PlacedToken Written charAt)

/-! The characters around a word. -/

theorem Text.isWord_of_isGap {c : Char} (h : Yaml.Dialect.document.isGap c = true) :
    Text.isWord c = false := by
  rcases Yaml.eq_of_isGap h with rfl | rfl | rfl | rfl | rfl | rfl | rfl | rfl <;>
    first | exact absurd h (by decide) | decide

theorem Text.isWord_of_endsWord {c : Char} (h : Yaml.endsWord c = true) : Text.isWord c = false := by
  unfold Yaml.endsWord Yaml.isFlowIndicator at h
  simp only [Bool.or_eq_true, beq_iff_eq] at h
  rcases h with (h | rfl) | (((rfl | rfl) | rfl) | rfl) | rfl
  · exact Text.isWord_of_isGap h
  all_goals decide

theorem Text.isWord_of_endsAnchor {c : Char} (h : Yaml.endsAnchor .document c = true) :
    Text.isWord c = false := by
  rcases Bool.or_eq_true_iff.mp h with h | h
  · exact Text.isWord_of_isGap h
  · have hall : "?:,]\x7d%@\x60".toList.all (fun c => !Text.isWord c) = true := by decide
    rw [List.contains_iff_mem] at h
    simpa using List.all_eq_true.mp hall c h

/-- No word ends where a token has been read to, if one starts there. -/
theorem Yaml.PlacedToken.Closed.word_apart {text : List Char} {n : Nat}
    (h : PlacedToken.Closed text n) (hword : Text.isWord (charAt text n) = true) :
    n = 0 ∨ Text.isWord (charAt text (n - 1)) = false := by
  refine h.imp_right fun ⟨a, kind, hwritten⟩ => ?_
  have hnot {p : Prop} (h : Text.isWord (charAt text n) = false) : p := by
    rw [hword] at h
    cases h
  have hgap (h : Yaml.isEnd (charAt text n) = true ∨
      Yaml.inGap .document (charAt text (n - 1)) = true) : Text.isWord (charAt text (n - 1)) = false := by
    rcases h with h | h
    · refine hnot ?_
      rw [beq_iff_eq.mp h]
      decide
    · exact Text.isWord_of_isGap (Yaml.isGap_of_inGap h)
  cases hwritten with
  | sign hsign =>
    rw [Nat.add_sub_cancel]
    generalize charAt text a = c at hsign
    cases kind <;> first | (cases hsign; decide) | cases hsign
  | reference _ _ _ hends => exact hnot (Text.isWord_of_endsAnchor hends)
  | tag _ htag => exact hnot (Text.isWord_of_isGap htag)
  | plain hplain =>
    rcases hplain.ends with hends | hends
    · exact hnot (Text.isWord_of_endsWord hends)
    · exact hgap (Or.inr hends)
  | @quoted _ single _ _ hquote =>
    rw [hquote]
    cases single <;> decide
  | block _ _ hends => exact hgap hends
  | documentMark _ hends => exact hnot (Text.isWord_of_isGap hends)
  | directive _ hends => exact hgap hends

theorem Yaml.Written.plainAt {text : List Char} {a b : Nat} {s : String}
    (h : Written text a (.scalar s .plain) b) : Yaml.PlainAt text a s.toList b := by
  generalize hkind : TokenKind.scalar s .plain = kind at h
  cases h with
  | plain hplain =>
    cases hkind
    rwa [String.toList_ofList]
  | sign h | reference h _ _ _ | documentMark h _ | directive h _ =>
    rw [← hkind] at h
    cases h
  | tag _ _ => cases hkind
  | @quoted _ single _ _ _ => cases single <;> cases hkind
  | block hstyle _ _ =>
    cases hkind
    rcases hstyle with hstyle | hstyle <;> cases hstyle

/-- A word between other characters is a run. -/
theorem Content.mem_wordRuns {pre word post : List Char} (hne : word ≠ [])
    (hword : ∀ c ∈ word, Text.isWord c = true) (hpre : ∀ c ∈ pre.getLast?, Text.isWord c = false)
    (hpost : ∀ c ∈ post.head?, Text.isWord c = false) : word ∈ wordRuns (pre ++ word ++ post) := by
  have hrun : word.splitBy (fun a b => Text.isWord a == Text.isWord b) = [word] :=
    List.splitBy_of_isChain hne (List.pairwise_of_forall_mem_list fun a ha b hb => by
      rw [hword a ha, hword b hb, BEq.rfl]).isChain
  unfold wordRuns
  rw [List.splitBy_append, List.splitBy_append, hrun]
  · simp
  · intro x hx y hy
    rw [hpre x hx, hword y (List.mem_of_mem_head? hy)]
    rfl
  · intro x hx y hy
    rw [List.getLast?_append_of_ne_nil _ hne] at hx
    rw [hpost y hy, hword x (List.mem_of_mem_getLast? hx)]
    rfl

/-- The content of a line goes on behind its words. -/
theorem FileLines.content_of_word {line pre word post : List Char} (hne : word ≠ [])
    (hword : ∀ c ∈ word, Text.isWord c = true) (hline : line = pre ++ word ++ post) :
    ∃ rest, content line = pre ++ word ++ rest ∧ rest <+: post := by
  have hparts := content_append_terminator line
  rcases List.append_eq_append_iff.mp (hparts.trans hline) with ⟨s, hcontent, hend⟩ | ⟨rest, hcontent, hpost⟩
  · obtain rfl : s = [] := by
      by_contra hs
      have hlast := congrArg List.getLast? hcontent
      rw [List.getLast?_append_of_ne_nil _ hne, List.getLast?_append_of_ne_nil _ hs,
        List.getLast?_eq_some_getLast hne] at hlast
      have hmem := List.mem_of_getLast? hlast.symm
      have hletter := hword _ (List.getLast_mem hne)
      have hin : word.getLast hne ∈ terminator line := hend ▸ List.mem_append_left _ hmem
      have hends := isTerminator_of_mem hin
      rcases Bool.or_eq_true_iff.mp hends with hc | hc <;> rw [beq_iff_eq.mp hc] at hletter <;>
        exact absurd hletter (by decide)
    rw [List.append_nil] at hcontent
    exact ⟨[], by rw [hcontent, List.append_nil], List.nil_prefix⟩
  · exact ⟨rest, hcontent, ⟨_, hpost.symm⟩⟩

/-- A word of a text is a run of its line, if no word ends or starts beside it. -/
theorem FileLines.AreSplit.exists_run {lines : FileLines} {word : List Char} {i e : Nat}
    (h : lines.AreSplit) (hne : word ≠ []) (hword : ∀ c ∈ word, Text.isWord c = true)
    (htext : word = (lines.flatten.drop i).take (e - i))
    (hbefore : i = 0 ∨ Text.isWord (charAt lines.flatten (i - 1)) = false)
    (hbehind : Text.isWord (charAt lines.flatten e) = false) :
    ∃ line ∈ lines[lineAt lines.flatten i - 1]?, word ∈ Content.wordRuns (content line) := by
  have hpos := List.length_pos_of_ne_nil hne
  have hlength : word.length = min (e - i) (lines.flatten.length - i) := by
    rw [htext, List.length_take, List.length_drop]
  have hslice : word = (lines.flatten.drop i).take word.length := by
    rw [hlength, ← List.length_drop, ← List.take_eq_take_min]
    exact htext
  have hletter {k : Nat} (hk : i ≤ k) (hkn : k < i + word.length) :
      charAt lines.flatten k ∈ word := by
    have hget : lines.flatten[k]? = some (charAt lines.flatten k) := by
      have hin : k < lines.flatten.length := by omega
      rw [List.getElem?_eq_getElem hin, Yaml.charAt_of_getElem? (List.getElem?_eq_getElem hin)]
    refine List.mem_of_getElem? (i := k - i) ?_
    rw [hslice, List.getElem?_take_of_lt (by omega), List.getElem?_drop, Nat.add_sub_cancel' hk]
    exact hget
  have hend : i + word.length ≤ lines.flatten.length := by omega
  obtain ⟨pre, post, hget, hpre, hpost⟩ := h.slice hpos hend (by
    refine (lineAt_eq (by omega) fun k hk hkn hfeed => ?_).symm
    have hfeed' := hword _ (hletter hk (by omega))
    rw [Yaml.charAt_of_getElem? hfeed] at hfeed'
    exact absurd hfeed' (by decide))
  rw [← hslice] at hget
  obtain ⟨rest, hcontent, hrest⟩ := content_of_word hne hword rfl
  refine ⟨_, hget, ?_⟩
  rw [hcontent]
  refine Content.mem_wordRuns hne hword (fun c hc => ?_) fun c hc => ?_
  · obtain ⟨hi, hchar⟩ := charAt_of_suffix (by omega) hpre hc
    exact hchar ▸ hbefore.resolve_left (Nat.ne_of_gt hi)
  · obtain ⟨behind, hbehind'⟩ := hrest.trans hpost
    have hhead := congrArg List.head? hbehind'
    rw [List.head?_append, Option.mem_def.mp hc, Option.some_or, List.head?_drop] at hhead
    have hin := (List.getElem?_eq_some_iff.mp hhead.symm).1
    rw [← Yaml.charAt_of_getElem? hhead.symm, show i + word.length = e by omega]
    exact hbehind

/-- A line on which no word is a boolean in another spelling. -/
def TidyTruth (line : List Char) : Prop :=
  ∀ word ∈ Rules.truthWords, word.toList ∈ Content.wordRuns (FileLines.content line) →
    word = "true" ∨ word = "false"

namespace Lexeme.Adjoins

variable {text : List Char} {lines : FileLines} {g u : PlacedToken} {next : Option PlacedToken}
  {l n : Lexeme} {s : String}

/-- A plain scalar that is a word is written as it is, and the word ends with it. -/
theorem word_written (h : Adjoins text g u next l n) (hkind : u.token.kind = .scalar s .plain)
    (hne : s.toList ≠ []) (hword : ∀ c ∈ s.toList, Text.isWord c = true) :
    n.start.line = lineAt text u.first ∧ Text.isWord (charAt text u.first) = true ∧
      ∃ e, s.toList = (text.drop u.first).take (e - u.first) ∧
        Text.isWord (charAt text e) = false := by
  have hblock : u.token.kind.isBlockScalar = false := by rw [hkind]; rfl
  have hstart : u.token.kind ≠ .blockMappingStart := hkind ▸ TokenKind.noConfusion
  obtain ⟨hindex, -⟩ := h.fits.2.mark hstart hblock
  have hline : u.token.mark.line = lineAt text u.token.mark.index := by
    rcases h.placed.2 with hplace | ⟨hbound, -⟩
    · exact hplace.line
    · rw [hkind] at hbound
      cases hbound
  rw [h.right_of_ne hstart, begin_start hblock, hline, hindex]
  refine ⟨rfl, ?_⟩
  have hwritten : Written text u.first (.scalar s .plain) u.upto := by
    have hput : ¬u.IsPut := fun hput => by
      have hbare := h.fits.2.isBare hput
      rw [hkind] at hbare
      cases hbare
    rcases h.fits.2.read_of_not_isPut hput with hnone | ⟨-, hwritten⟩
    · rw [hnone] at hkind
      cases hkind
    · exact hkind ▸ hwritten
  have hplain := hwritten.plainAt
  rcases hplain.word with ⟨x, hx, hgap⟩ | hnil | ⟨e, hlt, -, htext, hends⟩
  · have hletter := hword x hx
    rw [Text.isWord_of_isGap (Yaml.isGap_of_inGap hgap)] at hletter
    cases hletter
  · exact absurd hnil hne
  · refine ⟨hword _ ?_, e, htext, Text.isWord_of_endsWord hends⟩
    have hin : u.first < text.length := by
      by_contra hge
      rw [htext, List.drop_eq_nil_of_le (Nat.not_lt.mp hge), List.take_nil] at hne
      exact hne rfl
    rw [htext, show e - u.first = e - u.first - 1 + 1 by omega, FileLines.take_drop_succ hin]
    exact List.mem_cons_self

/-- No word ends where a word starts that is a plain scalar. -/
theorem word_starts (h : Adjoins text g u next l n)
    (hword : Text.isWord (charAt text u.first) = true) :
    u.first = 0 ∨ Text.isWord (charAt text (u.first - 1)) = false := by
  rcases Nat.eq_or_lt_of_le h.follows.skips.le with heq | hlt
  · rw [← heq] at hword ⊢
    exact h.closed.word_apart hword
  · refine Or.inr ?_
    rcases h.follows.skips.passed (u.first - 1) (by omega) (by omega) with hgap | ⟨m, hm, hmu, hline, -⟩
    · exact Text.isWord_of_isGap (Yaml.isGap_of_inGap hgap)
    · rw [show m = u.first by omega] at hline
      have hgap : Yaml.Dialect.document.isGap (charAt text u.first) = true :=
        Bool.or_eq_true_iff.mpr (Or.inr hline)
      rw [Text.isWord_of_isGap hgap] at hword
      cases hword

end Lexeme.Adjoins

/-- A boolean in another spelling is on its line. -/
theorem Rules.checkTruth_untidy {lines : FileLines} {v : TokenView} {q : Problem}
    (hsplit : lines.AreSplit)
    (herror : (Yaml.Scan.ofList .document lines.flatten).error = none)
    (hv : v ∈ TokenStream.views (Source.ofList lines.flatten)
      ((Yaml.Scan.ofList .document lines.flatten).tokens.map (·.token)))
    (hq : q ∈ checkTruth truthy.defaults v) : ∃ line ∈ lines[q.line - 1]?, ¬TidyTruth line := by
  unfold checkTruth at hq
  split at hq
  next htruth =>
    rw [List.mem_singleton.mp hq]
    unfold isTruthWord at htruth
    split at htruth
    next s hkind =>
      simp only [Bool.and_eq_true] at htruth
      obtain ⟨⟨-, hmem⟩, hother⟩ := htruth
      have hmem : s ∈ truthWords := List.contains_iff_mem.mp hmem
      have hletters : truthWords.all (fun word => !word.toList.isEmpty &&
          word.toList.all Text.isWord) = true := by decide
      obtain ⟨hne, hword⟩ := Bool.and_eq_true_iff.mp (List.all_eq_true.mp hletters s hmem)
      have hne : s.toList ≠ [] := by simpa using hne
      have hword : ∀ c ∈ s.toList, Text.isWord c = true := List.all_eq_true.mp hword
      have hother : s ∉ ["true", "false"] := fun hin => by
        rw [show truthy.defaults.list "allowed-values" = ["true", "false"] from rfl,
          List.contains_iff_mem.mpr hin] at hother
        cases hother
      cases hprev : v.prev with
      | none =>
        have hfirst := (TokenStream.view_adjoins herror hv).2.2 hprev
        rw [hkind] at hfirst
        cases hfirst
      | some l =>
        obtain ⟨g, u, next, h⟩ := (TokenStream.view_adjoins herror hv).1 l hprev
        have hscalar : u.token.kind = .scalar s .plain := h.kinds.2.symm.trans hkind
        obtain ⟨hline, hfirst, e, htext, hends⟩ := h.word_written hscalar hne hword
        obtain ⟨line, hget, hrun⟩ := hsplit.exists_run hne hword htext (h.word_starts hfirst) hends
        rw [hline]
        refine ⟨line, hget, fun htidy => ?_⟩
        exact hother (List.mem_pair.mpr (htidy s hmem hrun))
    · cases htruth
  · cases hq

end Blueprint
