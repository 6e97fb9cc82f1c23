import Blueprint.Proofs.HeldScan
import Blueprint.Proofs.LexemeRanges
import Blueprint.Proofs.StreamOrder

/-!
The text of a scalar is not taken for a comment: the lexeme of a scalar reaches at least as far as the
last `#` that the scanner has read as part of it.
-/

namespace Blueprint

namespace Text

theorem lt_length_dropWhile {p : Char → Bool} {x : Char} (hx : p x = false) (a b : List Char) :
    b.length < ((a ++ x :: b).dropWhile p).length := by
  induction a with
  | nil => simp [hx]
  | cons c r ih =>
    rw [List.cons_append, List.dropWhile_cons]
    split
    · exact ih
    · simp only [List.length_cons, List.length_append]
      omega

/-- No more than the blank characters at the end of a text are dropped. -/
theorem lt_length_trimEnd {s : List Char} {k : Nat} {x : Char} (hk : s[k]? = some x)
    (hx : isBlank x = false) : k < (trimEnd s).length := by
  obtain ⟨hlt, hget⟩ := List.getElem?_eq_some_iff.mp hk
  have hsplit : s.reverse = (s.drop (k + 1)).reverse ++ x :: (s.take k).reverse := by
    conv => lhs; rw [← List.take_append_drop k s, List.drop_eq_getElem_cons hlt, hget]
    simp
  have hlong := lt_length_dropWhile hx (s.drop (k + 1)).reverse (s.take k).reverse
  rw [← hsplit, List.length_reverse, List.length_take, Nat.min_eq_left (Nat.le_of_lt hlt)] at hlong
  rwa [trimEnd, dropEndWhile, List.length_reverse]

end Text

namespace Lexeme

/-- What precedes a comment has every character up to the first `#` behind a blank one. -/
theorem lt_beforeComment {s : List Char} {k : Nat} (hk : k < s.length)
    (h : ∀ j < k, s[j + 1]? = some '#' → ∀ x ∈ s[j]?, Text.isBlank x = false) :
    k < beforeComment s := by
  induction s generalizing k with
  | nil => exact absurd hk (Nat.not_lt_zero k)
  | cons c r ih =>
    cases r with
    | nil => exact hk
    | cons d r =>
      cases k with
      | zero =>
        rw [beforeComment]
        split <;> exact Nat.succ_pos _
      | succ k =>
        have hlater := ih (Nat.lt_of_succ_lt_succ hk) fun j hj => h (j + 1) (Nat.succ_lt_succ hj)
        rw [beforeComment]
        split
        next hcut =>
          have := h 0 (Nat.succ_pos k) (by rw [hcut.1]; rfl) c rfl
          rw [hcut.2] at this
          cases this
        · exact Nat.succ_lt_succ hlater

variable {text : List Char} {l : Lexeme} {limit i : Nat}

theorem getElem?_slice {start stop k : Nat} (h : start + k < stop) :
    ((Source.ofList text).slice start stop)[k]? = text[start + k]? := by
  rw [Source.slice_ofList, List.getElem?_drop, List.getElem?_take, if_pos h]

/-- A plain scalar reaches beyond a character if no `#` up to there stands behind a blank one. -/
theorem lt_plainStop {start : Nat} {x : Char} (hstart : start ≤ i) (hlimit : i < limit)
    (hx : text[i]? = some x) (hsolid : Text.isBlank x = false)
    (hblank : ∀ j, start ≤ j → j < i → text[j + 1]? = some '#' →
      Text.isBlank (Yaml.charAt text j) = false) :
    i < plainStop (Source.ofList text) start limit := by
  obtain ⟨k, rfl⟩ := Nat.exists_eq_add_of_le hstart
  have hget : ((Source.ofList text).slice start limit)[k]? = some x := by
    rw [getElem?_slice hlimit, hx]
  have hbefore : k < beforeComment ((Source.ofList text).slice start limit) := by
    refine lt_beforeComment (List.getElem?_eq_some_iff.mp hget).1 ?_
    intro j hj hnext x hx
    rw [getElem?_slice (by omega)] at hnext hx
    rw [← Yaml.charAt_of_getElem? hx]
    exact hblank (start + j) (Nat.le_add_right _ _) (Nat.add_lt_add_left hj _) hnext
  have htrim := Text.lt_length_trimEnd
    ((List.getElem?_take_of_lt hbefore).trans hget) hsolid
  unfold plainStop
  dsimp only
  omega

/-- A block scalar reaches beyond a line that ends before the next token. -/
theorem lt_blockStop {start : Mark} {j : Nat} (hstart : start.line ≤ lineAt text i)
    (hi : i ≤ j) (hfeed : text[j]? = some '\n') (hlimit : j < limit) :
    i < blockStop (Source.ofList text) start limit := by
  have hline : ((Source.ofList text).markAt limit).line = lineAt text limit :=
    (Source.markAt_ofList text limit).2
  have hbehind := lineAt_lt hfeed hlimit
  have hij := lineAt_mono text hi
  obtain ⟨_, hsame⟩ := Source.lineStart_lineAt text limit
  unfold blockStop
  dsimp only
  rw [hline, if_neg (by omega)]
  refine lt_of_lt_of_le ?_ (Nat.le_max_left _ _)
  by_contra hle
  have := lineAt_mono text (Nat.le_of_not_lt hle)
  omega

/-- The text of a quoted scalar is all that its lexeme covers. -/
theorem stopIndex_quoted {s : String} {single : Bool}
    (h : l.kind = .scalar s (Yaml.quotedStyle single)) :
    l.stopIndex (Source.ofList text) limit =
      Yaml.quotedStop single (l.start.index + 1) (text.drop (l.start.index + 1)) := by
  have hslice : (Source.ofList text).slice (l.start.index + 1) (Source.ofList text).size =
      text.drop (l.start.index + 1) := by
    rw [Source.slice_ofList, Source.size_ofList, List.take_length]
  unfold stopIndex
  rw [h]
  cases single with
  | true => exact congrArg _ hslice
  | false => exact congrArg _ hslice

theorem stopIndex_plain {s : String} (h : l.kind = .scalar s .plain) :
    l.stopIndex (Source.ofList text) limit =
      plainStop (Source.ofList text) l.start.index limit := by
  unfold stopIndex
  rw [h]

theorem stopIndex_block {s : String} {style : Yaml.ScalarStyle}
    (hstyle : style = .literal ∨ style = .folded) (h : l.kind = .scalar s style) :
    l.stopIndex (Source.ofList text) limit =
      blockStop (Source.ofList text) l.start limit := by
  unfold stopIndex
  rw [h]
  rcases hstyle with rfl | rfl <;> rfl

end Lexeme

namespace Yaml

/-- Every `#` of a block scalar stands on a line that ends in the scalar. -/
def Reading.EndsLines (text : List Char) (r : Reading) : Prop :=
  r.token.kind.isBlockScalar → ∀ i < r.stop, r.Holds i → text[i]? = some '#' →
    ∃ j < r.stop, i < j ∧ text[j]? = some '\n'

instance (text : List Char) (r : Reading) : Decidable (r.EndsLines text) :=
  inferInstanceAs (Decidable (_ → _))

/-- No `#` of a plain scalar stands behind a blank character. -/
def Reading.Joins (text : List Char) (r : Reading) : Prop :=
  r.token.kind.isPlain → ∀ i < r.stop, r.Holds i → r.Holds (i + 1) → text[i + 1]? = some '#' →
    Text.isBlank (charAt text i) = false

instance (text : List Char) (r : Reading) : Decidable (r.Joins text) :=
  inferInstanceAs (Decidable (_ → _))

variable {text : List Char} {r : Reading} {i : Nat}

theorem TokenKind.ne_of_style {k : TokenKind} (h : k.style?.isSome) : k ≠ .blockMappingStart := by
  rintro rfl
  cases h

theorem TokenKind.isBare_of_style {k : TokenKind} (h : k.style?.isSome) : k.isBare = false := by
  cases k <;> first | rfl | cases h

/-- The lexeme of a scalar covers each `#` of its content. -/
theorem Reading.lt_made_stop {a after : Nat} {u : Token} (hspells : Spells text a r.token r.stop)
    (hi : r.Holds i) (hhash : text[i]? = some '#') (hends : r.EndsLines text)
    (hjoins : r.Joins text) (hu : r.stop ≤ u.mark.index) :
    i < (Lexeme.made (Source.ofList text) after r.token (some u)).stop.index := by
  obtain ⟨token, stop⟩ := r
  obtain ⟨hstyle, hmark, hstop⟩ := hi
  have hne : token.kind ≠ .blockMappingStart := TokenKind.ne_of_style hstyle
  have hstart : (Lexeme.begin (Source.ofList text) token after).start.index ≤ i :=
    Lexeme.begin_start_le.trans hmark
  have hlimit : i < u.mark.index := Nat.lt_of_lt_of_le hstop hu
  rw [Lexeme.made_eq_finish hne,
    Lexeme.lt_finish_stop (List.getElem?_eq_some_iff.mp hhash).1 hstart]
  cases hspells with
  | plain _ =>
    rw [Lexeme.stopIndex_plain Lexeme.begin_kind]
    refine Lexeme.lt_plainStop hstart hlimit hhash (by decide) ?_
    intro j hj hji hnext
    rw [Lexeme.begin_start rfl] at hj
    exact hjoins rfl j (hji.trans hstop) ⟨rfl, hj, hji.trans hstop⟩
      ⟨rfl, hj.trans (Nat.le_succ j), Nat.lt_of_le_of_lt hji hstop⟩ hnext
  | @quoted _ single _ _ hquoted =>
    rw [Lexeme.stopIndex_quoted Lexeme.begin_kind,
      Lexeme.begin_start (by cases single <;> rfl), placeAt_index, ← hquoted]
    exact hstop
  | @block s style c _ hblock hac hcb =>
    rw [Lexeme.stopIndex_block hblock Lexeme.begin_kind]
    obtain ⟨j, hj, hij, hfeed⟩ := hends (by rcases hblock with rfl | rfl <;> rfl) i hstop
      ⟨hstyle, hmark, hstop⟩ hhash
    refine Lexeme.lt_blockStop ?_ (Nat.le_of_lt hij) hfeed (hj.trans_le hu)
    have hplaced : Token.PlacedIn text ⟨.scalar s style, (placeAt text c).mark⟩ :=
      Or.inl ⟨c, rfl⟩
    rw [(Lexeme.begin_line hplaced after).2, placeAt_line]
    rw [placeAt_index] at hmark
    exact lineAt_mono text hmark
  | @documentMark kind hkind _ =>
    exact absurd hstyle (by cases kind <;> first | exact Bool.false_ne_true | cases hkind)
  | @word kind _ hkind _ =>
    exact absurd hstyle (by cases kind <;> first | exact Bool.false_ne_true | cases hkind)
  | @directive kind _ hkind _ =>
    exact absurd hstyle (by cases kind <;> first | exact Bool.false_ne_true | cases hkind)

end Yaml

namespace Element

variable {text : List Char} {i : Nat} {c : Comment}

/-- A comment stands between two lexemes. -/
theorem mem_ofLexemes_between {source : Source} {prev : Option Lexeme}
    {path : List (Container × Mark)} {ls : List Lexeme}
    (hc : comment c ∈ ofLexemes source prev path ls) :
    ∃ pre before post, ls = pre ++ before :: post ∧
      c ∈ Comment.between source before post.head? := by
  induction ls generalizing prev path with
  | nil => cases hc
  | cons l r ih =>
    rw [ofLexemes, List.cons_append, List.mem_cons, List.mem_append] at hc
    rcases hc with hc | hc | hc
    · cases hc
    · obtain ⟨d, hd, heq⟩ := List.mem_map.mp hc
      cases heq
      exact ⟨[], l, r, rfl, hd⟩
    · obtain ⟨pre, before, post, hr, hbetween⟩ := ih hc
      exact ⟨l :: pre, before, post, by rw [hr]; rfl, hbetween⟩

/-- No comment stands where a lexeme covers the text, if those before it start no later and those
after it stop behind that place. -/
theorem not_comment_of_covered {prev : Option Lexeme} {path : List (Container × Mark)}
    {front back : List Lexeme} {l : Lexeme} (hplaced : ∀ m ∈ front ++ l :: back, m.Placed text)
    (hfront : ∀ m ∈ front, m.start.index ≤ i) (hstart : l.start.index ≤ i)
    (hback : ∀ m ∈ l :: back, i < m.stop.index)
    (hc : comment c ∈ ofLexemes (Source.ofList text) prev path (front ++ l :: back)) :
    c.index ≠ i := by
  rintro rfl
  obtain ⟨pre, before, post, hls, hbetween⟩ := mem_ofLexemes_between hc
  have hbefore : before ∈ front ++ l :: back := by
    rw [hls]
    exact List.mem_append_right _ List.mem_cons_self
  obtain ⟨_, _, _, hstop, hnext⟩ := Comment.mem_between (hplaced before hbefore) hbetween
  rcases List.append_eq_append_iff.mp hls with ⟨mid, _, hmid⟩ | ⟨mid, hmid, hpost⟩
  · have hin : before ∈ l :: back := by
      rw [hmid]
      exact List.mem_append_right _ List.mem_cons_self
    exact absurd (hback before hin) (Nat.not_lt.mpr hstop)
  · cases mid with
    | nil =>
      have hin : before ∈ l :: back := by
        rw [← List.nil_append (l :: back), ← hpost]
        exact List.mem_cons_self
      exact absurd (hback before hin) (Nat.not_lt.mpr hstop)
    | cons m mid =>
      obtain ⟨_, rfl⟩ := List.cons.inj hpost
      have hafter : ∃ l' ∈ (mid ++ l :: back).head?, l'.start.index ≤ c.index := by
        cases mid with
        | nil => exact ⟨l, rfl, hstart⟩
        | cons m' mid =>
          refine ⟨m', rfl, hfront m' ?_⟩
          rw [hmid]
          exact List.mem_append_right _ (List.mem_cons_of_mem _ List.mem_cons_self)
      obtain ⟨l', hl', hle⟩ := hafter
      exact absurd (hnext l' hl') (Nat.not_lt.mpr hle)

/-- The lexemes of a document that is scanned without a fault start in the order of the text. -/
theorem ofText_starts (herror : (Yaml.Scan.ofList .document text).error = none) :
    (Lexeme.ofText (Source.ofList text) text).Pairwise fun l l' =>
      min l.start.index text.length ≤ l'.start.index := by
  obtain ⟨w, hw, hqueue⟩ := Yaml.scan_held herror
  rw [Lexeme.ofText_eq_madeFrom, ← hqueue]
  exact Lexeme.madeFrom_order (hqueue ▸ Yaml.scan_tokens_mayPrecede text) hw.surveyed.leads

/-- What a scanner without a fault has read as a scalar is covered by its lexeme, and the lexemes
after it lie behind. -/
theorem exists_covering {r : Yaml.Reading} {w : Yaml.Scanner}
    (hw : w.Finished text (Yaml.Scan.readings text)) (hr : r ∈ Yaml.Scan.readings text)
    (hi : r.Holds i) (hhash : text[i]? = some '#') (hends : r.EndsLines text)
    (hjoins : r.Joins text) :
    ∃ front l back, Lexeme.madeFrom (Source.ofList text) 0 w.queue = front ++ l :: back ∧
      l.start.index ≤ i ∧ ∀ m ∈ l :: back, i < m.stop.index := by
  obtain ⟨a, hspells⟩ := hw.surveyed.spelt r hr (Yaml.TokenKind.isBare_of_style hi.1)
  obtain ⟨front, back, hts, hback, _⟩ := hw.surveyed.placed r hr
  cases back with
  | nil =>
    obtain ⟨ts, m, hended, _⟩ := hw.ended
    have hlast := (List.append_inj' (hts.symm.trans hended) rfl).2
    have hstyle := hi.1
    rw [(List.cons.inj hlast).1] at hstyle
    cases hstyle
  | cons u back =>
    obtain ⟨ls, after, hls⟩ := @Lexeme.madeFrom_append (Source.ofList text) 0
      (r.token :: u :: back) front
    rw [← hts, Lexeme.madeFrom, List.head?_cons] at hls
    have hcovered := @Yaml.Reading.lt_made_stop text r i a after u hspells hi hhash hends hjoins
      (hback u List.mem_cons_self)
    refine ⟨ls, _, _, hls, ?_, ?_⟩
    · exact Lexeme.made_start (Yaml.TokenKind.ne_of_style hi.1) ▸
        Lexeme.begin_start_le.trans hi.2.1
    · intro m hm
      rcases List.mem_cons.mp hm with rfl | hm
      · exact hcovered
      · exact (Lexeme.le_of_mem_madeFrom (List.getElem?_eq_some_iff.mp hhash).1 hcovered
          (fun v hv => (Nat.succ_le_of_lt hi.2.2).trans (hback v hv)) hm).2

/-- No comment stands in what a scanner without a fault has read as a scalar. -/
theorem not_comment_of_holds {r : Yaml.Reading} (hr : r ∈ Yaml.Scan.readings text) (hi : r.Holds i)
    (herror : (Yaml.Scan.ofList .document text).error = none) (hends : r.EndsLines text)
    (hjoins : r.Joins text) {prev : Option Lexeme} {path : List (Container × Mark)}
    (hc : comment c ∈ ofLexemes (Source.ofList text) prev path
      (Lexeme.ofText (Source.ofList text) text)) : c.index ≠ i := by
  rintro rfl
  obtain ⟨w, hw, hqueue⟩ := Yaml.scan_held herror
  obtain ⟨hplaced, _⟩ := Lexeme.ofText_order text
  have hhash := (mem_ofLexemes_comment hplaced hc).2
  have hin := (List.getElem?_eq_some_iff.mp hhash).1
  have horder := ofText_starts herror
  obtain ⟨front, l, back, hls, hstart, hcovered⟩ := exists_covering hw hr hi hhash hends hjoins
  rw [Lexeme.ofText_eq_madeFrom, ← hqueue, hls] at hplaced hc horder
  refine not_comment_of_covered hplaced ?_ hstart hcovered hc rfl
  intro m hm
  have := (List.pairwise_append.mp horder).2.2 m hm l List.mem_cons_self
  omega

/-- No comment of a document starts in the content of a scalar, be it quoted, a block scalar whose
lines end in it or a plain scalar without a `#` behind a blank character. -/
theorem comments_outside_scalars {text : String}
    (herror : (Yaml.Scan.ofList .document text.toList).error = none) {r : Yaml.Reading}
    (hr : r ∈ Yaml.Scan.readings text.toList) (hends : r.EndsLines text.toList)
    (hjoins : r.Joins text.toList) : ∀ c ∈ comments (ofDocument text), ¬r.Holds c.index := by
  intro c hc hi
  exact not_comment_of_holds hr hi herror hends hjoins (mem_comments_ofDocument.mp hc) rfl

theorem comments_outside_scalars_of_lines :
    (Yaml.Scan.ofList .document "a: |\n  b # c\nd: 'e # f'\n".toList).error = none ∧
      (∀ r ∈ Yaml.Scan.readings "a: |\n  b # c\nd: 'e # f'\n".toList,
        r.EndsLines "a: |\n  b # c\nd: 'e # f'\n".toList ∧
          r.Joins "a: |\n  b # c\nd: 'e # f'\n".toList) ∧
      ∀ r ∈ Yaml.Scan.readings "a: |\n  b # c\nd: 'e # f'\n".toList,
        ∀ c ∈ comments (ofDocument "a: |\n  b # c\nd: 'e # f'\n"), ¬r.Holds c.index := by
  have herror :
      (Yaml.Scan.ofList .document "a: |\n  b # c\nd: 'e # f'\n".toList).error = none := by
    decide +kernel
  have hread : ∀ r ∈ Yaml.Scan.readings "a: |\n  b # c\nd: 'e # f'\n".toList,
      r.EndsLines "a: |\n  b # c\nd: 'e # f'\n".toList ∧
        r.Joins "a: |\n  b # c\nd: 'e # f'\n".toList := by
    decide +kernel
  exact ⟨herror, hread, fun r hr =>
    comments_outside_scalars herror hr (hread r hr).1 (hread r hr).2⟩

/-- The last line of a block scalar is taken for a comment from its `#` on when the text ends without
a line feed. -/
theorem comment_inside_last_line :
    (Yaml.Scan.ofList .document "a: |\n  x # y".toList).error = none ∧
      ∃ c ∈ comments (ofDocument "a: |\n  x # y"),
        ∃ r ∈ Yaml.Scan.readings "a: |\n  x # y".toList, r.Holds c.index := by
  decide +kernel

-- A no-break space is an ordinary character for the scanner, but a blank one for its lexemes.
example : ∃ c ∈ comments (ofDocument "a: x\u00a0# y\n"),
    ∃ r ∈ Yaml.Scan.readings "a: x\u00a0# y\n".toList, r.Holds c.index := by
  decide +kernel

end Element

end Blueprint
