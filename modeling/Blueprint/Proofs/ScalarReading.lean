import Blueprint.Document.Lexeme
import Blueprint.Proofs.Positions

/-!
How far a scalar is read: a quoted one to just past its closing quote, a block scalar over its header
to the content and on, a plain one over a character at least.
-/

namespace Blueprint.Yaml

/-- The quote that closes a quoted scalar. -/
def quoteOf (single : Bool) : Char :=
  if single then '\'' else '"'

/-- The index just past the closing quote, for the text that stands at an index. -/
def quotedStop (single : Bool) : Nat → List Char → Nat :=
  if single then Lexeme.singleQuotedStop else Lexeme.doubleQuotedStop

theorem singleQuotedStop_cons {x : Char} (hx : x ≠ '\'') (i : Nat) (r : List Char) :
    Lexeme.singleQuotedStop i (x :: r) = Lexeme.singleQuotedStop (i + 1) r := by
  rw [Lexeme.singleQuotedStop, if_neg hx]
  intro _ h
  exact absurd h hx

theorem doubleQuotedStop_cons {x : Char} (hq : x ≠ '"') (hb : x ≠ '\\') (i : Nat)
    (r : List Char) : Lexeme.doubleQuotedStop i (x :: r) = Lexeme.doubleQuotedStop (i + 1) r := by
  rw [Lexeme.doubleQuotedStop, if_neg hq]
  · intro h
    exact absurd h hb
  · intro _ _ h
    exact absurd h hb

theorem quotedStop_cons {single : Bool} {x : Char} (hq : x ≠ quoteOf single)
    (hb : single = false → x ≠ '\\') (i : Nat) (r : List Char) :
    quotedStop single i (x :: r) = quotedStop single (i + 1) r := by
  cases single with
  | true => exact singleQuotedStop_cons hq i r
  | false => exact doubleQuotedStop_cons hq (hb rfl) i r

theorem quotedStop_close {single : Bool} {r : List Char}
    (h : single = true → r.head? ≠ some '\'') (i : Nat) :
    quotedStop single i (quoteOf single :: r) = i + 1 := by
  cases single with
  | true =>
    rw [quotedStop, quoteOf, if_pos rfl, if_pos rfl, Lexeme.singleQuotedStop, if_pos rfl]
    intro r' _ hr
    exact h rfl (by rw [hr]; rfl)
  | false =>
    rw [quotedStop, quoteOf, if_neg Bool.false_ne_true, if_neg Bool.false_ne_true,
      Lexeme.doubleQuotedStop, if_pos rfl]
    · intro hr
      exact absurd hr (by decide)
    · intro _ _ hr
      exact absurd hr (by decide)

/-- White space inside a scalar. -/
def inGap (d : Dialect) (x : Char) : Bool :=
  isSpace x || d.isBreak x

theorem inGap_of_isGap {d : Dialect} {x : Char} (h : d.isGap x = true) (hend : isEnd x = false) :
    inGap d x = true := by
  rwa [Dialect.isGap, Dialect.isBreakOrEnd, hend, Bool.or_false] at h

theorem isGap_of_inGap {d : Dialect} {x : Char} (h : inGap d x = true) : d.isGap x = true := by
  rw [Dialect.isGap, Dialect.isBreakOrEnd, ← Bool.or_assoc, show (isSpace x || d.isBreak x) = true
    from h, Bool.true_or]

theorem isEnd_of_not_isGap {d : Dialect} {x : Char} (h : d.isGap x = false) : isEnd x = false := by
  simp only [Dialect.isGap, Dialect.isBreakOrEnd, Bool.or_eq_false_iff] at h
  exact h.2.2

/-- White space in a scalar is passed over as a whole. -/
theorem gap_read_passes {d : Dialect} {start : Mark} {tabStop : Int} {g g' : Gap}
    {s : List Char} {m : Mark} {b : Cursor} (h : Gap.read d start tabStop g s m = .ok (g', b)) :
    (⟨s, m⟩ : Cursor).Passes d (inGap d) b ∧ inGap d b.first = false := by
  induction s generalizing g m with
  | nil =>
    cases h
    cases d <;> exact ⟨.refl _ _ _, rfl⟩
  | cons x r ih =>
    rw [Gap.read] at h
    split at h
    next hspace =>
      have hx : inGap d x = true := by rw [inGap, hspace, Bool.true_or]
      split at h
      · cases h
      · exact ⟨.of_past hx (ih h).1, (ih h).2⟩
    next hspace =>
      split at h
      next hbreak =>
        have hx : inGap d x = true := by rw [inGap, hbreak, Bool.or_true]
        split at h
        · exact ⟨.of_past hx (ih h).1, (ih h).2⟩
        · exact ⟨.of_past hx (ih h).1, (ih h).2⟩
      next hbreak =>
        cases h
        refine ⟨.refl d _ _, ?_⟩
        show (isSpace x || d.isBreak x) = false
        rw [Bool.of_not_eq_true hspace, Bool.of_not_eq_true hbreak]
        rfl

theorem readHex?_isHex {n value code : Nat} {s : List Char} (h : readHex? n value s = some code) :
    ∀ i < n, isHex (s.getD i '\x00') = true := by
  induction n generalizing value s with
  | zero => exact fun i hi => absurd hi (Nat.not_lt_zero i)
  | succ n ih =>
    cases s with
    | nil => cases h
    | cons x r =>
      rw [readHex?] at h
      split at h
      next hx =>
        intro i hi
        cases i with
        | zero => exact hx
        | succ i => exact ih h i (by omega)
      · cases h

section Quoted

variable {text : List Char} {single : Bool} {start : Mark} {n m : Nat} {c : Cursor}

/-- An ordinary character of a quoted scalar. -/
def isQuotable (single : Bool) (x : Char) : Bool :=
  !(isEnd x || x == quoteOf single || (!single && x == '\\'))

/-- From `n` to `m` a quoted scalar goes on: it has the same end from there. -/
def GoesOn (text : List Char) (single : Bool) (n m : Nat) : Prop :=
  quotedStop single n (text.drop n) = quotedStop single m (text.drop m)

theorem GoesOn.step (h : isQuotable single (charAt text n) = true) :
    GoesOn text single n (n + 1) := by
  simp only [isQuotable, Bool.not_eq_true', Bool.or_eq_false_iff, beq_eq_false_iff_ne,
    Bool.and_eq_false_imp, Bool.not_eq_true'] at h
  unfold GoesOn
  rw [drop_eq_charAt h.1.1]
  exact quotedStop_cons h.1.2 h.2 n _

theorem GoesOn.of_passed (hle : n ≤ m)
    (h : ∀ i, n ≤ i → i < m → isQuotable single (charAt text i) = true) :
    GoesOn text single n m := by
  induction m, hle using Nat.le_induction with
  | base => exact rfl
  | succ m hle ih =>
    have hstep : GoesOn text single m (m + 1) := .step (h m hle (Nat.lt_succ_self m))
    exact Eq.trans (ih fun i hn hi => h i hn (Nat.lt_succ_of_lt hi)) hstep

theorem isQuotable_of_inGap {x : Char} (h : inGap .document x = true) :
    isQuotable single x = true := by
  simp only [inGap, isSpace, Dialect.isBreak, Dialect.strict, Bool.or_eq_true, beq_iff_eq,
    Bool.and_eq_true] at h
  have hx : x = ' ' ∨ x = '\t' ∨ x = '\n' ∨ x = '\r' := by
    rcases h with (h | h) | (h | h) | h
    · exact Or.inl h
    · exact Or.inr (Or.inl h)
    · exact Or.inr (Or.inr (Or.inl h))
    · exact Or.inr (Or.inr (Or.inr h))
    · cases h.1
  rcases hx with rfl | rfl | rfl | rfl <;> cases single <;> decide

theorem isQuotable_of_isHex {x : Char} (h : isHex x = true) : isQuotable false x = true := by
  by_contra hx
  simp only [isQuotable, Bool.not_eq_true', Bool.not_eq_false, Bool.or_eq_true, beq_iff_eq,
    Bool.and_eq_true, isEnd, quoteOf] at hx
  rcases hx with (rfl | rfl) | ⟨_, rfl⟩ <;> exact absurd h (by decide)

theorem no_escape_of_isEnd {x : Char} (h : isEnd x = true) :
    escapeChar? .document x = none ∧ escapeWidth? x = none := by
  rw [beq_iff_eq.mp h]
  exact ⟨rfl, rfl⟩

theorem GoesOn.escape (hslash : charAt text n = '\\')
    (hletter : isEnd (charAt text (n + 1)) = false) : GoesOn text false n (n + 2) := by
  unfold GoesOn
  rw [drop_eq_charAt (by rw [hslash]; decide), drop_eq_charAt hletter, hslash]
  rfl

/-- An escape sequence takes the character after the backslash and digits. -/
theorem readEscape_goesOn {x : Char} (hslash : charAt text n = '\\')
    (h : readEscape .document start (placeAt text n) = .ok (x, c)) :
    ∃ m, n < m ∧ c = placeAt text m ∧ GoesOn text false n m := by
  unfold readEscape at h
  simp only [placeAt_ahead, placeAt_skip, placeAt_rest] at h
  split at h
  next hletter =>
    cases h
    refine ⟨n + 2, by omega, rfl, .escape hslash ?_⟩
    by_contra hend
    rw [(no_escape_of_isEnd (Bool.of_not_eq_false hend)).1] at hletter
    cases hletter
  next width _ hletter =>
    split at h
    · cases h
    next code hhex =>
      split at h
      · cases h
        refine ⟨n + 2 + width, by omega, rfl,
          Eq.trans (GoesOn.escape hslash ?_) (GoesOn.of_passed (by omega) ?_)⟩
        · by_contra hend
          rw [(no_escape_of_isEnd (Bool.of_not_eq_false hend)).2] at hletter
          cases hletter
        · intro i hn hi
          have := readHex?_isHex hhex (i - (n + 2)) (by omega)
          rw [List.getD_eq_getElem?_getD, List.getElem?_drop, Nat.add_sub_cancel' hn,
            ← List.getD_eq_getElem?_getD] at this
          exact isQuotable_of_isHex this
      · cases h
  · cases h

/-- Where a quoted scalar has been read up to white space, it goes on or its quote stands there. -/
structure WordRead (text : List Char) (single : Bool) (n m : Nat) : Prop where
  le : n ≤ m
  goesOn : GoesOn text single n m
  moves : Dialect.document.isGap (charAt text n) = false → charAt text n ≠ quoteOf single → n < m
  closes : single = true → charAt text m = '\'' → charAt text (m + 1) ≠ '\''

theorem WordRead.step {k : Nat} (hk : n < k) (h : GoesOn text single n k)
    (hread : WordRead text single k m) : WordRead text single n m where
  le := (Nat.le_of_lt hk).trans hread.le
  goesOn := Eq.trans h hread.goesOn
  moves _ _ := Nat.lt_of_lt_of_le hk hread.le
  closes := hread.closes

theorem WordRead.at_gap (h : Dialect.document.isGap (charAt text n) = true) :
    WordRead text single n n where
  le := le_rfl
  goesOn := rfl
  moves hne := by
    rw [h] at hne
    cases hne
  closes _ hq := by
    rw [hq] at h
    cases h

theorem WordRead.at_quote (h : charAt text n = quoteOf single)
    (hclose : single = true → charAt text (n + 1) ≠ '\'') : WordRead text single n n where
  le := le_rfl
  goesOn := rfl
  moves _ hne := absurd h hne
  closes hs _ := hclose hs

/-- A backslash at the end of a line takes the line break with it. -/
theorem WordRead.at_break (hslash : charAt text n = '\\')
    (hbreak : Dialect.document.isBreak (charAt text (n + 1)) = true) :
    ∃ m, (placeAt text (n + 1)).skipBreak .document = placeAt text m ∧ WordRead text false n m := by
  obtain ⟨m, hm, hle, hlt, hbreaks, _⟩ := @placeAt_skipBreak text (n + 1)
  refine ⟨m, hm, hle.trans' (Nat.le_succ n), ?_, fun _ _ => hle, ?_⟩
  · refine Eq.trans (GoesOn.escape hslash (isEnd_of_isBreak hbreak))
      (GoesOn.of_passed (hlt hbreak) ?_)
    intro i hi him
    exact isQuotable_of_inGap (by rw [inGap, hbreaks i (Nat.le_of_succ_le hi) him, Bool.or_true])
  · exact fun hfalse => absurd hfalse Bool.false_ne_true

theorem isQuotable_single {x : Char} (hend : isEnd x = false) (hquote : ¬(x == '\'') = true) :
    isQuotable true x = true := by
  simp [isQuotable, hend, quoteOf, hquote]

theorem isQuotable_double {x : Char} (hend : isEnd x = false) (hquote : ¬(x == '"') = true)
    (hslash : ¬(x == '\\') = true) : isQuotable false x = true := by
  simp [isQuotable, hend, quoteOf, hquote, hslash]

theorem quotedWord_read {escaped : Bool} {fuel : Nat} {word word' : List Char}
    (hfuel : text.length - n < fuel)
    (h : quotedWord .document single start fuel word (placeAt text n) = .ok (word', escaped, c)) :
    ∃ m, c = placeAt text m ∧ WordRead text single n m := by
  induction fuel generalizing n word with
  | zero => exact absurd hfuel (Nat.not_lt_zero _)
  | succ fuel ih =>
    rw [quotedWord] at h
    simp only [placeAt_first, placeAt_ahead, placeAt_advance, placeAt_skip] at h
    split at h
    next hgap =>
      cases h
      exact ⟨n, rfl, .at_gap hgap⟩
    next hgap =>
      have hend : isEnd (charAt text n) = false := by
        simp only [Dialect.isGap, Dialect.isBreakOrEnd, Bool.or_eq_true, not_or] at hgap
        exact Bool.of_not_eq_true hgap.2.2
      have hlt := lt_length_of_charAt hend
      have hnext {k : Nat} {word : List Char} (hk : n < k) (hgoes : GoesOn text single n k)
          (h : quotedWord .document single start fuel word (placeAt text k) =
            .ok (word', escaped, c)) : ∃ m, c = placeAt text m ∧ WordRead text single n m := by
        obtain ⟨m, hc, hread⟩ := ih (by omega) h
        exact ⟨m, hc, hread.step hk hgoes⟩
      cases single with
      | true =>
        rw [if_pos rfl] at h
        split at h
        next hquote =>
          have hquote := beq_iff_eq.mp hquote
          split at h
          next htwo =>
            have htwo := beq_iff_eq.mp htwo
            refine hnext (Nat.lt_add_of_pos_right Nat.two_pos) ?_ h
            unfold GoesOn
            rw [drop_eq_charAt hend, drop_eq_charAt (by rw [htwo]; decide), hquote, htwo]
            rfl
          next htwo =>
            cases h
            exact ⟨n, rfl, .at_quote hquote fun _ heq => htwo (beq_iff_eq.mpr heq)⟩
        next hquote =>
          exact hnext (Nat.lt_succ_self n) (.step (isQuotable_single hend hquote)) h
      | false =>
        rw [if_neg Bool.false_ne_true] at h
        split at h
        next hquote =>
          cases h
          exact ⟨n, rfl, .at_quote (beq_iff_eq.mp hquote)
            fun hfalse => absurd hfalse Bool.false_ne_true⟩
        next hquote =>
          split at h
          next hslash =>
            have hslash := beq_iff_eq.mp hslash
            split at h
            next hbreak =>
              cases h
              exact WordRead.at_break hslash hbreak
            · obtain ⟨⟨x, next⟩, hx, h⟩ := bind_eq_ok.mp h
              obtain ⟨k, hk, rfl, hgoes⟩ := readEscape_goesOn hslash hx
              exact hnext hk hgoes h
          next hslash =>
            exact hnext (Nat.lt_succ_self n) (.step (isQuotable_double hend hquote hslash)) h

theorem gap_read_placeAt {tabStop : Int} {g g' : Gap}
    (h : Gap.read .document start tabStop g (placeAt text n).rest (placeAt text n).mark =
      .ok (g', c)) :
    ∃ m, c = placeAt text m ∧ n ≤ m ∧ (∀ i, n ≤ i → i < m → inGap .document (charAt text i) = true) ∧
      (inGap .document (charAt text n) = true → n < m) := by
  obtain ⟨hpasses, hstops⟩ := gap_read_passes h
  obtain ⟨m, hle, rfl, hpassed⟩ := placeAt_passes hpasses
  refine ⟨m, rfl, hle, hpassed, ?_⟩
  intro hgap
  refine Nat.lt_of_le_of_ne hle ?_
  rintro rfl
  rw [placeAt_first, hgap] at hstops
  cases hstops

theorem quotedFrom_stop {fuel : Nat} {acc : List Char} {r : ScalarRead}
    (hfuel : text.length - n < fuel)
    (h : quotedFrom .document single start fuel acc (placeAt text n) = .ok r) :
    r.start = start ∧ n < quotedStop single n (text.drop n) ∧
      r.stop = placeAt text (quotedStop single n (text.drop n)) ∧
      charAt text (quotedStop single n (text.drop n) - 1) = quoteOf single := by
  induction fuel generalizing n acc with
  | zero => exact absurd hfuel (Nat.not_lt_zero _)
  | succ fuel ih =>
    rw [quotedFrom] at h
    split at h
    · cases h
    · split at h
      · cases h
      next hend =>
        rw [placeAt_first] at hend
        have hend := Bool.of_not_eq_true hend
        have hlt := lt_length_of_charAt hend
        obtain ⟨⟨acc', escaped, next⟩, hword, h⟩ := bind_eq_ok.mp h
        obtain ⟨m, rfl, hread⟩ := quotedWord_read
          (by rw [placeAt_rest, List.length_drop]; exact Nat.lt_succ_self _) hword
        dsimp only at h
        rw [show (if single then '\'' else '"') = quoteOf single from rfl, placeAt_first] at h
        rw [hread.goesOn]
        split at h
        next hquote =>
          cases h
          have hquote := beq_iff_eq.mp hquote
          have hstop : quotedStop single m (text.drop m) = m + 1 := by
            have hopen : isEnd (charAt text m) = false := by
              rw [hquote]
              cases single <;> rfl
            rw [drop_eq_charAt hopen, hquote]
            refine quotedStop_close ?_ m
            rintro rfl hhead
            rw [List.head?_drop] at hhead
            exact hread.closes rfl hquote (charAt_of_getElem? hhead)
          rw [hstop]
          exact ⟨rfl, Nat.lt_succ_of_le hread.le, placeAt_advance, hquote⟩
        next hquote =>
          obtain ⟨⟨gap, after⟩, hgap, h⟩ := bind_eq_ok.mp h
          obtain ⟨k, rfl, hle, hpassed, hmoves⟩ := gap_read_placeAt hgap
          have hgoes : GoesOn text single m k :=
            .of_passed hle fun i hi hik => isQuotable_of_inGap (hpassed i hi hik)
          have hnk : n < k := by
            refine Nat.lt_of_le_of_ne (hread.le.trans hle) ?_
            rintro rfl
            have heq : m = n := Nat.le_antisymm hle hread.le
            subst heq
            have hquote : charAt text m ≠ quoteOf single := fun heq => hquote (beq_iff_eq.mpr heq)
            cases hgap : Dialect.document.isGap (charAt text m) with
            | false => exact Nat.lt_irrefl m (hread.moves hgap hquote)
            | true => exact Nat.lt_irrefl m (hmoves (inGap_of_isGap hgap hend))
          obtain ⟨hstart, hlt', hstop, hclose⟩ := ih (by omega) h
          rw [show quotedStop single m (text.drop m) = quotedStop single k (text.drop k) from hgoes]
          exact ⟨hstart, hnk.trans hlt', hstop, hclose⟩

/-- A quoted scalar is read to just past its closing quote. -/
theorem readQuoted_closes {r : ScalarRead}
    (h : readQuoted .document single (placeAt text n) = .ok r) :
    r.start = (placeAt text n).mark ∧ n + 1 < quotedStop single (n + 1) (text.drop (n + 1)) ∧
      r.stop = placeAt text (quotedStop single (n + 1) (text.drop (n + 1))) ∧
      charAt text (quotedStop single (n + 1) (text.drop (n + 1)) - 1) = quoteOf single := by
  unfold readQuoted at h
  rw [placeAt_advance] at h
  exact quotedFrom_stop (by rw [placeAt_rest, List.length_drop]; omega) h

theorem readQuoted_stop {r : ScalarRead} (h : readQuoted .document single (placeAt text n) = .ok r) :
    r.start = (placeAt text n).mark ∧ n < quotedStop single (n + 1) (text.drop (n + 1)) ∧
      r.stop = placeAt text (quotedStop single (n + 1) (text.drop (n + 1))) :=
  let ⟨hstart, hlt, hstop, _⟩ := readQuoted_closes h
  ⟨hstart, Nat.lt_of_succ_lt hlt, hstop⟩

end Quoted

section Unquoted

variable {text : List Char} {n : Nat} {c : Cursor} {r : ScalarRead}

theorem plainWord_moves {flow : Bool} {start : Mark} {word : List Char}
    (hgap : Dialect.document.isGap (charAt text n) = false)
    (hends : endsPlain .document flow (charAt text n) (charAt text (n + 1)) = false)
    (h : plainWord .document flow start [] (placeAt text n).rest (placeAt text n).mark =
      .ok (word, c)) : ∃ m, n < m ∧ c = placeAt text m := by
  have hend : isEnd (charAt text n) = false := isEnd_of_not_isGap hgap
  have hnext : (text.drop (n + 1)).headD '\x00' = charAt text (n + 1) := by
    rw [charAt, List.getD_eq_getElem?_getD, List.headD_eq_head?_getD, List.head?_drop]
  have hrefused : refusedColon .document flow (charAt text n) (charAt text (n + 1)) = false := rfl
  rw [placeAt_rest, drop_eq_charAt hend, plainWord, hnext, hgap, hends, hrefused] at h
  have hreach := plainWord_reaches h
  rw [placeAt_past hend] at hreach
  obtain ⟨m, hle, hc⟩ := placeAt_reaches hreach
  exact ⟨m, hle, hc⟩

/-- A plain scalar takes its first character at least, be it white space. -/
theorem readPlain_moves {flow : Bool} {indent : Int}
    (hend : isEnd (charAt text n) = false) (hhash : charAt text n ≠ '#')
    (hind : (placeAt text n).atIndicator .document = false)
    (hends : endsPlain .document flow (charAt text n) (charAt text (n + 1)) = false)
    (h : readPlain .document flow indent (placeAt text n) = .ok r) :
    r.start = (placeAt text n).mark ∧ ∃ m, n < m ∧ r.stop = placeAt text m := by
  refine ⟨(plainFrom_reaches h).1, ?_⟩
  have hstop {k : Nat} (hk : n < k) {c : Cursor} (hreach : (placeAt text k).Reaches .document c) :
      ∃ m, n < m ∧ c = placeAt text m := by
    obtain ⟨m, hle, hc⟩ := placeAt_reaches hreach
    exact ⟨m, hk.trans_le hle, hc⟩
  rw [readPlain, plainFrom, hind, placeAt_first, beq_eq_false_iff_ne.mpr hhash] at h
  obtain ⟨⟨word, next⟩, hword, h⟩ := bind_eq_ok.mp h
  dsimp only at h
  cases hgap : Dialect.document.isGap (charAt text n) with
  | false =>
    obtain ⟨m, hm, rfl⟩ := plainWord_moves hgap hends hword
    split at h
    · cases h
      exact ⟨m, hm, rfl⟩
    · obtain ⟨⟨gap, after⟩, hread, h⟩ := bind_eq_ok.mp h
      obtain ⟨k, rfl, hk, _⟩ := gap_read_placeAt hread
      dsimp only at h
      split at h
      · cases h
        exact ⟨k, hm.trans_le hk, rfl⟩
      · exact hstop (hm.trans_le hk) (plainFrom_reaches h).2
  | true =>
    have hnext : next = placeAt text n := by
      rw [placeAt_rest, drop_eq_charAt hend, plainWord, hgap] at hword
      cases hword
      rw [← drop_eq_charAt hend, ← placeAt_rest]
    subst hnext
    split at h
    next hword' =>
      have hin := inGap_of_isGap hgap hend
      rw [inGap] at hin
      rw [placeAt_first, hin] at hword'
      cases hword'
    · obtain ⟨⟨gap, after⟩, hread, h⟩ := bind_eq_ok.mp h
      obtain ⟨k, rfl, _, _, hmoves⟩ := gap_read_placeAt hread
      have hk := hmoves (inGap_of_isGap hgap hend)
      dsimp only at h
      split at h
      · cases h
        exact ⟨k, hk, rfl⟩
      · exact hstop hk (plainFrom_reaches h).2

end Unquoted

end Blueprint.Yaml
