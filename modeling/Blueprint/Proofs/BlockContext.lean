import Blueprint.Proofs.HeldRun
import Blueprint.Proofs.ScalarEnds

/-!
The blocks that are open and the keys that may open more of them. The start of a block mapping is put
before its first key although the colon behind the key is what tells of it; between the two nothing
changes about the blocks that are open, and the token before the key has come to its end.
-/

namespace Blueprint.Yaml

/-- The names of nodes: their text ends with the word. -/
def TokenKind.isName : TokenKind → Bool
  | .alias _ | .anchor _ | .tag _ => true
  | _ => false

theorem TokenKind.style?_of_isName {k : TokenKind} (h : k.isName = true) : k.style? = none := by
  cases k <;> first | rfl | cases h

/-- What tells, between a token and an index, where the text of the token ends: white space behind a
name, a comment behind a plain scalar. A block scalar starts behind white space, with no more of it
needed unless it might be taken for its own header. -/
structure Token.Leaves (text : List Char) (t : Token) (p : Nat) : Prop where
  name : t.kind.isName = true →
    ∃ i, t.mark.index < i ∧ i < p ∧ inGap .document (charAt text i) = true
  plain : t.kind.isPlain = true → ∃ i, t.mark.index < i ∧ i ≤ p ∧ CommentAt text i
  block : t.kind.isBlockScalar = true → inGap .document (charAt text (t.mark.index - 1)) = true ∧
    (Lexeme.opensBlockText (some (charAt text t.mark.index)) = true →
      p = t.mark.index ∨ ∃ i, t.mark.index < i ∧ i < p ∧ inGap .document (charAt text i) = true)

/-- The tokens whose text is told by the token itself. -/
def TokenKind.isSettled (k : TokenKind) : Bool :=
  !(k.isName || k.isPlain || k.isBlockScalar)

namespace Token.Leaves

variable {text : List Char} {t : Token} {p q : Nat}

theorem of_isSettled (h : t.kind.isSettled = true) : t.Leaves text p := by
  simp only [TokenKind.isSettled, Bool.not_eq_true', Bool.or_eq_false_iff] at h
  refine ⟨fun hname => ?_, fun hplain => ?_, fun hblock => ?_⟩
  · rw [h.1.1] at hname
    cases hname
  · rw [h.1.2] at hplain
    cases hplain
  · rw [h.2] at hblock
    cases hblock

theorem of_isName {i : Nat} (hname : t.kind.isName = true) (hi : t.mark.index < i) (hip : i < p)
    (hgap : inGap .document (charAt text i) = true) : t.Leaves text p := by
  refine ⟨fun _ => ⟨i, hi, hip, hgap⟩, fun hplain => ?_, fun hblock => ?_⟩
  · rw [TokenKind.isPlain, TokenKind.style?_of_isName hname] at hplain
    cases hplain
  · rw [TokenKind.isBlockScalar, TokenKind.style?_of_isName hname] at hblock
    cases hblock

/-- White space and comments may follow. -/
theorem mono (h : t.Leaves text p) (hpq : p ≤ q)
    (hgap : p < q → inGap .document (charAt text p) = true ∨ charAt text p = '#') :
    t.Leaves text q where
  name hname := by
    obtain ⟨i, hi, hip, hblank⟩ := h.name hname
    exact ⟨i, hi, hip.trans_le hpq, hblank⟩
  plain hplain := by
    obtain ⟨i, hi, hip, hcomment⟩ := h.plain hplain
    exact ⟨i, hi, hip.trans hpq, hcomment⟩
  block hblock := by
    obtain ⟨hbefore, hinner⟩ := h.block hblock
    refine ⟨hbefore, fun hopens => ?_⟩
    rcases hinner hopens with heq | ⟨i, hi, hip, hblank⟩
    · refine Or.inl ?_
      by_contra hne
      rcases hgap (by omega) with hblank | hhash
      · rw [heq] at hblank
        generalize charAt text t.mark.index = x at hopens hblank
        simp only [Lexeme.opensBlockText, Bool.or_eq_true, beq_iff_eq, Option.some.injEq] at hopens
        rcases hopens with rfl | rfl <;> cases hblank
      · rw [← heq, hhash] at hopens
        cases hopens
    · exact Or.inr ⟨i, hi, hip.trans_le hpq, hblank⟩

end Token.Leaves

/-- The token before the start of a block mapping ends before the first key. -/
def StartsLeft (text : List Char) (ts : List Token) : Prop :=
  ∀ t b u, [t, b, u] <:+: ts → b.kind = .blockMappingStart → u.kind = .key →
    b.mark = u.mark ∨ t.Leaves text u.mark.index

namespace StartsLeft

variable {text : List Char} {ts new front back : List Token} {t : Token}

theorem of_infix (h : StartsLeft text ts) (hsub : new <:+: ts) : StartsLeft text new :=
  fun t b u hin => h t b u (hin.trans hsub)

theorem cons (h : StartsLeft text ts)
    (hfirst : ∀ b u r, ts = b :: u :: r → b.kind = .blockMappingStart → u.kind = .key →
      b.mark = u.mark ∨ t.Leaves text u.mark.index) : StartsLeft text (t :: ts) := by
  intro s b u hin hb hu
  rcases List.infix_cons_iff.mp hin with hfront | hin
  · obtain ⟨rfl, r, rfl⟩ := List.cons_prefix_cons.mp hfront
    exact hfirst b u r rfl hb hu
  · exact h s b u hin hb hu

theorem of_length_le (h : ts.length ≤ 2) : StartsLeft text ts := by
  intro t b u hin
  have := hin.length_le
  simp only [List.length_cons, List.length_nil] at this
  omega

theorem of_forall_ne (h : ∀ t ∈ ts, t.kind ≠ .blockMappingStart) : StartsLeft text ts :=
  fun _ b _ hin hb => absurd hb (h b (hin.subset (by simp)))

theorem append (hfront : StartsLeft text front) (hback : StartsLeft text back)
    (hlast : ∀ t ∈ front.getLast?, t.kind ≠ .blockMappingStart)
    (hfirst : ∀ t ∈ front.getLast?, ∀ b u r, back = b :: u :: r → b.kind = .blockMappingStart →
      u.kind = .key → b.mark = u.mark ∨ t.Leaves text u.mark.index) :
    StartsLeft text (front ++ back) := by
  induction front with
  | nil => exact hback
  | cons t front ih =>
    cases front with
    | nil => exact hback.cons fun b u r => hfirst t rfl b u r
    | cons s front =>
      refine (ih (hfront.of_infix (List.suffix_cons t _).isInfix) ?_ ?_).cons ?_
      · simpa using hlast
      · simpa using hfirst
      · intro b u r heq hb hu
        obtain ⟨rfl, htail⟩ := List.cons.inj heq
        cases front with
        | nil => exact absurd hb (hlast s rfl)
        | cons v front =>
          obtain ⟨rfl, rfl⟩ := List.cons.inj htail
          exact hfront t s v ⟨[], front, rfl⟩ hb hu

/-- The key that is put in may stand behind the start of a block mapping that it opens. -/
theorem insert {n : Nat} {starts : List Token} {m : Mark} (h : StartsLeft text ts)
    (hlast : ∀ t ∈ (ts.take n).getLast?, t.kind ≠ .blockMappingStart)
    (hstarts : starts = [] ∨ ∃ b, starts = [b] ∧
      ∀ t ∈ (ts.take n).getLast?, t.Leaves text m.index) :
    StartsLeft text (ts.take n ++ (starts ++ ⟨.key, m⟩ :: ts.drop n)) := by
  have hback : StartsLeft text (⟨.key, m⟩ :: ts.drop n) :=
    (h.of_infix (List.drop_suffix n ts).isInfix).cons fun _ _ _ _ _ _ => Or.inr (.of_isSettled rfl)
  refine (h.of_infix (List.take_prefix n ts).isInfix).append ?_ hlast ?_
  · rcases hstarts with rfl | ⟨b, rfl, -⟩
    · exact hback
    · refine hback.cons fun b u r heq hb => ?_
      rw [← (List.cons.inj heq).1] at hb
      cases hb
  · intro t ht b u r heq hb hu
    rcases hstarts with rfl | ⟨c, rfl, hleaves⟩
    · rw [← (List.cons.inj heq).1] at hb
      cases hb
    · rw [← (List.cons.inj (List.cons.inj heq).2).1]
      exact Or.inr (hleaves t ht)

end StartsLeft

section Places

variable {text : List Char} {n m : Nat}

theorem placeAt_succ_column (h : text[n]? ≠ some '\n') :
    (placeAt text (n + 1)).mark.column = (placeAt text n).mark.column + 1 := by
  have hpast {x : Char} (hx : x ≠ '\n') (r : List Char) (m : Mark) :
      (Dialect.document.past x r m).column = m.column + 1 := by
    simp [Dialect.past, Dialect.strict, hx]
  rw [← placeAt_advance, Cursor.advance]
  split
  · exact hpast (by decide) [] _
  next x r hrest =>
    rw [placeAt_rest] at hrest
    refine hpast ?_ r _
    rintro rfl
    rw [← List.head?_drop, hrest] at h
    exact h rfl

/-- On one line columns grow with the index. -/
theorem placeAt_column_le (hnm : n ≤ m) (hline : lineAt text n = lineAt text m) :
    (placeAt text n).mark.column ≤ (placeAt text m).mark.column := by
  induction m, hnm using Nat.le_induction with
  | base => exact le_rfl
  | succ m hnm ih =>
    have hbelow := lineAt_mono text hnm
    have habove := lineAt_mono text (Nat.le_add_right m 1)
    have hsame : lineAt text n = lineAt text m := by omega
    refine (ih hsame).trans ?_
    rw [placeAt_succ_column fun hfeed => ?_]
    · exact Nat.le_succ _
    · have := lineAt_succ hfeed
      omega

end Places

namespace Scanner

variable {text : List Char} {s s' : Scanner} {n a : Nat}

/-- White space and comments from `n` up to `a`, where none follow. A key may start there if one might
have started before, or behind white space. -/
structure Clearing (text : List Char) (n a : Nat) (before allowed : Bool) : Prop where
  le : n ≤ a
  within : a ≤ text.length
  hash : charAt text a ≠ '#'
  first : n < a → inGap .document (charAt text n) = true ∨ charAt text n = '#'
  allowed : allowed = true → before = true ∨
    ∃ i, n ≤ i ∧ i < a ∧ inGap .document (charAt text i) = true

theorem Clearing.of_later {m : Nat} {before next allowed : Bool}
    (h : Clearing text m a next allowed) (hnm : n < m)
    (hfirst : inGap .document (charAt text n) = true ∨ charAt text n = '#')
    (hnext : next = true → before = true ∨ inGap .document (charAt text n) = true) :
    Clearing text n a before allowed := by
  have hle := h.le
  refine ⟨by omega, h.within, h.hash, fun _ => hfirst, fun hon => ?_⟩
  rcases h.allowed hon with hon | ⟨i, hi, hia, hgap⟩
  · exact (hnext hon).imp_right fun hgap => ⟨n, le_rfl, by omega, hgap⟩
  · exact Or.inr ⟨i, by omega, hia, hgap⟩

/-- White space and comments are passed over. -/
theorem toToken_reaches {fuel : Nat} (hhere : s.here = placeAt text n) (hn : n ≤ text.length)
    (hfuel : text.length - n < fuel) :
    ∃ a allowed, s.toToken .document fuel =
        { s with here := placeAt text a, keyAllowed := allowed } ∧
      Clearing text n a s.keyAllowed allowed := by
  induction fuel generalizing s n with
  | zero => exact absurd hfuel (Nat.not_lt_zero _)
  | succ fuel ih =>
    have hgo {u : Scanner} {m : Nat} {next : Bool} (hnm : n < m) (hm : m ≤ text.length)
        (hfirst : inGap .document (charAt text n) = true ∨ charAt text n = '#')
        (hnext : next = true → s.keyAllowed = true ∨ inGap .document (charAt text n) = true)
        (hu : u = { s with here := placeAt text m, keyAllowed := next }) :
        ∃ a allowed, u.toToken .document fuel =
            { s with here := placeAt text a, keyAllowed := allowed } ∧
          Clearing text n a s.keyAllowed allowed := by
      obtain ⟨a, allowed, heq, hclear⟩ := ih (s := u) (by rw [hu]) hm (by omega)
      rw [hu] at hclear
      exact ⟨a, allowed, by rw [heq, hu], hclear.of_later hnm hfirst hnext⟩
    rw [toToken, hhere, placeAt_first]
    split
    next hspace =>
      have hgap : inGap .document (charAt text n) = true := by
        rcases Bool.or_eq_true_iff.mp hspace with h | h
        · rw [beq_iff_eq.mp h]
          rfl
        · rw [beq_iff_eq.mp (Bool.and_eq_true_iff.mp h).1]
          rfl
      have hlt := lt_length_of_charAt (isEnd_of_inGap hgap)
      refine hgo (Nat.lt_succ_self n) hlt (Or.inl hgap) (fun hon => Or.inl hon) ?_
      rw [placeAt_advance]
    · split
      next hbreak =>
        have hgap : inGap .document (charAt text n) = true := by rw [inGap, hbreak, Bool.or_true]
        obtain ⟨m, hm, -, hmlength, hmoves, -⟩ := placeAt_skipBreak_within hn
        exact hgo (hmoves hbreak) hmlength (Or.inl hgap) (fun _ => Or.inr hgap) (by rw [hm])
      · split
        next hhash =>
          have hhash := beq_iff_eq.mp hhash
          obtain ⟨m, hm, hnm, -⟩ := placeAt_skipComment hhash
          obtain ⟨m', -, hm', hplace, -⟩ :=
            placeAt_passes_within rfl hn (skipComment_passes .document (placeAt text n))
          have hsame : m = m' := by
            rw [← @placeAt_index text m, ← hm, hplace, placeAt_index]
          exact hgo hnm (hsame ▸ hm') (Or.inr hhash) (fun hon => Or.inl hon) (by rw [hm])
        next hhash =>
          have hstays : (Dialect.document.strict && charAt text n == '\ufeff' &&
              (s.mark.column == 0)) = false := rfl
          rw [if_neg (by rw [hstays]; exact Bool.false_ne_true)]
          exact ⟨n, s.keyAllowed, by rw [← hhere], le_rfl, hn, fun heq => hhash (beq_iff_eq.mpr heq),
            fun hlt => absurd hlt (Nat.lt_irrefl n), Or.inl⟩

/-- The key that may have started in the block context, if it may still be recognized. -/
def blockKey? (ks : List SimpleKey) : Option SimpleKey :=
  ks.getLast?.filter (·.possible)

section Keys

variable {ks : List SimpleKey} {k j : SimpleKey}

theorem mem_blockKey? : k ∈ blockKey? ks ↔ k ∈ ks.getLast? ∧ k.possible = true := by
  rw [blockKey?, Option.mem_def, Option.filter_eq_some_iff, Option.mem_def]

theorem blockKey?_cons (h : ks ≠ []) : blockKey? (k :: ks) = blockKey? ks := by
  obtain ⟨j, r, rfl⟩ := List.exists_cons_of_ne_nil h
  rw [blockKey?, blockKey?, List.getLast?_cons_cons]

theorem openKeys_of_blockKey? (h : k ∈ blockKey? s.keys) : k ∈ s.openKeys := by
  obtain ⟨hlast, hpossible⟩ := mem_blockKey?.mp h
  exact List.mem_filter.mpr ⟨List.mem_of_mem_getLast? hlast, hpossible⟩

/-- Outside flow collections the key of the block context is given up. -/
theorem dropKey_blockKey? (h : s.dropKey = .ok s') : s'.keys.length = s.keys.length ∧
    ∀ k ∈ blockKey? s'.keys, k ∈ blockKey? s.keys ∧ 1 < s.keys.length := by
  unfold dropKey at h
  split at h
  next hkeys =>
    cases h
    refine ⟨rfl, fun k hk => ?_⟩
    rw [hkeys] at hk
    cases hk
  next k r hkeys =>
    split at h
    · cases h
    · cases h
      refine ⟨by rw [hkeys]; rfl, fun j hj => ?_⟩
      rw [hkeys]
      cases r with
      | nil =>
        obtain ⟨hlast, hpossible⟩ := mem_blockKey?.mp hj
        cases hlast
        cases hpossible
      | cons i r =>
        rw [blockKey?_cons (List.cons_ne_nil i r)] at hj ⊢
        exact ⟨hj, by simp⟩

theorem dropStaleKeys_blockKey? (h : s.dropStaleKeys = .ok s') :
    s'.keys.length = s.keys.length ∧ ∀ k ∈ blockKey? s'.keys, k ∈ blockKey? s.keys := by
  rw [dropStaleKeys_eq] at h
  split at h
  · cases h
  · cases h
    refine ⟨List.length_map _, fun k hk => ?_⟩
    obtain ⟨hlast, hpossible⟩ := mem_blockKey?.mp hk
    rw [List.getLast?_map, Option.mem_def, Option.map_eq_some_iff] at hlast
    obtain ⟨j, hj, rfl⟩ := hlast
    rw [SimpleKey.unlessStale] at hpossible ⊢
    split at hpossible
    · cases hpossible
    next hfresh =>
      rw [if_neg hfresh]
      exact mem_blockKey?.mpr ⟨hj, hpossible⟩

end Keys

/-- A key of the block context is not indented less than its block. If it is indented more, and so
opens a block, the token before it has come to its end. -/
structure KeyApart (text : List Char) (ts : List Token) (indent : Int) (k : SimpleKey) : Prop where
  counted : k.token ≤ ts.length
  column : indent ≤ k.mark.column
  leaves : indent < k.mark.column → ∀ t ∈ (ts.take k.token).getLast?, t.Leaves text k.mark.index

/-- What holds of a scanner at all times about the blocks that are open and those that may open. -/
structure Grounded (text : List Char) (s : Scanner) : Prop where
  levels : s.keys.length = s.flow + 1
  floor : (s.indent :: s.indents).getLast? = some (-1)
  key : ∀ k ∈ blockKey? s.keys, KeyApart text s.queue s.indent k
  starts : StartsLeft text s.queue

theorem KeyApart.append {ts new : List Token} {indent : Int} {k : SimpleKey}
    (h : KeyApart text ts indent k) : KeyApart text (ts ++ new) indent k where
  counted := by
    rw [List.length_append]
    exact h.counted.trans (Nat.le_add_right _ _)
  column := h.column
  leaves := by
    rw [List.take_append_of_le_length h.counted]
    exact h.leaves

/-- Tokens are put at the end. The key of the block context stays, unless a block is opened. -/
theorem Grounded.append {new : List Token} (h : s.Grounded text)
    (hlast : ∀ t ∈ s.queue.getLast?, t.kind ≠ .blockMappingStart)
    (hqueue : s'.queue = s.queue ++ new) (hnew : StartsLeft text new)
    (hfirst : ∀ b u r, new = b :: u :: r → b.kind = .blockMappingStart → u.kind = .key →
      b.mark = u.mark)
    (hlevels : s'.keys.length = s'.flow + 1)
    (hfloor : (s'.indent :: s'.indents).getLast? = (s.indent :: s.indents).getLast?)
    (hkey : ∀ k ∈ blockKey? s'.keys, k ∈ blockKey? s.keys ∧ s'.indent = s.indent) :
    s'.Grounded text where
  levels := hlevels
  floor := hfloor.trans h.floor
  key k hk := by
    obtain ⟨hk, hindent⟩ := hkey k hk
    rw [hqueue, hindent]
    exact (h.key k hk).append
  starts := by
    rw [hqueue]
    exact h.starts.append hnew hlast fun _ _ b u r heq hb hu => Or.inl (hfirst b u r heq hb hu)

/-- No start of a block mapping is among the tokens put at the end. -/
theorem Grounded.appendEnds {new : List Token} (h : s.Grounded text)
    (hlast : ∀ t ∈ s.queue.getLast?, t.kind ≠ .blockMappingStart)
    (hnew : ∀ t ∈ new, t.kind ≠ .blockMappingStart) (hqueue : s'.queue = s.queue ++ new)
    (hlevels : s'.keys.length = s'.flow + 1)
    (hfloor : (s'.indent :: s'.indents).getLast? = (s.indent :: s.indents).getLast?)
    (hkey : ∀ k ∈ blockKey? s'.keys, k ∈ blockKey? s.keys ∧ s'.indent = s.indent) :
    s'.Grounded text :=
  h.append hlast hqueue (.of_forall_ne hnew)
    (fun b _ _ heq hb => absurd hb (hnew b (heq ▸ List.mem_cons_self))) hlevels hfloor hkey

/-- Outside flow collections no key but that of the block context may start. -/
theorem Grounded.keys_eq {k : SimpleKey} {r : List SimpleKey} (h : s.Grounded text)
    (hkeys : s.keys = k :: r) (hflow : s.flow = 0) : r = [] := by
  have hlevels := h.levels
  rw [hkeys, hflow] at hlevels
  exact List.eq_nil_of_length_eq_zero (Nat.succ.inj hlevels)

/-! Blocks that end. -/

section Close

variable {column : Int}

theorem closeFrom_floor (outer : List Int) (s : Scanner) (h : s.indents = outer) :
    ((closeFrom column outer s).indent :: (closeFrom column outer s).indents).getLast? =
      (s.indent :: s.indents).getLast? := by
  induction outer generalizing s with
  | nil => rfl
  | cons indent r ih =>
    rw [closeFrom]
    split
    · rw [ih _ rfl, h, List.getLast?_cons_cons]
    · rfl

/-- Either no block is deeper than a column, or the last token is the end of one. -/
theorem closeFrom_cases (outer : List Int) (s : Scanner) (h : s.indents = outer)
    (hlow : ∀ low ∈ (s.indent :: s.indents).getLast?, low ≤ column) :
    (closeFrom column outer s = s ∧ s.indent ≤ column) ∨
      ((∃ t ∈ (closeFrom column outer s).queue.getLast?, t.kind = .blockEnd) ∧
        (closeFrom column outer s).indent ≤ column) := by
  induction outer generalizing s with
  | nil => exact Or.inl ⟨rfl, hlow _ (by rw [h]; rfl)⟩
  | cons indent r ih =>
    rw [closeFrom]
    split
    · have hinner := ih { s.push .blockEnd s.mark with indent, indents := r } rfl (by
        rw [h, List.getLast?_cons_cons] at hlow
        exact hlow)
      refine Or.inr (hinner.elim ?_ id)
      rintro ⟨heq, hindent⟩
      rw [heq]
      exact ⟨⟨⟨.blockEnd, s.mark⟩, List.getLast?_concat, rfl⟩, hindent⟩
    next hshallow => exact Or.inl ⟨rfl, Int.not_lt.mp hshallow⟩

theorem closeBlocks_floor (s : Scanner) (column : Int) :
    ((s.closeBlocks column).indent :: (s.closeBlocks column).indents).getLast? =
      (s.indent :: s.indents).getLast? := by
  unfold closeBlocks
  split
  · rfl
  · exact closeFrom_floor _ s rfl

theorem closeBlocks_of_le (h : 0 < s.flow ∨ s.indent ≤ column) : s.closeBlocks column = s := by
  unfold closeBlocks
  split
  · rfl
  next hflow =>
    have hindent := h.resolve_left hflow
    cases s.indents with
    | nil => rfl
    | cons indent r => exact if_neg (Int.not_lt.mpr hindent)

end Close

theorem not_keyFree {indent : Int} (h : inGap .document (charAt text n) = true ∨ charAt text n = '#') :
    ¬KeyFree text indent n := by
  intro hfree
  generalize hx : charAt text n = x at h
  cases hfree with
  | finish hend =>
    rw [hx] at hend
    rw [beq_iff_eq.mp hend] at h
    rcases h with h | h <;> cases h
  | indicator hind =>
    simp only [Cursor.atIndicator, placeAt_first, placeAt_ahead, hx, Bool.and_eq_true,
      Bool.or_eq_true, beq_iff_eq] at hind
    rcases hind.2 with ⟨⟨rfl, -⟩, -⟩ | ⟨⟨rfl, -⟩, -⟩ <;> rcases h with h | h <;> cases h
  | colon hcolon _ =>
    rw [← hx, hcolon] at h
    rcases h with h | h <;> cases h
  | shallow hgap hhash _ =>
    rw [hx] at hgap hhash
    rcases h with h | h
    · rw [hgap] at h
      cases h
    · exact hhash h

/-- A scanner that has read up to `n`: where a key may start next that opens a block, the last token
has come to its end, or will have when white space has been passed. -/
structure Guarded (text : List Char) (n : Nat) (s : Scanner) : Prop where
  grounded : s.Grounded text
  here : s.here = placeAt text n
  within : n ≤ text.length
  leaves : s.flow = 0 → KeyFree text s.indent n ∨ ∀ t ∈ s.queue.getLast?, t.Leaves text n ∨
    (t.kind.isName = true ∧ s.keyAllowed = false ∧ t.mark.index < n)

/-- A scanner that has passed over white space and comments up to `a`. -/
structure Poised (text : List Char) (a : Nat) (s : Scanner) : Prop where
  grounded : s.Grounded text
  inOrder : s.InOrder text []
  here : s.here = placeAt text a
  within : a ≤ text.length
  hash : charAt text a ≠ '#'
  fresh : ∀ k ∈ s.keys, k.possible = true → s.mark.line ≤ k.mark.line
  apart : ∀ k ∈ s.openKeys, ∀ t ∈ (s.queue.take k.token).getLast?, t.kind ≠ .blockMappingStart
  last : ∀ t ∈ s.queue.getLast?, t.kind ≠ .blockMappingStart
  leaves : s.flow = 0 → s.keyAllowed = true →
    KeyFree text s.indent a ∨ ∀ t ∈ s.queue.getLast?, t.Leaves text a

variable {rs : List Reading} {u : Scanner}

/-- A key of the block context is on the line that is read, so no block that is open is deeper than the
place reached. -/
theorem Grounded.indent_le (h : s.Grounded text) (horder : s.InOrder text [])
    (hhere : s.here = placeAt text a)
    (hfresh : ∀ k ∈ s.keys, k.possible = true → s.mark.line ≤ k.mark.line) {k : SimpleKey}
    (hk : k ∈ blockKey? s.keys) : s.indent ≤ (placeAt text a).mark.column := by
  obtain ⟨hlast, hpossible⟩ := mem_blockKey?.mp hk
  have hline := hfresh k (List.mem_of_mem_getLast? hlast) hpossible
  have hfits := horder.tokens.fits k (openKeys_of_blockKey? hk)
  have hbehind := hfits.behind
  rw [mark, hhere] at hline hbehind
  refine Int.le_trans (h.key k hk).column (Int.ofNat_le.mpr ?_)
  rcases hfits.placed with ⟨i, hi⟩ | ⟨hbound, -⟩
  · have hi : k.mark = (placeAt text i).mark := hi
    rw [hi] at hline hbehind ⊢
    have hsame := Nat.le_antisymm hbehind.2 hline
    rw [placeAt_line, placeAt_line] at hsame
    have hle := hbehind.1
    rw [placeAt_index, placeAt_index] at hle
    exact placeAt_column_le hle hsame
  · cases hbound

/-- White space and comments are passed over, and stale keys are given up. -/
theorem Guarded.poised (h : s.Guarded text n) (hlive : s.Live text rs n)
    (hu : (s.toToken .document (s.size + 1)).dropStaleKeys = .ok u) : ∃ a, u.Poised text a := by
  obtain ⟨a, allowed, hplace, hna, ha, hhash, hgap, hallowed⟩ :=
    toToken_reaches h.here h.within (show text.length - n < s.size + 1 by rw [hlive.size]; omega)
  obtain ⟨horder, hfresh⟩ := (hlive.inOrder.toToken _).dropStaleKeys hu
  rw [hplace] at hu
  obtain ⟨hlength, hblock⟩ := dropStaleKeys_blockKey? hu
  obtain ⟨ks, rfl, hsub, -⟩ := dropStaleKeys_ok hu
  refine ⟨a, ⟨hlength.trans h.grounded.levels, h.grounded.floor,
    fun k hk => h.grounded.key k (hblock k hk), h.grounded.starts⟩, horder, rfl, ha, hhash, hfresh,
    fun k hk => hlive.surveyed.keysApart k (hsub.subset hk), hlive.surveyed.last, ?_⟩
  intro hflow hon
  rcases h.leaves hflow with hfree | hleaves
  · rcases Nat.eq_or_lt_of_le hna with rfl | hlt
    · exact Or.inl hfree
    · exact absurd hfree (not_keyFree (hgap hlt))
  · refine Or.inr fun t ht => ?_
    rcases hleaves t ht with hleaves | ⟨hname, hoff, hindex⟩
    · exact hleaves.mono hna hgap
    · rcases hallowed hon with hon | ⟨i, hi, hia, hblank⟩
      · rw [hoff] at hon
        cases hon
      · exact .of_isName hname (hindex.trans_le hi) hia hblank

/-- Blocks that are deeper than the place reached end. -/
theorem Poised.closeBlocks (h : s.Poised text a) : (s.closeBlocks s.mark.column).Poised text a ∧
    ((s.closeBlocks s.mark.column).flow = 0 →
      (s.closeBlocks s.mark.column).indent ≤ (placeAt text a).mark.column) := by
  have hmark : s.mark.column = (placeAt text a).mark.column := by rw [mark, h.here]
  by_cases hstays : 0 < s.flow ∨ s.indent ≤ s.mark.column
  · rw [closeBlocks_of_le hstays]
    exact ⟨h, fun hflow => hmark ▸ hstays.resolve_left (by omega)⟩
  · obtain ⟨hflow, hdeep⟩ := not_or.mp hstays
    have hnone : ∀ k ∈ blockKey? s.keys, False := fun k hk =>
      hdeep (hmark ▸ h.grounded.indent_le h.inOrder h.here h.fresh hk)
    have hcases := @closeFrom_cases s.mark.column s.indents s rfl (by
      rw [h.grounded.floor]
      intro low hlow
      cases hlow
      omega)
    obtain ⟨⟨t, ht, hkind⟩, hindent⟩ := hcases.resolve_left fun hsame => hdeep hsame.2
    have hfloor := closeBlocks_floor s s.mark.column
    have horder := h.inOrder.closeBlocks s.mark.column
    obtain ⟨ends, ind, ins, hclose, hends, -⟩ := s.closeBlocks_ends s.mark.column
    have hfrom : s.closeBlocks s.mark.column = closeFrom s.mark.column s.indents s := if_neg hflow
    rw [← hfrom] at ht hindent
    rw [hclose] at ht hindent hfloor horder ⊢
    have hnot (u : Token) (hu : u ∈ ends) : u.kind ≠ .blockMappingStart := by
      rw [hends u hu]
      exact TokenKind.noConfusion
    refine ⟨⟨h.grounded.appendEnds h.last hnot rfl h.grounded.levels hfloor
      fun k hk => (hnone k hk).elim, horder, h.here, h.within, h.hash, h.fresh, ?_, ?_, ?_⟩,
      fun _ => hmark ▸ hindent⟩
    · intro k hk
      have hcounted : k.token ≤ s.queue.length := (h.inOrder.tokens.fits k hk).counted
      show ∀ t ∈ ((s.queue ++ ends).take k.token).getLast?, t.kind ≠ .blockMappingStart
      rw [List.take_append_of_le_length hcounted]
      exact h.apart k hk
    · intro u hu
      rw [Option.mem_unique hu ht, hkind]
      exact TokenKind.noConfusion
    · refine fun _ _ => Or.inr fun u hu => .of_isSettled ?_
      rw [Option.mem_unique hu ht, hkind]
      rfl

end Scanner

end Blueprint.Yaml
