import Blueprint.Proofs.TokenReading
import Mathlib.Data.List.Chain

/-!
The tokens that wait and the text that has been read as each of them. What is read as one token ends
before the next one, and a key that is recognized late does not come in between.
-/

namespace Blueprint.Yaml

/-- A token and the index just past the text that has been read as it. -/
structure Reading where
  token : Token
  stop : Nat
deriving DecidableEq

/-- The character at an index is part of a scalar's content. -/
def Reading.Holds (r : Reading) (i : Nat) : Prop :=
  r.token.kind.style?.isSome ∧ r.token.mark.index ≤ i ∧ i < r.stop

instance (r : Reading) (i : Nat) : Decidable (r.Holds i) :=
  inferInstanceAs (Decidable (_ ∧ _))

/-- How many characters of a token's own text hold no `#`. -/
def TokenKind.reach (k : TokenKind) : Nat :=
  if k.isDocumentMark then 3 else 1

/-- No `#` stands where a token starts, unless its text is that of a block scalar. -/
def Token.Bare (text : List Char) (t : Token) : Prop :=
  t.kind ≠ .streamStart → t.kind.isBlockScalar = false →
    ∀ i < t.kind.reach, charAt text (t.mark.index + i) ≠ '#'

theorem Token.Bare.of_character {text : List Char} {t : Token} (hreach : t.kind.reach = 1)
    (hbare : charAt text t.mark.index ≠ '#') : t.Bare text := by
  intro _ _ i hi
  rw [hreach] at hi
  rw [Nat.lt_one_iff.mp hi]
  exact hbare

theorem TokenKind.reach_of_isWord {k : TokenKind} (h : k.isWord = true) : k.reach = 1 := by
  cases k <;> first | rfl | cases h

theorem TokenKind.reach_of_isDirective {k : TokenKind} (h : k.isDirective = true) :
    k.reach = 1 := by
  cases k <;> first | rfl | cases h

section Spelling

variable {text : List Char} {a b : Nat} {t : Token}

theorem Spells.lt (h : Spells text a t b) : a < b := by
  cases h with
  | plain hlt => exact hlt
  | quoted hlt _ => exact hlt
  | block _ hac hcb => exact hac.trans_le hcb
  | documentMark _ _ => exact Nat.lt_add_of_pos_right (by decide)
  | word _ hlt _ => exact hlt
  | directive _ hlt _ => exact hlt

theorem Spells.start (h : Spells text a t b) : a ≤ t.mark.index := by
  cases h with
  | plain _ => exact Nat.le_of_eq placeAt_index.symm
  | quoted _ _ => exact Nat.le_of_eq placeAt_index.symm
  | block _ hac _ => exact (Nat.le_of_lt hac).trans (Nat.le_of_eq placeAt_index.symm)
  | documentMark _ _ => exact Nat.le_of_eq placeAt_index.symm
  | word _ _ _ => exact Nat.le_of_eq placeAt_index.symm
  | directive _ _ _ => exact Nat.le_of_eq placeAt_index.symm

/-- The same token is not read twice. -/
theorem Spells.not_earlier {c d n : Nat} (h : Spells text a t b) (hna : n ≤ a)
    (hearlier : Spells text c t d) (hdn : d ≤ n) : False := by
  have hstart := h.start
  cases hearlier with
  | plain hlt => rw [placeAt_index] at hstart; omega
  | quoted hlt _ => rw [placeAt_index] at hstart; omega
  | @block s style e _ hstyle hce hed =>
    generalize ht : (⟨.scalar s style, (placeAt text e).mark⟩ : Token) = t at h hstart
    have hindex : t.mark.index = e := by rw [← ht, placeAt_index]
    cases h with
    | @block _ _ k _ _ hak _ =>
      rw [placeAt_index] at hindex
      omega
    | plain _ => rcases hstyle with rfl | rfl <;> cases ht
    | @quoted _ single _ _ _ => rcases hstyle with rfl | rfl <;> cases single <;> cases ht
    | @documentMark kind hkind _ =>
      obtain rfl : _ = kind := congrArg Token.kind ht
      cases hkind
    | @word kind _ hkind _ _ =>
      obtain rfl : _ = kind := congrArg Token.kind ht
      cases hkind
    | @directive kind _ hkind _ _ =>
      obtain rfl : _ = kind := congrArg Token.kind ht
      cases hkind
  | documentMark _ _ => rw [placeAt_index] at hstart; omega
  | word _ hlt _ => rw [placeAt_index] at hstart; omega
  | directive _ hlt _ => rw [placeAt_index] at hstart; omega

theorem Spells.bare (h : Spells text a t b) (hhash : charAt text a ≠ '#') : t.Bare text := by
  cases h with
  | plain _ => exact .of_character rfl (by rwa [placeAt_index])
  | @quoted _ single _ _ _ => exact .of_character (by cases single <;> rfl) (by rwa [placeAt_index])
  | block hstyle _ _ =>
    intro _ hblock
    rcases hstyle with rfl | rfl <;> cases hblock
  | documentMark hkind hmark =>
    intro _ _ i hi
    rw [TokenKind.reach, hkind, if_pos rfl] at hi
    rw [placeAt_index]
    exact hmark i hi
  | word hkind _ _ => exact .of_character (TokenKind.reach_of_isWord hkind) (by rwa [placeAt_index])
  | directive hkind _ _ =>
    exact .of_character (TokenKind.reach_of_isDirective hkind) (by rwa [placeAt_index])

theorem Spells.kind (h : Spells text a t b) :
    t.kind ≠ .blockMappingStart ∧ t.kind ≠ .streamEnd := by
  cases h with
  | plain _ => exact ⟨TokenKind.noConfusion, TokenKind.noConfusion⟩
  | quoted _ _ => exact ⟨TokenKind.noConfusion, TokenKind.noConfusion⟩
  | block _ _ _ => exact ⟨TokenKind.noConfusion, TokenKind.noConfusion⟩
  | documentMark hkind _ =>
    refine ⟨?_, ?_⟩ <;> rintro rfl <;> cases hkind
  | word hkind _ _ =>
    refine ⟨?_, ?_⟩ <;> rintro rfl <;> cases hkind
  | directive hkind _ _ =>
    refine ⟨?_, ?_⟩ <;> rintro rfl <;> cases hkind

end Spelling

/-- The start of a block mapping is followed by its first key, which may stand before it, or by a
colon where it stands. -/
def Token.Leads (t u : Token) : Prop :=
  t.kind = .blockMappingStart →
    u.kind ≠ .blockMappingStart ∧ u.mark.index ≤ t.mark.index ∧
      (u.kind = .key ∨ u.mark.index = t.mark.index)

/-- A key that is put in, and what stands before it, does not leave the start of a block mapping at the
end. -/
theorem insertKey_last {ts starts : List Token} {n : Nat} {m : Mark}
    (h : ∀ t ∈ ts.getLast?, t.kind ≠ .blockMappingStart) :
    ∀ t ∈ (ts.take n ++ (starts ++ ⟨.key, m⟩ :: ts.drop n)).getLast?,
      t.kind ≠ .blockMappingStart := by
  intro t ht
  rw [List.getLast?_append, List.getLast?_append, List.getLast?_cons, List.getLast?_drop] at ht
  split at ht
  · cases ht
    exact TokenKind.noConfusion
  · cases hlast : ts.getLast? with
    | none =>
      rw [hlast] at ht
      cases ht
      exact TokenKind.noConfusion
    | some u =>
      rw [hlast] at ht
      cases ht
      exact h u hlast

/-- The tokens after that of a reading, and the keys among them, start where it stops or later. -/
def Reading.Placed (r : Reading) (ts : List Token) (ks : List SimpleKey) (here : Nat) : Prop :=
  ∃ pre post, ts = pre ++ r.token :: post ∧ (∀ u ∈ post, r.stop ≤ u.mark.index) ∧ r.stop ≤ here ∧
    ∀ k ∈ ks, k.token ≤ pre.length ∨ (pre.length < k.token ∧ r.stop ≤ k.mark.index)

namespace Reading.Placed

variable {r : Reading} {ts new : List Token} {ks ks' : List SimpleKey} {n m : Nat}

theorem keys (h : r.Placed ts ks n)
    (hks : ∀ k ∈ ks', k ∈ ks ∨ (k.token = ts.length ∧ n ≤ k.mark.index)) : r.Placed ts ks' n := by
  obtain ⟨pre, post, hts, hpost, hstop, hkeys⟩ := h
  refine ⟨pre, post, hts, hpost, hstop, ?_⟩
  intro k hk
  rcases hks k hk with hk | ⟨hnumber, hmark⟩
  · exact hkeys k hk
  · refine Or.inr ⟨?_, hstop.trans hmark⟩
    rw [hnumber, hts, List.length_append, List.length_cons]
    omega

theorem append (h : r.Placed ts ks n) (hnew : ∀ u ∈ new, n ≤ u.mark.index) (hm : n ≤ m) :
    r.Placed (ts ++ new) ks m := by
  obtain ⟨pre, post, hts, hpost, hstop, hkeys⟩ := h
  refine ⟨pre, post ++ new, by rw [hts, List.append_assoc]; rfl, ?_, hstop.trans hm, hkeys⟩
  intro u hu
  rcases List.mem_append.mp hu with hu | hu
  · exact hpost u hu
  · exact hstop.trans (hnew u hu)

/-- Tokens put in before a key that is recognized stand before or after a reading as the key does. -/
theorem insert {k : SimpleKey} (h : r.Placed ts ks n) (hk : k ∈ ks) (hcounted : k.token ≤ ts.length)
    (hnew : ∀ u ∈ new, u.mark = k.mark ∨ n ≤ u.mark.index)
    (hks : ∀ j ∈ ks', j ∈ ks ∧ j.token ≤ k.token) :
    r.Placed (ts.take k.token ++ (new ++ ts.drop k.token)) ks' n := by
  obtain ⟨pre, post, hts, hpost, hstop, hkeys⟩ := h
  have hlength : (ts.take k.token).length = k.token := by
    rw [List.length_take, Nat.min_eq_left hcounted]
  have hparts : ts.take k.token ++ ts.drop k.token = pre ++ r.token :: post := by
    rw [List.take_append_drop, hts]
  have hfront {mid : List Token} (hdrop : ts.drop k.token = mid ++ r.token :: post) :
      r.Placed (ts.take k.token ++ (new ++ ts.drop k.token)) ks' n := by
    refine ⟨ts.take k.token ++ (new ++ mid), post, ?_, hpost, hstop, ?_⟩
    · rw [hdrop]
      simp only [List.append_assoc]
    · intro j hj
      left
      rw [List.length_append, hlength]
      exact (hks j hj).2.trans (Nat.le_add_right _ _)
  rcases List.append_eq_append_iff.mp hparts with ⟨mid, _, hdrop⟩ | ⟨mid, htake, hdrop⟩
  · exact hfront hdrop
  · cases mid with
    | nil => exact @hfront [] hdrop.symm
    | cons x mid =>
      obtain ⟨hx, hback⟩ := List.cons.inj hdrop
      have hbehind : r.stop ≤ k.mark.index := by
        have hlong := congrArg List.length htake
        rw [hlength, List.length_append, List.length_cons] at hlong
        rcases hkeys k hk with hle | ⟨_, hle⟩
        · omega
        · exact hle
      refine ⟨pre, mid ++ (new ++ ts.drop k.token), ?_, ?_, hstop, fun j hj => hkeys j (hks j hj).1⟩
      · rw [htake, hx, List.append_assoc]
        rfl
      · intro u hu
        rcases List.mem_append.mp hu with hu | hu
        · exact hpost u (hback ▸ List.mem_append_left _ hu)
        · rcases List.mem_append.mp hu with hu | hu
          · rcases hnew u hu with heq | hle
            · rw [heq]
              exact hbehind
            · exact hstop.trans hle
          · exact hpost u (hback ▸ List.mem_append_right _ hu)

end Reading.Placed

/-- Tokens without a text of their own are put in. -/
theorem pairwise_once_insert {front mid back : List Token}
    (h : (front ++ back).Pairwise fun t u => t.kind.isBare = false → t ≠ u)
    (hmid : ∀ t ∈ mid, t.kind.isBare = true) :
    (front ++ (mid ++ back)).Pairwise fun t u => t.kind.isBare = false → t ≠ u := by
  have hbare {t u : Token} (ht : t ∈ mid) (hu : u.kind.isBare = false) : u ≠ t := by
    rintro rfl
    rw [hmid u ht] at hu
    cases hu
  obtain ⟨hfront, hback, hcross⟩ := List.pairwise_append.mp h
  refine List.pairwise_append.mpr ⟨hfront, List.pairwise_append.mpr ⟨?_, hback, ?_⟩, ?_⟩
  · exact List.pairwise_of_forall_mem_list fun t ht u hu hkind => hbare hu hkind
  · intro t ht u _ hkind
    rw [hmid t ht] at hkind
    cases hkind
  · intro t ht u hu hkind
    rcases List.mem_append.mp hu with hu | hu
    · exact hbare hu hkind
    · exact hcross t ht u hu hkind

/-- The text up to `n` is accounted for: the tokens that wait are those of the readings `rs`, with the
marks of keys and blocks at their places among them. -/
structure Surveyed (text : List Char) (rs : List Reading) (ts : List Token) (ks : List SimpleKey)
    (n : Nat) : Prop where
  read : ∀ t ∈ ts, t.kind.isBare = false → ∃ r ∈ rs, r.token = t
  spelt : ∀ r ∈ rs, r.token.kind.isBare = false → ∃ a, Spells text a r.token r.stop
  placed : ∀ r ∈ rs, r.Placed ts ks n
  bare : ∀ t ∈ ts, t.Bare text
  leads : ts.IsChain Token.Leads
  last : ∀ t ∈ ts.getLast?, t.kind ≠ .blockMappingStart
  keysBare : ∀ k ∈ ks, charAt text k.mark.index ≠ '#'
  keysApart : ∀ k ∈ ks, ∀ t ∈ (ts.take k.token).getLast?, t.kind ≠ .blockMappingStart
  once : ts.Pairwise fun t u => t.kind.isBare = false → t ≠ u

namespace Surveyed

variable {text : List Char} {rs extra : List Reading} {ts new : List Token}
  {ks ks' : List SimpleKey} {n m : Nat}

theorem keys (h : Surveyed text rs ts ks n) (hks : ∀ k ∈ ks', k ∈ ks) :
    Surveyed text rs ts ks' n :=
  { h with
    placed := fun r hr => (h.placed r hr).keys fun k hk => Or.inl (hks k hk)
    keysBare := fun k hk => h.keysBare k (hks k hk)
    keysApart := fun k hk => h.keysApart k (hks k hk) }

/-- Tokens that are put at the end, the last one with its reading. -/
theorem append (h : Surveyed text rs ts ks n) (hcounted : ∀ k ∈ ks, k.token ≤ ts.length)
    (hnew : ∀ u ∈ new, n ≤ u.mark.index ∧ u.Bare text ∧
      (u.kind.isBare = false → ∃ r ∈ extra, r.token = u))
    (hchain : new.IsChain Token.Leads) (hlast : ∀ t ∈ new.getLast?, t.kind ≠ .blockMappingStart)
    (honce : new.Pairwise fun t u => t.kind.isBare = false → t ≠ u)
    (hextra : ∀ r ∈ extra, (∃ pre, new = pre ++ [r.token]) ∧ r.stop ≤ m ∧
      (r.token.kind.isBare = false → ∃ a, n ≤ a ∧ Spells text a r.token r.stop))
    (hkeys : ∀ k ∈ ks', k ∈ ks ∨
      (k.token = ts.length ∧ n ≤ k.mark.index ∧ charAt text k.mark.index ≠ '#'))
    (hm : n ≤ m) : Surveyed text (rs ++ extra) (ts ++ new) ks' m where
  read t ht hkind := by
    rcases List.mem_append.mp ht with ht | ht
    · obtain ⟨r, hr, heq⟩ := h.read t ht hkind
      exact ⟨r, List.mem_append_left _ hr, heq⟩
    · obtain ⟨r, hr, heq⟩ := (hnew t ht).2.2 hkind
      exact ⟨r, List.mem_append_right _ hr, heq⟩
  spelt r hr hkind := by
    rcases List.mem_append.mp hr with hr | hr
    · exact h.spelt r hr hkind
    · obtain ⟨a, -, hspells⟩ := (hextra r hr).2.2 hkind
      exact ⟨a, hspells⟩
  placed r hr := by
    rcases List.mem_append.mp hr with hr | hr
    · refine Reading.Placed.append ((h.placed r hr).keys ?_) (fun u hu => (hnew u hu).1) hm
      exact fun k hk => (hkeys k hk).imp_right fun hk => ⟨hk.1, hk.2.1⟩
    · obtain ⟨⟨pre, hpre⟩, hstop, _⟩ := hextra r hr
      refine ⟨ts ++ pre, [], by rw [hpre, List.append_assoc], ?_, hstop, ?_⟩
      · intro u hu
        cases hu
      · intro k hk
        left
        rw [List.length_append]
        rcases hkeys k hk with hk | ⟨hnumber, _⟩
        · exact (hcounted k hk).trans (Nat.le_add_right _ _)
        · exact hnumber ▸ Nat.le_add_right _ _
  bare t ht := by
    rcases List.mem_append.mp ht with ht | ht
    · exact h.bare t ht
    · exact (hnew t ht).2.1
  leads := List.isChain_append.mpr
    ⟨h.leads, hchain, fun t ht _ _ hstart => absurd hstart (h.last t ht)⟩
  last t ht := by
    rw [List.getLast?_append] at ht
    rcases Option.or_eq_some_iff.mp ht with ht | ⟨_, ht⟩
    · exact hlast t ht
    · exact h.last t ht
  keysBare k hk := by
    rcases hkeys k hk with hk | ⟨_, _, hbare⟩
    · exact h.keysBare k hk
    · exact hbare
  keysApart k hk t ht := by
    rcases hkeys k hk with hk | ⟨hnumber, _⟩
    · rw [List.take_append_of_le_length (hcounted k hk)] at ht
      exact h.keysApart k hk t ht
    · rw [hnumber, List.take_left] at ht
      exact h.last t ht
  once := by
    refine List.pairwise_append.mpr ⟨h.once, honce, fun t ht u hu hkind => ?_⟩
    rintro rfl
    -- A token is read from a text of its own, which a second one cannot share.
    obtain ⟨-, -, hread⟩ := hnew t hu
    obtain ⟨r, hr, rfl⟩ := hread hkind
    obtain ⟨a, hna, hspells⟩ := (hextra r hr).2.2 hkind
    obtain ⟨q, hq, hsame⟩ := h.read r.token ht hkind
    obtain ⟨c, hearlier⟩ := h.spelt q hq (hsame ▸ hkind)
    obtain ⟨-, -, -, -, hstop, -⟩ := h.placed q hq
    rw [hsame] at hearlier
    exact hspells.not_earlier hna hearlier hstop

/-- A key that is recognized is put in at its place, with the block that it opens before it. -/
theorem insert {k : SimpleKey} {starts : List Token} (h : Surveyed text rs ts ks n) (hk : k ∈ ks)
    (hcounted : k.token ≤ ts.length) (hbehind : k.mark.index ≤ n)
    (hstarts : ∀ u ∈ starts, u.kind = .blockMappingStart ∧ n ≤ u.mark.index ∧
      charAt text u.mark.index ≠ '#')
    (hone : starts.length ≤ 1) (hks : ∀ j ∈ ks', j ∈ ks ∧ j.token ≤ k.token) :
    Surveyed text rs (ts.take k.token ++ (starts ++ ⟨.key, k.mark⟩ :: ts.drop k.token)) ks' n := by
  have hmem {t : Token}
      (ht : t ∈ ts.take k.token ++ (starts ++ ⟨.key, k.mark⟩ :: ts.drop k.token)) :
      t ∈ ts ∨ t ∈ starts ∨ t = ⟨.key, k.mark⟩ := by
    rcases List.mem_append.mp ht with ht | ht
    · exact Or.inl (List.mem_of_mem_take ht)
    · rcases List.mem_append.mp ht with ht | ht
      · exact Or.inr (Or.inl ht)
      · rcases List.mem_cons.mp ht with ht | ht
        · exact Or.inr (Or.inr ht)
        · exact Or.inl (List.mem_of_mem_drop ht)
  refine ⟨?_, h.spelt, ?_, ?_, ?_, ?_, fun j hj => h.keysBare j (hks j hj).1, ?_, ?_⟩
  · intro t ht hkind
    rcases hmem ht with ht | ht | rfl
    · exact h.read t ht hkind
    · rw [(hstarts t ht).1] at hkind
      cases hkind
    · cases hkind
  · intro r hr
    have hplaced : r.Placed (ts.take k.token ++ ((starts ++ [⟨.key, k.mark⟩]) ++
        ts.drop k.token)) ks' n := (h.placed r hr).insert hk hcounted ?_ hks
    · rwa [List.append_assoc] at hplaced
    · intro u hu
      rcases List.mem_append.mp hu with hu | hu
      · exact Or.inr (hstarts u hu).2.1
      · rw [List.mem_singleton.mp hu]
        exact Or.inl rfl
  · intro t ht
    rcases hmem ht with ht | ht | rfl
    · exact h.bare t ht
    · obtain ⟨kind, mark⟩ := t
      exact .of_character (by rw [(hstarts _ ht).1]; rfl) (hstarts _ ht).2.2
    · exact .of_character rfl (h.keysBare k hk)
  · refine List.isChain_append.mpr ⟨h.leads.take _, ?_, ?_⟩
    · have hkey : (⟨.key, k.mark⟩ :: ts.drop k.token).IsChain Token.Leads := by
        refine List.isChain_cons.mpr ⟨?_, h.leads.drop _⟩
        intro t _ hstart
        cases hstart
      cases starts with
      | nil => exact hkey
      | cons u rest =>
        have hrest : rest = [] := List.length_eq_zero_iff.mp (by simpa using hone)
        rw [hrest]
        refine List.isChain_cons_cons.mpr ⟨fun _ => ?_, hkey⟩
        exact ⟨TokenKind.noConfusion, hbehind.trans (hstarts u List.mem_cons_self).2.1, Or.inl rfl⟩
    · exact fun t ht _ _ hstart => absurd hstart (h.keysApart k hk t ht)
  · exact insertKey_last h.last
  · intro j hj t ht
    have hle := (hks j hj).2
    rw [List.take_append_of_le_length (by rw [List.length_take]; omega), List.take_take,
      Nat.min_eq_left hle] at ht
    exact h.keysApart j (hks j hj).1 t ht
  · have honce := h.once
    rw [← List.take_append_drop k.token ts] at honce
    have hinsert := @pairwise_once_insert _ (starts ++ [⟨.key, k.mark⟩]) _ honce fun u hu => ?_
    · rwa [List.append_assoc] at hinsert
    · rcases List.mem_append.mp hu with hu | hu
      · rw [(hstarts u hu).1]
        rfl
      · rw [List.mem_singleton.mp hu]
        rfl

end Surveyed

/-- The text of a token at its place among the others, which start where it stops or later. -/
theorem Surveyed.placed_at {text : List Char} {rs : List Reading} {ts front back : List Token}
    {ks : List SimpleKey} {n : Nat} {t : Token} (h : Surveyed text rs ts ks n)
    (hts : ts = front ++ t :: back) (hkind : t.kind.isBare = false) :
    ∃ a b, Spells text a t b ∧ ∀ u ∈ back, b ≤ u.mark.index := by
  obtain ⟨r, hr, rfl⟩ := h.read t (by rw [hts]; simp) hkind
  obtain ⟨a, hspells⟩ := h.spelt r hr hkind
  obtain ⟨pre, post, hparts, hpost, -⟩ := h.placed r hr
  refine ⟨a, r.stop, hspells, ?_⟩
  have honce := h.once
  rcases List.append_eq_append_iff.mp (hts.symm.trans hparts) with ⟨mid, -, hmid⟩ | ⟨mid, -, hmid⟩
  · cases mid with
    | nil => rwa [(List.cons.inj hmid).2]
    | cons v mid =>
      rw [hts, (List.cons.inj hmid).2] at honce
      exact absurd rfl ((List.pairwise_cons.mp (List.pairwise_append.mp honce).2.1).1 r.token
        (by simp) hkind)
  · cases mid with
    | nil => rwa [← (List.cons.inj hmid).2]
    | cons v mid =>
      rw [hparts, (List.cons.inj hmid).2] at honce
      exact absurd rfl ((List.pairwise_cons.mp (List.pairwise_append.mp honce).2.1).1 r.token
        (by simp) hkind)

theorem Adds.last {ts ts' : List Token} {ks ks' : List SimpleKey} {m : Mark} {t : Token}
    (h : Adds ts ks m t ts' ks') : ts'.getLast? = some t := by
  cases h with
  | push _ => exact List.getLast?_concat
  | opens _ _ => exact List.getLast?_append.trans rfl
  | save _ _ _ => exact List.getLast?_concat
  | recognize _ _ _ => exact List.getLast?_concat

namespace Surveyed

variable {text : List Char} {rs : List Reading} {ts ts' starts : List Token}
  {ks ks' : List SimpleKey} {a b : Nat} {t : Token}

/-- A token that is put at the end, perhaps behind the start of a block. -/
theorem appendToken (h : Surveyed text rs ts ks a) (hcounted : ∀ k ∈ ks, k.token ≤ ts.length)
    (hhash : charAt text a ≠ '#') (hspells : Spells text a t b)
    (hstarts : starts = [] ∨ ∃ kind, (kind = .blockSequenceStart ∨ kind = .blockMappingStart) ∧
      starts = [⟨kind, (placeAt text a).mark⟩] ∧ t.mark.index = a)
    (hkeys : ∀ k ∈ ks', k ∈ ks ∨ (k.token = ts.length ∧ k.mark = (placeAt text a).mark)) :
    Surveyed text (rs ++ [⟨t, b⟩]) (ts ++ (starts ++ [t])) ks' b := by
  have honce : (starts ++ [t]).Pairwise fun t u => t.kind.isBare = false → t ≠ u := by
    refine List.pairwise_append.mpr ⟨?_, List.pairwise_singleton _ _, ?_⟩ <;>
      rcases hstarts with rfl | ⟨kind, hkind, rfl, _⟩
    · exact .nil
    · exact List.pairwise_singleton _ _
    · exact fun _ hu => nomatch hu
    · intro u hu v _ hkind'
      rw [List.mem_singleton.mp hu] at hkind'
      rcases hkind with rfl | rfl <;> cases hkind'
  have hbare : charAt text (placeAt text a).mark.index ≠ '#' := by rwa [placeAt_index]
  have hreading {r} (hr : r ∈ [(⟨t, b⟩ : Reading)]) : r = ⟨t, b⟩ := List.mem_singleton.mp hr
  refine h.append hcounted ?_ ?_ ?_ honce ?_ ?_ (Nat.le_of_lt hspells.lt)
  · intro u hu
    rcases List.mem_append.mp hu with hu | hu
    · rcases hstarts with rfl | ⟨kind, hkind, rfl, _⟩
      · cases hu
      · rw [List.mem_singleton.mp hu]
        refine ⟨Nat.le_of_eq placeAt_index.symm, .of_character ?_ hbare, ?_⟩ <;>
          rcases hkind with rfl | rfl <;> first | rfl | exact fun h => nomatch h
    · rw [List.mem_singleton.mp hu]
      exact ⟨hspells.start, hspells.bare hhash, fun _ => ⟨⟨t, b⟩, List.mem_singleton_self _, rfl⟩⟩
  · rcases hstarts with rfl | ⟨kind, _, rfl, hindex⟩
    · exact List.isChain_singleton t
    · refine List.isChain_cons_cons.mpr ⟨?_, List.isChain_singleton t⟩
      have heq : t.mark.index = (placeAt text a).mark.index := hindex.trans placeAt_index.symm
      exact fun _ => ⟨hspells.kind.1, Nat.le_of_eq heq, Or.inr heq⟩
  · intro u hu
    rw [List.getLast?_concat] at hu
    cases hu
    exact hspells.kind.1
  · intro r hr
    rw [hreading hr]
    exact ⟨⟨starts, rfl⟩, le_rfl, fun _ => ⟨a, le_rfl, hspells⟩⟩
  · intro k hk
    refine (hkeys k hk).imp_right fun ⟨hnumber, hmark⟩ => ?_
    rw [hmark]
    exact ⟨hnumber, Nat.le_of_eq placeAt_index.symm, hbare⟩

/-- The token that is read next is accounted for. -/
theorem adds (h : Surveyed text rs ts ks a) (hcounted : ∀ k ∈ ks, k.token ≤ ts.length)
    (hbehind : ∀ k ∈ ks, k.mark.index ≤ a)
    (hnested : ks.Pairwise fun k outer => outer.token ≤ k.token) (hhash : charAt text a ≠ '#')
    (hspells : Spells text a t b) (hadds : Adds ts ks (placeAt text a).mark t ts' ks') :
    Surveyed text (rs ++ [⟨t, b⟩]) ts' ks' b := by
  cases hadds with
  | push hks =>
    exact h.appendToken hcounted hhash hspells (Or.inl rfl) fun k hk => Or.inl (hks.subset hk)
  | @opens start kind _ hopening hks =>
    show Surveyed text _ (ts ++ ([⟨start, (placeAt text a).mark⟩] ++ [_])) ks' b
    refine h.appendToken hcounted hhash hspells
      (Or.inr ⟨start, hopening.start, rfl, placeAt_index⟩) fun k hk => Or.inl (hks.subset hk)
  | save hnumber hmark hks =>
    refine h.appendToken hcounted hhash hspells (Or.inl rfl) ?_
    intro k hk
    rcases List.mem_cons.mp hk with rfl | hk
    · exact Or.inr ⟨hnumber, hmark⟩
    · exact Or.inl (hks.subset hk)
  | @recognize k r _ starts hk hstarts hks =>
    have hbare : charAt text (placeAt text a).mark.index ≠ '#' := by rwa [placeAt_index]
    have hmem : k ∈ ks := hk.subset List.mem_cons_self
    have hinner : ∀ j ∈ ks', j ∈ ks ∧ j.token ≤ k.token := fun j hj =>
      ⟨hk.subset (List.mem_cons_of_mem _ (hks.subset hj)),
        (List.pairwise_cons.mp (hnested.sublist hk)).1 j (hks.subset hj)⟩
    have hinsert : Surveyed text rs
        (ts.take k.token ++ (starts ++ ⟨.key, k.mark⟩ :: ts.drop k.token)) ks' a := by
      refine h.insert hmem (hcounted k hmem) (hbehind k hmem) ?_ ?_ hinner
      · rcases hstarts with rfl | rfl
        · exact fun _ hu => nomatch hu
        · intro u hu
          rw [List.mem_singleton.mp hu]
          exact ⟨rfl, Nat.le_of_eq placeAt_index.symm, hbare⟩
      · rcases hstarts with rfl | rfl
        · exact Nat.zero_le _
        · exact le_rfl
    refine hinsert.appendToken ?_ hhash hspells (Or.inl rfl) fun j hj => Or.inl hj
    intro j hj
    have hlong := hcounted k hmem
    have hle := (hinner j hj).2
    rw [List.length_append, List.length_take]
    omega

end Surveyed

end Blueprint.Yaml
