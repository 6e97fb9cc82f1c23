import Blueprint.Proofs.ForwardReading
import Mathlib.Data.Nat.Basic
import Mathlib.Order.Basic

/-!
Tokens wait in the order of the text. A key that is recognized late is put before the tokens read
since it began, which is where it belongs.
-/

namespace Blueprint

/-- The first position is not after the second one, neither in characters nor in lines. -/
def Mark.NotAfter (a b : Mark) : Prop :=
  a.index ≤ b.index ∧ a.line ≤ b.line

theorem Mark.NotAfter.refl (a : Mark) : a.NotAfter a :=
  ⟨le_rfl, le_rfl⟩

theorem Mark.NotAfter.trans {a b c : Mark} (h : a.NotAfter b) (h' : b.NotAfter c) :
    a.NotAfter c :=
  ⟨h.1.trans h'.1, h.2.trans h'.2⟩

namespace Yaml

theorem notAfter_past (d : Dialect) (c : Char) (r : List Char) (m : Mark) :
    m.NotAfter (d.past c r m) := by
  unfold Dialect.past
  dsimp only
  split
  · exact ⟨Nat.le_add_right _ _, Nat.le_add_right _ _⟩
  · split
    · split
      · exact ⟨Nat.le_add_right _ _, le_rfl⟩
      · exact ⟨Nat.le_add_right _ _, Nat.le_add_right _ _⟩
    · exact ⟨Nat.le_add_right _ _, le_rfl⟩

theorem notAfter_advance (d : Dialect) (c : Cursor) : c.mark.NotAfter (c.advance d).mark := by
  unfold Cursor.advance
  split
  · exact notAfter_past d _ _ _
  · exact notAfter_past d _ _ _

theorem Cursor.Reaches.notAfter {d : Dialect} {a b : Cursor} (h : a.Reaches d b) :
    a.mark.NotAfter b.mark := by
  obtain ⟨n, rfl⟩ := h
  induction n generalizing a with
  | zero => exact .refl _
  | succ n ih => exact (notAfter_advance d a).trans ih

/-- The order of two tokens. The start of a block mapping may stand at its first colon, on the line
of its first key. -/
def Token.MayPrecede (a b : Token) : Prop :=
  a.mark.line ≤ b.mark.line ∧ (a.kind = .blockMappingStart ∨ a.mark.index ≤ b.mark.index)

theorem Token.mayPrecede_of_notAfter {a b : Token} (h : a.mark.NotAfter b.mark) :
    a.MayPrecede b :=
  ⟨h.2, Or.inr h.1⟩

/-- A saved key stands between the tokens before it and those read since it began; `first` is the
number of the first token that has not been handed out. -/
structure KeyFits (P : Token → Prop) (first : Nat) (ts : List Token) (here : Mark)
    (k : SimpleKey) : Prop where
  waiting : first ≤ k.token
  counted : k.token ≤ ts.length
  placed : P ⟨.key, k.mark⟩
  before : ∀ t ∈ ts.take k.token, t.mark.NotAfter k.mark
  after : ∀ t ∈ ts.drop k.token, k.mark.NotAfter t.mark
  behind : k.mark.NotAfter here

/-- The tokens read up to `here` are in order and satisfy `P`, and the saved keys, the innermost
first, fit among them. -/
structure TokensInOrder (P : Token → Prop) (first : Nat) (ts : List Token) (here : Mark)
    (ks : List SimpleKey) : Prop where
  sorted : ts.Pairwise Token.MayPrecede
  behind : ∀ t ∈ ts, t.mark.NotAfter here
  placed : ∀ t ∈ ts, P t
  fits : ∀ k ∈ ks, KeyFits P first ts here k
  nested : ks.Pairwise fun k outer => outer.token ≤ k.token ∧ outer.mark.NotAfter k.mark

namespace TokensInOrder

variable {P : Token → Prop} {first : Nat} {ts : List Token} {here here' : Mark}
  {ks ks' : List SimpleKey}

theorem moved (h : TokensInOrder P first ts here ks) (hm : here.NotAfter here') :
    TokensInOrder P first ts here' ks where
  sorted := h.sorted
  behind t ht := (h.behind t ht).trans hm
  placed := h.placed
  fits k hk := { h.fits k hk with behind := (h.fits k hk).behind.trans hm }
  nested := h.nested

theorem sublist (h : TokensInOrder P first ts here ks) (hs : ks'.Sublist ks) :
    TokensInOrder P first ts here ks' where
  sorted := h.sorted
  behind := h.behind
  placed := h.placed
  fits k hk := h.fits k (hs.subset hk)
  nested := h.nested.sublist hs

theorem take_insert {n : Nat} (hn : n ≤ ts.length) (t : Token) :
    (ts.take n ++ t :: ts.drop n).take n = ts.take n := by
  rw [List.take_append_of_le_length (by rw [List.length_take]; omega), List.take_take, Nat.min_self]

theorem drop_insert {n : Nat} (hn : n ≤ ts.length) (t : Token) :
    (ts.take n ++ t :: ts.drop n).drop n = t :: ts.drop n := by
  rw [List.drop_append_of_le_length (by rw [List.length_take]; omega), List.drop_take,
    Nat.sub_self, List.take_zero, List.nil_append]

theorem mem_take_insert {n m : Nat} {t u : Token} (hm : m ≤ n) (hn : n ≤ ts.length)
    (hu : u ∈ (ts.take n ++ t :: ts.drop n).take m) : u ∈ ts.take m := by
  have hl : m ≤ (ts.take n).length := by simp only [List.length_take]; omega
  rw [List.take_append_of_le_length hl, List.take_take, Nat.min_eq_left hm] at hu
  exact hu

theorem mem_drop_insert {n m : Nat} {t u : Token} (hm : m ≤ n) (hn : n ≤ ts.length)
    (hu : u ∈ (ts.take n ++ t :: ts.drop n).drop m) : u ∈ ts.drop m ∨ u = t := by
  have hl : m ≤ (ts.take n).length := by simp only [List.length_take]; omega
  rw [List.drop_append_of_le_length hl, List.mem_append, List.mem_cons] at hu
  rcases hu with hu | rfl | hu
  · rw [← List.take_append_drop n ts, List.drop_append_of_le_length hl]
    exact Or.inl (List.mem_append_left _ hu)
  · exact Or.inr rfl
  · rw [← List.take_append_drop n ts, List.drop_append_of_le_length hl]
    exact Or.inl (List.mem_append_right _ hu)

/-- A token put in at a place between its predecessors and its successors keeps the order, if no
saved key lies behind that place. -/
theorem insert (h : TokensInOrder P first ts here ks) {n : Nat} {t : Token} (hn : n ≤ ts.length)
    (hp : P t) (hb : t.mark.NotAfter here)
    (before : ∀ a ∈ ts.take n, a.MayPrecede t) (after : ∀ b ∈ ts.drop n, t.MayPrecede b)
    (keys : ∀ k ∈ ks, k.token ≤ n ∧ k.mark.NotAfter t.mark) :
    TokensInOrder P first (ts.take n ++ t :: ts.drop n) here ks := by
  have split : ∀ u ∈ ts.take n ++ t :: ts.drop n, u = t ∨ u ∈ ts := by
    intro u hu
    rcases List.mem_append.mp hu with hu | hu
    · exact Or.inr (List.mem_of_mem_take hu)
    · rcases List.mem_cons.mp hu with rfl | hu
      · exact Or.inl rfl
      · exact Or.inr (List.mem_of_mem_drop hu)
  refine ⟨?_, ?_, ?_, ?_, h.nested⟩
  · have hs := h.sorted
    rw [← List.take_append_drop n ts, List.pairwise_append] at hs
    refine List.pairwise_append.mpr ⟨hs.1, List.pairwise_cons.mpr ⟨after, hs.2.1⟩, ?_⟩
    intro a ha b hb
    rcases List.mem_cons.mp hb with rfl | hb
    · exact before a ha
    · exact hs.2.2 a ha b hb
  · intro u hu
    rcases split u hu with rfl | hu
    · exact hb
    · exact h.behind u hu
  · intro u hu
    rcases split u hu with rfl | hu
    · exact hp
    · exact h.placed u hu
  · intro k hk
    obtain ⟨hkn, hkt⟩ := keys k hk
    have fit := h.fits k hk
    refine ⟨fit.waiting, ?_, fit.placed, ?_, ?_, fit.behind⟩
    · simp only [List.length_append, List.length_take, List.length_cons, List.length_drop]
      omega
    · intro u hu
      exact fit.before u (mem_take_insert hkn hn hu)
    · intro u hu
      rcases mem_drop_insert hkn hn hu with hu | rfl
      · exact fit.after u hu
      · exact hkt

/-- A token that starts at or after the place reached is put at the end. -/
theorem push (h : TokensInOrder P first ts here ks) {t : Token} (hp : P t)
    (ht : here.NotAfter t.mark) (hm : t.mark.NotAfter here') :
    TokensInOrder P first (ts ++ [t]) here' ks := by
  have h' := (h.moved (ht.trans hm)).insert (n := ts.length) le_rfl hp hm
    (fun a ha => Token.mayPrecede_of_notAfter
      ((h.behind a (List.mem_of_mem_take ha)).trans ht))
    (fun b hb => by simp at hb)
    (fun k hk => ⟨(h.fits k hk).counted, (h.fits k hk).behind.trans ht⟩)
  simpa using h'

/-- A key may begin at the place reached, before the next token. -/
theorem save (h : TokensInOrder P first ts here ks) {k : SimpleKey} (hf : first ≤ ts.length)
    (hk : k.token = ts.length) (hm : k.mark = here) (hp : P ⟨.key, here⟩) :
    TokensInOrder P first ts here (k :: ks) := by
  refine ⟨h.sorted, h.behind, h.placed, ?_, List.pairwise_cons.mpr ⟨?_, h.nested⟩⟩
  · intro j hj
    rcases List.mem_cons.mp hj with rfl | hj
    · refine ⟨by omega, by omega, hm ▸ hp, ?_, ?_, hm ▸ .refl _⟩
      · intro t ht
        exact hm ▸ h.behind t (List.mem_of_mem_take ht)
      · intro t ht
        simp [hk] at ht
    · exact h.fits j hj
  · intro j hj
    exact ⟨hk ▸ (h.fits j hj).counted, hm ▸ (h.fits j hj).behind⟩

/-- A saved key on the line reached is recognized: its mark stands before its first token. -/
theorem insertKey {k : SimpleKey} (h : TokensInOrder P first ts here (k :: ks)) :
    TokensInOrder P first (ts.take k.token ++ ⟨.key, k.mark⟩ :: ts.drop k.token) here ks := by
  have fit := h.fits k (by simp)
  exact (h.sublist (List.sublist_cons_self k ks)).insert fit.counted fit.placed fit.behind
    (fun a ha => Token.mayPrecede_of_notAfter (fit.before a ha))
    (fun b hb => Token.mayPrecede_of_notAfter (fit.after b hb))
    (fun j hj => (List.pairwise_cons.mp h.nested).1 j hj)

/-- The mapping that a saved key opens starts before the key, at the colon on its line. -/
theorem insertMapping {k : SimpleKey} (h : TokensInOrder P first ts here (k :: ks))
    (hl : here.line ≤ k.mark.line) (hp : P ⟨.blockMappingStart, here⟩) :
    TokensInOrder P first
      (ts.take k.token ++ ⟨.blockMappingStart, here⟩ :: ⟨.key, k.mark⟩ :: ts.drop k.token)
      here ks := by
  have fit := h.fits k (by simp)
  have hk := h.insertKey
  have counted : k.token ≤ (ts.take k.token ++ ⟨.key, k.mark⟩ :: ts.drop k.token).length := by
    have := fit.counted
    simp only [List.length_append, List.length_take, List.length_cons]
    omega
  have h' := hk.insert (t := ⟨.blockMappingStart, here⟩) counted hp (.refl here)
    (fun a ha => Token.mayPrecede_of_notAfter (hk.behind a (List.mem_of_mem_take ha)))
    (fun b hb => ?_)
    (fun j hj => ⟨((List.pairwise_cons.mp h.nested).1 j hj).1, (hk.fits j hj).behind⟩)
  · rwa [take_insert fit.counted, drop_insert fit.counted] at h'
  · rw [drop_insert fit.counted] at hb
    refine ⟨?_, Or.inl rfl⟩
    rcases List.mem_cons.mp hb with rfl | hb
    · exact hl
    · exact hl.trans (fit.after b hb).2

end TokensInOrder

end Yaml

end Blueprint
