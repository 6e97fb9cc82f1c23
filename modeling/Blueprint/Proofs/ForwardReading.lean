import Blueprint.Yaml.Scanner
import Mathlib.Tactic.Common

/-!
Readers only move forward: the place at which a reader stops is reached from the place at which it
starts by passing over characters one at a time.
-/

namespace Blueprint

theorem bind_eq_ok {ε α β : Type} {x : Except ε α} {f : α → Except ε β} {b : β} :
    x >>= f = .ok b ↔ ∃ a, x = .ok a ∧ f a = .ok b := by
  cases x <;> simp [bind, Except.bind]

namespace Yaml

/-- The second place is reached from the first by passing over characters. -/
def Cursor.Reaches (d : Dialect) (a b : Cursor) : Prop :=
  ∃ n, b = a.skip d n

variable {d : Dialect} {a b c : Cursor}

theorem Cursor.skip_add (d : Dialect) (m n : Nat) (c : Cursor) :
    c.skip d (m + n) = (c.skip d m).skip d n := by
  induction m generalizing c with
  | zero => simp [Cursor.skip]
  | succ m ih =>
    rw [Nat.succ_add]
    exact ih (c.advance d)

theorem Cursor.Reaches.refl (d : Dialect) (c : Cursor) : c.Reaches d c :=
  ⟨0, rfl⟩

theorem Cursor.Reaches.trans (h : a.Reaches d b) (h' : b.Reaches d c) : a.Reaches d c := by
  obtain ⟨m, rfl⟩ := h
  obtain ⟨n, rfl⟩ := h'
  exact ⟨m + n, (Cursor.skip_add d m n a).symm⟩

theorem Cursor.reaches_skip (d : Dialect) (n : Nat) (c : Cursor) : c.Reaches d (c.skip d n) :=
  ⟨n, rfl⟩

theorem Cursor.reaches_advance (d : Dialect) (c : Cursor) : c.Reaches d (c.advance d) :=
  ⟨1, rfl⟩

/-- A reader that has passed over a character goes on from the place after it. -/
theorem Cursor.Reaches.of_past {x : Char} {r : List Char} {m : Mark}
    (h : (⟨r, d.past x r m⟩ : Cursor).Reaches d b) : (⟨x :: r, m⟩ : Cursor).Reaches d b :=
  (Cursor.reaches_advance d ⟨x :: r, m⟩).trans h

theorem takeFrom_reaches (d : Dialect) (p : Char → Bool) (s : List Char) (m : Mark) :
    (⟨s, m⟩ : Cursor).Reaches d (Cursor.takeFrom d p s m).2 := by
  induction s generalizing m with
  | nil => exact .refl d _
  | cons x r ih =>
    rw [Cursor.takeFrom]
    split
    · exact .of_past (ih _)
    · exact .refl d _

theorem takeWhile_reaches (d : Dialect) (p : Char → Bool) (c : Cursor) :
    c.Reaches d (c.takeWhile d p).2 :=
  takeFrom_reaches d p c.rest c.mark

theorem skipWhile_reaches (d : Dialect) (p : Char → Bool) (c : Cursor) :
    c.Reaches d (c.skipWhile d p) :=
  takeWhile_reaches d p c

theorem skipBreak_reaches (d : Dialect) (c : Cursor) : c.Reaches d (c.skipBreak d) := by
  unfold Cursor.skipBreak
  split
  · exact c.reaches_skip d 2
  · split
    · exact c.reaches_advance d
    · exact .refl d c

theorem skipComment_reaches (d : Dialect) (c : Cursor) : c.Reaches d (c.skipComment d) := by
  unfold Cursor.skipComment
  split
  · exact skipWhile_reaches d _ c
  · exact .refl d c

/-! Plain scalars. -/

theorem gap_read_reaches {start : Mark} {tabStop : Int} {g g' : Gap} {s : List Char} {m : Mark}
    (h : Gap.read d start tabStop g s m = .ok (g', b)) : (⟨s, m⟩ : Cursor).Reaches d b := by
  induction s generalizing g m with
  | nil =>
    cases h
    exact .refl d _
  | cons x r ih =>
    rw [Gap.read] at h
    split at h
    · split at h
      · cases h
      · exact .of_past (ih h)
    · split at h
      · split at h
        · exact .of_past (ih h)
        · exact .of_past (ih h)
      · cases h
        exact .refl d _

theorem plainWord_reaches {flow : Bool} {start : Mark} {word text : List Char} {s : List Char}
    {m : Mark} (h : plainWord d flow start word s m = .ok (text, b)) :
    (⟨s, m⟩ : Cursor).Reaches d b := by
  induction s generalizing word m with
  | nil =>
    cases h
    exact .refl d _
  | cons x r ih =>
    rw [plainWord] at h
    split at h
    · cases h
      exact .refl d _
    · split at h
      · cases h
      · split at h
        · cases h
          exact .refl d _
        · exact .of_past (ih h)

/-- A scalar starts at a place ahead, and what has been read stops at or after it. -/
def ScalarRead.From (d : Dialect) (c : Cursor) (r : ScalarRead) : Prop :=
  ∃ first, c.Reaches d first ∧ r.start = first.mark ∧ first.Reaches d r.stop

theorem ScalarRead.From.of_advance {r : ScalarRead} (h : r.From d (c.advance d)) : r.From d c := by
  obtain ⟨first, hfirst, hstart, hstop⟩ := h
  exact ⟨first, (c.reaches_advance d).trans hfirst, hstart, hstop⟩

theorem plainFrom_reaches {flow : Bool} {indent : Int} {start : Mark} {fuel : Nat}
    {text : List Char} {gap : Gap} {r : ScalarRead}
    (h : plainFrom d flow indent start fuel text gap c = .ok r) :
    r.start = start ∧ c.Reaches d r.stop := by
  induction fuel generalizing text gap c with
  | zero =>
    cases h
    exact ⟨rfl, .refl d c⟩
  | succ fuel ih =>
    rw [plainFrom] at h
    split at h
    · cases h
      exact ⟨rfl, .refl d c⟩
    · obtain ⟨⟨word, next⟩, hword, h⟩ := bind_eq_ok.mp h
      have toNext := plainWord_reaches hword
      dsimp only at h
      split at h
      · cases h
        exact ⟨rfl, toNext⟩
      · obtain ⟨⟨gap', after⟩, hgap, h⟩ := bind_eq_ok.mp h
        have toAfter := toNext.trans (gap_read_reaches hgap)
        dsimp only at h
        split at h
        · cases h
          exact ⟨rfl, toAfter⟩
        · obtain ⟨hs, ht⟩ := ih h
          exact ⟨hs, toAfter.trans ht⟩

theorem readPlain_from {flow : Bool} {indent : Int} {r : ScalarRead}
    (h : readPlain d flow indent c = .ok r) : r.From d c := by
  obtain ⟨hs, ht⟩ := plainFrom_reaches h
  exact ⟨c, .refl d c, hs, ht⟩

/-! Quoted scalars. -/

theorem readEscape_reaches {start : Mark} {x : Char} (h : readEscape d start c = .ok (x, b)) :
    c.Reaches d b := by
  unfold readEscape at h
  dsimp only at h
  split at h
  · cases h
    exact c.reaches_skip d 2
  · split at h
    · cases h
    · split at h
      · cases h
        exact (c.reaches_skip d 2).trans (Cursor.reaches_skip d _ _)
      · cases h
  · cases h

theorem quotedWord_reaches {single escaped : Bool} {start : Mark} {fuel : Nat}
    {word text : List Char} (h : quotedWord d single start fuel word c = .ok (text, escaped, b)) :
    c.Reaches d b := by
  induction fuel generalizing word c with
  | zero =>
    cases h
    exact .refl d _
  | succ fuel ih =>
    have step := c.reaches_advance d
    rw [quotedWord] at h
    split at h
    · cases h
      exact .refl d _
    · split at h
      · split at h
        · split at h
          · exact (c.reaches_skip d 2).trans (ih h)
          · cases h
            exact .refl d _
        · exact step.trans (ih h)
      · split at h
        · cases h
          exact .refl d _
        · split at h
          · split at h
            · cases h
              exact step.trans (skipBreak_reaches d _)
            · obtain ⟨⟨x, next⟩, hx, h⟩ := bind_eq_ok.mp h
              exact (readEscape_reaches hx).trans (ih h)
          · exact step.trans (ih h)

theorem quotedFrom_reaches {single : Bool} {start : Mark} {fuel : Nat} {text : List Char}
    {r : ScalarRead} (h : quotedFrom d single start fuel text c = .ok r) :
    r.start = start ∧ c.Reaches d r.stop := by
  induction fuel generalizing text c with
  | zero =>
    cases h
    exact ⟨rfl, .refl d _⟩
  | succ fuel ih =>
    rw [quotedFrom] at h
    split at h
    · cases h
    · split at h
      · cases h
      · obtain ⟨⟨text', escaped, next⟩, hword, h⟩ := bind_eq_ok.mp h
        have toNext := quotedWord_reaches hword
        dsimp only at h
        generalize (if single then '\'' else '"') = quote at h
        split at h
        · cases h
          exact ⟨rfl, toNext.trans (next.reaches_advance d)⟩
        · obtain ⟨⟨gap, after⟩, hgap, h⟩ := bind_eq_ok.mp h
          obtain ⟨hs, ht⟩ := ih h
          exact ⟨hs, (toNext.trans (gap_read_reaches hgap)).trans ht⟩

theorem readQuoted_from {single : Bool} {r : ScalarRead} (h : readQuoted d single c = .ok r) :
    r.From d c := by
  obtain ⟨hs, ht⟩ := quotedFrom_reaches h
  exact ⟨c, .refl d c, hs, (c.reaches_advance d).trans ht⟩

/-! Block scalars. -/

theorem indentation_reaches (d : Dialect) (indent : Nat) (s : List Char) (m : Mark) :
    (⟨s, m⟩ : Cursor).Reaches d (readLead.indentation d indent s m) := by
  induction s generalizing m with
  | nil => exact .refl d _
  | cons x r ih =>
    rw [readLead.indentation]
    split
    · exact .of_past (ih _)
    · exact .refl d _

theorem readLead_reaches {indent fuel : Nat} {lead lead' : BlockLead}
    (h : readLead d indent fuel lead = .ok lead') : lead.stop.Reaches d lead'.stop := by
  induction fuel generalizing lead with
  | zero =>
    cases h
    exact .refl d _
  | succ fuel ih =>
    have toContent := indentation_reaches d indent lead.stop.rest lead.stop.mark
    rw [readLead] at h
    split at h
    · cases h
    · split at h
      · exact toContent.trans ((skipBreak_reaches d _).trans (ih h))
      · cases h
        exact toContent

theorem blockLines_reaches {literal : Bool} {indent fuel : Nat} {text text' : BlockText}
    (h : blockLines d literal indent fuel text c = .ok (text', b)) : c.Reaches d b := by
  induction fuel generalizing text c with
  | zero =>
    cases h
    exact .refl d _
  | succ fuel ih =>
    rw [blockLines] at h
    split at h
    · have toStop := takeWhile_reaches d (fun x => !d.isBreakOrEnd x) c
      dsimp only at h
      split at h
      · cases h
        exact toStop
      · obtain ⟨lead, hlead, h⟩ := bind_eq_ok.mp h
        have toLead := (skipBreak_reaches d _).trans (readLead_reaches hlead)
        exact toStop.trans (toLead.trans (ih h))
    · cases h
      exact .refl d _

/-- The indentation indicator of a block scalar is one digit, if it is there. -/
theorem headerDigit_reaches {start : Mark} {increment : Nat}
    (h : (if c.first.isDigit then
        if c.first == '0' then fail .blockScalarIndent start
        else .ok (hexValue c.first, c.advance d)
      else .ok (0, c)) = Except.ok (increment, b)) : c.Reaches d b := by
  split at h
  · split at h
    · cases h
    · cases h
      exact c.reaches_advance d
  · cases h
    exact .refl d _

theorem readHeader_reaches {start : Mark} {chomp : Chomp} {increment : Nat}
    (h : readHeader d start c = .ok (chomp, increment, b)) : c.Reaches d b := by
  unfold readHeader at h
  dsimp only at h
  split at h
  · obtain ⟨⟨x, next⟩, hdigit, h⟩ := bind_eq_ok.mp h
    cases h
    exact (c.reaches_advance d).trans (headerDigit_reaches hdigit)
  · obtain ⟨⟨x, next⟩, hdigit, h⟩ := bind_eq_ok.mp h
    have toNext := headerDigit_reaches hdigit
    dsimp only at h
    split at h
    · cases h
      exact toNext.trans (next.reaches_advance d)
    · cases h
      exact toNext

/-- A block scalar is read from its indicator on. -/
theorem readBlock_from {literal : Bool} {parent : Int} {r : ScalarRead}
    (h : readBlock d literal parent c = .ok r) : r.From d (c.advance d) := by
  unfold readBlock at h
  dsimp only at h
  obtain ⟨⟨chomp, increment, afterHeader⟩, hheader, h⟩ := bind_eq_ok.mp h
  dsimp only at h
  split at h
  · obtain ⟨_, hfail, _⟩ := bind_eq_ok.mp h
    cases hfail
  · obtain ⟨lead, hlead, h⟩ := bind_eq_ok.mp h
    obtain ⟨⟨text, stop⟩, hlines, h⟩ := bind_eq_ok.mp h
    cases h
    have toHeader := readHeader_reaches hheader
    have toComment := (skipWhile_reaches d isSpace afterHeader).trans (skipComment_reaches d _)
    have toLead := (skipBreak_reaches d _).trans (readLead_reaches hlead)
    exact ⟨lead.stop, toHeader.trans (toComment.trans toLead), rfl, blockLines_reaches hlines⟩

/-! Words: tags, anchors and aliases, which hold no white space. -/

/-- The second place is reached by passing over characters that satisfy `p`. -/
def Cursor.Passes (d : Dialect) (p : Char → Bool) (a b : Cursor) : Prop :=
  ∃ n, b = a.skip d n ∧ ∀ k < n, p (a.ahead k) = true

variable {p q : Char → Bool}

theorem Cursor.Passes.reaches (h : a.Passes d p b) : a.Reaches d b := by
  obtain ⟨n, hb, _⟩ := h
  exact ⟨n, hb⟩

theorem Cursor.Passes.refl (d : Dialect) (p : Char → Bool) (c : Cursor) : c.Passes d p c :=
  ⟨0, rfl, by simp⟩

theorem Cursor.Passes.imp (h : a.Passes d p b) (hp : ∀ x, p x = true → q x = true) :
    a.Passes d q b := by
  obtain ⟨n, hb, hn⟩ := h
  exact ⟨n, hb, fun k hk => hp _ (hn k hk)⟩

theorem Cursor.rest_advance (d : Dialect) (c : Cursor) : (c.advance d).rest = c.rest.tail := by
  unfold Cursor.advance
  split
  next h => rw [h]; rfl
  next h => rw [h]; rfl

theorem Cursor.ahead_zero (c : Cursor) : c.ahead 0 = c.first := by
  unfold Cursor.first Cursor.ahead
  cases c.rest with
  | nil => rfl
  | cons x r => rfl

theorem Cursor.ahead_advance (d : Dialect) (n : Nat) (c : Cursor) :
    (c.advance d).ahead n = c.ahead (n + 1) := by
  unfold Cursor.ahead
  rw [Cursor.rest_advance]
  cases c.rest with
  | nil => rfl
  | cons x r => rfl

theorem Cursor.first_advance (d : Dialect) (c : Cursor) : (c.advance d).first = c.ahead 1 := by
  rw [← Cursor.ahead_zero, Cursor.ahead_advance]

theorem Cursor.ahead_skip (d : Dialect) (m n : Nat) (c : Cursor) :
    (c.skip d m).ahead n = c.ahead (m + n) := by
  induction m generalizing c with
  | zero => rw [Nat.zero_add]; rfl
  | succ m ih => rw [Cursor.skip, ih, Cursor.ahead_advance, Nat.add_right_comm]

theorem Cursor.Passes.trans (h : a.Passes d p b) (h' : b.Passes d p c) : a.Passes d p c := by
  obtain ⟨m, rfl, hm⟩ := h
  obtain ⟨n, rfl, hn⟩ := h'
  refine ⟨m + n, (Cursor.skip_add d m n a).symm, ?_⟩
  intro k hk
  by_cases hlt : k < m
  · exact hm k hlt
  · have := hn (k - m) (by omega)
    rwa [Cursor.ahead_skip, Nat.add_sub_cancel' (Nat.le_of_not_lt hlt)] at this

theorem Cursor.passes_advance (d : Dialect) {c : Cursor} (h : p c.first = true) :
    c.Passes d p (c.advance d) := by
  refine ⟨1, rfl, ?_⟩
  intro k hk
  rw [Nat.lt_one_iff.mp hk, Cursor.ahead_zero]
  exact h

theorem Cursor.Passes.of_past {x : Char} {r : List Char} {m : Mark} (hx : p x = true)
    (h : (⟨r, d.past x r m⟩ : Cursor).Passes d p b) : (⟨x :: r, m⟩ : Cursor).Passes d p b :=
  (Cursor.passes_advance d (c := ⟨x :: r, m⟩) hx).trans h

theorem takeFrom_passes (d : Dialect) (hp : ∀ x, q x = true → p x = true) (s : List Char)
    (m : Mark) : (⟨s, m⟩ : Cursor).Passes d p (Cursor.takeFrom d q s m).2 := by
  induction s generalizing m with
  | nil => exact .refl d p _
  | cons x r ih =>
    rw [Cursor.takeFrom]
    split
    next hx => exact .of_past (hp x hx) (ih _)
    · exact .refl d p _

theorem takeWhile_passes (d : Dialect) (hp : ∀ x, q x = true → p x = true) (c : Cursor) :
    c.Passes d p (c.takeWhile d q).2 :=
  takeFrom_passes d hp c.rest c.mark

/-- The characters of words are not white space. -/
def inYamlWord (d : Dialect) (c : Char) : Bool :=
  !d.isGap c

/-- White space of YAML is one of a few characters. -/
theorem eq_of_isGap {x : Char} (h : d.isGap x = true) :
    x = ' ' ∨ x = '\t' ∨ x = '\n' ∨ x = '\r' ∨ x = '\u0085' ∨ x = '\u2028' ∨ x = '\u2029' ∨
      x = '\x00' := by
  simp only [Dialect.isGap, isSpace, Dialect.isBreakOrEnd, Dialect.isBreak, isEnd,
    Bool.or_eq_true, Bool.and_eq_true, beq_iff_eq] at h
  tauto

theorem inYamlWord_of_isUriChar {whole : Bool} {x : Char} (h : isUriChar d whole x = true) :
    inYamlWord d x = true := by
  by_contra hgap
  have hgap' : d.isGap x = true := by simpa [inYamlWord] using hgap
  cases d <;> cases whole <;>
    rcases eq_of_isGap hgap' with rfl | rfl | rfl | rfl | rfl | rfl | rfl | rfl <;>
    exact absurd h (by decide)

theorem inYamlWord_of_isNameChar {x : Char} (h : isNameChar x = true) :
    inYamlWord d x = true := by
  have huri : isUriChar d true x = true := by
    rw [isUriChar, h]
    rfl
  exact inYamlWord_of_isUriChar huri

theorem inYamlWord_of_isHex {x : Char} (h : isHex x = true) : inYamlWord d x = true := by
  by_contra hgap
  have hgap' : d.isGap x = true := by simpa [inYamlWord] using hgap
  rcases eq_of_isGap hgap' with rfl | rfl | rfl | rfl | rfl | rfl | rfl | rfl <;>
    exact absurd h (by decide)

theorem inYamlWord_of_mem {x : Char} (h : x ∈ ['%', '!', '<', '>']) : inYamlWord d x = true := by
  cases d <;> simp only [List.mem_cons, List.not_mem_nil, or_false] at h <;>
    rcases h with rfl | rfl | rfl | rfl <;> decide

theorem readOctet_passes {start : Mark} {octet : Nat} (h : readOctet start c = .ok octet) :
    c.Passes d (inYamlWord d) (c.skip d 3) := by
  unfold readOctet at h
  split at h
  next hc =>
    simp only [Bool.and_eq_true, beq_iff_eq] at hc
    obtain ⟨⟨hfirst, hone⟩, htwo⟩ := hc
    have h0 := Cursor.passes_advance d (p := inYamlWord d) (c := c)
      (hfirst ▸ inYamlWord_of_mem (by decide))
    have h1 := Cursor.passes_advance d (p := inYamlWord d) (c := c.advance d)
      (by rw [Cursor.first_advance]; exact inYamlWord_of_isHex hone)
    have h2 := Cursor.passes_advance d (p := inYamlWord d) (c := (c.advance d).advance d)
      (by rw [Cursor.first_advance, Cursor.ahead_advance]; exact inYamlWord_of_isHex htwo)
    exact h0.trans (h1.trans h2)
  · cases h

theorem readOctets_passes {start : Mark} {n : Nat} {octets octets' : List Nat}
    (h : readOctets d start n octets c = .ok (octets', b)) : c.Passes d (inYamlWord d) b := by
  induction n generalizing octets c with
  | zero =>
    cases h
    exact .refl d _ _
  | succ n ih =>
    rw [readOctets] at h
    obtain ⟨octet, hoctet, h⟩ := bind_eq_ok.mp h
    dsimp only at h
    split at h
    · obtain ⟨_, hfail, _⟩ := bind_eq_ok.mp h
      cases hfail
    · exact (readOctet_passes hoctet).trans (ih h)

theorem readUriEscape_passes {start : Mark} {x : Option Char}
    (h : readUriEscape d start c = .ok (x, b)) : c.Passes d (inYamlWord d) b := by
  unfold readUriEscape at h
  obtain ⟨lead, hlead, h⟩ := bind_eq_ok.mp h
  split at h
  · cases h
  · obtain ⟨⟨octets, next⟩, hoctets, h⟩ := bind_eq_ok.mp h
    have toNext := (readOctet_passes hlead).trans (readOctets_passes hoctets)
    dsimp only at h
    split at h
    · cases h
      exact toNext
    · split at h
      · cases h
        exact toNext
      · cases h

theorem uriFrom_passes {whole : Bool} {start : Mark} {fuel : Nat} {uri uri' : List (Option Char)}
    (h : uriFrom d whole start fuel uri c = .ok (uri', b)) : c.Passes d (inYamlWord d) b := by
  induction fuel generalizing uri c with
  | zero =>
    cases h
    exact .refl d _ _
  | succ fuel ih =>
    rw [uriFrom] at h
    split at h
    · cases h
      exact .refl d _ _
    next hchar =>
      have hchar : isUriChar d whole c.first = true := by simpa using hchar
      split at h
      · obtain ⟨⟨x, next⟩, hescape, h⟩ := bind_eq_ok.mp h
        exact (readUriEscape_passes hescape).trans (ih h)
      · exact (Cursor.passes_advance d (inYamlWord_of_isUriChar hchar)).trans (ih h)

theorem readUri_passes {whole : Bool} {start : Mark} {head : List Char} {uri : Uri}
    (h : readUri d whole start head c = .ok (uri, b)) : c.Passes d (inYamlWord d) b := by
  unfold readUri at h
  obtain ⟨⟨pieces, stop⟩, huri, h⟩ := bind_eq_ok.mp h
  dsimp only at h
  split at h
  · obtain ⟨_, hfail, _⟩ := bind_eq_ok.mp h
    cases hfail
  · cases h
    exact uriFrom_passes huri

/-- A handle is read from its exclamation mark on. -/
theorem readTagHandle_passes {directive : Bool} {start : Mark} {handle : List Char}
    (h : readTagHandle d directive start c = .ok (handle, b)) :
    (c.advance d).Passes d (inYamlWord d) b := by
  unfold readTagHandle at h
  have toName := takeWhile_passes d (p := inYamlWord d) (q := isNameChar)
    (fun _ => inYamlWord_of_isNameChar) (c.advance d)
  dsimp only at h
  split at h
  · obtain ⟨_, hfail, _⟩ := bind_eq_ok.mp h
    cases hfail
  · split at h
    next hmark =>
      cases h
      refine toName.trans (Cursor.passes_advance d ?_)
      rw [beq_iff_eq.mp hmark]
      exact inYamlWord_of_mem (by decide)
    · split at h
      · obtain ⟨_, hfail, _⟩ := bind_eq_ok.mp h
        cases hfail
      · cases h
        exact toName

theorem readTagHandle_first {directive : Bool} {start : Mark} {handle : List Char}
    (h : readTagHandle d directive start c = .ok (handle, b)) : c.first = '!' := by
  unfold readTagHandle at h
  dsimp only at h
  split at h
  · obtain ⟨_, hfail, _⟩ := bind_eq_ok.mp h
    cases hfail
  next hmark => simpa using hmark

theorem eq_of_endsTag {flow : Bool} {start : Mark} {t tag : Tag}
    (h : (if endsTag d flow c.first then pure (t, c) else fail .tagEnd start) =
      Except.ok (tag, b)) : c = b := by
  split at h
  · cases h
    rfl
  · cases h

/-- A tag is read from its exclamation mark on. -/
theorem readTag_passes {flow : Bool} {tag : Tag} (h : readTag d flow c = .ok (tag, b)) :
    (c.advance d).Passes d (inYamlWord d) b := by
  unfold readTag at h
  dsimp only at h
  split at h
  next hopen =>
    obtain ⟨⟨uri, next⟩, huri, h⟩ := bind_eq_ok.mp h
    have toUri := Cursor.passes_advance d (p := inYamlWord d) (c := c.advance d) (by
      rw [Cursor.first_advance, beq_iff_eq.mp hopen]
      exact inYamlWord_of_mem (by decide))
    have toNext := toUri.trans (readUri_passes huri)
    dsimp only at h
    split at h
    · obtain ⟨_, hfail, _⟩ := bind_eq_ok.mp h
      cases hfail
    next hclose =>
      refine eq_of_endsTag h ▸ toNext.trans (Cursor.passes_advance d ?_)
      have hclose : next.first = '>' := by simpa using hclose
      rw [hclose]
      exact inYamlWord_of_mem (by decide)
  · obtain ⟨⟨handle, next⟩, hhandle, h⟩ := bind_eq_ok.mp h
    have toNext := readTagHandle_passes hhandle
    dsimp only at h
    split at h
    · obtain ⟨⟨suffix, stop⟩, huri, h⟩ := bind_eq_ok.mp h
      exact eq_of_endsTag h ▸ toNext.trans (readUri_passes huri)
    · obtain ⟨⟨suffix, stop⟩, huri, h⟩ := bind_eq_ok.mp h
      exact eq_of_endsTag h ▸ toNext.trans (readUri_passes huri)

theorem isGap_of_endsTag {flow : Bool} {start : Mark} {t tag : Tag}
    (h : (if endsTag .document flow c.first then pure (t, c) else fail .tagEnd start) =
      Except.ok (tag, b)) : Dialect.document.isGap b.first = true := by
  split at h
  next hends =>
    cases h
    exact (Bool.or_eq_true_iff.mp hends).resolve_right Bool.false_ne_true
  · cases h

/-- Behind a tag there is white space or the end of the text. -/
theorem readTag_isGap {flow : Bool} {tag : Tag} (h : readTag .document flow c = .ok (tag, b)) :
    Dialect.document.isGap b.first = true := by
  unfold readTag at h
  dsimp only at h
  split at h
  · obtain ⟨⟨uri, next⟩, -, h⟩ := bind_eq_ok.mp h
    dsimp only at h
    split at h
    · obtain ⟨_, hfail, _⟩ := bind_eq_ok.mp h
      cases hfail
    · exact isGap_of_endsTag h
  · obtain ⟨⟨handle, next⟩, -, h⟩ := bind_eq_ok.mp h
    dsimp only at h
    split at h <;> obtain ⟨⟨suffix, stop⟩, -, h⟩ := bind_eq_ok.mp h <;> exact isGap_of_endsTag h

/-- The name of an anchor or alias is read from its indicator on. -/
theorem readAnchor_passes {name : String} (h : readAnchor d c = .ok (name, b)) :
    (c.advance d).Passes d (inYamlWord d) b := by
  unfold readAnchor at h
  dsimp only at h
  split at h
  · cases h
  · cases h
    exact takeWhile_passes d (fun _ => inYamlWord_of_isNameChar) (c.advance d)

/-! Directives, which do not reach beyond their line. -/

/-- The characters of a line. -/
def inYamlLine (d : Dialect) (c : Char) : Bool :=
  !d.isBreakOrEnd c

theorem inYamlLine_of_inYamlWord {x : Char} (h : inYamlWord d x = true) :
    inYamlLine d x = true := by
  rw [inYamlWord, Dialect.isGap, Bool.not_or] at h
  exact (Bool.and_eq_true_iff.mp h).2

theorem inYamlLine_of_isSpace {x : Char} (h : isSpace x = true) : inYamlLine d x = true := by
  rcases Bool.or_eq_true_iff.mp h with h | h <;> rw [beq_iff_eq.mp h] <;> cases d <;> decide

theorem inYamlLine_of_isDigit {x : Char} (h : x.isDigit = true) : inYamlLine d x = true := by
  refine inYamlLine_of_inYamlWord (inYamlWord_of_isHex ?_)
  rw [isHex, h]
  rfl

theorem inYamlLine_of_isNameChar {x : Char} (h : isNameChar x = true) : inYamlLine d x = true :=
  inYamlLine_of_inYamlWord (inYamlWord_of_isNameChar h)

theorem skipSpaces_passes (d : Dialect) (c : Cursor) :
    c.Passes d (inYamlLine d) (c.skipWhile d isSpace) :=
  takeWhile_passes d (fun _ => inYamlLine_of_isSpace) c

theorem skipComment_passes (d : Dialect) (c : Cursor) :
    c.Passes d (inYamlLine d) (c.skipComment d) := by
  unfold Cursor.skipComment
  split
  · exact takeWhile_passes d (fun _ h => h) c
  · exact .refl d _ c

theorem readDirectiveName_passes {name : String} (h : readDirectiveName d c = .ok (name, b)) :
    c.Passes d (inYamlLine d) b := by
  unfold readDirectiveName at h
  dsimp only at h
  split at h
  · cases h
  · split at h
    · cases h
    · cases h
      exact takeWhile_passes d (fun _ => inYamlLine_of_isNameChar) c

theorem readVersionNumber_passes {start : Mark} {n : Nat}
    (h : readVersionNumber d start c = .ok (n, b)) : c.Passes d (inYamlLine d) b := by
  unfold readVersionNumber at h
  dsimp only at h
  split at h
  · cases h
  · split at h
    · cases h
    · cases h
      exact takeWhile_passes d (fun _ => inYamlLine_of_isDigit) c

theorem readVersion_passes {start : Mark} {kind : TokenKind}
    (h : readVersion d start c = .ok (kind, b)) : c.Passes d (inYamlLine d) b := by
  unfold readVersion at h
  obtain ⟨⟨major, point⟩, hmajor, h⟩ := bind_eq_ok.mp h
  have toPoint := (skipSpaces_passes d c).trans (readVersionNumber_passes hmajor)
  dsimp only at h
  split at h
  · obtain ⟨_, hfail, _⟩ := bind_eq_ok.mp h
    cases hfail
  next hpoint =>
    obtain ⟨⟨minor, stop⟩, hminor, h⟩ := bind_eq_ok.mp h
    cases h
    have hpoint : point.first = '.' := by simpa using hpoint
    have overPoint := Cursor.passes_advance d (p := inYamlLine d) (c := point)
      (by rw [hpoint]; cases d <;> decide)
    exact toPoint.trans (overPoint.trans (readVersionNumber_passes hminor))

theorem readTagDirective_passes {start : Mark} {kind : TokenKind}
    (h : readTagDirective d start c = .ok (kind, b)) : c.Passes d (inYamlLine d) b := by
  unfold readTagDirective at h
  obtain ⟨⟨handle, gap⟩, hhandle, h⟩ := bind_eq_ok.mp h
  have hmark := readTagHandle_first hhandle
  have overMark := Cursor.passes_advance d (p := inYamlLine d) (c := c.skipWhile d isSpace)
    (by rw [hmark]; cases d <;> decide)
  have toGap := (skipSpaces_passes d c).trans
    (overMark.trans ((readTagHandle_passes hhandle).imp fun _ => inYamlLine_of_inYamlWord))
  dsimp only at h
  split at h
  · obtain ⟨_, hfail, _⟩ := bind_eq_ok.mp h
    cases hfail
  · obtain ⟨⟨uri, stop⟩, huri, h⟩ := bind_eq_ok.mp h
    dsimp only at h
    split at h
    · cases h
      have toStop := (readUri_passes huri).imp fun _ => inYamlLine_of_inYamlWord
      exact toGap.trans ((skipSpaces_passes d gap).trans toStop)
    · cases h

/-- The line of a place is read to its end, with the line break there. -/
def Cursor.EndsLine (d : Dialect) (a b : Cursor) : Prop :=
  ∃ e : Cursor, a.Passes d (inYamlLine d) e ∧ d.isBreakOrEnd e.first = true ∧ b = e.skipBreak d

theorem Cursor.EndsLine.reaches (h : a.EndsLine d b) : a.Reaches d b := by
  obtain ⟨e, he, -, rfl⟩ := h
  exact he.reaches.trans (skipBreak_reaches d e)

theorem Cursor.Passes.endsLine (h : a.Passes d (inYamlLine d) b) (hc : b.EndsLine d c) :
    a.EndsLine d c := by
  obtain ⟨e, he, hline, rfl⟩ := hc
  exact ⟨e, h.trans he, hline, rfl⟩

/-- What follows the parameters of a directive: white space, a comment and a line break. -/
theorem directiveEnd_endsLine {start : Mark} {k kind : TokenKind}
    (h : (if !d.isBreakOrEnd ((c.skipWhile d isSpace).skipComment d).first then do
        fail .directiveEnd start
        pure (k, ((c.skipWhile d isSpace).skipComment d).skipBreak d)
      else pure (k, ((c.skipWhile d isSpace).skipComment d).skipBreak d)) = Except.ok (kind, b)) :
    c.EndsLine d b := by
  split at h
  · obtain ⟨_, hfail, _⟩ := bind_eq_ok.mp h
    cases hfail
  next hline =>
    cases h
    exact ⟨_, (skipSpaces_passes d c).trans (skipComment_passes d _), by simpa using hline, rfl⟩

/-- A directive is read from its percent sign to the end of its line. -/
theorem readDirective_endsLine {kind : TokenKind} (h : readDirective d c = .ok (kind, b)) :
    (c.advance d).EndsLine d b := by
  unfold readDirective at h
  obtain ⟨⟨name, afterName⟩, hname, h⟩ := bind_eq_ok.mp h
  refine (readDirectiveName_passes hname).endsLine ?_
  dsimp only at h
  split at h
  · obtain ⟨⟨k, next⟩, hversion, h⟩ := bind_eq_ok.mp h
    exact (readVersion_passes hversion).endsLine (directiveEnd_endsLine h)
  · split at h
    · obtain ⟨⟨k, next⟩, htag, h⟩ := bind_eq_ok.mp h
      exact (readTagDirective_passes htag).endsLine (directiveEnd_endsLine h)
    · split at h
      · obtain ⟨_, hfail, _⟩ := bind_eq_ok.mp h
        cases hfail
      · exact (takeWhile_passes d (fun _ h => h) afterName).endsLine (directiveEnd_endsLine h)

end Yaml

end Blueprint
