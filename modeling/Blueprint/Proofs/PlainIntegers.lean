import Blueprint.Document.Generic
import Mathlib.Data.List.Induction
import Mathlib.Tactic.IntervalCases

/-!
The integers among the scalars that are written without quotes. The core schema has decimal
integers with an optional sign, octal ones behind `0o` and hexadecimal ones behind `0x`. A plain
scalar is read by this grammar, but for two alternatives: octal integers stay texts, and a sign may
stand behind `0x`.
-/

namespace Blueprint

namespace Number

/-- A digit and its value; letters count from ten, in either case. -/
def IsDigit (c : Char) (value : Nat) : Prop :=
  "0123456789abcdef".toList[value]? = some c ∨ "0123456789ABCDEF".toList[value]? = some c

/-- A text of one digit or more in a base, and the number that it spells. -/
inductive Numeral (base : Nat) : List Char → Nat → Prop
  | digit {c : Char} {d : Nat} : IsDigit c d → d < base → Numeral base [c] d
  | append {s : List Char} {n : Nat} {c : Char} {d : Nat} :
    Numeral base s n → IsDigit c d → d < base → Numeral base (s ++ [c]) (base * n + d)

/-- A numeral with an optional sign. -/
inductive SignedNumeral (base : Nat) : List Char → Int → Prop
  | bare {s : List Char} {n : Nat} : Numeral base s n → SignedNumeral base s n
  | plus {s : List Char} {n : Nat} : Numeral base s n → SignedNumeral base ('+' :: s) n
  | minus {s : List Char} {n : Nat} : Numeral base s n → SignedNumeral base ('-' :: s) (-n)

/-- The integers of the core schema. -/
inductive SchemaInteger : List Char → Int → Prop
  | decimal {s : List Char} {i : Int} : SignedNumeral 10 s i → SchemaInteger s i
  | octal {s : List Char} {n : Nat} : Numeral 8 s n → SchemaInteger ('0' :: 'o' :: s) n
  | hexadecimal {s : List Char} {n : Nat} : Numeral 16 s n → SchemaInteger ('0' :: 'x' :: s) n

/-- A hexadecimal integer with a sign between `0x` and its digits. -/
inductive InnerSigned : List Char → Int → Prop
  | plus {s : List Char} {n : Nat} : Numeral 16 s n → InnerSigned ('0' :: 'x' :: '+' :: s) n
  | minus {s : List Char} {n : Nat} : Numeral 16 s n → InnerSigned ('0' :: 'x' :: '-' :: s) (-n)

variable {base n d : Nat} {s : List Char} {c : Char} {i : Int}

theorem IsDigit.lt (h : IsDigit c d) : d < 16 := by
  rcases h with h | h <;> exact (List.getElem?_eq_some_iff.mp h).1

theorem digitValue?_eq_some_iff : digitValue? base c = some d ↔ IsDigit c d ∧ d < base := by
  constructor
  · intro h
    obtain ⟨hvalue, hbase⟩ := Option.filter_eq_some_iff.mp h
    refine ⟨?_, of_decide_eq_true hbase⟩
    have hcode {low high : Nat} (hrange : low ≤ c.toNat ∧ c.toNat ≤ high) :
        ∃ n, low ≤ n ∧ n ≤ high ∧ c = Char.ofNat n :=
      ⟨c.toNat, hrange.1, hrange.2, (Char.ofNat_toNat c).symm⟩
    split at hvalue
    next hrange =>
      obtain ⟨n, hlow, hhigh, rfl⟩ := @hcode 48 57 hrange
      interval_cases n <;> cases hvalue <;> exact Or.inl rfl
    · split at hvalue
      next hrange =>
        obtain ⟨n, hlow, hhigh, rfl⟩ := @hcode 97 102 hrange
        interval_cases n <;> cases hvalue <;> exact Or.inl rfl
      · split at hvalue
        next hrange =>
          obtain ⟨n, hlow, hhigh, rfl⟩ := @hcode 65 70 hrange
          interval_cases n <;> cases hvalue <;> exact Or.inr rfl
        · cases hvalue
  · rintro ⟨h, hbase⟩
    have hd := h.lt
    refine Option.filter_eq_some_iff.mpr ⟨?_, decide_eq_true hbase⟩
    clear hbase
    interval_cases d <;> rcases h with h | h <;> cases h <;> rfl

theorem readFrom?_concat (value : Nat) (s : List Char) (c : Char) :
    readFrom? base value (s ++ [c]) =
      (readFrom? base value s).bind fun m => (digitValue? base c).map (base * m + ·) := by
  induction s generalizing value with
  | nil => cases h : digitValue? base c <;> simp [readFrom?, h]
  | cons x r ih =>
    rw [List.cons_append, readFrom?, readFrom?, Option.bind_assoc]
    exact Option.bind_congr fun m _ => ih _

theorem natural?_concat (s : List Char) (c : Char) :
    natural? base (s ++ [c]) =
      (if s = [] then some 0 else natural? base s).bind fun m =>
        (digitValue? base c).map (base * m + ·) := by
  rw [natural?, if_neg (by simp), readFrom?_concat]
  by_cases hs : s = []
  · rw [hs]
    rfl
  · rw [if_neg hs, natural?, if_neg (by simpa using hs)]

/-- A text is read to the number that it spells. -/
theorem natural?_eq_some_iff : natural? base s = some n ↔ Numeral base s n := by
  -- The grammar adds digits at the end of a text, so the induction is on its end.
  constructor
  · induction s using List.reverseRecOn generalizing n with
    | nil => exact fun h => nomatch h
    | append_singleton s c ih =>
      intro h
      rw [natural?_concat] at h
      obtain ⟨m, hm, h⟩ := Option.bind_eq_some_iff.mp h
      obtain ⟨d, hd, rfl⟩ := Option.map_eq_some_iff.mp h
      obtain ⟨hdigit, hlt⟩ := digitValue?_eq_some_iff.mp hd
      split at hm
      next hs =>
        cases hm
        rw [hs, Nat.mul_zero, Nat.zero_add]
        exact .digit hdigit hlt
      · exact .append (ih hm) hdigit hlt
  · intro h
    induction h with
    | digit hdigit hlt =>
      rw [← List.nil_append [_], natural?_concat, digitValue?_eq_some_iff.mpr ⟨hdigit, hlt⟩]
      simp
    | append hs hdigit hlt ih =>
      rw [natural?_concat, ih, digitValue?_eq_some_iff.mpr ⟨hdigit, hlt⟩, if_neg]
      · rfl
      · rintro rfl
        cases ih

theorem signed?_eq_some_iff : signed? base s = some i ↔ SignedNumeral base s i := by
  constructor
  · intro h
    unfold signed? at h
    split at h <;> obtain ⟨n, hn, rfl⟩ := Option.map_eq_some_iff.mp h
    · obtain ⟨m, hm, heq⟩ := Option.bind_eq_some_iff.mp hn
      cases heq
      exact .minus (natural?_eq_some_iff.mp hm)
    · exact .plus (natural?_eq_some_iff.mp hn)
    · exact .bare (natural?_eq_some_iff.mp hn)
  · rintro (hn | hn | hn)
    · have hread := natural?_eq_some_iff.mpr hn
      unfold signed?
      split
      · cases hread
      · cases hread
      · rw [hread]
        rfl
    · rw [signed?, natural?_eq_some_iff.mpr hn]
      rfl
    · rw [signed?, natural?_eq_some_iff.mpr hn]
      rfl

theorem signed64?_eq_some_iff :
    signed64? base s = some i ↔ SignedNumeral base s i ∧ -2 ^ 63 ≤ i ∧ i < 2 ^ 63 := by
  rw [signed64?, Option.filter_eq_some_iff, signed?_eq_some_iff, inSigned, Bool.and_eq_true,
    decide_eq_true_iff, decide_eq_true_iff]
  rfl

end Number

namespace Generic

open Number

/-- The integer that a plain text is read as. -/
def integer? (chars : List Char) : Option Int :=
  (signed64? 10 chars).or
    (match chars with
    | '0' :: 'x' :: r => signed64? 16 r
    | _ => none)

/-- The words for nothing, true and false. -/
def keywords : List String :=
  ["", "~", "null", "Null", "NULL", "true", "True", "TRUE", "false", "False", "FALSE"]

theorem integer?_of_keyword {s : String} (h : s ∈ keywords) : integer? s.toList = none := by
  revert s
  decide

theorem ofPlain_eq_int_iff_read (s : String) (i : Int) :
    ofPlain s = int i ↔ integer? s.toList = some i := by
  have hword (words : List String) (v : Generic) (hv : v ≠ int i) (hwords : words ⊆ keywords)
      (h : s ∈ words) : v = int i ↔ integer? s.toList = some i := by
    rw [integer?_of_keyword (hwords h)]
    exact ⟨fun h => absurd h hv, fun h => nomatch h⟩
  unfold ofPlain
  split
  next h => exact hword _ _ (by simp) (by decide) h
  · split
    next h => exact hword _ _ (by simp) (by decide) h
    · split
      next h => exact hword _ _ (by simp) (by decide) h
      · dsimp only
        generalize hread : (signed64? 10 s.toList).or _ = read
        rw [show integer? s.toList = read from hread]
        cases read with
        | some j =>
          dsimp only
          rw [int.injEq, Option.some.injEq]
        | none =>
          dsimp only
          refine ⟨fun h => ?_, fun h => nomatch h⟩
          split at h
          · split at h <;> cases h
          · cases h

theorem integer?_eq_some_iff {s : List Char} {i : Int} : integer? s = some i ↔
    (SignedNumeral 10 s i ∨ ∃ r, s = '0' :: 'x' :: r ∧ SignedNumeral 16 r i) ∧
      -2 ^ 63 ≤ i ∧ i < 2 ^ 63 := by
  unfold integer?
  split
  next r =>
    have hnone : signed64? 10 ('0' :: 'x' :: r) = none := rfl
    rw [hnone, Option.none_or, signed64?_eq_some_iff]
    refine and_congr_left fun _ => ⟨fun h => Or.inr ⟨r, rfl, h⟩, ?_⟩
    rintro (h | ⟨r', heq, h⟩)
    · exact nomatch signed?_eq_some_iff.mpr h
    · cases heq
      exact h
  next hlead =>
    rw [Option.or_none, signed64?_eq_some_iff]
    refine and_congr_left fun _ => ⟨Or.inl, ?_⟩
    rintro (h | ⟨r, heq, -⟩)
    · exact h
    · exact absurd heq (hlead r)

/-- A plain text is an integer when it is one of the core schema that is not octal, or hexadecimal
with a sign behind `0x`, if the number has 64 bits at most. The value is the one that it spells. -/
theorem ofPlain_eq_int_iff (s : String) (i : Int) :
    ofPlain s = int i ↔
      (SchemaInteger s.toList i ∧ ¬['0', 'o'] <+: s.toList ∨ InnerSigned s.toList i) ∧
        -2 ^ 63 ≤ i ∧ i < 2 ^ 63 := by
  rw [ofPlain_eq_int_iff_read, integer?_eq_some_iff]
  refine and_congr_left fun _ => ?_
  generalize s.toList = chars
  constructor
  · rintro (h | ⟨r, rfl, h⟩)
    · refine Or.inl ⟨.decimal h, ?_⟩
      rintro ⟨r, rfl⟩
      exact nomatch signed?_eq_some_iff.mpr h
    · cases h with
      | bare h => exact Or.inl ⟨.hexadecimal h, fun hlead => by simp at hlead⟩
      | plus h => exact Or.inr (.plus h)
      | minus h => exact Or.inr (.minus h)
  · rintro (⟨h | h | h, hoctal⟩ | h | h)
    · exact Or.inl h
    · exact absurd ⟨_, rfl⟩ hoctal
    · exact Or.inr ⟨_, rfl, .bare h⟩
    · exact Or.inr ⟨_, rfl, .plus h⟩
    · exact Or.inr ⟨_, rfl, .minus h⟩

/-- An octal integer of the core schema is read as a text, and a text that is no integer of the
schema as a negative number. -/
theorem ofPlain_leaves_schema :
    SchemaInteger "0o17".toList 15 ∧ (-2 ^ 63 ≤ (15 : Int) ∧ (15 : Int) < 2 ^ 63) ∧
      ofPlain "0o17" = text "0o17" ∧
      (∀ i, ¬SchemaInteger "0x-1f".toList i) ∧ ofPlain "0x-1f" = int (-31) := by
  have hone : Numeral 8 ['1'] 1 := .digit (Or.inl rfl) (by decide)
  have hseven : IsDigit '7' 7 := Or.inl rfl
  refine ⟨.octal (hone.append hseven (by decide)), by decide, rfl, fun i h => ?_, rfl⟩
  change SchemaInteger ['0', 'x', '-', '1', 'f'] i at h
  cases h with
  | decimal h => exact nomatch signed?_eq_some_iff.mpr h
  | hexadecimal h => exact nomatch natural?_eq_some_iff.mpr h

end Generic

end Blueprint
