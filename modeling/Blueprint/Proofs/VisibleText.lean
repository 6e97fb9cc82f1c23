import Mathlib.Data.List.SplitBy
import Blueprint.Proofs.LineRepairs

/-!
What the repairs of spacing and spelling leave as it is: the characters that can be seen, in their
order. They add and take away white space, and write words such as `True` in lower case.
-/

namespace Blueprint

namespace Text

/-- A letter of `TRUE` or `FALSE` in lower case. -/
def foldTruth (c : Char) : Char :=
  if "TRUEFALS".toList.contains c then c.toLower else c

/-- The characters of a text that can be seen. -/
def ink (s : List Char) : List Char :=
  (s.filter (!isBlank ·)).map foldTruth

theorem ink_nil : ink [] = [] := rfl

theorem ink_append (s t : List Char) : ink (s ++ t) = ink s ++ ink t := by
  unfold ink
  rw [List.filter_append, List.map_append]

theorem ink_cons (c : Char) (s : List Char) : ink (c :: s) = ink [c] ++ ink s :=
  ink_append [c] s

theorem ink_reverse (s : List Char) : ink s.reverse = (ink s).reverse := by
  unfold ink
  rw [List.filter_reverse, List.map_reverse]

theorem ink_of_blank {s : List Char} (h : s.all isBlank = true) : ink s = [] := by
  have hnone : s.filter (!isBlank ·) = [] := by
    apply List.filter_eq_nil_iff.mpr
    intro c hc hseen
    rw [List.all_eq_true.mp h c hc] at hseen
    cases hseen
  unfold ink
  rw [hnone, List.map_nil]

theorem ink_blank_cons {c : Char} (h : isBlank c = true) (s : List Char) :
    ink (c :: s) = ink s := by
  have hall : [c].all isBlank = true := by
    rw [List.all_cons, h]
    rfl
  rw [ink_cons, ink_of_blank hall, List.nil_append]

theorem ink_flatten (parts : List (List Char)) : ink parts.flatten = parts.flatMap ink := by
  induction parts with
  | nil => rfl
  | cons s r ih => rw [List.flatten_cons, ink_append, ih, List.flatMap_cons]

theorem ink_dropWhile {p : Char → Bool} (hp : ∀ c, p c = true → isBlank c = true)
    (s : List Char) : ink (s.dropWhile p) = ink s := by
  induction s with
  | nil => rfl
  | cons c r ih =>
    rw [List.dropWhile_cons]
    split
    next hc => rw [ih, ink_blank_cons (hp c hc)]
    · rfl

theorem ink_dropEndWhile {p : Char → Bool} (hp : ∀ c, p c = true → isBlank c = true)
    (s : List Char) : ink (dropEndWhile p s) = ink s := by
  unfold dropEndWhile
  rw [ink_reverse, ink_dropWhile hp, ink_reverse, List.reverse_reverse]

theorem ink_trimStart (s : List Char) : ink (trimStart s) = ink s :=
  ink_dropWhile (fun _ h => h) s

theorem ink_trimEnd (s : List Char) : ink (trimEnd s) = ink s :=
  ink_dropEndWhile (fun _ h => h) s

theorem ink_trim (s : List Char) : ink (trim s) = ink s := by
  unfold trim
  rw [ink_trimEnd, ink_trimStart]

theorem trimStart_suffix (s : List Char) : trimStart s <:+ s :=
  List.dropWhile_suffix isBlank

theorem head?_trimStart {s : List Char} {c : Char} (h : (trimStart s).head? = some c) :
    isBlank c = false := by
  have hnot := List.head?_dropWhile_not isBlank s
  rw [show (s.dropWhile isBlank).head? = some c from h] at hnot
  exact hnot

theorem dropEndWhile_isPrefix (p : Char → Bool) (s : List Char) : dropEndWhile p s <+: s := by
  unfold dropEndWhile
  have h := List.reverse_prefix.mpr (List.dropWhile_suffix p (l := s.reverse))
  rwa [List.reverse_reverse] at h

theorem after?_eq_some {start s rest : List Char} :
    after? start s = some rest ↔ s = start ++ rest := by
  induction start generalizing s with
  | nil => simp [after?]
  | cons c start ih =>
    cases s with
    | nil => simp [after?]
    | cons d s =>
      rw [after?, List.cons_append, List.cons.injEq]
      split
      next h => simp [ih, h]
      next h => simp [Ne.symm h]

theorem cutAt?_eq {separator : Char} {s before rest : List Char}
    (h : cutAt? separator s = some (before, rest)) : s = before ++ separator :: rest := by
  induction s generalizing before with
  | nil => cases h
  | cons c r ih =>
    rw [cutAt?] at h
    split at h
    next hc =>
      cases h
      rw [hc, List.nil_append]
    · obtain ⟨⟨b, t⟩, hcut, heq⟩ := Option.map_eq_some_iff.mp h
      cases heq
      rw [ih hcut, List.cons_append]

theorem pieces_ne_nil (separator : Char) (s : List Char) : pieces separator s ≠ [] := by
  cases s with
  | nil => exact List.cons_ne_nil _ _
  | cons c r =>
    rw [pieces]
    split
    · exact List.cons_ne_nil _ _
    · split <;> exact List.cons_ne_nil _ _

/-- The pieces of a text with the separator before each but the first. -/
theorem pieces_join {separator : Char} {s first : List Char} {r : List (List Char)}
    (h : pieces separator s = first :: r) :
    s = first ++ r.flatMap fun piece => separator :: piece := by
  induction s generalizing first r with
  | nil =>
    cases h
    rfl
  | cons c s ih =>
    rw [pieces] at h
    split at h
    next hnone => exact absurd hnone (pieces_ne_nil separator s)
    next hpieces =>
      have hs := ih hpieces
      split at h
      next hc =>
        cases h
        rw [List.nil_append, List.flatMap_cons, List.cons_append, ← hs, hc]
      · cases h
        rw [List.cons_append, ← hs]

theorem toLower_eq_or (c : Char) : c.toLower = c ∨ c.toNat + 32 = c.toLower.toNat := by
  unfold Char.toLower
  split
  next h =>
    right
    have hle : c.val.toNat ≤ 90 := UInt32.le_iff_toNat_le.mp h.2
    have hshift : ('a'.val - 'A'.val).toNat = 32 := by decide
    show c.val.toNat + 32 = (c.val + ('a'.val - 'A'.val)).toNat
    rw [UInt32.toNat_add]
    omega
  · left
    rfl

end Text

namespace Content

theorem letter_of_fold {c : Char} (h : foldLetter c ∈ "truefals".toList) :
    c ∈ "truefalsTRUEFALSſ".toList := by
  unfold foldLetter at h
  split at h
  next hlong =>
    rw [eq_of_beq hlong]
    decide
  · rcases Text.toLower_eq_or c with hsame | hupper
    · have hsplit : "truefalsTRUEFALSſ".toList = "truefals".toList ++ "TRUEFALSſ".toList := by
        decide
      rw [hsame] at h
      rw [hsplit]
      exact List.mem_append_left _ h
    · have hback : c = Char.ofNat (c.toLower.toNat - 32) := by
        rw [← hupper, Nat.add_sub_cancel, Char.ofNat_toNat]
      have hletters : "truefals".toList.all
          (fun d => Char.ofNat (d.toNat - 32) ∈ "truefalsTRUEFALSſ".toList) = true := by decide
      rw [hback]
      exact of_decide_eq_true (List.all_eq_true.mp hletters _ h)

theorem letter_of_truthWord {word : List Char} (h : isTruthWord word = true) {c : Char}
    (hc : c ∈ word) : c ∈ "truefalsTRUEFALSſ".toList := by
  have hmem : foldLetter c ∈ word.map foldLetter := List.mem_map_of_mem hc
  have htrue : "true".toList.all (fun d => d ∈ "truefals".toList) = true := by decide
  have hfalse : "false".toList.all (fun d => d ∈ "truefals".toList) = true := by decide
  unfold isTruthWord at h
  apply letter_of_fold
  rcases Bool.or_eq_true_iff.mp h with h | h
  · rw [eq_of_beq h] at hmem
    exact of_decide_eq_true (List.all_eq_true.mp htrue _ hmem)
  · rw [eq_of_beq h] at hmem
    exact of_decide_eq_true (List.all_eq_true.mp hfalse _ hmem)

open Text

theorem ink_lowerWord {word : List Char} (h : isTruthWord word = true) :
    ink (word.map Char.toLower) = ink word := by
  have hletters : "truefalsTRUEFALSſ".toList.all (fun c => ink [c.toLower] = ink [c]) = true := by
    decide
  have hword : ∀ c ∈ word, ink [c.toLower] = ink [c] := fun c hc =>
    of_decide_eq_true (List.all_eq_true.mp hletters c (letter_of_truthWord h hc))
  clear h
  induction word with
  | nil => rfl
  | cons c r ih =>
    rw [List.map_cons, ink_cons, hword c List.mem_cons_self,
      ih fun d hd => hword d (List.mem_cons_of_mem c hd), ← ink_cons]

theorem ink_lowerTruth (s : List Char) : ink (lowerTruth s) = ink s := by
  have hruns : ∀ runs : List (List Char),
      ink (runs.flatMap fun run => if isTruthWord run then run.map Char.toLower else run) =
        ink runs.flatten := by
    intro runs
    induction runs with
    | nil => rfl
    | cons run r ih =>
      rw [List.flatMap_cons, List.flatten_cons, ink_append, ink_append, ih]
      split
      next hword => rw [ink_lowerWord hword]
      · rfl
  unfold lowerTruth
  rw [hruns]
  unfold wordRuns
  rw [List.flatten_splitBy]

theorem ink_trimSpaces (s : List Char) : ink (trimSpaces s) = ink s := by
  unfold trimSpaces
  apply ink_dropEndWhile
  intro c hc
  rcases Bool.or_eq_true_iff.mp hc with hc | hc
  · rw [eq_of_beq hc]
    decide
  · rw [eq_of_beq hc]
    decide

theorem ink_spaceColon (s : List Char) : ink (spaceColon s) = ink s := by
  unfold spaceColon
  split
  · rfl
  next key rest hcut =>
    split
    · rfl
    · have hvalue : ink (if (trim rest).isEmpty then [] else ' ' :: trim rest) = ink rest := by
        split
        next hempty => rw [← ink_trim rest, List.isEmpty_iff.mp hempty]
        · rw [ink_blank_cons (by decide), ink_trim]
      rw [cutAt?_eq hcut, ink_append, ink_append, ink_trimEnd, ink_cons, hvalue, ← ink_cons]

theorem ink_afterComma (pieces : List (List Char)) :
    ink (afterComma pieces) = ink (pieces.flatMap fun piece => ',' :: piece) := by
  induction pieces using afterComma.induct with
  | case1 => rfl
  | case2 last =>
    have hspace : ink (' ' :: trimStart last) = ink last := by
      rw [ink_blank_cons (by decide), ink_trimStart]
    rw [afterComma, List.flatMap_singleton, ink_cons, hspace, ← ink_cons]
  | case3 piece r hr ih =>
    have hspace : ink (' ' :: trim piece) = ink piece := by
      rw [ink_blank_cons (by decide), ink_trim]
    rw [afterComma, List.flatMap_cons, ink_append, ink_append, ih, ink_cons, hspace, ← ink_cons]
    exact hr

theorem ink_spaceCommas (s : List Char) : ink (spaceCommas s) = ink s := by
  unfold spaceCommas
  rw [ink_trimEnd]
  split
  next h => exact absurd h (pieces_ne_nil ',' s)
  next only h =>
    have hjoin := pieces_join h
    rw [List.flatMap_nil, List.append_nil] at hjoin
    rw [hjoin]
  next first r _ h => rw [ink_append, ink_trimEnd, ink_afterComma, ← ink_append, ← pieces_join h]

theorem ink_squeezeAfter (sign : Char) (dropping : Bool) (s : List Char) :
    ink (squeezeAfter sign dropping s) = ink s := by
  induction s generalizing dropping with
  | nil => rfl
  | cons c r ih =>
    rw [squeezeAfter]
    split
    next h =>
      have hblank : isBlank c = true := (Bool.and_eq_true_iff.mp h).2
      rw [ih, ink_blank_cons hblank]
    · split
      · have hspace : ink (' ' :: squeezeAfter sign true r) = ink r := by
          rw [ink_blank_cons (by decide), ih]
        rw [ink_cons, hspace, ← ink_cons]
      · rw [ink_cons, ih, ← ink_cons]

theorem ink_spaceBrackets (opening closing : Char) (s : List Char) :
    ink (spaceBrackets opening closing s) = ink s := by
  unfold spaceBrackets
  rw [ink_reverse, ink_squeezeAfter, ink_reverse, ink_squeezeAfter, List.reverse_reverse]

end Content

namespace FileLines

open Text

variable {lines new : FileLines} {index : Nat} {delta : Int}

theorem content_append_terminator (line : List Char) : content line ++ terminator line = line :=
  List.prefix_iff_eq_append.mp (dropEndWhile_isPrefix isTerminator line)

theorem terminator_eq (line : List Char) :
    terminator line = (line.reverse.takeWhile isTerminator).reverse := by
  have hparts : content line ++ (line.reverse.takeWhile isTerminator).reverse = line := by
    unfold content dropEndWhile
    rw [← List.reverse_append, List.takeWhile_append_dropWhile, List.reverse_reverse]
  exact List.append_cancel_left ((content_append_terminator line).trans hparts.symm)

theorem isTerminator_of_mem {line : List Char} {c : Char} (h : c ∈ terminator line) :
    isTerminator c = true := by
  rw [terminator_eq, List.mem_reverse] at h
  exact List.mem_takeWhile_imp h

theorem isBlank_of_isTerminator {c : Char} (h : isTerminator c = true) : isBlank c = true := by
  rcases Bool.or_eq_true_iff.mp h with h | h
  · rw [eq_of_beq h]
    decide
  · rw [eq_of_beq h]
    decide

theorem ink_blankLine {line : List Char} (h : isBlankLine line = true) : ink line = [] := by
  have hcontent : content line = [] := List.isEmpty_iff.mp h
  have hink := ink_dropEndWhile (p := isTerminator) (fun c => isBlank_of_isTerminator) line
  rw [← hink]
  show ink (content line) = []
  rw [hcontent, ink_nil]

theorem ink_flatten_set {line replaced : List Char} (hget : lines[index]? = some line)
    (h : ink replaced = ink line) :
    ink (lines.set index replaced).flatten = ink lines.flatten := by
  induction lines generalizing index with
  | nil => cases hget
  | cons first r ih =>
    cases index with
    | zero =>
      cases Option.some.inj hget
      rw [List.set_cons_zero, List.flatten_cons, List.flatten_cons, ink_append, ink_append, h]
    | succ index =>
      rw [List.set_cons_succ, List.flatten_cons, List.flatten_cons, ink_append, ink_append, ih hget]

theorem mapContent_ink {f : List Char → List Char} (hf : ∀ s, ink (f s) = ink s)
    (h : lines.mapContent f index = some (new, delta)) : ink new.flatten = ink lines.flatten := by
  obtain ⟨line, hget, -, rfl, -⟩ := mapContent_eq_some.mp h
  apply ink_flatten_set hget
  rw [ink_append, hf, ← ink_append, content_append_terminator]

theorem endWithFeed_ink (h : lines.endWithFeed index = some (new, delta)) :
    ink new.flatten = ink lines.flatten := by
  obtain ⟨r, hget, rfl, -⟩ := endWithFeed_eq_some.mp h
  apply ink_flatten_set hget
  rw [ink_append, ink_append]
  rfl

theorem removeBlank_ink {message : String} (hindex : index < lines.length)
    (h : lines.removeBlank message index = some (new, delta)) :
    ink new.flatten = ink lines.flatten := by
  unfold removeBlank at h
  obtain ⟨excess, _, h⟩ := Option.bind_eq_some_iff.mp h
  dsimp only at h
  generalize hupto : lines.take (index + 1) = upto at h
  have hlength : upto.length = index + 1 := by
    rw [← hupto, List.length_take]
    omega
  have hrun : min (upto.reverse.takeWhile isBlankLine).length excess ≤
      (upto.reverse.takeWhile isBlankLine).length := Nat.min_le_left _ _
  generalize min (upto.reverse.takeWhile isBlankLine).length excess = count at h hrun
  split at h
  · cases h
  · cases h
    have hremoved : ∀ line ∈ upto.drop (index + 1 - count), ink line = [] := by
      intro line hline
      apply ink_blankLine
      have hback : line ∈ upto.reverse.take count := by
        rw [List.take_reverse, List.mem_reverse, hlength]
        exact hline
      have hstart : upto.reverse.take count <+: upto.reverse.takeWhile isBlankLine :=
        List.prefix_of_prefix_length_le (List.take_prefix _ _) (List.takeWhile_prefix _)
          (by rw [List.length_take]; omega)
      exact List.all_eq_true.mp List.all_takeWhile line (hstart.subset hback)
    have hgone : (upto.drop (index + 1 - count)).flatMap ink = [] :=
      List.flatMap_eq_nil_iff.mpr hremoved
    have hkept : lines.take (index + 1 - count) = upto.take (index + 1 - count) := by
      rw [← hupto, List.take_take]
      congr 1
      omega
    have hall : lines = upto.take (index + 1 - count) ++
        (upto.drop (index + 1 - count) ++ lines.drop (index + 1)) := by
      rw [← List.append_assoc, List.take_append_drop, ← hupto, List.take_append_drop]
    rw [hkept]
    conv => rhs; rw [hall]
    rw [ink_flatten, ink_flatten, List.flatMap_append, List.flatMap_append, List.flatMap_append,
      hgone, List.nil_append]

end FileLines

end Blueprint
