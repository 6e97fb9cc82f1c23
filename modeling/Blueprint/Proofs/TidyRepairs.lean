import Blueprint.Proofs.SettledLines
import Blueprint.Proofs.WholeWords

/-!
Repairs of the content of a line leave it tidy: the signs that they look after have the usual space
around them. What they do not look after has to be tidy before: the colons behind the first one, and
commas without anything between them.
-/

namespace Blueprint

open Text

section Pieces

variable {sign x y z : Char} {line s t : List Char}

/-- Two characters that follow each other in a text of two parts. -/
theorem pair_infix_append (h : [x, y] <:+: s ++ t) :
    [x, y] <:+: s ∨ [x, y] <:+: t ∨ s.getLast? = some x ∧ t.head? = some y := by
  rcases List.infix_append_iff.mp h with h | h | ⟨s', t', heq, hs, ht⟩
  · exact Or.inl h
  · exact Or.inr (Or.inl h)
  rcases List.cons_eq_append_iff.mp heq with ⟨-, rfl⟩ | ⟨s₁, rfl, heq₁⟩
  · exact Or.inr (Or.inl ht.isInfix)
  rcases List.cons_eq_append_iff.mp heq₁ with ⟨rfl, rfl⟩ | ⟨s₂, rfl, heq₂⟩
  · exact Or.inr (Or.inr ⟨List.singleton_suffix_iff_getLast?_eq_some.mp hs,
      List.singleton_prefix_iff_head?_eq_some.mp ht⟩)
  · obtain ⟨rfl, rfl⟩ := List.append_eq_nil_iff.mp heq₂.symm
    exact Or.inl hs.isInfix

/-- Three of them. -/
theorem triple_infix_append (h : [x, y, z] <:+: s ++ t) :
    [x, y, z] <:+: s ∨ [x, y, z] <:+: t ∨ s.getLast? = some x ∧ t.head? = some y ∨
      s.getLast? = some y ∧ t.head? = some z := by
  rcases List.infix_append_iff.mp h with h | h | ⟨s', t', heq, hs, ht⟩
  · exact Or.inl h
  · exact Or.inr (Or.inl h)
  rcases List.cons_eq_append_iff.mp heq with ⟨-, rfl⟩ | ⟨s₁, rfl, heq₁⟩
  · exact Or.inr (Or.inl ht.isInfix)
  rcases List.cons_eq_append_iff.mp heq₁ with ⟨rfl, rfl⟩ | ⟨s₂, rfl, heq₂⟩
  · exact Or.inr (Or.inr (Or.inl ⟨List.singleton_suffix_iff_getLast?_eq_some.mp hs,
      List.singleton_prefix_iff_head?_eq_some.mp ((List.prefix_append [y] [z]).trans ht)⟩))
  rcases List.cons_eq_append_iff.mp heq₂ with ⟨rfl, rfl⟩ | ⟨s₃, rfl, heq₃⟩
  · exact Or.inr (Or.inr (Or.inr ⟨List.singleton_suffix_iff_getLast?_eq_some.mp
      ((List.suffix_append [x] [y]).trans hs), List.singleton_prefix_iff_head?_eq_some.mp ht⟩))
  · obtain ⟨rfl, rfl⟩ := List.append_eq_nil_iff.mp heq₃.symm
    exact Or.inl hs.isInfix

namespace TightBefore

theorem of_infix (h : TightBefore sign line) (hs : s <:+: line) : TightBefore sign s :=
  fun x hx hin => h x hx (hin.trans hs)

theorem of_not_mem (h : sign ∉ s) : TightBefore sign s :=
  fun _ _ hin => h (hin.subset (List.mem_cons_of_mem _ List.mem_cons_self))

theorem append (hs : TightBefore sign s) (ht : TightBefore sign t)
    (h : ∀ x ∈ s.getLast?, isBlank x = true → t.head? ≠ some sign) : TightBefore sign (s ++ t) := by
  intro x hx hin
  rcases pair_infix_append hin with hin | hin | ⟨hlast, hhead⟩
  · exact hs x hx hin
  · exact ht x hx hin
  · exact h x hlast hx hhead

theorem cons {c : Char} (hs : TightBefore sign s) (hc : isBlank c = false) :
    TightBefore sign (c :: s) := by
  refine append (s := [c]) (fun x _ hin => ?_) hs ?_
  · have := hin.length_le
    simp at this
  · intro x hx hblank
    obtain rfl : c = x := Option.some.inj hx
    rw [hc] at hblank
    cases hblank

end TightBefore

namespace OneBefore

theorem append_of_not_mem (hs : OneBefore sign s) (ht : sign ∉ t) : OneBefore sign (s ++ t) := by
  intro x y hx hy hin
  rcases List.infix_append_iff.mp hin with hin | hin | ⟨s', t', heq, hs', ht'⟩
  · exact hs x y hx hy hin
  · exact ht (hin.subset (by simp))
  · by_cases hnil : t' = []
    · rw [hnil, List.append_nil] at heq
      exact hs x y hx hy (heq ▸ hs'.isInfix)
    · have hlast := congrArg List.getLast? heq
      rw [List.getLast?_append_of_ne_nil _ hnil] at hlast
      exact ht (ht'.subset (List.mem_of_getLast? hlast.symm))

end OneBefore

namespace OneAfter

theorem of_infix (h : OneAfter sign line) (hs : s <:+: line) : OneAfter sign s :=
  fun x y hx hy hin => h x y hx hy (hin.trans hs)

theorem of_not_mem (h : sign ∉ s) : OneAfter sign s :=
  fun _ _ _ _ hin => h (hin.subset List.mem_cons_self)

theorem append (hs : OneAfter sign s) (ht : OneAfter sign t)
    (h : ∀ x ∈ t.head?, Yaml.isSpace x = false) : OneAfter sign (s ++ t) := by
  intro x y hx hy hin
  rcases triple_infix_append hin with hin | hin | ⟨-, hhead⟩ | ⟨-, hhead⟩
  · exact hs x y hx hy hin
  · exact ht x y hx hy hin
  · rw [h x hhead] at hx
    cases hx
  · rw [h y hhead] at hy
    cases hy

/-- Behind a sign and a space there is something else. -/
theorem cons_space {c : Char} (hs : OneAfter sign s)
    (h : ∀ x ∈ s.head?, Yaml.isSpace x = false) : OneAfter sign (c :: ' ' :: s) := by
  refine append (s := [c, ' ']) (fun x y _ _ hin => ?_) hs h
  have := hin.length_le
  simp at this

end OneAfter

end Pieces

theorem Yaml.isBlank_of_isSpace {c : Char} (h : Yaml.isSpace c = true) : isBlank c = true :=
  Yaml.isBlank_of_inGap (Bool.or_eq_true_iff.mpr (Or.inl h))

theorem Yaml.isSpace_of_not_isBlank {c : Char} (h : isBlank c = false) : Yaml.isSpace c = false :=
  Bool.of_not_eq_true fun hspace => by
    rw [Yaml.isBlank_of_isSpace hspace] at h
    cases h

/-- White space at the end of a line, if there is any, does not start with a space or a tab. -/
def TidyEnd (line : List Char) : Prop :=
  ∀ c ∈ (line.drop (trimEnd line).length).head?, Yaml.isSpace c = false

/-- No carriage return stands before the line feed of a line. -/
def TidyFeed (line : List Char) : Prop :=
  ¬ ['\r', '\n'] <:+ line

/-- Characters that end a line. -/
def FileLines.IsEnding (s : List Char) : Prop :=
  ∀ c ∈ s, isTerminator c = true

namespace FileLines.IsEnding

variable {ending : List Char} {c : Char}

theorem terminator (line : List Char) : IsEnding (terminator line) :=
  fun _ => isTerminator_of_mem

theorem not_mem (h : IsEnding ending) (hc : isBlank c = false) : c ∉ ending := fun hm => by
  rw [isBlank_of_isTerminator (h c hm)] at hc
  cases hc

theorem trimEnd_append (h : IsEnding ending) (s : List Char) :
    trimEnd (s ++ ending) = trimEnd s := by
  refine trimEnd_append_of_blank s ?_
  unfold trimEnd dropEndWhile
  rw [List.reverse_eq_nil_iff, List.dropWhile_eq_nil_iff]
  exact fun c hc => isBlank_of_isTerminator (h c (List.mem_reverse.mp hc))

theorem head (h : IsEnding ending) : ∀ c ∈ ending.head?, Yaml.isSpace c = false := by
  intro c hc
  have hend := h c (List.mem_of_mem_head? hc)
  rcases Bool.or_eq_true_iff.mp hend with hc | hc <;> rw [beq_iff_eq.mp hc] <;> rfl

end FileLines.IsEnding

namespace Content

open FileLines (isTerminator IsEnding)

variable {s ending : List Char}

/-- There is no more than one space inside brackets. -/
theorem spaceBrackets_tidy {opening closing : Char} (hopening : isBlank opening = false)
    (hclosing : isBlank closing = false) (hend : IsEnding ending) (s : List Char) :
    TidyInside opening closing (spaceBrackets opening closing s ++ ending) := by
  have hopened := squeezeAfter_squeezed hopening false s
  have hclosed := squeezeAfter_squeezed hclosing false (squeezeAfter opening false s).reverse
  rw [← List.reverse_reverse (squeezeAfter opening false s)] at hopened
  have hboth : Squeezed opening (spaceBrackets opening closing s) :=
    squeezeAfter_keeps hclosing false hopened
  constructor
  · refine OneAfter.append (fun x y hx hy hin => ?_)
      (OneAfter.of_not_mem (hend.not_mem hopening)) hend.head
    obtain rfl := hboth.space x (Yaml.isBlank_of_isSpace hx)
      ((List.prefix_append [opening, x] [y]).isInfix.trans hin)
    exact hboth.single y (Yaml.isBlank_of_isSpace hy) hin
  · refine OneBefore.append_of_not_mem (fun x y hx hy hin => ?_) (hend.not_mem hclosing)
    have hback : [closing, y, x] <:+: squeezeAfter closing false (squeezeAfter opening false s).reverse := by
      rw [← List.reverse_infix]
      exact hin
    obtain rfl := hclosed.space y hy ((List.prefix_append [closing, y] [x]).isInfix.trans hback)
    exact hclosed.single x hx hback

theorem spaced_infix (s : List Char) : spaced s = [] ∨ ∃ c r, trim s = c :: r ∧
    spaced s = ' ' :: c :: r ∧ isBlank c = false ∧ c :: r <:+: s := by
  unfold spaced
  cases htrim : trim s with
  | nil => exact Or.inl rfl
  | cons c r =>
    refine Or.inr ⟨c, r, rfl, rfl, head?_trim (s := s) (by rw [htrim]; rfl), ?_⟩
    rw [← htrim]
    exact (dropEndWhile_isPrefix isBlank (trimStart s)).isInfix.trans (trimStart_suffix s).isInfix

/-- No more than one space stands behind a sign before a text that has been spaced. -/
theorem spaced_oneAfter {sign c : Char} (h : OneAfter sign s) : OneAfter sign (c :: spaced s) := by
  rcases spaced_infix s with hnil | ⟨x, r, -, hspaced, hx, hin⟩
  · rw [hnil]
    intro x y _ _ hin
    have := hin.length_le
    simp at this
  · rw [hspaced]
    refine (h.of_infix hin).cons_space fun y hy => ?_
    obtain rfl : x = y := Option.some.inj hy
    exact Yaml.isSpace_of_not_isBlank hx

/-- A text behind a blank character or at the start of a line does not start with a sign that has to
stand behind something. -/
theorem spaced_tightBefore {sign : Char} (hsign : isBlank sign = false) (h : TightBefore sign s)
    (hhead : s.head?.all isBlank = true) : TightBefore sign (spaced s) := by
  rcases spaced_infix s with hnil | ⟨x, r, htrim, hspaced, hx, hin⟩
  · rw [hnil]
    exact TightBefore.of_not_mem List.not_mem_nil
  · rw [hspaced]
    refine TightBefore.append (s := [' ']) (TightBefore.of_not_mem ?_) (h.of_infix hin) fun _ _ _ heq => ?_
    · intro hm
      rw [List.mem_singleton.mp hm] at hsign
      cases hsign
    · -- The sign would stand behind the white space that is dropped.
      obtain rfl : x = sign := Option.some.inj heq
      obtain ⟨tail, htail⟩ : trim s <+: trimStart s := dropEndWhile_isPrefix isBlank (trimStart s)
      have hsplit : s.takeWhile isBlank ++ x :: (r ++ tail) = s := by
        rw [← List.cons_append, ← htrim, htail]
        exact List.takeWhile_append_dropWhile
      have hne : s.takeWhile isBlank ≠ [] := by
        intro hnil
        rw [hnil, List.nil_append] at hsplit
        rw [← hsplit, List.head?_cons, Option.all_some, hx] at hhead
        cases hhead
      have hlast := List.getLast_mem hne
      refine h _ (List.mem_takeWhile_imp hlast) ⟨(s.takeWhile isBlank).dropLast, r ++ tail, ?_⟩
      conv => rhs; rw [← hsplit, ← List.dropLast_append_getLast hne]
      simp

theorem dropEndWhile_of_last {p : Char → Bool} (h : ∀ c ∈ s.getLast?, p c = false) :
    dropEndWhile p s = s := by
  unfold dropEndWhile
  rw [← List.head?_reverse] at h
  cases hs : s.reverse with
  | nil => exact (List.reverse_eq_nil_iff.mp hs).symm
  | cons c r =>
    rw [hs] at h
    rw [List.dropWhile_cons_of_neg (by rw [h c rfl]; decide), ← hs, List.reverse_reverse]

theorem getLast?_trimEnd : ∀ x ∈ (trimEnd s).getLast?, isBlank x = false := by
  intro x hx
  rw [trimEnd, dropEndWhile, List.getLast?_reverse] at hx
  have hnot := List.head?_dropWhile_not isBlank s.reverse
  rw [Option.mem_def.mp hx] at hnot
  exact hnot

/-- A colon of a line: what stands before and behind it. The repair looks after the first one. -/
structure MendsColon (s : List Char) (key rest : List Char) : Prop where
  eq : s = key ++ ':' :: rest
  first : ':' ∉ key
  seen : key.all isBlank = false
  apart : rest.head?.all isBlank = true
  key : TidyColons key
  rest : TidyColons rest

theorem spaceColon_tidy {key rest : List Char} (h : MendsColon s key rest) (hend : IsEnding ending) :
    TidyColons (spaceColon s ++ ending) := by
  have hkey : trimEnd key <:+: key := (dropEndWhile_isPrefix isBlank key).isInfix
  have hcolon : isBlank ':' = false := by decide
  have hquestion : isBlank '?' = false := by decide
  rw [h.eq, spaceColon_key h.first h.seen h.apart]
  refine ⟨?_, ?_, ?_⟩
  · refine TightBefore.append (TightBefore.append (h.key.before.of_infix hkey)
      ((spaced_tightBefore hcolon h.rest.before h.apart).cons hcolon) fun x hx hblank => ?_)
      (TightBefore.of_not_mem (hend.not_mem hcolon)) fun x hx hblank hhead => ?_
    · rw [getLast?_trimEnd x hx] at hblank
      cases hblank
    · exact hend.not_mem hcolon (List.mem_of_mem_head? hhead)
  · refine OneAfter.append (OneAfter.append (h.key.after.of_infix hkey)
      (spaced_oneAfter h.rest.after) ?_) (OneAfter.of_not_mem (hend.not_mem hcolon)) hend.head
    exact fun x hx => by cases hx; rfl
  · refine OneAfter.append (OneAfter.append (h.key.question.of_infix hkey)
      (spaced_oneAfter h.rest.question) ?_) (OneAfter.of_not_mem (hend.not_mem hquestion)) hend.head
    exact fun x hx => by cases hx; rfl

/-- The space around commas in a text is the usual one. -/
structure CommasSpaced (s : List Char) : Prop where
  before : TightBefore ',' s
  after : OneAfter ',' s
  apart : SpaceAfter ',' s

namespace CommasSpaced

variable {t : List Char}

theorem of_not_mem (h : ',' ∉ s) : CommasSpaced s where
  before := .of_not_mem h
  after := .of_not_mem h
  apart _ hin := absurd (hin.subset List.mem_cons_self) h

theorem append (hs : CommasSpaced s) (ht : CommasSpaced t)
    (hlast : ∀ x ∈ s.getLast?, isBlank x = true → t.head? ≠ some ',')
    (hhead : ∀ x ∈ t.head?, Yaml.isSpace x = false)
    (hends : s.getLast? = some ',' → ∀ x ∈ t.head?, x = ' ' ∨ isTerminator x = true) :
    CommasSpaced (s ++ t) where
  before := hs.before.append ht.before hlast
  after := hs.after.append ht.after hhead
  apart x hin := by
    rcases pair_infix_append hin with hin | hin | ⟨hlast, hhead⟩
    · exact hs.apart x hin
    · exact ht.apart x hin
    · exact hends hlast x hhead

/-- A piece behind its comma. -/
theorem comma (h : ',' ∉ s) : CommasSpaced (',' :: spaced s) := by
  have hfree : ',' ∉ spaced s := fun hm => (mem_spaced hm).elim (by decide) h
  refine ⟨(TightBefore.of_not_mem hfree).cons (by decide), spaced_oneAfter (.of_not_mem h),
    fun x hin => ?_⟩
  rcases List.infix_cons_iff.mp hin with hin | hin
  · have hhead := (pair_prefix_iff.mp hin).2
    rcases spaced_infix s with hnil | ⟨c, r, -, hspaced, -⟩
    · rw [hnil] at hhead
      cases hhead
    · rw [hspaced] at hhead
      exact Or.inl (Option.some.inj hhead).symm
  · exact absurd (hin.subset List.mem_cons_self) hfree

end CommasSpaced

theorem trim_ne_nil (h : s.all isBlank = false) : trim s ≠ [] := by
  intro hnil
  have hstart : (trimStart s).all isBlank = true := by
    rw [← all_trimEnd, show trimEnd (trimStart s) = [] from hnil]
    rfl
  have hsplit : s.takeWhile isBlank ++ trimStart s = s := List.takeWhile_append_dropWhile
  rw [← hsplit, List.all_append, hstart, List.all_takeWhile] at h
  cases h

theorem head?_commas (ps : List (List Char)) :
    ∀ x ∈ (ps.flatMap fun piece => ',' :: piece).head?, x = ',' := by
  intro x hx
  cases ps with
  | nil => cases hx
  | cons piece r => exact (Option.some.inj hx).symm

theorem spacedPieces_tidy {ps : List (List Char)} (hfree : ∀ piece ∈ ps, ',' ∉ piece)
    (hseen : ∀ piece ∈ ps.dropLast, piece.all isBlank = false) :
    CommasSpaced ((spacedPieces ps).flatMap fun piece => ',' :: piece) := by
  induction ps using spacedPieces.induct with
  | case1 => exact .of_not_mem List.not_mem_nil
  | case2 last =>
    rw [spacedPieces, List.flatMap_singleton]
    exact .comma (hfree last List.mem_cons_self)
  | case3 piece r hr ih =>
    rw [List.dropLast_cons_of_ne_nil hr] at hseen
    have hrest := ih (fun p hp => hfree p (List.mem_cons_of_mem piece hp))
      fun p hp => hseen p (List.mem_cons_of_mem piece hp)
    have hfirst := hfree piece List.mem_cons_self
    have hpiece : trim piece ≠ [] := trim_ne_nil (hseen piece List.mem_cons_self)
    have hspaced : spaced piece = ' ' :: trim piece := if_neg (by rwa [List.isEmpty_iff])
    have hlast : ∀ x ∈ (',' :: ' ' :: trim piece).getLast?, isBlank x = false ∧ x ≠ ',' := by
      intro x hx
      rw [List.getLast?_cons_cons, List.getLast?_cons_of_ne_nil hpiece] at hx
      refine ⟨getLast?_trimEnd x hx, ?_⟩
      rintro rfl
      exact hfirst (mem_of_mem_trim (List.mem_of_getLast? hx))
    rw [spacedPieces_cons piece hr, List.flatMap_cons]
    refine .append (hspaced ▸ .comma hfirst) hrest (fun x hx hblank => ?_) (fun x hx => ?_)
      fun hcomma => ?_
    · rw [(hlast x hx).1] at hblank
      cases hblank
    · rw [head?_commas _ x hx]
      rfl
    · exact absurd rfl (hlast _ hcomma).2

/-- The repair leaves one space behind each comma, and none before it unless there is nothing else. -/
theorem spaceCommas_tidy (hseen : ∀ piece ∈ (pieces ',' s).dropLast, piece.all isBlank = false)
    (hend : IsEnding ending) : TidyCommas (spaceCommas s ++ ending) := by
  have hcomma : ',' ∉ ending := hend.not_mem (by decide)
  have hends : CommasSpaced ending := .of_not_mem hcomma
  have hfree {piece : List Char} (h : piece ∈ pieces ',' s) : ',' ∉ piece := not_mem_of_mem_pieces h
  have hshort : ∀ x ∈ ending.head?, x = ' ' ∨ isTerminator x = true := fun x hx =>
    Or.inr (hend x (List.mem_of_mem_head? hx))
  suffices h : CommasSpaced (spaceCommas s) ∧ (spaceCommas s).head? ≠ some ',' by
    obtain ⟨h, hhead⟩ := h
    have hall := h.append hends (fun x _ _ hhead => hcomma (List.mem_of_mem_head? hhead)) hend.head
      fun _ => hshort
    refine ⟨fun hfirst => ?_, hall.before, hall.after, hall.apart⟩
    rw [List.head?_append] at hfirst
    rcases Option.or_eq_some_iff.mp hfirst with hfirst | ⟨-, hfirst⟩
    · exact hhead hfirst
    · exact hcomma (List.mem_of_mem_head? hfirst)
  cases hpieces : pieces ',' s with
  | nil => exact absurd hpieces (pieces_ne_nil ',' s)
  | cons first r =>
    rw [hpieces] at hfree hseen
    have hfirst : ',' ∉ trimEnd first := fun hm =>
      hfree List.mem_cons_self (mem_of_mem_dropEndWhile hm)
    by_cases hr : r = []
    · have hs : s = first := by
        have hjoin := pieces_join hpieces
        rwa [hr, List.flatMap_nil, List.append_nil] at hjoin
      rw [hs, spaceCommas_single (hfree List.mem_cons_self)]
      exact ⟨.of_not_mem hfirst, fun hhead => hfirst (List.mem_of_mem_head? hhead)⟩
    · rw [List.dropLast_cons_of_ne_nil hr] at hseen
      rw [spaceCommas_pieces hr hpieces]
      constructor
      · refine CommasSpaced.append (.of_not_mem hfirst)
          (spacedPieces_tidy (fun p hp => hfree (List.mem_cons_of_mem first hp))
            fun p hp => hseen p (List.mem_cons_of_mem first hp)) (fun x hx hblank => ?_)
          (fun x hx => ?_) fun hlast => ?_
        · rw [getLast?_trimEnd x hx] at hblank
          cases hblank
        · rw [head?_commas _ x hx]
          rfl
        · exact absurd (List.mem_of_getLast? hlast) hfirst
      · intro hhead
        rw [List.head?_append] at hhead
        rcases Option.or_eq_some_iff.mp hhead with hhead | ⟨hnone, -⟩
        · exact hfirst (List.mem_of_mem_head? hhead)
        · have hall := all_trimEnd first
          rw [List.head?_eq_none_iff.mp hnone, hseen first List.mem_cons_self] at hall
          cases hall

/-! The ends of lines, and booleans. -/

theorem trimSpaces_tidy (h : trimSpaces s = trimEnd s) (hend : IsEnding ending) :
    TidyEnd (trimSpaces s ++ ending) := by
  have hkept : trimEnd (trimSpaces s ++ ending) = trimSpaces s := by
    rw [h, hend.trimEnd_append, trimEnd_trimEnd]
  unfold TidyEnd
  rw [hkept, List.drop_left]
  exact hend.head

theorem lowerRun_isTerminator (run : List Char) :
    (lowerRun run).map isTerminator = run.map isTerminator := by
  have hletters : "truefalsTRUEFALSſ".toList.all (fun c =>
      isTerminator c.toLower == isTerminator c) = true := by decide
  unfold lowerRun
  split
  next h =>
    rw [List.map_map]
    refine List.map_congr_left fun c hc => ?_
    exact beq_iff_eq.mp (List.all_eq_true.mp hletters c (letter_of_truthWord h hc))
  · rfl

theorem lowerTruth_isTerminator (s : List Char) :
    (lowerTruth s).map isTerminator = s.map isTerminator := by
  conv_rhs => rw [← List.flatten_splitBy (fun a b => isWord a == isWord b) s]
  show ((wordRuns s).flatMap lowerRun).map isTerminator = _
  rw [List.map_flatMap, List.map_flatten, List.flatMap]
  exact congrArg List.flatten (List.map_congr_left fun run _ => lowerRun_isTerminator run)

theorem content_lowerTruth (line : List Char) :
    FileLines.content (lowerTruth (FileLines.content line)) =
      lowerTruth (FileLines.content line) := by
  generalize hs : FileLines.content line = s
  have hlast : ∀ c ∈ (lowerTruth s).getLast?, isTerminator c = false := by
    intro c hc
    have hsame := congrArg List.getLast? (lowerTruth_isTerminator s)
    rw [List.getLast?_map, List.getLast?_map, Option.mem_def.mp hc] at hsame
    obtain ⟨d, hd, heq⟩ := Option.map_eq_some_iff.mp hsame.symm
    rw [← heq]
    exact FileLines.getLast?_content (hs ▸ hd)
  exact dropEndWhile_of_last hlast

/-- The long s is none of the letters of a boolean, and no other letter becomes one in lower case. -/
theorem eq_of_lowerRun {run : List Char} {word : String} (hword : word ∈ Rules.truthWords)
    (htruth : isTruthWord run = true) (h : word.toList = lowerRun run) :
    word = "true" ∨ word = "false" := by
  have hletters : ∀ word ∈ Rules.truthWords, 'ſ' ∉ word.toList := by decide
  have hlong : 'ſ' ∉ run := fun hm => hletters word hword <| by
    rw [h, lowerRun, if_pos htruth]
    exact List.mem_map.mpr ⟨'ſ', hm, by decide⟩
  have hfold : run.map foldLetter = word.toList := by
    rw [h, lowerRun, if_pos htruth]
    refine List.map_congr_left fun c hc => if_neg fun heq => ?_
    exact hlong (beq_iff_eq.mp heq ▸ hc)
  unfold isTruthWord at htruth
  dsimp only at htruth
  rw [hfold, Bool.or_eq_true_iff, beq_iff_eq, beq_iff_eq] at htruth
  exact htruth.imp String.toList_inj.mp String.toList_inj.mp

/-- A line whose only booleans are those that the repair puts in lower case. -/
theorem lowerTruth_tidy {line : List Char}
    (h : ∀ word ∈ Rules.truthWords, word.toList ∈ wordRuns (FileLines.content line) →
      isTruthWord word.toList = true) (hend : IsEnding ending) :
    TidyTruth (lowerTruth (FileLines.content line) ++ ending) := by
  intro word hword hrun
  rw [FileLines.content_append_ending _ hend, content_lowerTruth, wordRuns_lowerTruth] at hrun
  obtain ⟨run, hrun, heq⟩ := List.mem_map.mp hrun
  by_cases htruth : isTruthWord run = true
  · exact eq_of_lowerRun hword htruth heq.symm
  · rw [lowerRun, if_neg htruth] at heq
    rw [heq] at hrun
    exact absurd (h word hword hrun) (heq ▸ htruth)

end Content

end Blueprint
