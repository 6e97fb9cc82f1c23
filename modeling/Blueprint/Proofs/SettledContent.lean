import Mathlib.Data.List.DropRight
import Mathlib.Data.List.SplitBy
import Blueprint.Proofs.FeedFreeContent

/-!
Repairs of the content of a line leave nothing to do for themselves: a second one changes nothing.
-/

namespace Blueprint

namespace Text

variable {s : List Char} {separator c : Char}

/-! Trimmed texts. -/

theorem dropEndWhile_dropEndWhile (p : Char → Bool) (s : List Char) :
    dropEndWhile p (dropEndWhile p s) = dropEndWhile p s := by
  unfold dropEndWhile
  rw [List.reverse_reverse, List.dropWhile_idempotent]

theorem trimEnd_trimEnd (s : List Char) : trimEnd (trimEnd s) = trimEnd s :=
  dropEndWhile_dropEndWhile isBlank s

theorem dropEndWhile_append (p : Char → Bool) (s t : List Char) :
    dropEndWhile p (s ++ t) =
      if dropEndWhile p t = [] then dropEndWhile p s else s ++ dropEndWhile p t := by
  unfold dropEndWhile
  rw [List.reverse_append, List.dropWhile_append]
  by_cases h : (t.reverse.dropWhile p).reverse = []
  · rw [if_pos h, if_pos (List.isEmpty_iff.mpr (List.reverse_eq_nil_iff.mp h))]
  · have hne : ¬ (t.reverse.dropWhile p).isEmpty = true := fun hempty =>
      h (List.reverse_eq_nil_iff.mpr (List.isEmpty_iff.mp hempty))
    rw [if_neg h, if_neg hne, List.reverse_append, List.reverse_reverse]

theorem trimEnd_append (s : List Char) {t : List Char} (h : trimEnd t ≠ []) :
    trimEnd (s ++ t) = s ++ trimEnd t :=
  (dropEndWhile_append isBlank s t).trans (if_neg h)

theorem trimEnd_append_of_blank (s : List Char) {t : List Char} (h : trimEnd t = []) :
    trimEnd (s ++ t) = trimEnd s :=
  (dropEndWhile_append isBlank s t).trans (if_pos h)

theorem trimStart_of_head (h : ∀ c ∈ s.head?, isBlank c = false) : trimStart s = s := by
  cases s with
  | nil => rfl
  | cons c r =>
    have hc := h c rfl
    exact List.dropWhile_cons_of_neg (by rw [hc]; decide)

theorem head?_trim (h : c ∈ (trim s).head?) : isBlank c = false := by
  obtain ⟨t, ht⟩ := dropEndWhile_isPrefix isBlank (trimStart s)
  have hhead : (trimStart s).head? = some c := by
    rw [← ht, List.head?_append, show (dropEndWhile isBlank (trimStart s)).head? = some c from h]
    rfl
  exact head?_trimStart hhead

theorem trim_trim (s : List Char) : trim (trim s) = trim s := by
  show trimEnd (trimStart (trim s)) = trim s
  rw [trimStart_of_head fun _ => head?_trim]
  exact trimEnd_trimEnd (trimStart s)

theorem trim_blank_cons (h : isBlank c = true) (s : List Char) : trim (c :: s) = trim s := by
  unfold trim trimStart
  rw [List.dropWhile_cons_of_pos h]

theorem all_trimEnd (s : List Char) : (trimEnd s).all isBlank = s.all isBlank := by
  have hdrop (t : List Char) : (t.dropWhile isBlank).all isBlank = t.all isBlank := by
    induction t with
    | nil => rfl
    | cons c r ih =>
      rw [List.dropWhile_cons, List.all_cons]
      split
      next hc => rw [ih, hc, Bool.true_and]
      · rw [List.all_cons]
  unfold trimEnd dropEndWhile
  rw [List.all_reverse, hdrop, List.all_reverse]

/-! Texts cut at a separator. -/

theorem cutAt?_append {before : List Char} (h : separator ∉ before) (rest : List Char) :
    cutAt? separator (before ++ separator :: rest) = some (before, rest) := by
  induction before with
  | nil => exact if_pos rfl
  | cons c before ih =>
    obtain ⟨hc, hbefore⟩ := List.ne_and_not_mem_of_not_mem_cons h
    rw [List.cons_append, cutAt?, if_neg hc.symm, ih hbefore]
    rfl

theorem not_mem_of_cutAt? {before rest : List Char} (h : cutAt? separator s = some (before, rest)) :
    separator ∉ before := by
  induction s generalizing before with
  | nil => cases h
  | cons c r ih =>
    rw [cutAt?] at h
    split at h
    · cases h
      exact List.not_mem_nil
    next hc =>
      obtain ⟨⟨b, t⟩, hcut, heq⟩ := Option.map_eq_some_iff.mp h
      cases heq
      exact List.not_mem_cons_of_ne_of_not_mem (Ne.symm hc) (ih hcut)

theorem pieces_of_not_mem (h : separator ∉ s) : pieces separator s = [s] := by
  induction s with
  | nil => rfl
  | cons c r ih =>
    obtain ⟨hc, hr⟩ := List.ne_and_not_mem_of_not_mem_cons h
    rw [pieces, ih hr]
    exact if_neg hc.symm

theorem pieces_append (h : separator ∉ s) (t : List Char) :
    pieces separator (s ++ separator :: t) = s :: pieces separator t := by
  induction s with
  | nil =>
    rw [List.nil_append, pieces]
    split
    next hnone => exact absurd hnone (pieces_ne_nil separator t)
    next hpieces => rw [if_pos rfl, hpieces]
  | cons c r ih =>
    obtain ⟨hc, hr⟩ := List.ne_and_not_mem_of_not_mem_cons h
    rw [List.cons_append, pieces, ih hr]
    exact if_neg hc.symm

theorem not_mem_of_mem_pieces {piece : List Char} (h : piece ∈ pieces separator s) :
    separator ∉ piece := by
  induction s generalizing piece with
  | nil =>
    rw [List.mem_singleton.mp h]
    exact List.not_mem_nil
  | cons c r ih =>
    rw [pieces] at h
    split at h
    next hnone => exact absurd hnone (pieces_ne_nil separator r)
    next first rest hpieces =>
      rw [hpieces] at ih
      split at h
      · rcases List.mem_cons.mp h with rfl | h
        · exact List.not_mem_nil
        · exact ih h
      next hc =>
        rcases List.mem_cons.mp h with rfl | h
        · exact List.not_mem_cons_of_ne_of_not_mem (Ne.symm hc) (ih List.mem_cons_self)
        · exact ih (List.mem_cons_of_mem first h)

/-- Pieces without the separator are found again. -/
theorem pieces_flatMap {first : List Char} {rest : List (List Char)} (hfirst : separator ∉ first)
    (hrest : ∀ piece ∈ rest, separator ∉ piece) :
    pieces separator (first ++ rest.flatMap fun piece => separator :: piece) = first :: rest := by
  induction rest generalizing first with
  | nil =>
    rw [List.flatMap_nil, List.append_nil]
    exact pieces_of_not_mem hfirst
  | cons piece rest ih =>
    rw [List.flatMap_cons, List.cons_append, pieces_append hfirst,
      ih (hrest piece List.mem_cons_self) fun p hp => hrest p (List.mem_cons_of_mem piece hp)]

end Text

namespace Content

open Text

/-! Booleans in lower case. -/

/-- A run of characters, in lower case if it is a boolean. -/
def lowerRun (run : List Char) : List Char :=
  if isTruthWord run then run.map Char.toLower else run

theorem truthLetters :
    "truefalsTRUEFALSſ".toList.all (fun c =>
      c.toLower.toLower = c.toLower ∧ isWord c.toLower = isWord c) = true := by
  decide

theorem lowerRun_lowerRun (run : List Char) : lowerRun (lowerRun run) = lowerRun run := by
  unfold lowerRun
  by_cases h : isTruthWord run = true
  · have hagain : (run.map Char.toLower).map Char.toLower = run.map Char.toLower := by
      rw [List.map_map]
      refine List.map_congr_left fun c hc => ?_
      exact (of_decide_eq_true
        (List.all_eq_true.mp truthLetters c (letter_of_truthWord h hc))).1
    rw [if_pos h, hagain, ite_self]
  · rw [if_neg h, if_neg h]

theorem lowerRun_isWord (run : List Char) : (lowerRun run).map isWord = run.map isWord := by
  unfold lowerRun
  split
  next h =>
    rw [List.map_map]
    refine List.map_congr_left fun c hc => ?_
    exact (of_decide_eq_true
      (List.all_eq_true.mp truthLetters c (letter_of_truthWord h hc))).2
  · rfl

theorem wordRuns_lowerTruth (s : List Char) :
    wordRuns (lowerTruth s) = (wordRuns s).map lowerRun := by
  have hruns : lowerTruth s = ((wordRuns s).map lowerRun).flatten := rfl
  have hne {run : List Char} (h : run ≠ []) : lowerRun run ≠ [] := by
    intro hnil
    have hwords := lowerRun_isWord run
    rw [hnil] at hwords
    exact h (List.map_eq_nil_iff.mp hwords.symm)
  have hlast {run : List Char} (h : run ≠ []) :
      isWord ((lowerRun run).getLast (hne h)) = isWord (run.getLast h) := by
    have hwords := congrArg List.getLast? (lowerRun_isWord run)
    rw [List.getLast?_map, List.getLast?_map, List.getLast?_eq_some_getLast (hne h),
      List.getLast?_eq_some_getLast h] at hwords
    exact Option.some.inj hwords
  have hhead {run : List Char} (h : run ≠ []) :
      isWord ((lowerRun run).head (hne h)) = isWord (run.head h) := by
    have hwords := congrArg List.head? (lowerRun_isWord run)
    rw [List.head?_map, List.head?_map, List.head?_eq_some_head (hne h),
      List.head?_eq_some_head h] at hwords
    exact Option.some.inj hwords
  rw [hruns]
  refine List.splitBy_flatten ?_ ?_ ?_
  · intro hnil
    obtain ⟨run, hrun, heq⟩ := List.mem_map.mp hnil
    exact hne (List.ne_nil_of_mem_splitBy hrun) heq
  · intro m hm
    obtain ⟨run, hrun, rfl⟩ := List.mem_map.mp hm
    have hchain := List.isChain_of_mem_splitBy hrun
    rw [← List.isChain_map isWord (R := fun a b => (a == b) = true)] at hchain ⊢
    rwa [lowerRun_isWord]
  · have hborders := List.isChain_getLast_head_splitBy
      (fun a b => isWord a == isWord b) s
    rw [List.isChain_map]
    refine hborders.imp fun a b hab => ?_
    obtain ⟨ha, hb, hdiffer⟩ := hab
    refine ⟨hne ha, hne hb, ?_⟩
    rw [hlast, hhead]
    exact hdiffer

theorem lowerTruth_lowerTruth (s : List Char) : lowerTruth (lowerTruth s) = lowerTruth s := by
  show (wordRuns (lowerTruth s)).flatMap lowerRun = (wordRuns s).flatMap lowerRun
  rw [wordRuns_lowerTruth, List.flatMap_map]
  exact congrArg (List.flatMap · (wordRuns s)) (funext lowerRun_lowerRun)

theorem trimSpaces_trimSpaces (s : List Char) : trimSpaces (trimSpaces s) = trimSpaces s :=
  dropEndWhile_dropEndWhile _ s

/-! What follows a colon, or a last comma. -/

/-- A text behind one space, or nothing at all. -/
def spaced (s : List Char) : List Char :=
  if (trim s).isEmpty then [] else ' ' :: trim s

theorem trim_spaced (s : List Char) : trim (spaced s) = trim s := by
  unfold spaced
  split
  next h => rw [List.isEmpty_iff.mp h]; rfl
  · rw [trim_blank_cons (by decide), trim_trim]

theorem spaced_spaced (s : List Char) : spaced (spaced s) = spaced s := by
  show (if (trim (spaced s)).isEmpty then [] else ' ' :: trim (spaced s)) = spaced s
  rw [trim_spaced]
  rfl

theorem head?_spaced (s : List Char) : (spaced s).head?.all isBlank = true := by
  unfold spaced
  split
  · rfl
  · rfl

theorem spaceColon_key {key rest : List Char} (hkey : ':' ∉ key) (hseen : key.all isBlank = false)
    (hgap : rest.head?.all isBlank = true) :
    spaceColon (key ++ ':' :: rest) = trimEnd key ++ ':' :: spaced rest := by
  unfold spaceColon
  rw [cutAt?_append hkey]
  dsimp only
  rw [hseen, hgap]
  rfl

theorem spaceColon_spaceColon (s : List Char) : spaceColon (spaceColon s) = spaceColon s := by
  cases hcut : cutAt? ':' s with
  | none =>
    have hsame : spaceColon s = s := by
      unfold spaceColon
      rw [hcut]
    rw [hsame, hsame]
  | some cut =>
    obtain ⟨key, rest⟩ := cut
    have hkey := not_mem_of_cutAt? hcut
    by_cases hleft : (key.all isBlank || !rest.head?.all isBlank) = true
    · have hsame : spaceColon s = s := by
        unfold spaceColon
        rw [hcut]
        exact if_pos hleft
      rw [hsame, hsame]
    · obtain ⟨hseen, hgap⟩ := Bool.or_eq_false_iff.mp (Bool.eq_false_iff.mpr hleft)
      have hgap : rest.head?.all isBlank = true := by simpa using hgap
      have hends : ':' ∉ trimEnd key := fun hm => hkey (mem_of_mem_dropEndWhile hm)
      rw [cutAt?_eq hcut, spaceColon_key hkey hseen hgap,
        spaceColon_key hends ((all_trimEnd key).trans hseen) (head?_spaced rest), trimEnd_trimEnd,
        spaced_spaced]

/-! Commas. -/

/-- The pieces of a text behind its commas, as they are left. -/
def spacedPieces : List (List Char) → List (List Char)
  | [] => []
  | [last] => [spaced last]
  | piece :: r => (' ' :: trim piece) :: spacedPieces r

theorem spacedPieces_cons (piece : List Char) {r : List (List Char)} (h : r ≠ []) :
    spacedPieces (piece :: r) = (' ' :: trim piece) :: spacedPieces r := by
  rw [spacedPieces]
  exact h

theorem spacedPieces_ne_nil {pieces : List (List Char)} (h : pieces ≠ []) :
    spacedPieces pieces ≠ [] := by
  cases pieces with
  | nil => exact absurd rfl h
  | cons piece r =>
    by_cases hr : r = []
    · rw [hr]
      exact List.cons_ne_nil _ _
    · rw [spacedPieces_cons piece hr]
      exact List.cons_ne_nil _ _

theorem spacedPieces_spacedPieces (pieces : List (List Char)) :
    spacedPieces (spacedPieces pieces) = spacedPieces pieces := by
  induction pieces using spacedPieces.induct with
  | case1 => rfl
  | case2 last => exact congrArg (fun s => [s]) (spaced_spaced last)
  | case3 piece r hr ih =>
    rw [spacedPieces_cons piece hr, spacedPieces_cons _ (spacedPieces_ne_nil hr), ih,
      trim_blank_cons (by decide), trim_trim]

theorem mem_spaced {c : Char} {s : List Char} (h : c ∈ spaced s) : c = ' ' ∨ c ∈ s := by
  unfold spaced at h
  split at h
  · cases h
  · exact (List.mem_cons.mp h).imp_right mem_of_mem_trim

theorem comma_spacedPieces {pieces : List (List Char)} (h : ∀ piece ∈ pieces, ',' ∉ piece) :
    ∀ piece ∈ spacedPieces pieces, ',' ∉ piece := by
  induction pieces using spacedPieces.induct with
  | case1 => exact h
  | case2 last =>
    intro piece hpiece hm
    rw [List.mem_singleton.mp hpiece] at hm
    exact (mem_spaced hm).elim (by decide) (h last List.mem_cons_self)
  | case3 first r hr ih =>
    rw [spacedPieces_cons first hr]
    refine List.forall_mem_cons.mpr ⟨fun hm => ?_, ih fun p hp => h p (List.mem_cons_of_mem _ hp)⟩
    rcases List.mem_cons.mp hm with hm | hm
    · exact absurd hm (by decide)
    · exact h first List.mem_cons_self (mem_of_mem_trim hm)

theorem trimEnd_comma (s : List Char) : trimEnd (',' :: s) = ',' :: trimEnd s := by
  by_cases h : trimEnd s = []
  · have hcomma := trimEnd_append_of_blank [','] h
    rw [List.singleton_append] at hcomma
    rw [hcomma, h]
    rfl
  · exact trimEnd_append [','] h

theorem spacedPieces_text_ne_nil {pieces : List (List Char)} (h : pieces ≠ []) :
    ((spacedPieces pieces).flatMap fun piece => ',' :: piece) ≠ [] := by
  intro hnil
  obtain ⟨p, hp⟩ := List.exists_mem_of_ne_nil _ (spacedPieces_ne_nil h)
  exact List.cons_ne_nil _ _ (List.flatMap_eq_nil_iff.mp hnil p hp)

theorem trimEnd_afterComma {pieces : List (List Char)} (h : pieces ≠ []) :
    trimEnd (afterComma pieces) = (spacedPieces pieces).flatMap fun piece => ',' :: piece := by
  induction pieces using afterComma.induct with
  | case1 => exact absurd rfl h
  | case2 last =>
    rw [afterComma, trimEnd_comma, spacedPieces, List.flatMap_singleton]
    congr 1
    by_cases hempty : trim last = []
    · have hblank := trimEnd_append_of_blank [' '] (t := trimStart last) hempty
      rw [List.singleton_append] at hblank
      rw [hblank]
      unfold spaced
      rw [hempty]
      rfl
    · have hspace := trimEnd_append [' '] (t := trimStart last) hempty
      rw [List.singleton_append] at hspace
      rw [hspace]
      unfold spaced
      rw [if_neg (by rwa [List.isEmpty_iff])]
      rfl
  | case3 piece r hr ih =>
    have htail := ih hr
    have hne : trimEnd (afterComma r) ≠ [] := htail ▸ spacedPieces_text_ne_nil hr
    rw [spacedPieces_cons piece hr, List.flatMap_cons, ← htail, afterComma]
    · exact trimEnd_append (',' :: ' ' :: trim piece) hne
    · exact hr

theorem spaceCommas_pieces {s first : List Char} {r : List (List Char)} (hr : r ≠ [])
    (h : pieces ',' s = first :: r) :
    spaceCommas s = trimEnd first ++ (spacedPieces r).flatMap fun piece => ',' :: piece := by
  have hspaces : spaceCommas s = trimEnd (trimEnd first ++ afterComma r) := by
    unfold spaceCommas
    rw [h]
    cases r with
    | nil => exact absurd rfl hr
    | cons => rfl
  have hne : trimEnd (afterComma r) ≠ [] :=
    trimEnd_afterComma hr ▸ spacedPieces_text_ne_nil hr
  rw [hspaces, trimEnd_append _ hne, trimEnd_afterComma hr]

theorem spaceCommas_single {s : List Char} (h : ',' ∉ s) : spaceCommas s = trimEnd s := by
  unfold spaceCommas
  rw [pieces_of_not_mem h]

theorem spaceCommas_spaceCommas (s : List Char) : spaceCommas (spaceCommas s) = spaceCommas s := by
  have hfree {piece : List Char} (h : piece ∈ pieces ',' s) : ',' ∉ piece :=
    not_mem_of_mem_pieces h
  cases hpieces : pieces ',' s with
  | nil => exact absurd hpieces (pieces_ne_nil ',' s)
  | cons first r =>
    rw [hpieces] at hfree
    have hfirst := hfree List.mem_cons_self
    have hend : ',' ∉ trimEnd first := fun hm => hfirst (mem_of_mem_dropEndWhile hm)
    by_cases hr : r = []
    · have hs : s = first := by
        have hjoin := pieces_join hpieces
        rwa [hr, List.flatMap_nil, List.append_nil] at hjoin
      rw [hs, spaceCommas_single hfirst, spaceCommas_single hend, trimEnd_trimEnd]
    · have hrest := comma_spacedPieces fun piece hp => hfree (List.mem_cons_of_mem first hp)
      have hagain := pieces_flatMap hend hrest
      rw [spaceCommas_pieces hr hpieces, spaceCommas_pieces (spacedPieces_ne_nil hr) hagain,
        trimEnd_trimEnd, spacedPieces_spacedPieces]

/-! White space inside brackets. -/

/-- No white space stands behind a sign but a single space. -/
structure Squeezed (sign : Char) (s : List Char) : Prop where
  space : ∀ c, isBlank c = true → [sign, c] <:+: s → c = ' '
  single : ∀ c, isBlank c = true → ¬ [sign, ' ', c] <:+: s

variable {sign other c : Char} {dropping : Bool} {s r : List Char}

theorem squeezed_nil : Squeezed sign [] :=
  ⟨fun _ _ h => absurd (List.infix_nil.mp h) (List.cons_ne_nil _ _),
    fun _ _ h => absurd (List.infix_nil.mp h) (List.cons_ne_nil _ _)⟩

theorem pair_prefix_iff {x y : Char} : [x, y] <+: c :: s ↔ x = c ∧ s.head? = some y := by
  rw [List.cons_prefix_cons, List.singleton_prefix_iff_head?_eq_some]

theorem squeezed_cons :
    Squeezed sign (c :: s) ↔ Squeezed sign s ∧
      (c = sign → ∀ x, isBlank x = true → (s.head? = some x → x = ' ') ∧ ¬ [' ', x] <+: s) := by
  constructor
  · intro h
    have hrest : s <:+: c :: s := (List.suffix_cons c s).isInfix
    refine ⟨⟨fun x hx hi => h.space x hx (hi.trans hrest),
      fun x hx hi => h.single x hx (hi.trans hrest)⟩, ?_⟩
    rintro rfl x hx
    refine ⟨fun hhead => h.space x hx ?_, fun hprefix => h.single x hx ?_⟩
    · exact (pair_prefix_iff.mpr ⟨rfl, hhead⟩).isInfix
    · exact (List.cons_prefix_cons.mpr ⟨rfl, hprefix⟩).isInfix
  · rintro ⟨h, hc⟩
    refine ⟨fun x hx hi => ?_, fun x hx hi => ?_⟩
    · rcases List.infix_cons_iff.mp hi with hi | hi
      · obtain ⟨heq, hhead⟩ := pair_prefix_iff.mp hi
        exact (hc heq.symm x hx).1 hhead
      · exact h.space x hx hi
    · rcases List.infix_cons_iff.mp hi with hi | hi
      · obtain ⟨heq, hi⟩ := List.cons_prefix_cons.mp hi
        exact (hc heq.symm x hx).2 hi
      · exact h.single x hx hi

theorem squeezed_reverse_cons :
    Squeezed sign (c :: s).reverse ↔ Squeezed sign s.reverse ∧
      (isBlank c = true → (s.head? = some sign → c = ' ') ∧ ¬ [' ', sign] <+: s) := by
  have hback {t l : List Char} : t.reverse <:+: l.reverse ↔ t <:+: l := List.reverse_infix
  constructor
  · intro h
    have hrest : s.reverse <:+: (c :: s).reverse := hback.mpr (List.suffix_cons c s).isInfix
    refine ⟨⟨fun x hx hi => h.space x hx (hi.trans hrest),
      fun x hx hi => h.single x hx (hi.trans hrest)⟩, ?_⟩
    intro hblank
    refine ⟨fun hhead => h.space c hblank ?_, fun hprefix => h.single c hblank ?_⟩
    · refine (hback (t := [c, sign])).mpr ?_
      exact (pair_prefix_iff.mpr ⟨rfl, hhead⟩).isInfix
    · refine (hback (t := [c, ' ', sign])).mpr ?_
      exact (List.cons_prefix_cons.mpr ⟨rfl, hprefix⟩).isInfix
  · rintro ⟨h, hc⟩
    refine ⟨fun x hx hi => ?_, fun x hx hi => ?_⟩
    · rcases List.infix_cons_iff.mp ((hback (t := [x, sign])).mp hi) with hi | hi
      · obtain ⟨heq, hhead⟩ := pair_prefix_iff.mp hi
        subst heq
        exact (hc hx).1 hhead
      · exact h.space x hx ((hback (t := [x, sign])).mpr hi)
    · rcases List.infix_cons_iff.mp ((hback (t := [x, ' ', sign])).mp hi) with hi | hi
      · obtain ⟨heq, htail⟩ := List.cons_prefix_cons.mp hi
        subst heq
        exact (hc hx).2 htail
      · exact h.single x hx ((hback (t := [x, ' ', sign])).mpr hi)

theorem squeezeAfter_cons (sign c : Char) (r : List Char) :
    squeezeAfter sign false (c :: r) =
      if c == sign && r.head?.any isBlank then c :: ' ' :: squeezeAfter sign true r
      else c :: squeezeAfter sign false r := rfl

theorem squeezeAfter_space (h : isBlank sign = false) (r : List Char) :
    squeezeAfter sign false (' ' :: r) = ' ' :: squeezeAfter sign false r := by
  have hne : (' ' == sign) = false := beq_eq_false_iff_ne.mpr fun heq => by
    rw [← heq] at h
    cases h
  rw [squeezeAfter_cons, hne, Bool.false_and, if_neg Bool.false_ne_true]

theorem head?_squeezeAfter (sign : Char) (s : List Char) :
    (squeezeAfter sign false s).head? = s.head? := by
  cases s with
  | nil => rfl
  | cons c r =>
    rw [squeezeAfter_cons]
    split <;> rfl

theorem head?_squeezeAfter_true (h : (squeezeAfter sign true s).head? = some c) :
    isBlank c = false := by
  induction s with
  | nil => cases h
  | cons x r ih =>
    rw [squeezeAfter, Bool.true_and] at h
    split at h
    · exact ih h
    next hx =>
      have hhead : x = c := by
        split at h <;> exact Option.some.inj h
      exact hhead ▸ Bool.eq_false_iff.mpr hx

theorem squeezeAfter_true (h : ∀ c ∈ s.head?, isBlank c = false) :
    squeezeAfter sign true s = squeezeAfter sign false s := by
  cases s with
  | nil => rfl
  | cons x r => rw [squeezeAfter, squeezeAfter, h x rfl, Bool.and_false, Bool.and_false]

theorem squeezeAfter_squeezed (hsign : isBlank sign = false) (dropping : Bool) (s : List Char) :
    Squeezed sign (squeezeAfter sign dropping s) := by
  induction s generalizing dropping with
  | nil => exact squeezed_nil
  | cons x r ih =>
    rw [squeezeAfter]
    split
    · exact ih true
    · split
      · refine squeezed_cons.mpr ⟨squeezed_cons.mpr ⟨ih true, ?_⟩, fun _ y hy => ⟨?_, ?_⟩⟩
        · rintro rfl
          cases hsign
        · intro hhead
          exact (Option.some.inj hhead).symm
        · intro hprefix
          have hhead := (pair_prefix_iff.mp hprefix).2
          rw [head?_squeezeAfter_true hhead] at hy
          cases hy
      next hgap =>
        refine squeezed_cons.mpr ⟨ih false, ?_⟩
        rintro rfl
        have hshown : ∀ y ∈ r.head?, isBlank y = false := by
          intro y hy
          rw [BEq.rfl, Bool.true_and, Option.mem_def.mp hy] at hgap
          exact Bool.eq_false_iff.mpr hgap
        have hhead {y : Char} (hy : isBlank y = true) :
            (squeezeAfter x false r).head? ≠ some y := by
          intro hhead
          rw [head?_squeezeAfter] at hhead
          rw [hshown y hhead] at hy
          cases hy
        refine fun y hy => ⟨fun h => absurd h (hhead hy), fun hprefix => ?_⟩
        obtain ⟨t, ht⟩ := hprefix
        exact hhead (by decide : isBlank ' ' = true) (ht ▸ rfl)

theorem squeezeAfter_of_squeezed (hsign : isBlank sign = false) (h : Squeezed sign s) :
    squeezeAfter sign false s = s := by
  induction s with
  | nil => rfl
  | cons x r ih =>
    obtain ⟨hr, hx⟩ := squeezed_cons.mp h
    rw [squeezeAfter_cons]
    split
    next hgap =>
      obtain ⟨hxsign, hblank⟩ := Bool.and_eq_true_iff.mp hgap
      obtain ⟨y, hhead, hy⟩ := (Option.any_eq_true ..).mp hblank
      obtain ⟨r, rfl⟩ : ∃ t, r = y :: t := ⟨r.tail, List.eq_cons_of_mem_head? hhead⟩
      obtain rfl := (hx (eq_of_beq hxsign) y hy).1 rfl
      have hshown : ∀ z ∈ r.head?, isBlank z = false := by
        intro z hz
        refine Bool.eq_false_iff.mpr fun hblank => ?_
        exact (hx (eq_of_beq hxsign) z hblank).2 (pair_prefix_iff.mpr ⟨rfl, hz⟩)
      have hkept := ih hr
      rw [squeezeAfter_space hsign] at hkept
      rw [squeezeAfter, hy, Bool.and_self, if_pos rfl, squeezeAfter_true hshown, hkept]
    · rw [ih hr]

theorem prefix_of_squeezeAfter (hother : isBlank other = false)
    (h : [' ', sign] <+: squeezeAfter other false s) : [' ', sign] <+: s := by
  cases s with
  | nil => exact h
  | cons x r =>
    have hx : x = ' ' := by
      obtain ⟨t, ht⟩ := h
      have hhead := head?_squeezeAfter other (x :: r)
      rw [← ht] at hhead
      exact (Option.some.inj hhead).symm
    subst hx
    rw [squeezeAfter_space hother, pair_prefix_iff, head?_squeezeAfter] at h
    exact pair_prefix_iff.mpr h

/-- Closing up what stands ahead of another sign keeps what stands behind this one. -/
theorem squeezeAfter_keeps (hother : isBlank other = false) (dropping : Bool)
    (h : Squeezed sign s.reverse) : Squeezed sign (squeezeAfter other dropping s).reverse := by
  induction s generalizing dropping with
  | nil => exact h
  | cons x r ih =>
    obtain ⟨hr, hx⟩ := squeezed_reverse_cons.mp h
    rw [squeezeAfter]
    split
    · exact ih true hr
    · split
      next hgap =>
        have hsame := eq_of_beq (Bool.and_eq_true_iff.mp hgap).1
        refine squeezed_reverse_cons.mpr ⟨squeezed_reverse_cons.mpr ⟨ih true hr, ?_⟩, ?_⟩
        · refine fun _ => ⟨fun _ => rfl, fun hprefix => ?_⟩
          obtain ⟨t, ht⟩ := hprefix
          have hshown : isBlank ' ' = false := head?_squeezeAfter_true (by rw [← ht]; rfl)
          cases hshown
        · intro hblank
          rw [hsame, hother] at hblank
          cases hblank
      · refine squeezed_reverse_cons.mpr ⟨ih false hr, fun hblank => ?_⟩
        obtain ⟨hhead, hprefix⟩ := hx hblank
        rw [head?_squeezeAfter]
        exact ⟨hhead, fun hafter => hprefix (prefix_of_squeezeAfter hother hafter)⟩

theorem spaceBrackets_spaceBrackets {opening closing : Char} (hopening : isBlank opening = false)
    (hclosing : isBlank closing = false) (s : List Char) :
    spaceBrackets opening closing (spaceBrackets opening closing s) =
      spaceBrackets opening closing s := by
  have hopened := squeezeAfter_squeezed hopening false s
  have hclosed := squeezeAfter_squeezed hclosing false (squeezeAfter opening false s).reverse
  rw [← List.reverse_reverse (squeezeAfter opening false s)] at hopened
  have hboth := squeezeAfter_keeps hclosing false hopened
  unfold spaceBrackets
  rw [squeezeAfter_of_squeezed hopening hboth, List.reverse_reverse,
    squeezeAfter_of_squeezed hclosing hclosed]

/-- The repairs of the content of a line change nothing the second time. -/
theorem repairs_idempotent (s : List Char) :
    lowerTruth (lowerTruth s) = lowerTruth s ∧
      trimSpaces (trimSpaces s) = trimSpaces s ∧
      spaceColon (spaceColon s) = spaceColon s ∧
      spaceCommas (spaceCommas s) = spaceCommas s ∧
      spaceBrackets '[' ']' (spaceBrackets '[' ']' s) = spaceBrackets '[' ']' s ∧
      spaceBrackets '{' '}' (spaceBrackets '{' '}' s) =
        spaceBrackets '{' '}' s :=
  ⟨lowerTruth_lowerTruth s, trimSpaces_trimSpaces s, spaceColon_spaceColon s,
    spaceCommas_spaceCommas s, spaceBrackets_spaceBrackets (by decide) (by decide) s,
    spaceBrackets_spaceBrackets (by decide) (by decide) s⟩

end Content

end Blueprint
