import Blueprint.Proofs.VisibleText

/-!
Repairs of the content of a line bring no line feed into it.
-/

namespace Blueprint

namespace Text

theorem mem_of_mem_dropEndWhile {p : Char → Bool} {s : List Char} {c : Char}
    (h : c ∈ dropEndWhile p s) : c ∈ s :=
  List.mem_reverse.mp ((List.dropWhile_sublist p).subset (List.mem_reverse.mp h))

theorem mem_of_mem_trimStart {s : List Char} {c : Char} (h : c ∈ trimStart s) : c ∈ s :=
  (List.dropWhile_sublist isBlank).subset h

theorem mem_of_mem_trim {s : List Char} {c : Char} (h : c ∈ trim s) : c ∈ s :=
  mem_of_mem_trimStart (mem_of_mem_dropEndWhile h)

theorem toLower_ne_feed {c : Char} (h : c ≠ '\n') : c.toLower ≠ '\n' := by
  rcases toLower_eq_or c with hsame | hupper
  · rwa [hsame]
  · intro hfeed
    rw [hfeed] at hupper
    have hten : '\n'.toNat = 10 := rfl
    omega

theorem toUpper_ne_feed {c : Char} (hc : c.toNat < 128) (h : c ≠ '\n') : c.toUpper ≠ '\n' := by
  have hall : ∀ n : Fin 128, Char.ofNat n ≠ '\n' → (Char.ofNat n).toUpper ≠ '\n' := by decide
  have hself := hall ⟨c.toNat, hc⟩
  rw [Char.ofNat_toNat] at hself
  exact hself h

theorem ofNat_ne_feed {n : Nat} (h : n ≠ 10) : Char.ofNat n ≠ '\n' := by
  intro hfeed
  by_cases hvalid : n.isValidChar
  · have hofNat : Char.ofNat n = Char.ofNatAux n hvalid := dif_pos hvalid
    rw [hofNat] at hfeed
    exact h (congrArg Char.toNat hfeed)
  · have hofNat : Char.ofNat n = '\x00' := dif_neg hvalid
    rw [hofNat] at hfeed
    exact absurd hfeed (by decide)

/-- A character is moved to a feed by none of the runs that start high enough. -/
theorem shifted_ne_feed {runs : List CaseRun} (hruns : runs.all (fun r => 10 < r.first + r.shift) = true)
    {c : Char} (h : c ≠ '\n') : shifted runs c ≠ '\n' := by
  unfold shifted
  split
  next r hfind =>
    have hrun : 10 < r.first + r.shift :=
      of_decide_eq_true (List.all_eq_true.mp hruns r (List.mem_of_find?_eq_some hfind))
    have hholds := List.find?_some hfind
    unfold CaseRun.holds at hholds
    simp only [Bool.and_eq_true, decide_eq_true_eq] at hholds
    obtain ⟨⟨hfirst, _⟩, _⟩ := hholds
    exact ofNat_ne_feed (by omega)
  · exact h

theorem feed_upperOf {c : Char} (h : c ≠ '\n') : '\n' ∉ upperOf c := by
  have hexpansions : upperExpansions.all (fun e => e.2.all (· ≠ 10)) = true := by decide
  unfold upperOf
  split
  next hc => exact fun hm => toUpper_ne_feed hc h (List.mem_singleton.mp hm).symm
  · split
    next expansion hlookup =>
      obtain ⟨earlier, later, hlist, _⟩ := List.lookup_eq_some_iff.mp hlookup
      have hall := List.all_eq_true.mp hexpansions (c.toNat, expansion)
        (hlist ▸ List.mem_append_right earlier List.mem_cons_self)
      intro hm
      obtain ⟨n, hn, heq⟩ := List.mem_map.mp hm
      exact ofNat_ne_feed (of_decide_eq_true (List.all_eq_true.mp hall n hn)) heq
    · exact fun hm => shifted_ne_feed (by decide) h (List.mem_singleton.mp hm).symm

theorem feed_lowerOf {c : Char} (h : c ≠ '\n') : '\n' ∉ lowerOf c := by
  unfold lowerOf
  split
  · exact fun hm => toLower_ne_feed h (List.mem_singleton.mp hm).symm
  · split
    · decide
    · exact fun hm => shifted_ne_feed (by decide) h (List.mem_singleton.mp hm).symm

theorem mem_pieces {separator : Char} {s piece : List Char} (h : piece ∈ pieces separator s)
    {c : Char} (hc : c ∈ piece) : c ∈ s := by
  cases hpieces : pieces separator s with
  | nil => exact absurd hpieces (pieces_ne_nil separator s)
  | cons first r =>
    rw [pieces_join hpieces]
    rw [hpieces] at h
    rcases List.mem_cons.mp h with rfl | h
    · exact List.mem_append_left _ hc
    · refine List.mem_append_right first (List.mem_flatMap.mpr ⟨piece, h, ?_⟩)
      exact List.mem_cons_of_mem separator hc

theorem feed_replaceFrom {piece new : List Char} (hnew : '\n' ∉ new) (skip : Nat) {s : List Char}
    (h : '\n' ∉ s) : '\n' ∉ replaceFrom piece new skip s := by
  induction s generalizing skip with
  | nil => cases skip <;> exact List.not_mem_nil
  | cons c r ih =>
    obtain ⟨hc, hr⟩ := List.ne_and_not_mem_of_not_mem_cons h
    cases skip with
    | succ skip => exact ih skip hr
    | zero =>
      rw [replaceFrom]
      split
      · exact List.not_mem_append hnew (ih _ hr)
      · exact List.not_mem_cons_of_ne_of_not_mem hc (ih 0 hr)

/-- What does not occur is not replaced. -/
theorem replaceFrom_of_absent {piece s : List Char} (new : List Char) (h : ¬ piece <:+: s) :
    replaceFrom piece new 0 s = s := by
  induction s with
  | nil => rfl
  | cons c r ih =>
    rw [replaceFrom]
    split
    next rest hafter =>
      rw [after?_eq_some.mp hafter] at h
      exact absurd (List.prefix_append piece rest).isInfix h
    · rw [ih fun hin => h (hin.trans (List.suffix_cons c r).isInfix)]

/-- A replacement brings a line feed only for a piece without one. -/
theorem feed_replaceAll {piece new : List Char} (hnew : '\n' ∈ new → '\n' ∈ piece) {s : List Char}
    (h : '\n' ∉ s) : '\n' ∉ replaceAll piece new s := by
  unfold replaceAll
  by_cases hpiece : '\n' ∈ piece
  · have hne : piece.isEmpty = false := by
      cases piece with
      | nil => cases hpiece
      | cons d piece => rfl
    rw [hne, if_neg (by decide), replaceFrom_of_absent new fun hin => h (hin.subset hpiece)]
    exact h
  · have hfree : '\n' ∉ new := fun hm => hpiece (hnew hm)
    split
    · induction s with
      | nil => exact hfree
      | cons c r ih =>
        obtain ⟨hc, hr⟩ := List.ne_and_not_mem_of_not_mem_cons h
        exact List.not_mem_append hfree (List.not_mem_cons_of_ne_of_not_mem hc (ih hr))
    · exact feed_replaceFrom hfree 0 h

end Text

namespace Content

open Text

theorem feed_lowerTruth {s : List Char} (h : '\n' ∉ s) : '\n' ∉ lowerTruth s := by
  unfold lowerTruth
  intro hm
  obtain ⟨run, hrun, hc⟩ := List.mem_flatMap.mp hm
  have hs {c : Char} (hc : c ∈ run) : c ∈ s := by
    have hflat := List.mem_flatten.mpr ⟨run, hrun, hc⟩
    unfold wordRuns at hflat
    rwa [List.flatten_splitBy] at hflat
  split at hc
  · obtain ⟨c, hrun, heq⟩ := List.mem_map.mp hc
    exact toLower_ne_feed (fun hfeed => h (hfeed ▸ hs hrun)) heq
  · exact h (hs hc)

theorem feed_trimSpaces {s : List Char} (h : '\n' ∉ s) : '\n' ∉ trimSpaces s :=
  fun hm => h (mem_of_mem_dropEndWhile hm)

theorem mem_spaceColon {s : List Char} {c : Char} (h : c ∈ spaceColon s) : c = ' ' ∨ c ∈ s := by
  unfold spaceColon at h
  split at h
  · exact Or.inr h
  next key rest hcut =>
    split at h
    · exact Or.inr h
    rw [cutAt?_eq hcut]
    rcases List.mem_append.mp h with h | h
    · exact Or.inr (List.mem_append_left _ (mem_of_mem_dropEndWhile h))
    rcases List.mem_cons.mp h with rfl | h
    · exact Or.inr (List.mem_append_right key List.mem_cons_self)
    split at h
    · cases h
    rcases List.mem_cons.mp h with rfl | h
    · exact Or.inl rfl
    · exact Or.inr (List.mem_append_right key (List.mem_cons_of_mem ':' (mem_of_mem_trim h)))

theorem feed_spaceColon {s : List Char} (h : '\n' ∉ s) : '\n' ∉ spaceColon s :=
  fun hm => (mem_spaceColon hm).elim (by decide) h

theorem mem_afterComma {pieces : List (List Char)} {c : Char} (h : c ∈ afterComma pieces) :
    c = ',' ∨ c = ' ' ∨ ∃ piece ∈ pieces, c ∈ piece := by
  have hstart {s rest : List Char} (hm : c ∈ ',' :: ' ' :: (s ++ rest)) :
      c = ',' ∨ c = ' ' ∨ c ∈ s ∨ c ∈ rest := by
    simpa only [List.mem_cons, List.mem_append] using hm
  induction pieces using afterComma.induct with
  | case1 => cases h
  | case2 last =>
    rw [afterComma, ← List.append_nil (trimStart last)] at h
    rcases hstart h with rfl | rfl | h | h
    · exact Or.inl rfl
    · exact Or.inr (Or.inl rfl)
    · exact Or.inr (Or.inr ⟨last, List.mem_cons_self, mem_of_mem_trimStart h⟩)
    · cases h
  | case3 piece r hr ih =>
    rw [afterComma] at h
    · rcases hstart h with rfl | rfl | h | h
      · exact Or.inl rfl
      · exact Or.inr (Or.inl rfl)
      · exact Or.inr (Or.inr ⟨piece, List.mem_cons_self, mem_of_mem_trim h⟩)
      · rcases ih h with rfl | rfl | ⟨p, hp, hc⟩
        · exact Or.inl rfl
        · exact Or.inr (Or.inl rfl)
        · exact Or.inr (Or.inr ⟨p, List.mem_cons_of_mem piece hp, hc⟩)
    · exact hr

theorem mem_spaceCommas {s : List Char} {c : Char} (h : c ∈ spaceCommas s) :
    c = ',' ∨ c = ' ' ∨ c ∈ s := by
  have hpiece {piece : List Char} (hp : piece ∈ pieces ',' s) (hc : c ∈ piece) :
      c = ',' ∨ c = ' ' ∨ c ∈ s := Or.inr (Or.inr (mem_pieces hp hc))
  unfold spaceCommas at h
  have h := mem_of_mem_dropEndWhile h
  split at h
  · cases h
  next only hp => exact hpiece (hp ▸ List.mem_cons_self) h
  next first r _ hp =>
    rcases List.mem_append.mp h with h | h
    · exact hpiece (hp ▸ List.mem_cons_self) (mem_of_mem_dropEndWhile h)
    · rcases mem_afterComma h with rfl | rfl | ⟨piece, hr, hc⟩
      · exact Or.inl rfl
      · exact Or.inr (Or.inl rfl)
      · exact hpiece (hp ▸ List.mem_cons_of_mem first hr) hc

theorem feed_spaceCommas {s : List Char} (h : '\n' ∉ s) : '\n' ∉ spaceCommas s :=
  fun hm => (mem_spaceCommas hm).elim (by decide) fun hm => hm.elim (by decide) h

theorem mem_squeezeAfter {sign c : Char} {dropping : Bool} {s : List Char}
    (h : c ∈ squeezeAfter sign dropping s) : c = ' ' ∨ c ∈ s := by
  induction s generalizing dropping with
  | nil => cases h
  | cons d r ih =>
    have hrest {dropping : Bool} (hm : c ∈ squeezeAfter sign dropping r) : c = ' ' ∨ c ∈ d :: r :=
      (ih hm).imp_right (List.mem_cons_of_mem d)
    rw [squeezeAfter] at h
    split at h
    · exact hrest h
    · split at h <;> rcases List.mem_cons.mp h with rfl | h
      · exact Or.inr List.mem_cons_self
      · rcases List.mem_cons.mp h with rfl | h
        · exact Or.inl rfl
        · exact hrest h
      · exact Or.inr List.mem_cons_self
      · exact hrest h

theorem mem_spaceBrackets {opening closing c : Char} {s : List Char}
    (h : c ∈ spaceBrackets opening closing s) : c = ' ' ∨ c ∈ s := by
  rcases mem_squeezeAfter (List.mem_reverse.mp h) with rfl | h
  · exact Or.inl rfl
  · exact mem_squeezeAfter (List.mem_reverse.mp h)

theorem feed_spaceBrackets (opening closing : Char) {s : List Char} (h : '\n' ∉ s) :
    '\n' ∉ spaceBrackets opening closing s :=
  fun hm => (mem_spaceBrackets hm).elim (by decide) h

theorem feed_capitalizeWords (inWord : Bool) {s : List Char} (h : '\n' ∉ s) :
    '\n' ∉ capitalizeWords inWord s := by
  induction s generalizing inWord with
  | nil => exact List.not_mem_nil
  | cons c r ih =>
    obtain ⟨hc, hr⟩ := List.ne_and_not_mem_of_not_mem_cons h
    rw [capitalizeWords]
    split
    · refine List.not_mem_append ?_ (ih true hr)
      split
      · exact feed_lowerOf hc.symm
      · exact feed_upperOf hc.symm
    · exact List.not_mem_cons_of_ne_of_not_mem hc (ih false hr)

theorem feed_labelOf {key : List Char} (h : '\n' ∉ key) : '\n' ∉ labelOf key := by
  refine feed_capitalizeWords false fun hm => ?_
  obtain ⟨c, hc, heq⟩ := List.mem_map.mp (List.mem_of_mem_filter hm)
  split at heq
  · exact absurd heq (by decide)
  · exact h (heq ▸ hc)

end Content

end Blueprint
