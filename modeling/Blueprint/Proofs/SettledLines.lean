import Mathlib.Data.List.Infix
import Blueprint.Proofs.LineRepairs
import Blueprint.Proofs.OlderTypes
import Blueprint.Proofs.SettledContent

/-!
Repairs of lines that are made twice: when the second one finds something to do.
-/

namespace Blueprint

namespace Text

variable {piece new s t : List Char} {g : Char}

/-! Pieces of a text and the characters that they do not have. -/

theorem prefix_append_cons (h : g ∉ piece) : piece <+: s ++ g :: t ↔ piece <+: s := by
  refine ⟨fun hpiece => ?_, fun hpiece => hpiece.trans (List.prefix_append s _)⟩
  have hcut : s ++ [g] <+: s ++ g :: t := ⟨t, by rw [List.append_assoc]; rfl⟩
  have hin {l : List Char} (hl : s ++ [g] <+: l) : g ∈ l :=
    hl.subset (List.mem_append_right s List.mem_cons_self)
  rcases List.prefix_or_prefix_of_prefix hpiece hcut with hshort | hlong
  · rcases List.prefix_concat_iff.mp hshort with rfl | hshort
    · exact absurd (hin (List.prefix_refl _)) h
    · exact hshort
  · exact absurd (hin hlong) h

theorem infix_append_cons (h : g ∉ piece) (hin : piece <:+: s ++ g :: t) :
    piece <:+: s ∨ piece <:+: t := by
  induction s with
  | nil =>
    rcases List.infix_cons_iff.mp hin with hstart | hin
    · exact .inl ((prefix_append_cons (s := []) h).mp hstart).isInfix
    · exact .inr hin
  | cons c s ih =>
    rcases List.infix_cons_iff.mp hin with hstart | hin
    · exact .inl ((prefix_append_cons (s := c :: s) h).mp hstart).isInfix
    · exact (ih hin).imp_left fun hs => hs.trans (List.suffix_cons c s).isInfix

theorem infix_cancel_right {start newStart kind : List Char}
    (h : start ++ kind <:+: newStart ++ kind) : start <:+: newStart := by
  obtain ⟨before, after, heq⟩ := h
  have hlength := congrArg List.length heq
  simp only [List.length_append] at hlength
  have hprefix : before ++ start <+: newStart ++ kind :=
    ⟨kind ++ after, by rw [← heq]; simp only [List.append_assoc]⟩
  have hshort : before ++ start <+: newStart :=
    List.prefix_of_prefix_length_le hprefix (List.prefix_append newStart kind)
      (by rw [List.length_append]; omega)
  exact (List.suffix_append before start).isInfix.trans hshort.isInfix

/-! Replaced pieces. -/

theorem replaceFrom_length (piece new s t : List Char) :
    replaceFrom piece new s.length (s ++ t) = replaceFrom piece new 0 t := by
  induction s with
  | nil => rfl
  | cons c s ih => exact ih

theorem replaceFrom_occurrence (hne : piece ≠ []) (new t : List Char) :
    replaceFrom piece new 0 (piece ++ t) = new ++ replaceFrom piece new 0 t := by
  obtain ⟨c, r, rfl⟩ := List.exists_cons_of_ne_nil hne
  have hafter : after? (c :: r) (c :: (r ++ t)) = some t := after?_eq_some.mpr rfl
  rw [List.cons_append, replaceFrom, hafter]
  exact congrArg (new ++ ·) (replaceFrom_length (c :: r) new r t)

theorem replaceFrom_kept {c : Char} (h : ¬ piece <+: c :: t) (new : List Char) :
    replaceFrom piece new 0 (c :: t) = c :: replaceFrom piece new 0 t := by
  rw [replaceFrom]
  split
  next rest hafter => exact absurd ⟨rest, (after?_eq_some.mp hafter).symm⟩ h
  · rfl

/-- A text is read from the left: either the piece starts here, or the next character stays. -/
@[elab_as_elim]
theorem byOccurrence {motive : List Char → Prop} (hne : piece ≠ []) (nil : motive [])
    (occurs : ∀ t, motive t → motive (piece ++ t))
    (kept : ∀ c t, ¬ piece <+: c :: t → motive t → motive (c :: t)) (s : List Char) :
    motive s := by
  induction hn : s.length using Nat.strong_induction_on generalizing s with
  | _ n ih =>
    cases s with
    | nil => exact nil
    | cons c r =>
      by_cases hstart : piece <+: c :: r
      · obtain ⟨t, ht⟩ := hstart
        have hpositive := List.length_pos_of_ne_nil hne
        have hlength := congrArg List.length ht
        rw [List.length_append] at hlength
        rw [← ht]
        exact occurs t (ih t.length (by omega) t rfl)
      · exact kept c r hstart (ih r.length (by rw [← hn, List.length_cons]; omega) r rfl)

theorem replaceFrom_append_cons (hne : piece ≠ []) (h : g ∉ piece) (new s t : List Char) :
    replaceFrom piece new 0 (s ++ g :: t) =
      replaceFrom piece new 0 s ++ g :: replaceFrom piece new 0 t := by
  induction s using byOccurrence hne with
  | nil =>
    refine replaceFrom_kept (fun hstart => hne ?_) new
    exact List.prefix_nil.mp ((prefix_append_cons (s := []) h).mp hstart)
  | occurs s ih =>
    rw [List.append_assoc, replaceFrom_occurrence hne, ih, replaceFrom_occurrence hne,
      List.append_assoc]
  | kept c s hc ih =>
    have hlater : ¬ piece <+: c :: (s ++ g :: t) := fun hstart =>
      hc ((prefix_append_cons (s := c :: s) h).mp hstart)
    rw [List.cons_append, replaceFrom_kept hlater, ih, replaceFrom_kept hc, List.cons_append]

/-- Each replacement changes the length by as much. -/
theorem length_replaceFrom (hne : piece ≠ []) (new s : List Char) :
    ∃ count, (replaceFrom piece new 0 s).length + count * piece.length =
      s.length + count * new.length := by
  induction s using byOccurrence hne with
  | nil => exact ⟨0, by rw [replaceFrom, Nat.zero_mul, Nat.zero_mul]⟩
  | occurs s ih =>
    obtain ⟨count, ih⟩ := ih
    refine ⟨count + 1, ?_⟩
    rw [replaceFrom_occurrence hne, List.length_append, List.length_append, Nat.succ_mul,
      Nat.succ_mul]
    omega
  | kept c s hc ih =>
    obtain ⟨count, ih⟩ := ih
    refine ⟨count, ?_⟩
    rw [replaceFrom_kept hc, List.length_cons, List.length_cons]
    omega

/-- What is replaced by something else is not there any longer, so the text is another one. -/
theorem replaceFrom_eq_self_iff (hne : piece ≠ []) (hnew : new ≠ piece) :
    replaceFrom piece new 0 s = s ↔ ¬ piece <:+: s := by
  refine ⟨fun hsame => ?_, replaceFrom_of_absent new⟩
  induction s using byOccurrence hne with
  | nil => exact fun hin => hne (List.infix_nil.mp hin)
  | occurs s ih =>
    obtain ⟨count, hcount⟩ := length_replaceFrom hne new s
    rw [replaceFrom_occurrence hne] at hsame
    have hlength := congrArg List.length hsame
    rw [List.length_append, List.length_append] at hlength
    have hscaled : (count + 1) * new.length = (count + 1) * piece.length := by
      rw [Nat.succ_mul, Nat.succ_mul]
      omega
    have hsize := Nat.eq_of_mul_eq_mul_left (Nat.succ_pos count) hscaled
    exact absurd (List.append_inj_left hsame hsize) hnew
  | kept c s hc ih =>
    rw [replaceFrom_kept hc] at hsame
    intro hin
    rcases List.infix_cons_iff.mp hin with hstart | hin
    · exact hc hstart
    · exact ih (List.cons.inj hsame).2 hin

/-- Each occurrence of a piece stands between characters that the piece does not have, or at an end
of the text. -/
def StandsAlone (piece s : List Char) : Prop :=
  ∀ before after, s = before ++ piece ++ after →
    (∀ c ∈ before.getLast?, c ∉ piece) ∧ ∀ c ∈ after.head?, c ∉ piece

/-- What `StandsAlone` says of an occurrence behind so many characters. -/
def AloneAt (piece s : List Char) (place : Nat) : Prop :=
  piece <+: s.drop place → (∀ c ∈ (s.take place).getLast?, c ∉ piece) ∧
    ∀ c ∈ (s.drop (place + piece.length)).head?, c ∉ piece

-- Without this instance the search goes through all characters there are.
instance decidableForallNotMem (piece : List Char) (o : Option Char) :
    Decidable (∀ c ∈ o, c ∉ piece) :=
  Option.decidableForallMem o

instance (piece s : List Char) (place : Nat) : Decidable (AloneAt piece s place) :=
  inferInstanceAs (Decidable (_ → _))

theorem standsAlone_iff : StandsAlone piece s ↔ ∀ place ≤ s.length, AloneAt piece s place := by
  constructor
  · rintro h place - ⟨after, hafter⟩
    have hrest : s.drop (place + piece.length) = after := by
      rw [← List.drop_drop, ← hafter, List.drop_left]
    rw [hrest]
    refine h (s.take place) after ?_
    rw [List.append_assoc, hafter, List.take_append_drop]
  · rintro h before after rfl
    have hplace := h before.length (by simp only [List.length_append]; omega)
    unfold AloneAt at hplace
    rw [List.append_assoc, List.drop_left, List.take_left, ← List.drop_drop, List.drop_left,
      List.drop_left] at hplace
    exact hplace (List.prefix_append piece after)

instance (piece s : List Char) : Decidable (StandsAlone piece s) :=
  decidable_of_iff' _ standsAlone_iff

namespace StandsAlone

theorem left (h : StandsAlone piece (s ++ t)) : StandsAlone piece s := by
  rintro before after rfl
  obtain ⟨hbefore, hafter⟩ := h before (after ++ t) (List.append_assoc _ _ _)
  refine ⟨hbefore, fun c hc => hafter c ?_⟩
  rw [List.head?_append, Option.mem_def.mp hc]
  rfl

theorem right (h : StandsAlone piece (s ++ t)) : StandsAlone piece t := by
  rintro before after rfl
  obtain ⟨hbefore, hafter⟩ := h (s ++ before) after (by simp only [List.append_assoc])
  refine ⟨fun c hc => hbefore c ?_, hafter⟩
  rw [List.getLast?_append, Option.mem_def.mp hc]
  rfl

theorem eq_of_subset (h : StandsAlone piece s) (hs : s ⊆ piece) (hin : piece <:+: s) :
    s = piece := by
  obtain ⟨before, after, rfl⟩ := hin
  obtain ⟨hbefore, hafter⟩ := h before after rfl
  have hstart : before = [] := by
    refine List.getLast?_eq_none_iff.mp (Option.eq_none_iff_forall_not_mem.mpr fun c hc => ?_)
    refine hbefore c hc (hs ?_)
    exact List.mem_append_left after (List.mem_append_left piece (List.mem_of_getLast? hc))
  have hend : after = [] := by
    refine List.head?_eq_none_iff.mp (Option.eq_none_iff_forall_not_mem.mpr fun c hc => ?_)
    exact hafter c hc (hs (List.mem_append_right _ (List.mem_of_head? hc)))
  rw [hstart, hend, List.nil_append, List.append_nil]

/-- A piece that stands alone is gone once it is replaced. -/
theorem not_infix_replaceFrom (h : StandsAlone piece s) (hne : piece ≠ [])
    (hnew : ¬ piece <:+: new) : ¬ piece <:+: replaceFrom piece new 0 s := by
  induction hn : s.length using Nat.strong_induction_on generalizing s with
  | _ n ih =>
    by_cases hs : s ⊆ piece
    · by_cases hin : piece <:+: s
      · have hwhole := replaceFrom_occurrence hne new []
        rw [List.append_nil] at hwhole
        rw [h.eq_of_subset hs hin, hwhole]
        exact (List.append_nil new).symm ▸ hnew
      · rwa [replaceFrom_of_absent new hin]
    -- The parts on both sides of a character that the piece does not have are replaced apart.
    · obtain ⟨g, hg, hpiece⟩ : ∃ g ∈ s, g ∉ piece := by
        simpa [List.subset_def] using hs
      obtain ⟨a, b, rfl⟩ := List.append_of_mem hg
      have hlength : a.length + (b.length + 1) = n := by
        rw [← hn, List.length_append, List.length_cons]
      rw [replaceFrom_append_cons hne hpiece]
      intro hin
      rcases infix_append_cons hpiece hin with hin | hin
      · exact ih a.length (by omega) h.left rfl hin
      · exact ih b.length (by omega) (List.append_cons a g b ▸ h).right rfl hin

end StandsAlone

end Text

/-- A name and the one that takes its place: the older name is not a part of the newer one. -/
theorem Vocabulary.Proposes.gone {old new : String} (h : Proposes old new) :
    old.toList ≠ [] ∧ ¬ old.toList <:+: new.toList := by
  have hstarts : ∀ start ∈ typeStarts,
      start.1.toList ≠ [] ∧ ¬ start.1.toList <:+: start.2.toList := by decide
  obtain ⟨start, hstart, kind, rfl, rfl⟩ := h.restarted
  obtain ⟨hne, hpart⟩ := hstarts start hstart
  rw [String.toList_append, String.toList_append]
  exact ⟨List.append_ne_nil_of_left_ne_nil hne _, fun h => hpart (Text.infix_cancel_right h)⟩

namespace FileLines

open Text

variable {lines new : FileLines} {line : List Char} {index indent : Nat} {delta : Int}

/-! Line ends. -/

theorem endWithFeed_again (h : lines.endWithFeed index = some (new, delta)) :
    new.endWithFeed index = none ↔ ∀ line ∈ lines[index]?, ¬ ['\r', '\r', '\n'] <:+ line := by
  obtain ⟨r, hget, rfl, -⟩ := endWithFeed_eq_some.mp h
  obtain ⟨hlt, -⟩ := List.getElem?_eq_some_iff.mp hget
  have hends (t : List Char) : ['\r'] ++ t <:+ r ++ t ↔ ['\r'] <:+ r :=
    List.suffix_append_self_iff
  have hshort : ['\r', '\n'] <:+ r ++ ['\n'] ↔ ['\r'] <:+ r := hends ['\n']
  have hlong : ['\r', '\r', '\n'] <:+ r ++ ['\r', '\n'] ↔ ['\r'] <:+ r := hends ['\r', '\n']
  rw [endWithFeed_eq_none, List.getElem?_set_self hlt, hget]
  simp only [Option.mem_some, forall_eq', hshort, hlong]

/-! Older names. -/

theorem content_append_ending (s : List Char) {ending : List Char}
    (h : ∀ c ∈ ending, isTerminator c = true) : content (s ++ ending) = content s := by
  have hnone : dropEndWhile isTerminator ending = [] := by
    unfold dropEndWhile
    rw [List.reverse_eq_nil_iff, List.dropWhile_eq_nil_iff]
    exact fun c hc => h c (List.mem_reverse.mp hc)
  exact (dropEndWhile_append isTerminator s ending).trans (if_pos hnone)

theorem replaceAll_eq_replaceFrom {piece : List Char} (hne : piece ≠ []) (new s : List Char) :
    replaceAll piece new s = replaceFrom piece new 0 s :=
  if_neg fun hempty => hne (List.isEmpty_iff.mp hempty)

theorem replace_eq_none {old name : String} (h : Vocabulary.Proposes old name) :
    lines.replace old name index = none ↔
      ∀ line ∈ lines[index]?, ¬ old.toList <:+: content line := by
  obtain ⟨hne, hpart⟩ := h.gone
  have hother : name.toList ≠ old.toList := fun heq => hpart (heq ▸ List.infix_refl _)
  unfold replace
  rw [mapContent_eq_none]
  simp only [replaceAll_eq_replaceFrom hne, replaceFrom_eq_self_iff hne hother]

theorem replace_again {old name : String} (h : Vocabulary.Proposes old name)
    (hsome : lines.replace old name index = some (new, delta))
    (halone : ∀ line ∈ lines[index]?, StandsAlone old.toList (content line)) :
    new.replace old name index = none := by
  obtain ⟨hne, hpart⟩ := h.gone
  obtain ⟨line, hget, -, rfl, -⟩ := mapContent_eq_some.mp hsome
  obtain ⟨hlt, -⟩ := List.getElem?_eq_some_iff.mp hget
  rw [replace_eq_none h, List.getElem?_set_self hlt]
  rintro _ ⟨rfl⟩ hin
  rw [content_append_ending _ fun c hc => isTerminator_of_mem hc,
    replaceAll_eq_replaceFrom hne] at hin
  refine (halone line hget).not_infix_replaceFrom hne hpart ?_
  exact hin.trans (dropEndWhile_isPrefix isTerminator _).isInfix

/-! Labels. -/

theorem exists_dropEndWhile_append {p : Char → Bool} {s : List Char} (h : dropEndWhile p s = s)
    (t : List Char) : ∃ rest, dropEndWhile p (s ++ t) = s ++ rest := by
  rw [dropEndWhile_append]
  split
  · exact ⟨[], by rw [h, List.append_nil]⟩
  · exact ⟨_, rfl⟩

/-- The line of a label starts with its indentation and the name of the entry. -/
theorem content_labelLine (indent : Nat) (line : List Char) :
    ∃ label, content (labelLine indent line) =
      List.replicate indent ' ' ++ ("display_label: ".toList ++ label) := by
  have hstart : content (List.replicate indent ' ' ++ "display_label: ".toList) =
      List.replicate indent ' ' ++ "display_label: ".toList :=
    (dropEndWhile_append isTerminator _ _).trans (if_neg (by decide))
  obtain ⟨label, hlabel⟩ := exists_dropEndWhile_append hstart
    (Content.labelOf (trim (content line)) ++
      if (terminator line).isEmpty then ['\n'] else terminator line)
  refine ⟨label, ?_⟩
  rw [← List.append_assoc, ← hlabel, ← List.append_assoc]
  rfl

theorem leadingSpaces_replicate (indent : Nat) {s : List Char} (h : s.head? ≠ some ' ') :
    leadingSpaces (List.replicate indent ' ' ++ s) = indent := by
  have hrest : s.takeWhile (· == ' ') = [] := by
    cases s with
    | nil => rfl
    | cons c r =>
      refine List.takeWhile_cons_of_neg fun hc => h ?_
      rw [eq_of_beq hc]
      rfl
  unfold leadingSpaces
  rw [List.takeWhile_append_of_pos fun c hc => beq_iff_eq.mpr (List.eq_of_mem_replicate hc),
    hrest, List.append_nil, List.length_replicate]

theorem trimStart_replicate (indent : Nat) {s : List Char} (h : ∀ c ∈ s.head?, isBlank c = false) :
    trimStart (List.replicate indent ' ' ++ s) = s := by
  unfold trimStart
  rw [List.dropWhile_append_of_pos fun c hc => by rw [List.eq_of_mem_replicate hc]; decide]
  exact trimStart_of_head h

theorem labelLine_mem_blockBelow {keyIndent : Nat} (h : keyIndent < indent) (below : FileLines) :
    content (labelLine indent line) ∈ blockBelow keyIndent (labelLine indent line :: below) := by
  obtain ⟨label, hcontent⟩ := content_labelLine indent line
  have hdeep : leadingSpaces (content (labelLine indent line)) = indent := by
    rw [hcontent]
    exact leadingSpaces_replicate indent fun hspace => nomatch hspace
  have hseen : (content (labelLine indent line)).all isBlank = false := by
    rw [hcontent, List.all_append, List.all_append, Bool.and_eq_false_imp]
    exact fun _ => rfl
  unfold blockBelow
  dsimp only
  rw [List.map_cons, List.takeWhile_cons_of_pos, List.filter_cons_of_pos]
  · exact List.mem_cons_self
  · rw [hseen]
    rfl
  · rw [hdeep, decide_eq_true h, Bool.or_true]

theorem insertLabel_again {name : String} (h : lines.insertLabel name index = some (new, delta)) :
    new.insertLabel name index = none := by
  obtain ⟨line, indent, hget, hdeep, rfl, -⟩ := insertLabel_eq_some h
  obtain ⟨hlt, -⟩ := List.getElem?_eq_some_iff.mp hget
  have hlength : (lines.take (index + 1)).length = index + 1 := by
    rw [List.length_take]
    omega
  have hsame : (lines.take (index + 1) ++ labelLine indent line :: lines.drop (index + 1))[index]?
      = some line := by
    rw [List.getElem?_append_left (by omega), List.getElem?_take, if_pos (Nat.lt_succ_self index),
      hget]
  have hlabelled : startsWith "display_label:".toList
      (trimStart (content (labelLine indent line))) = true := by
    obtain ⟨label, hcontent⟩ := content_labelLine indent line
    rw [hcontent, trimStart_replicate indent fun c hc => by cases hc; decide]
    exact Option.isSome_iff_exists.mpr ⟨' ' :: label, after?_eq_some.mpr rfl⟩
  unfold insertLabel
  rw [hsame, List.drop_left' hlength, Option.bind_some]
  dsimp only
  split
  · rfl
  · exact if_pos (List.any_eq_true.mpr ⟨_, labelLine_mem_blockBelow hdeep _, hlabelled⟩)

/-- When a repair of lines finds nothing to do on what it has left. A line end is settled unless two
carriage returns stand ahead of its line feed; an older name is, unless it stands in the new line
again, and it does not if it stood alone in the old one; a label always is. -/
theorem repairs_settle (lines : FileLines) (index : Nat) :
    (∀ new delta, lines.endWithFeed index = some (new, delta) →
      (new.endWithFeed index = none ↔
        ∀ line ∈ lines[index]?, ¬ ['\r', '\r', '\n'] <:+ line)) ∧
    (∀ old name, Vocabulary.Proposes old name →
      ∀ new delta, lines.replace old name index = some (new, delta) →
        (new.replace old name index = none ↔
          ∀ line ∈ new[index]?, ¬ old.toList <:+: content line) ∧
        ((∀ line ∈ lines[index]?, StandsAlone old.toList (content line)) →
          new.replace old name index = none)) ∧
    ∀ name new delta, lines.insertLabel name index = some (new, delta) →
      new.insertLabel name index = none :=
  ⟨fun _ _ h => endWithFeed_again h,
    fun _ _ h _ _ hsome => ⟨replace_eq_none h, replace_again h hsome⟩,
    fun _ _ _ h => insertLabel_again h⟩

theorem repairs_settle_of_blueprint :
    (∃ new, endWithFeed ["a: 1\r\n".toList] 0 = some (new, 0) ∧ endWithFeed new 0 = none) ∧
    (∃ new, replace "cloudify.nodes.Root" "nativeedge.nodes.Root"
          ["type: cloudify.nodes.Root".toList] 0 = some (new, 0) ∧
        replace "cloudify.nodes.Root" "nativeedge.nodes.Root" new 0 = none) ∧
    ∃ new, insertLabel "port" ["  port:\n".toList, "    type: string\n".toList] 0 = some (new, 1) ∧
        insertLabel "port" new 0 = none :=
  ⟨⟨_, by decide, ((repairs_settle ["a: 1\r\n".toList] 0).1 ["a: 1\n".toList] 0 (by decide)).mpr
      (by decide)⟩,
    ⟨_, by decide, ((repairs_settle ["type: cloudify.nodes.Root".toList] 0).2.1
      "cloudify.nodes.Root" "nativeedge.nodes.Root" (by decide)
      ["type: nativeedge.nodes.Root".toList] 0 (by decide)).2 (by decide)⟩,
    ⟨_, by decide, (repairs_settle ["  port:\n".toList, "    type: string\n".toList] 0).2.2 "port"
      ["  port:\n".toList, "    display_label: Port\n".toList, "    type: string\n".toList] 1
      (by decide)⟩⟩

/-- Of two carriage returns only one goes, and a name comes back from what stands around the one
that was replaced. -/
theorem repairs_unsettled :
    endWithFeed ["a: 1\r\r\n".toList] 0 = some (["a: 1\r\n".toList], 0) ∧
      endWithFeed ["a: 1\r\n".toList] 0 = some (["a: 1\n".toList], 0) ∧
      Vocabulary.Proposes "cloudify.azure.nodes.n" "nativeedge.nodes.azure.n" ∧
      replace "cloudify.azure.nodes.n" "nativeedge.nodes.azure.n"
          ["type: cloudify.azure.nodes.cloudify.azure.nodes.n".toList] 0 =
        some (["type: cloudify.azure.nodes.nativeedge.nodes.azure.n".toList], 0) ∧
      replace "cloudify.azure.nodes.n" "nativeedge.nodes.azure.n"
          ["type: cloudify.azure.nodes.nativeedge.nodes.azure.n".toList] 0 =
        some (["type: nativeedge.nodes.azure.nativeedge.nodes.azure.n".toList], 0) := by
  decide

end FileLines

end Blueprint
