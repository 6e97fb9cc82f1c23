import Blueprint.Lint.Registry
import Blueprint.Lint.Run
import Blueprint.Proofs.BlankRuns
import Blueprint.Proofs.CosmeticRepair
import Blueprint.Proofs.FeedFreeContent
import Blueprint.Proofs.Reindentation
import Blueprint.Proofs.RepairShape

/-!
Lines as a text is split into them. A repair leaves such lines, unless it leaves a line empty or adds
a label behind a line that has no line feed.
-/

namespace Blueprint

namespace FileLines

open Text

/-- A line that has a line feed at its end at most. -/
structure IsLine (line : List Char) : Prop where
  ne_nil : line ≠ []
  feed : '\n' ∉ line.dropLast

/-- Whether a line feed ends the line. -/
def IsEnded (line : List Char) : Prop :=
  line.getLast? = some '\n'

instance (line : List Char) : Decidable (IsEnded line) :=
  inferInstanceAs (Decidable (_ = _))

/-- Lines such as a text is split into: only the last one may lack its line feed. -/
structure AreSplit (lines : FileLines) : Prop where
  each : ∀ line ∈ lines, IsLine line
  ended : lines.Pairwise fun line _ => IsEnded line

theorem AreSplit.nil_not_mem {lines : FileLines} (h : AreSplit lines) : [] ∉ lines :=
  fun hm => (h.each [] hm).ne_nil rfl

theorem ofChars_areSplit (s : List Char) : AreSplit (ofChars s) := by
  induction s with
  | nil => exact ⟨fun _ h => absurd h List.not_mem_nil, .nil⟩
  | cons c s ih =>
    rw [ofChars_cons]
    split
    next hfeed =>
      refine ⟨?_, List.pairwise_cons.mpr ⟨fun _ _ => congrArg some hfeed, ih.ended⟩⟩
      intro line hline
      rcases List.mem_cons.mp hline with rfl | hline
      · exact ⟨List.cons_ne_nil _ _, List.not_mem_nil⟩
      · exact ih.each line hline
    next hfeed =>
      split
      · refine ⟨?_, List.pairwise_singleton _ _⟩
        intro line hline
        rw [List.mem_singleton.mp hline]
        exact ⟨List.cons_ne_nil _ _, List.not_mem_nil⟩
      next first r hlines =>
        rw [hlines] at ih
        have hfirst := ih.each first List.mem_cons_self
        obtain ⟨hended, hr⟩ := List.pairwise_cons.mp ih.ended
        refine ⟨?_, List.pairwise_cons.mpr ⟨fun later hlater => ?_, hr⟩⟩
        · intro line hline
          rcases List.mem_cons.mp hline with rfl | hline
          · refine ⟨List.cons_ne_nil _ _, ?_⟩
            rw [List.dropLast_cons_of_ne_nil hfirst.ne_nil]
            exact List.not_mem_cons_of_ne_of_not_mem (Ne.symm hfeed) hfirst.feed
          · exact ih.each line (List.mem_cons_of_mem first hline)
        · unfold IsEnded
          rw [List.getLast?_cons_of_ne_nil hfirst.ne_nil]
          exact hended later hlater

theorem AreSplit.ofChars_flatten {lines : FileLines} (h : AreSplit lines) :
    ofChars lines.flatten = lines := by
  induction lines with
  | nil => rfl
  | cons line r ih =>
    have hline := h.each line List.mem_cons_self
    obtain ⟨hended, hr⟩ := List.pairwise_cons.mp h.ended
    have hrest := ih ⟨fun l hl => h.each l (List.mem_cons_of_mem line hl), hr⟩
    by_cases hfeed : IsEnded line
    · have hparts : line = line.dropLast ++ ['\n'] :=
        (List.dropLast_append_getLast? '\n' hfeed).symm
      rw [List.flatten_cons, hparts, List.append_assoc, List.singleton_append,
        ofChars_line hline.feed, hrest]
    · have hlast : r = [] := by
        cases r with
        | nil => rfl
        | cons later r => exact absurd (hended later List.mem_cons_self) hfeed
      have hfree : '\n' ∉ line := by
        intro hm
        rw [← List.dropLast_append_getLast hline.ne_nil] at hm
        rcases List.mem_append.mp hm with hm | hm
        · exact hline.feed hm
        · refine hfeed ?_
          unfold IsEnded
          rw [List.getLast?_eq_some_getLast hline.ne_nil, List.mem_singleton.mp hm]
      rw [hlast, List.flatten_singleton, ofChars_last hline.ne_nil hfree]

/-- Lines are split as a text is if and only if they are the lines of their own text. -/
theorem areSplit_iff {lines : FileLines} : AreSplit lines ↔ ofChars lines.flatten = lines :=
  ⟨AreSplit.ofChars_flatten, fun h => h ▸ ofChars_areSplit _⟩

/-! Lines with other contents. -/

variable {line s : List Char}

/-- The content of a line ends where no terminator stands, so a line feed in it would not be the end
of the line. -/
theorem IsLine.feed_content (h : IsLine line) : '\n' ∉ content line := by
  intro hm
  have hne : content line ≠ [] := List.ne_nil_of_mem hm
  have hlast := getLast?_content (List.getLast?_eq_some_getLast hne)
  have hline : line = (content line).dropLast ++ ((content line).getLast hne :: terminator line) := by
    rw [List.append_cons, List.dropLast_append_getLast, content_append_terminator]
  rw [← List.dropLast_append_getLast hne] at hm
  rcases List.mem_append.mp hm with hm | hm
  · refine h.feed ?_
    rw [hline, List.dropLast_append_of_ne_nil (List.cons_ne_nil _ _)]
    exact List.mem_append_left _ hm
  · rw [← List.mem_singleton.mp hm] at hlast
    cases hlast

theorem IsLine.feed_terminator (h : IsLine line) : '\n' ∉ (terminator line).dropLast := by
  have hfeed := h.feed
  by_cases hnil : terminator line = []
  · rw [hnil]
    exact List.not_mem_nil
  · rw [← content_append_terminator line, List.dropLast_append_of_ne_nil hnil] at hfeed
    exact fun hm => hfeed (List.mem_append_right _ hm)

theorem IsEnded.terminator (h : IsEnded line) : IsEnded (terminator line) := by
  unfold IsEnded at h ⊢
  rw [← content_append_terminator line] at h
  by_cases hnil : FileLines.terminator line = []
  · rw [hnil, List.append_nil] at h
    exact absurd (getLast?_content h) (by decide)
  · rwa [List.getLast?_append_of_ne_nil _ hnil] at h

theorem IsEnded.ne_nil (h : IsEnded line) : line ≠ [] := by
  rintro rfl
  cases h

theorem IsEnded.append (h : IsEnded line) (s : List Char) : IsEnded (s ++ line) := by
  unfold IsEnded
  rw [List.getLast?_append_of_ne_nil s h.ne_nil]
  exact h

theorem IsLine.append (h : '\n' ∉ line.dropLast) (hs : '\n' ∉ s) (hne : s ++ line ≠ []) :
    IsLine (s ++ line) := by
  refine ⟨hne, ?_⟩
  by_cases hnil : line = []
  · rw [hnil, List.append_nil]
    exact fun hm => hs (List.dropLast_subset s hm)
  · rw [List.dropLast_append_of_ne_nil hnil]
    exact List.not_mem_append hs h

variable {lines new : FileLines} {index : Nat} {delta : Int}

/-- Each line may give way to a line that ends in a line feed if the old one does. -/
theorem AreSplit.of_lines (h : AreSplit lines) (hlength : new.length = lines.length)
    (hlines : ∀ (i : Nat) (line : List Char), lines[i]? = some line →
      ∃ line', new[i]? = some line' ∧ IsLine line' ∧ (IsEnded line → IsEnded line')) :
    AreSplit new := by
  have hline (i : Nat) (hi : i < new.length) (hold : i < lines.length) :
      IsLine new[i] ∧ (IsEnded lines[i] → IsEnded new[i]) := by
    obtain ⟨line', hget, hline'⟩ := hlines i _ (List.getElem?_eq_getElem hold)
    rw [List.getElem?_eq_getElem hi] at hget
    rw [Option.some.inj hget]
    exact hline'
  refine ⟨?_, List.pairwise_iff_getElem.mpr ?_⟩
  · intro line hm
    obtain ⟨i, hi, rfl⟩ := List.mem_iff_getElem.mp hm
    exact (hline i hi (hlength ▸ hi)).1
  · intro i j hi hj hlt
    refine (hline i hi (hlength ▸ hi)).2 ?_
    exact List.pairwise_iff_getElem.mp h.ended i j (hlength ▸ hi) (hlength ▸ hj) hlt

theorem AreSplit.set (h : AreSplit lines) (hget : lines[index]? = some line) {line' : List Char}
    (hline : IsLine line') (hended : IsEnded line → IsEnded line') :
    AreSplit (lines.set index line') := by
  refine h.of_lines List.length_set ?_
  intro i old hold
  rw [List.getElem?_set]
  split
  next heq =>
    subst heq
    rw [hget] at hold
    rw [if_pos (List.getElem?_eq_some_iff.mp hget).1]
    exact ⟨line', rfl, hline, Option.some.inj hold ▸ hended⟩
  · exact ⟨old, hold, h.each old (List.mem_of_getElem? hold), id⟩

/-! Each repair of lines that are split as a text is. -/

/-- A repair leaves such lines, unless it leaves a line empty, and it can do so only to a line
without line feed. -/
structure KeepsSplit (lines : FileLines) (index : Nat) (new : FileLines) : Prop where
  split : [] ∉ new → AreSplit new
  full : (∀ line ∈ lines[index]?, IsEnded line) → [] ∉ new

theorem KeepsSplit.of_split (h : AreSplit new) : KeepsSplit lines index new :=
  ⟨fun _ => h, fun _ => h.nil_not_mem⟩

theorem AreSplit.mapContent (hl : AreSplit lines) {f : List Char → List Char}
    (hf : ∀ s, '\n' ∉ s → '\n' ∉ f s) (h : lines.mapContent f index = some (new, delta)) :
    KeepsSplit lines index new := by
  obtain ⟨line, hget, -, rfl, -⟩ := mapContent_eq_some.mp h
  have hline := hl.each line (List.mem_of_getElem? hget)
  constructor
  · intro hfull
    have hne : f (content line) ++ terminator line ≠ [] := fun hnil =>
      hfull (hnil ▸ List.mem_set (List.getElem?_eq_some_iff.mp hget).1 _)
    exact hl.set hget (.append hline.feed_terminator (hf _ hline.feed_content) hne)
      fun hended => hended.terminator.append _
  · intro hended hm
    rcases List.mem_or_eq_of_mem_set hm with hm | hnil
    · exact hl.nil_not_mem hm
    · exact ((hended line hget).terminator.append _).ne_nil hnil.symm

theorem AreSplit.endWithFeed (hl : AreSplit lines)
    (h : lines.endWithFeed index = some (new, delta)) : AreSplit new := by
  obtain ⟨r, hget, rfl, -⟩ := endWithFeed_eq_some.mp h
  have hfeed := (hl.each _ (List.mem_of_getElem? hget)).feed
  rw [List.append_cons, List.dropLast_concat] at hfeed
  refine hl.set hget ⟨List.concat_ne_nil _ _, ?_⟩ fun _ => List.getLast?_concat
  rw [List.dropLast_concat]
  exact fun hm => hfeed (List.mem_append_left _ hm)

theorem AreSplit.removeBlank (hl : AreSplit lines) {message : String}
    (h : lines.removeBlank message index = some (new, delta)) : AreSplit new := by
  unfold FileLines.removeBlank at h
  obtain ⟨excess, _, h⟩ := Option.bind_eq_some_iff.mp h
  dsimp only at h
  split at h
  · cases h
  · cases h
    have hsub := (List.take_sublist_take_left (l := lines) (Nat.sub_le (index + 1)
      (min ((lines.take (index + 1)).reverse.takeWhile isBlankLine).length excess))).append
      (List.Sublist.refl (lines.drop (index + 1)))
    rw [List.take_append_drop] at hsub
    exact ⟨fun line hline => hl.each line (hsub.subset hline), hl.ended.sublist hsub⟩

/-- What ends the label for a key, given the line of the key. -/
theorem IsLine.labelEnding (h : IsLine line) {ending : List Char}
    (he : ending = if (terminator line).isEmpty then ['\n'] else terminator line) :
    ending ≠ [] ∧ '\n' ∉ ending.dropLast ∧ (IsEnded line → IsEnded ending) := by
  split at he
  next hempty =>
    refine ⟨he ▸ List.cons_ne_nil _ _, he ▸ List.not_mem_nil, fun hended => ?_⟩
    exact absurd (List.isEmpty_iff.mp hempty) hended.terminator.ne_nil
  next hfull =>
    exact ⟨he ▸ fun hnil => hfull (List.isEmpty_iff.mpr hnil), he ▸ h.feed_terminator,
      fun hended => he ▸ hended.terminator⟩

/-- A line may be put behind another one if that one ends in a line feed. -/
theorem AreSplit.insert (hl : AreSplit lines) (hget : lines[index]? = some line)
    {label : List Char} (hlabel : IsLine label) (hended : IsEnded line → IsEnded label) :
    AreSplit (lines.take (index + 1) ++ label :: lines.drop (index + 1)) ↔ IsEnded line := by
  obtain ⟨hlt, hline⟩ := List.getElem?_eq_some_iff.mp hget
  have htake : lines.take (index + 1) = lines.take index ++ [line] := by
    rw [← hline, List.take_append_getElem hlt]
  constructor
  · intro hsplit
    refine (List.pairwise_append.mp hsplit.ended).2.2 line ?_ label List.mem_cons_self
    rw [htake]
    exact List.mem_append_right _ List.mem_cons_self
  · intro hfeed
    have hbefore : ∀ earlier ∈ lines.take (index + 1), IsEnded earlier := by
      intro earlier hm
      rw [htake] at hm
      rcases List.mem_append.mp hm with hm | hm
      · have hparts := hl.ended
        rw [← List.take_append_drop index lines, List.drop_eq_getElem_cons hlt] at hparts
        exact (List.pairwise_append.mp hparts).2.2 earlier hm _ List.mem_cons_self
      · rw [List.mem_singleton.mp hm]
        exact hfeed
    refine ⟨?_, List.pairwise_append.mpr ⟨?_, ?_, fun earlier hm _ _ => hbefore earlier hm⟩⟩
    · intro other hm
      rcases List.mem_append.mp hm with hm | hm
      · exact hl.each other (List.mem_of_mem_take hm)
      · rcases List.mem_cons.mp hm with rfl | hm
        · exact hlabel
        · exact hl.each other (List.mem_of_mem_drop hm)
    · exact hl.ended.sublist (List.take_sublist _ _)
    · exact List.pairwise_cons.mpr
        ⟨fun _ _ => hended hfeed, hl.ended.sublist (List.drop_sublist _ _)⟩

theorem AreSplit.insertLabel (hl : AreSplit lines) {name : String}
    (h : lines.insertLabel name index = some (new, delta)) :
    [] ∉ new ∧ (AreSplit new ↔ ∀ line ∈ lines[index]?, IsEnded line) := by
  obtain ⟨line, indent, hget, -, rfl, -⟩ := insertLabel_eq_some h
  have hline := hl.each line (List.mem_of_getElem? hget)
  obtain ⟨hne, hfeed, hended⟩ := hline.labelEnding rfl
  have htext : '\n' ∉ Content.labelOf (trim (content line)) :=
    Content.feed_labelOf fun hm => hline.feed_content (mem_of_mem_trim hm)
  have hstart : '\n' ∉ List.replicate indent ' ' ++ "display_label: ".toList :=
    List.not_mem_append (fun hm => absurd (List.eq_of_mem_replicate hm) (by decide)) (by decide)
  have hlabel : IsLine (labelLine indent line) :=
    .append hfeed (List.not_mem_append hstart htext) (List.append_ne_nil_of_right_ne_nil _ hne)
  constructor
  · intro hm
    rcases List.mem_append.mp hm with hm | hm
    · exact hl.nil_not_mem (List.mem_of_mem_take hm)
    · rcases List.mem_cons.mp hm with hnil | hm
      · exact hlabel.ne_nil hnil.symm
      · exact hl.nil_not_mem (List.mem_of_mem_drop hm)
  · rw [hl.insert hget hlabel fun h => (hended h).append _, hget]
    simp only [Option.mem_some_iff, forall_eq']

theorem AreSplit.reindent (hl : AreSplit lines)
    (h : lines.reindent? index = some (some (new, delta))) : AreSplit new := by
  unfold reindent? at h
  obtain ⟨indents, _, h⟩ := Option.map_eq_some_iff.mp h
  dsimp only at h
  split at h
  · cases h
  · cases h
    obtain ⟨hlength, hlines⟩ := indentFrom_line index indents lines
    refine hl.of_lines hlength ?_
    intro i line hget
    have hline := hl.each line (List.mem_of_getElem? hget)
    rcases hlines i line hget with hsame | ⟨hcontent, indent, hnew⟩
    · exact ⟨line, hsame, hline, id⟩
    · refine ⟨_, hnew, ?_⟩
      unfold indented
      split
      · exact ⟨hline, id⟩
      · refine ⟨.append hline.feed_terminator ?_ ?_, fun hended => hended.terminator.append _⟩
        · refine List.not_mem_append (fun hm => ?_) fun hm =>
            hline.feed_content (mem_of_mem_trimStart hm)
          exact absurd (List.eq_of_mem_replicate hm) (by decide)
        · exact List.append_ne_nil_of_left_ne_nil
            (List.append_ne_nil_of_right_ne_nil _ (trimStart_ne_nil hcontent)) _

end FileLines

namespace Fix

open FileLines

variable {p : Problem} {lines new : FileLines} {index : Nat} {delta : Int}

theorem ofRule_keepsSplit (hl : AreSplit lines) (h : ofRule p lines index = some (some (new, delta))) :
    KeepsSplit lines index new := by
  unfold ofRule at h
  split at h
  · exact hl.mapContent (fun _ => Content.feed_lowerTruth) (Option.some.inj h)
  · exact hl.mapContent (fun _ => Content.feed_trimSpaces) (Option.some.inj h)
  · exact hl.mapContent (fun _ => Content.feed_spaceColon) (Option.some.inj h)
  · exact hl.mapContent (fun _ => Content.feed_spaceCommas) (Option.some.inj h)
  · exact hl.mapContent (fun _ => Content.feed_spaceBrackets _ _) (Option.some.inj h)
  · exact hl.mapContent (fun _ => Content.feed_spaceBrackets _ _) (Option.some.inj h)
  · exact .of_split (hl.removeBlank (Option.some.inj h))
  · exact .of_split (hl.endWithFeed (Option.some.inj h))
  · exact .of_split (hl.reindent h)
  · cases h

/-- Whatever a repair does to the lines of a text, at any of them, it reports by how much their number
has changed. They are then the lines of their own text, as long as none has been left empty and no
label added behind a line without line feed; both can happen only at a last line that has no line
feed. Replacements must not bring line feeds. -/
theorem apply_lines {text : String}
    (hfeed : ∀ old replacement, p.repair = some (.replace old replacement) →
      '\n' ∈ replacement.toList → '\n' ∈ old.toList)
    (h : apply p (ofChars text.toList) index = some (some (new, delta))) :
    (new.length : Int) = (ofChars text.toList).length + delta ∧
      (ofChars new.flatten = new ↔ [] ∉ new ∧
        ∀ name, p.repair = some (.addLabel name) →
          ∀ line ∈ (ofChars text.toList)[index]?, IsEnded line) ∧
      ((∀ line ∈ (ofChars text.toList)[index]?, IsEnded line) → ofChars new.flatten = new) := by
  have hl := ofChars_areSplit text.toList
  obtain ⟨hlt, hedits⟩ := apply_edits h
  obtain ⟨label, hrewrites⟩ := hedits.lines
  refine ⟨?_, ?_⟩
  · rw [hrewrites.length, length_moved hlt hedits.bound]
  rw [← areSplit_iff]
  unfold apply at h
  rw [if_neg (Nat.not_le_of_lt hlt)] at h
  have hkeeps (hk : KeepsSplit (ofChars text.toList) index new)
      (hnone : ∀ name, p.repair ≠ some (.addLabel name)) :
      (AreSplit new ↔ [] ∉ new ∧ ∀ name, p.repair = some (.addLabel name) →
        ∀ line ∈ (ofChars text.toList)[index]?, IsEnded line) ∧
      ((∀ line ∈ (ofChars text.toList)[index]?, IsEnded line) → AreSplit new) :=
    ⟨⟨fun hs => ⟨hs.nil_not_mem, fun name hname => absurd hname (hnone name)⟩,
      fun hfull => hk.split hfull.1⟩, fun hended => hk.split (hk.full hended)⟩
  split at h
  next old replacement hrepair =>
    have hsplit := hl.mapContent (fun _ => Text.feed_replaceAll (hfeed old replacement hrepair))
      (Option.some.inj h)
    exact hkeeps hsplit fun name hname => by rw [hrepair] at hname; cases hname
  next name hrepair =>
    obtain ⟨hfull, hiff⟩ := hl.insertLabel (Option.some.inj h)
    refine ⟨?_, hiff.mpr⟩
    rw [hiff, hrepair]
    exact ⟨fun hended => ⟨hfull, fun _ _ => hended⟩, fun hended => hended.2 name rfl⟩
  next hrepair =>
    exact hkeeps (ofRule_keepsSplit hl h) fun name hname => by rw [hrepair] at hname; cases hname

/-- The name of a type is replaced on a last line that has no line feed. -/
theorem apply_lines_of_last :
    let text := "node_templates:\n  a:\n    type: cloudify.nodes.Root"
    let p : Problem :=
      { line := 3
        column := none
        rule := "node_templates"
        message := ""
        fixable := true
        repair := some (.replace "cloudify.nodes.Root" "nativeedge.nodes.Root") }
    let new := ofChars "node_templates:\n  a:\n    type: nativeedge.nodes.Root".toList
    (∀ old replacement, p.repair = some (.replace old replacement) →
      '\n' ∈ replacement.toList → '\n' ∈ old.toList) ∧
      apply p (ofChars text.toList) 2 = some (some (new, 0)) ∧
      (new.length : Int) = (ofChars text.toList).length + 0 ∧ ofChars new.flatten = new := by
  intro text p new
  have hfeed : ∀ old replacement, p.repair = some (.replace old replacement) →
      '\n' ∈ replacement.toList → '\n' ∈ old.toList := by
    intro old replacement hrepair hm
    cases hrepair
    exact absurd hm (by decide)
  have happly : apply p (ofChars text.toList) 2 = some (some (new, 0)) := by decide +kernel
  obtain ⟨hlength, hiff, _⟩ := apply_lines hfeed happly
  refine ⟨hfeed, happly, hlength, hiff.mpr ⟨by decide +kernel, ?_⟩⟩
  intro name hrepair
  cases hrepair

/-- Behind a last line without line feed a label is added on the same line: the text has as many
lines as before, and the repair reports one more. -/
theorem apply_joins_label :
    let text := "tosca_definitions_version: nativeedge_1_0\ninputs:\n  port: \x7btype: string\x7d # the port:"
    let l : Linter :=
      { registry := .builtin, confs := [("inputs", Rules.inputs.defaults)], ignore := [] }
    let p : Problem :=
      { line := 3
        column := none
        rule := "inputs"
        message := "Input port is missing a display_label."
        fixable := true
        repair := some (.addLabel "port") }
    let label := "    display_label: Port \x7bType String\x7d # The Port\n".toList
    let new := ofChars text.toList ++ [label]
    p ∈ (l.run .empty text none).problems ∧
      apply p (ofChars text.toList) 2 = some (some (new, 1)) ∧
      (ofChars text.toList).length = 3 ∧ new.length = 4 ∧ (ofChars new.flatten).length = 3 := by
  decide +kernel

end Fix

end Blueprint
