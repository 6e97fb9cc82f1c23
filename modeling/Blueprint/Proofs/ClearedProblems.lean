import Blueprint.Proofs.BlankRepair
import Blueprint.Proofs.CarriedRepairs
import Blueprint.Proofs.ReportedLines

/-!
Problems that their repair clears. A rule decides from tokens or from a line as a whole what it
reports, and its repair sees the characters of the line; where these leave the line tidy, the rule
has nothing more to report on it.
-/

namespace Blueprint

open Text Content

namespace FileLines

variable {lines : FileLines} {line fixed s : List Char} {index : Nat}

theorem mapContent_set {f : List Char → List Char} (hget : lines[index]? = some line) :
    lines.mapContent f index =
      if f (content line) ++ terminator line = line then none
      else some (lines.set index (f (content line) ++ terminator line), 0) := by
  have hsame : f (content line) ++ terminator line = line ↔ f (content line) = content line := by
    conv_lhs => rhs; rw [← content_append_terminator line]
    exact List.append_left_inj _
  split
  next h =>
    refine mapContent_eq_none.mpr fun old hold => ?_
    rw [← Option.some.inj (hget.symm.trans hold)]
    exact hsame.mp h
  next h => exact mapContent_eq_some.mpr ⟨line, hget, fun heq => h (hsame.mpr heq), rfl, rfl⟩

/-- A text in which a line has given way to another has this one as its line, or it ends before. -/
theorem AreSplit.ofChars_set (h : AreSplit lines) (hget : lines[index]? = some line)
    (hfeed : '\n' ∉ fixed.dropLast) (hended : IsEnded line → IsEnded fixed) :
    ∀ x ∈ (ofChars (lines.set index fixed).flatten)[index]?, x = fixed := by
  intro x hx
  obtain ⟨hlt, hline⟩ := List.getElem?_eq_some_iff.mp hget
  by_cases hnil : fixed = []
  · -- Only the last line may become empty, and the text does not have it any more.
    have hopen : ¬IsEnded line := fun hend => (hended hend).ne_nil hnil
    have hlast : lines.drop (index + 1) = [] := by
      rw [List.drop_eq_nil_iff]
      by_contra hmore
      refine hopen (hline ▸ ?_)
      exact List.pairwise_iff_getElem.mp h.ended index (index + 1) hlt (by omega) (by omega)
    have hfront : AreSplit (lines.take index) :=
      ⟨fun l hl => h.each l (List.mem_of_mem_take hl), h.ended.sublist (List.take_sublist _ _)⟩
    have hflat : (lines.set index fixed).flatten = (lines.take index).flatten := by
      rw [List.set_eq_take_append_cons_drop, if_pos hlt, hlast, hnil, List.flatten_append]
      exact List.append_nil _
    rw [hflat, hfront.ofChars_flatten, List.getElem?_eq_none (List.length_take_le _ _)] at hx
    cases hx
  · rw [(h.set hget ⟨hnil, hfeed⟩ hended).ofChars_flatten, List.getElem?_set_self hlt] at hx
    exact (Option.some.inj hx).symm

/-- A line keeps its end when its content changes. -/
theorem IsLine.feed_append (h : IsLine line) (hs : '\n' ∉ s) :
    '\n' ∉ (s ++ terminator line).dropLast := by
  by_cases hnil : s ++ terminator line = []
  · rw [hnil]
    exact List.not_mem_nil
  · exact (IsLine.append h.feed_terminator hs hnil).feed

theorem IsLine.lowerTruth (h : IsLine line) :
    IsLine (Content.lowerTruth (content line) ++ terminator line) := by
  refine .append h.feed_terminator (feed_lowerTruth h.feed_content) fun hnil => h.ne_nil ?_
  obtain ⟨hwords, hend⟩ := List.append_eq_nil_iff.mp hnil
  have hkept := lowerTruth_isTerminator (content line)
  rw [hwords, List.map_nil, eq_comm, List.map_eq_nil_iff] at hkept
  rw [← content_append_terminator line, hkept, hend, List.nil_append]

/-- An ordinary line stays one when its content changes to one without other white space. -/
theorem IsOrdinary.append_terminator (h : IsOrdinary line)
    (hs : ∀ c ∈ s, c ≠ '\x00' ∧ (isBlank c = true → Yaml.isSpace c = true)) :
    IsOrdinary (s ++ terminator line) := by
  have hcontent : content (s ++ terminator line) = s := by
    rw [content_append_ending s fun _ => isTerminator_of_mem]
    refine dropEndWhile_of_last fun c hc => Bool.of_not_eq_true fun hend => ?_
    have hspace := (hs c (List.mem_of_getLast? hc)).2 (isBlank_of_isTerminator hend)
    rcases Bool.or_eq_true_iff.mp hend with heq | heq <;> rw [beq_iff_eq.mp heq] at hspace <;>
      cases hspace
  have hend : terminator (s ++ terminator line) = terminator line := by
    conv_lhs => rw [terminator, hcontent, List.drop_left]
  refine ⟨?_, hcontent.symm ▸ hs⟩
  rw [hend]
  exact h.ended

/-- So does one whose content gets spaces and commas. -/
theorem IsOrdinary.spaced (h : IsOrdinary line)
    (hs : ∀ c ∈ s, c = ',' ∨ c = ' ' ∨ c ∈ content line) : IsOrdinary (s ++ terminator line) := by
  refine h.append_terminator fun c hc => ?_
  rcases hs c hc with rfl | rfl | hc
  · decide
  · decide
  · exact h.chars c hc

end FileLines

namespace Fix

open FileLines

variable {fs : Files} {path text : String} {file : Option String} {selection : Selection}
  {p : Problem} {l : Linter} {lines : FileLines} {line fixed : List Char} {index : Nat}

/-- A problem is repaired by itself, and a run over the new text reports nothing of its rule on the
line where its content stands then. -/
def Clears (l : Linter) (fs : Files) (selection : Selection) (path text : String) (p : Problem) :
    Prop :=
  ∃ fs' new delta, apply p (ofChars text.toList) (p.line - 1) = some (some (new, delta)) ∧
    repairFile fs selection path [p] = (fs', .ok { fixed := [p] }) ∧
    fs'.read? path = some (String.ofList new.flatten) ∧
    ∀ file, ∀ q ∈ (l.run fs' (String.ofList new.flatten) file).problems, q.rule = p.rule →
      (q.line : Int) ≠ p.line + delta

theorem clears_of_apply {new : FileLines} {delta : Int} (hread : fs.read? path = some text)
    (hselects : selection.selects p = true)
    (happly : apply p (ofChars text.toList) (p.line - 1) = some (some (new, delta)))
    (hgone : ∀ fs' file, ∀ q ∈ (l.run fs' (String.ofList new.flatten) file).problems,
      q.rule = p.rule → (q.line : Int) ≠ p.line + delta) : Clears l fs selection path text p := by
  have hrun := repairFile_single hread hselects
  unfold Clears
  generalize repairFile fs selection path [p] = out at hrun ⊢
  cases hrun with
  | underivable h => cases happly.symm.trans h
  | unchanged h => cases happly.symm.trans h
  | @fixed lines' delta' fs' h hfile =>
    cases happly.symm.trans h
    exact ⟨fs', new, delta, happly, rfl, hfile, hgone fs'⟩

/-- A repair that leaves a line tidy leaves nothing to report on it for a rule that finds lines
which are not, and it has changed the line if the rule has reported it. -/
theorem clears_of_tidy {Tidy : List Char → Prop} (hread : fs.read? path = some text)
    (hselects : selection.selects p = true) (hp : p ∈ (l.run fs text file).problems)
    (hget : (ofChars text.toList)[p.line - 1]? = some line) (hfeed : '\n' ∉ fixed.dropLast)
    (hended : IsEnded line → IsEnded fixed)
    (happly : apply p (ofChars text.toList) (p.line - 1) =
      some (if fixed = line then none
        else some ((ofChars text.toList).set (p.line - 1) fixed, 0)))
    (htidy : Tidy fixed)
    (hfinds : l.FindsUntidy p.rule Tidy
      (String.ofList ((ofChars text.toList).set (p.line - 1) fixed).flatten)) :
    Clears l fs selection path text p := by
  by_cases hsame : fixed = line
  · -- The line was tidy before, and the rule has not reported it.
    obtain ⟨hlt, hline⟩ := List.getElem?_eq_some_iff.mp hget
    have hset : (ofChars text.toList).set (p.line - 1) fixed = ofChars text.toList := by
      rw [hsame, ← hline]
      exact List.set_getElem_self hlt
    rw [hset, FileLines.ofChars_flatten, String.ofList_toList] at hfinds
    obtain ⟨old, hold, huntidy⟩ := hfinds fs file p hp rfl
    rw [← Option.some.inj (hget.symm.trans hold), ← hsame] at huntidy
    exact absurd htidy huntidy
  · rw [if_neg hsame] at happly
    refine clears_of_apply hread hselects happly fun fs' file' q hq hrule heq => ?_
    obtain ⟨now, hnow, huntidy⟩ := hfinds fs' file' q hq hrule
    have hplace : q.line = p.line := by omega
    rw [hplace, String.toList_ofList] at hnow
    rw [(ofChars_areSplit _).ofChars_set hget hfeed hended now hnow] at huntidy
    exact huntidy htidy

/-- The lines of a text whose tokens a rule about signs sees, and whose line has been repaired. -/
structure Regular (lines new : FileLines) : Prop where
  ordinary : ∀ line ∈ lines, IsOrdinary line
  readable : (Yaml.Scan.ofList .document new.flatten).error = none

/-- What a line has to be for the repair of a rule to clear it. -/
inductive Mends (lines : FileLines) (index : Nat) (line : List Char) : String → Prop
  | trailingSpaces (hspaces : trimSpaces (content line) = trimEnd (content line)) :
    Mends lines index line "trailing-spaces"
  | newLines {s : List Char} (hline : line = s ++ ['\r', '\n']) (hlast : s.getLast? ≠ some '\r') :
    Mends lines index line "new-lines"
  | emptyLines (hreturn : '\r' ∉ lines.flatten) (hsize : lines.flatten.length < 2 ^ 64) :
    Mends lines index line "empty-lines"
  | truthy (hwords : ∀ word ∈ Rules.truthWords, word.toList ∈ wordRuns (content line) →
      isTruthWord word.toList = true)
    (hreadable : (Yaml.Scan.ofList .document
      (lines.set index (lowerTruth (content line) ++ terminator line)).flatten).error = none) :
    Mends lines index line "truthy"
  | colons {key rest : List Char} (hcolon : MendsColon (content line) key rest)
    (hregular : Regular lines (lines.set index (spaceColon (content line) ++ terminator line))) :
    Mends lines index line "colons"
  | commas (hseen : ∀ piece ∈ (pieces ',' (content line)).dropLast, piece.all isBlank = false)
    (hregular : Regular lines (lines.set index (spaceCommas (content line) ++ terminator line))) :
    Mends lines index line "commas"
  | brackets
    (hregular : Regular lines
      (lines.set index (spaceBrackets '[' ']' (content line) ++ terminator line)))
    (htight : ClosesTight .flowSequenceEnd
      (lines.set index (spaceBrackets '[' ']' (content line) ++ terminator line)).flatten) :
    Mends lines index line "brackets"
  | braces
    (hregular : Regular lines
      (lines.set index (spaceBrackets '\x7b' '\x7d' (content line) ++ terminator line)))
    (htight : ClosesTight .flowMappingEnd
      (lines.set index (spaceBrackets '\x7b' '\x7d' (content line) ++ terminator line)).flatten) :
    Mends lines index line "braces"

/-- No rule about the blueprint language is among them, so that their problems carry no repair. -/
theorem Mends.not_language {rule : String} (h : Mends lines index line rule) :
    Registry.isLanguageRule rule = false := by
  cases h <;> rfl

/-- The text with the repaired line is one of ordinary lines. -/
theorem Regular.lines_set {new : FileLines} {s : List Char} (h : Regular lines new)
    (hget : lines[index]? = some line) (hs : ∀ c ∈ s, c = ',' ∨ c = ' ' ∨ c ∈ content line) :
    (∀ l ∈ lines.set index (s ++ terminator line), IsOrdinary l) ∧
      lines.set index (s ++ terminator line) ≠ [] := by
  constructor
  · intro l hl
    rcases List.mem_or_eq_of_mem_set hl with hl | rfl
    · exact h.ordinary l hl
    · exact (h.ordinary line (List.mem_of_getElem? hget)).spaced hs
  · rw [Ne, List.set_eq_nil_iff]
    rintro rfl
    cases hget

theorem apply_plain (hrepair : p.repair = none) (hget : lines[index]? = some line) :
    apply p lines index = ofRule p lines index := by
  unfold apply
  rw [if_neg (Nat.not_le.mpr (List.getElem?_eq_some_iff.mp hget).1), hrepair]

section Clears

variable (hread : fs.read? path = some text) (hselects : selection.selects p = true)
  (hp : p ∈ (l.run fs text file).problems) (hrepair : p.repair = none)
  (hget : (ofChars text.toList)[p.line - 1]? = some line)

include hread hselects hp hrepair hget

/-- The repair of the content of a line. -/
theorem clears_of_content {Tidy : List Char → Prop} {f : List Char → List Char}
    (hrule : ofRule p (ofChars text.toList) (p.line - 1) =
      some ((ofChars text.toList).mapContent f (p.line - 1)))
    (hfeed : ∀ {s : List Char}, '\n' ∉ s → '\n' ∉ f s)
    (htidy : Tidy (f (content line) ++ terminator line))
    (hfinds : l.FindsUntidy p.rule Tidy (String.ofList
      ((ofChars text.toList).set (p.line - 1) (f (content line) ++ terminator line)).flatten)) :
    Clears l fs selection path text p := by
  have hline := (ofChars_areSplit text.toList).each line (List.mem_of_getElem? hget)
  refine clears_of_tidy hread hselects hp hget (hline.feed_append (hfeed hline.feed_content))
    (fun hended => hended.terminator.append _) ?_ htidy hfinds
  rw [apply_plain hrepair hget, hrule, mapContent_set hget]

/-- The repair of the end of a line. -/
theorem clears_of_return {s : List Char} (hl : Linter.ofConfig .builtin {} = .ok l)
    (hrule : p.rule = "new-lines") (hreturn : line = s ++ ['\r', '\n'])
    (hlast : s.getLast? ≠ some '\r') : Clears l fs selection path text p := by
  have hfree := ((ofChars_areSplit text.toList).each line (List.mem_of_getElem? hget)).feed
  rw [hreturn, List.append_cons, List.dropLast_concat] at hfree
  have hother : s ++ ['\n'] ≠ line := fun heq => by
    have hlength := congrArg List.length (heq.trans hreturn)
    simp at hlength
  have hfeed : '\n' ∉ (s ++ ['\n']).dropLast := by
    rw [List.dropLast_concat]
    exact fun hm => hfree (List.mem_append_left _ hm)
  have htidy : TidyFeed (s ++ ['\n']) := by
    rintro ⟨r, hr⟩
    rw [List.append_cons] at hr
    obtain ⟨rfl, -⟩ := List.append_inj' hr rfl
    exact hlast List.getLast?_concat
  have hfinds : l.FindsUntidy "new-lines" TidyFeed
      (String.ofList ((ofChars text.toList).set (p.line - 1) (s ++ ['\n'])).flatten) :=
    Linter.findsUntidy_newLines hl
  refine clears_of_tidy hread hselects hp hget hfeed (fun _ => List.getLast?_concat) ?_ htidy
    (hrule ▸ hfinds)
  rw [apply_plain hrepair hget, if_neg hother]
  simp only [ofRule, hrule]
  exact congrArg some (endWithFeed_eq_some.mpr ⟨s, hreturn ▸ hget, rfl, rfl⟩)

omit hget in
/-- The repair of a run of blank lines. -/
theorem clears_of_run (hl : Linter.ofConfig .builtin {} = .ok l) (hrule : p.rule = "empty-lines")
    (hreturn : '\r' ∉ text.toList) (hsize : text.toList.length < 2 ^ 64) :
    Clears l fs selection path text p := by
  have hlimits : Rules.LimitsBlank Rules.emptyLines.defaults := ⟨by decide, by decide, by decide⟩
  have hfound {fs' : Files} {text' : String} {file' : Option String} {q : Problem}
      (hq : q ∈ (l.run fs' text' file').problems) (hsame : q.rule = "empty-lines") :
      ∃ found ∈ (Line.ofList text'.toList).flatMap (Rules.checkBlankLines Rules.emptyLines.defaults),
        q.line = found.line ∧ q.message = found.message :=
    Linter.mem_problems_of_lines (r := Rules.emptyLines) hl
      (by simp [Registry.builtin, Registry.styleRules]) (fun _ _ => rfl) rfl hq hsame
  obtain ⟨runs, last, hlines, hruns⟩ := FileLines.exists_runs (ofChars text.toList)
  have hended : FeedEnded (ofRuns runs last) := by
    rw [hlines]
    exact ofChars_feedEnded hreturn
  have htext : text.toList = (ofRuns runs last).flatten := by
    rw [hlines, FileLines.ofChars_flatten]
  obtain ⟨found, hmem, hline, hmessage⟩ := hfound hp hrule
  rw [htext, hlimits.check_ofRuns hruns hended] at hmem
  obtain ⟨before, k, rest, limit, runs', last', hold, hlt, rfl, hnew, hended', hruns', hgone⟩ :=
    hlimits.exists_run hended hruns hmem
  have hk : k < Number.natural64Limit := by
    have hcount := congrArg List.length hold
    have hlength := hended.length_le
    rw [← htext] at hlength
    rw [List.length_append, List.length_append, List.length_replicate] at hcount
    exact Nat.lt_of_le_of_lt (by omega) hsize
  have hplace : p.line = before.length + k := hline.trans (Nat.zero_add _)
  have hindex : p.line - 1 + 1 = before.length + k := by omega
  have hexcess : excessOf? p.message = some (k - limit) := by
    rw [hmessage]
    exact excessOf?_message hk hlt
  have happly := apply_run (hlines.symm.trans hold) hindex hrule hrepair hexcess (by omega)
    (Nat.sub_le k limit)
  rw [Nat.sub_sub_self (Nat.le_of_lt hlt), ← hnew] at happly
  refine clears_of_apply hread hselects happly fun fs' file' q hq hsame heq => ?_
  obtain ⟨still, hstill, hnumber, -⟩ := hfound hq (hsame.trans hrule)
  rw [String.toList_ofList, hlimits.check_ofRuns hruns' hended'] at hstill
  have := hgone still hstill
  omega

omit hrepair in
/-- Repairing a problem of the spacing, of a boolean, of the end of a line or of blank lines by
itself succeeds and lists the problem as repaired, and its rule reports nothing where its line then
stands, if the line is one that the repair mends. -/
theorem repairFile_clears (hl : Linter.ofConfig .builtin {} = .ok l)
    (hmends : Mends (ofChars text.toList) (p.line - 1) line p.rule) :
    Clears l fs selection path text p := by
  have hrepair : p.repair = none := by
    have hcarries := Linter.run_repair_isSome (Linter.registry_of_default hl) hp
      (Bool.and_eq_true_iff.mp hselects).1
    rwa [hmends.not_language, Option.isSome_eq_false_iff, Option.isNone_iff_eq_none] at hcarries
  have hsplit := ofChars_areSplit text.toList
  have hline := hsplit.each line (List.mem_of_getElem? hget)
  have hending : IsEnding (terminator line) := IsEnding.terminator line
  obtain ⟨rule, hrule⟩ : ∃ rule, p.rule = rule := ⟨_, rfl⟩
  rw [hrule] at hmends
  cases hmends with
  | trailingSpaces hspaces =>
    exact clears_of_content hread hselects hp hrepair hget
      (by simp only [ofRule, hrule]) feed_trimSpaces (trimSpaces_tidy hspaces hending)
      (hrule ▸ Linter.findsUntidy_trailingSpaces hl)
  | newLines hreturn hlast =>
    exact clears_of_return hread hselects hp hrepair hget hl hrule hreturn hlast
  | emptyLines hreturn hsize =>
    rw [FileLines.ofChars_flatten] at hreturn hsize
    exact clears_of_run hread hselects hp hrepair hl hrule hreturn hsize
  | truthy hwords hreadable =>
    have hnew := hsplit.set hget hline.lowerTruth fun hended => hended.terminator.append _
    exact clears_of_content hread hselects hp hrepair hget
      (by simp only [ofRule, hrule]) feed_lowerTruth (lowerTruth_tidy hwords hending)
      (hrule ▸ Linter.findsUntidy_truthy hl hreadable hnew)
  | colons hcolon hregular =>
    obtain ⟨hlines, hne⟩ := hregular.lines_set hget fun c hc => Or.inr (mem_spaceColon hc)
    exact clears_of_content hread hselects hp hrepair hget
      (by simp only [ofRule, hrule]) feed_spaceColon (spaceColon_tidy hcolon hending)
      (hrule ▸ Linter.findsUntidy_colons hl hregular.readable hlines hne)
  | commas hseen hregular =>
    obtain ⟨hlines, hne⟩ := hregular.lines_set hget fun c hc => mem_spaceCommas hc
    exact clears_of_content hread hselects hp hrepair hget
      (by simp only [ofRule, hrule]) feed_spaceCommas (spaceCommas_tidy hseen hending)
      (hrule ▸ Linter.findsUntidy_commas hl hregular.readable hlines hne)
  | brackets hregular htight =>
    obtain ⟨hlines, hne⟩ := hregular.lines_set hget fun c hc => Or.inr (mem_spaceBrackets hc)
    exact clears_of_content hread hselects hp hrepair hget
      (by simp only [ofRule, hrule]) (feed_spaceBrackets '[' ']')
      (spaceBrackets_tidy (by decide) (by decide) hending (content line))
      (hrule ▸ Linter.findsUntidy_brackets hl hregular.readable hlines hne htight)
  | braces hregular htight =>
    obtain ⟨hlines, hne⟩ := hregular.lines_set hget fun c hc => Or.inr (mem_spaceBrackets hc)
    exact clears_of_content hread hselects hp hrepair hget
      (by simp only [ofRule, hrule]) (feed_spaceBrackets '\x7b' '\x7d')
      (spaceBrackets_tidy (by decide) (by decide) hending (content line))
      (hrule ▸ Linter.findsUntidy_braces hl hregular.readable hlines hne htight)

end Clears

/-- A key with a space before its colon. -/
theorem repairFile_clears_colon :
    let text := "a : 1\nb: 2\n"
    let fs := Files.empty.create "b.yaml" (.text text)
    ∃ l p, Linter.ofConfig .builtin {} = .ok l ∧ p ∈ (l.run fs text none).problems ∧
      p.rule = "colons" ∧ p.line = 1 ∧ fs.read? "b.yaml" = some text ∧
      Selection.all.selects p = true ∧
      (ofChars text.toList)[p.line - 1]? = some "a : 1\n".toList ∧
      Mends (ofChars text.toList) (p.line - 1) "a : 1\n".toList p.rule ∧
      Clears l fs .all "b.yaml" text p := by
  intro text fs
  obtain ⟨l, p, hl, hp, hfound⟩ := Linter.exists_default_problem fs text
    (f := fun p => decide (p.rule = "colons" ∧ p.line = 1 ∧
      Selection.all.selects p = true)) (by decide +kernel)
  obtain ⟨hrule, hline, hselects⟩ := of_decide_eq_true hfound
  have hread : fs.read? "b.yaml" = some text := by decide +kernel
  have hlines : ofChars text.toList = ["a : 1\n".toList, "b: 2\n".toList] := by decide
  have hget : (ofChars text.toList)[p.line - 1]? = some "a : 1\n".toList := by
    rw [hline, hlines]
    rfl
  have hcolon : MendsColon (content "a : 1\n".toList) "a ".toList " 1".toList :=
    { eq := by decide
      first := by decide
      seen := by decide
      apart := by decide
      key := ⟨.of_not_mem (by decide), .of_not_mem (by decide), .of_not_mem (by decide)⟩
      rest := ⟨.of_not_mem (by decide), .of_not_mem (by decide), .of_not_mem (by decide)⟩ }
  have hchars : ["a : 1\n".toList, "b: 2\n".toList].all (fun line => (content line).all fun c =>
      decide (c ≠ '\x00' ∧ (isBlank c = true → Yaml.isSpace c = true))) = true := by decide
  have hordinary : ∀ line ∈ ofChars text.toList, IsOrdinary line := by
    intro line hm
    rw [hlines] at hm
    have hline := List.all_eq_true.mp (List.all_eq_true.mp hchars line hm)
    refine ⟨?_, fun c hc => of_decide_eq_true (hline c hc)⟩
    rcases List.mem_pair.mp hm with rfl | rfl <;> exact .inl (by decide)
  have hmends : Mends (ofChars text.toList) (p.line - 1) "a : 1\n".toList p.rule := by
    rw [hrule, hline]
    exact .colons hcolon ⟨hordinary, by decide +kernel⟩
  have hclears := repairFile_clears hread hselects hp hget hl hmends
  exact ⟨l, p, hl, hp, hrule, hline, hread, hselects, hget, hmends, hclears⟩

/-- The repair of a colon sees the first colon of its line. The rule reports each one. -/
theorem repairFile_misses_colon :
    let text := "a: \x7bb : 1\x7d\n"
    let fs := Files.empty.create "b.yaml" (.text text)
    ∃ l p, Linter.ofConfig .builtin {} = .ok l ∧ p ∈ (l.run fs text none).problems ∧
      p.rule = "colons" ∧ p.fixable = true ∧ p.line = 1 ∧ p.column = some 6 ∧
      repairFile fs .all "b.yaml" [p] = (fs, .ok { unchanged := [p] }) := by
  intro text fs
  obtain ⟨l, p, hl, hp, hfound⟩ := Linter.exists_default_problem fs text
    (f := fun p => decide (p.rule = "colons" ∧ p.fixable = true ∧ p.line = 1 ∧ p.column = some 6 ∧
      Selection.all.selects p = true ∧ apply p (ofChars text.toList) (p.line - 1) = some none))
    (by decide +kernel)
  obtain ⟨hrule, hfixable, hline, hcolumn, hselects, hchange⟩ := of_decide_eq_true hfound
  have hread : fs.read? "b.yaml" = some text := by decide +kernel
  have hrun := repairFile_single hread hselects
  refine ⟨l, p, hl, hp, hrule, hfixable, hline, hcolumn, ?_⟩
  generalize repairFile fs .all "b.yaml" [p] = out at hrun ⊢
  cases hrun with
  | underivable h => cases hchange.symm.trans h
  | unchanged h => rfl
  | fixed h => cases hchange.symm.trans h

end Fix

end Blueprint
