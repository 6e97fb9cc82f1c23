import Blueprint.Proofs.BlankEndings
import Blueprint.Proofs.ConfigResolution
import Blueprint.Proofs.FaultPlace
import Blueprint.Proofs.SharedSession
import Blueprint.Proofs.TidyRepairs

/-!
Where a linter with the default configuration reports. What a rule about the space around signs or
about the ends of lines reports in a text stands on a line of this text that is not tidy.
-/

namespace Blueprint

open Text

/-! Lines. -/

namespace Line

variable {n : Nat} {before s : List Char} {ls : List Line} {l : Line} {lines : FileLines}

/-- A line of a text in the list of its lines. An empty line at the end of the text is not in it. -/
def IsIn (lines : FileLines) (first : Nat) (l : Line) : Prop :=
  l.content = [] ∧ l.rest = [] ∨ first ≤ l.number ∧
    (lines[l.number - first]? = some l.content ∧ l.rest = [] ∨
      ∃ (e : LineEnd) (text : List Char),
        lines[l.number - first]? = some (l.content ++ e.chars) ∧ l.rest = e.chars ++ text)

theorem Cut.isIn (h : Cut n before s ls) (hsplit : lines.AreSplit) (hflat : lines.flatten = s)
    (hl : l ∈ ls) : IsIn lines n l := by
  induction h generalizing lines with
  | @last n before s offset hs =>
    rw [List.mem_singleton.mp hl]
    by_cases hnil : s = []
    · exact Or.inl ⟨hnil, rfl⟩
    · have hlines := hsplit.ofChars_flatten
      rw [hflat, FileLines.ofChars_last hnil hs] at hlines
      rw [← hlines]
      refine Or.inr ⟨Nat.le_refl n, Or.inl ⟨?_, rfl⟩⟩
      show [s][n - n]? = some s
      rw [Nat.sub_self]
      rfl
  | @line n before s text ls offset e hs hreturn h ih =>
    have hfirst : s ++ e.chars = (s ++ e.chars.dropLast) ++ ['\n'] := by
      cases e <;> simp [LineEnd.chars]
    have hfree : '\n' ∉ s ++ e.chars.dropLast :=
      List.not_mem_append hs (by cases e <;> decide)
    have hlines := hsplit.ofChars_flatten
    rw [hflat, ← List.append_assoc, hfirst, List.append_assoc, List.singleton_append,
      FileLines.ofChars_line hfree, ← hfirst] at hlines
    rw [← hlines]
    rcases List.mem_cons.mp hl with rfl | hl
    · refine Or.inr ⟨Nat.le_refl n, Or.inr ⟨e, text, ?_, rfl⟩⟩
      show ((s ++ e.chars) :: FileLines.ofChars text)[n - n]? = _
      rw [Nat.sub_self]
      rfl
    · refine (ih (FileLines.ofChars_areSplit text) (FileLines.ofChars_flatten text) hl).imp_right ?_
      rintro ⟨hle, hget⟩
      have hnext : l.number - n = l.number - (n + 1) + 1 := by omega
      rw [hnext, List.getElem?_cons_succ]
      exact ⟨Nat.le_of_succ_le hle, hget⟩

theorem mem_ofList_isIn (hl : l ∈ ofList s) : IsIn (FileLines.ofChars s) 1 l :=
  (ofList_cut s).isIn (FileLines.ofChars_areSplit s) (FileLines.ofChars_flatten s) hl

end Line

namespace Rules

variable {s : List Char} {l : Line} {q : Problem}

/-- A line that does not end as it should ends with a carriage return before its line feed. -/
theorem checkLineEnding_untidy (hl : l ∈ Line.ofList s)
    (hq : q ∈ checkLineEnding newLines.defaults l) :
    ∃ line ∈ (FileLines.ofChars s)[q.line - 1]?, ¬TidyFeed line := by
  unfold checkLineEnding at hq
  rw [show lineEnding newLines.defaults = (['\n'], "\\n") from rfl] at hq
  dsimp only at hq
  split at hq
  · cases hq
  next hother =>
    rw [List.mem_singleton.mp hq]
    rw [Bool.or_eq_true, not_or, List.isEmpty_iff] at hother
    rcases Line.mem_ofList_isIn hl with hend | ⟨-, hend | ⟨e, text, hget, hrest⟩⟩
    · exact absurd hend.2 hother.1
    · exact absurd hend.2 hother.1
    · cases e with
      | feed =>
        rw [hrest] at hother
        exact absurd rfl hother.2
      | returnFeed => exact ⟨_, hget, fun htidy => htidy (List.suffix_append _ _)⟩

/-- White space that is reported stands at the end of its line. -/
theorem checkLineEnd_untidy {c : RuleSettings} (hl : l ∈ Line.ofList s)
    (hq : q ∈ checkLineEnd c l) :
    ∃ line ∈ (FileLines.ofChars s)[q.line - 1]?, ¬TidyEnd line := by
  unfold checkLineEnd at hq
  dsimp only at hq
  split at hq
  next x r hdrop =>
    split at hq
    next hspace =>
      rw [List.mem_singleton.mp hq]
      have huntidy {ending : List Char} (hend : FileLines.IsEnding ending) :
          ¬TidyEnd (l.content ++ ending) := by
        intro htidy
        unfold TidyEnd at htidy
        have hle : (trimEnd l.content).length ≤ l.content.length :=
          (dropEndWhile_isPrefix isBlank l.content).length_le
        rw [hend.trimEnd_append, List.drop_append_of_le_length hle, hdrop] at htidy
        have hx := htidy x rfl
        rw [show Yaml.isSpace x = true from hspace] at hx
        cases hx
      rcases Line.mem_ofList_isIn hl with ⟨hnil, -⟩ | ⟨-, ⟨hget, -⟩ | ⟨e, text, hget, -⟩⟩
      · rw [hnil, List.drop_nil] at hdrop
        cases hdrop
      · refine ⟨_, hget, ?_⟩
        have hbare : ¬TidyEnd (l.content ++ []) := huntidy nofun
        rwa [List.append_nil] at hbare
      · refine ⟨_, hget, huntidy fun c hc => ?_⟩
        cases e with
        | feed =>
          rw [List.mem_singleton.mp hc]
          rfl
        | returnFeed => rcases List.mem_pair.mp hc with rfl | rfl <;> rfl
    · cases hq
  · cases hq

end Rules

/-! Elements and rules. -/

theorem Element.mem_views {text : String} {v : TokenView} (h : .token v ∈ ofDocument text) :
    v ∈ TokenStream.views (Source.ofList text.toList)
      ((Yaml.Scan.ofList .document text.toList).tokens.map (·.token)) := by
  have hparts := (interleave_perm notAfter _ _).mem_iff.mp h
  rcases List.mem_append.mp hparts with h | h
  · rcases List.mem_append.mp ((interleave_perm notAfter _ _).mem_iff.mp h) with h | h
    · obtain ⟨w, hw, h⟩ := List.mem_flatMap.mp h
      rcases List.mem_cons.mp h with heq | h
      · cases heq
        exact hw
      · obtain ⟨x, -, hx⟩ := List.mem_map.mp h
        cases hx
    · obtain ⟨w, -, hw⟩ := List.mem_map.mp h
      cases hw
  · obtain ⟨w, -, hw⟩ := List.mem_map.mp h
    cases hw

theorem Element.mem_lines {text : String} {x : Line} (h : .line x ∈ ofDocument text) :
    x ∈ Line.ofList text.toList := by
  rw [← ofText_lines (Source.ofText text) text.toList (textRoot? text)]
  exact List.mem_filterMap.mpr ⟨_, h, rfl⟩

namespace Linter

variable {l : Linter} {fs : Files} {text : String} {file : Option String} {p : Problem} {r : Rule}
  {Tidy : List Char → Prop}

theorem registry_of_default (hl : ofConfig .builtin {} = .ok l) : l.registry = Registry.builtin := by
  obtain ⟨confs, -, hl⟩ := bind_eq_ok.mp hl
  cases hl
  rfl

/-- Without a configuration of its own a linter runs the rules with their defaults. -/
theorem conf_of_default {a : ActiveRule} (hl : ofConfig .builtin {} = .ok l)
    (ha : a ∈ l.rulesFor file) :
    a.rule ∈ Registry.builtin.rules ∧ a.conf = a.rule.defaults := by
  obtain ⟨confs, hconfs, hl⟩ := bind_eq_ok.mp hl
  cases hl
  unfold rulesFor at ha
  obtain ⟨rule, hrule, ha⟩ := List.mem_filterMap.mp ha
  obtain ⟨conf, hconf, rfl⟩ := Option.map_eq_some_iff.mp ha
  have hlookup : confs.lookup rule.name = some conf := (Option.filter_eq_some_iff.mp hconf).1
  have hnames : (Registry.builtin.rules.map (·.name)).Nodup := by decide +kernel
  have hmerged := Config.get?_merged hnames Setting.Entries.unambiguous_nil hrule
  have hresolve := (Config.resolveRules_lookup hconfs).2 hnames rule hrule
  have hdefault := Config.resolveRule_default (Registry.builtin_declares rule hrule) hmerged hresolve
  rw [hlookup] at hdefault
  refine ⟨hrule, ?_⟩
  split at hdefault
  · exact Option.some.inj hdefault
  · cases hdefault

theorem exists_default_problem (fs : Files) (text : String) {f : Problem → Bool}
    (h : ((ofConfig .builtin {}).toOption.any fun l => (l.run fs text none).problems.any f) = true) :
    ∃ l p, ofConfig .builtin {} = .ok l ∧ p ∈ (l.run fs text none).problems ∧ f p = true := by
  cases hl : ofConfig .builtin {} with
  | error e =>
    rw [hl] at h
    cases h
  | ok l =>
    rw [hl] at h
    obtain ⟨p, hp, hf⟩ := List.any_eq_true.mp h
    exact ⟨l, p, rfl, hp, hf⟩

/-- A problem of a rule that reports nothing at the end of the document is one of an element. -/
theorem mem_problems_default (hl : ofConfig .builtin {} = .ok l) (hr : r ∈ Registry.builtin.rules)
    (hfinish : ∀ c s, (r.finish c s).1 = []) (hp : p ∈ (l.run fs text file).problems)
    (hrule : p.rule = r.name) :
    ∃ e ∈ Element.ofDocument text, ∃ s, ∃ q ∈ (r.run r.defaults e s).1,
      p.line = q.line ∧ p.message = q.message := by
  rcases mem_problems hp with hreport | hfault
  · obtain ⟨a, ha, q, s, rfl, hq⟩ := Call.mem_schedule hreport
    obtain ⟨hbuiltin, hconf⟩ := conf_of_default hl ha
    obtain rfl : a.rule = r := Registry.eq_of_name hbuiltin hr hrule
    rw [hconf, hfinish] at hq
    rcases hq with hq | ⟨e, he, hq⟩
    · cases hq
    · exact ⟨e, he, s, q, hq, rfl, rfl⟩
  · rw [(textFault?_isFault hfault).rule] at hrule
    exact absurd hrule.symm (Registry.builtin_name_ne_textRule hr)

/-- Each problem of a rule in a text stands on a line of the text that is not tidy. -/
def FindsUntidy (l : Linter) (rule : String) (Tidy : List Char → Prop) (text : String) : Prop :=
  ∀ fs file, ∀ p ∈ (l.run fs text file).problems, p.rule = rule →
    ∃ line ∈ (FileLines.ofChars text.toList)[p.line - 1]?, ¬Tidy line

theorem mem_problems_of_lines {f : RuleSettings → Line → List Problem}
    (hl : ofConfig .builtin {} = .ok l) (hr : r ∈ Registry.builtin.rules)
    (hfinish : ∀ c s, (r.finish c s).1 = []) (hcheck : r.check = .eachLine f)
    (hp : p ∈ (l.run fs text file).problems) (hrule : p.rule = r.name) :
    ∃ q ∈ (Line.ofList text.toList).flatMap (f r.defaults),
      p.line = q.line ∧ p.message = q.message := by
  obtain ⟨e, he, s, q, hq, hsame⟩ := mem_problems_default hl hr hfinish hp hrule
  unfold Rule.run at hq
  rw [hcheck] at hq
  cases e with
  | line x => exact ⟨q, List.mem_flatMap.mpr ⟨x, Element.mem_lines he, hq⟩, hsame⟩
  | _ => cases hq

theorem findsUntidy_of_lines {f : RuleSettings → Line → List Problem}
    (hl : ofConfig .builtin {} = .ok l) (hr : r ∈ Registry.builtin.rules)
    (hfinish : ∀ c s, (r.finish c s).1 = []) (hcheck : r.check = .eachLine f)
    (h : ∀ x ∈ Line.ofList text.toList, ∀ q ∈ f r.defaults x,
      ∃ line ∈ (FileLines.ofChars text.toList)[q.line - 1]?, ¬Tidy line) :
    l.FindsUntidy r.name Tidy text := by
  intro fs file p hp hrule
  obtain ⟨q, hq, hline, -⟩ := mem_problems_of_lines hl hr hfinish hcheck hp hrule
  obtain ⟨x, hx, hq⟩ := List.mem_flatMap.mp hq
  rw [hline]
  exact h x hx q hq

theorem findsUntidy_of_tokens {f : RuleSettings → TokenView → List Problem}
    (hl : ofConfig .builtin {} = .ok l) (hr : r ∈ Registry.builtin.rules)
    (hfinish : ∀ c s, (r.finish c s).1 = []) (hcheck : r.check = .eachToken f)
    (h : ∀ v ∈ TokenStream.views (Source.ofList text.toList)
        ((Yaml.Scan.ofList .document text.toList).tokens.map (·.token)), ∀ q ∈ f r.defaults v,
      ∃ line ∈ (FileLines.ofChars text.toList)[q.line - 1]?, ¬Tidy line) :
    l.FindsUntidy r.name Tidy text := by
  intro fs file p hp hrule
  obtain ⟨e, he, s, q, hq, hline, -⟩ := mem_problems_default hl hr hfinish hp hrule
  rw [hline]
  unfold Rule.run at hq
  rw [hcheck] at hq
  cases e with
  | token v => exact h v (Element.mem_views he) q hq
  | _ => cases hq

variable (hl : ofConfig .builtin {} = .ok l)

include hl

theorem findsUntidy_trailingSpaces : l.FindsUntidy "trailing-spaces" TidyEnd text :=
  findsUntidy_of_lines (r := Rules.trailingSpaces) hl
    (by simp [Registry.builtin, Registry.styleRules]) (fun _ _ => rfl) rfl
    fun _ hx _ hq => Rules.checkLineEnd_untidy hx hq

theorem findsUntidy_newLines : l.FindsUntidy "new-lines" TidyFeed text :=
  findsUntidy_of_lines (r := Rules.newLines) hl
    (by simp [Registry.builtin, Registry.styleRules]) (fun _ _ => rfl) rfl
    fun _ hx _ hq => Rules.checkLineEnding_untidy hx hq

end Linter

/-! Tokens of a text. -/

/-- No tag, block scalar or directive stands right before a closing sign. -/
def ClosesTight (closing : Yaml.TokenKind) (text : List Char) : Prop :=
  ∀ v ∈ TokenStream.views (Source.ofList text)
    ((Yaml.Scan.ofList .document text).tokens.map (·.token)),
    v.curr.kind = closing → ∀ k ∈ v.prevKind, k.isLoose = false

namespace Linter

variable {l : Linter} {lines : FileLines} {rule : String} {Tidy : List Char → Prop}

/-- What stands on the lines of a text that a rule about tokens reports on. -/
theorem findsUntidy_of_split {r : Rule} {f : RuleSettings → TokenView → List Problem}
    (hl : ofConfig .builtin {} = .ok l) (hsplit : lines.AreSplit)
    (hr : r ∈ Registry.builtin.rules) (hfinish : ∀ c s, (r.finish c s).1 = [])
    (hcheck : r.check = .eachToken f)
    (h : ∀ v ∈ TokenStream.views (Source.ofList lines.flatten)
        ((Yaml.Scan.ofList .document lines.flatten).tokens.map (·.token)), ∀ q ∈ f r.defaults v,
      ∃ line ∈ lines[q.line - 1]?, ¬Tidy line) :
    l.FindsUntidy r.name Tidy (String.ofList lines.flatten) := by
  refine findsUntidy_of_tokens hl hr hfinish hcheck ?_
  rw [String.toList_ofList, hsplit.ofChars_flatten]
  exact h

section Signs

variable (hl : ofConfig .builtin {} = .ok l)
  (herror : (Yaml.Scan.ofList .document lines.flatten).error = none)

include hl herror

theorem findsUntidy_truthy (hsplit : lines.AreSplit) :
    l.FindsUntidy "truthy" TidyTruth (String.ofList lines.flatten) :=
  findsUntidy_of_split (r := Rules.truthy) hl hsplit
    (by simp [Registry.builtin, Registry.styleRules]) (fun _ _ => rfl) rfl
    fun _ hv _ hq => Rules.checkTruth_untidy hsplit herror hv hq

variable (hlines : ∀ line ∈ lines, FileLines.IsOrdinary line) (hne : lines ≠ [])

include hlines hne

omit herror in
theorem findsUntidy_of_ordinary {r : Rule} {f : RuleSettings → TokenView → List Problem}
    (hr : r ∈ Registry.builtin.rules) (hfinish : ∀ c s, (r.finish c s).1 = [])
    (hcheck : r.check = .eachToken fun c v => (f c v).map .asFixable)
    (h : lines.AreSplit → OrdinaryText lines.flatten →
      ∀ v ∈ TokenStream.views (Source.ofList lines.flatten)
        ((Yaml.Scan.ofList .document lines.flatten).tokens.map (·.token)), ∀ q ∈ f r.defaults v,
      ∃ line ∈ lines[q.line - 1]?, ¬Tidy line) :
    l.FindsUntidy r.name Tidy (String.ofList lines.flatten) := by
  have hsplit := FileLines.areSplit_of_ordinary hlines
  refine findsUntidy_of_split hl hsplit hr hfinish hcheck fun v hv q hq => ?_
  obtain ⟨found, hfound, rfl⟩ := List.mem_map.mp hq
  exact h hsplit (FileLines.ordinaryText hlines hne) v hv found hfound

theorem findsUntidy_colons : l.FindsUntidy "colons" TidyColons (String.ofList lines.flatten) :=
  findsUntidy_of_ordinary (r := Rules.colons) hl hlines hne
    (by simp [Registry.builtin, Registry.styleRules]) (fun _ _ => rfl) rfl
    fun hsplit hord _ hv _ hq => Rules.colonProblems_untidy hsplit hord herror hv hq

theorem findsUntidy_commas : l.FindsUntidy "commas" TidyCommas (String.ofList lines.flatten) :=
  findsUntidy_of_ordinary (r := Rules.commas) hl hlines hne
    (by simp [Registry.builtin, Registry.styleRules]) (fun _ _ => rfl) rfl
    fun hsplit hord _ hv _ hq => Rules.commaProblems_untidy hsplit hord herror hv hq

theorem findsUntidy_brackets (htight : ClosesTight .flowSequenceEnd lines.flatten) :
    l.FindsUntidy "brackets" (TidyInside '[' ']') (String.ofList lines.flatten) :=
  findsUntidy_of_ordinary (r := Rules.brackets) hl hlines hne
    (by simp [Registry.builtin, Registry.styleRules]) (fun _ _ => rfl) rfl
    fun hsplit hord v hv _ hq =>
      Rules.bracketProblems_untidy hsplit hord herror hv (htight v hv) hq

theorem findsUntidy_braces (htight : ClosesTight .flowMappingEnd lines.flatten) :
    l.FindsUntidy "braces" (TidyInside '\x7b' '\x7d') (String.ofList lines.flatten) :=
  findsUntidy_of_ordinary (r := Rules.braces) hl hlines hne
    (by simp [Registry.builtin, Registry.styleRules]) (fun _ _ => rfl) rfl
    fun hsplit hord v hv _ hq =>
      Rules.braceProblems_untidy hsplit hord herror hv (htight v hv) hq

end Signs

end Linter

end Blueprint
