import Blueprint.Config
import Blueprint.Proofs.ForwardReading
import Blueprint.Proofs.SettingReading

/-!
What a configuration that is taken over looks like: its rules are known, and the entries of rules
that stay enabled hold known keys with values of the kind that each of them demands.
-/

namespace Blueprint

namespace Setting

/-- Whether a setting may be an item of a list of words. -/
def IsWord : Setting → Prop
  | text _ | bool _ | int _ | float _ => True
  | _ => False

/-- Whether a setting is an integer of 64 bits with a sign. -/
def IsInt64 (v : Setting) : Prop :=
  ∃ i : Int, v = int i ∧ -(Nat.pow 2 63 : Int) ≤ i ∧ i < (Nat.pow 2 63 : Int)

/-- Whether a setting gives patterns of file names: by its lines, or as a list. -/
def IsPatterns (v : Setting) : Prop :=
  (∃ s, v = text s ∧ ∀ line ∈ Text.lines s.toList, line.all Text.isBlank = false →
      ∃ g, Glob.ofText (String.ofList line) = .ok g) ∨
    ∃ items, v = list items ∧ ∀ item ∈ items, ∃ s, item.untagged = text s ∧
      ∃ g, Glob.ofText s = .ok g

end Setting

/-- Whether a setting is of the kind that an option demands. -/
def OptionForm.Admits : OptionForm → Setting → Prop
  | bool _, v => ∃ b, v.untagged = .bool b
  | int _, v => v.untagged.IsInt64
  | text _, v => ∃ s, v.untagged = .text s
  | intOr keyword _, v => v.IsInt64 ∨ v = .text keyword
  | oneOf choices _, v =>
    (∃ s ∈ choices, v = .text s) ∨ ∃ b, v = .bool b ∧ wordOfBool b ∈ choices
  | list _, v => ∃ items, v.untagged = .list items ∧ ∀ item ∈ items, item.IsWord

/-- Whether a rule takes a setting under a key. -/
inductive Rule.Takes (r : Rule) (v : Setting) : String → Prop
  | enabled : r.Takes v Config.enabledKey
  | level (level : Level) (h : v.untagged = .text level.name) : r.Takes v Config.levelKey
  | ignore (h : v.IsPatterns) : r.Takes v Config.ignoreKey
  | option (spec : RuleOption) (hspec : spec ∈ r.options) (h : spec.kind.Admits v) :
      r.Takes v spec.name

section Readers

variable {v : Setting}

theorem Setting.bool?_eq_some {b : Bool} : v.bool? = some b ↔ v.untagged = .bool b := by
  unfold bool?
  split
  next c hc => rw [hc, Option.some.injEq, bool.injEq]
  next hother =>
    constructor
    · rintro ⟨⟩
    · exact fun h => absurd h (hother b)

theorem Setting.text?_eq_some {s : String} : v.text? = some s ↔ v.untagged = .text s := by
  unfold text?
  split <;> simp_all

theorem Setting.items?_eq_some {items : List Setting} :
    v.items? = some items ↔ v.untagged = .list items := by
  unfold items?
  split <;> simp_all

theorem Number.inSigned_iff {i : Int} :
    inSigned 64 i = true ↔ -(Nat.pow 2 63 : Int) ≤ i ∧ i < (Nat.pow 2 63 : Int) := by
  unfold inSigned
  rw [Bool.and_eq_true, decide_eq_true_iff, decide_eq_true_iff]

theorem Setting.exists_int64? : (∃ i, v.int64? = some i) ↔ v.untagged.IsInt64 := by
  unfold int64? IsInt64
  constructor
  · rintro ⟨i, h⟩
    split at h
    next j hj =>
      split at h
      next hfits => exact ⟨j, hj, Number.inSigned_iff.mp hfits⟩
      · cases h
    · cases h
  · rintro ⟨i, hi, hfits⟩
    rw [hi]
    exact ⟨i, if_pos (Number.inSigned_iff.mpr hfits)⟩

theorem exists_itemText? : (∃ s, itemText? v = some s) ↔ v.IsWord := by
  cases v <;> simp [itemText?, Setting.IsWord]

theorem exists_mapM_itemText? {items : List Setting} :
    (∃ texts, items.mapM itemText? = some texts) ↔ ∀ item ∈ items, item.IsWord := by
  induction items with
  | nil => exact ⟨fun _ _ h => absurd h List.not_mem_nil, fun _ => ⟨[], rfl⟩⟩
  | cons item items ih =>
    rw [List.forall_mem_cons, ← ih, ← exists_itemText?]
    simp [List.mapM_cons, Option.bind_eq_some_iff]

theorem exists_demand {α : Type} {fault : OptionFault} {make : α → OptionValue}
    {found : Option α} :
    (∃ value : OptionValue, (show Except OptionFault OptionValue from match found with
      | some a => .ok (make a)
      | none => .error fault) = .ok value) ↔ ∃ a, found = some a := by
  cases found with
  | none => simp
  | some a => simp

theorem exists_filter_choices {choices : List String} {word : String} :
    (∃ s, (some word).filter choices.contains = some s) ↔ word ∈ choices := by
  by_cases h : word ∈ choices <;> simp [Option.filter, h]

/-- A setting is read for an option exactly if it is of the kind that the option demands. -/
theorem RuleOption.exists_read {spec : RuleOption} :
    (∃ value, spec.read v = .ok value) ↔ spec.kind.Admits v := by
  obtain ⟨name, kind⟩ := spec
  cases kind with
  | bool default =>
    refine exists_demand.trans ?_
    simp only [Setting.bool?_eq_some]
    exact Iff.rfl
  | int default => exact exists_demand.trans Setting.exists_int64?
  | text default =>
    refine exists_demand.trans ?_
    simp only [Setting.text?_eq_some]
    exact Iff.rfl
  | intOr keyword default =>
    show _ ↔ v.IsInt64 ∨ v = .text keyword
    cases v with
    | int i =>
      refine (exists_demand.trans Setting.exists_int64?).trans ⟨Or.inl, ?_⟩
      rintro (h | h)
      · exact h
      · cases h
    | text s => by_cases hs : s = keyword <;> simp [read, Setting.IsInt64, hs]
    | _ => simp [read, Setting.IsInt64]
  | oneOf choices default =>
    refine exists_demand.trans ?_
    show _ ↔ (∃ s ∈ choices, v = .text s) ∨ ∃ b, v = .bool b ∧ wordOfBool b ∈ choices
    cases v with
    | text s =>
      refine exists_filter_choices.trans ?_
      simp
    | bool b =>
      refine exists_filter_choices.trans ?_
      simp
    | _ => simp
  | list default =>
    show _ ↔ ∃ items, v.untagged = .list items ∧ ∀ item ∈ items, item.IsWord
    simp only [← Setting.items?_eq_some, ← exists_mapM_itemText?]
    unfold read
    dsimp only
    cases v.items? with
    | none => simp
    | some items =>
      refine exists_demand.trans ⟨fun h => ⟨items, rfl, h⟩, ?_⟩
      rintro ⟨_, ⟨⟩, h⟩
      exact h

end Readers

section Lists

variable {ε α β : Type} {xs : List α} {ys : List β}

theorem exists_of_mapM_ok {f : α → Except ε β} (h : xs.mapM f = .ok ys) :
    ∀ x ∈ xs, ∃ y, f x = .ok y := by
  induction xs generalizing ys with
  | nil => exact fun x hx => absurd hx List.not_mem_nil
  | cons x xs ih =>
    rw [List.mapM_cons] at h
    obtain ⟨y, hy, h⟩ := bind_eq_ok.mp h
    obtain ⟨zs, hzs, _⟩ := bind_eq_ok.mp h
    exact List.forall_mem_cons.mpr ⟨⟨y, hy⟩, ih hzs⟩

theorem exists_of_mapM_some {f : α → Option β} (h : xs.mapM f = some ys) :
    ∀ x ∈ xs, ∃ y ∈ ys, f x = some y := by
  induction xs generalizing ys with
  | nil => exact fun x hx => absurd hx List.not_mem_nil
  | cons x xs ih =>
    rw [List.mapM_cons] at h
    obtain ⟨y, hy, h⟩ := Option.bind_eq_some_iff.mp h
    obtain ⟨zs, hzs, h⟩ := Option.bind_eq_some_iff.mp h
    cases Option.some.inj h
    refine List.forall_mem_cons.mpr ⟨⟨y, List.mem_cons_self, hy⟩, fun w hw => ?_⟩
    obtain ⟨z, hz, hwz⟩ := ih hzs w hw
    exact ⟨z, List.mem_cons_of_mem y hz, hwz⟩

end Lists

namespace ConfigFields

open Setting (Entries)

/-- Rules that are read have distinct names, and so have the options of each of them. -/
def Orderly (rules : Entries) : Prop :=
  rules.Distinct ∧ ∀ k entries, (k, .mapping entries) ∈ rules → Entries.Distinct entries

theorem readMapping_unambiguous {target? : Nat → Option Draft} {d : Draft} {rules : Entries}
    {jumps left : Nat} (h : readMapping target? d jumps = some (rules, left)) :
    (Setting.mapping rules).Unambiguous := by
  obtain ⟨found, _, _, h⟩ := Draft.reading_bind_eq_some h
  split at h
  · exact Draft.readEntries_unambiguous (fun _ _ _ _ hread => Draft.setting_unambiguous hread) h
      Entries.unambiguous_nil
  · split at h
    · cases h
      exact Entries.unambiguous_nil
    · cases h

theorem readFields_unambiguous {target? : Nat → Option Draft} {drafts : List (Draft × Draft)}
    {known : List String} {f fields : ConfigFields} {jumps left : Nat}
    (h : readFields target? known f drafts jumps = some (fields, left))
    (hf : (Setting.mapping f.rules).Unambiguous) : (Setting.mapping fields.rules).Unambiguous := by
  induction drafts generalizing known f jumps with
  | nil =>
    cases h
    exact hf
  | cons pair drafts ih =>
    obtain ⟨key, _, _, h⟩ := Draft.reading_bind_eq_some h
    dsimp only at h
    split at h
    · cases h
    · split at h
      · obtain ⟨rules, _, hrules, h⟩ := Draft.reading_bind_eq_some h
        exact ih h (readMapping_unambiguous hrules)
      · split at h
        · obtain ⟨_, _, _, h⟩ := Draft.reading_bind_eq_some h
          exact ih h hf
        · split at h
          · obtain ⟨_, _, _, h⟩ := Draft.reading_bind_eq_some h
            exact ih h hf
          · cases h

theorem ofText?_unambiguous {text : String} {fields : ConfigFields}
    (h : ofText? text = some fields) : (Setting.mapping fields.rules).Unambiguous := by
  have hnone : (Setting.mapping ({} : ConfigFields).rules).Unambiguous := Entries.unambiguous_nil
  unfold ofText? at h
  split at h
  · cases h
    exact hnone
  · obtain ⟨document, _, h⟩ := Option.bind_eq_some_iff.mp h
    dsimp only at h
    split at h
    · cases h
      exact hnone
    · obtain ⟨⟨read, left⟩, hread, rfl⟩ := Option.map_eq_some_iff.mp h
      obtain ⟨found, _, _, hread⟩ := Draft.reading_bind_eq_some hread
      split at hread
      · exact readFields_unambiguous hread hnone
      · split at hread
        · cases hread
          exact hnone
        · cases hread

theorem ofText?_orderly {text : String} {fields : ConfigFields} (h : ofText? text = some fields) :
    Orderly fields.rules :=
  ⟨Entries.distinct_of_unambiguous (ofText?_unambiguous h), fun _ _ hmem =>
    Entries.distinct_of_unambiguous (Entries.value_unambiguous (ofText?_unambiguous h) hmem)⟩

end ConfigFields

namespace Config

open Setting (Entries)

section Entry

variable {r : Rule} {settings settings' : RuleSettings} {v : Setting}

theorem takes_level {level : Level} (h : readLevel v = .ok level) : r.Takes v levelKey := by
  unfold readLevel at h
  split at h
  · cases h
  next name hname =>
    split at h
    next found hfound =>
      unfold Level.ofName? at hfound
      split at hfound
      next hwarning =>
        subst hwarning
        exact .level .warning (Setting.text?_eq_some.mp hname)
      · split at hfound
        next herror =>
          subst herror
          exact .level .error (Setting.text?_eq_some.mp hname)
        · cases hfound
    · cases h

theorem exists_pattern {text : String} {g : Glob} (h : readPattern text = .ok g) :
    ∃ g, Glob.ofText text = .ok g := by
  unfold readPattern at h
  split at h
  next g hg => exact ⟨g, hg⟩
  · cases h

theorem takes_ignore {texts : List String} {globs : List Glob} (htexts : patternTexts v = .ok texts)
    (hglobs : texts.mapM readPattern = .ok globs) : r.Takes v ignoreKey := by
  have hall : ∀ text ∈ texts, ∃ g, Glob.ofText text = .ok g := by
    intro text htext
    obtain ⟨g, hg⟩ := exists_of_mapM_ok hglobs text htext
    exact exists_pattern hg
  refine .ignore ?_
  unfold patternTexts at htexts
  split at htexts
  next s =>
    cases htexts
    refine .inl ⟨s, rfl, fun line hline hblank => ?_⟩
    refine hall _ (List.mem_map_of_mem (List.mem_filter.mpr ⟨hline, ?_⟩))
    rw [hblank]
    rfl
  next items =>
    split at htexts
    next found hfound =>
      cases htexts
      refine .inr ⟨items, rfl, fun item hitem => ?_⟩
      obtain ⟨text, htext, hitem⟩ := exists_of_mapM_some hfound item hitem
      exact ⟨text, Setting.text?_eq_some.mp hitem, hall text htext⟩
    · cases htexts
  · cases htexts

theorem eq_ok_of_onOption {α : Type} {rule name : String} {e : Except OptionFault α} {a : α}
    (h : onOption rule name e = .ok a) : e = .ok a := by
  cases e with
  | ok b =>
    cases h
    rfl
  | error fault => cases h

/-- What a field that is taken over makes of a configuration. -/
inductive Applies (r : Rule) (c : RuleSettings) (v : Setting) : String → RuleSettings → Prop
  | enabled : Applies r c v enabledKey c
  | level (level : Level) (h : readLevel v = .ok level) : Applies r c v levelKey { c with level }
  | ignore (texts : List String) (globs : List Glob) (htexts : patternTexts v = .ok texts)
      (hglobs : texts.mapM readPattern = .ok globs) :
      Applies r c v ignoreKey { c with ignore := globs }
  | option (spec : RuleOption) (hspec : spec ∈ r.options)
      (hname : spec.name ∉ [enabledKey, levelKey, ignoreKey]) (value : OptionValue)
      (h : spec.read v = .ok value) : Applies r c v spec.name (c.set spec.name value)

theorem applies_of_applyField {key : String} (h : applyField r settings key v = .ok settings') :
    Applies r settings v key settings' := by
  unfold applyField at h
  split at h
  next henabled =>
    cases h
    subst henabled
    exact .enabled
  next henabled =>
    split at h
    next hlevel =>
      subst hlevel
      obtain ⟨level, hread, h⟩ := bind_eq_ok.mp h
      cases h
      exact .level level (eq_ok_of_onOption hread)
    next hlevel =>
      split at h
      next hignore =>
        subst hignore
        obtain ⟨texts, htexts, h⟩ := bind_eq_ok.mp h
        obtain ⟨globs, hglobs, h⟩ := bind_eq_ok.mp h
        cases h
        exact .ignore texts globs (eq_ok_of_onOption htexts) hglobs
      next hignore =>
        split at h
        next spec hfind =>
          obtain ⟨value, hvalue, h⟩ := bind_eq_ok.mp h
          cases h
          obtain rfl : spec.name = key := by simpa using List.find?_some hfind
          refine .option spec (List.mem_of_find?_eq_some hfind) ?_ value (eq_ok_of_onOption hvalue)
          simp [henabled, hlevel, hignore]
        · cases h

/-- A field that is taken over has a known key and a value of the kind that it demands. -/
theorem takes_of_applyField {key : String} (h : applyField r settings key v = .ok settings') :
    r.Takes v key := by
  cases applies_of_applyField h with
  | enabled => exact .enabled
  | level level hlevel => exact takes_level hlevel
  | ignore texts globs htexts hglobs => exact takes_ignore htexts hglobs
  | option spec hspec _ value hvalue =>
    exact .option spec hspec (RuleOption.exists_read.mp ⟨value, hvalue⟩)

theorem takes_of_applyFields {entries : Entries} (h : applyFields r settings entries = .ok settings')
    {key value : Setting} (hmem : (key, value) ∈ entries) : r.Takes value (key.text?.getD "") := by
  induction entries generalizing settings with
  | nil => cases hmem
  | cons entry entries ih =>
    obtain ⟨next, hfirst, hrest⟩ := bind_eq_ok.mp h
    rcases List.mem_cons.mp hmem with rfl | hmem
    · exact takes_of_applyField hfirst
    · exact ih hrest hmem

end Entry

/-- What the default entries of a rule look like. -/
structure Flat (entries : Entries) : Prop where
  single : entries.SingleTexts
  texts : ∀ k v, (k, v) ∈ entries → ∃ s, k = .text s
  values : ∀ k v, (k, v) ∈ entries → ∀ below, v ≠ .mapping below

theorem defaultEntry_flat (r : Rule) : ∃ entries, defaultEntry r = .mapping entries ∧
    Flat entries := by
  have hfold (options : List RuleOption) {entries : Entries} (h : Flat entries) :
      Flat (options.foldl
        (fun entries spec => Entries.insert (.text spec.name) spec.default.setting entries)
        entries) := by
    induction options generalizing entries with
    | nil => exact h
    | cons spec options ih =>
      refine ih ⟨Entries.singleTexts_insert h.single _ _, fun k v hmem => ?_, fun k v hmem => ?_⟩
      · rcases Entries.key_of_mem_insert hmem with hkey | ⟨w, hw⟩
        · exact ⟨_, hkey⟩
        · exact h.texts k w hw
      · rcases Entries.value_of_mem_insert hmem with hvalue | hmem
        · rw [hvalue]
          cases spec.default <;> simp [OptionValue.setting]
        · exact h.values k v hmem
  refine ⟨_, rfl, hfold r.options ⟨?_, fun k v hmem => ?_, fun k v hmem => ?_⟩⟩
  · refine List.pairwise_pair.mpr ?_
    rintro s hs heq
    rw [← hs, Setting.text.injEq] at heq
    exact absurd heq (by decide)
  · rcases List.mem_cons.mp hmem with heq | hmem
    · cases heq
      exact ⟨_, rfl⟩
    · cases List.mem_singleton.mp hmem
      exact ⟨_, rfl⟩
  · rcases List.mem_cons.mp hmem with heq | hmem
    · cases heq
      simp
    · cases List.mem_singleton.mp hmem
      simp

theorem get?_defaultEntries {g : Registry} {name : String} {r : Rule} (h : g.get? name = some r) :
    Entries.get? (defaultEntries g) (.text name) = some (defaultEntry r) := by
  obtain ⟨rules⟩ := g
  change rules.find? (·.name == name) = some r at h
  show (List.find? _ (rules.map _)).map _ = _
  have hsame : (fun entry : Setting × Setting => (Setting.text name).same entry.1) ∘
      (fun r : Rule => (Setting.text r.name, defaultEntry r)) = (·.name == name) := by
    funext r
    exact Bool.eq_iff_iff.mpr (by simp [Setting.text_same])
  rw [List.find?_map, hsame, h]
  rfl

/-- The entry of a rule as it is kept. -/
theorem readEntry_mapping {rule : String} {entries : Entries} {entry : Setting}
    (h : readEntry rule (.mapping entries) = .ok entry) (hdistinct : entries.Distinct) :
    ∃ kept : Entries, entry = .mapping kept ∧ kept.Distinct ∧ (∀ x ∈ entries, x ∈ kept) ∧
      ∃ b, (.text enabledKey, b) ∈ kept ∧ ((.text enabledKey, b) ∈ entries ∨ b = .bool true) := by
  cases h
  refine ⟨_, rfl, ?_⟩
  split
  next hsome =>
    obtain ⟨b, hb⟩ := Option.isSome_iff_exists.mp hsome
    have hmem := Entries.get?_eq_some hb
    exact ⟨hdistinct, fun _ hx => hx, b, hmem, .inl hmem⟩
  next hnone =>
    refine ⟨?_, fun x hx => List.mem_append_left _ hx, .bool true,
      List.mem_append_right _ (List.mem_singleton.mpr rfl), .inr rfl⟩
    refine List.pairwise_append.mpr ⟨hdistinct, List.pairwise_singleton _ _, fun a ha b hb => ?_⟩
    rw [List.mem_singleton.mp hb, ← Bool.not_eq_true]
    intro hsame
    refine hnone ?_
    rw [Entries.get?, Option.isSome_map, List.find?_isSome]
    exact ⟨a, ha, hsame⟩

theorem readEntry_isMapping {rule : String} {v entry : Setting} (h : readEntry rule v = .ok entry) :
    entry.isNull = false := by
  unfold readEntry at h
  dsimp only at h
  split at h
  · split at h
    · cases h
      rfl
    · split at h
      · cases h
        rfl
      · cases h
  · cases h
    rfl
  · cases h

theorem readRules_entries {entries rules : Entries} (h : readRules entries = .ok rules) :
    rules.map (·.1) = entries.map (·.1) ∧ (∀ x ∈ rules, x.2.isNull = false) ∧
      ∀ k v, (k, v) ∈ entries → ∃ name entry, k.text? = some name ∧ readEntry name v = .ok entry ∧
        (k, entry) ∈ rules := by
  induction entries generalizing rules with
  | nil =>
    cases h
    exact ⟨rfl, fun _ hx => absurd hx List.not_mem_nil, fun _ _ hx => absurd hx List.not_mem_nil⟩
  | cons x entries ih =>
    obtain ⟨k, v⟩ := x
    rw [readRules] at h
    split at h
    · cases h
    next name hname =>
      obtain ⟨entry, hentry, h⟩ := bind_eq_ok.mp h
      obtain ⟨later, hlater, h⟩ := bind_eq_ok.mp h
      cases h
      obtain ⟨hkeys, hvalues, hread⟩ := ih hlater
      refine ⟨congrArg (k :: ·) hkeys, ?_, ?_⟩
      · exact List.forall_mem_cons.mpr ⟨readEntry_isMapping hentry, hvalues⟩
      · intro k' v' hmem
        rcases List.mem_cons.mp hmem with heq | hmem
        · cases heq
          exact ⟨name, entry, hname, hentry, List.mem_cons_self⟩
        · obtain ⟨name', entry', hname', hentry', hmem'⟩ := hread k' v' hmem
          exact ⟨name', entry', hname', hentry', List.mem_cons_of_mem _ hmem'⟩

theorem resolveRule_of_resolveRules {merged : Setting} {rules : List Rule}
    {confs : List (String × RuleSettings)} (h : resolveRules merged rules = .ok confs) :
    ∀ r ∈ rules, ∃ conf, resolveRule merged r = .ok conf := by
  induction rules generalizing confs with
  | nil => exact fun r hr => absurd hr List.not_mem_nil
  | cons r rules ih =>
    obtain ⟨conf, hconf, h⟩ := bind_eq_ok.mp h
    obtain ⟨later, hlater, _⟩ := bind_eq_ok.mp h
    exact List.forall_mem_cons.mpr ⟨⟨conf, hconf⟩, ih hlater⟩

theorem exists_get?_of_resolve {c : Config} {g : Registry} {confs : List (String × RuleSettings)}
    (h : c.resolve g = .ok confs) {k v : Setting} {name : String} (hmem : (k, v) ∈ c.rules)
    (hname : k.text? = some name) : ∃ r, g.get? name = some r := by
  unfold resolve at h
  split at h
  · cases h
  next hnone =>
    have hmember : name ∈ c.ruleNames :=
      List.mem_map.mpr ⟨(k, v), hmem, by show k.text?.getD "" = name; rw [hname]; rfl⟩
    have hknown := List.find?_eq_none.mp hnone name hmember
    cases hget : g.get? name with
    | none =>
      rw [hget] at hknown
      exact absurd rfl hknown
    | some r => exact ⟨r, rfl⟩

/-- If the entry of a rule does not disable it, everything in it but the nulls is checked. -/
theorem takes_of_resolve {c : Config} {g : Registry} {confs : List (String × RuleSettings)}
    (h : c.resolve g = .ok confs) (hdistinct : Entries.Distinct c.rules)
    (hnull : ∀ x ∈ c.rules, x.2.isNull = false) {name : String} {r : Rule}
    (hr : g.get? name = some r) {kept : Entries} (hkept : kept.Distinct)
    (hmem : (.text name, .mapping kept) ∈ c.rules) {b : Setting}
    (hb : (.text enabledKey, b) ∈ kept) (henabled : b.untagged ≠ .bool false) {key value : Setting}
    (hkey : (key, value) ∈ kept) (hvalue : value.isNull = false) :
    r.Takes value (key.text?.getD "") := by
  obtain ⟨entries, hentries, hflat⟩ := defaultEntry_flat r
  have hvalues : ∀ x ∈ entries, ∀ below, x.2 ≠ .mapping below := fun x hx => hflat.values x.1 x.2 hx
  have hname : r.name = name := by simpa using List.find?_some hr
  unfold resolve at h
  split at h
  · cases h
  obtain ⟨conf, hconf⟩ := resolveRule_of_resolveRules h r (List.mem_of_find?_eq_some hr)
  have hmerged : (Setting.merge (.mapping (defaultEntries g)) (.mapping c.rules)).get? r.name =
      some (.mapping (Setting.mergeEntries entries entries kept)) := by
    show Entries.get? (Setting.mergeEntries _ _ c.rules) _ = _
    rw [hname, Setting.get?_mergeEntries hnull hdistinct hmem, get?_defaultEntries hr, hentries]
    rfl
  have hstays : isEnabled (Setting.mergeEntries entries entries kept) = true := by
    unfold isEnabled
    cases hfound : Entries.get? (Setting.mergeEntries entries entries kept) (.text enabledKey) with
    | none => rfl
    | some b' =>
      have hsame : b' = b := Setting.text_mem_mergeEntries hvalues hflat.single hkept hb
        (Entries.get?_eq_some hfound)
      rw [hsame]
      show b.bool?.getD true = true
      cases hbool : b.bool? with
      | none => rfl
      | some t =>
        cases t with
        | true => rfl
        | false => exact absurd (Setting.bool?_eq_some.mp hbool) henabled
  unfold resolveRule at hconf
  rw [hmerged] at hconf
  change (if isEnabled _ then _ else _) = _ at hconf
  rw [if_pos hstays] at hconf
  have hall : ∃ settings, applyFields r r.defaults (Setting.mergeEntries entries entries kept) =
      .ok settings := by
    cases happly : applyFields r r.defaults (Setting.mergeEntries entries entries kept) with
    | ok settings => exact ⟨settings, rfl⟩
    | error e =>
      rw [happly] at hconf
      cases hconf
  obtain ⟨settings, hsettings⟩ := hall
  refine takes_of_applyFields hsettings (Setting.mem_mergeEntries hvalues hkept ?_ hkey hvalue)
  intro x _ y hy hsame
  obtain ⟨s, hs⟩ := hflat.texts y.1 y.2 hy
  rw [hs] at hsame ⊢
  exact (Setting.same_text.mp hsame).symm

/-- A configuration that is taken over with a registry names only rules of the registry. In the
entry of a rule that it does not disable, each key with a value other than null is one that the
rule knows, and the value is of the kind that the key demands; a key that is no text counts as the
empty one. -/
theorem resolve_checks_entries {text : String} {c : Config} {g : Registry}
    {confs : List (String × RuleSettings)} (hc : ofText text = .ok c)
    (hconfs : c.resolve g = .ok confs) :
    ∃ fields, ConfigFields.ofText? text = some fields ∧
      ∀ k v, (k, v) ∈ fields.rules → ∃ name r, k.text? = some name ∧ g.get? name = some r ∧
        ∀ entries, k = .text name → v = .mapping entries →
          (∀ b, (.text enabledKey, b) ∈ entries → b.untagged ≠ .bool false) →
          ∀ key value, (key, value) ∈ entries → value.isNull = false →
            r.Takes value (key.text?.getD "") := by
  unfold ofText at hc
  split at hc
  · cases hc
  next fields hfields =>
    refine ⟨fields, hfields, fun k v hmem => ?_⟩
    obtain ⟨hdistinct, hinner⟩ := ConfigFields.ofText?_orderly hfields
    split at hc
    · cases hc
    obtain ⟨ignore, _, hc⟩ := bind_eq_ok.mp hc
    obtain ⟨rules, hrules, hc⟩ := bind_eq_ok.mp hc
    cases hc
    obtain ⟨hkeys, hnull, hread⟩ := readRules_entries hrules
    obtain ⟨name, entry, hname, hentry, hkept⟩ := hread k v hmem
    obtain ⟨r, hr⟩ := exists_get?_of_resolve hconfs hkept hname
    refine ⟨name, r, hname, hr, ?_⟩
    rintro entries rfl rfl hstays key value hkey hvalue
    obtain ⟨kept, rfl, hdistinctKept, hsub, b, hb, hsource⟩ :=
      readEntry_mapping hentry (hinner _ _ hmem)
    have henabled : b.untagged ≠ .bool false := by
      rcases hsource with hsource | rfl
      · exact hstays b hsource
      · simp [Setting.untagged]
    exact takes_of_resolve hconfs (hdistinct.of_keys hkeys) hnull hr hdistinctKept hkept hb henabled
      (hsub _ hkey) hvalue

/-- Whether a text is taken over with the rules that are built in. -/
theorem exists_resolve_builtin {text : String}
    (h : ((ofText text).toOption.any fun c => (c.resolve Registry.builtin).toOption.isSome) = true) :
    ∃ c confs, ofText text = .ok c ∧ c.resolve Registry.builtin = .ok confs := by
  cases hc : ofText text with
  | error e =>
    rw [hc] at h
    cases h
  | ok c =>
    rw [hc] at h
    cases hconfs : c.resolve Registry.builtin with
    | error e => simp [Except.toOption, hconfs] at h
    | ok confs => exact ⟨c, confs, rfl, hconfs⟩

/-- An entry with a level, an option and a null. -/
theorem resolve_checks_entries_of_options :
    let text := "rules:\n  line-length:\n    level: error\n    max: 80\n    ignore: ~\n"
    ∃ fields c confs entries, ConfigFields.ofText? text = some fields ∧ ofText text = .ok c ∧
      c.resolve Registry.builtin = .ok confs ∧
      (.text "line-length", .mapping entries) ∈ fields.rules ∧
      (.text "max", .int 80) ∈ entries ∧ Rules.lineLength.Takes (.int 80) "max" := by
  intro text
  let expected : Entries :=
    [(.text "level", .text "error"), (.text "max", .int 80), (.text "ignore", .null)]
  have hfields : ((ConfigFields.ofText? text).any fun fields =>
      (fields.rules.get? (.text "line-length")).any fun v =>
        v.same (.mapping expected) && (Setting.mapping expected).same v) = true := by decide +kernel
  obtain ⟨c, confs, hc, hconfs⟩ : ∃ c confs, ofText text = .ok c ∧
      c.resolve Registry.builtin = .ok confs := exists_resolve_builtin (by decide +kernel)
  obtain ⟨fields, hsome, hchecked⟩ := resolve_checks_entries hc hconfs
  rw [hsome] at hfields
  obtain ⟨_, ⟨⟩, hentry⟩ := (Option.any_eq_true _ _).mp hfields
  obtain ⟨v, hv, hsame⟩ := (Option.any_eq_true _ _).mp hentry
  obtain ⟨hback, hsame⟩ := Bool.and_eq_true_iff.mp hsame
  obtain ⟨entries, rfl, hholds⟩ := Setting.exists_of_mapping_same hsame
  obtain ⟨_, ⟨⟩, hknown⟩ := Setting.exists_of_mapping_same hback
  have hmem := Setting.Entries.get?_eq_some hv
  have hmax : (.text "max", .int 80) ∈ entries := by
    obtain ⟨⟨k, x⟩, he, hkey, hvalue⟩ :=
      hholds (.text "max", .int 80) (List.mem_cons_of_mem _ List.mem_cons_self)
    obtain rfl : k = .text "max" := Setting.text_same.mp hkey
    obtain rfl : x = .int 80 := Setting.int_same.mp hvalue
    exact he
  obtain ⟨name, r, hname, hr, htakes⟩ := hchecked _ _ hmem
  cases hname
  cases hr
  refine ⟨fields, c, confs, entries, hsome, hc, hconfs, hmem, hmax, ?_⟩
  refine htakes _ rfl rfl (fun b hb => ?_) _ _ hmax rfl
  obtain ⟨e, he, hkey, _⟩ := hknown _ hb
  simp only [expected, List.mem_cons, List.not_mem_nil, or_false] at he
  rcases he with rfl | rfl | rfl <;> exact absurd (Setting.text_same.mp hkey) (by simp [enabledKey])

/-- A null takes its key out of the entry, whatever the key demands. -/
theorem resolve_passes_null :
    let text := "rules:\n  line-length:\n    max: ~\n"
    ∃ fields c confs entries, ConfigFields.ofText? text = some fields ∧ ofText text = .ok c ∧
      c.resolve Registry.builtin = .ok confs ∧
      (.text "line-length", .mapping entries) ∈ fields.rules ∧ (.text "max", .null) ∈ entries ∧
      Registry.builtin.get? "line-length" = some Rules.lineLength ∧
      ¬Rules.lineLength.Takes .null "max" := by
  intro text
  have hfields : ((ConfigFields.ofText? text).any fun fields =>
      (fields.rules.get? (.text "line-length")).any fun v =>
        (Setting.mapping [(.text "max", .null)]).same v) = true := by decide +kernel
  obtain ⟨fields, hsome, hentry⟩ := (Option.any_eq_true _ _).mp hfields
  obtain ⟨v, hv, hsame⟩ := (Option.any_eq_true _ _).mp hentry
  obtain ⟨entries, rfl, hholds⟩ := Setting.exists_of_mapping_same hsame
  obtain ⟨⟨k, x⟩, he, hkey, hvalue⟩ := hholds _ List.mem_cons_self
  obtain rfl : k = .text "max" := Setting.text_same.mp hkey
  obtain rfl : x = .null := Setting.null_same.mp hvalue
  obtain ⟨c, confs, hc, hconfs⟩ : ∃ c confs, ofText text = .ok c ∧
      c.resolve Registry.builtin = .ok confs := exists_resolve_builtin (by decide +kernel)
  refine ⟨fields, c, confs, entries, hsome, hc, hconfs, Setting.Entries.get?_eq_some hv, he, rfl,
    ?_⟩
  intro h
  generalize hkey : "max" = key at h
  cases h with
  | enabled => exact absurd hkey (by decide)
  | level => exact absurd hkey (by decide)
  | ignore => exact absurd hkey (by decide)
  | option spec hspec h =>
    simp only [Rules.lineLength, List.mem_cons, List.not_mem_nil, or_false] at hspec
    rcases hspec with rfl | rfl | rfl
    · obtain ⟨i, hi, _⟩ := h
      cases hi
    · exact absurd hkey (by decide)
    · exact absurd hkey (by decide)

end Config

end Blueprint
