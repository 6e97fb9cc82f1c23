import Blueprint.Proofs.OptionValues
import Blueprint.Proofs.SettingLayers

/-!
What a configuration makes of the rules of a registry: a rule that it does not name keeps its
defaults, and in the entry of a rule each value other than null decides on its own field.
-/

namespace Blueprint.Config

open Setting (Entries)

section Lists

variable {β : Type}

theorem lookup_of_mem {xs : List (String × β)} (h : (xs.map (·.1)).Nodup) {name : String} {v : β}
    (hmem : (name, v) ∈ xs) : xs.lookup name = some v := by
  induction xs with
  | nil => cases hmem
  | cons x xs ih =>
    obtain ⟨n, w⟩ := x
    obtain ⟨hfirst, hrest⟩ := List.nodup_cons.mp h
    rcases List.mem_cons.mp hmem with heq | hmem
    · cases heq
      exact List.lookup_cons_self
    · have hother : name ≠ n := fun hsame => hfirst (List.mem_map.mpr ⟨_, hmem, hsame⟩)
      rw [List.lookup_cons, beq_eq_false_iff_ne.mpr hother]
      exact ih hrest hmem

/-- Lists with the same distinct names are equal if the same value stands under each name. -/
theorem eq_of_lookup {xs ys : List (String × β)} (hnames : xs.map (·.1) = ys.map (·.1))
    (hdistinct : (ys.map (·.1)).Nodup) (h : ∀ y ∈ ys, xs.lookup y.1 = some y.2) : xs = ys := by
  induction ys generalizing xs with
  | nil => exact List.map_eq_nil_iff.mp hnames
  | cons y ys ih =>
    cases xs with
    | nil => cases hnames
    | cons x xs =>
      obtain ⟨n, v⟩ := x
      obtain ⟨n', w⟩ := y
      obtain ⟨hname, hrestnames⟩ := List.cons.inj hnames
      obtain rfl : n = n' := hname
      obtain ⟨hfirst, hrest⟩ := List.nodup_cons.mp hdistinct
      obtain ⟨hy, hys⟩ := List.forall_mem_cons.mp h
      rw [List.lookup_cons_self] at hy
      have hlater : xs = ys := by
        refine ih hrestnames hrest fun z hz => ?_
        have hother : z.1 ≠ n := fun hsame => hfirst (List.mem_map.mpr ⟨z, hz, hsame⟩)
        have hfound := hys z hz
        rwa [List.lookup_cons, beq_eq_false_iff_ne.mpr hother] at hfound
      rw [Option.some.inj hy, hlater]

end Lists

section Defaults

variable {r : Rule}

/-- The fields of the default entry of a rule. -/
def defaultFields (r : Rule) : Entries :=
  (defaultEntry r).ownEntries

theorem defaultEntry_eq (r : Rule) : defaultEntry r = .mapping (defaultFields r) := rfl

theorem OptionValue.setting_unambiguous (value : OptionValue) : value.setting.Unambiguous := by
  cases value with
  | bool b => exact .bool b
  | int i => exact .int i
  | text s => exact .text s
  | list items =>
    refine .list fun v hv => ?_
    obtain ⟨s, _, rfl⟩ := List.mem_map.mp hv
    exact .text s

/-- The first fields of a default entry, in front of those of the options. -/
def leadingFields (r : Rule) : Entries :=
  [(.text enabledKey, .bool r.enabled), (.text levelKey, .text r.level.name)]

def addDefault (entries : Entries) (spec : RuleOption) : Entries :=
  entries.insert (.text spec.name) spec.default.setting

theorem defaultFields_eq (r : Rule) :
    defaultFields r = r.options.foldl addDefault (leadingFields r) := rfl

theorem get?_foldl_addDefault {options : List RuleOption} {s : String}
    (h : ∀ spec ∈ options, spec.name ≠ s) (entries : Entries) :
    (options.foldl addDefault entries).get? (.text s) = entries.get? (.text s) := by
  induction options generalizing entries with
  | nil => rfl
  | cons spec options ih =>
    obtain ⟨hname, h⟩ := List.forall_mem_cons.mp h
    rw [List.foldl_cons, ih h]
    exact Entries.get?_insert_of_ne (fun heq => hname (Setting.text.inj heq)) _ _

theorem get?_foldl_addDefault_of_mem {options : List RuleOption}
    (hdistinct : (options.map (·.name)).Nodup) {spec : RuleOption} (hspec : spec ∈ options)
    (entries : Entries) :
    (options.foldl addDefault entries).get? (.text spec.name) = some spec.default.setting := by
  induction options generalizing entries with
  | nil => cases hspec
  | cons first options ih =>
    obtain ⟨hfirst, hrest⟩ := List.nodup_cons.mp hdistinct
    rw [List.foldl_cons]
    rcases List.mem_cons.mp hspec with rfl | hspec
    · rw [get?_foldl_addDefault fun other hother hsame =>
        hfirst (List.mem_map.mpr ⟨other, hother, hsame⟩)]
      exact Entries.get?_insert_self _ _ _
    · exact ih hrest hspec _

theorem defaultFields_unambiguous (r : Rule) : (Setting.mapping (defaultFields r)).Unambiguous := by
  have hfold (options : List RuleOption) (entries : Entries)
      (h : (Setting.mapping entries).Unambiguous) :
      (Setting.mapping (options.foldl addDefault entries)).Unambiguous := by
    induction options generalizing entries with
    | nil => exact h
    | cons spec options ih =>
      exact ih _ (Entries.unambiguous_insert h (.text _) (OptionValue.setting_unambiguous _))
  refine hfold _ _ (Entries.unambiguous_cons.mpr ⟨.text _, .bool _, ?_, Entries.unambiguous_cons.mpr
    ⟨.text _, .text _, fun _ h => absurd h List.not_mem_nil, Entries.unambiguous_nil⟩⟩)
  intro entry hentry
  rw [List.mem_singleton.mp hentry]
  rfl

/-- No option stands under a key that means something else. -/
theorem get?_defaultFields_reserved (hr : r.Declares) {key : String}
    (hkey : key ∈ ["", enabledKey, levelKey, ignoreKey]) :
    (defaultFields r).get? (.text key) = (leadingFields r).get? (.text key) := by
  rw [defaultFields_eq]
  exact get?_foldl_addDefault (fun spec hspec hsame => hr.names spec hspec (hsame ▸ hkey)) _

theorem get?_defaultFields_option (hr : r.Declares) {spec : RuleOption} (hspec : spec ∈ r.options) :
    (defaultFields r).get? (.text spec.name) = some spec.default.setting := by
  rw [defaultFields_eq]
  exact get?_foldl_addDefault_of_mem hr.distinct hspec _

theorem get?_defaults (hr : r.Declares) {spec : RuleOption} (hspec : spec ∈ r.options) :
    r.defaults.get? spec.name = some spec.default :=
  lookup_of_mem (by simpa [Rule.defaults, Function.comp_def] using hr.distinct)
    (List.mem_map_of_mem hspec)

theorem defaultEntries_unambiguous {g : Registry} (hnames : (g.rules.map (·.name)).Nodup) :
    (Setting.mapping (defaultEntries g)).Unambiguous := by
  refine .mapping ?_ (fun entry hentry => ?_) fun entry hentry => ?_
  · refine List.pairwise_map.mpr ((List.pairwise_map.mp hnames).imp fun {a b} hne => ?_)
    rw [← Bool.not_eq_true, Setting.text_same]
    exact fun hsame => hne (Setting.text.inj hsame)
  all_goals
    obtain ⟨r, _, rfl⟩ := List.mem_map.mp hentry
  · exact .text r.name
  · exact defaultFields_unambiguous r

end Defaults

section Given

/-- What an entry gives under a key: a null gives nothing. -/
def given? (entries : Entries) (key : String) : Option Setting :=
  (entries.get? (.text key)).filter (!·.isNull)

/-- Whether the entry of a rule switches it off: by a word or with a boolean. -/
def switchesOff (v : Setting) : Bool :=
  match v with
  | .text s => s == "disable"
  | v => (v.ownEntries.get? (.text enabledKey)).bind Setting.bool? == some false

/-- A configuration that takes what the entry of a rule gives, each value in the way in which its
field is read, and the default of the rule where the entry gives nothing. -/
structure Follows (r : Rule) (entries : Entries) (conf : RuleSettings) : Prop where
  level : match given? entries levelKey with
    | none => conf.level = r.level
    | some v => readLevel v = .ok conf.level
  ignore : match given? entries ignoreKey with
    | none => conf.ignore = []
    | some v => ∃ texts, patternTexts v = .ok texts ∧ texts.mapM readPattern = .ok conf.ignore
  names : conf.options.map (·.1) = r.options.map (·.name)
  options : ∀ spec ∈ r.options, ∃ value, conf.get? spec.name = some value ∧ spec.kind.Holds value ∧
    match given? entries spec.name with
    | none => value = spec.default
    | some v => spec.read v = .ok value

variable {r : Rule} {entries merged : Entries} {conf : RuleSettings}

theorem Follows.eq_defaults (hr : r.Declares) (h : Follows r [] conf) : conf = r.defaults := by
  have hoptions : conf.options = r.defaults.options := by
    refine eq_of_lookup ?_ ?_ fun option hoption => ?_
    · rw [h.names]
      simp [Rule.defaults]
    · simpa [Rule.defaults, Function.comp_def] using hr.distinct
    · obtain ⟨spec, hspec, rfl⟩ := List.mem_map.mp hoption
      obtain ⟨value, hvalue, _, hdefault⟩ := h.options spec hspec
      exact hvalue.trans (congrArg some hdefault)
  obtain ⟨level, ignore, options⟩ := conf
  obtain rfl : level = r.level := h.level
  obtain rfl : ignore = [] := h.ignore
  obtain rfl : options = r.defaults.options := hoptions
  rfl

/-- The fields of the defaults with those that an entry gives over them, other than the field that
switches the rule. -/
def Overlays (r : Rule) (entries merged : Entries) : Prop :=
  ∀ key, key ≠ enabledKey → merged.get? (.text key) =
    match entries.get? (.text key) with
    | none => (defaultFields r).get? (.text key)
    | some v => if v.isNull then none else some v

/-- What an entry gives is read; otherwise the default is left, or read from its own setting. -/
theorem Decides.of_overlays {key : String} {α : Type} {part : RuleSettings → α}
    {Reads : Setting → α → Prop} (h : Decides r key part Reads)
    (hkey : key ≠ "" ∧ key ≠ enabledKey) (hmerged : Overlays r entries merged)
    (hplain : Plain merged) (hdistinct : merged.Distinct)
    (happly : Config.applyFields r r.defaults merged = .ok conf) :
    match given? entries key with
    | none => part conf = part r.defaults ∨
        ∃ v, (defaultFields r).get? (.text key) = some v ∧ Reads v (part conf)
    | some v => Reads v (part conf) := by
  have hpart := h.applyFields hkey.1 hplain hdistinct happly
  rw [hmerged key hkey.2] at hpart
  unfold given?
  cases hget : entries.get? (.text key) with
  | none =>
    rw [hget] at hpart
    dsimp only [Option.filter_none] at hpart ⊢
    cases hdefault : (defaultFields r).get? (.text key) with
    | none =>
      rw [hdefault] at hpart
      exact .inl hpart
    | some v =>
      rw [hdefault] at hpart
      exact .inr ⟨v, rfl, hpart⟩
  | some v =>
    rw [hget] at hpart
    rw [Option.filter_some]
    dsimp only at hpart
    cases hnull : v.isNull with
    | true =>
      rw [hnull, if_pos rfl] at hpart
      exact .inl hpart
    | false =>
      rw [hnull, if_neg Bool.false_ne_true] at hpart
      exact hpart

theorem follows_of_applyFields (hr : r.Declares) (hmerged : Overlays r entries merged)
    (hplain : Plain merged) (hdistinct : merged.Distinct)
    (h : applyFields r r.defaults merged = .ok conf) : Follows r entries conf := by
  constructor
  · have hlevel := (decides_level r).of_overlays (by decide) hmerged hplain hdistinct h
    rw [get?_defaultFields_reserved hr (by decide)] at hlevel
    cases hgiven : given? entries levelKey with
    | some v =>
      rw [hgiven] at hlevel
      exact hlevel
    | none =>
      rw [hgiven] at hlevel
      rcases hlevel with hkept | ⟨v, hv, hread⟩
      · exact hkept
      · cases hv
        exact eq_of_readLevel_name hread
  · have hignore := (decides_ignore r).of_overlays (by decide) hmerged hplain hdistinct h
    rw [get?_defaultFields_reserved hr (by decide)] at hignore
    cases hgiven : given? entries ignoreKey with
    | some v =>
      rw [hgiven] at hignore
      exact hignore
    | none =>
      rw [hgiven] at hignore
      rcases hignore with hkept | ⟨v, hv, _⟩
      · exact hkept
      · cases hv
  · exact names_of_applyFields h (by simp [Rule.defaults])
  · intro spec hspec
    have hkey : spec.name ≠ "" ∧ spec.name ≠ enabledKey := by
      have hname := hr.names spec hspec
      simp only [List.mem_cons, not_or] at hname
      exact ⟨hname.1, hname.2.1⟩
    have hoption := (decides_option hr hspec).of_overlays hkey hmerged hplain hdistinct h
    rw [get?_defaultFields_option hr hspec, get?_defaults hr hspec] at hoption
    cases hgiven : given? entries spec.name with
    | some v =>
      rw [hgiven] at hoption
      obtain ⟨value, hread, hvalue⟩ := hoption
      exact ⟨value, hvalue, RuleOption.holds_of_read hread, hread⟩
    | none =>
      rw [hgiven] at hoption
      rcases hoption with hkept | ⟨_, ⟨⟩, value, hread, hvalue⟩
      · obtain ⟨value, hread⟩ := hr.defaults spec hspec
        have hholds := RuleOption.holds_of_read hread
        rw [RuleOption.eq_default_of_read hread] at hholds
        exact ⟨spec.default, hkept, hholds, rfl⟩
      · exact ⟨value, hvalue, RuleOption.holds_of_read hread, RuleOption.eq_default_of_read hread⟩

end Given

section Entry

variable {rule : String} {v entry : Setting}

/-- What a normalised entry is made of: the fields of the entry, and one that switches the rule. -/
structure Keeps (v : Setting) (kept : Entries) : Prop where
  fields : ∀ key, key ≠ enabledKey → kept.get? (.text key) = v.ownEntries.get? (.text key)
  switch : ∃ b, kept.get? (.text enabledKey) = some b ∧
    (b.bool? = some false ↔ switchesOff v = true)
  unambiguous : v.Unambiguous → (Setting.mapping kept).Unambiguous
  plain : Plain v.ownEntries → Plain kept

theorem keeps_withSwitch
    (hoff : switchesOff v =
      ((v.ownEntries.get? (.text enabledKey)).bind Setting.bool? == some false))
    (hunamb : v.Unambiguous → (Setting.mapping v.ownEntries).Unambiguous) :
    Keeps v (if (v.ownEntries.get? (.text enabledKey)).isSome then v.ownEntries
      else v.ownEntries ++ [(.text enabledKey, .bool true)]) := by
  cases hget : v.ownEntries.get? (.text enabledKey) with
  | some b =>
    rw [hget] at hoff
    refine ⟨fun _ _ => rfl, ⟨b, hget, ?_⟩, hunamb, id⟩
    rw [hoff]
    exact beq_iff_eq.symm
  | none =>
    rw [hget] at hoff
    have hadded := Entries.insert_eq_append (Entries.get?_eq_none.mp hget) (.bool true)
    rw [Option.isSome_none, if_neg Bool.false_ne_true, ← hadded]
    refine ⟨fun key hkey => ?_, ⟨.bool true, Entries.get?_insert_self _ _ _, ?_⟩, fun hv => ?_,
      fun hplain entry hmem s hs => ?_⟩
    · exact Entries.get?_insert_of_ne (fun heq => hkey (Setting.text.inj heq).symm) _ _
    · rw [hoff]
      exact iff_of_false (by decide) (by decide)
    · exact Entries.unambiguous_insert (hunamb hv) (.text _) (.bool true)
    · rcases Entries.key_of_mem_insert hmem with hkey | ⟨w, hmem⟩
      · rw [hkey] at hs ⊢
        exact congrArg Setting.text (Option.some.inj hs)
      · exact hplain (entry.1, w) hmem s hs

theorem keeps_of_readEntry (h : readEntry rule v = .ok entry) :
    ∃ kept, entry = .mapping kept ∧ Keeps v kept := by
  unfold readEntry at h
  dsimp only at h
  split at h
  next s =>
    split at h
    next hs =>
      cases h
      subst hs
      exact ⟨_, rfl, keeps_withSwitch rfl fun _ => Entries.unambiguous_nil⟩
    · split at h
      next hs =>
        cases h
        subst hs
        refine ⟨_, rfl, fun key hkey => ?_, ⟨.bool false, rfl, iff_of_true rfl rfl⟩, fun _ => ?_,
          fun _ entry hmem s hs => ?_⟩
        · rw [Entries.get?_cons, if_neg]
          · rfl
          · exact fun hsame => hkey (Setting.text.inj (Setting.text_same.mp hsame)).symm
        · exact Entries.unambiguous_cons.mpr ⟨.text _, .bool false,
            fun _ h => absurd h List.not_mem_nil, Entries.unambiguous_nil⟩
        · rw [List.mem_singleton.mp hmem] at hs ⊢
          exact congrArg Setting.text (Option.some.inj hs)
      · cases h
  next entries =>
    cases h
    exact ⟨_, rfl, keeps_withSwitch (v := .mapping entries) rfl id⟩
  · cases h

/-- The rules that are kept have the keys that were read, each with its normalised entry. -/
theorem get?_readRules {fields rules : Entries} (h : readRules fields = .ok rules) (q : Setting) :
    Option.Rel (fun v w => ∃ rule, readEntry rule v = .ok w) (fields.get? q) (rules.get? q) := by
  induction fields generalizing rules with
  | nil =>
    cases h
    exact .none
  | cons field fields ih =>
    obtain ⟨k, v⟩ := field
    rw [readRules] at h
    split at h
    · cases h
    next rule hrule =>
      obtain ⟨entry, hentry, h⟩ := bind_eq_ok.mp h
      obtain ⟨later, hlater, h⟩ := bind_eq_ok.mp h
      cases h
      rw [Entries.get?_cons, Entries.get?_cons]
      by_cases hsame : q.same k = true
      · rw [if_pos hsame, if_pos hsame]
        exact .some ⟨rule, hentry⟩
      · rw [if_neg hsame, if_neg hsame]
        exact ih hlater

theorem readRules_unambiguous {fields rules : Entries} (h : readRules fields = .ok rules)
    (hfields : (Setting.mapping fields).Unambiguous) : (Setting.mapping rules).Unambiguous := by
  induction fields generalizing rules with
  | nil =>
    cases h
    exact Entries.unambiguous_nil
  | cons field fields ih =>
    obtain ⟨k, v⟩ := field
    obtain ⟨hk, hv, hapart, hrest⟩ := Entries.unambiguous_cons.mp hfields
    rw [readRules] at h
    split at h
    · cases h
    next rule hrule =>
      obtain ⟨entry, hentry, h⟩ := bind_eq_ok.mp h
      obtain ⟨later, hlater, h⟩ := bind_eq_ok.mp h
      cases h
      obtain ⟨kept, rfl, hkept⟩ := keeps_of_readEntry hentry
      refine Entries.unambiguous_cons.mpr ⟨hk, hkept.unambiguous hv, fun entry hmem => ?_,
        ih hlater hrest⟩
      obtain ⟨hkeys, _⟩ := readRules_entries hlater
      obtain ⟨field, hfield, hkey⟩ := List.mem_map.mp (hkeys ▸ List.mem_map_of_mem hmem)
      rw [← hkey]
      exact hapart field hfield

/-- The rules of a configuration are those of its text. -/
theorem readRules_of_ofText {text : String} {c : Config} {fields : ConfigFields}
    (hfields : ConfigFields.ofText? text = some fields) (hc : ofText text = .ok c) :
    readRules fields.rules = .ok c.rules := by
  unfold ofText at hc
  rw [hfields] at hc
  dsimp only at hc
  split at hc
  · cases hc
  · obtain ⟨_, _, hc⟩ := bind_eq_ok.mp hc
    obtain ⟨rules, hrules, hc⟩ := bind_eq_ok.mp hc
    cases hc
    exact hrules

end Entry

section Merge

variable {r : Rule} {g : Registry} {rules kept : Entries} {v : Setting}

/-- No default is a mapping, so that what lies over a default replaces it. -/
theorem merge_default (r : Rule) (key : String) (v : Setting) :
    Setting.merge (((defaultFields r).get? (.text key)).getD .null) v = v := by
  obtain ⟨entries, hentries, hflat⟩ := defaultEntry_flat r
  obtain rfl : defaultFields r = entries := Setting.mapping.inj hentries
  cases hget : (defaultFields r).get? (.text key) with
  | none => exact Setting.merge_null v
  | some below =>
    exact Setting.merge_of_not_mapping (hflat.values _ _ (Entries.get?_eq_some hget)) v

theorem defaultFields_plain (r : Rule) : Plain (defaultFields r) := by
  obtain ⟨entries, hentries, hflat⟩ := defaultEntry_flat r
  obtain rfl : defaultFields r = entries := Setting.mapping.inj hentries
  intro entry hmem s hs
  obtain ⟨key, hkey⟩ := hflat.texts entry.1 entry.2 hmem
  rw [hkey] at hs ⊢
  exact congrArg Setting.text (Option.some.inj hs)

theorem bool?_of_isNull (h : v.isNull = true) : v.bool? = none := by
  unfold Setting.isNull at h
  unfold Setting.bool?
  split at h
  next hnull => rw [hnull]
  · cases h

/-- The default entry of a rule with a normalised entry over it. -/
theorem exists_merge_default (r : Rule) (hv : v.Unambiguous) (hkept : Keeps v kept) :
    ∃ merged : Entries, Setting.merge (defaultEntry r) (.mapping kept) = .mapping merged ∧
      merged.Distinct ∧ Overlays r v.ownEntries merged ∧ isEnabled merged = !switchesOff v ∧
      (Plain v.ownEntries → Plain merged) := by
  have hunamb := defaultFields_unambiguous r
  obtain ⟨merged, hmerged, hmergedunamb, hget⟩ :=
    Setting.merge_mapping hunamb (hkept.unambiguous hv)
  have htext (key : String) : merged.get? (.text key) =
      match kept.get? (.text key) with
      | none => (defaultFields r).get? (.text key)
      | some w => if w.isNull then none else some w := by
    rw [hget _ (.text key)]
    cases kept.get? (.text key) with
    | none => rfl
    | some w =>
      have hover : Setting.merge ((Setting.mapping (defaultFields r)).beneath (.text key)) w = w :=
        merge_default r key w
      show (if w.isNull then none else some (Setting.merge _ w)) = if w.isNull then none else some w
      rw [hover]
  refine ⟨merged, hmerged, Entries.distinct_of_unambiguous hmergedunamb, fun key hkey => ?_, ?_, ?_⟩
  · rw [htext, hkept.fields key hkey]
  · obtain ⟨b, hb, hoff⟩ := hkept.switch
    have hbool : (merged.get? (.text enabledKey)).bind Setting.bool? = b.bool? := by
      rw [htext, hb]
      dsimp only
      split
      next hnull => exact (bool?_of_isNull hnull).symm
      · rfl
    unfold isEnabled
    rw [hbool]
    cases hswitch : switchesOff v with
    | true => rw [hoff.mpr hswitch]; rfl
    | false =>
      have hstays : b.bool? ≠ some false := fun h => by simp [hoff.mp h] at hswitch
      cases hvalue : b.bool? with
      | none => rfl
      | some t =>
        cases t with
        | true => rfl
        | false => exact absurd hvalue hstays
  · intro hplain entry hmem
    rcases Setting.key_of_mem_mergeEntries (Setting.mapping.inj hmerged ▸ hmem) with ⟨w, hw⟩ | ⟨w, hw⟩
    · exact hkept.plain hplain (entry.1, w) hw
    · exact defaultFields_plain r (entry.1, w) hw

/-- What a merged configuration has under the name of a rule. -/
theorem get?_merged (hnames : (g.rules.map (·.name)).Nodup)
    (hrules : (Setting.mapping rules).Unambiguous) (hr : r ∈ g.rules) :
    (Setting.merge (.mapping (defaultEntries g)) (.mapping rules)).get? r.name =
      match rules.get? (.text r.name) with
      | none => some (defaultEntry r)
      | some w => if w.isNull then none else some (Setting.merge (defaultEntry r) w) := by
  obtain ⟨merged, hmerged, _, hget⟩ :=
    Setting.merge_mapping (defaultEntries_unambiguous hnames) hrules
  have hdefault : (defaultEntries g).get? (.text r.name) = some (defaultEntry r) :=
    get?_defaultEntries (find?_of_nodup hnames hr)
  rw [hmerged]
  show merged.get? (.text r.name) = _
  rw [hget _ (.text r.name)]
  cases rules.get? (.text r.name) with
  | none => exact hdefault
  | some w =>
    have hbeneath : (Setting.mapping (defaultEntries g)).beneath (.text r.name) = defaultEntry r := by
      show ((defaultEntries g).get? (.text r.name)).getD .null = _
      rw [hdefault]
      rfl
    rw [hbeneath]
    rfl

end Merge

section Resolve

theorem eq_ok_of_toOption {ε α : Type} {e : Except ε α} {a : α} (h : e.toOption = some a) :
    e = .ok a := by
  cases e with
  | error fault => cases h
  | ok b =>
    cases h
    rfl

/-- The configurations stand in the order of the rules, each under the name of its rule. -/
theorem resolveRules_lookup {merged : Setting} {rules : List Rule}
    {confs : List (String × RuleSettings)} (h : resolveRules merged rules = .ok confs) :
    (confs.map (·.1)).Sublist (rules.map (·.name)) ∧ ((rules.map (·.name)).Nodup →
      ∀ r ∈ rules, resolveRule merged r = .ok (confs.lookup r.name)) := by
  induction rules generalizing confs with
  | nil =>
    cases h
    exact ⟨List.Sublist.slnil, fun _ _ hr => absurd hr List.not_mem_nil⟩
  | cons r rules ih =>
    obtain ⟨conf, hconf, h⟩ := bind_eq_ok.mp h
    obtain ⟨later, hlater, h⟩ := bind_eq_ok.mp h
    cases h
    obtain ⟨hsub, hlookup⟩ := ih hlater
    cases conf with
    | none =>
      refine ⟨hsub.cons r.name, fun hnames other hother => ?_⟩
      obtain ⟨hfirst, hrest⟩ := List.nodup_cons.mp hnames
      rcases List.mem_cons.mp hother with rfl | hother
      · have hmiss : later.lookup other.name = none := by
          refine List.lookup_eq_none_iff.mpr fun entry hentry => bne_iff_ne.mpr fun hsame => ?_
          exact hfirst (hsub.subset (List.mem_map.mpr ⟨entry, hentry, hsame.symm⟩))
        exact hconf.trans (congrArg Except.ok hmiss.symm)
      · exact hlookup hrest other hother
    | some conf =>
      refine ⟨hsub.cons_cons r.name, fun hnames other hother => ?_⟩
      obtain ⟨hfirst, hrest⟩ := List.nodup_cons.mp hnames
      show resolveRule merged other = .ok (List.lookup other.name ((r.name, conf) :: later))
      rcases List.mem_cons.mp hother with rfl | hother
      · rw [List.lookup_cons_self]
        exact hconf
      · have hname : other.name ≠ r.name := fun hsame =>
          hfirst (List.mem_map.mpr ⟨other, hother, hsame⟩)
        rw [List.lookup_cons, beq_eq_false_iff_ne.mpr hname]
        exact hlookup hrest other hother

variable {r : Rule}

theorem entry_of_resolveRule {merged : Setting} {entries : Entries} {conf : Option RuleSettings}
    (hget : merged.get? r.name = some (.mapping entries))
    (h : resolveRule merged r = .ok conf) :
    (isEnabled entries = false ∧ conf = none) ∨ (isEnabled entries = true ∧
      ∃ settings, conf = some settings ∧ applyFields r r.defaults entries = .ok settings) := by
  unfold resolveRule at h
  rw [hget] at h
  change (if isEnabled entries = true then (applyFields r r.defaults entries).map some else .ok none) =
    .ok conf at h
  split at h
  next henabled =>
    cases happly : applyFields r r.defaults entries with
    | error fault =>
      rw [happly] at h
      cases h
    | ok settings =>
      rw [happly] at h
      cases h
      exact .inr ⟨henabled, settings, rfl, rfl⟩
  next henabled =>
    cases h
    exact .inl ⟨Bool.eq_false_iff.mpr henabled, rfl⟩

/-- Without an entry a rule keeps its defaults. -/
theorem resolveRule_default (hr : r.Declares) {merged : Setting} {conf : Option RuleSettings}
    (hget : merged.get? r.name = some (defaultEntry r)) (h : resolveRule merged r = .ok conf) :
    conf = if r.enabled then some r.defaults else none := by
  rw [defaultEntry_eq] at hget
  have henabled : isEnabled (defaultFields r) = r.enabled := by
    unfold isEnabled
    rw [get?_defaultFields_reserved hr (by decide)]
    rfl
  have hoverlays : Overlays r [] (defaultFields r) := fun _ _ => rfl
  rw [← henabled]
  rcases entry_of_resolveRule hget h with ⟨hoff, rfl⟩ | ⟨hon, conf, rfl, happly⟩
  · rw [hoff]
    rfl
  · rw [hon, if_pos rfl, (follows_of_applyFields hr hoverlays (defaultFields_plain r)
      (Entries.distinct_of_unambiguous (defaultFields_unambiguous r)) happly).eq_defaults hr]

/-- With an entry a rule takes what the entry gives. -/
theorem resolveRule_follows (hr : r.Declares) {v : Setting} (hv : v.Unambiguous) {kept : Entries}
    (hkept : Keeps v kept) {merged : Setting} {conf : Option RuleSettings}
    (hget : merged.get? r.name = some (.merge (defaultEntry r) (.mapping kept)))
    (h : resolveRule merged r = .ok conf) :
    (conf = none ↔ switchesOff v = true) ∧
      (Plain v.ownEntries → ∀ settings, conf = some settings → Follows r v.ownEntries settings) := by
  obtain ⟨fields, hmerge, hdistinct, hoverlays, hswitch, hplain⟩ := exists_merge_default r hv hkept
  rw [hmerge] at hget
  rcases entry_of_resolveRule hget h with ⟨hoff, rfl⟩ | ⟨hon, settings, rfl, happly⟩
  · rw [hswitch, Bool.not_eq_false'] at hoff
    exact ⟨iff_of_true rfl hoff, fun _ _ => nofun⟩
  · rw [hswitch, Bool.not_eq_true'] at hon
    refine ⟨iff_of_false (Option.some_ne_none settings) (Bool.eq_false_iff.mp hon), ?_⟩
    rintro hplainEntry _ ⟨⟩
    exact follows_of_applyFields hr hoverlays (hplain hplainEntry) hdistinct happly

/-- A configuration changes what it gives, and nothing else. A rule that it does not name is run with
its defaults, or not at all if it is off by default. A rule that it names is run unless its entry
switches it off, and the level, the ignored files and each option are the values that the entry
gives, as they are read, or the defaults where it gives nothing; each option has a value of the kind
that it declares. -/
theorem resolve_follows {text : String} {fields : ConfigFields} {c : Config} {g : Registry}
    {confs : List (String × RuleSettings)} (hfields : ConfigFields.ofText? text = some fields)
    (hc : ofText text = .ok c) (hconfs : c.resolve g = .ok confs)
    (hnames : (g.rules.map (·.name)).Nodup) (hrules : ∀ r ∈ g.rules, r.Declares) :
    (confs.map (·.1)).Sublist (g.rules.map (·.name)) ∧ ∀ r ∈ g.rules,
      match fields.rules.get? (.text r.name) with
      | none => confs.lookup r.name = if r.enabled then some r.defaults else none
      | some entry =>
        (confs.lookup r.name = none ↔ switchesOff entry = true) ∧
          (Plain entry.ownEntries → ∀ conf, confs.lookup r.name = some conf →
            Follows r entry.ownEntries conf) := by
  have hread := readRules_of_ofText hfields hc
  have hfieldsunamb := ConfigFields.ofText?_unambiguous hfields
  unfold resolve at hconfs
  split at hconfs
  · cases hconfs
  obtain ⟨hsub, hlookup⟩ := resolveRules_lookup hconfs
  refine ⟨hsub, fun r hr => ?_⟩
  have hresolve := hlookup hnames r hr
  have hmerged := get?_merged hnames (readRules_unambiguous hread hfieldsunamb) hr
  have hrel := get?_readRules hread (.text r.name)
  cases hgiven : fields.rules.get? (.text r.name) with
  | none =>
    rw [hgiven] at hrel
    cases hkept : c.rules.get? (.text r.name) with
    | none =>
      rw [hkept] at hmerged
      exact resolveRule_default (hrules r hr) hmerged hresolve
    | some w =>
      rw [hkept] at hrel
      cases hrel
  | some entry =>
    rw [hgiven] at hrel
    cases hkept : c.rules.get? (.text r.name) with
    | none =>
      rw [hkept] at hrel
      cases hrel
    | some w =>
      rw [hkept] at hrel hmerged
      cases hrel with
      | some hentry =>
        obtain ⟨rule, hentry⟩ := hentry
        obtain ⟨kept, rfl, hkeeps⟩ := keeps_of_readEntry hentry
        exact resolveRule_follows (hrules r hr) (Entries.unambiguous_of_get? hfieldsunamb hgiven)
          hkeeps hmerged hresolve

/-- An entry with an option and a null, one that switches its rule off, and a rule without an
entry. -/
theorem resolve_follows_of_options :
    let text := "rules:\n  line-length:\n    max: 80\n    level: ~\n  truthy: disable\n"
    ∃ fields c confs entry conf, ConfigFields.ofText? text = some fields ∧ ofText text = .ok c ∧
      c.resolve Registry.builtin = .ok confs ∧ (Registry.builtin.rules.map (·.name)).Nodup ∧
      (∀ r ∈ Registry.builtin.rules, r.Declares) ∧
      fields.rules.get? (.text "line-length") = some entry ∧ Plain entry.ownEntries ∧
      confs.lookup "line-length" = some conf ∧ Follows Rules.lineLength entry.ownEntries conf ∧
      confs.lookup "truthy" = none ∧ confs.lookup "braces" = some Rules.braces.defaults := by
  intro text
  obtain ⟨c, confs, hc, hconfs⟩ :
      ∃ c confs, ofText text = .ok c ∧ c.resolve Registry.builtin = .ok confs :=
    exists_resolve_builtin (by decide +kernel)
  have hfields : ((ConfigFields.ofText? text).any fun fields =>
      ((fields.rules.get? (.text "line-length")).any fun entry =>
        decide (Plain entry.ownEntries) && !switchesOff entry) &&
      ((fields.rules.get? (.text "truthy")).any switchesOff &&
        (fields.rules.get? (.text "braces")).isNone)) = true := by decide +kernel
  obtain ⟨fields, htext, hfields⟩ := (Option.any_eq_true _ _).mp hfields
  obtain ⟨hlength, hothers⟩ := Bool.and_eq_true_iff.mp hfields
  obtain ⟨htruthy, hbraces⟩ := Bool.and_eq_true_iff.mp hothers
  obtain ⟨entry, hentry, hlength⟩ := (Option.any_eq_true _ _).mp hlength
  obtain ⟨hplain, hon⟩ := Bool.and_eq_true_iff.mp hlength
  obtain ⟨off, hoff, hswitch⟩ := (Option.any_eq_true _ _).mp htruthy
  have hnames : (Registry.builtin.rules.map (·.name)).Nodup := by decide +kernel
  obtain ⟨_, hrules⟩ := resolve_follows htext hc hconfs hnames Registry.builtin_declares
  have hline := hrules Rules.lineLength (by simp [Registry.builtin, Registry.styleRules])
  rw [show Rules.lineLength.name = "line-length" from rfl, hentry] at hline
  have hword := hrules Rules.truthy (by simp [Registry.builtin, Registry.styleRules])
  rw [show Rules.truthy.name = "truthy" from rfl, hoff] at hword
  have hleft := hrules Rules.braces (by simp [Registry.builtin, Registry.styleRules])
  rw [show Rules.braces.name = "braces" from rfl, Option.isNone_iff_eq_none.mp hbraces] at hleft
  obtain ⟨conf, hconf⟩ : ∃ conf, confs.lookup "line-length" = some conf := by
    refine Option.ne_none_iff_exists'.mp fun hnone => ?_
    rw [hline.1.mp hnone] at hon
    cases hon
  have hplain := of_decide_eq_true hplain
  exact ⟨fields, c, confs, entry, conf, htext, hc, hconfs, hnames, Registry.builtin_declares, hentry,
    hplain, hconf, hline.2 hplain conf hconf, hword.1.mpr hswitch, hleft⟩

/-- An option under a tag counts as this option, but it does not replace its default, which stands
after it once the null of another key has moved it. -/
theorem resolve_shadows_tagged_option :
    let text := "rules:\n  line-length:\n    !x max: 80\n  empty-lines:\n    !x max: 5\n    level: ~\n"
    ∃ fields c confs, ConfigFields.ofText? text = some fields ∧ ofText text = .ok c ∧
      c.resolve Registry.builtin = .ok confs ∧
      ((fields.rules.get? (.text "line-length")).any fun entry => entry.ownEntries.any fun (k, v) =>
        k.text? == some "max" && v.same (.int 80)) = true ∧
      (confs.lookup "line-length").map (·.int "max") = some 80 ∧
      ((fields.rules.get? (.text "empty-lines")).any fun entry => entry.ownEntries.any fun (k, v) =>
        k.text? == some "max" && v.same (.int 5)) = true ∧
      (confs.lookup "empty-lines").map (·.int "max") = some 1 := by
  intro text
  have hfields : ((ConfigFields.ofText? text).any fun fields =>
      ((fields.rules.get? (.text "line-length")).any fun entry => entry.ownEntries.any fun (k, v) =>
        k.text? == some "max" && v.same (.int 80)) &&
      (fields.rules.get? (.text "empty-lines")).any fun entry => entry.ownEntries.any fun (k, v) =>
        k.text? == some "max" && v.same (.int 5)) = true := by decide +kernel
  have hconfs : ((ofText text).toOption.any fun c =>
      (c.resolve Registry.builtin).toOption.any fun confs =>
        (confs.lookup "line-length").map (·.int "max") == some 80 &&
          (confs.lookup "empty-lines").map (·.int "max") == some 1) = true := by decide +kernel
  obtain ⟨fields, htext, hfields⟩ := (Option.any_eq_true _ _).mp hfields
  obtain ⟨c, hc, hconfs⟩ := (Option.any_eq_true _ _).mp hconfs
  obtain ⟨confs, hresolve, hconfs⟩ := (Option.any_eq_true _ _).mp hconfs
  obtain ⟨hlength, hlines⟩ := Bool.and_eq_true_iff.mp hfields
  obtain ⟨hmax, hdefault⟩ := Bool.and_eq_true_iff.mp hconfs
  exact ⟨fields, c, confs, htext, eq_ok_of_toOption hc, eq_ok_of_toOption hresolve, hlength,
    beq_iff_eq.mp hmax, hlines, beq_iff_eq.mp hdefault⟩

end Resolve

end Blueprint.Config
