import Blueprint.Proofs.ConfigChecks

/-!
The values that options get. A value that is read is of the kind that the option declares, a default
comes back from its own setting, and each field of an entry changes one part of a configuration.
-/

namespace Blueprint

/-- Whether a value is of the kind that an option declares. -/
def OptionForm.Holds : OptionForm → OptionValue → Prop
  | bool _, v => ∃ b, v = .bool b
  | int _, v => ∃ i, v = .int i ∧ Number.inSigned 64 i = true
  | text _, v => ∃ s, v = .text s
  | intOr keyword _, v => (∃ i, v = .int i ∧ Number.inSigned 64 i = true) ∨ v = .text keyword
  | oneOf choices _, v => ∃ s ∈ choices, v = .text s
  | list _, v => ∃ items, v = .list items

section Read

theorem demand_eq_ok {α : Type} {fault : OptionFault} {make : α → OptionValue} {found : Option α}
    {value : OptionValue} :
    (show Except OptionFault OptionValue from match found with
      | some a => .ok (make a)
      | none => .error fault) = .ok value ↔ ∃ a, found = some a ∧ make a = value := by
  cases found with
  | none => simp
  | some a => simp

theorem Setting.int64?_fits {v : Setting} {i : Int} (h : v.int64? = some i) :
    Number.inSigned 64 i = true := by
  unfold int64? at h
  split at h
  · split at h
    next hfits =>
      cases h
      exact hfits
    · cases h
  · cases h

theorem Setting.eq_of_int64?_int {i j : Int} (h : (int i).int64? = some j) : j = i := by
  change (if Number.inSigned 64 i = true then some i else none) = some j at h
  split at h
  · exact (Option.some.inj h).symm
  · cases h

theorem mapM_itemText?_text (items : List String) :
    (items.map Setting.text).mapM itemText? = some items := by
  induction items with
  | nil => rfl
  | cons s items ih =>
    rw [List.map_cons, List.mapM_cons, ih]
    rfl

namespace RuleOption

variable {spec : RuleOption} {v : Setting} {value : OptionValue}

theorem holds_of_read (h : spec.read v = .ok value) : spec.kind.Holds value := by
  obtain ⟨name, kind⟩ := spec
  cases kind with
  | bool default =>
    obtain ⟨b, _, rfl⟩ := demand_eq_ok.mp h
    exact ⟨b, rfl⟩
  | int default =>
    obtain ⟨i, hi, rfl⟩ := demand_eq_ok.mp h
    exact ⟨i, rfl, Setting.int64?_fits hi⟩
  | text default =>
    obtain ⟨s, _, rfl⟩ := demand_eq_ok.mp h
    exact ⟨s, rfl⟩
  | intOr keyword default =>
    unfold read at h
    dsimp only at h
    split at h
    · obtain ⟨i, hi, rfl⟩ := demand_eq_ok.mp h
      exact .inl ⟨i, rfl, Setting.int64?_fits hi⟩
    · split at h
      next hword =>
        cases h
        exact .inr (congrArg OptionValue.text hword)
      · cases h
    · cases h
  | oneOf choices default =>
    obtain ⟨s, hs, rfl⟩ := demand_eq_ok.mp h
    obtain ⟨_, hchoice⟩ := Option.filter_eq_some_iff.mp hs
    exact ⟨s, List.contains_iff_mem.mp hchoice, rfl⟩
  | list default =>
    unfold read at h
    dsimp only at h
    split at h
    · obtain ⟨items, _, rfl⟩ := demand_eq_ok.mp h
      exact ⟨items, rfl⟩
    · cases h

/-- The setting of a default is read as the default, if it is read at all. -/
theorem eq_default_of_read (h : spec.read spec.default.setting = .ok value) :
    value = spec.default := by
  obtain ⟨name, kind⟩ := spec
  cases kind with
  | bool default =>
    cases h
    rfl
  | int default =>
    obtain ⟨i, hi, rfl⟩ := demand_eq_ok.mp h
    rw [Setting.eq_of_int64?_int hi]
    rfl
  | text default =>
    cases h
    rfl
  | intOr keyword default =>
    obtain ⟨i, hi, rfl⟩ := demand_eq_ok.mp h
    rw [Setting.eq_of_int64?_int hi]
    rfl
  | oneOf choices default =>
    obtain ⟨s, hs, rfl⟩ := demand_eq_ok.mp h
    obtain ⟨hword, _⟩ := Option.filter_eq_some_iff.mp hs
    cases hword
    rfl
  | list default =>
    obtain ⟨items, hitems, rfl⟩ := demand_eq_ok.mp h
    rw [mapM_itemText?_text] at hitems
    cases hitems
    rfl

end RuleOption

theorem Config.eq_of_readLevel_name {level found : Level}
    (h : readLevel (.text level.name) = .ok found) : found = level := by
  cases level <;> cases h <;> rfl

end Read

/-- Whether the options of a rule have names of their own, none of which means something else in an
entry, and defaults that pass their own check. -/
structure Rule.Declares (r : Rule) : Prop where
  distinct : (r.options.map (·.name)).Nodup
  names : ∀ spec ∈ r.options,
    spec.name ∉ ["", Config.enabledKey, Config.levelKey, Config.ignoreKey]
  defaults : ∀ spec ∈ r.options, ∃ value, spec.read spec.default.setting = .ok value

theorem Registry.builtin_declares : ∀ r ∈ builtin.rules, r.Declares := by
  have hall : builtin.rules.all (fun r => decide (r.options.map (·.name)).Nodup &&
      r.options.all fun spec =>
        !(["", Config.enabledKey, Config.levelKey, Config.ignoreKey].contains spec.name) &&
          (spec.read spec.default.setting).toOption.isSome) = true := by decide +kernel
  intro r hr
  obtain ⟨hdistinct, hoptions⟩ := Bool.and_eq_true_iff.mp (List.all_eq_true.mp hall r hr)
  rw [List.all_eq_true] at hoptions
  refine ⟨of_decide_eq_true hdistinct, fun spec hspec hname => ?_, fun spec hspec => ?_⟩
  · have hother := (Bool.and_eq_true_iff.mp (hoptions spec hspec)).1
    rw [List.contains_iff_mem.mpr hname] at hother
    cases hother
  · have hread := (Bool.and_eq_true_iff.mp (hoptions spec hspec)).2
    cases h : spec.read spec.default.setting with
    | ok value => exact ⟨value, rfl⟩
    | error fault =>
      rw [h] at hread
      cases hread

theorem find?_of_nodup {α : Type} {f : α → String} {xs : List α} (h : (xs.map f).Nodup) {x : α}
    (hx : x ∈ xs) : xs.find? (f · == f x) = some x := by
  induction xs with
  | nil => cases hx
  | cons y xs ih =>
    obtain ⟨hfirst, hrest⟩ := List.nodup_cons.mp h
    rcases List.mem_cons.mp hx with rfl | hx
    · exact List.find?_cons_of_pos (beq_self_eq_true _)
    · rw [List.find?_cons_of_neg, ih hrest hx]
      intro hsame
      exact hfirst (List.mem_map.mpr ⟨x, hx, (eq_of_beq hsame).symm⟩)

namespace RuleSettings

variable {c : RuleSettings} {name other : String} {value : OptionValue}

/-- Giving one name another value changes what is found under that name only. -/
theorem lookup_replaced (options : List (String × OptionValue)) (name other : String)
    (value : OptionValue) :
    (options.map fun option =>
        if option.1 = name then (option.1, value) else (option.1, option.2)).lookup other =
      if name = other then (options.lookup other).map fun _ => value
      else options.lookup other := by
  induction options with
  | nil => simp
  | cons option options ih =>
    have hentry : (if option.1 = name then (option.1, value) else (option.1, option.2)) =
        (option.1, if option.1 = name then value else option.2) := by split <;> rfl
    rw [List.map_cons, hentry, List.lookup_cons, List.lookup_cons, ih]
    cases hfound : other == option.1 with
    | false => rfl
    | true =>
      rw [eq_of_beq hfound]
      by_cases hname : option.1 = name
      · simp [hname]
      · simp [hname, Ne.symm hname]

theorem get?_set (c : RuleSettings) (name other : String) (value : OptionValue) :
    (c.set name value).get? other = if name = other then some value else c.get? other := by
  unfold get? set
  dsimp only
  split
  next hany =>
    refine (lookup_replaced c.options name other value).trans ?_
    split
    next hname =>
      obtain ⟨option, hoption, hfound⟩ := List.any_eq_true.mp hany
      cases hlookup : c.options.lookup other with
      | some old => rfl
      | none =>
        have hmiss := List.lookup_eq_none_iff.mp hlookup option hoption
        rw [← hname, eq_of_beq hfound] at hmiss
        simp at hmiss
    · rfl
  next hnone =>
    rw [List.lookup_append, List.lookup_cons]
    by_cases hname : name = other
    · have hmiss : c.options.lookup other = none := by
        refine List.lookup_eq_none_iff.mpr fun option hoption => bne_iff_ne.mpr fun hfound => ?_
        exact hnone (List.any_eq_true.mpr
          ⟨option, hoption, beq_iff_eq.mpr (hfound.symm.trans hname.symm)⟩)
      rw [hmiss, hname, beq_self_eq_true, if_pos rfl]
      rfl
    · rw [beq_eq_false_iff_ne.mpr (Ne.symm hname), if_neg hname]
      exact Option.or_none

theorem names_set (h : name ∈ c.options.map (·.1)) :
    (c.set name value).options.map (·.1) = c.options.map (·.1) := by
  unfold set
  have hany : c.options.any (·.1 == name) = true := by
    obtain ⟨option, hoption, hname⟩ := List.mem_map.mp h
    exact List.any_eq_true.mpr ⟨option, hoption, beq_iff_eq.mpr hname⟩
  rw [hany, if_pos rfl, List.map_map]
  refine List.map_congr_left fun option _ => ?_
  show (if option.1 = name then (option.1, value) else (option.1, option.2)).1 = option.1
  split <;> rfl

end RuleSettings

namespace Config

open Setting (Entries)

/-- Whether each key that is read as a text is this text, without a tag. -/
def Plain (entries : Entries) : Prop :=
  ∀ entry ∈ entries, ∀ s, entry.1.text? = some s → entry.1 = .text s

instance (entries : Entries) : Decidable (Plain entries) :=
  decidable_of_iff
    (∀ entry ∈ entries, entry.1.text?.all (fun s => (Setting.text s).same entry.1) = true) <| by
    simp only [Option.all_eq_true, Setting.text_same, Plain]

section Fields

variable {r : Rule} {c c' : RuleSettings} {key : String} {entries : Entries}

/-- Whether only the field with one key changes a part of a configuration, to what is read of it. -/
structure Decides (r : Rule) (key : String) {α : Type} (part : RuleSettings → α)
    (Reads : Setting → α → Prop) : Prop where
  own : ∀ c v c', applyField r c key v = .ok c' → Reads v (part c')
  other : ∀ c name v c', name ≠ key → applyField r c name v = .ok c' → part c' = part c

/-- A part of a configuration depends on the entry under its key only, if there is one. -/
theorem Decides.applyFields {α : Type} {part : RuleSettings → α} {Reads : Setting → α → Prop}
    (h : Decides r key part Reads) (hkey : key ≠ "") (hplain : Plain entries)
    (hdistinct : entries.Distinct) (happly : applyFields r c entries = .ok c') :
    match entries.get? (.text key) with
    | none => part c' = part c
    | some v => Reads v (part c') := by
  induction entries generalizing c with
  | nil =>
    cases happly
    rfl
  | cons entry entries ih =>
    obtain ⟨k, v⟩ := entry
    obtain ⟨hplaink, hplain⟩ := List.forall_mem_cons.mp hplain
    obtain ⟨hfirst, hrest⟩ := List.pairwise_cons.mp hdistinct
    obtain ⟨next, happlyk, happly⟩ := bind_eq_ok.mp happly
    have hlater := ih hplain hrest happly
    rw [Entries.get?_cons]
    by_cases hsame : (Setting.text key).same k = true
    · rw [if_pos hsame]
      obtain rfl : k = .text key := Setting.text_same.mp hsame
      have hnone : Entries.get? entries (.text key) = none := by
        refine Entries.get?_eq_none.mpr fun entry hmem => ?_
        rw [← Bool.not_eq_true, Setting.text_same]
        intro heq
        have hapart := hfirst entry hmem
        rw [heq, Setting.text_same.mpr rfl] at hapart
        cases hapart
      rw [hnone] at hlater
      show Reads v (part c')
      rw [hlater]
      exact h.own _ _ _ happlyk
    · rw [if_neg hsame]
      have hname : k.text?.getD "" ≠ key := by
        intro hname
        cases htext : k.text? with
        | none =>
          rw [htext] at hname
          exact hkey hname.symm
        | some s =>
          rw [htext] at hname
          refine hsame (Setting.text_same.mpr ?_)
          rw [← show s = key from hname]
          exact hplaink s htext
      have hkept := h.other _ _ _ _ hname happlyk
      cases hget : Entries.get? entries (.text key) with
      | none =>
        rw [hget] at hlater
        exact hlater.trans hkept
      | some w =>
        rw [hget] at hlater
        exact hlater

theorem decides_level (r : Rule) :
    Decides r levelKey (·.level) fun v level => readLevel v = .ok level where
  own c v c' h := by
    have happlies := applies_of_applyField h
    generalize hkey : levelKey = key at happlies
    cases happlies with
    | enabled => exact absurd hkey (by decide)
    | level level hlevel => exact hlevel
    | ignore => exact absurd hkey (by decide)
    | option spec _ hname => simp [← hkey] at hname
  other c name v c' hname h := by
    cases applies_of_applyField h with
    | level => exact absurd rfl hname
    | _ => rfl

theorem decides_ignore (r : Rule) :
    Decides r ignoreKey (·.ignore) fun v globs =>
      ∃ texts, patternTexts v = .ok texts ∧ texts.mapM readPattern = .ok globs where
  own c v c' h := by
    have happlies := applies_of_applyField h
    generalize hkey : ignoreKey = key at happlies
    cases happlies with
    | enabled => exact absurd hkey (by decide)
    | level => exact absurd hkey (by decide)
    | ignore texts globs htexts hglobs => exact ⟨texts, htexts, hglobs⟩
    | option spec _ hname => simp [← hkey] at hname
  other c name v c' hname h := by
    cases applies_of_applyField h with
    | ignore => exact absurd rfl hname
    | _ => rfl

theorem decides_option (hr : r.Declares) {spec : RuleOption} (hspec : spec ∈ r.options) :
    Decides r spec.name (·.get? spec.name) fun v value =>
      ∃ x, spec.read v = .ok x ∧ value = some x where
  own c v c' h := by
    have hnames := hr.names spec hspec
    have happlies := applies_of_applyField h
    generalize hkey : spec.name = key at happlies
    cases happlies with
    | enabled => simp [hkey] at hnames
    | level => simp [hkey] at hnames
    | ignore => simp [hkey] at hnames
    | option found hfound _ value hread =>
      have hsame : some spec = some found := by
        rw [← find?_of_nodup hr.distinct hspec, hkey, find?_of_nodup hr.distinct hfound]
      obtain rfl := Option.some.inj hsame
      exact ⟨value, hread, by rw [RuleSettings.get?_set, if_pos rfl]⟩
  other c name v c' hname h := by
    cases applies_of_applyField h with
    | option found _ _ value _ => rw [RuleSettings.get?_set, if_neg hname]
    | _ => rfl

/-- Fields do not change which options a configuration has. -/
theorem names_of_applyFields (h : applyFields r c entries = .ok c')
    (hnames : c.options.map (·.1) = r.options.map (·.name)) :
    c'.options.map (·.1) = r.options.map (·.name) := by
  induction entries generalizing c with
  | nil =>
    cases h
    exact hnames
  | cons entry entries ih =>
    obtain ⟨next, hfirst, h⟩ := bind_eq_ok.mp h
    refine ih h ?_
    have happlies := applies_of_applyField hfirst
    generalize entry.1.text?.getD "" = key at happlies
    cases happlies with
    | option spec hspec _ value _ =>
      rw [RuleSettings.names_set, hnames]
      rw [hnames]
      exact List.mem_map_of_mem hspec
    | _ => exact hnames

end Fields

end Config

end Blueprint
