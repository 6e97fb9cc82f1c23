import Blueprint.Proofs.SectionReading

/-!
The section that the tokens of a document are in, and the sections that they have entered: a walk
over the entries of the root, with what is known of the sections after some of them.
-/

namespace Blueprint

open Yaml

/-- The text of a scalar. -/
def Yaml.EventTree.text? (t : EventTree) : Option String :=
  match t.start.kind with
  | .scalar text _ _ _ => some text
  | _ => none

theorem Context.opensCollection_iff {k : TokenKind} :
    opensCollection k = true ↔ (∃ c, k.closer? = some c) ∨ k = .blockEntry := by
  cases k <;> simp [opensCollection, TokenKind.closer?]

namespace Yaml.EntryTokens

variable {flow : Bool} {e : EntryTokens} {name : String}

theorem section?_eq_some : e.section? = some name ↔ e.name? = some name ∧
    name ∈ Sections.known ∧ Tracker.entersAt (e.colon ++ e.valueTokens) = true := by
  rw [section?, Option.filter_eq_some_iff, Bool.and_eq_true, List.contains_iff_mem]

/-- What is entered as a section is one: a known key with a collection as its value. -/
theorem Written.isSection (h : e.Written flow) (hsection : e.section? = some name) :
    name ∈ Sections.known ∧ e.key.text? = some name ∧ e.value.isCollection = true := by
  obtain ⟨hname, hknown, henters⟩ := section?_eq_some.mp hsection
  obtain ⟨_, style, htokens⟩ := name?_eq_some.mp hname
  refine ⟨hknown, ?_, ?_⟩
  · rcases h.key with hwrites | ⟨hnil, _⟩
    · rw [htokens] at hwrites
      rw [EventTree.text?, hwrites.eq_scalar.2]
    · rw [hnil] at htokens
      cases htokens
  · rcases h.value with ⟨hcolon, hwrites⟩ | ⟨hcolon | hcolon, hnil, _⟩
    · rw [hcolon] at henters
      cases hks : e.valueTokens with
      | nil =>
        rw [hks] at henters
        cases henters
      | cons k r =>
        rw [hks] at henters hwrites
        have hk : Context.opensCollection k = true := henters
        rcases Context.opensCollection_iff.mp hk with ⟨c, hc⟩ | rfl
        · exact (hwrites.eq_closed hc).1
        · exact hwrites.isCollection_of_list rfl
    · rw [hcolon, hnil] at henters
      cases henters
    · rw [hcolon, hnil] at henters
      cases henters

/-- A known key with a collection as its value is entered as a section if neither of them has an
anchor or a tag. -/
theorem Written.section_of_bare (h : e.Written flow) (hknown : name ∈ Sections.known)
    (htext : e.key.text? = some name) (hvalue : e.value.isCollection = true)
    (hbare : e.key.start.kind.isBare = true ∧ e.value.start.kind.isBare = true) :
    e.section? = some name := by
  have hwritten : e.colon = [.value] ∧ e.value.Writes e.valueTokens := by
    refine h.value.resolve_right fun ⟨_, _, hmissing⟩ => ?_
    exact EventTree.opens_of_isCollection hvalue (by rw [hmissing]; rfl)
  have hkey : e.key.Writes e.keyTokens := by
    refine h.key.resolve_right fun ⟨_, hmissing⟩ => ?_
    rw [EventTree.text?, hmissing] at htext
    rw [← Option.some.inj htext] at hknown
    revert hknown
    decide
  have htokens : ∃ style, e.keyTokens = [.scalar name style] := by
    unfold EventTree.text? at htext
    split at htext
    next text style anchor tag hkind =>
      rw [← Option.some.inj htext]
      exact ⟨style, hkey.eq_of_scalar hkind hbare.1⟩
    · cases htext
  refine section?_eq_some.mpr ⟨name?_eq_some.mpr ⟨?_, htokens⟩, hknown, ?_⟩
  · by_contra hmark
    obtain ⟨style, htokens⟩ := htokens
    have hnil := h.marked hmark (by rw [htokens]; exact List.cons_ne_nil _ _)
    rw [hwritten.1] at hnil
    cases hnil
  · rw [hwritten.1]
    rcases hwritten.2.head_of_bare hvalue hbare.2 with ⟨o, c, hhead, ho⟩ | hhead
    · obtain ⟨r, hr⟩ := List.head?_eq_some_iff.mp hhead
      rw [hr]
      exact Context.opensCollection_iff.mpr (Or.inl ⟨c, ho⟩)
    · obtain ⟨r, hr⟩ := List.head?_eq_some_iff.mp hhead
      rw [hr]
      rfl

end Yaml.EntryTokens

/-- What is known of the sections after some entries of the root. The templates are the current
section only behind an entry that no end of a block has left. -/
structure Standing (done : List EntryTokens) (t : Tracker) : Prop where
  depth : t.depth = 1
  reading : t.place.reading = true
  prev : done = [] → t.prev ≠ some .key
  sections : ∀ name, t.place.sections.contains name = true ↔
    ∃ e ∈ done, e.section? = some name
  templates : t.place.current = some "node_templates" → ∃ before e mid,
    done = before ++ e :: mid ∧ e.section? = some "node_templates" ∧ e.isBlock = false ∧
      ∀ m ∈ mid, m.name? = none

/-- The entry can be read as a whole: what follows it does not decide what it is, and inputs do not
follow templates that are still the current section. -/
structure Tracker.Admits (t : Tracker) (e : EntryTokens) (ahead : List TokenKind) : Prop where
  calm : t.prev = some .key → ∀ k ∈ e.tokens.head?, Tracker.textOf? k = none
  ahead : Tracker.entersAt (e.colon ++ (e.valueTokens ++ ahead)) =
    Tracker.entersAt (e.colon ++ e.valueTokens)
  inputs : t.place.current = some "node_templates" → e.section? ≠ some "inputs"

namespace Standing

variable {done : List EntryTokens} {t : Tracker} {flow : Bool} {e : EntryTokens}
  {ahead : List TokenKind}

theorem known_ne_empty {name : String} (h : name ∈ Sections.known) : name ≠ "" := by
  rintro rfl
  revert h
  decide

/-- An entry that is a section becomes the current one. -/
theorem enters (hadmits : t.Admits e ahead) {name : String} (hsection : e.section? = some name) :
    t.place.enter (e.section?.getD "") =
      { t.place with sections := t.place.sections.add name, current := some name } := by
  have hne := known_ne_empty (EntryTokens.section?_eq_some.mp hsection).2.1
  have hnot : (t.place.current == some "node_templates" && name == "inputs") = false := by
    rw [Bool.and_eq_false_iff, beq_eq_false_iff_ne, beq_eq_false_iff_ne]
    by_cases hcurrent : t.place.current = some "node_templates"
    · refine Or.inr fun hinputs => hadmits.inputs hcurrent ?_
      rw [hsection, hinputs]
    · exact Or.inl hcurrent
  rw [hsection, Option.getD_some, Place.enter, hnot, if_neg Bool.false_ne_true, if_neg hne]

/-- The place before the value of an entry. -/
theorem before_value (h : Standing done t) (hwritten : e.Written flow)
    (hadmits : t.Admits e ahead) :
    (t.beforeValue e ahead).place.reading = true ∧
      (∀ name, (t.beforeValue e ahead).place.sections.contains name = true ↔
        ∃ e' ∈ done ++ [e], e'.section? = some name) ∧
      (∀ name, e.section? = some name → (t.beforeValue e ahead).place.current = some name) ∧
      ((t.beforeValue e ahead).place.current = some "node_templates" →
        e.section? = some "node_templates" ∨
          e.name? = none ∧ t.place.current = some "node_templates") := by
  obtain ⟨_, _, hnamed, hunnamed⟩ := Tracker.beforeValue_place hwritten h.depth h.reading
    hadmits.calm hadmits.ahead
  have hsections (name : String) : (∃ e' ∈ done ++ [e], e'.section? = some name) ↔
      t.place.sections.contains name = true ∨ e.section? = some name := by
    rw [h.sections]
    refine ⟨fun ⟨e', he', hname⟩ => ?_, ?_⟩
    · rcases List.mem_append.mp he' with hdone | hlast
      · exact Or.inl ⟨e', hdone, hname⟩
      · exact Or.inr (List.mem_singleton.mp hlast ▸ hname)
    · rintro (⟨e', hdone, hname⟩ | hname)
      · exact ⟨e', List.mem_append_left _ hdone, hname⟩
      · exact ⟨e, List.mem_append_right _ List.mem_cons_self, hname⟩
  cases hsection : e.section? with
  | some name =>
    have hname : e.name?.isSome := by
      rw [(EntryTokens.section?_eq_some.mp hsection).1]
      rfl
    rw [hnamed hname, enters hadmits hsection]
    refine ⟨h.reading, fun other => ?_, fun other hother => hother, fun hcurrent => Or.inl hcurrent⟩
    rw [hsections, hsection]
    show (t.place.sections.insert name ()).contains other = true ↔ _
    rw [Table.contains_insert, Bool.or_eq_true, beq_iff_eq, Option.some_inj, or_comm]
  | none =>
    cases hname : e.name? with
    | some name =>
      have hleave : (t.beforeValue e ahead).place = t.place.leave := by
        rw [hnamed (by rw [hname]; rfl), hsection]
        exact t.place.enter_empty
      rw [hleave]
      refine ⟨h.reading, fun other => ?_, fun other hother => (by cases hother), fun hcurrent => ?_⟩
      · rw [hsections, hsection]
        exact ⟨Or.inl, fun hor => hor.resolve_right (Option.some_ne_none _).symm⟩
      · exact absurd (Option.some.inj hcurrent) (by decide)
    | none =>
      have hkeeps := hunnamed hname
      refine ⟨hkeeps.reading.trans h.reading, fun other => ?_,
        fun other hother => (by cases hother),
        fun hcurrent => Or.inr ⟨rfl, hkeeps.current (by decide) hcurrent⟩⟩
      rw [hkeeps.sections, hsections, hsection]
      exact ⟨Or.inl, fun hor => hor.resolve_right (Option.some_ne_none _).symm⟩

/-- Each entry of the root keeps what is known of the sections. -/
theorem next (h : Standing done t) (hwritten : e.Written flow) (hadmits : t.Admits e ahead) :
    Standing (done ++ [e]) (t.follow ahead e.tokens) := by
  obtain ⟨hdepth, hprev, _, _⟩ := Tracker.beforeValue_place hwritten h.depth h.reading
    hadmits.calm hadmits.ahead
  obtain ⟨hreading, hsections, _, htemplates⟩ := h.before_value hwritten hadmits
  have hfollow : t.follow ahead e.tokens = (t.beforeValue e ahead).follow ahead e.valueTokens :=
    t.follow_entry e e.valueTokens [] ahead (List.append_nil _).symm
  rw [hfollow]
  generalize t.beforeValue e ahead = u at *
  have hcalm : ∀ k ∈ e.valueTokens.head?, u.Calm k := by
    intro k hk _ hkey
    rw [hprev (fun hnil => by rw [hnil] at hk; cases hk)] at hkey
    cases hkey
  obtain ⟨hkeeps, _⟩ := Tracker.follow_deep hwritten.deep.2.1 hdepth hcalm ahead
  refine ⟨?_, hkeeps.reading.trans hreading, ?_, fun name => ?_, fun hcurrent => ?_⟩
  · rw [Tracker.follow_depth, hdepth, hwritten.deep.2.1.depthAfter_succ, hwritten.deep.2.2]
  · exact fun hnil => absurd hnil (List.append_ne_nil_of_right_ne_nil _ (List.cons_ne_nil _ _))
  · rw [hkeeps.sections]
    exact hsections name
  · rcases htemplates (hkeeps.current (by decide) hcurrent) with hsection | ⟨hname, hbefore⟩
    · refine ⟨done, e, [], rfl, hsection, ?_, fun m hm => absurd hm List.not_mem_nil⟩
      -- the end of a block would have left the templates
      by_contra hblock
      rw [Bool.not_eq_false] at hblock
      rcases hwritten.value with ⟨_, hwrites⟩ | ⟨_, hnil, _⟩
      · rw [Tracker.follow_block hwrites hblock hdepth hreading ahead] at hcurrent
        exact absurd (Option.some.inj hcurrent) (by decide)
      · rw [EntryTokens.isBlock, hnil] at hblock
        cases hblock
    · obtain ⟨before, e', mid, rfl, hsection, hblock, hmid⟩ := h.templates hbefore
      refine ⟨before, e', mid ++ [e], by simp, hsection, hblock, fun m hm => ?_⟩
      rcases List.mem_append.mp hm with hm | hm
      · exact hmid m hm
      · rw [List.mem_singleton.mp hm]
        exact hname

/-- Inside its collection a section is the current one. -/
theorem inside (h : Standing done t) (hwritten : e.Written flow) (hadmits : t.Admits e ahead)
    {name : String} (hsection : e.section? = some name)
    (hbare : e.value.start.kind.isBare = true) (hlist : e.isList = true → .blockEnd ∉ e.valueTokens)
    {a b : List TokenKind} (hab : e.valueTokens = a ++ b) (hinside : b = [] → e.isList = true) :
    (t.follow (b ++ ahead) (e.lead ++ (e.keyTokens ++ (e.colon ++ a)))).place.current =
      some name := by
  obtain ⟨hdepth, hprev, _, _⟩ := Tracker.beforeValue_place hwritten h.depth h.reading
    hadmits.calm hadmits.ahead
  obtain ⟨_, _, hcurrent, _⟩ := h.before_value hwritten hadmits
  obtain ⟨_, _, hvalue⟩ := hwritten.isSection hsection
  have hwrites : e.value.Writes e.valueTokens := by
    refine (hwritten.value.resolve_right fun ⟨_, _, hmissing⟩ => ?_).2
    exact EventTree.opens_of_isCollection hvalue (by rw [hmissing]; rfl)
  have hne : e.valueTokens ≠ [] := by
    rcases hwrites.head_of_bare hvalue hbare with ⟨_, _, hhead, _⟩ | hhead <;>
      exact fun hnil => by rw [hnil] at hhead; cases hhead
  rw [t.follow_entry e a b ahead hab]
  have hlist_iff : e.isList = true ↔ (a ++ b).head? = some .blockEntry := by
    rw [EntryTokens.isList, hab, beq_iff_eq]
  rw [hab] at hwrites hlist
  rw [Tracker.follow_inside hwrites hvalue hbare (fun hnil => hlist_iff.mp (hinside hnil))
    (fun hhead => hlist (hlist_iff.mpr hhead)) hdepth (hprev hne) (b ++ ahead)]
  exact hcurrent name hsection

end Standing

namespace Yaml.RootLayout

open Yaml.Parser (mappingCloser)

/-- The tokens up to the end of some entries. -/
def before (l : RootLayout) (done : List EntryTokens) : List TokenKind :=
  l.head ++ l.opener :: done.flatMap EntryTokens.tokens

/-- The tokens from some entries on. -/
def behind (l : RootLayout) (rest : List EntryTokens) : List TokenKind :=
  rest.flatMap EntryTokens.tokens ++ (l.last ++ mappingCloser l.flow :: l.later)

/-- The roots in which sections are told from their first tokens: what is a section has neither an
anchor nor a tag; as a list at the column of its key it holds no blocks; inputs do not follow
templates that no block ends; and no other document follows. -/
structure Plain (l : RootLayout) : Prop where
  bare : ∀ e ∈ l.entries, ∀ name ∈ Sections.known, e.key.text? = some name →
    e.value.isCollection = true →
    e.key.start.kind.isBare = true ∧ e.value.start.kind.isBare = true
  lists : ∀ e ∈ l.entries, e.section?.isSome = true → e.isList = true →
    .blockEnd ∉ e.valueTokens
  inputs : (l.entries.filter (·.name?.isSome)).IsChain fun e e' =>
    e.section? = some "node_templates" → e'.section? = some "inputs" → e.isBlock = true
  later : .key ∉ l.later

variable {l : RootLayout} {ks : List TokenKind} {entries : List (EventTree × EventTree)}
  {done rest : List EntryTokens} {e : EntryTokens}

theorem before_append (l : RootLayout) (done : List EntryTokens) (e : EntryTokens) :
    l.before (done ++ [e]) = l.before done ++ e.tokens := by
  simp [before]

theorem behind_cons (l : RootLayout) (e : EntryTokens) (rest : List EntryTokens) :
    l.behind (e :: rest) = e.tokens ++ l.behind rest := by
  simp [behind]

theorem Describes.split (h : l.Describes ks entries) (hsplit : l.entries = done ++ rest) :
    ks = l.before done ++ l.behind rest := by
  rw [← h.tokens, RootLayout.tokens, hsplit, before, behind]
  simp only [List.flatMap_append, List.append_assoc, List.cons_append]

theorem Describes.starts_of_split (h : l.Describes ks entries)
    (hsplit : l.entries = done ++ e :: rest) (hne : done ≠ []) :
    ∃ k, e.tokens.head? = some k ∧ Tracker.textOf? k = none ∧
      Context.opensCollection k = false := by
  have hmem : e ∈ l.entries.tail := by
    rw [hsplit, List.tail_append_of_ne_nil hne]
    exact List.mem_append_right _ List.mem_cons_self
  obtain ⟨k, hk, hhead⟩ := h.starts e hmem
  have hall : ∀ flow : Bool, ∀ k ∈ if flow then [TokenKind.flowEntry] else [.key, .value],
      Tracker.textOf? k = none ∧ Context.opensCollection k = false := by decide
  exact ⟨k, hhead, hall l.flow k hk⟩

/-- What follows the last entry is a comma or the end of the root. -/
theorem Describes.behind_nil (h : l.Describes ks entries) :
    ∃ k r, l.behind [] = k :: r ∧ k ≠ .value ∧ Tracker.textOf? k = none ∧
      Context.opensCollection k = false := by
  rcases h.last with hlast | hlast
  · refine ⟨mappingCloser l.flow, l.later, by rw [behind, hlast]; rfl, ?_⟩
    cases l.flow <;> decide
  · exact ⟨.flowEntry, _, by rw [behind, hlast]; rfl, by decide⟩

theorem Describes.admits (h : l.Describes ks entries) (hplain : l.Plain)
    (hsplit : l.entries = done ++ e :: rest) {t : Tracker} (ht : Standing done t) :
    t.Admits e (l.behind rest) := by
  have hwritten : e.Written l.flow :=
    h.written e (hsplit ▸ List.mem_append_right _ List.mem_cons_self)
  refine ⟨fun hprev k hk => ?_, ?_, fun hcurrent hinputs => ?_⟩
  · have hne : done ≠ [] := fun hnil => ht.prev hnil hprev
    obtain ⟨k', hhead, htext, _⟩ := h.starts_of_split hsplit hne
    rw [hhead] at hk
    exact Option.some.inj hk ▸ htext
  · cases rest with
    | nil =>
      obtain ⟨k, r, hbehind, hvalue, _, hopens⟩ := h.behind_nil
      rw [hbehind]
      exact hwritten.entersAt hopens fun _ heq => hvalue (Option.some.inj heq)
    | cons e' rest =>
      have hsplit' : l.entries = (done ++ [e]) ++ e' :: rest := by
        rw [hsplit, List.append_assoc]
        rfl
      obtain ⟨k, hhead, _, hopens⟩ := h.starts_of_split hsplit'
        (List.append_ne_nil_of_right_ne_nil _ (List.cons_ne_nil _ _))
      have hbehind : (l.behind (e' :: rest)).head? = e'.tokens.head? := by
        rw [behind_cons, List.head?_append, hhead]
        rfl
      refine hwritten.entersAt (by rw [hbehind, hhead]; exact hopens) fun hnil => ?_
      rw [hbehind]
      have hchain := h.colons
      rw [hsplit] at hchain
      exact (List.isChain_cons_cons.mp (List.isChain_append.mp hchain).2.1).1 hnil
  · obtain ⟨before, e', mid, hdone, hsection, hblock, hmid⟩ := ht.templates hcurrent
    have hnamed : (l.entries.filter (·.name?.isSome)) =
        before.filter (·.name?.isSome) ++ e' :: e :: rest.filter (·.name?.isSome) := by
      have hnone : mid.filter (·.name?.isSome) = [] := by
        refine List.filter_eq_nil_iff.mpr fun m hm => ?_
        rw [hmid m hm]
        exact Bool.false_ne_true
      have hsome {e : EntryTokens} {name : String} (h : e.section? = some name) :
          e.name?.isSome = true := by
        rw [(EntryTokens.section?_eq_some.mp h).1]
        rfl
      rw [hsplit, hdone, List.append_assoc, List.filter_append, List.cons_append, List.filter_cons,
        if_pos (hsome hsection), List.filter_append, hnone, List.filter_cons,
        if_pos (hsome hinputs)]
      rfl
    have hchain := hplain.inputs
    rw [hnamed] at hchain
    have := (List.isChain_cons_cons.mp (List.isChain_append.mp hchain).2.1).1 hsection hinputs
    rw [hblock] at this
    cases this

/-- What is known of the sections after some entries follows from them. -/
theorem Describes.standing (h : l.Describes ks entries) (hplain : l.Plain) {s : Place}
    (hs : s.sections = .empty) (hsplit : l.entries = done ++ rest) :
    Standing done ((⟨none, 0, s⟩ : Tracker).follow (l.behind rest) (l.before done)) := by
  induction done using List.reverseRecOn generalizing rest with
  | nil =>
    obtain ⟨r, hhead, hflat⟩ := h.head
    have hopener : Tracker.textOf? l.opener = none ∧ l.opener.inStream = true ∧
        l.opener ≠ .blockEnd ∧ l.opener ≠ .key ∧ l.opener.depth 0 = 1 := by
      unfold opener
      cases l.flow <;> decide
    have hbefore : l.before [] = (.streamStart :: r) ++ [l.opener] := by
      rw [before, hhead]
      rfl
    have hstart (later : List TokenKind) : ((⟨none, 0, s⟩ : Tracker).follow later
        (.streamStart :: r)).depth = 0 ∧ ((⟨none, 0, s⟩ : Tracker).follow later
          (.streamStart :: r)).place = ⟨true, none, .empty⟩ := by
      rw [Tracker.follow_cons, Tracker.follow_flat hflat fun _ _ h => absurd h Nat.zero_ne_one]
      refine ⟨rfl, ?_⟩
      show (⟨true, none, s.sections⟩ : Place) = _
      rw [hs]
    rw [hbefore, Tracker.follow_append]
    obtain ⟨hdepth, hplace⟩ := hstart ([l.opener] ++ l.behind rest)
    generalize Tracker.follow _ _ (.streamStart :: r) = u at hdepth hplace
    have hread : (u.read l.opener (l.behind rest)).place = ⟨true, none, .empty⟩ := by
      rcases Tracker.read_calm (fun _ _ => hopener.1) hopener.2.1 (l.behind rest) with
        hread | ⟨_, hend, _⟩
      · exact hread.trans hplace
      · exact absurd hend hopener.2.2.1
    refine ⟨?_, ?_, fun _ hkey => ?_, fun name => ?_, fun hcurrent => ?_⟩
    · show l.opener.depth u.depth = 1
      rw [hdepth, hopener.2.2.2.2]
    · exact congrArg Place.reading hread
    · exact hopener.2.2.2.1 (Option.some.inj hkey)
    · rw [show (u.follow (l.behind rest) [l.opener]).place = _ from hread]
      exact ⟨fun h => Bool.noConfusion h, fun ⟨e, he, _⟩ => absurd he List.not_mem_nil⟩
    · rw [show (u.follow (l.behind rest) [l.opener]).place = _ from hread] at hcurrent
      cases hcurrent
  | append_singleton done e ih =>
    have hsplit' : l.entries = done ++ e :: rest := by
      rw [hsplit, List.append_assoc]
      rfl
    have hstanding := ih hsplit'
    have hwritten : e.Written l.flow :=
      h.written e (hsplit' ▸ List.mem_append_right _ List.mem_cons_self)
    rw [before_append, Tracker.follow_append, ← behind_cons]
    exact hstanding.next hwritten (h.admits hplain hsplit' hstanding)

/-- The sections that have been entered at the end are those of the entries. -/
theorem Describes.sections (h : l.Describes ks entries) (hplain : l.Plain) {s : Place}
    (hs : s.sections = .empty) (name : String) :
    ((⟨none, 0, s⟩ : Tracker).follow [] ks).place.sections.contains name = true ↔
      name ∈ Sections.known ∧
        ∃ kv ∈ entries, kv.1.text? = some name ∧ kv.2.isCollection = true := by
  have hstanding := h.standing hplain hs (List.append_nil l.entries).symm
  obtain ⟨k, r, hbehind, _, htext, _⟩ := h.behind_nil
  have hkeys : .key ∉ l.behind [] := by
    have hcloser : mappingCloser l.flow ≠ .key := by cases l.flow <;> decide
    have hlast : .key ∉ l.last := by rcases h.last with hlast | hlast <;> rw [hlast] <;> decide
    intro hmem
    rw [behind, List.flatMap_nil, List.nil_append] at hmem
    rcases List.mem_append.mp hmem with hmem | hmem
    · exact hlast hmem
    · rcases List.mem_cons.mp hmem with heq | hmem
      · exact hcloser heq.symm
      · exact hplain.later hmem
  rw [h.split (List.append_nil l.entries).symm, Tracker.follow_append, List.append_nil,
    Tracker.follow_keyless hkeys, hstanding.sections]
  · constructor
    · rintro ⟨e, he, hsection⟩
      obtain ⟨hknown, htext, hvalue⟩ := (h.written e he).isSection hsection
      refine ⟨hknown, (e.key, e.value), ?_, htext, hvalue⟩
      rw [← h.entries]
      exact List.mem_map_of_mem he
    · rintro ⟨hknown, kv, hkv, htext, hvalue⟩
      rw [← h.entries] at hkv
      obtain ⟨e, he, rfl⟩ := List.mem_map.mp hkv
      exact ⟨e, he, (h.written e he).section_of_bare hknown htext hvalue
        (hplain.bare e he name hknown htext hvalue)⟩
  · intro _ k' hk'
    rw [hbehind] at hk'
    exact Option.some.inj hk' ▸ htext

/-- The tokens up to some of those of the value of an entry. -/
def upTo (l : RootLayout) (done : List EntryTokens) (e : EntryTokens) (a : List TokenKind) :
    List TokenKind :=
  l.before done ++ (e.lead ++ (e.keyTokens ++ (e.colon ++ a)))

/-- Inside its collection a known key is the current section. -/
theorem Describes.current (h : l.Describes ks entries) (hplain : l.Plain) {s : Place}
    (hs : s.sections = .empty) (hsplit : l.entries = done ++ e :: rest) {name : String}
    (hknown : name ∈ Sections.known) (htext : e.key.text? = some name)
    (hvalue : e.value.isCollection = true) {a b : List TokenKind} (hab : e.valueTokens = a ++ b)
    (hinside : b = [] → e.isList = true) :
    ks = l.upTo done e a ++ (b ++ l.behind rest) ∧
      ((⟨none, 0, s⟩ : Tracker).follow (b ++ l.behind rest) (l.upTo done e a)).place.current =
        some name := by
  have hmem : e ∈ l.entries := hsplit ▸ List.mem_append_right _ List.mem_cons_self
  have hwritten := h.written e hmem
  have hbare := hplain.bare e hmem name hknown htext hvalue
  have hsection := hwritten.section_of_bare hknown htext hvalue hbare
  have hstanding := h.standing hplain hs hsplit
  have hbehind : l.behind (e :: rest) =
      (e.lead ++ (e.keyTokens ++ (e.colon ++ a))) ++ (b ++ l.behind rest) := by
    rw [behind_cons, EntryTokens.tokens, hab]
    simp only [List.append_assoc]
  refine ⟨?_, ?_⟩
  · rw [h.split hsplit, hbehind, upTo]
    exact (List.append_assoc _ _ _).symm
  · rw [upTo, Tracker.follow_append, ← hbehind]
    refine hstanding.inside hwritten (h.admits hplain hsplit hstanding) hsection hbare.2 ?_ hab
      hinside
    exact hplain.lists e hmem (by rw [hsection]; rfl)

end Yaml.RootLayout

/-- While a document whose root is a mapping is followed, the current section is the known key in
whose collection the tokens stand, and at the end the sections are the known keys that have a
collection. No bracket closes a sequence right behind the mark of a key in the document. -/
theorem Context.update_follows_sections {text : String} {events : List Event} {start stop : Event}
    {opens : start.kind.opens? = some [.key]} {entries : List (EventTree × EventTree)}
    {closes : stop.kind = .mappingEnd}
    (h : Event.ofFirstDocument .document (Scan.ofList .document text.toList) = .ok events)
    (hroot : (EventTree.mapping start opens entries stop closes).IsDocument events)
    (hkeys : (Element.kinds text).IsChain Parser.KeyHolds) :
    (∃ l : RootLayout, l.Describes (Element.kinds text) entries) ∧
      ∀ l : RootLayout, l.Describes (Element.kinds text) entries → l.Plain →
        ∀ c : Context, c.sections = .empty →
          (∀ done e rest, l.entries = done ++ e :: rest → ∀ name ∈ Sections.known,
            e.key.text? = some name → e.value.isCollection = true →
              ∀ a b, e.valueTokens = a ++ b → (b = [] → e.isList = true) →
                (((Element.views text).take (l.upTo done e a).length).foldl update
                  c).currentSection = some name) ∧
          ∀ name, ((Element.views text).foldl update c).sections.contains name = true ↔
            name ∈ Sections.known ∧
              ∃ kv ∈ entries, kv.1.text? = some name ∧ kv.2.isCollection = true := by
  refine ⟨?_, fun l hl hplain c hc => ⟨?_, fun name => ?_⟩⟩
  · rw [Element.kinds_eq] at hkeys ⊢
    exact RootLayout.exists_describes h hroot hkeys
  · intro done e rest hsplit name hknown htext hvalue a b hab hinside
    obtain ⟨hkinds, hcurrent⟩ := hl.current hplain (s := c.place) hc hsplit hknown htext hvalue hab
      hinside
    have hplace := place_views text c (l.upTo done e a).length
    rw [hkinds, List.take_left, List.drop_left] at hplace
    rwa [← hplace, place_current] at hcurrent
  · have hplace := place_views text c (Element.views text).length
    have hlength : (Element.kinds text).length = (Element.views text).length := List.length_map _
    rw [List.take_length, ← hlength, List.take_length, List.drop_length] at hplace
    rw [← hl.sections hplain (s := c.place) hc name, ← hplace, place_sections]

theorem Context.update_follows_sections_of_list :
    ∃ (entries : List (EventTree × EventTree)) (l : RootLayout),
      l.Describes (Element.kinds "imports:\n- x\ninputs: {a: 1}\n") entries ∧ l.Plain ∧
        (((Element.views "imports:\n- x\ninputs: {a: 1}\n").take 7).foldl update
          {}).currentSection = some "imports" ∧
        ((Element.views "imports:\n- x\ninputs: {a: 1}\n").foldl update
          {}).sections.contains "inputs" = true := by
  let scalar (text : String) (m : Mark) : EventTree := .leaf ⟨.scalar text .plain none none, m⟩ rfl
  let list : EventTree :=
    .sequence ⟨.sequenceStart none none, ⟨9, 2, 0⟩⟩ rfl [scalar "x" ⟨11, 2, 2⟩]
      ⟨.sequenceEnd, ⟨13, 3, 0⟩⟩ rfl
  let braces : EventTree :=
    .mapping ⟨.mappingStart none none, ⟨21, 3, 8⟩⟩ rfl
      [(scalar "a" ⟨22, 3, 9⟩, scalar "1" ⟨25, 3, 12⟩)] ⟨.mappingEnd, ⟨26, 3, 13⟩⟩ rfl
  let imports : EntryTokens :=
    ⟨scalar "imports" ⟨0, 1, 0⟩, list, [.key], [.scalar "imports" .plain], [.value],
      [.blockEntry, .scalar "x" .plain]⟩
  let inputs : EntryTokens :=
    ⟨scalar "inputs" ⟨13, 3, 0⟩, braces, [.key], [.scalar "inputs" .plain], [.value],
      [.flowMappingStart, .key, .scalar "a" .plain, .value, .scalar "1" .plain, .flowMappingEnd]⟩
  let l : RootLayout :=
    ⟨false, [.streamStart], [imports, inputs], [], [.streamEnd]⟩
  let root : EventTree :=
    .mapping ⟨.mappingStart none none, ⟨7, 1, 7⟩⟩ rfl
      (l.entries.map fun e => (e.key, e.value)) ⟨.mappingEnd, ⟨28, 4, 0⟩⟩ rfl
  have hevents : Event.ofFirstDocument .document
      (Scan.ofList .document "imports:\n- x\ninputs: {a: 1}\n".toList) =
        .ok (⟨.documentStart, ⟨7, 1, 7⟩⟩ :: (root.events ++ [⟨.documentEnd, ⟨28, 4, 0⟩⟩])) := by
    decide +kernel
  have hscalar (text : String) (m : Mark) : (scalar text m).Writes [.scalar text .plain] :=
    .leaf (Begins.scalar .nil text .plain)
  have hlist : list.Writes ([] ++ [.blockEntry, .scalar "x" .plain]) :=
    .list rfl (by decide +kernel) (by decide +kernel) rfl (by decide +kernel) rfl
  have hbraces : braces.Writes ([] ++ .flowMappingStart ::
      ([.key, .scalar "a" .plain, .value, .scalar "1" .plain] ++ [.flowMappingEnd])) :=
    .closed rfl (by decide +kernel) (by decide +kernel) rfl (by decide +kernel) rfl
  have hwritten : ∀ e ∈ l.entries, e.Written l.flow := by
    intro e he
    rcases List.mem_cons.mp he with rfl | he
    · exact ⟨⟨true, true, rfl⟩, Or.inl (hscalar _ _), Or.inl ⟨rfl, hlist⟩, by decide +kernel⟩
    · rw [List.mem_singleton.mp he]
      exact ⟨⟨true, true, rfl⟩, Or.inl (hscalar _ _), Or.inl ⟨rfl, hbraces⟩, by decide +kernel⟩
  have hdescribes : l.Describes (Element.kinds "imports:\n- x\ninputs: {a: 1}\n")
      (l.entries.map fun e => (e.key, e.value)) :=
    ⟨by decide +kernel, rfl, ⟨[], rfl, by decide +kernel⟩, hwritten, by decide +kernel,
      by decide +kernel, Or.inl rfl⟩
  have hplain : l.Plain :=
    ⟨by decide +kernel, by decide +kernel, by decide +kernel, by decide +kernel⟩
  have hdocument : root.IsDocument
      (⟨.documentStart, ⟨7, 1, 7⟩⟩ :: (root.events ++ [⟨.documentEnd, ⟨28, 4, 0⟩⟩])) :=
    ⟨_, _, rfl, rfl, rfl⟩
  have hkeys : (Element.kinds "imports:\n- x\ninputs: {a: 1}\n").IsChain Parser.KeyHolds := by
    decide +kernel
  obtain ⟨_, hfollows⟩ := update_follows_sections hevents hdocument hkeys
  obtain ⟨hcurrent, hsections⟩ := hfollows l hdescribes hplain {} rfl
  refine ⟨_, l, hdescribes, hplain, ?_, ?_⟩
  · have hlength : (l.upTo [] imports imports.valueTokens).length = 7 := by decide +kernel
    have himports := hcurrent [] imports [inputs] rfl "imports" (by decide +kernel) rfl rfl
      imports.valueTokens [] (List.append_nil _).symm fun _ => rfl
    rw [hlength] at himports
    exact himports
  · have hmem : (inputs.key, inputs.value) ∈ l.entries.map fun e => (e.key, e.value) :=
      List.mem_cons_of_mem _ List.mem_cons_self
    have hinputs := (hsections "inputs").mpr ⟨by decide +kernel, _, hmem, rfl, rfl⟩
    exact hinputs

/-- An anchor before a value hides it: the inputs of this document are a mapping, and are neither
the current section nor one that has been entered. -/
theorem Context.update_misses_anchored_section :
    ∃ (events : List Event) (start stop : Event) (opens : start.kind.opens? = some [.key])
      (entries : List (EventTree × EventTree)) (closes : stop.kind = .mappingEnd),
      Event.ofFirstDocument .document (Scan.ofList .document "inputs: &a\n  x: 1\n".toList) =
          .ok events ∧
        (EventTree.mapping start opens entries stop closes).IsDocument events ∧
        entries.map (fun kv => (kv.1.text?, kv.2.isCollection)) = [(some "inputs", true)] ∧
        (((Element.views "inputs: &a\n  x: 1\n").take 10).foldl update {}).currentSection =
          some "" ∧
        ((Element.views "inputs: &a\n  x: 1\n").foldl update {}).sections.contains "inputs" =
          false := by
  let scalar (text : String) (m : Mark) : EventTree := .leaf ⟨.scalar text .plain none none, m⟩ rfl
  let entries : List (EventTree × EventTree) :=
    [(scalar "inputs" ⟨0, 1, 0⟩,
      .mapping ⟨.mappingStart (some "a") none, ⟨14, 2, 3⟩⟩ rfl
        [(scalar "x" ⟨13, 2, 2⟩, scalar "1" ⟨16, 2, 5⟩)] ⟨.mappingEnd, ⟨18, 3, 0⟩⟩ rfl)]
  refine ⟨_, ⟨.mappingStart none none, ⟨6, 1, 6⟩⟩, ⟨.mappingEnd, ⟨18, 3, 0⟩⟩, rfl, entries, rfl,
    ?_, ⟨⟨.documentStart, ⟨6, 1, 6⟩⟩, ⟨.documentEnd, ⟨18, 3, 0⟩⟩, rfl, rfl, rfl⟩, rfl, ?_, ?_⟩
  · decide +kernel
  · decide +kernel
  · decide +kernel

end Blueprint
