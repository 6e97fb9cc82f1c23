import Blueprint.Proofs.RootLayout
import Blueprint.Proofs.SectionTracker

/-!
The sections that are met in the entries of a root: each entry is read as a whole, and what has been
met after some entries follows from them.
-/

namespace Blueprint

open Yaml

namespace Place

variable {s : Place} {k : TokenKind}

theorem step_inStream (hk : k.inStream = true) (name? : Option String) :
    s.step k name? = if s.reading then (name?.map s.enter).getD s else s := by
  have hstart : k ≠ .streamStart := by
    rintro rfl
    cases hk
  have hstop : k ≠ .streamEnd := by
    rintro rfl
    cases hk
  rw [step, if_neg hstart, if_neg hstop]

theorem step_none (hk : k.inStream = true) : s.step k none = s := by
  rw [step_inStream hk]
  split <;> rfl

theorem step_some (hk : k.inStream = true) (hs : s.reading = true) (name : String) :
    s.step k (some name) = s.enter name := by
  rw [step_inStream hk, if_pos hs]
  rfl

/-- The sections are the same, and the current one has at most been left. -/
def Keeps (s s' : Place) : Prop :=
  s' = s ∨ s' = s.leave

namespace Keeps

variable {s' s'' : Place}

theorem reading (h : s.Keeps s') : s'.reading = s.reading := by
  rcases h with rfl | rfl <;> rfl

theorem sections (h : s.Keeps s') : s'.sections = s.sections := by
  rcases h with rfl | rfl <;> rfl

theorem trans (h : s.Keeps s') (h' : s'.Keeps s'') : s.Keeps s'' := by
  rcases h' with rfl | rfl
  · exact h
  · rcases h with rfl | rfl <;> exact Or.inr rfl

theorem current {name : String} (h : s.Keeps s') (hname : name ≠ "")
    (hcurrent : s'.current = some name) : s.current = some name := by
  rcases h with rfl | rfl
  · exact hcurrent
  · exact absurd (Option.some.inj hcurrent).symm hname

end Keeps

end Place

namespace Tracker

variable {t : Tracker} {k : TokenKind} {ks ahead : List TokenKind} {floor n : Nat}

/-- The token is not the name of an entry of the root. -/
def Calm (t : Tracker) (k : TokenKind) : Prop :=
  t.depth = 1 → t.prev = some .key → textOf? k = none

theorem sectionAt_calm (h : t.Calm k) (ahead : List TokenKind) :
    t.sectionAt k ahead = none ∨
      t.sectionAt k ahead = some "" ∧ k = .blockEnd ∧ t.depth = 2 := by
  unfold sectionAt
  split
  next hend => exact Or.inr ⟨rfl, hend⟩
  · refine Or.inl ?_
    split
    next hdepth =>
      split
      next hkey =>
        rw [h hdepth hkey]
        rfl
      · rfl
    · rfl

/-- Only the end of a block among the values of the root leaves a section. -/
theorem read_calm (h : t.Calm k) (hk : k.inStream = true) (ahead : List TokenKind) :
    (t.read k ahead).place = t.place ∨
      (t.read k ahead).place = t.place.leave ∧ k = .blockEnd ∧ t.depth = 2 := by
  show t.place.step k (t.sectionAt k ahead) = t.place ∨ _
  rcases sectionAt_calm h ahead with hnone | ⟨hempty, hend⟩
  · rw [hnone]
    exact Or.inl (Place.step_none hk)
  · cases hreading : t.place.reading with
    | true =>
      refine Or.inr ⟨?_, hend⟩
      show t.place.step k (t.sectionAt k ahead) = _
      rw [hempty, Place.step_some hk hreading, Place.enter_empty]
    | false =>
      rw [Place.step_inStream hk, hreading]
      exact Or.inl rfl

/-- Flat tokens without a name keep the place. -/
theorem follow_flat (hflat : ∀ k ∈ ks, k.isFlat = true)
    (hcalm : ∀ k ∈ ks, t.depth = 1 → textOf? k = none) (ahead : List TokenKind) :
    t.follow ahead ks = ⟨ks.getLast?.or t.prev, t.depth, t.place⟩ := by
  induction ks generalizing t with
  | nil => rfl
  | cons k r ih =>
    have hk := hflat k List.mem_cons_self
    have hread : t.read k (r ++ ahead) = ⟨some k, t.depth, t.place⟩ := by
      have hplace : (t.read k (r ++ ahead)).place = t.place := by
        rcases read_calm (fun hdepth _ => hcalm k List.mem_cons_self hdepth)
          (TokenKind.inStream_of_isFlat hk) (r ++ ahead) with hplace | ⟨_, rfl, _⟩
        · exact hplace
        · cases hk
      rw [← hplace, read, TokenKind.depth_of_isFlat hk]
    have hrest := ih (t := ⟨some k, t.depth, t.place⟩)
      (fun x hx => hflat x (List.mem_cons_of_mem k hx))
      fun x hx => hcalm x (List.mem_cons_of_mem k hx)
    rw [follow_cons, hread, hrest, List.getLast?_cons]
    cases r.getLast? <;> rfl

/-- Tokens of a value keep the place, unless a block among them ends at the depth of the value. -/
theorem follow_deep (hdeep : Deep floor n ks) (hdepth : t.depth = n + 1)
    (hcalm : ∀ k ∈ ks.head?, t.Calm k) (ahead : List TokenKind) :
    t.place.Keeps (t.follow ahead ks).place ∧
      (1 ≤ floor ∨ .blockEnd ∉ ks → (t.follow ahead ks).place = t.place) := by
  induction ks generalizing t n with
  | nil => exact ⟨Or.inl rfl, fun _ => rfl⟩
  | cons k r ih =>
    obtain ⟨hcloses, hkey, hstream, hr⟩ := hdeep
    have hdepth' : (t.read k (r ++ ahead)).depth = k.depth n + 1 := by
      show k.depth t.depth = _
      rw [hdepth, TokenKind.depth_succ fun hc => Nat.zero_lt_of_lt (hcloses hc)]
    have hcalm' : ∀ k' ∈ r.head?, (t.read k (r ++ ahead)).Calm k' := by
      intro k' _ hone hprev
      obtain rfl : k = .key := Option.some.inj hprev
      have hlt := hkey rfl
      rw [hdepth', TokenKind.depth_of_isFlat rfl] at hone
      omega
    obtain ⟨hkeeps, hsame⟩ := ih hr hdepth' hcalm'
    rcases read_calm (hcalm k rfl) hstream (r ++ ahead) with hread | ⟨hread, hend, htwo⟩
    · rw [hread] at hkeeps hsame
      refine ⟨hkeeps, fun h => hsame (h.imp id fun hnot hmem => ?_)⟩
      exact hnot (List.mem_cons_of_mem k hmem)
    · rw [hread] at hkeeps
      refine ⟨Place.Keeps.trans (Or.inr rfl) hkeeps, fun h => ?_⟩
      rcases h with hfloor | hnot
      · have hlt := hcloses (by rw [hend]; rfl)
        omega
      · exact absurd (hend ▸ List.mem_cons_self) hnot

/-- Tokens without a key enter no section. -/
theorem follow_keyless (hkeys : .key ∉ ks)
    (hcalm : t.prev = some .key → ∀ k ∈ ks.head?, textOf? k = none) (ahead : List TokenKind) :
    (t.follow ahead ks).place.sections = t.place.sections := by
  induction ks generalizing t with
  | nil => rfl
  | cons k r ih =>
    have hread : (t.read k (r ++ ahead)).place.sections = t.place.sections := by
      cases hk : k.inStream with
      | true =>
        rcases read_calm (fun _ hkey => hcalm hkey k rfl) hk (r ++ ahead) with h | ⟨h, _⟩ <;>
          rw [h]
        rfl
      | false => cases k <;> first | rfl | cases hk
    rw [follow_cons, ih (fun hmem => hkeys (List.mem_cons_of_mem k hmem)), hread]
    intro hkey
    exact absurd (Option.some.inj hkey ▸ List.mem_cons_self) hkeys

end Tracker

namespace Yaml.EntryTokens

/-- The name of an entry whose key is a scalar right behind its mark. -/
def name? (e : EntryTokens) : Option String :=
  match e.keyTokens with
  | [.scalar text _] => if .key ∈ e.lead then some text else none
  | _ => none

/-- The section that the entry is, if its value starts right behind the colon. -/
def section? (e : EntryTokens) : Option String :=
  e.name?.filter fun name =>
    Sections.known.contains name && Tracker.entersAt (e.colon ++ e.valueTokens)

/-- Whether the value is an indented block without an anchor and a tag. -/
def isBlock (e : EntryTokens) : Bool :=
  e.valueTokens.head?.any fun k => k.closer? == some .blockEnd

/-- Whether the value is a list at the column of its key, without an anchor and a tag. -/
def isList (e : EntryTokens) : Bool :=
  e.valueTokens.head? == some .blockEntry

theorem name?_eq_some {e : EntryTokens} {name : String} :
    e.name? = some name ↔ .key ∈ e.lead ∧ ∃ style, e.keyTokens = [.scalar name style] := by
  unfold name?
  split
  next text style heq =>
    rw [heq]
    split
    next hkey =>
      refine ⟨fun h => ⟨hkey, style, by rw [Option.some.inj h]⟩, fun ⟨_, style', h⟩ => ?_⟩
      cases h
      rfl
    next hkey => exact ⟨fun h => (by cases h), fun h => absurd h.1 hkey⟩
  next hne => exact ⟨fun h => (by cases h), fun ⟨_, style, h⟩ => absurd h (hne name style)⟩

variable {flow : Bool} {e : EntryTokens}

/-- The mark and the comma before a key are flat, and neither is a text. -/
theorem Written.lead_flat (h : e.Written flow) :
    ∀ k ∈ e.lead, k.isFlat = true ∧ Tracker.textOf? k = none := by
  obtain ⟨first, marked, hlead⟩ := h.lead
  rw [hlead]
  cases flow <;> cases first <;> cases marked <;> decide

theorem Written.lead_last (h : e.Written flow) :
    (.key ∈ e.lead → e.lead.getLast? = some .key) ∧
      (.key ∉ e.lead → e.lead = [] ∨ e.lead = [.flowEntry]) := by
  obtain ⟨first, marked, hlead⟩ := h.lead
  rw [hlead]
  cases flow <;> cases first <;> cases marked <;> decide

theorem Written.colon_flat (h : e.Written flow) :
    ∀ k ∈ e.colon, k.isFlat = true ∧ Tracker.textOf? k = none := by
  have hcolon : e.colon = [] ∨ e.colon = [.value] := by
    rcases h.value with ⟨hcolon, _⟩ | ⟨hcolon, _⟩
    · exact Or.inr hcolon
    · exact hcolon
  rcases hcolon with hcolon | hcolon <;> rw [hcolon] <;> decide

theorem Written.deep (h : e.Written flow) :
    (Deep 0 0 e.keyTokens ∧ depthAfter 0 e.keyTokens = 0) ∧
      (Deep 0 0 e.valueTokens ∧ depthAfter 0 e.valueTokens = 0) := by
  refine ⟨?_, ?_⟩
  · rcases h.key with hwrites | ⟨hnil, _⟩
    · exact hwrites.deep
    · rw [hnil]
      exact ⟨trivial, rfl⟩
  · rcases h.value with ⟨_, hwrites⟩ | ⟨_, hnil, _⟩
    · exact hwrites.deep
    · rw [hnil]
      exact ⟨trivial, rfl⟩

/-- What follows an entry does not decide whether it is a section. -/
theorem Written.entersAt (h : e.Written flow) {ahead : List TokenKind}
    (hopens : ahead.head?.any Context.opensCollection = false)
    (hcolon : e.colon = [] → ahead.head? ≠ some .value) :
    Tracker.entersAt (e.colon ++ (e.valueTokens ++ ahead)) =
      Tracker.entersAt (e.colon ++ e.valueTokens) := by
  have hnil : Tracker.entersAt (.value :: ahead) = false := by
    cases ahead with
    | nil => rfl
    | cons k r => exact hopens
  have hnone (hcolon : ahead.head? ≠ some .value) : Tracker.entersAt ahead = false := by
    rw [Tracker.entersAt, beq_eq_false_iff_ne.mpr hcolon]
    rfl
  rcases h.value with ⟨hvalue, hwrites⟩ | ⟨hvalue | hvalue, hempty, _⟩
  · rw [hvalue]
    cases hks : e.valueTokens with
    | nil => exact hnil
    | cons k r => rfl
  · rw [hvalue, hempty]
    exact hnone (hcolon hvalue)
  · rw [hvalue, hempty]
    exact hnil

end Yaml.EntryTokens

namespace Tracker

variable {t : Tracker} {flow : Bool} {e : EntryTokens} {ahead : List TokenKind}

/-- The tracker before the value of an entry, in front of what is to come. -/
def beforeValue (t : Tracker) (e : EntryTokens) (ahead : List TokenKind) : Tracker :=
  t.follow (e.valueTokens ++ ahead) (e.lead ++ (e.keyTokens ++ e.colon))

theorem follow_entry (t : Tracker) (e : EntryTokens) (a b ahead : List TokenKind)
    (h : e.valueTokens = a ++ b) :
    t.follow (b ++ ahead) (e.lead ++ (e.keyTokens ++ (e.colon ++ a))) =
      (t.beforeValue e ahead).follow (b ++ ahead) a := by
  have hregroup : e.lead ++ (e.keyTokens ++ (e.colon ++ a)) =
      (e.lead ++ (e.keyTokens ++ e.colon)) ++ a := by
    simp only [List.append_assoc]
  rw [hregroup, follow_append, beforeValue, h, List.append_assoc]

/-- The name of an entry enters its section, or leaves the one before. -/
theorem read_name {name : String} {style : ScalarStyle} (hname : e.name? = some name)
    (hdepth : t.depth = 1) (hprev : t.prev = some .key) (hreading : t.place.reading = true)
    (hahead : entersAt ahead = entersAt (e.colon ++ e.valueTokens)) :
    (t.read (.scalar name style) ahead).place = t.place.enter (e.section?.getD "") := by
  have hsection : t.sectionAt (.scalar name style) ahead = some (e.section?.getD "") := by
    rw [sectionAt, if_neg fun h => TokenKind.noConfusion h.1, if_pos hdepth, if_pos hprev, hahead,
      EntryTokens.section?, hname, Option.filter_some]
    show some (if (Sections.known.contains name && entersAt (e.colon ++ e.valueTokens)) = true
      then name else "") = _
    split <;> rfl
  show t.place.step (.scalar name style) (t.sectionAt _ ahead) = _
  rw [hsection, Place.step_some rfl hreading]

/-- An entry is named by its key or keeps the place up to its value. -/
theorem beforeValue_place (hwritten : e.Written flow) (hdepth : t.depth = 1)
    (hreading : t.place.reading = true)
    (hcalm : t.prev = some .key → ∀ k ∈ e.tokens.head?, textOf? k = none)
    (hahead : entersAt (e.colon ++ (e.valueTokens ++ ahead)) =
      entersAt (e.colon ++ e.valueTokens)) :
    (t.beforeValue e ahead).depth = 1 ∧
      (e.valueTokens ≠ [] → (t.beforeValue e ahead).prev = some .value) ∧
      (e.name?.isSome → (t.beforeValue e ahead).place = t.place.enter (e.section?.getD "")) ∧
      (e.name? = none → t.place.Keeps (t.beforeValue e ahead).place) := by
  have hlead (later : List TokenKind) :
      t.follow later e.lead = ⟨e.lead.getLast?.or t.prev, 1, t.place⟩ := by
    rw [← hdepth]
    exact follow_flat (fun k hk => (hwritten.lead_flat k hk).1)
      (fun k hk _ => (hwritten.lead_flat k hk).2) later
  have hcolon (u : Tracker) (later : List TokenKind) :
      u.follow later e.colon = ⟨e.colon.getLast?.or u.prev, u.depth, u.place⟩ :=
    follow_flat (fun k hk => (hwritten.colon_flat k hk).1)
      (fun k hk _ => (hwritten.colon_flat k hk).2) later
  rw [beforeValue, follow_append, follow_append, hlead, hcolon]
  refine ⟨?_, fun hne => ?_, fun hsome => ?_, fun hnone => ?_⟩
  · rw [follow_depth, hwritten.deep.1.1.depthAfter_succ, hwritten.deep.1.2]
  · rcases hwritten.value with ⟨hvalue, _⟩ | ⟨_, hnil, _⟩
    · rw [hvalue]
      rfl
    · exact absurd hnil hne
  · obtain ⟨name, hname⟩ := Option.isSome_iff_exists.mp hsome
    obtain ⟨hkey, style, htokens⟩ := EntryTokens.name?_eq_some.mp hname
    rw [htokens]
    refine read_name hname rfl ?_ hreading hahead
    rw [hwritten.lead_last.1 hkey]
    rfl
  · refine (follow_deep hwritten.deep.1.1 rfl (fun k hk _ hprev => ?_) _).1
    -- a scalar behind the mark of a key would be the name
    cases k with
    | scalar text style =>
      exfalso
      obtain ⟨r, hr⟩ := List.head?_eq_some_iff.mp hk
      rcases hwritten.key with hwrites | ⟨hnil, _⟩
      · rw [hr] at hwrites
        obtain ⟨rfl, _⟩ := hwrites.eq_scalar
        have hkey : .key ∉ e.lead := fun hmem => by
          rw [EntryTokens.name?_eq_some.mpr ⟨hmem, style, hr⟩] at hnone
          cases hnone
        rcases hwritten.lead_last.2 hkey with hlead | hlead
        · rw [hlead] at hprev
          have htext := hcalm hprev (.scalar text style) (by
            rw [EntryTokens.tokens, hlead, hr]
            rfl)
          cases htext
        · rw [hlead] at hprev
          cases hprev
      · rw [hnil] at hr
        cases hr
    | _ => rfl

/-- A value that is an indented block leaves its section at its end. -/
theorem follow_block {v : EventTree} {ks : List TokenKind} (hwrites : v.Writes ks)
    (hblock : ks.head?.any (fun k => k.closer? == some .blockEnd) = true) (hdepth : t.depth = 1)
    (hreading : t.place.reading = true) (ahead : List TokenKind) :
    (t.follow ahead ks).place = t.place.leave := by
  cases ks with
  | nil => cases hblock
  | cons o r =>
    have ho : o.closer? = some .blockEnd := eq_of_beq hblock
    obtain ⟨_, inner, rfl, hinner, hdepthAfter⟩ := hwrites.eq_closed ho
    have hdeep : Deep 1 0 (o :: inner) := .of_opens ho hinner
    have hcalm : ∀ k ∈ (o :: inner).head?, t.Calm k := by
      intro k hk _ _
      obtain rfl := Option.some.inj hk
      cases o <;> first | rfl | cases ho
    have hplace := (follow_deep hdeep hdepth hcalm ([.blockEnd] ++ ahead)).2 (Or.inl le_rfl)
    have htwo : (t.follow ([.blockEnd] ++ ahead) (o :: inner)).depth = 2 := by
      rw [follow_depth, hdepth, hdeep.depthAfter_succ, depthAfter_cons, TokenKind.depth_of_opens ho,
        hdepthAfter]
    rw [← List.cons_append, follow_append]
    generalize t.follow ([.blockEnd] ++ ahead) (o :: inner) = u at hplace htwo
    show u.place.step .blockEnd (u.sectionAt .blockEnd ahead) = _
    rw [sectionAt, if_pos ⟨rfl, htwo⟩, Place.step_some rfl (by rw [hplace]; exact hreading),
      Place.enter_empty, hplace]

/-- Inside a value that is a collection, the place stays the same. -/
theorem follow_inside {v : EventTree} {a b : List TokenKind} (hwrites : v.Writes (a ++ b))
    (hv : v.isCollection = true) (hbare : v.start.kind.isBare = true)
    (hinside : b = [] → (a ++ b).head? = some .blockEntry)
    (hlist : (a ++ b).head? = some .blockEntry → .blockEnd ∉ a ++ b) (hdepth : t.depth = 1)
    (hprev : t.prev = some .value) (ahead : List TokenKind) :
    (t.follow ahead a).place = t.place := by
  have hcalm : ∀ k ∈ a.head?, t.Calm k := by
    intro k _ _ hkey
    rw [hprev] at hkey
    cases hkey
  rcases hwrites.head_of_bare hv hbare with ⟨o, c, hhead, ho⟩ | hhead
  · obtain ⟨r, hr⟩ := List.head?_eq_some_iff.mp hhead
    have hclosed := hwrites
    rw [hr] at hclosed
    obtain ⟨_, inner, rfl, hinner, _⟩ := hclosed.eq_closed ho
    have hdeep : Deep 1 0 (o :: inner) := .of_opens ho hinner
    -- the token that closes the collection is not among those before the end
    have hne : b ≠ [] := by
      intro hnil
      rw [hinside hnil] at hhead
      cases Option.some.inj hhead
      cases ho
    obtain ⟨front, last, rfl⟩ : ∃ front last, b = front ++ [last] :=
      ⟨b.dropLast, b.getLast hne, (List.dropLast_append_getLast hne).symm⟩
    have hfront : a ++ front = o :: inner := by
      have : (a ++ front) ++ [last] = (o :: inner) ++ [c] := by
        rw [List.append_assoc, hr, List.cons_append]
      exact (List.append_inj' this rfl).1
    rw [← hfront] at hdeep
    exact (follow_deep (deep_append.mp hdeep).1 hdepth hcalm ahead).2 (Or.inl le_rfl)
  · refine (follow_deep (deep_append.mp hwrites.deep.1).1 hdepth hcalm ahead).2 (Or.inr ?_)
    exact fun hmem => hlist hhead (List.mem_append_left b hmem)

end Tracker

end Blueprint
