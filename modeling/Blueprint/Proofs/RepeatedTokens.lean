import Blueprint.Lint.Context

/-!
A token that is met again changes nothing: a context that follows it twice is where it was after the
first time, in every table, wherever it was before.
-/

namespace Blueprint

namespace Table

variable {α : Type} (key : String) (value : α)

theorem insertEntry_insertEntry (entries : List (String × α)) :
    insertEntry key value (insertEntry key value entries) = insertEntry key value entries := by
  induction entries with
  | nil => rw [insertEntry, insertEntry, if_pos rfl]
  | cons entry r ih =>
    obtain ⟨k, v⟩ := entry
    rw [insertEntry]
    split
    · rw [insertEntry, if_pos rfl]
    next hne =>
      split
      · rw [insertEntry, if_pos rfl]
      next hlt => rw [insertEntry, if_neg hne, if_neg hlt, ih]

theorem insert_insert (t : Table α) :
    (t.insert key value).insert key value = t.insert key value :=
  congrArg mk (insertEntry_insertEntry key value t.entries)

end Table

namespace Context

open Yaml (TokenKind)

/-- Enters a section, if there is one to enter. -/
def enterAny (c : Context) (name? : Option String) : Context :=
  name?.elim c c.enter

/-- Enters a part of a node template, if there is one and the context is among templates. -/
def enterPartAny (c : Context) (part? : Option String) : Context :=
  if c.inTemplates then { c with currentPart := part?.or c.currentPart }
  else { c with currentPart := none }

/-- Follows a token of some kind that enters the given section and the given part. -/
def move (c : Context) (kind : TokenKind) (name? part? : Option String) : Context :=
  match kind with
  | .streamStart =>
    { c with reading := true, currentSection := none, currentPart := none, finished := false }
  | .streamEnd => { c with reading := false, finished := true }
  | _ => if c.reading then (c.enterAny name?).enterPartAny part? else c

theorem update_eq_move (c : Context) (t : TokenView) :
    c.update t = c.move t.curr.kind (sectionAt t) (templatePartAt t) := by
  unfold update move enterAny
  cases sectionAt t <;> rfl

theorem move_of_inner (c : Context) {kind : TokenKind} (hstart : kind ≠ .streamStart)
    (hend : kind ≠ .streamEnd) (name? part? : Option String) :
    c.move kind name? part? = if c.reading then (c.enterAny name?).enterPartAny part? else c := by
  cases kind <;> first | rfl | exact absurd rfl hstart | exact absurd rfl hend

/-- The second time the section is the current one. The name is then not that of the inputs of a
node template, unless it was the first time as well. -/
theorem enter_enter (c : Context) (name : String) : (c.enter name).enter name = c.enter name := by
  by_cases hkeep : (c.inTemplates && name == "inputs") = true
  · have hself : c.enter name = c := if_pos hkeep
    rw [hself, hself]
  · have hfirst : c.enter name = { c with
        sections := if name = "" then c.sections else c.sections.add name
        currentSection := some name } := if_neg hkeep
    have hsecond : ¬((c.enter name).inTemplates && name == "inputs") = true := by
      rw [hfirst]
      show ¬((some name == some "node_templates") && name == "inputs") = true
      intro h
      obtain ⟨htemplates, hinputs⟩ := Bool.and_eq_true_iff.mp h
      have hname := Option.some.inj (beq_iff_eq.mp htemplates)
      rw [beq_iff_eq.mp hinputs] at hname
      exact absurd hname (by decide)
    have hsections : (if name = "" then (c.enter name).sections
        else (c.enter name).sections.add name) = (c.enter name).sections := by
      rw [hfirst]
      dsimp only
      split
      · rfl
      · exact Table.insert_insert name () c.sections
    calc (c.enter name).enter name
      _ = { c.enter name with
          sections := if name = "" then (c.enter name).sections
            else (c.enter name).sections.add name
          currentSection := some name } := if_neg hsecond
      _ = { c.enter name with currentSection := some name } := by rw [hsections]
      _ = c.enter name := by rw [hfirst]

theorem enterAny_enterAny (c : Context) (name? : Option String) :
    (c.enterAny name?).enterAny name? = c.enterAny name? := by
  cases name? with
  | none => rfl
  | some name => exact c.enter_enter name

theorem enterAny_withPart (c : Context) (name? part? : Option String) :
    ({ c with currentPart := part? } : Context).enterAny name? =
      { c.enterAny name? with currentPart := part? } := by
  cases name? with
  | none => rfl
  | some name =>
    show ({ c with currentPart := part? } : Context).enter name =
      { c.enter name with currentPart := part? }
    unfold enter
    split
    next h => rw [if_pos (show (c.inTemplates && name == "inputs") = true from h)]
    next h => rw [if_neg (show ¬(c.inTemplates && name == "inputs") = true from h)]

theorem enterAny_reading (c : Context) (name? : Option String) :
    (c.enterAny name?).reading = c.reading := by
  cases name? with
  | none => rfl
  | some name =>
    show (c.enter name).reading = c.reading
    unfold enter
    split <;> rfl

/-- Entering a part changes the current part at most, and to the same one again. -/
theorem exists_enterPartAny (c : Context) (part? : Option String) :
    ∃ current, c.enterPartAny part? = { c with currentPart := current } ∧
      ({ c with currentPart := current } : Context).enterPartAny part? =
        { c with currentPart := current } := by
  cases htemplates : c.inTemplates with
  | true =>
    have hpart (current : Option String) :
        ({ c with currentPart := current } : Context).enterPartAny part? =
          { c with currentPart := part?.or current } := if_pos htemplates
    refine ⟨part?.or c.currentPart, hpart c.currentPart, ?_⟩
    rw [hpart, ← Option.or_assoc, Option.or_self]
  | false =>
    have hpart (current : Option String) :
        ({ c with currentPart := current } : Context).enterPartAny part? =
          { c with currentPart := none } := if_neg (Bool.eq_false_iff.mp htemplates)
    exact ⟨none, hpart c.currentPart, hpart none⟩

/-- Within the stream a section is entered first, then a part. Neither step undoes the other, so
that both can be repeated together. -/
theorem move_move (c : Context) (kind : TokenKind) (name? part? : Option String) :
    (c.move kind name? part?).move kind name? part? = c.move kind name? part? := by
  by_cases hstart : kind = .streamStart
  · subst hstart
    rfl
  by_cases hend : kind = .streamEnd
  · subst hend
    rfl
  simp only [move_of_inner _ hstart hend]
  by_cases hreading : c.reading = true
  · obtain ⟨current, hpart, hagain⟩ := (c.enterAny name?).exists_enterPartAny part?
    rw [if_pos hreading, hpart, if_pos ((c.enterAny_reading name?).trans hreading),
      enterAny_withPart, enterAny_enterAny, hagain]
  · rw [if_neg hreading, if_neg hreading]

/-- Following a token again changes nothing. This does not depend on the names of the sections and
of the parts of a template that are known: it holds whatever section and part the token is taken to
enter. -/
theorem update_update (c : Context) (t : TokenView) :
    (c.update t).update t = c.update t ∧
      ∀ name? part?, (c.move t.curr.kind name? part?).move t.curr.kind name? part? =
        c.move t.curr.kind name? part? := by
  refine ⟨?_, c.move_move t.curr.kind⟩
  rw [update_eq_move, update_eq_move, move_move]

end Context

end Blueprint
