import Blueprint.Document.Generic
import Blueprint.Proofs.ParserMatching
import Blueprint.Setting.Read
import Blueprint.Text.Source

/-!
The events of a document depend on the kinds of its tokens and hardly on their places. Tokens that
are alike, up to the spelling of some booleans, lead to events that are alike.
-/

namespace Blueprint

/-- A boolean in its usual spelling; other texts stay. -/
def Generic.respell (text : String) : String :=
  match ofPlain text with
  | .bool true => "true"
  | .bool false => "false"
  | _ => text

/-- Two texts of which the second may spell some of the words of the first in the usual way. -/
structure Rewriting where
  old : Source
  new : Source
  words : List String

namespace Yaml

/-- The kinds of two tokens are the same up to the spelling of one of the words. -/
inductive TokenKind.Alike (words : List String) : TokenKind → TokenKind → Prop where
  | same (k : TokenKind) : Alike words k k
  | boolean (text : String) (h : text ∈ words) :
    Alike words (.scalar text .plain) (.scalar (Generic.respell text) .plain)

/-- The kind with one of the words in its usual spelling. -/
def TokenKind.respelt (words : List String) : TokenKind → TokenKind
  | .scalar text .plain =>
    .scalar (if text ∈ words then Generic.respell text else text) .plain
  | k => k

theorem TokenKind.alike_iff {words : List String} {k k' : TokenKind} :
    TokenKind.Alike words k k' ↔ k' = k ∨ k' = k.respelt words := by
  constructor
  · intro h
    cases h with
    | same => exact Or.inl rfl
    | boolean text h =>
      right
      dsimp only [respelt]
      rw [if_pos h]
  · rintro (rfl | rfl)
    · exact .same k'
    · unfold respelt
      split
      · split
        next h => exact .boolean _ h
        · exact .same _
      · exact .same _

instance (words : List String) (k k' : TokenKind) : Decidable (TokenKind.Alike words k k') :=
  decidable_of_iff _ TokenKind.alike_iff.symm

/-- The same for the kinds of events. -/
inductive EventKind.Alike (words : List String) : EventKind → EventKind → Prop where
  | same (k : EventKind) : Alike words k k
  | boolean (text : String) (anchor : Option String) (tag : Option Tag) (h : text ∈ words) :
    Alike words (.scalar text .plain anchor tag) (.scalar (Generic.respell text) .plain anchor tag)

/-- A tilde stands at both places or at none. A missing node is told from a tilde by this. -/
def TildeAlike (w : Rewriting) (m m' : Mark) : Prop :=
  w.old.char? m.index = some '~' ↔ w.new.char? m'.index = some '~'

instance (w : Rewriting) (m m' : Mark) : Decidable (TildeAlike w m m') :=
  inferInstanceAs (Decidable (_ ↔ _))

structure Token.Alike (w : Rewriting) (t t' : Token) : Prop where
  kind : TokenKind.Alike w.words t.kind t'.kind
  tilde : TildeAlike w t.mark t'.mark

instance (w : Rewriting) (t t' : Token) : Decidable (Token.Alike w t t') :=
  decidable_of_iff (TokenKind.Alike w.words t.kind t'.kind ∧ TildeAlike w t.mark t'.mark)
    ⟨fun h => ⟨h.1, h.2⟩, fun h => ⟨h.1, h.2⟩⟩

/-- The place of the end of a mapping is of no account. -/
structure Event.Alike (w : Rewriting) (e e' : Event) : Prop where
  kind : EventKind.Alike w.words e.kind e'.kind
  tilde : e.kind = .mappingEnd ∨ TildeAlike w e.mark e'.mark

/-- Tokens that are alike lead a parser the same way. -/
def Token.Alike.matching (w : Rewriting) : Matching where
  token := Token.Alike w
  list := List.Forall₂ fun t t' => Token.Alike w t.token t'.token
  kind {t t'} h := by
    have hkind := h.kind
    generalize t.kind = k at hkind ⊢
    generalize t'.kind = k' at hkind ⊢
    cases hkind with
    | same => exact .same k
    | boolean => exact .scalars ..
  head h := (List.forall₂_cons.mp h).1
  more h := nomatch h
  tail h _ := (List.forall₂_cons.mp h).2

theorem Token.Alike.matching_total (w : Rewriting) : (matching w).Total :=
  fun h => (List.forall₂_cons.mp h).2

theorem Event.Alike.of_matching {w : Rewriting} {e e' : Event}
    (h : (Token.Alike.matching w).Event e e') : Event.Alike w e e' := by
  cases h with
  | same k _ ht => exact ⟨.same k, Or.inr ht.tilde⟩
  | pairEnd => exact ⟨.same _, Or.inl rfl⟩
  | scalars ht hk hk' anchor tag =>
    have hkind := ht.kind
    rw [hk, hk'] at hkind
    refine ⟨?_, Or.inr ht.tilde⟩
    cases hkind with
    | same => exact .same _
    | boolean _ hword => exact .boolean _ anchor tag hword

/-- The tokens of two texts are alike, one by one. -/
def Scan.Alike (w : Rewriting) (scan scan' : Scan) : Prop :=
  List.Forall₂ (fun t t' => Token.Alike w t.token t'.token) scan.tokens scan'.tokens

instance (w : Rewriting) (scan scan' : Scan) :
    Decidable (Scan.Alike w scan scan') :=
  inferInstanceAs (Decidable (List.Forall₂ _ _ _))

section Events

variable {w : Rewriting} {scan scan' : Scan}

theorem Scan.Alike.eventLimit (h : Scan.Alike w scan scan') :
    Event.eventLimit scan' = Event.eventLimit scan := by
  unfold Event.eventLimit
  rw [h.length_eq]

theorem Scan.Alike.open? (h : Scan.Alike w scan scan') :
    Mirrors (Token.Alike.matching w).Parsers (Parser.ofScan scan).open?
      (Parser.ofScan scan').open? :=
  Matching.Parsers.open? ⟨h, rfl, rfl, rfl, rfl⟩

theorem Event.run_alike {d : Dialect} {p p' : Parser} {stop : EventKind → Bool}
    (hstop : ∀ text style anchor tag, stop (.scalar text style anchor tag) = false)
    (h : (Token.Alike.matching w).Parsers p p') (fuel : Nat) :
    Mirrors (List.Forall₂ (Event.Alike w)) (p.run d stop fuel) (p'.run d stop fuel) := by
  intro es hes
  obtain ⟨es', hes', hmatch⟩ :=
    Matching.Total.run (Token.Alike.matching_total w) h hstop fuel es hes
  exact ⟨es', hes', hmatch.imp fun _ _ => Event.Alike.of_matching⟩

/-- Tokens that are alike lead to the same events. -/
theorem Event.ofFirstDocument_alike (d : Dialect) (h : Scan.Alike w scan scan') :
    Mirrors (List.Forall₂ (Event.Alike w)) (Event.ofFirstDocument d scan)
      (Event.ofFirstDocument d scan') := by
  unfold Event.ofFirstDocument
  rw [h.eventLimit]
  exact h.open?.bind fun p p' hp => Event.run_alike (fun _ _ _ _ => rfl) hp _

theorem Event.ofStream_alike (d : Dialect) (h : Scan.Alike w scan scan') :
    Mirrors (List.Forall₂ (Event.Alike w)) (Event.ofStream d scan) (Event.ofStream d scan') := by
  unfold Event.ofStream
  rw [h.eventLimit]
  exact h.open?.bind fun p p' hp => Event.run_alike (fun _ _ _ _ => rfl) hp _

end Events

end Yaml

end Blueprint

/-!
The value of a settings text depends on the kinds of its tokens alone, not on their places.
-/

namespace Blueprint

open Yaml (Event EventKind Scan)

/-- The tokens of two settings texts are the same, apart from their places. -/
def SameKinds (text text' : String) : Prop :=
  (Scan.ofList .settings text'.toList).tokens.map (·.token.kind) =
    (Scan.ofList .settings text.toList).tokens.map (·.token.kind)

instance (text text' : String) : Decidable (SameKinds text text') :=
  inferInstanceAs (Decidable (_ = _))

/-- Two texts of which no place is looked at. -/
def Rewriting.placeless : Rewriting :=
  ⟨.ofText "", .ofText "", []⟩

theorem SameKinds.alike {text text' : String} (h : SameKinds text text') :
    Scan.Alike .placeless (Scan.ofList .settings text.toList)
      (Scan.ofList .settings text'.toList) := by
  have htilde (m m' : Mark) : Yaml.TildeAlike .placeless m m' := Iff.rfl
  unfold Scan.Alike
  rw [List.forall₂_iff_get]
  obtain hlength := congrArg List.length h
  rw [List.length_map, List.length_map] at hlength
  refine ⟨hlength.symm, fun i hi hi' => ⟨?_, htilde _ _⟩⟩
  have hkind := List.getElem_of_eq h (i := i) (by rwa [List.length_map])
  rw [List.getElem_map, List.getElem_map] at hkind
  rw [List.get_eq_getElem, List.get_eq_getElem, hkind]
  exact .same _

/-- Without words that may be respelt, alike events are of one kind. -/
theorem Yaml.EventKind.Alike.eq {k k' : EventKind} (h : EventKind.Alike [] k k') : k' = k := by
  cases h with
  | same => rfl
  | boolean text anchor tag hword => exact absurd hword List.not_mem_nil

namespace Drafting

theorem step_of_kind {e e' : Event} (h : e'.kind = e.kind) (d : Drafting) :
    d.step e' = d.step e := by
  unfold step
  rw [h]

theorem foldl_step {es es' : List Event} (h : List.Forall₂ (Event.Alike .placeless) es es')
    (d : Drafting) : es'.foldl step d = es.foldl step d := by
  induction h generalizing d with
  | nil => rfl
  | cons he _ ih => rw [List.foldl_cons, List.foldl_cons, step_of_kind he.kind.eq, ih]

end Drafting

theorem countP_of_alike {es es' : List Event} (h : List.Forall₂ (Event.Alike .placeless) es es')
    {p : Event → Bool} (hp : ∀ e e' : Event, e'.kind = e.kind → p e' = p e) :
    es'.countP p = es.countP p := by
  induction h with
  | nil => rfl
  | cons he _ ih => rw [List.countP_cons, List.countP_cons, ih, hp _ _ he.kind.eq]

/-- Texts with the same kinds of tokens have the same tree. -/
theorem DraftDocument.ofText?_of_sameKinds {text text' : String} {document : DraftDocument}
    (h : ofText? text = some document) (hallowed : text'.toList.all isAllowed = true)
    (hkinds : SameKinds text text') : ofText? text' = some document := by
  unfold ofText? at h ⊢
  dsimp only at h ⊢
  rw [hallowed, if_neg (by decide)]
  split at h
  · cases h
  · split at h
    · cases h
    next events hevents =>
      obtain ⟨events', hevents', halike⟩ := Event.ofStream_alike .settings hkinds.alike _ hevents
      rw [hevents']
      have hstarts : events'.countP (fun e => e.kind == .documentStart) =
          events.countP fun e => e.kind == .documentStart :=
        countP_of_alike halike fun e e' he => by rw [he]
      have hparts : events'.countP isNodePart = events.countP isNodePart :=
        countP_of_alike halike fun e e' he => by unfold isNodePart; rw [he]
      dsimp only
      rw [hstarts, hparts, Drafting.foldl_step halike]
      exact h

/-- What may stand in a settings text stands in one that is read. -/
theorem Setting.isAllowed_of_ofText? {text : String} {v : Setting} (h : ofText? text = some v) :
    text.toList.all DraftDocument.isAllowed = true := by
  obtain ⟨document, hdocument, _⟩ := Option.bind_eq_some_iff.mp h
  unfold DraftDocument.ofText? at hdocument
  dsimp only at hdocument
  split at hdocument
  · cases hdocument
  next hall => simpa using hall

/-- Texts with the same kinds of tokens have the same value. -/
theorem Setting.ofText?_of_sameKinds {text text' : String} {v : Setting}
    (h : ofText? text = some v) (hallowed : text'.toList.all DraftDocument.isAllowed = true)
    (hkinds : SameKinds text text') : ofText? text' = some v := by
  obtain ⟨document, hdocument, hvalue⟩ := Option.bind_eq_some_iff.mp h
  exact Option.bind_eq_some_iff.mpr
    ⟨document, DraftDocument.ofText?_of_sameKinds hdocument hallowed hkinds, hvalue⟩

end Blueprint
