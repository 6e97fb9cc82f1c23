import Mathlib.Data.List.Forall2
import Blueprint.Yaml.Event

/-!
Two computations that may fail, of which the second one succeeds at least when the first one does.
-/

namespace Blueprint

/-- Whenever the first computation succeeds the second one does, with a related result. -/
def Mirrors {ε α β : Type} (R : α → β → Prop) (x : Except ε α) (y : Except ε β) : Prop :=
  ∀ a, x = .ok a → ∃ b, y = .ok b ∧ R a b

section Mirrors

variable {ε α β γ δ : Type} {R : α → β → Prop} {S : γ → δ → Prop}

theorem Mirrors.ok {a : α} {b : β} (h : R a b) :
    Mirrors R (.ok a : Except ε α) (.ok b : Except ε β) := by
  intro a' ha
  cases ha
  exact ⟨b, rfl, h⟩

theorem Mirrors.error (e : ε) (y : Except ε β) : Mirrors R (.error e) y := by
  intro a ha
  cases ha

theorem Mirrors.bind {x : Except ε α} {y : Except ε β} {f : α → Except ε γ} {g : β → Except ε δ}
    (h : Mirrors R x y) (hf : ∀ a b, R a b → Mirrors S (f a) (g b)) :
    Mirrors S (x >>= f) (y >>= g) := by
  intro c hc
  cases hx : x with
  | error e =>
    rw [hx] at hc
    cases hc
  | ok a =>
    obtain ⟨b, hy, hab⟩ := h a hx
    rw [hx] at hc
    rw [hy]
    exact hf a b hab c hc

theorem Mirrors.ite {c : Prop} [Decidable c] {x x' : Except ε α} {y y' : Except ε β}
    (h : Mirrors R x y) (h' : Mirrors R x' y') :
    Mirrors R (if c then x else x') (if c then y else y') := by
  split
  · exact h
  · exact h'

end Mirrors

end Blueprint

/-!
Two parsers over lists of tokens that match. A parser sees of a token no more than its kind, and of
a scalar no more than that it is one, so that matching tokens lead to matching events.
-/

namespace Blueprint.Yaml

/-- The kinds that lead a parser the same way: equal ones, and any two scalars. -/
inductive TokenKind.Matches : TokenKind → TokenKind → Prop where
  | same (k : TokenKind) : Matches k k
  | scalars (text : String) (style : ScalarStyle) (text' : String) (style' : ScalarStyle) :
    Matches (.scalar text style) (.scalar text' style')

theorem TokenKind.Matches.ite {ε α β : Type} {R : α → β → Prop} {x x' : Except ε α}
    {y y' : Except ε β} {k k' wanted : TokenKind} (hk : TokenKind.Matches k k')
    (hwanted : ∀ text style, TokenKind.scalar text style ≠ wanted)
    (h : k = wanted → Mirrors R x y) (h' : Mirrors R x' y') :
    Mirrors R (if k = wanted then x else x') (if k' = wanted then y else y') := by
  cases hk with
  | same =>
    split
    next heq => exact h heq
    · exact h'
  | scalars =>
    rw [if_neg (hwanted _ _), if_neg (hwanted _ _)]
    exact h'

/-- When the tokens of two lists match, one by one from the first on. Behind the start of a block
mapping the second list may go on in another way. -/
structure Matching where
  token : Token → Token → Prop
  list : List HandedToken → List HandedToken → Prop
  kind : ∀ {t t' : Token}, token t t' → TokenKind.Matches t.kind t'.kind
  head : ∀ {t t' : HandedToken} {r r' : List HandedToken},
    list (t :: r) (t' :: r') → token t.token t'.token
  more : ∀ {t : HandedToken} {r : List HandedToken}, ¬list (t :: r) []
  tail : ∀ {t t' : HandedToken} {r r' : List HandedToken},
    list (t :: r) (t' :: r') → t.token.kind ≠ .blockMappingStart → list r r'

/-- An event that is no scalar, or the scalar of a missing node. -/
def EventKind.Unwritten : EventKind → Prop
  | .scalar text .. => text = "" ∨ text = "~"
  | _ => True

namespace Matching

/-- What two parsers yield for matching tokens. The place of the end of a pair is of no account. -/
inductive Event (M : Matching) : Yaml.Event → Yaml.Event → Prop where
  | same (k : EventKind) (hk : k.Unwritten) {t t' : Token} (h : M.token t t') :
    Event M ⟨k, t.mark⟩ ⟨k, t'.mark⟩
  | scalars {t t' : Token} (h : M.token t t') {text text' : String} {style style' : ScalarStyle}
    (ht : t.kind = .scalar text style) (ht' : t'.kind = .scalar text' style')
    (anchor : Option String) (tag : Option Tag) :
    Event M ⟨.scalar text style anchor tag, t.mark⟩ ⟨.scalar text' style' anchor tag, t'.mark⟩
  | pairEnd (m m' : Mark) : Event M ⟨.mappingEnd, m⟩ ⟨.mappingEnd, m'⟩

/-- Two parsers that expect the same of matching tokens. -/
structure Parsers (M : Matching) (p p' : Parser) : Prop where
  tokens : M.list p.tokens p'.tokens
  expect : p'.expect = p.expect
  pending : p'.pending = p.pending
  anchors : p'.anchors = p.anchors
  handles : p'.handles = p.handles

/-- What two parsers see when they look at a token. -/
structure Look (M : Matching) (p p' : Parser) (r r' : Token × Parser) : Prop where
  token : M.token r.1 r'.1
  parsers : M.Parsers r.2 r'.2
  drop : r.1.kind ≠ .blockMappingStart → M.Parsers r.2.drop r'.2.drop
  enter : M.list p.tokens.tail p'.tokens.tail → M.Parsers r.2.drop r'.2.drop
  shorter : r.2.drop.tokens.length < p.tokens.length ∧ r'.2.drop.tokens.length < p'.tokens.length

/-- What two parsers yield in a step. -/
def Step (M : Matching) (r r' : Yaml.Event × Parser) : Prop :=
  M.Event r.1 r'.1 ∧ M.Parsers r.2 r'.2

variable {M : Matching} {p p' : Parser} {d : Dialect}

namespace Parsers

theorem look (h : M.Parsers p p') : Mirrors (M.Look p p') p.look p'.look := by
  obtain ⟨tokens, ending, reached, expect, pending, anchors, handles⟩ := p
  obtain ⟨tokens', ending', reached', expect', pending', anchors', handles'⟩ := p'
  obtain ⟨htokens, hexpect, hpending, hanchors, hhandles⟩ := h
  unfold Parser.look
  cases tokens with
  | nil => exact .error _ _
  | cons t r =>
    cases tokens' with
    | nil => exact absurd htokens M.more
    | cons t' r' =>
      exact .ok ⟨M.head htokens, ⟨htokens, hexpect, hpending, hanchors, hhandles⟩,
        fun hk => ⟨M.tail htokens hk, hexpect, hpending, hanchors, hhandles⟩,
        fun htail => ⟨htail, hexpect, hpending, hanchors, hhandles⟩,
        Nat.lt_succ_self _, Nat.lt_succ_self _⟩

theorem goto (h : M.Parsers p p') (expect : Expect) :
    M.Parsers (p.goto expect) (p'.goto expect) :=
  ⟨h.tokens, rfl, h.pending, h.anchors, h.handles⟩

theorem back (h : M.Parsers p p') : M.Parsers p.back p'.back := by
  unfold Parser.back
  rw [h.pending]
  split
  · exact ⟨h.tokens, rfl, rfl, h.anchors, h.handles⟩
  · exact ⟨h.tokens, rfl, rfl, h.anchors, h.handles⟩

theorem after (h : M.Parsers p p') (expect : Expect) :
    M.Parsers (p.after expect) (p'.after expect) :=
  ⟨h.tokens, h.expect, congrArg (expect :: ·) h.pending, h.anchors, h.handles⟩

theorem emit (h : M.Parsers p p') {kind : EventKind} (hkind : kind.Unwritten)
    {k k' : TokenKind} {m m' : Mark} (ht : M.token ⟨k, m⟩ ⟨k', m'⟩) :
    Mirrors M.Step (Parser.emit kind m p) (Parser.emit kind m' p') :=
  .ok ⟨.same kind hkind ht, h⟩

theorem emitEmpty (h : M.Parsers p p') {k k' : TokenKind} {m m' : Mark}
    (ht : M.token ⟨k, m⟩ ⟨k', m'⟩) :
    Mirrors M.Step (Parser.emitEmpty d m p) (Parser.emitEmpty d m' p') := by
  refine h.emit ?_ ht
  cases d with
  | document => exact Or.inr rfl
  | settings => exact Or.inl rfl

/-- The directives end before the tokens do. -/
theorem readDirectives (h : M.Parsers p p') {fuel fuel' : Nat} (hfuel : p.tokens.length < fuel)
    (hfuel' : p'.tokens.length < fuel') (versioned : Bool) (handles : List (String × Uri)) :
    Mirrors M.Parsers (Parser.readDirectives d fuel versioned handles p)
      (Parser.readDirectives d fuel' versioned handles p') := by
  induction fuel generalizing fuel' versioned handles p p' with
  | zero => exact absurd hfuel (Nat.not_lt_zero _)
  | succ fuel ih =>
    cases fuel' with
    | zero => exact absurd hfuel' (Nat.not_lt_zero _)
    | succ fuel' =>
      unfold Parser.readDirectives
      refine h.look.bind ?_
      rintro ⟨⟨k, m⟩, q⟩ ⟨⟨k', m'⟩, q'⟩ ⟨ht, hq, hdrop, _, hless, hless'⟩
      have hk : TokenKind.Matches k k' := M.kind ht
      have hrest (hne : k ≠ .blockMappingStart) (versioned : Bool) (handles) :
          Mirrors M.Parsers (Parser.readDirectives d fuel versioned handles q.drop)
            (Parser.readDirectives d fuel' versioned handles q'.drop) :=
        ih (hdrop hne) (Nat.lt_of_lt_of_le hless (Nat.le_of_lt_succ hfuel))
          (Nat.lt_of_lt_of_le hless' (Nat.le_of_lt_succ hfuel')) versioned handles
      cases hk with
      | scalars => exact .ok ⟨hq.tokens, hq.expect, hq.pending, hq.anchors, rfl⟩
      | same =>
        dsimp only
        cases k with
        | versionDirective major minor =>
          exact .ite (.error _ _) (.ite (.error _ _) (hrest TokenKind.noConfusion true handles))
        | tagDirective handle start =>
          exact .ite (.error _ _) (hrest TokenKind.noConfusion versioned _)
        | _ => exact .ok ⟨hq.tokens, hq.expect, hq.pending, hq.anchors, rfl⟩

theorem startDocument (h : M.Parsers p p') :
    Mirrors M.Parsers (p.startDocument d) (p'.startDocument d) := by
  unfold Parser.startDocument
  refine (h.readDirectives (Nat.lt_succ_self _) (Nat.lt_succ_self _) _ _).bind ?_
  intro q q' hq
  exact .ok ⟨hq.tokens, hq.expect, hq.pending, rfl, hq.handles⟩

theorem explicitDocument (h : M.Parsers p p') :
    Mirrors M.Step (p.explicitDocument d) (p'.explicitDocument d) := by
  unfold Parser.explicitDocument
  refine h.startDocument.bind ?_
  intro q q' hq
  refine hq.look.bind ?_
  rintro ⟨⟨k, m⟩, r⟩ ⟨⟨k', m'⟩, r'⟩ ⟨ht, hr, hdrop, _, _⟩
  have hk : TokenKind.Matches k k' := M.kind ht
  refine hk.ite (fun _ _ => TokenKind.noConfusion) ?_ (.error _ _)
  rintro rfl
  exact (((hdrop TokenKind.noConfusion).after _).goto _).emit (by trivial) ht

theorem dropDocumentEnds (h : M.Parsers p p') {fuel fuel' : Nat} (hfuel : p.tokens.length < fuel)
    (hfuel' : p'.tokens.length < fuel') :
    Mirrors M.Parsers (Parser.dropDocumentEnds fuel p) (Parser.dropDocumentEnds fuel' p') := by
  induction fuel generalizing fuel' p p' with
  | zero => exact absurd hfuel (Nat.not_lt_zero _)
  | succ fuel ih =>
    cases fuel' with
    | zero => exact absurd hfuel' (Nat.not_lt_zero _)
    | succ fuel' =>
      unfold Parser.dropDocumentEnds
      refine h.look.bind ?_
      rintro ⟨⟨k, m⟩, q⟩ ⟨⟨k', m'⟩, q'⟩ ⟨ht, hq, hdrop, _, hless, hless'⟩
      have hk : TokenKind.Matches k k' := M.kind ht
      refine hk.ite (fun _ _ => TokenKind.noConfusion) ?_ (.ok hq)
      rintro rfl
      exact ih (hdrop TokenKind.noConfusion) (by omega) (by omega)

theorem document (h : M.Parsers p p') (implicit : Bool) :
    Mirrors M.Step (p.document d implicit) (p'.document d implicit) := by
  unfold Parser.document
  dsimp only
  have hstart := h.dropDocumentEnds (Nat.lt_succ_self _) (Nat.lt_succ_self _)
  refine .ite (.bind (.ok h) ?_) (.bind hstart ?_)
  all_goals
    intro q q' hq
    refine hq.look.bind ?_
    rintro ⟨⟨k, m⟩, r⟩ ⟨⟨k', m'⟩, r'⟩ ⟨ht, hr, hdrop, _, _⟩
    have hk : TokenKind.Matches k k' := M.kind ht
    have himplicit : ∀ s s', M.Parsers s s' → Mirrors M.Step
        (Parser.emit .documentStart m ((s.after .documentEnd).goto .blockNode))
        (Parser.emit .documentStart m' ((s'.after .documentEnd).goto .blockNode)) := by
      intro s s' hs
      exact ((hs.after _).goto _).emit (by trivial) ht
    cases hk with
    | scalars => exact .ite (hr.startDocument.bind himplicit) hr.explicitDocument
    | same =>
      cases k with
      | streamEnd => exact ((hdrop TokenKind.noConfusion).goto _).emit (by trivial) ht
      | versionDirective major minor => exact hr.explicitDocument
      | tagDirective handle start => exact hr.explicitDocument
      | documentStart => exact hr.explicitDocument
      | _ => exact .ite (hr.startDocument.bind himplicit) hr.explicitDocument

theorem checkTag (h : M.Parsers p p') (tag : Tag) (m m' : Mark) :
    Mirrors Eq (p.checkTag d tag m) (p'.checkTag d tag m') := by
  unfold Parser.checkTag
  rw [h.handles]
  refine .ite (.ok rfl) ?_
  split
  · exact .ok rfl
  · exact .ite (.ok rfl) (.ite (.ok rfl) (.error _ _))

/-- What two parsers find before a node. -/
def Properties (M : Matching) (r r' : Option String × Option Tag × Parser) : Prop :=
  r'.1 = r.1 ∧ r'.2.1 = r.2.1 ∧ M.Parsers r.2.2 r'.2.2

theorem register (h : M.Parsers p.drop p'.drop) (hanchors : p'.anchors = p.anchors)
    (name : String) :
    M.Parsers { p.drop with anchors := name :: p.anchors }
      { p'.drop with anchors := name :: p'.anchors } :=
  ⟨h.tokens, h.expect, h.pending, congrArg (name :: ·) hanchors, h.handles⟩

theorem properties (h : M.Parsers p p') :
    Mirrors (Properties M) (p.properties d) (p'.properties d) := by
  unfold Parser.properties
  dsimp only
  refine h.look.bind ?_
  rintro ⟨⟨k, m⟩, q⟩ ⟨⟨k', m'⟩, q'⟩ ⟨ht, hq, hdrop, _, _⟩
  have hk : TokenKind.Matches k k' := M.kind ht
  cases hk with
  | scalars => exact .ok ⟨rfl, rfl, hq⟩
  | same =>
    cases k with
    | anchor name =>
      refine (register (hdrop TokenKind.noConfusion) hq.anchors name).look.bind ?_
      rintro ⟨⟨k, m⟩, r⟩ ⟨⟨k', m'⟩, r'⟩ ⟨ht, hr, hdrop, _, _⟩
      have hk : TokenKind.Matches k k' := M.kind ht
      cases hk with
      | scalars => exact .ok ⟨rfl, rfl, hr⟩
      | same =>
        cases k with
        | tag tag =>
          refine (hr.checkTag tag m m').bind ?_
          rintro tag _ rfl
          exact .ok ⟨rfl, rfl, hdrop TokenKind.noConfusion⟩
        | _ => exact .ok ⟨rfl, rfl, hr⟩
    | tag tag =>
      refine (hq.checkTag tag m m').bind ?_
      rintro tag _ rfl
      refine (hdrop TokenKind.noConfusion).look.bind ?_
      rintro ⟨⟨k, m⟩, r⟩ ⟨⟨k', m'⟩, r'⟩ ⟨ht, hr, hdrop, _, _⟩
      have hk : TokenKind.Matches k k' := M.kind ht
      cases hk with
      | scalars => exact .ok ⟨rfl, rfl, hr⟩
      | same =>
        cases k with
        | anchor name =>
          exact .ok ⟨rfl, rfl, register (hdrop TokenKind.noConfusion) hr.anchors name⟩
        | _ => exact .ok ⟨rfl, rfl, hr⟩
    | _ => exact .ok ⟨rfl, rfl, hq⟩

theorem content {t t' : Token} {r r' : Parser} (h : M.Look p p' (t, r) (t', r'))
    (block indentless : Bool) (anchor : Option String) (tag : Option Tag) :
    Mirrors M.Step (Parser.content block indentless anchor tag t r)
      (Parser.content block indentless anchor tag t' r') := by
  obtain ⟨k, m⟩ := t
  obtain ⟨k', m'⟩ := t'
  obtain ⟨ht, h, hdrop, _, _⟩ := h
  have hk : TokenKind.Matches k k' := M.kind ht
  have hempty : Mirrors M.Step
      (if anchor.isSome || tag.isSome then Parser.emit (.scalar "" .plain anchor tag) m r.back
        else fail .nodeContent m)
      (if anchor.isSome || tag.isSome then Parser.emit (.scalar "" .plain anchor tag) m' r'.back
        else fail .nodeContent m') := .ite (h.back.emit (by exact Or.inl rfl) ht) (.error _ _)
  unfold Parser.content
  cases hk with
  | scalars text style text' style' =>
    exact .ok ⟨.scalars ht rfl rfl anchor tag, (hdrop TokenKind.noConfusion).back⟩
  | same =>
    cases k with
    | scalar text style =>
      exact .ok ⟨.scalars ht rfl rfl anchor tag, (hdrop TokenKind.noConfusion).back⟩
    | flowSequenceStart => exact (h.goto _).emit (by trivial) ht
    | flowMappingStart => exact (h.goto _).emit (by trivial) ht
    | blockEntry =>
      cases indentless with
      | true => exact (h.goto _).emit (by trivial) ht
      | false => exact hempty
    | blockSequenceStart =>
      cases block with
      | true => exact (h.goto _).emit (by trivial) ht
      | false => exact hempty
    | blockMappingStart =>
      cases block with
      | true => exact (h.goto _).emit (by trivial) ht
      | false => exact hempty
    | _ => exact hempty

theorem node (h : M.Parsers p p') (block indentless : Bool) :
    Mirrors M.Step (p.node d block indentless) (p'.node d block indentless) := by
  unfold Parser.node
  refine h.look.bind ?_
  rintro ⟨⟨k, m⟩, q⟩ ⟨⟨k', m'⟩, q'⟩ ⟨ht, hq, hdrop, _, _⟩
  have hk : TokenKind.Matches k k' := M.kind ht
  have hrest : ∀ r r', Properties M r r' →
      Mirrors M.Step
        (r.2.2.look >>= fun x => Parser.content block indentless r.1 r.2.1 x.1 x.2)
        (r'.2.2.look >>= fun x => Parser.content block indentless r'.1 r'.2.1 x.1 x.2) := by
    rintro ⟨_, _, r⟩ ⟨anchor, tag, r'⟩ ⟨rfl, rfl, hr⟩
    refine hr.look.bind ?_
    rintro ⟨t, s⟩ ⟨t', s'⟩ hlook
    exact content hlook block indentless anchor tag
  cases hk with
  | scalars => exact hq.properties.bind hrest
  | same =>
    cases k with
    | «alias» name =>
      dsimp only
      rw [hq.anchors]
      exact .ite ((hdrop TokenKind.noConfusion).back.emit (by trivial) ht) (.error _ _)
    | _ => exact hq.properties.bind hrest

theorem documentContent (h : M.Parsers p p') :
    Mirrors M.Step (p.documentContent d) (p'.documentContent d) := by
  unfold Parser.documentContent
  refine h.look.bind ?_
  rintro ⟨⟨k, m⟩, q⟩ ⟨⟨k', m'⟩, q'⟩ ⟨ht, hq, _, _, _⟩
  have hk : TokenKind.Matches k k' := M.kind ht
  cases hk with
  | scalars => exact hq.node true false
  | same =>
    cases k with
    | versionDirective major minor => exact hq.back.emitEmpty ht
    | tagDirective handle start => exact hq.back.emitEmpty ht
    | documentStart => exact hq.back.emitEmpty ht
    | documentEnd => exact hq.back.emitEmpty ht
    | streamEnd => exact hq.back.emitEmpty ht
    | _ => exact hq.node true false

theorem documentEnd (h : M.Parsers p p') : Mirrors M.Step p.documentEnd p'.documentEnd := by
  unfold Parser.documentEnd
  refine h.look.bind ?_
  rintro ⟨⟨k, m⟩, q⟩ ⟨⟨k', m'⟩, q'⟩ ⟨ht, hq, hdrop, _, _⟩
  have hk : TokenKind.Matches k k' := M.kind ht
  cases hk with
  | scalars => exact (hq.goto _).emit (by trivial) ht
  | same =>
    cases k with
    | documentEnd => exact ((hdrop TokenKind.noConfusion).goto _).emit (by trivial) ht
    | _ => exact (hq.goto _).emit (by trivial) ht

/-- Going on after the token that opens a collection. -/
theorem enter (h : M.Parsers p p') {first : Bool}
    (hfirst : first = true → p.tokens ≠ [] → M.list p.tokens.tail p'.tokens.tail) {f g : Parser → Parser.Step}
    (hrest : ∀ q q', M.Parsers q q' → Mirrors M.Step (f q) (g q')) :
    Mirrors M.Step
      (do
        let p ← if first then do let (_, p) ← p.look; pure p.drop else pure p
        f p)
      (do
        let p ← if first then do let (_, p) ← p'.look; pure p.drop else pure p'
        g p) := by
  cases first with
  | false => exact hrest p p' h
  | true =>
    refine h.look.bind ?_
    rintro ⟨t, q⟩ ⟨t', q'⟩ hlook
    have hne : p.tokens ≠ [] := List.ne_nil_of_length_pos (Nat.zero_lt_of_lt hlook.shorter.1)
    exact hrest q.drop q'.drop (hlook.enter (hfirst rfl hne))

theorem endsBlockPart_eq {k k' : TokenKind} (h : TokenKind.Matches k k') :
    Parser.endsBlockPart k' = Parser.endsBlockPart k := by
  cases h <;> rfl

theorem blockMappingKey (h : M.Parsers p p') (first : Bool)
    (hfirst : first = true → p.tokens ≠ [] → M.list p.tokens.tail p'.tokens.tail) :
    Mirrors M.Step (p.blockMappingKey d first) (p'.blockMappingKey d first) := by
  unfold Parser.blockMappingKey
  refine h.enter hfirst ?_
  intro p p' h
  refine h.look.bind ?_
  rintro ⟨⟨k, m⟩, q⟩ ⟨⟨k', m'⟩, q'⟩ ⟨ht, hq, hdrop, _, _⟩
  have hk : TokenKind.Matches k k' := M.kind ht
  cases hk with
  | scalars => exact .error _ _
  | same =>
    cases k with
    | key =>
      refine (hdrop TokenKind.noConfusion).look.bind ?_
      rintro ⟨⟨k, m⟩, r⟩ ⟨⟨k', m'⟩, r'⟩ ⟨ht, hr, _, _, _⟩
      dsimp only
      rw [endsBlockPart_eq (M.kind ht)]
      exact .ite ((hr.goto _).emitEmpty ht) ((hr.after _).node true true)
    | blockEnd => exact (hdrop TokenKind.noConfusion).back.emit (by trivial) ht
    | value => exact .ite (.error _ _) ((hq.goto _).emitEmpty ht)
    | _ => exact .error _ _

theorem blockMappingValue (h : M.Parsers p p') :
    Mirrors M.Step (p.blockMappingValue d) (p'.blockMappingValue d) := by
  unfold Parser.blockMappingValue
  refine h.look.bind ?_
  rintro ⟨⟨k, m⟩, q⟩ ⟨⟨k', m'⟩, q'⟩ ⟨ht, hq, hdrop, _, _⟩
  have hk : TokenKind.Matches k k' := M.kind ht
  refine hk.ite (fun _ _ => TokenKind.noConfusion) ?_ ((hq.goto _).emitEmpty ht)
  rintro rfl
  refine (hdrop TokenKind.noConfusion).look.bind ?_
  rintro ⟨⟨k, m⟩, r⟩ ⟨⟨k', m'⟩, r'⟩ ⟨ht, hr, _, _, _⟩
  dsimp only
  rw [endsBlockPart_eq (M.kind ht)]
  exact .ite ((hr.goto _).emitEmpty ht) ((hr.after _).node true true)

theorem blockSequence (h : M.Parsers p p') (first : Bool)
    (hfirst : first = true → p.tokens ≠ [] → M.list p.tokens.tail p'.tokens.tail) :
    Mirrors M.Step (p.blockSequence d first) (p'.blockSequence d first) := by
  unfold Parser.blockSequence
  refine h.enter hfirst ?_
  intro p p' h
  refine h.look.bind ?_
  rintro ⟨⟨k, m⟩, q⟩ ⟨⟨k', m'⟩, q'⟩ ⟨ht, hq, hdrop, _, _⟩
  have hk : TokenKind.Matches k k' := M.kind ht
  cases hk with
  | scalars => exact .error _ _
  | same =>
    cases k with
    | blockEnd => exact (hdrop TokenKind.noConfusion).back.emit (by trivial) ht
    | blockEntry =>
      refine (hdrop TokenKind.noConfusion).look.bind ?_
      rintro ⟨⟨k, m⟩, r⟩ ⟨⟨k', m'⟩, r'⟩ ⟨ht, hr, _, _, _⟩
      have hk : TokenKind.Matches k k' := M.kind ht
      cases hk with
      | scalars => exact (hr.after _).node true false
      | same =>
        cases k with
        | blockEntry => exact (hr.goto _).emitEmpty ht
        | blockEnd => exact (hr.goto _).emitEmpty ht
        | _ => exact (hr.after _).node true false
    | _ => exact .error _ _

theorem indentlessSequence (h : M.Parsers p p') :
    Mirrors M.Step (p.indentlessSequence d) (p'.indentlessSequence d) := by
  unfold Parser.indentlessSequence
  refine h.look.bind ?_
  rintro ⟨⟨k, m⟩, q⟩ ⟨⟨k', m'⟩, q'⟩ ⟨ht, hq, hdrop, _, _⟩
  have hk : TokenKind.Matches k k' := M.kind ht
  cases hk with
  | scalars => exact hq.back.emit (by trivial) ht
  | same =>
    dsimp only
    split
    · exact hq.back.emit (by trivial) ht
    next hentry =>
      have hne : k ≠ .blockMappingStart := by
        rintro rfl
        exact hentry TokenKind.noConfusion
      refine (hdrop hne).look.bind ?_
      rintro ⟨⟨k, m⟩, r⟩ ⟨⟨k', m'⟩, r'⟩ ⟨ht, hr, _, _, _⟩
      have hk : TokenKind.Matches k k' := M.kind ht
      cases hk with
      | scalars => exact (hr.after _).node true false
      | same => exact .ite ((hr.goto _).emitEmpty ht) ((hr.after _).node true false)

/-- Going on to the next entry of a flow collection. -/
theorem separate (h : M.Parsers p p') (first : Bool) {k k' : TokenKind}
    (hk : TokenKind.Matches k k') (hdrop : k ≠ .blockMappingStart → M.Parsers p.drop p'.drop)
    (fault : Fault) {m m' : Mark} {f g : Parser → Parser.Step}
    (hrest : ∀ q q', M.Parsers q q' → Mirrors M.Step (f q) (g q')) :
    Mirrors M.Step
      (do
        let p ←
          if first then pure p
          else if k = .flowEntry then pure p.drop
          else fail fault m
        f p)
      (do
        let p ←
          if first then pure p'
          else if k' = .flowEntry then pure p'.drop
          else fail fault m'
        g p) := by
  cases first with
  | true => exact hrest p p' h
  | false =>
    refine hk.ite (fun _ _ => TokenKind.noConfusion) ?_ (.error _ _)
    rintro rfl
    exact hrest p.drop p'.drop (hdrop TokenKind.noConfusion)

theorem flowSequence (h : M.Parsers p p') (first : Bool)
    (hfirst : first = true → p.tokens ≠ [] → M.list p.tokens.tail p'.tokens.tail) :
    Mirrors M.Step (p.flowSequence d first) (p'.flowSequence d first) := by
  unfold Parser.flowSequence
  refine h.enter hfirst ?_
  intro p p' h
  refine h.look.bind ?_
  rintro ⟨⟨k, m⟩, q⟩ ⟨⟨k', m'⟩, q'⟩ ⟨ht, hq, hdrop, _, _⟩
  have hk : TokenKind.Matches k k' := M.kind ht
  refine hk.ite (fun _ _ => TokenKind.noConfusion) ?_ ?_
  · rintro rfl
    exact (hdrop TokenKind.noConfusion).back.emit (by trivial) ht
  refine hq.separate first hk hdrop _ ?_
  intro r r' hr
  refine hr.look.bind ?_
  rintro ⟨⟨k, m⟩, s⟩ ⟨⟨k', m'⟩, s'⟩ ⟨ht, hs, hdrop, _, _⟩
  have hk : TokenKind.Matches k k' := M.kind ht
  cases hk with
  | scalars => exact (hs.after _).node false false
  | same =>
    cases k with
    | flowSequenceEnd => exact (hdrop TokenKind.noConfusion).back.emit (by trivial) ht
    | key => exact ((hdrop TokenKind.noConfusion).goto _).emit (by trivial) ht
    | _ => exact (hs.after _).node false false

theorem flowPairKey (h : M.Parsers p p') :
    Mirrors M.Step (p.flowPairKey d) (p'.flowPairKey d) := by
  unfold Parser.flowPairKey
  refine h.look.bind ?_
  rintro ⟨⟨k, m⟩, q⟩ ⟨⟨k', m'⟩, q'⟩ ⟨ht, hq, hdrop, _, _⟩
  have hk : TokenKind.Matches k k' := M.kind ht
  cases hk with
  | scalars => exact (hq.after _).node false false
  | same =>
    cases k with
    | value => exact ((hdrop TokenKind.noConfusion).goto _).emitEmpty ht
    | flowEntry => exact ((hdrop TokenKind.noConfusion).goto _).emitEmpty ht
    | flowSequenceEnd => exact ((hdrop TokenKind.noConfusion).goto _).emitEmpty ht
    | _ => exact (hq.after _).node false false

theorem flowPairValue (h : M.Parsers p p') :
    Mirrors M.Step (p.flowPairValue d) (p'.flowPairValue d) := by
  unfold Parser.flowPairValue
  refine h.look.bind ?_
  rintro ⟨⟨k, m⟩, q⟩ ⟨⟨k', m'⟩, q'⟩ ⟨ht, hq, hdrop, _, _⟩
  have hk : TokenKind.Matches k k' := M.kind ht
  refine hk.ite (fun _ _ => TokenKind.noConfusion) ?_ ((hq.goto _).emitEmpty ht)
  rintro rfl
  refine (hdrop TokenKind.noConfusion).look.bind ?_
  rintro ⟨⟨k, m⟩, r⟩ ⟨⟨k', m'⟩, r'⟩ ⟨ht, hr, _, _, _⟩
  have hk : TokenKind.Matches k k' := M.kind ht
  cases hk with
  | scalars => exact (hr.after _).node false false
  | same =>
    cases k with
    | flowEntry => exact (hr.goto _).emitEmpty ht
    | flowSequenceEnd => exact (hr.goto _).emitEmpty ht
    | _ => exact (hr.after _).node false false

theorem flowPairEnd (h : M.Parsers p p') : Mirrors M.Step p.flowPairEnd p'.flowPairEnd :=
  .ok ⟨.pairEnd _ _, h.goto _⟩

theorem flowMappingValue (h : M.Parsers p p') (empty : Bool) :
    Mirrors M.Step (p.flowMappingValue d empty) (p'.flowMappingValue d empty) := by
  unfold Parser.flowMappingValue
  refine h.look.bind ?_
  rintro ⟨⟨k, m⟩, q⟩ ⟨⟨k', m'⟩, q'⟩ ⟨ht, hq, hdrop, _, _⟩
  have hk : TokenKind.Matches k k' := M.kind ht
  cases hk with
  | scalars =>
    dsimp only
    rw [if_pos (by simp), if_pos (by simp)]
    exact (hq.goto _).emitEmpty ht
  | same =>
    dsimp only
    split
    · exact (hq.goto _).emitEmpty ht
    next hvalue =>
      have hne : k ≠ .blockMappingStart := by
        rintro rfl
        simp at hvalue
      refine (hdrop hne).look.bind ?_
      rintro ⟨⟨k, n⟩, r⟩ ⟨⟨k', n'⟩, r'⟩ ⟨hu, hr, _, _, _⟩
      have hk : TokenKind.Matches k k' := M.kind hu
      cases hk with
      | scalars => exact (hr.after _).node false false
      | same =>
        cases k with
        | flowEntry => exact (hr.goto _).emitEmpty ht
        | flowMappingEnd => exact (hr.goto _).emitEmpty ht
        | _ => exact (hr.after _).node false false

theorem flowMappingKey (h : M.Parsers p p') (first : Bool)
    (hfirst : first = true → p.tokens ≠ [] → M.list p.tokens.tail p'.tokens.tail) :
    Mirrors M.Step (p.flowMappingKey d first) (p'.flowMappingKey d first) := by
  unfold Parser.flowMappingKey
  refine h.enter hfirst ?_
  intro p p' h
  refine h.look.bind ?_
  rintro ⟨⟨k, m⟩, q⟩ ⟨⟨k', m'⟩, q'⟩ ⟨ht, hq, hdrop, _, _⟩
  have hk : TokenKind.Matches k k' := M.kind ht
  refine hk.ite (fun _ _ => TokenKind.noConfusion) ?_ ?_
  · rintro rfl
    exact (hdrop TokenKind.noConfusion).back.emit (by trivial) ht
  refine hq.separate first hk hdrop _ ?_
  intro r r' hr
  refine hr.look.bind ?_
  rintro ⟨⟨k, n⟩, s⟩ ⟨⟨k', n'⟩, s'⟩ ⟨hu, hs, hdrop, _, _⟩
  have hk : TokenKind.Matches k k' := M.kind hu
  cases hk with
  | scalars => exact (hs.after _).node false false
  | same =>
    cases k with
    | key =>
      refine (hdrop TokenKind.noConfusion).look.bind ?_
      rintro ⟨⟨k, n⟩, u⟩ ⟨⟨k', n'⟩, u'⟩ ⟨hv, hu, _, _, _⟩
      have hk : TokenKind.Matches k k' := M.kind hv
      cases hk with
      | scalars => exact (hu.after _).node false false
      | same =>
        cases k with
        | value => exact (hu.goto _).emitEmpty hv
        | flowEntry => exact (hu.goto _).emitEmpty hv
        | flowMappingEnd => exact (hu.goto _).emitEmpty hv
        | _ => exact (hu.after _).node false false
    | flowMappingEnd => exact (hdrop TokenKind.noConfusion).back.emit (by trivial) ht
    | value => exact .ite (.error _ _) ((hs.goto _).emitEmpty hu)
    | _ => exact (hs.after _).node false false

end Parsers

end Matching

/-- Whether the token that opens a collection is to be dropped first. -/
def Expect.enters : Expect → Bool
  | .blockSequence first | .blockMappingKey first | .flowSequence first
  | .flowMappingKey first => first
  | _ => false

namespace Matching

variable {M : Matching} {p p' : Parser} {d : Dialect}

namespace Parsers

/-- A step sees of the tokens no more than their kinds. -/
theorem step (h : M.Parsers p p')
    (henters : p.expect.enters = true → p.tokens ≠ [] → M.list p.tokens.tail p'.tokens.tail) :
    Mirrors M.Step (p.step d) (p'.step d) := by
  unfold Parser.step
  rw [h.expect]
  split
  · exact h.document _
  · exact h.documentContent
  · exact h.documentEnd
  · exact h.node true false
  next heq => exact h.blockSequence _ (by rwa [heq] at henters)
  · exact h.indentlessSequence
  next heq => exact h.blockMappingKey _ (by rwa [heq] at henters)
  · exact h.blockMappingValue
  next heq => exact h.flowSequence _ (by rwa [heq] at henters)
  · exact h.flowPairKey
  · exact h.flowPairValue
  · exact h.flowPairEnd
  next heq => exact h.flowMappingKey _ (by rwa [heq] at henters)
  · exact h.flowMappingValue _
  · exact .error _ _

theorem open? (h : M.Parsers p p') : Mirrors M.Parsers p.open? p'.open? := by
  unfold Parser.open?
  refine h.look.bind ?_
  rintro ⟨⟨k, m⟩, q⟩ ⟨⟨k', m'⟩, q'⟩ ⟨ht, _, hdrop, _, _⟩
  have hk : TokenKind.Matches k k' := M.kind ht
  refine hk.ite (fun _ _ => TokenKind.noConfusion) ?_ (.error _ _)
  rintro rfl
  exact .ok (hdrop TokenKind.noConfusion)

end Parsers

theorem Event.stop_eq {e e' : Yaml.Event} (h : M.Event e e') {stop : EventKind → Bool}
    (hstop : ∀ text style anchor tag, stop (.scalar text style anchor tag) = false) :
    stop e'.kind = stop e.kind := by
  cases h with
  | same => rfl
  | scalars => rw [hstop, hstop]
  | pairEnd => rfl

/-- The lists match behind every token. -/
def Total (M : Matching) : Prop :=
  ∀ {t t' : HandedToken} {r r' : List HandedToken}, M.list (t :: r) (t' :: r') → M.list r r'

theorem Total.tail (hM : M.Total) {l l' : List HandedToken} (h : M.list l l') (hl : l ≠ []) :
    M.list l.tail l'.tail := by
  cases l with
  | nil => exact absurd rfl hl
  | cons t r =>
    cases l' with
    | nil => exact absurd h M.more
    | cons t' r' => exact hM h

theorem Total.step (hM : M.Total) (h : M.Parsers p p') :
    Mirrors M.Step (p.step d) (p'.step d) :=
  h.step fun _ => hM.tail h.tokens

theorem Total.run (hM : M.Total) (h : M.Parsers p p') {stop : EventKind → Bool}
    (hstop : ∀ text style anchor tag, stop (.scalar text style anchor tag) = false) (fuel : Nat) :
    Mirrors (List.Forall₂ M.Event) (p.run d stop fuel) (p'.run d stop fuel) := by
  induction fuel generalizing p p' with
  | zero => exact .ok .nil
  | succ fuel ih =>
    unfold Parser.run
    refine (hM.step h).bind ?_
    rintro ⟨e, q⟩ ⟨e', q'⟩ ⟨he, hq⟩
    dsimp only
    rw [he.stop_eq hstop]
    refine .ite (.ok (.cons he .nil)) ?_
    refine (ih hq).bind ?_
    intro rest rest' hrest
    exact .ok (.cons he hrest)

end Matching

end Blueprint.Yaml
