import Blueprint.Proofs.ForwardReading
import Blueprint.Proofs.ParserMatching

/-!
How a parser comes to stand before the token that opens a collection: the event that it has just
yielded is the start of this collection.
-/

namespace Blueprint

/-- Whatever the computation results in has the property. -/
def Ensures {ε α : Type} (P : α → Prop) (x : Except ε α) : Prop :=
  ∀ a, x = .ok a → P a

section Ensures

variable {ε α β : Type} {P : α → Prop} {Q : β → Prop}

theorem Ensures.ok {a : α} (h : P a) : Ensures P (.ok a : Except ε α) := by
  rintro _ ⟨⟩
  exact h

theorem Ensures.error (e : ε) : Ensures P (.error e : Except ε α) := by
  rintro _ ⟨⟩

theorem Ensures.bind {x : Except ε α} {f : α → Except ε β} (h : Ensures P x)
    (hf : ∀ a, P a → Ensures Q (f a)) : Ensures Q (x >>= f) := by
  intro b hb
  obtain ⟨a, ha, hb⟩ := bind_eq_ok.mp hb
  exact hf a (h a ha) b hb

theorem Ensures.ite {c : Prop} [Decidable c] {x y : Except ε α} (h : Ensures P x)
    (h' : Ensures P y) : Ensures P (if c then x else y) := by
  split
  · exact h
  · exact h'

end Ensures

namespace Yaml.Parser

/-- A parser that does not come back to the token that opens a collection. -/
def Calm (p : Parser) : Prop :=
  ∀ x ∈ p.pending, x.enters = false

/-- A parser that is to enter a collection at the start of a block mapping only if the event before
is that of this start. -/
structure Arrives (e : Event) (p : Parser) : Prop where
  calm : p.Calm
  opens : p.expect.enters = true → ∀ t ∈ p.tokens.head?, t.token.kind = .blockMappingStart →
    p.expect = .blockMappingKey true ∧ ∃ anchor tag, e = ⟨.mappingStart anchor tag, t.token.mark⟩

variable {d : Dialect} {p : Parser}

/-- What a step of the parser leaves. -/
abbrev Leaves (x : Step) : Prop :=
  Ensures (fun r => Arrives r.1 r.2) x

theorem Calm.look (h : p.Calm) : Ensures (fun r => r.2.Calm) p.look := by
  unfold Parser.look
  cases p.tokens with
  | nil => exact .error _
  | cons t r => exact .ok h

theorem Calm.after (h : p.Calm) {x : Expect} (hx : x.enters = false) : (p.after x).Calm :=
  List.forall_mem_cons.mpr ⟨hx, h⟩

theorem Calm.emit_goto (h : p.Calm) {x : Expect} (hx : x.enters = false) (k : EventKind) (m : Mark) :
    Leaves (emit k m (p.goto x)) := by
  refine .ok ⟨h, fun henters => ?_⟩
  rw [show (p.goto x).expect.enters = x.enters from rfl, hx] at henters
  cases henters

theorem Calm.emit_back (h : p.Calm) (k : EventKind) (m : Mark) : Leaves (emit k m p.back) := by
  unfold back
  split
  · exact .ok ⟨h, fun henters => nomatch henters⟩
  next x r hpending =>
    have hcalm : ∀ y ∈ x :: r, y.enters = false := hpending ▸ h
    have hx : x.enters = false := hcalm x List.mem_cons_self
    refine .ok ⟨fun y hy => hcalm y (List.mem_cons_of_mem x hy), fun henters => ?_⟩
    cases hx.symm.trans henters

theorem Calm.properties (h : p.Calm) : Ensures (fun r => r.2.2.Calm) (p.properties d) := by
  unfold Parser.properties
  refine h.look.bind fun ⟨t, q⟩ hq => ?_
  dsimp only
  split
  · refine (Calm.look (p := { q.drop with anchors := _ }) hq).bind fun ⟨t, r⟩ hr => ?_
    dsimp only
    split
    · exact Ensures.bind (P := fun _ => True) (fun _ _ => trivial) fun _ _ => .ok hr
    · exact .ok hr
  · refine Ensures.bind (P := fun _ => True) (fun _ _ => trivial) fun _ _ => ?_
    refine (Calm.look (p := q.drop) hq).bind fun ⟨t, r⟩ hr => ?_
    dsimp only
    split
    · exact .ok hr
    · exact .ok hr
  · exact .ok hq

theorem Calm.content (h : p.Calm) {t : HandedToken} (ht : t ∈ p.tokens.head?)
    (block indentless : Bool) (anchor : Option String) (tag : Option Tag) :
    Leaves (content block indentless anchor tag t.token p) := by
  -- Of the collections that begin here only the block mapping begins at the start of one.
  have hother {k : EventKind} {x : Expect} (hkind : t.token.kind ≠ .blockMappingStart) :
      Leaves (emit k t.token.mark (p.goto x)) := by
    refine .ok ⟨h, fun _ u hu hmapping => ?_⟩
    cases Option.mem_unique ht hu
    exact absurd hmapping hkind
  unfold Parser.content
  split
  next hkind => exact hother (by rw [hkind]; nofun)
  · exact Calm.emit_back (p := p.drop) h _ _
  next hkind => exact hother (by rw [hkind]; nofun)
  next hkind => exact hother (by rw [hkind]; nofun)
  next hkind => exact hother (by rw [hkind]; nofun)
  · refine .ok ⟨h, fun _ u hu _ => ⟨rfl, anchor, tag, ?_⟩⟩
    rw [Option.mem_unique hu ht]
  · exact .ite (h.emit_back _ _) (.error _)

theorem Calm.look_head (h : p.Calm) :
    Ensures (fun r => r.2.Calm ∧ ∃ t ∈ r.2.tokens.head?, r.1 = t.token) p.look := by
  unfold Parser.look
  split
  · exact .error _
  next t r htokens => exact .ok ⟨h, t, by rw [htokens]; rfl, rfl⟩

theorem Calm.node (h : p.Calm) (block indentless : Bool) : Leaves (p.node d block indentless) := by
  unfold Parser.node
  refine h.look.bind fun ⟨t, q⟩ hq => ?_
  dsimp only
  split
  · exact .ite (Calm.emit_back (p := q.drop) hq _ _) (.error _)
  · refine hq.properties.bind fun ⟨anchor, tag, r⟩ hr => ?_
    refine (Calm.look_head hr).bind fun ⟨t, s⟩ ⟨hs, u, hu, htoken⟩ => ?_
    obtain rfl : t = u.token := htoken
    exact hs.content hu block indentless anchor tag

theorem Calm.emitEmpty_goto (h : p.Calm) {x : Expect} (hx : x.enters = false) (m : Mark) :
    Leaves (emitEmpty d m (p.goto x)) :=
  h.emit_goto hx _ m

theorem Calm.emitEmpty_back (h : p.Calm) (m : Mark) : Leaves (emitEmpty d m p.back) :=
  h.emit_back _ m

theorem Calm.drop (h : p.Calm) : p.drop.Calm :=
  h

/-- Going on behind the token that opens a collection. -/
theorem Calm.enter (h : p.Calm) {first : Bool} {f : Parser → Step}
    (hf : ∀ q : Parser, q.Calm → Leaves (f q)) :
    Leaves (do
      let p ← if first then do let (_, p) ← p.look; pure p.drop else pure p
      f p) := by
  cases first with
  | false => exact hf p h
  | true => exact h.look.bind fun ⟨_, q⟩ hq => hf q.drop hq

theorem Calm.separate (h : p.Calm) {first : Bool} {t : Token} {fault : Fault} {f : Parser → Step}
    (hf : ∀ q : Parser, q.Calm → Leaves (f q)) :
    Leaves (do
      let p ←
        if first then pure p
        else if t.kind = .flowEntry then pure p.drop
        else fail fault t.mark
      f p) := by
  refine .ite (.bind (P := Calm) (.ok h) hf) (.ite (.bind (P := Calm) (.ok h.drop) hf) ?_)
  exact .bind (P := Calm) (.error _) hf

theorem Calm.blockMappingKey (h : p.Calm) (first : Bool) : Leaves (p.blockMappingKey d first) := by
  unfold Parser.blockMappingKey
  refine h.enter fun p h => h.look.bind fun ⟨t, q⟩ hq => ?_
  dsimp only
  split
  · refine hq.drop.look.bind fun ⟨t, r⟩ hr => ?_
    exact .ite (hr.emitEmpty_goto rfl _) ((hr.after rfl).node _ _)
  · exact hq.drop.emit_back _ _
  · exact .ite (.error _) (hq.emitEmpty_goto rfl _)
  · exact .error _

theorem Calm.blockMappingValue (h : p.Calm) : Leaves (p.blockMappingValue d) := by
  unfold Parser.blockMappingValue
  refine h.look.bind fun ⟨t, q⟩ hq => .ite ?_ (hq.emitEmpty_goto rfl _)
  refine hq.drop.look.bind fun ⟨t, r⟩ hr => ?_
  exact .ite (hr.emitEmpty_goto rfl _) ((hr.after rfl).node _ _)

theorem Calm.blockSequence (h : p.Calm) (first : Bool) : Leaves (p.blockSequence d first) := by
  unfold Parser.blockSequence
  refine h.enter fun p h => h.look.bind fun ⟨t, q⟩ hq => ?_
  dsimp only
  split
  · exact hq.drop.emit_back _ _
  · refine hq.drop.look.bind fun ⟨t, r⟩ hr => ?_
    dsimp only
    split
    · exact hr.emitEmpty_goto rfl _
    · exact hr.emitEmpty_goto rfl _
    · exact (hr.after rfl).node _ _
  · exact .error _

theorem Calm.indentlessSequence (h : p.Calm) : Leaves (p.indentlessSequence d) := by
  unfold Parser.indentlessSequence
  refine h.look.bind fun ⟨t, q⟩ hq => .ite (hq.emit_back _ _) ?_
  refine hq.drop.look.bind fun ⟨t, r⟩ hr => ?_
  exact .ite (hr.emitEmpty_goto rfl _) ((hr.after rfl).node _ _)

theorem Calm.flowSequence (h : p.Calm) (first : Bool) : Leaves (p.flowSequence d first) := by
  unfold Parser.flowSequence
  refine h.enter fun p h => h.look.bind fun ⟨t, q⟩ hq => .ite (hq.drop.emit_back _ _) ?_
  refine hq.separate fun p h => h.look.bind fun ⟨t, r⟩ hr => ?_
  dsimp only
  split
  · exact hr.drop.emit_back _ _
  · exact hr.drop.emit_goto rfl _ _
  · exact (hr.after rfl).node _ _

theorem Calm.flowPairKey (h : p.Calm) : Leaves (p.flowPairKey d) := by
  unfold Parser.flowPairKey
  refine h.look.bind fun ⟨t, q⟩ hq => ?_
  dsimp only
  split
  · exact hq.drop.emitEmpty_goto rfl _
  · exact hq.drop.emitEmpty_goto rfl _
  · exact hq.drop.emitEmpty_goto rfl _
  · exact (hq.after rfl).node _ _

theorem Calm.flowPairValue (h : p.Calm) : Leaves (p.flowPairValue d) := by
  unfold Parser.flowPairValue
  refine h.look.bind fun ⟨t, q⟩ hq => .ite ?_ (hq.emitEmpty_goto rfl _)
  refine hq.drop.look.bind fun ⟨t, r⟩ hr => ?_
  dsimp only
  split
  · exact hr.emitEmpty_goto rfl _
  · exact hr.emitEmpty_goto rfl _
  · exact (hr.after rfl).node _ _

theorem Calm.flowMappingKey (h : p.Calm) (first : Bool) : Leaves (p.flowMappingKey d first) := by
  unfold Parser.flowMappingKey
  refine h.enter fun p h => h.look.bind fun ⟨t, q⟩ hq => .ite (hq.drop.emit_back _ _) ?_
  refine hq.separate fun p h => h.look.bind fun ⟨t, r⟩ hr => ?_
  dsimp only
  split
  · refine hr.drop.look.bind fun ⟨t, s⟩ hs => ?_
    dsimp only
    split
    · exact hs.emitEmpty_goto rfl _
    · exact hs.emitEmpty_goto rfl _
    · exact hs.emitEmpty_goto rfl _
    · exact (hs.after rfl).node _ _
  · exact hr.drop.emit_back _ _
  · exact .ite (.error _) (hr.emitEmpty_goto rfl _)
  · exact (hr.after rfl).node _ _

theorem Calm.flowMappingValue (h : p.Calm) (empty : Bool) : Leaves (p.flowMappingValue d empty) := by
  unfold Parser.flowMappingValue
  refine h.look.bind fun ⟨t, q⟩ hq => .ite (hq.emitEmpty_goto rfl _) ?_
  refine hq.drop.look.bind fun ⟨t, r⟩ hr => ?_
  dsimp only
  split
  · exact hr.emitEmpty_goto rfl _
  · exact hr.emitEmpty_goto rfl _
  · exact (hr.after rfl).node _ _

/-! Between documents. -/

theorem Calm.readDirectives (h : p.Calm) (fuel : Nat) (versioned : Bool)
    (handles : List (String × Uri)) :
    Ensures Calm (Parser.readDirectives d fuel versioned handles p) := by
  induction fuel generalizing p versioned handles with
  | zero => exact .ok h
  | succ fuel ih =>
    unfold Parser.readDirectives
    refine h.look.bind ?_
    rintro ⟨t, q⟩ hq
    dsimp only
    split
    · exact .ite (.error _) (.ite (.error _) (ih hq.drop true handles))
    · exact .ite (.error _) (ih hq.drop versioned _)
    · exact .ok hq

theorem Calm.startDocument (h : p.Calm) : Ensures Calm (p.startDocument d) :=
  (h.readDirectives _ _ _).bind fun _ hq => .ok hq

theorem Calm.dropDocumentEnds (h : p.Calm) (fuel : Nat) :
    Ensures Calm (Parser.dropDocumentEnds fuel p) := by
  induction fuel generalizing p with
  | zero => exact .ok h
  | succ fuel ih =>
    unfold Parser.dropDocumentEnds
    refine h.look.bind ?_
    rintro ⟨t, q⟩ hq
    exact .ite (ih hq.drop) (.ok hq)

theorem Calm.explicitDocument (h : p.Calm) : Leaves (p.explicitDocument d) := by
  unfold Parser.explicitDocument
  refine h.startDocument.bind fun q hq => hq.look.bind fun ⟨t, r⟩ hr => ?_
  exact .ite ((hr.drop.after rfl).emit_goto rfl _ _) (.error _)

/-- Going on behind the ends of documents. -/
theorem Calm.skip (h : p.Calm) {implicit : Bool} {fuel : Nat} {f : Parser → Step}
    (hf : ∀ q : Parser, q.Calm → Leaves (f q)) :
    Leaves (do
      let p ← if implicit then pure p else Parser.dropDocumentEnds fuel p
      f p) :=
  .ite (hf p h) ((h.dropDocumentEnds fuel).bind hf)

theorem Calm.document (h : p.Calm) (implicit : Bool) : Leaves (p.document d implicit) := by
  unfold Parser.document
  refine h.skip fun p h => h.look.bind fun ⟨t, r⟩ hr => ?_
  dsimp only
  split
  · exact hr.drop.emit_goto rfl _ _
  · exact hr.explicitDocument
  · exact hr.explicitDocument
  · exact hr.explicitDocument
  · refine .ite (hr.startDocument.bind fun s hs => ?_) hr.explicitDocument
    exact (hs.after rfl).emit_goto rfl _ _

theorem Calm.documentContent (h : p.Calm) : Leaves (p.documentContent d) := by
  unfold Parser.documentContent
  refine h.look.bind fun ⟨t, q⟩ hq => ?_
  dsimp only
  split
  · exact hq.emitEmpty_back _
  · exact hq.emitEmpty_back _
  · exact hq.emitEmpty_back _
  · exact hq.emitEmpty_back _
  · exact hq.emitEmpty_back _
  · exact hq.node _ _

theorem Calm.documentEnd (h : p.Calm) : Leaves p.documentEnd := by
  unfold Parser.documentEnd
  refine h.look.bind fun ⟨t, q⟩ hq => ?_
  dsimp only
  split
  · exact hq.drop.emit_goto rfl _ _
  · exact hq.emit_goto rfl _ _

/-- Whenever a parser comes to stand before the start of a block mapping, it has just yielded the
event of this start. -/
theorem Calm.step (h : p.Calm) : Leaves (p.step d) := by
  unfold Parser.step
  split
  · exact h.document _
  · exact h.documentContent
  · exact h.documentEnd
  · exact h.node _ _
  · exact h.blockSequence _
  · exact h.indentlessSequence
  · exact h.blockMappingKey _
  · exact h.blockMappingValue
  · exact h.flowSequence _
  · exact h.flowPairKey
  · exact h.flowPairValue
  · exact h.emit_goto rfl _ _
  · exact h.flowMappingKey _
  · exact h.flowMappingValue _
  · exact .error _

theorem open?_arrives (scan : Scan) (e : Event) : Ensures (Arrives e) (ofScan scan).open? := by
  unfold open? look
  split
  · exact .error _
  · refine .ite (.ok ⟨List.forall_mem_nil _, fun henters => ?_⟩) (.error _)
    cases henters

end Yaml.Parser

end Blueprint
