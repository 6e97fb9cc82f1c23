import Blueprint.Proofs.EventTree
import Blueprint.Proofs.ParserLikeness
import Blueprint.Proofs.ParserOpenings

/-!
An entry is put in front of a block mapping. Tokens that have those of the entry behind the start of
the mapping lead to events that have those of the entry there.
-/

namespace Blueprint

/-- Two texts, and an entry that the second one has in front of the first key of a mapping. -/
structure Insertion where
  old : Source
  new : Source
  /-- Where the mapping is opened in the first text. -/
  opening : Mark
  /-- Where its first key starts there. -/
  place : Mark
  /-- What the first key reads. -/
  word : String
  key : String
  text : String
  style : Yaml.ScalarStyle

namespace Insertion

def rewriting (w : Insertion) : Rewriting :=
  ⟨w.old, w.new, []⟩

/-- The first key cannot be taken for a missing node. -/
def Written (w : Insertion) : Prop :=
  w.word ≠ "" ∧ w.word ≠ "~"

instance (w : Insertion) : Decidable w.Written :=
  inferInstanceAs (Decidable (_ ∧ _))

/-- A tilde that is read in the second text is written there. -/
def TildeWritten (w : Insertion) (text : String) (m : Mark) : Prop :=
  text = "~" → w.new.char? m.index = some '~'

instance (w : Insertion) (text : String) (m : Mark) : Decidable (w.TildeWritten text m) :=
  inferInstanceAs (Decidable (_ → _))

end Insertion

namespace Yaml

/-- The text of a scalar. -/
def TokenKind.text? : TokenKind → Option String
  | .scalar text _ => some text
  | _ => none

theorem TokenKind.Alike.eq {k k' : TokenKind} (h : TokenKind.Alike [] k k') : k' = k := by
  cases h with
  | same => rfl
  | boolean _ hword => cases hword

/-- Tokens of the two texts that are alike, and not the first key. -/
structure Token.Kept (w : Insertion) (t t' : Token) : Prop where
  alike : Token.Alike w.rewriting t t'
  apart : t.kind.text? = some w.word → t.mark ≠ w.place

instance (w : Insertion) (t t' : Token) : Decidable (Token.Kept w t t') :=
  decidable_of_iff (Token.Alike w.rewriting t t' ∧ (t.kind.text? = some w.word → t.mark ≠ w.place))
    ⟨fun h => ⟨h.1, h.2⟩, fun h => ⟨h.1, h.2⟩⟩

/-- Tokens that are kept, one by one. -/
def TokensKept (w : Insertion) : List HandedToken → List HandedToken → Prop :=
  List.Forall₂ fun t t' => Token.Kept w t.token t'.token

instance (w : Insertion) (ts ts' : List HandedToken) : Decidable (TokensKept w ts ts') :=
  inferInstanceAs (Decidable (List.Forall₂ _ _ _))

/-- The second tokens are the first ones with those of the entry behind the token `n`, which starts
the mapping. -/
structure TokensInserted (w : Insertion) (n : Nat) (ts ts' : List HandedToken) : Prop where
  before : TokensKept w (ts.take (n + 1)) (ts'.take (n + 1))
  start : ((ts.drop n).take 2).map (·.token.kind) = [.blockMappingStart, .key]
  first : ((ts.drop (n + 2)).take 1).map (fun t => (t.token.kind.text?, t.token.mark)) =
    [(some w.word, w.place)]
  opening : ((ts.drop n).take 1).map (·.token.mark) = [w.opening]
  entry : ((ts'.drop (n + 1)).take 4).map (·.token.kind) =
    [.key, .scalar w.key .plain, .value, .scalar w.text w.style]
  tildes : ∀ t ∈ (ts'.drop (n + 1)).take 4, ∀ text ∈ t.token.kind.text?,
    w.TildeWritten text t.token.mark
  key : List.Forall₂ (fun t t' => Token.Alike w.rewriting t.token t'.token)
    ((ts.drop (n + 1)).take 2) ((ts'.drop (n + 5)).take 2)
  after : TokensKept w (ts.drop (n + 3)) (ts'.drop (n + 7))

/-- A list that starts with some elements. -/
theorem exists_of_take_map {α β : Type} {f : α → β} {b : β} {bs : List β} {ts : List α} {n : Nat}
    (h : (ts.take (n + 1)).map f = b :: bs) :
    ∃ t r, ts = t :: r ∧ f t = b ∧ (r.take n).map f = bs := by
  cases ts with
  | nil => cases h
  | cons t r => exact ⟨t, r, rfl, List.cons.inj h⟩

instance (w : Insertion) (n : Nat) (ts ts' : List HandedToken) :
    Decidable (TokensInserted w n ts ts') :=
  decidable_of_iff (_ ∧ _ ∧ _ ∧ _ ∧ _ ∧ (∀ t ∈ (ts'.drop (n + 1)).take 4, ∀ text ∈ t.token.kind.text?,
      w.TildeWritten text t.token.mark) ∧ _ ∧ _)
    ⟨fun ⟨before, start, first, opening, entry, tildes, key, after⟩ =>
      ⟨before, start, first, opening, entry, tildes, key, after⟩,
    fun h => ⟨h.before, h.start, h.first, h.opening, h.entry, h.tildes, h.key, h.after⟩⟩

namespace TokensInserted

variable {w : Insertion} {n : Nat} {t t' : HandedToken} {r r' ts ts' : List HandedToken}

theorem head (h : TokensInserted w n (t :: r) (t' :: r')) : Token.Kept w t.token t'.token :=
  (List.forall₂_cons.mp h.before).1

theorem tail (h : TokensInserted w (n + 1) (t :: r) (t' :: r')) : TokensInserted w n r r' where
  before := (List.forall₂_cons.mp h.before).2
  start := h.start
  first := h.first
  opening := h.opening
  entry := h.entry
  tildes := h.tildes
  key := h.key
  after := h.after

theorem start_kind (h : TokensInserted w 0 (t :: r) ts') : t.token.kind = .blockMappingStart :=
  (List.cons.inj h.start).1

/-- The tokens from the start of the mapping on, those of the entry among the second ones. -/
inductive FromStart (w : Insertion) : List HandedToken → List HandedToken → Prop where
  | intro {start key first start' mark label colon text key' first' : HandedToken}
    {r r' : List HandedToken} {style : ScalarStyle}
    (hkey : key.token.kind = .key)
    (hfirst : first.token = ⟨.scalar w.word style, w.place⟩)
    (hmark : mark.token.kind = .key) (hlabel : label.token.kind = .scalar w.key .plain)
    (hcolon : colon.token.kind = .value) (htext : text.token.kind = .scalar w.text w.style)
    (hlabelTilde : w.TildeWritten w.key label.token.mark)
    (htextTilde : w.TildeWritten w.text text.token.mark)
    (hkey' : key'.token.kind = .key) (hfirst' : first'.token.kind = .scalar w.word style)
    (htilde : TildeAlike w.rewriting w.place first'.token.mark) (hr : TokensKept w r r') :
    FromStart w (start :: key :: first :: r)
      (start' :: mark :: label :: colon :: text :: key' :: first' :: r')

theorem fromStart (h : TokensInserted w 0 ts ts') : FromStart w ts ts' := by
  obtain ⟨-, start, first, -, entry, tildes, key, after⟩ := h
  obtain ⟨s, r₁, rfl, -, hstart⟩ := exists_of_take_map start
  obtain ⟨k, r₂, rfl, hk, -⟩ := exists_of_take_map hstart
  obtain ⟨f, r, rfl, hf, -⟩ := exists_of_take_map first
  cases ts' with
  | nil => cases entry
  | cons s' r' =>
    obtain ⟨mark, r₁', rfl, hmark, hentry⟩ := exists_of_take_map entry
    obtain ⟨label, r₂', rfl, hlabel, hentry⟩ := exists_of_take_map hentry
    obtain ⟨colon, r₃', rfl, hcolon, hentry⟩ := exists_of_take_map hentry
    obtain ⟨text, r₄', rfl, htext, -⟩ := exists_of_take_map hentry
    have hkey : List.Forall₂ (fun t t' => Token.Alike w.rewriting t.token t'.token) [k, f]
        (r₄'.take 2) := key
    match r₄', hkey with
    | k' :: f' :: r', .cons hk' (.cons hf' .nil) =>
      have htilde {t : HandedToken} {s : String} {style : ScalarStyle}
          (ht : t ∈ [mark, label, colon, text]) (hkind : t.token.kind = .scalar s style) :
          w.TildeWritten s t.token.mark := tildes t ht s (by rw [hkind]; rfl)
      obtain ⟨⟨fkind, fmark⟩, freached⟩ := f
      obtain ⟨hword, hplace⟩ := Prod.mk.inj hf
      obtain rfl : fmark = w.place := hplace
      cases fkind with
      | scalar word style =>
        obtain rfl : word = w.word := Option.some.inj hword
        exact .intro hk rfl hmark hlabel hcolon htext
          (htilde (by simp) hlabel) (htilde (by simp) htext)
          (hk'.kind.eq.trans hk) hf'.kind.eq hf'.tilde after
      | _ => cases hword

end TokensInserted

/-- Parsers that have the start of the mapping still ahead. -/
def Token.Kept.ahead (w : Insertion) : Matching where
  token := Token.Kept w
  list ts ts' := ∃ n, TokensInserted w n ts ts'
  kind h := (Token.Alike.matching w.rewriting).kind h.alike
  head := fun ⟨_, h⟩ => h.head
  more := fun ⟨_, h⟩ => nomatch h.before
  tail := by
    rintro t t' r r' ⟨n, h⟩ hkind
    cases n with
    | zero => exact absurd h.start_kind hkind
    | succ n => exact ⟨n, h.tail⟩

/-- Parsers that have the first key behind them. -/
def Token.Kept.behind (w : Insertion) : Matching where
  token := Token.Kept w
  list := TokensKept w
  kind h := (Token.Alike.matching w.rewriting).kind h.alike
  head h := (List.forall₂_cons.mp h).1
  more h := nomatch h
  tail h _ := (List.forall₂_cons.mp h).2

theorem Token.Kept.behind_total (w : Insertion) : (behind w).Total :=
  fun h => (List.forall₂_cons.mp h).2

/-- Events of the two texts that are alike, and not that of the first key. -/
structure Event.Kept (w : Insertion) (e e' : Event) : Prop where
  alike : Event.Alike w.rewriting e e'
  apart : ∀ style anchor tag, e.kind = .scalar w.word style anchor tag → e.mark ≠ w.place

theorem Event.Kept.of_matching {w : Insertion} (hw : w.Written) {M : Matching}
    (hM : ∀ {t t'}, M.token t t' → Token.Kept w t t') {e e' : Event} (h : M.Event e e') :
    Event.Kept w e e' := by
  cases h with
  | same k hk ht =>
    refine ⟨⟨.same k, Or.inr (hM ht).alike.tilde⟩, fun style anchor tag hkind => ?_⟩
    obtain rfl : k = .scalar w.word style anchor tag := hkind
    exact (hk.elim hw.1 hw.2).elim
  | pairEnd => exact ⟨⟨.same _, Or.inl rfl⟩, nofun⟩
  | @scalars t t' ht text style text' style' hkind hkind' anchor tag =>
    have heq := (hM ht).alike.kind.eq
    rw [hkind, hkind'] at heq
    cases heq
    refine ⟨⟨.same _, Or.inr (hM ht).alike.tilde⟩, fun style anchor tag heq => ?_⟩
    cases heq
    exact (hM ht).apart (by rw [hkind]; rfl)

/-- The second events are the first ones with those of the entry behind the start of the mapping, up
to places; `e` is the event before them. -/
inductive EventsInserted (w : Insertion) : Event → List Event → List Event → Prop where
  | nil (e : Event) : EventsInserted w e [] []
  | keep (e : Event) {f f' : Event} {r r' : List Event} (hf : Event.Kept w f f')
    (h : EventsInserted w f r r') : EventsInserted w e (f :: r) (f' :: r')
  | entry (anchor : Option String) (tag : Option Tag) (style : ScalarStyle) {m m₁ m₂ : Mark}
    (hkey : w.TildeWritten w.key m₁) (htext : w.TildeWritten w.text m₂)
    (htilde : TildeAlike w.rewriting w.place m) {r r' : List Event}
    (h : List.Forall₂ (Event.Kept w) r r') :
    EventsInserted w ⟨.mappingStart anchor tag, w.opening⟩
      (⟨.scalar w.word style none none, w.place⟩ :: r)
      (⟨.scalar w.key .plain none none, m₁⟩ :: ⟨.scalar w.text w.style none none, m₂⟩ ::
        ⟨.scalar w.word style none none, m⟩ :: r')

namespace Parser

variable {d : Dialect} {p p' : Parser} {stop : EventKind → Bool} {es : List Event} {fuel : Nat}

/-- The events of a parser up to the first one of a kind in `stop`. -/
inductive Yields (d : Dialect) (stop : EventKind → Bool) : Parser → List Event → Prop where
  | last {p p' : Parser} {e : Event} (h : p.step d = .ok (e, p')) (hstop : stop e.kind = true) :
    Yields d stop p [e]
  | next {p p' : Parser} {e : Event} {es : List Event} (h : p.step d = .ok (e, p'))
    (hstop : stop e.kind = false) (hrest : Yields d stop p' es) : Yields d stop p (e :: es)

theorem Yields.run (h : Yields d stop p es) (hfuel : es.length ≤ fuel) :
    p.run d stop fuel = .ok es := by
  induction h generalizing fuel with
  | @last p p' e h hstop =>
    obtain ⟨fuel, rfl⟩ := Nat.exists_eq_add_one_of_ne_zero (Nat.ne_of_gt hfuel)
    rw [Parser.run, h]
    show (if stop e.kind then _ else _) = _
    rw [if_pos hstop]
    rfl
  | @next p p' e es h hstop _ ih =>
    obtain ⟨fuel, rfl⟩ := Nat.exists_eq_add_one_of_ne_zero (Nat.ne_of_gt (Nat.zero_lt_of_lt hfuel))
    rw [Parser.run, h]
    show (if stop e.kind then _ else _) = _
    rw [if_neg (by rw [hstop]; exact Bool.false_ne_true), ih (Nat.le_of_succ_le_succ hfuel)]
    rfl

theorem length_run (h : p.run d stop fuel = .ok es) : es.length ≤ fuel := by
  induction fuel generalizing p es with
  | zero =>
    cases h
    exact Nat.le_refl 0
  | succ fuel ih =>
    rw [Parser.run] at h
    obtain ⟨⟨e, p'⟩, -, h⟩ := bind_eq_ok.mp h
    dsimp only at h
    split at h
    · cases h
      exact Nat.succ_le_succ (Nat.zero_le fuel)
    · obtain ⟨rest, hrest, h⟩ := bind_eq_ok.mp h
      cases h
      exact Nat.succ_le_succ (ih hrest)

/-- A run that ends with the event that it waits for. -/
theorem yields_of_run (h : p.run d stop fuel = .ok es) (hlast : es.getLast?.any (stop ·.kind)) :
    Yields d stop p es := by
  induction fuel generalizing p es with
  | zero =>
    cases h
    cases hlast
  | succ fuel ih =>
    rw [Parser.run] at h
    obtain ⟨⟨e, p'⟩, hstep, h⟩ := bind_eq_ok.mp h
    dsimp only at h
    split at h
    next hstop =>
      cases h
      exact .last hstep hstop
    next hstop =>
      obtain ⟨rest, hrest, h⟩ := bind_eq_ok.mp h
      cases h
      refine .next hstep (Bool.eq_false_iff.mpr hstop) (ih hrest ?_)
      cases rest with
      | nil => exact absurd hlast hstop
      | cons f rest => rwa [List.getLast?_cons_cons] at hlast

/-! The steps at the start of the mapping. -/

variable {b k t : HandedToken} {r : List HandedToken} {text : String} {style : ScalarStyle}

/-- What is left of a parser that has read up to a scalar. -/
def past (p : Parser) (t : HandedToken) (r : List HandedToken) (expect : Expect) : Parser :=
  { p with tokens := r, reached := t.reached, expect }

theorem step_key (hexpect : p.expect = .blockMappingKey false) (htokens : p.tokens = k :: t :: r)
    (hk : k.token.kind = .key) (ht : t.token.kind = .scalar text style) :
    p.step d = .ok (⟨.scalar text style none none, t.token.mark⟩,
      p.past t r .blockMappingValue) := by
  simp [step, hexpect, blockMappingKey, look, drop, endsBlockPart, node, properties, content, emit,
    after, back, past, bind, Except.bind, pure, Except.pure, htokens, hk, ht]

theorem step_firstKey (hexpect : p.expect = .blockMappingKey true)
    (htokens : p.tokens = b :: k :: t :: r) (hk : k.token.kind = .key)
    (ht : t.token.kind = .scalar text style) :
    p.step d = .ok (⟨.scalar text style none none, t.token.mark⟩,
      p.past t r .blockMappingValue) := by
  simp [step, hexpect, blockMappingKey, look, drop, endsBlockPart, node, properties, content, emit,
    after, back, past, bind, Except.bind, pure, Except.pure, htokens, hk, ht]

theorem step_value (hexpect : p.expect = .blockMappingValue) (htokens : p.tokens = k :: t :: r)
    (hk : k.token.kind = .value) (ht : t.token.kind = .scalar text style) :
    p.step d = .ok (⟨.scalar text style none none, t.token.mark⟩,
      p.past t r (.blockMappingKey false)) := by
  simp [step, hexpect, blockMappingValue, look, drop, endsBlockPart, node, properties, content,
    emit, after, back, past, bind, Except.bind, pure, Except.pure, htokens, hk, ht]

/-- Behind the first key the parsers go on alike. -/
theorem yields_behind {w : Insertion} (hw : w.Written) (hstop : ∀ text style anchor tag,
      stop (.scalar text style anchor tag) = false)
    (hp : (Token.Kept.behind w).Parsers p p') (h : Yields d stop p es) :
    ∃ es', Yields d stop p' es' ∧ List.Forall₂ (Event.Kept w) es es' := by
  induction h generalizing p' with
  | last h hstopped =>
    obtain ⟨⟨e', q'⟩, hstep, he, -⟩ := Matching.Total.step (Token.Kept.behind_total w) hp _ h
    have hkept : Event.Kept w _ e' := .of_matching hw id he
    exact ⟨[e'], .last hstep ((he.stop_eq hstop).trans hstopped), .cons hkept .nil⟩
  | next h hgoes _ ih =>
    obtain ⟨⟨e', q'⟩, hstep, he, hq⟩ := Matching.Total.step (Token.Kept.behind_total w) hp _ h
    obtain ⟨es', hrest, hes⟩ := ih hq
    have hkept : Event.Kept w _ e' := .of_matching hw id he
    exact ⟨e' :: es', .next hstep ((he.stop_eq hstop).trans hgoes) hrest, .cons hkept hes⟩

/-- At the start of the mapping the second parser reads the entry first. -/
theorem yields_entry {w : Insertion} (hw : w.Written)
    (hstop : ∀ text style anchor tag, stop (.scalar text style anchor tag) = false)
    (hp : (Token.Kept.ahead w).Parsers p p') (hinserted : TokensInserted w 0 p.tokens p'.tokens)
    (hexpect : p.expect = .blockMappingKey true) (anchor : Option String) (tag : Option Tag)
    (h : Yields d stop p es) :
    ∃ es', Yields d stop p' es' ∧ EventsInserted w ⟨.mappingStart anchor tag, w.opening⟩ es es' := by
  have hexpect' : p'.expect = .blockMappingKey true := hp.expect.trans hexpect
  generalize hts : p.tokens = ts at hinserted
  generalize hts' : p'.tokens = ts' at hinserted
  cases hinserted.fromStart with
  | @intro start key first start' mark label colon text key' first' r r' style hkey hfirst hmark
      hlabel hcolon htext hlabelTilde htextTilde hkey' hfirst' htilde hr =>
    have hstep := step_firstKey (d := d) hexpect hts hkey (by rw [hfirst])
    let q₁ := p'.past label (colon :: text :: key' :: first' :: r') .blockMappingValue
    let q₂ := q₁.past text (key' :: first' :: r') (.blockMappingKey false)
    have hone : p'.step d = .ok (_, q₁) := step_firstKey hexpect' hts' hmark hlabel
    have htwo : q₁.step d = .ok (_, q₂) := step_value rfl rfl hcolon htext
    have hthree := step_key (d := d) (p := q₂) rfl rfl hkey' hfirst'
    have hrest : (Token.Kept.behind w).Parsers (p.past first r .blockMappingValue)
        (p'.past first' r' .blockMappingValue) :=
      ⟨hr, rfl, hp.pending, hp.anchors, hp.handles⟩
    cases h with
    | last h hstopped =>
      cases hstep.symm.trans h
      rw [hstop] at hstopped
      cases hstopped
    | next h _ hyields =>
      cases hstep.symm.trans h
      obtain ⟨es', hyields', hes⟩ := yields_behind hw hstop hrest hyields
      refine ⟨_, .next hone (hstop ..) (.next htwo (hstop ..) (.next hthree (hstop ..) hyields')), ?_⟩
      rw [hfirst]
      exact .entry anchor tag style hlabelTilde htextTilde htilde hes

/-- Two parsers are at the start of the mapping, or the first one enters nothing there. -/
theorem Arrives.starts {w : Insertion} {e : Event} (h : Arrives e p)
    (hp : (Token.Kept.ahead w).Parsers p p') :
    (p.expect = .blockMappingKey true ∧ TokensInserted w 0 p.tokens p'.tokens ∧
        ∃ anchor tag, e = ⟨.mappingStart anchor tag, w.opening⟩) ∨
      (p.expect.enters = true → p.tokens ≠ [] →
        (Token.Kept.ahead w).list p.tokens.tail p'.tokens.tail) := by
  obtain ⟨n, hn⟩ := hp.tokens
  cases n with
  | succ n =>
    right
    intro _ hne
    generalize hts : p.tokens = ts at hn hne
    generalize hts' : p'.tokens = ts' at hn
    cases ts with
    | nil => exact absurd rfl hne
    | cons t r =>
      cases ts' with
      | nil => cases hn.before
      | cons t' r' => exact ⟨n, hn.tail⟩
  | zero =>
    by_cases henters : p.expect.enters = true
    · left
      obtain ⟨t, r, hts, hkind, -⟩ := exists_of_take_map hn.start
      obtain ⟨_, _, hts', hmark, -⟩ := exists_of_take_map hn.opening
      obtain ⟨rfl, rfl⟩ := List.cons.inj (hts.symm.trans hts')
      have hhead : t ∈ p.tokens.head? := by
        rw [show p.tokens = t :: r from hts]
        rfl
      obtain ⟨hexpect, anchor, tag, he⟩ := h.opens henters t hhead hkind
      exact ⟨hexpect, hn, anchor, tag, he.trans (congrArg _ hmark)⟩
    · exact Or.inr fun h => absurd h henters

/-- The second parser yields the events of the first one and those of the entry. -/
theorem yields_ahead {w : Insertion} (hw : w.Written)
    (hstop : ∀ text style anchor tag, stop (.scalar text style anchor tag) = false) {e : Event}
    (hp : (Token.Kept.ahead w).Parsers p p') (harrives : Arrives e p) (h : Yields d stop p es) :
    ∃ es', Yields d stop p' es' ∧ EventsInserted w e es es' := by
  -- The induction is on the steps of the first parser. It ends before the first key.
  induction h generalizing p' e with
  | @last p q f h hstopped =>
    rcases harrives.starts hp with ⟨hexpect, hinserted, anchor, tag, rfl⟩ | henters
    · exact yields_entry hw hstop hp hinserted hexpect anchor tag (.last h hstopped)
    · obtain ⟨⟨f', q'⟩, hstep, hf, -⟩ := hp.step henters _ h
      have hkept : Event.Kept w f f' := .of_matching hw id hf
      exact ⟨[f'], .last hstep ((hf.stop_eq hstop).trans hstopped), .keep e hkept (.nil f)⟩
  | @next p q f es h hgoes hrest ih =>
    rcases harrives.starts hp with ⟨hexpect, hinserted, anchor, tag, rfl⟩ | henters
    · exact yields_entry hw hstop hp hinserted hexpect anchor tag (.next h hgoes hrest)
    · obtain ⟨⟨f', q'⟩, hstep, hf, hq⟩ := hp.step henters _ h
      have hkept : Event.Kept w f f' := .of_matching hw id hf
      have harrives' : Arrives f q := harrives.calm.step _ h
      obtain ⟨es', hyields, hes⟩ := ih hq harrives'
      exact ⟨f' :: es', .next hstep ((hf.stop_eq hstop).trans hgoes) hyields, .keep e hkept hes⟩

end Parser

theorem TokensInserted.length {w : Insertion} {n : Nat} {ts ts' : List HandedToken}
    (h : TokensInserted w n ts ts') : ts'.length = ts.length + 4 := by
  have hfirst := congrArg List.length h.first
  have hentry := congrArg List.length h.entry
  have hbefore := h.before.length_eq
  have hkey := h.key.length_eq
  have hafter := h.after.length_eq
  simp only [List.length_map, List.length_take, List.length_drop, List.length_cons,
    List.length_nil] at *
  omega

theorem EventsInserted.length {w : Insertion} {e : Event} {es es' : List Event}
    (h : EventsInserted w e es es') : es'.length ≤ es.length + 2 := by
  induction h with
  | nil => exact Nat.zero_le _
  | keep e hf _ ih => exact Nat.succ_le_succ ih
  | entry anchor tag style hkey htext htilde h =>
    have hlength := h.length_eq
    simp only [List.length_cons]
    omega

namespace Event

open Blueprint.Yaml.Parser (endsDocument)

/-- The events of a first document end with that of its end. -/
theorem ofFirstDocument_ends {d : Dialect} {scan : Scan} {es : List Event}
    (h : ofFirstDocument d scan = .ok es) : es.getLast?.any (endsDocument ·.kind) := by
  rcases ofFirstDocument_tree h with ⟨e, rfl, hkind⟩ | ⟨_, _, _, _, _, t, first, last, heq, _, hkind⟩
  · show endsDocument e.kind = true
    rw [hkind]
    rfl
  · rw [heq, ← List.cons_append, List.getLast?_concat]
    show endsDocument last.kind = true
    rw [hkind]
    rfl

/-- Tokens with those of the entry among them lead to events with those of the entry among them. -/
theorem ofFirstDocument_inserted {w : Insertion} {n : Nat} {d : Dialect} {scan scan' : Scan}
    (hw : w.Written) (h : TokensInserted w n scan.tokens scan'.tokens) (e : Event) :
    Mirrors (EventsInserted w e) (ofFirstDocument d scan) (ofFirstDocument d scan') := by
  intro es hes
  have hlast := ofFirstDocument_ends hes
  obtain ⟨p, hopen, hrun⟩ := bind_eq_ok.mp hes
  have hparsers : (Token.Kept.ahead w).Parsers (Parser.ofScan scan) (Parser.ofScan scan') :=
    ⟨⟨n, h⟩, rfl, rfl, rfl, rfl⟩
  obtain ⟨p', hopen', hp⟩ := hparsers.open? p hopen
  have harrives := Parser.open?_arrives scan e p hopen
  obtain ⟨es', hyields, hinserted⟩ := Parser.yields_ahead hw (fun _ _ _ _ => rfl) hp harrives
    (Parser.yields_of_run hrun hlast)
  have hlimit : es'.length ≤ eventLimit scan' := by
    have hlength := Parser.length_run hrun
    have hentry := hinserted.length
    have htokens := h.length
    unfold eventLimit at *
    omega
  exact ⟨es', bind_eq_ok.mpr ⟨p', hopen', hyields.run hlimit⟩, hinserted⟩

end Event

end Yaml

end Blueprint
