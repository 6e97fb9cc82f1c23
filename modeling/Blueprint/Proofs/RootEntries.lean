import Blueprint.Proofs.NodeTokens

/-!
The tokens of a document whose root is a mapping: what stands before the root, the entries of the
root one after the other, and what follows the root.
-/

namespace Blueprint.Yaml

/-- An entry of a mapping with the tokens that write it. -/
structure EntryTokens where
  key : EventTree
  value : EventTree
  /-- A comma and the mark of the key. -/
  lead : List TokenKind
  keyTokens : List TokenKind
  colon : List TokenKind
  valueTokens : List TokenKind

namespace EntryTokens

open Yaml.Parser (keyLead missingNode)

def tokens (e : EntryTokens) : List TokenKind :=
  e.lead ++ (e.keyTokens ++ (e.colon ++ e.valueTokens))

/-- The tokens write the key and the value. A key or a value may be missing; the value of a key
without a mark is. -/
structure Written (flow : Bool) (e : EntryTokens) : Prop where
  lead : ∃ first marked, e.lead = keyLead flow first marked
  key : e.key.Writes e.keyTokens ∨ e.keyTokens = [] ∧ e.key.start.kind = missingNode
  value : e.colon = [.value] ∧ e.value.Writes e.valueTokens ∨
    (e.colon = [] ∨ e.colon = [.value]) ∧ e.valueTokens = [] ∧ e.value.start.kind = missingNode
  marked : .key ∉ e.lead → e.keyTokens ≠ [] → e.colon = []

/-- The entry starts with a comma in a flow mapping, with a mark or a colon in a block. -/
def Starts (flow : Bool) (e : EntryTokens) : Prop :=
  ∃ k ∈ if flow then [TokenKind.flowEntry] else [.key, .value], e.tokens.head? = some k

instance (flow : Bool) (e : EntryTokens) : Decidable (e.Starts flow) :=
  inferInstanceAs (Decidable (∃ k ∈ if flow then [TokenKind.flowEntry] else [.key, .value], _ = _))

/-- A colon after the first entry would be its own. -/
def HasColon (e e' : EntryTokens) : Prop :=
  e.colon = [] → e'.tokens.head? ≠ some .value

instance (e e' : EntryTokens) : Decidable (e.HasColon e') :=
  inferInstanceAs (Decidable (_ → _ ≠ _))

end EntryTokens

namespace Parser

variable {p p' q : Parser} {e : Event} {es : List Event} {x : Expect} {s : List Expect}
  {flow first marked bare : Bool}

theorem mappingKey_reads (hp : p.expect = .mappingKey flow first) (hpending : p.pending = x :: s)
    (hx : x.resumes = true) (h : p.step .document = .ok (e, p')) :
    KeyStep flow first p e p' ∧ p'.expect.isBehindKey = false := by
  cases flow with
  | false =>
    have hexpect : p.expect = .blockMappingKey first := hp
    rw [step, hexpect] at h
    exact blockMappingKey_reads hp hpending hx h
  | true =>
    have hexpect : p.expect = .flowMappingKey first := hp
    rw [step, hexpect] at h
    exact flowMappingKey_reads hp hpending hx h

theorem mappingValue_reads (hp : p.expect = .mappingValue flow bare)
    (hbare : bare = true → flow = true) (h : p.step .document = .ok (e, p')) :
    ValueStep flow bare p e p' ∧ p'.expect.isBehindKey = false := by
  cases flow with
  | false =>
    have hexpect : p.expect = .blockMappingValue := hp
    rw [step, hexpect] at h
    refine blockMappingValue_reads ?_ hp h
    exact Bool.eq_false_iff.mpr fun htrue => Bool.noConfusion (hbare htrue)
  | true =>
    have hexpect : p.expect = .flowMappingValue bare := hp
    rw [step, hexpect] at h
    exact flowMappingValue_reads hp h

/-- A key that has been read, with the tokens that write it. -/
structure KeyRead (flow first marked bare : Bool) (p : Parser) (k : EventTree)
    (ks : List TokenKind) (p' : Parser) : Prop where
  left : p.left = keyLead flow first marked ++ (ks ++ p'.left)
  unmarked : bare = true → flow = true ∧ marked = false
  written : k.Writes ks ∧ (marked = false → flow = true ∧ bare = true) ∨
    ks = [] ∧ k.start.kind = missingNode ∧ bare = false ∧
      (marked = false → p'.left.head? = some .value)

/-- A missing node is a node of its own. -/
def missingTree (e : Event) (h : e.kind = missingNode) : EventTree :=
  .leaf e (by rw [h]; rfl)

theorem Live.reads_key (h : Live p es) (hstack : p.stack = .mappingKey flow first :: x :: s)
    (hresumes : ∀ y ∈ x :: s, y.resumes = true) :
    (∃ stop later p' lead, es = stop :: later ∧ stop.kind = .mappingEnd ∧ Live p' later ∧
        p'.stack = x :: s ∧ (lead = [] ∨ lead = [.flowEntry]) ∧
        p.left = lead ++ mappingCloser flow :: p'.left) ∨
      ∃ k ks marked bare later p', es = k.events ++ later ∧ Live p' later ∧
        p'.stack = .mappingValue flow bare :: x :: s ∧
        KeyRead flow first marked bare p k ks p' := by
  obtain ⟨hp, hpending⟩ : p.expect = .mappingKey flow first ∧ p.pending = x :: s :=
    List.cons.inj hstack
  have hne : p.expect ≠ .documentEnd := by
    rw [hp]
    cases flow <;> exact Expect.noConfusion
  obtain ⟨e, p₁, later, rfl, hstep, _, hlive⟩ := h.next hne
  obtain ⟨hread, hbehind⟩ := mappingKey_reads hp hpending (hresumes x List.mem_cons_self) hstep
  have hlive := hlive (hread.moves hp hbehind).ahead
  cases hread with
  | @stop lead hlead hleft hstack₁ he =>
    refine Or.inl ⟨e, later, p₁, lead, rfl, he, hlive, hstack₁.trans hpending, ?_, hleft⟩
    rcases hlead with rfl | ⟨_, rfl⟩
    · exact Or.inl rfl
    · cases first
      · exact Or.inr rfl
      · exact Or.inl rfl
  | @node marked ks fs hmarked hbegins hleft hstack₁ hlist =>
    have hrest : ∀ y ∈ Expect.mappingValue flow (!marked) :: x :: s, y.resumes = true := by
      intro y hy
      rcases List.mem_cons.mp hy with rfl | hy
      · exact resumes_mappingValue flow _
      · exact hresumes y hy
    rw [hpending] at hstack₁
    obtain ⟨t, more, later', p₂, _, hevents, hlive₂, hstack₂, hmore, hwrites⟩ :=
      hlive.reads_node hbegins hstack₁ hrest fun z hz hnone => (hlist z hz hnone).2
    refine Or.inr ⟨t, more, marked, !marked, later', p₂, hevents, hlive₂, hstack₂,
      ⟨by rw [hleft, hmore], ?_, Or.inl ⟨hwrites, ?_⟩⟩⟩
    · intro hnot
      have hfalse : marked = false := by
        rw [Bool.not_eq_true'] at hnot
        exact hnot
      exact ⟨hmarked hfalse, hfalse⟩
    · exact fun hfalse => ⟨hmarked hfalse, by rw [hfalse]; rfl⟩
  | @missing marked he hleft hstack₁ hnext =>
    rw [hpending] at hstack₁
    exact Or.inr ⟨missingTree e he, [], marked, false, later, p₁, rfl, hlive, hstack₁,
      ⟨hleft, Bool.noConfusion, Or.inr ⟨rfl, he, rfl, hnext⟩⟩⟩

/-- A value that has been read, with the tokens that write it. -/
structure ValueRead (bare : Bool) (p : Parser) (v : EventTree) (colon ks : List TokenKind)
    (p' : Parser) : Prop where
  left : p.left = colon ++ (ks ++ p'.left)
  written : colon = [.value] ∧ v.Writes ks ∨
    (colon = [] ∨ colon = [.value]) ∧ ks = [] ∧ v.start.kind = missingNode
  none : bare = true → colon = []
  ahead : colon = [] → bare = true ∨ p.left.head? ≠ some .value

theorem Live.reads_value (h : Live p es) (hstack : p.stack = .mappingValue flow bare :: x :: s)
    (hbare : bare = true → flow = true) (hresumes : ∀ y ∈ x :: s, y.resumes = true) :
    ∃ v colon ks later p', es = v.events ++ later ∧ Live p' later ∧
      p'.stack = .mappingKey flow false :: x :: s ∧ ValueRead bare p v colon ks p' := by
  obtain ⟨hp, hpending⟩ : p.expect = .mappingValue flow bare ∧ p.pending = x :: s :=
    List.cons.inj hstack
  have hne : p.expect ≠ .documentEnd := by
    rw [hp]
    cases flow <;> exact Expect.noConfusion
  obtain ⟨e, p₁, later, rfl, hstep, _, hlive⟩ := h.next hne
  obtain ⟨hread, hbehind⟩ := mappingValue_reads hp hbare hstep
  have hlive := hlive (hread.moves hp hbehind).ahead
  cases hread with
  | @node ks fs hfalse hbegins hleft hstack₁ hlist =>
    have hrest : ∀ y ∈ Expect.mappingKey flow false :: x :: s, y.resumes = true := by
      intro y hy
      rcases List.mem_cons.mp hy with rfl | hy
      · exact resumes_mappingKey flow
      · exact hresumes y hy
    rw [hpending] at hstack₁
    obtain ⟨t, more, later', p₂, _, hevents, hlive₂, hstack₂, hmore, hwrites⟩ :=
      hlive.reads_node hbegins hstack₁ hrest fun z hz hnone => (hlist z hz hnone).2
    refine ⟨t, [.value], more, later', p₂, hevents, hlive₂, hstack₂,
      ⟨by rw [hleft, hmore]; rfl, Or.inl ⟨rfl, hwrites⟩, ?_, ?_⟩⟩
    · rw [hfalse]
      exact Bool.noConfusion
    · exact fun hnil => absurd hnil (List.cons_ne_nil _ _)
  | @missing colon he hcolon hleft hstack₁ =>
    rw [hpending] at hstack₁
    refine ⟨missingTree e he, colon, [], later, p₁, rfl, hlive, hstack₁, ⟨hleft, ?_, ?_, ?_⟩⟩
    · rcases hcolon with ⟨_, hcolon⟩ | ⟨_, hcolon⟩
      · exact Or.inr ⟨Or.inr hcolon, rfl, he⟩
      · exact Or.inr ⟨Or.inl hcolon, rfl, he⟩
    · intro htrue
      rcases hcolon with ⟨hfalse, _⟩ | ⟨_, hcolon⟩
      · rw [hfalse] at htrue
        cases htrue
      · exact hcolon
    · rintro rfl
      rcases hcolon with ⟨_, hcolon⟩ | ⟨hor, _⟩
      · cases hcolon
      · exact hor

/-- An entry that has been read is written by its tokens. -/
theorem KeyRead.entry {k v : EventTree} {ks colon vs : List TokenKind}
    (hkey : KeyRead flow first marked bare p k ks q) (hvalue : ValueRead bare q v colon vs p') :
    EntryTokens.Written flow ⟨k, v, keyLead flow first marked, ks, colon, vs⟩ := by
  refine ⟨⟨first, marked, rfl⟩, ?_, hvalue.written, ?_⟩
  · rcases hkey.written with ⟨hwrites, _⟩ | ⟨hnil, hmissing, _⟩
    · exact Or.inl hwrites
    · exact Or.inr ⟨hnil, hmissing⟩
  · intro hunmarked hne
    cases marked with
    | true =>
      refine absurd ?_ hunmarked
      exact List.mem_append_right _ List.mem_cons_self
    | false =>
      rcases hkey.written with ⟨_, hbare⟩ | ⟨hnil, _⟩
      · exact hvalue.none (hbare rfl).2
      · exact absurd hnil hne

/-- Only the first entry may start without a comma, a mark and a colon. -/
theorem KeyRead.starts {k v : EventTree} {ks colon vs : List TokenKind}
    (hkey : KeyRead flow false marked bare p k ks q) (hvalue : ValueRead bare q v colon vs p') :
    EntryTokens.Starts flow ⟨k, v, keyLead flow false marked, ks, colon, vs⟩ := by
  cases flow with
  | true => exact ⟨.flowEntry, by decide, by cases marked <;> rfl⟩
  | false =>
    cases marked with
    | true => exact ⟨.key, by decide, rfl⟩
    | false =>
      rcases hkey.written with ⟨_, hbare⟩ | ⟨rfl, _, rfl, hnext⟩
      · cases (hbare rfl).1
      · refine ⟨.value, by decide, ?_⟩
        cases colon with
        | nil =>
          rcases hvalue.ahead rfl with hbare | hne
          · cases hbare
          · exact absurd (hnext rfl) hne
        | cons k r =>
          have hcolon : k :: r = [.value] := by
            rcases hvalue.written with ⟨hcolon, _⟩ | ⟨hcolon, _⟩
            · exact hcolon
            · exact hcolon.resolve_left (List.cons_ne_nil k r)
          rw [hcolon]
          rfl

theorem KeyRead.hasColon {k v : EventTree} {ks colon vs : List TokenKind} {e' : EntryTokens}
    (hkey : KeyRead flow first marked bare p k ks q) (hvalue : ValueRead bare q v colon vs p')
    (hstart : e'.Starts flow) (hnext : p'.left.head? = e'.tokens.head?) :
    EntryTokens.HasColon ⟨k, v, keyLead flow first marked, ks, colon, vs⟩ e' := by
  intro hnil
  obtain rfl : colon = [] := hnil
  rcases hvalue.ahead rfl with hbare | hne
  · obtain ⟨c, hc, hhead⟩ := hstart
    rw [(hkey.unmarked hbare).1, if_pos rfl, List.mem_singleton] at hc
    rw [hhead, hc]
    exact fun heq => TokenKind.noConfusion (Option.some.inj heq)
  · rcases hvalue.written with ⟨hcolon, _⟩ | ⟨_, rfl, _⟩
    · cases hcolon
    · rwa [hvalue.left, List.nil_append, List.nil_append, hnext] at hne

/-- The entries of a mapping are read one after the other. -/
theorem Live.reads_entries {n : Nat} (hn : es.length = n) (h : Live p es)
    (hstack : p.stack = .mappingKey flow first :: x :: s)
    (hresumes : ∀ y ∈ x :: s, y.resumes = true) :
    ∃ (entries : List EntryTokens) (last : List TokenKind) (stop : Event) (later : List Event)
      (p' : Parser), es =
        EventTree.entryEvents (entries.map fun e => (e.key, e.value)) ++ stop :: later ∧
      stop.kind = .mappingEnd ∧ Live p' later ∧ p'.stack = x :: s ∧
      p.left = entries.flatMap EntryTokens.tokens ++ (last ++ mappingCloser flow :: p'.left) ∧
      (last = [] ∨ last = [.flowEntry]) ∧ (∀ e ∈ entries, e.Written flow) ∧
      entries.IsChain EntryTokens.HasColon ∧ (∀ e ∈ entries.tail, e.Starts flow) ∧
      (first = false → ∀ e ∈ entries, e.Starts flow) := by
  induction n using Nat.strong_induction_on generalizing p es first with
  | _ n ih =>
    rcases h.reads_key hstack hresumes with
      ⟨stop, later, p', lead, rfl, hstop, hlive, hback, hlead, hleft⟩ |
      ⟨k, ks, marked, bare, later, q, rfl, hlive, hstack', hkey⟩
    · refine ⟨[], lead, stop, later, p', rfl, hstop, hlive, hback, hleft, hlead, ?_, .nil, ?_, ?_⟩
      · exact fun e he => absurd he List.not_mem_nil
      · exact fun e he => absurd he List.not_mem_nil
      · exact fun _ e he => absurd he List.not_mem_nil
    · obtain ⟨v, colon, vs, later, p₂, rfl, hlive₂, hstack₂, hvalue⟩ :=
        hlive.reads_value hstack' (fun htrue => (hkey.unmarked htrue).1) hresumes
      have hless : later.length < n := by
        obtain ⟨r, hr⟩ := k.events_cons
        rw [List.length_append, List.length_append, hr, List.length_cons] at hn
        omega
      obtain ⟨entries, last, stop, rest, p', rfl, hstop, hlive', hback, hleft, hlast, hwritten,
          hcolons, _, hstarts⟩ := ih later.length hless rfl hlive₂ hstack₂
      refine ⟨⟨k, v, keyLead flow first marked, ks, colon, vs⟩ :: entries, last, stop, rest, p', ?_,
        hstop, hlive', hback, ?_, hlast, ?_, ?_, hstarts rfl, ?_⟩
      · rw [List.map_cons, EventTree.entryEvents, List.append_assoc, List.append_assoc]
      · rw [hkey.left, hvalue.left, hleft, List.flatMap_cons, EntryTokens.tokens]
        simp only [List.append_assoc]
      · intro e he
        rcases List.mem_cons.mp he with rfl | he
        · exact hkey.entry hvalue
        · exact hwritten e he
      · refine List.isChain_cons.mpr ⟨fun e' he' => ?_, hcolons⟩
        obtain ⟨r, rfl⟩ := List.head?_eq_some_iff.mp he'
        have hstart := hstarts rfl e' List.mem_cons_self
        refine hkey.hasColon hvalue hstart ?_
        rw [hleft, List.flatMap_cons, List.append_assoc]
        obtain ⟨c, _, hc⟩ := hstart
        rw [List.head?_append, hc]
        rfl
      · rintro rfl e he
        rcases List.mem_cons.mp he with rfl | he
        · exact hkey.starts hvalue
        · exact hstarts rfl e he

end Parser

end Blueprint.Yaml
