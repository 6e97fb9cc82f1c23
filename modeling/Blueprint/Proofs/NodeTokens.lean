import Blueprint.Proofs.EventTree
import Blueprint.Proofs.ParserReading
import Mathlib.Data.List.Chain

/-!
The tokens that write a node. A parser that starts a collection comes back to what is around it, and
the tokens that it reads on the way stay inside the collection.
-/

namespace Blueprint.Yaml

namespace Enclosure

/-- How many of the open collections an enclosure is; a list has no token that opens it. -/
def depth (c : Enclosure) : Nat :=
  c.closer?.toList.length

theorem depth_of_closer? {c : Enclosure} {k : TokenKind} (h : c.closer? = some k) :
    c.depth = 1 := by
  rw [depth, h]
  rfl

theorem depth_of_none {c : Enclosure} (h : c.closer? = none) : c.depth = 0 := by
  rw [depth, h]
  rfl

end Enclosure

namespace Expect

/-- How many of the collections are opened by tokens. -/
def depth (fs : List Expect) : Nat :=
  (fs.map fun x => x.enclosure.depth).sum

@[simp] theorem depth_nil : depth [] = 0 := rfl

@[simp] theorem depth_cons (x : Expect) (fs : List Expect) :
    depth (x :: fs) = x.enclosure.depth + depth fs :=
  List.sum_cons

theorem depth_append (fs gs : List Expect) : depth (fs ++ gs) = depth fs + depth gs := by
  rw [depth, List.map_append, List.sum_append]
  rfl

/-- The outermost collection is one of them. -/
theorem depth_last_le {fs : List Expect} {c : Enclosure}
    (h : fs.getLast?.map Expect.enclosure = some c) : c.depth ≤ depth fs := by
  obtain ⟨x, hx, rfl⟩ := Option.map_eq_some_iff.mp h
  obtain ⟨front, rfl⟩ := List.getLast?_eq_some_iff.mp hx
  rw [depth_append, depth_cons]
  omega

theorem slots_cons {x : Expect} (h : x.enclosure ≠ .document) :
    ∃ slot r, x.slots = slot :: r ∧ slot ≠ .documentEnd := by
  cases x with
  | document | documentContent | documentEnd | blockNode | nothing => exact absurd rfl h
  | _ => exact ⟨_, _, rfl, by decide⟩

namespace Goes

variable {x : Expect} {ks : List TokenKind} {fs : List Expect} {m floor : Nat}

/-- The tokens of a step go as deep as the stack, and leave what is below it alone. -/
theorem deep (h : x.Goes ks fs) (hleave : fs = [] → floor ≤ m) :
    Deep floor (x.enclosure.depth + m) ks ∧
      depthAfter (x.enclosure.depth + m) ks = Expect.depth fs + m := by
  have hpositive {ks : List TokenKind} (hkey : .key ∈ ks → x.closer?.isSome) :
      .key ∈ ks → 0 < x.enclosure.depth + m := by
    intro hmem
    obtain ⟨c, hc⟩ := Option.isSome_iff_exists.mp (hkey hmem)
    have := Enclosure.depth_of_closer? hc
    omega
  cases h with
  | stay hflat hkey hy =>
    refine ⟨deep_flat hflat (hpositive hkey), ?_⟩
    rw [depthAfter_flat hflat, depth_cons, hy]
    rfl
  | @enter y z ks os hflat hkey hy hresumes ho hz =>
    have hdepth : depthAfter (x.enclosure.depth + m) ks = x.enclosure.depth + m :=
      depthAfter_flat hflat _
    rw [deep_append, depthAfter_append, hdepth, depth_cons, depth_cons, hy, depth_nil]
    unfold OpenedBy at ho
    split at ho
    next c hc =>
      obtain ⟨o, rfl, hopens⟩ := ho
      refine ⟨⟨deep_flat hflat (hpositive hkey), .of_opens hopens trivial⟩, ?_⟩
      · have := Enclosure.depth_of_closer? hc
        rw [depthAfter_cons, TokenKind.depth_of_opens hopens, depthAfter_nil]
        omega
    next hc =>
      subst ho
      refine ⟨⟨deep_flat hflat (hpositive hkey), trivial⟩, ?_⟩
      have := Enclosure.depth_of_none hc
      rw [depthAfter_nil]
      omega
  | @leave ks hflat hkey =>
    have hdepth : depthAfter (x.enclosure.depth + m) ks = x.enclosure.depth + m :=
      depthAfter_flat hflat _
    rw [deep_append, depthAfter_append, hdepth, depth_nil, Nat.zero_add]
    cases hc : x.closer? with
    | none =>
      refine ⟨⟨deep_flat hflat (hpositive hkey), trivial⟩, ?_⟩
      have := Enclosure.depth_of_none hc
      show x.enclosure.depth + m = m
      omega
    | some c =>
      have hclose : c ≠ .key ∧ c.inStream = true ∧ ∀ n, c.depth (n + 1) = n := by
        unfold closer? Enclosure.closer? at hc
        split at hc <;> cases hc <;> exact ⟨TokenKind.noConfusion, rfl, fun _ => rfl⟩
      have hone := Enclosure.depth_of_closer? hc
      have hfloor := hleave rfl
      refine ⟨⟨deep_flat hflat (hpositive hkey), fun _ => by omega, ?_, hclose.2.1, trivial⟩, ?_⟩
      · exact fun hk => absurd hk hclose.1
      · show c.depth (x.enclosure.depth + m) = m
        rw [hone, Nat.add_comm, hclose.2.2]

theorem inside (h : x.Goes ks fs) (hx : x.enclosure ≠ .document) :
    ∀ z ∈ fs, z.enclosure ≠ .document := by
  intro z hz
  cases h with
  | stay hflat hkey hy =>
    rw [List.mem_singleton.mp hz, hy]
    exact hx
  | enter hflat hkey hy hresumes ho hw =>
    rcases List.mem_cons.mp hz with rfl | hz
    · exact hw
    · rw [List.mem_singleton.mp hz, hy]
      exact hx
  | leave => exact absurd hz List.not_mem_nil

theorem resumes_tail (h : x.Goes ks fs) : ∀ z ∈ fs.tail, z.resumes = true := by
  intro z hz
  cases h with
  | stay => exact absurd hz List.not_mem_nil
  | enter hflat hkey hy hresumes ho hw => exact List.mem_singleton.mp hz ▸ hresumes
  | leave => exact absurd hz List.not_mem_nil

/-- The outermost collection stays the same until it is left. -/
theorem enclosure_last (h : x.Goes ks fs) {r : List Expect} (hne : fs ++ r ≠ []) :
    (fs ++ r).getLast?.map Expect.enclosure = (x :: r).getLast?.map Expect.enclosure := by
  rw [List.getLast?_append]
  cases r with
  | cons z r =>
    rw [List.getLast?_cons_cons]
    cases hr : (z :: r).getLast? with
    | none => cases List.getLast?_eq_none_iff.mp hr
    | some w => rfl
  | nil =>
    cases h with
    | stay hflat hkey hy => exact congrArg some hy
    | enter hflat hkey hy => exact congrArg some hy
    | leave => exact absurd rfl hne

theorem leaves (h : x.Goes ks []) : ∃ lead, ks = lead ++ x.closer?.toList ∧
    (∀ k ∈ lead, k.isFlat = true) ∧ (.key ∈ lead → 0 < x.enclosure.depth) := by
  generalize hempty : ([] : List Expect) = empty at h
  cases h with
  | leave hflat hkey =>
    refine ⟨_, rfl, hflat, fun hmem => ?_⟩
    obtain ⟨k, hk⟩ := Option.isSome_iff_exists.mp (hkey hmem)
    rw [Enclosure.depth_of_closer? hk]
    exact Nat.one_pos
  | stay => cases hempty
  | enter => cases hempty

end Goes

end Expect

namespace Slot

/-- Only the innermost slots have a part in a turn. -/
theorem Turn.of_append {σ σ' β γ : List Slot} {k : EventKind} (h : Turn (σ ++ β) k (σ' ++ β))
    (hσ : σ ≠ []) : Turn (σ ++ γ) k (σ' ++ γ) := by
  obtain ⟨s, r, rfl⟩ := List.exists_cons_of_ne_nil hσ
  rw [List.cons_append] at h ⊢
  generalize hτ : σ' ++ β = τ at h
  cases h with
  | @node _ _ new _ hnew =>
    have hcut : σ' ++ β = (new ++ (s.next ++ r)) ++ β := by
      rw [hτ]
      simp only [List.append_assoc]
    rw [List.append_cancel_right hcut]
    have := Turn.node (s := s) (r := r ++ γ) hnew
    simpa only [List.append_assoc] using this
  | stop hclose =>
    rw [List.append_cancel_right hτ]
    exact .stop hclose

end Slot

namespace Parser

open EventTree (Completes)

variable {p p' q : Parser} {e : Event} {es : List Event} {x y : Expect} {s : List Expect}
  {ks : List TokenKind} {fs : List Expect}

theorem slots_eq (p : Parser) : p.slots = p.stack.flatMap Expect.slots :=
  rfl

/-- A parser inside a document, with the events that are still to come. -/
structure Live (p : Parser) (es : List Event) : Prop where
  tidy : p.Tidy
  bottom : p.slots.getLast? = some .documentEnd
  run : ∃ fuel, p.work < fuel ∧ p.run .document endsDocument fuel = .ok es
  keys : p.ahead.IsChain KeyHolds

theorem Live.next (h : Live p es) (hp : p.expect ≠ .documentEnd) :
    ∃ e p' later, es = e :: later ∧ p.step .document = .ok (e, p') ∧ Advances p e p' ∧
      (p'.ahead <:+ p.ahead → Live p' later) := by
  obtain ⟨fuel, hfuel, hrun⟩ := h.run
  cases fuel with
  | zero => exact absurd hfuel (Nat.not_lt_zero _)
  | succ fuel =>
    rw [Parser.run] at hrun
    obtain ⟨⟨e, p'⟩, hstep, hrun⟩ := bind_eq_ok.mp hrun
    dsimp only at hrun
    obtain ⟨hadv, _, hbottom⟩ := (step_inside h.tidy h.bottom hstep).resolve_left fun h => hp h.1
    rw [if_neg (by rw [turn_goes_on hadv.turn]; exact Bool.false_ne_true)] at hrun
    obtain ⟨later, hlater, hrun⟩ := bind_eq_ok.mp hrun
    cases hrun
    refine ⟨e, p', later, rfl, hstep, hadv, fun hahead => ?_⟩
    have hless := hadv.less
    exact ⟨hadv.tidy h.tidy, hbottom, ⟨fuel, by omega, hlater⟩, h.keys.suffix hahead⟩

/-- A parser in some collections comes back to what is around them. What it reads stays inside
them up to the token that closes the outermost one. -/
theorem Live.unwinds {above : List Expect} {c : Enclosure} (h : Live p es)
    (hstack : p.stack = above ++ x :: s) (hlast : above.getLast?.map Expect.enclosure = some c)
    (hinside : ∀ y ∈ above, y.enclosure ≠ .document)
    (hresumes : ∀ y ∈ above.tail ++ x :: s, y.resumes = true) :
    ∃ inner done later p', es = done ++ later ∧ Live p' later ∧ p'.stack = x :: s ∧
      p.left = inner ++ (c.closer?.toList ++ p'.left) ∧ Deep c.depth (Expect.depth above) inner ∧
      depthAfter (Expect.depth above) inner = c.depth ∧
      (p.expect.enclosure = .list → p.left.head? = some .blockEntry →
        inner.head? = some .blockEntry) ∧
      ∀ stop : Event, stop.kind = .documentEnd →
        Completes (above.flatMap Expect.slots ++ [.documentEnd]) (done ++ [stop]) := by
  induction es generalizing p above with
  | nil =>
    obtain ⟨fuel, hfuel, hrun⟩ := h.run
    have hne : p.expect ≠ .documentEnd := by
      intro heq
      cases above with
      | nil => cases hlast
      | cons y r =>
        obtain ⟨rfl, _⟩ := List.cons.inj hstack
        exact hinside _ List.mem_cons_self (by rw [heq]; rfl)
    obtain ⟨e, _, _, hes, _⟩ := h.next hne
    cases hes
  | cons e later ih =>
    cases above with
    | nil => cases hlast
    | cons y r =>
      obtain ⟨hexpect, hpending⟩ : p.expect = y ∧ p.pending = r ++ x :: s := List.cons.inj hstack
      have hin : p.expect.enclosure ≠ .document := hexpect ▸ hinside y List.mem_cons_self
      have hne : p.expect ≠ .documentEnd := fun heq => hin (by rw [heq]; rfl)
      obtain ⟨_, p', _, hes, hstep, hadv, hlive⟩ := h.next hne
      obtain ⟨rfl, rfl⟩ := List.cons.inj hes
      obtain ⟨first, rest, hcons⟩ : ∃ first rest, p.pending = first :: rest := by
        rw [hpending]
        cases r with
        | nil => exact ⟨_, _, rfl⟩
        | cons z r => exact ⟨_, _, rfl⟩
      have hfirst : first.resumes = true := by
        refine hresumes first ?_
        have hmem : first ∈ p.pending := hcons ▸ List.mem_cons_self
        rwa [hpending] at hmem
      obtain ⟨⟨ks, fs, hleft, hstack', hgoes, hlist⟩, hahead⟩ :=
        step_moves hin hcons hfirst h.keys hstep
      have hlive := hlive hahead
      rw [hexpect] at hgoes
      rw [hpending, ← List.append_assoc] at hstack'
      obtain ⟨slot, slots, hslotsy, hslot⟩ := Expect.slots_cons (hexpect ▸ hin)
      have hturn : Slot.Turn ((y :: r).flatMap Expect.slots ++ [.documentEnd]) e.kind
          ((fs ++ r).flatMap Expect.slots ++ [.documentEnd]) := by
        have hslots := hadv.turn
        rw [slots_eq, slots_eq, hstack, hstack', List.flatMap_append, List.flatMap_append] at hslots
        refine hslots.of_append fun hnil => ?_
        rw [List.flatMap_cons, hslotsy] at hnil
        cases hnil
      have htop : ((y :: r).flatMap Expect.slots ++ [Slot.documentEnd]).head? ≠
          some .documentEnd := by
        rw [List.flatMap_cons, hslotsy]
        exact fun hhead => hslot (Option.some.inj hhead)
      by_cases hnil : fs ++ r = []
      · obtain ⟨rfl, rfl⟩ := List.append_eq_nil_iff.mp hnil
        obtain rfl : y.enclosure = c := Option.some.inj hlast
        obtain ⟨lead, rfl, hflat, hkey⟩ := hgoes.leaves
        rw [List.append_assoc] at hleft
        refine ⟨lead, [e], later, p', rfl, hlive, hstack', hleft, deep_flat hflat hkey, ?_, ?_, ?_⟩
        · exact depthAfter_flat hflat _
        · intro hin hhead
          have hnone : y.closer?.toList = [] := by
            rw [← hexpect, Expect.closer?, hin]
            rfl
          have hks := hlist hin hhead
          rwa [hnone, List.append_nil] at hks
        · exact fun stop hstop => Completes.turn hturn htop (.stop hstop)
      · have hlast' : (fs ++ r).getLast?.map Expect.enclosure = some c :=
          (hgoes.enclosure_last hnil).trans hlast
        have hinside' : ∀ z ∈ fs ++ r, z.enclosure ≠ .document := by
          intro z hz
          rcases List.mem_append.mp hz with hz | hz
          · exact hgoes.inside (hexpect ▸ hin) z hz
          · exact hinside z (List.mem_cons_of_mem y hz)
        have hresumes' : ∀ z ∈ (fs ++ r).tail ++ x :: s, z.resumes = true := by
          intro z hz
          have hrest : z ∈ r ++ x :: s → z.resumes = true := hresumes z
          cases fs with
          | nil =>
            refine hrest ?_
            rcases List.mem_append.mp hz with hz | hz
            · exact List.mem_append_left _ (List.mem_of_mem_tail hz)
            · exact List.mem_append_right _ hz
          | cons f fs =>
            rw [List.cons_append, List.tail_cons, List.append_assoc] at hz
            exact (List.mem_append.mp hz).elim (hgoes.resumes_tail z) hrest
        obtain ⟨inner, done, rest', p'', rfl, hlive', hback, hleft', hdeep, hdepth, _,
            hcompletes⟩ :=
          ih hlive hstack' hlast' hinside' hresumes'
        have hstep : Deep c.depth (Expect.depth (y :: r)) ks ∧
            depthAfter (Expect.depth (y :: r)) ks = Expect.depth (fs ++ r) := by
          rw [Expect.depth_cons, Expect.depth_append]
          refine hgoes.deep fun hfs => ?_
          subst hfs
          exact Expect.depth_last_le hlast'
        refine ⟨ks ++ inner, e :: done, rest', p'', rfl, hlive', hback, ?_, ?_, ?_, ?_, ?_⟩
        · rw [hleft, hleft', List.append_assoc]
        · rw [deep_append, hstep.2]
          exact ⟨hstep.1, hdeep⟩
        · rw [depthAfter_append, hstep.2, hdepth]
        · intro hin hhead
          rw [List.head?_append, hlist hin hhead]
          rfl
        · exact fun stop hstop => Completes.turn hturn htop (hcompletes stop hstop)

end Parser

/-! Nodes. -/

/-- Whether the event starts a node without an anchor and a tag. -/
def EventKind.isBare : EventKind → Bool
  | .scalar _ _ anchor tag | .sequenceStart anchor tag | .mappingStart anchor tag =>
    anchor.isNone && tag.isNone
  | _ => true

namespace EventTree

/-- The tokens write the node: behind its anchor and tag a scalar or an alias, a collection between
the tokens that open and close it, or the items of a list. -/
inductive Writes (t : EventTree) : List TokenKind → Prop where
  | leaf {ks : List TokenKind} (h : Begins ks t.start.kind []) : Writes t ks
  | closed {ps inner : List TokenKind} {o c : TokenKind} (ht : t.isCollection = true)
    (hprops : ∀ k ∈ ps, k.isProperty = true) (hbare : ps = [] ↔ t.start.kind.isBare = true)
    (ho : o.closer? = some c) (hinner : Deep 1 1 inner) (hdepth : depthAfter 1 inner = 1) :
    Writes t (ps ++ o :: (inner ++ [c]))
  | list {ps inner : List TokenKind} (ht : t.isCollection = true)
    (hprops : ∀ k ∈ ps, k.isProperty = true) (hbare : ps = [] ↔ t.start.kind.isBare = true)
    (hhead : inner.head? = some .blockEntry) (hinner : Deep 0 0 inner)
    (hdepth : depthAfter 0 inner = 0) : Writes t (ps ++ inner)

/-- What completes the items of one collection are its items and its end. -/
theorem Completes.of_item {done : List Event} {stop : Event}
    (h : Completes [.item, .documentEnd] (done ++ [stop])) :
    ∃ ts last, last.kind = .sequenceEnd ∧ done = itemEvents ts ++ [last] := by
  generalize hes : done ++ [stop] = es at h
  cases h with
  | @items ts e _ rest hstop hrest =>
    cases hrest with
    | @stop last _ hend =>
      have hes : done ++ [stop] = (itemEvents ts ++ [e]) ++ [last] := by
        rw [hes, List.append_assoc]
        rfl
      exact ⟨ts, e, hstop, (List.append_inj' hes rfl).1⟩

theorem Completes.of_key {done : List Event} {stop : Event}
    (h : Completes [.key, .documentEnd] (done ++ [stop])) :
    ∃ ts last, last.kind = .mappingEnd ∧ done = entryEvents ts ++ [last] := by
  generalize hes : done ++ [stop] = es at h
  cases h with
  | @entries ts e _ rest hstop hrest =>
    cases hrest with
    | @stop last _ hend =>
      have hes : done ++ [stop] = (entryEvents ts ++ [e]) ++ [last] := by
        rw [hes, List.append_assoc]
        rfl
      exact ⟨ts, e, hstop, (List.append_inj' hes rfl).1⟩

end EventTree

namespace Parser

open EventTree (Completes)

variable {p : Parser} {e : Event} {es : List Event} {x z : Expect} {s : List Expect}
  {ks ps os : List TokenKind} {fs : List Expect} {anchor : Option String} {tag : Option Tag}

/-- A collection that has been started is read to its end. -/
theorem Live.reads_collection (h : Live p es) (hstack : p.stack = [z] ++ x :: s)
    (hin : z.enclosure ≠ .document) (hresumes : ∀ y ∈ x :: s, y.resumes = true)
    (hps : Properties ps anchor tag) (ho : z.OpenedBy os)
    (hlist : z.closer? = none → z.enclosure = .list ∧ p.left.head? = some .blockEntry) :
    ∃ more done later p', es = done ++ later ∧ Live p' later ∧ p'.stack = x :: s ∧
      ps ++ os ++ p.left = more ++ p'.left ∧
      (∀ stop : Event, stop.kind = .documentEnd →
        Completes (z.slots ++ [.documentEnd]) (done ++ [stop])) ∧
      ∀ t : EventTree, t.isCollection = true →
        (ps = [] ↔ t.start.kind.isBare = true) → t.Writes more := by
  have hinside : ∀ y ∈ [z], y.enclosure ≠ .document := by
    intro y hy
    rw [List.mem_singleton.mp hy]
    exact hin
  obtain ⟨inner, done, later, p', rfl, hlive, hback, hleft, hdeep, hdepth, hhead, hcompletes⟩ :=
    h.unwinds (c := z.enclosure) hstack rfl hinside hresumes
  have hone : Expect.depth [z] = z.enclosure.depth := rfl
  rw [hone] at hdeep hdepth
  have hslots : [z].flatMap Expect.slots = z.slots := List.append_nil _
  rw [hslots] at hcompletes
  refine ⟨ps ++ os ++ (inner ++ z.closer?.toList), done, later, p', rfl, hlive, hback, ?_,
    hcompletes, ?_⟩
  · rw [hleft]
    simp only [List.append_assoc]
    rfl
  · intro t ht hbare
    unfold Expect.OpenedBy at ho
    split at ho
    next c hc =>
      obtain ⟨o, rfl, hopens⟩ := ho
      have hd : z.enclosure.depth = 1 := Enclosure.depth_of_closer? hc
      rw [hd] at hdeep hdepth
      rw [hc, List.append_assoc]
      exact .closed ht hps.kinds hbare hopens hdeep hdepth
    next hc =>
      subst ho
      have hd : z.enclosure.depth = 0 := Enclosure.depth_of_none hc
      rw [hd] at hdeep hdepth
      obtain ⟨hexpect, _⟩ : p.expect = z ∧ p.pending = x :: s := List.cons.inj hstack
      obtain ⟨hz, hentry⟩ := hlist hc
      rw [hc, List.append_nil, show (none : Option TokenKind).toList = [] from rfl,
        List.append_nil]
      exact .list ht hps.kinds hbare (hhead (by rw [hexpect, hz]) hentry) hdeep hdepth

/-- A node that has been started is read to its end. -/
theorem Live.reads_node (h : Live p es) (hbegins : Begins ks e.kind fs)
    (hstack : p.stack = fs ++ x :: s) (hresumes : ∀ y ∈ x :: s, y.resumes = true)
    (hlist : ∀ z ∈ fs, z.closer? = none → p.left.head? = some .blockEntry) :
    ∃ (t : EventTree) (more : List TokenKind) (later : List Event) (p' : Parser), t.start = e ∧
      e :: es = t.events ++ later ∧ Live p' later ∧ p'.stack = x :: s ∧
      ks ++ p.left = more ++ p'.left ∧ t.Writes more := by
  obtain ⟨kind, mark⟩ := e
  have hleaf (hopens : kind.opens? = some []) (hnone : fs = []) (hbegins : Begins ks kind []) :
      ∃ (t : EventTree) (more : List TokenKind) (later : List Event) (p' : Parser),
        t.start = ⟨kind, mark⟩ ∧ ⟨kind, mark⟩ :: es = t.events ++ later ∧ Live p' later ∧
        p'.stack = x :: s ∧ ks ++ p.left = more ++ p'.left ∧ t.Writes more :=
    ⟨.leaf ⟨kind, mark⟩ hopens, ks, es, p, rfl, rfl, h, by rw [hstack, hnone]; rfl, rfl,
      .leaf hbegins⟩
  have hbegins : Begins ks kind fs := hbegins
  cases hbegins with
  | «alias» name => exact hleaf rfl rfl (.alias name)
  | scalar hps text style => exact hleaf rfl rfl (.scalar hps text style)
  | empty hps hne => exact hleaf rfl rfl (.empty hps hne)
  | @sequence ps os anchor tag z hps hz =>
    have hin : z.closer? = none → z.enclosure = .list := by
      cases hz with
      | list => exact fun _ => rfl
      | block | brackets => exact fun hnone => by cases hnone
    obtain ⟨more, done, later, p', rfl, hlive, hback, hleft, hcompletes, hwrites⟩ :=
      h.reads_collection hstack hz.inside hresumes hps hz.openedBy
        fun hnone => ⟨hin hnone, hlist z (List.mem_singleton.mpr rfl) hnone⟩
    rw [hz.slots] at hcompletes
    obtain ⟨items, last, hlast, rfl⟩ := (hcompletes ⟨.documentEnd, mark⟩ rfl).of_item
    refine ⟨.sequence ⟨.sequenceStart anchor tag, mark⟩ rfl items last hlast, more, later, p', rfl,
      rfl, hlive, hback, hleft, hwrites _ rfl ?_⟩
    rw [hps.nil_iff]
    simp [EventTree.start, EventKind.isBare]
  | @mapping ps anchor tag hps flow =>
    have hin : (Expect.mappingKey flow true).enclosure ≠ .document := by
      cases flow <;> decide
    have ho : (Expect.mappingKey flow true).OpenedBy
        [if flow then .flowMappingStart else .blockMappingStart] := by
      cases flow <;> exact ⟨_, rfl, rfl⟩
    have hslots : (Expect.mappingKey flow true).slots = [.key] := by
      cases flow <;> rfl
    obtain ⟨more, done, later, p', rfl, hlive, hback, hleft, hcompletes, hwrites⟩ :=
      h.reads_collection hstack hin hresumes hps ho fun hnone => by
        rw [closer?_mappingKey] at hnone
        cases hnone
    rw [hslots] at hcompletes
    obtain ⟨entries, last, hlast, rfl⟩ := (hcompletes ⟨.documentEnd, mark⟩ rfl).of_key
    refine ⟨.mapping ⟨.mappingStart anchor tag, mark⟩ rfl entries last hlast, more, later, p', rfl,
      rfl, hlive, hback, hleft, hwrites _ rfl ?_⟩
    rw [hps.nil_iff]
    simp [EventTree.start, EventKind.isBare]

end Parser

/-- Whether the token can stand in a scalar or an alias with its anchor and tag. -/
def TokenKind.isLeaf : TokenKind → Bool
  | .anchor _ | .tag _ | .alias _ | .scalar _ _ => true
  | _ => false

theorem TokenKind.isFlat_of_isLeaf {k : TokenKind} (h : k.isLeaf = true) : k.isFlat = true := by
  cases k <;> first | rfl | cases h

namespace Begins

variable {ps rest r ks : List TokenKind} {o : TokenKind} {k : EventKind}

theorem isLeaf (h : Begins ks k []) : ∀ x ∈ ks, x.isLeaf = true := by
  have hprops {ps : List TokenKind} (hps : ∀ x ∈ ps, x.isProperty = true) :
      ∀ x ∈ ps, x.isLeaf = true := by
    intro x hx
    have := hps x hx
    cases x <;> first | rfl | cases this
  intro x hx
  cases h with
  | «alias» name =>
    rw [List.mem_singleton.mp hx]
    rfl
  | scalar hps text style =>
    rcases List.mem_append.mp hx with hx | hx
    · exact hprops hps.kinds x hx
    · rw [List.mem_singleton.mp hx]
      rfl
  | empty hps _ => exact hprops hps.kinds x hx

theorem opens_of_leaf (h : Begins ks k []) : k.opens? = some [] := by
  cases h <;> rfl

/-- Nothing stands before a node that starts with a token of its own. -/
theorem nil_of_head (hps : ∀ x ∈ ps, x.isProperty = true) (ho : o.isProperty = false)
    (h : o :: r = ps ++ rest) : ps = [] := by
  cases ps with
  | nil => rfl
  | cons p ps =>
    obtain ⟨rfl, _⟩ := List.cons.inj h
    have hp := hps o List.mem_cons_self
    rw [ho] at hp
    cases hp

end Begins

namespace EventTree

theorem opens_of_isCollection {t : EventTree} (h : t.isCollection = true) :
    t.start.kind.opens? ≠ some [] := by
  cases t with
  | leaf => cases h
  | sequence start opens =>
    show start.kind.opens? ≠ some []
    rw [opens]
    decide
  | mapping start opens =>
    show start.kind.opens? ≠ some []
    rw [opens]
    decide

namespace Writes

variable {t : EventTree} {ks : List TokenKind}

/-- The tokens of a node close the collections that they open. -/
theorem deep (h : t.Writes ks) : Deep 0 0 ks ∧ depthAfter 0 ks = 0 := by
  have hflat {ps : List TokenKind} (hps : ∀ x ∈ ps, x.isLeaf = true) :
      Deep 0 0 ps ∧ depthAfter 0 ps = 0 := by
    have hflat : ∀ x ∈ ps, x.isFlat = true := fun x hx => TokenKind.isFlat_of_isLeaf (hps x hx)
    exact ⟨deep_flat hflat fun hkey => Bool.noConfusion (hps _ hkey), depthAfter_flat hflat 0⟩
  have hprops {ps : List TokenKind} (hps : ∀ x ∈ ps, x.isProperty = true) :
      Deep 0 0 ps ∧ depthAfter 0 ps = 0 := by
    refine hflat fun x hx => ?_
    have := hps x hx
    cases x <;> first | rfl | cases this
  cases h with
  | leaf h => exact hflat h.isLeaf
  | @closed ps inner o c ht hps hbare ho hinner hdepth =>
    have hcloses : c ≠ .key ∧ c.inStream = true := by
      cases o <;> cases ho <;> exact ⟨TokenKind.noConfusion, rfl⟩
    rw [deep_append, depthAfter_append, (hprops hps).2, depthAfter_cons,
      TokenKind.depth_of_opens ho, depthAfter_append, hdepth]
    refine ⟨⟨(hprops hps).1, .of_opens ho (deep_append.mpr ⟨hinner.mono (Nat.zero_le 1), ?_⟩)⟩, ?_⟩
    · rw [hdepth]
      exact ⟨fun _ => Nat.one_pos, fun hk => absurd hk hcloses.1, hcloses.2, trivial⟩
    · exact TokenKind.depth_of_closer? ho 0
  | @list ps inner ht hps hbare hhead hinner hdepth =>
    rw [deep_append, depthAfter_append, (hprops hps).2]
    exact ⟨⟨(hprops hps).1, hinner⟩, hdepth⟩

/-- A node that starts with a scalar is this scalar. -/
theorem eq_scalar {text : String} {style : ScalarStyle} {r : List TokenKind}
    (h : t.Writes (.scalar text style :: r)) :
    r = [] ∧ t.start.kind = .scalar text style none none := by
  generalize hks : TokenKind.scalar text style :: r = ks at h
  cases h with
  | leaf h =>
    generalize t.start.kind = kind at h
    cases h with
    | «alias» name => cases hks
    | scalar hps text' style' =>
      obtain rfl := Begins.nil_of_head hps.kinds rfl hks
      obtain ⟨rfl, rfl⟩ := hps.nil_iff.mp rfl
      cases hks
      exact ⟨rfl, rfl⟩
    | empty hps hne =>
      exact absurd (Begins.nil_of_head hps.kinds rfl (hks.trans (List.append_nil _).symm)) hne
  | closed ht hps hbare ho hinner hdepth =>
    obtain rfl := Begins.nil_of_head hps rfl hks
    obtain ⟨rfl, _⟩ := List.cons.inj hks
    cases ho
  | list ht hps hbare hhead hinner hdepth =>
    obtain rfl := Begins.nil_of_head hps rfl hks
    rw [List.nil_append] at hks
    rw [← hks] at hhead
    cases hhead

/-- A scalar without an anchor and a tag is a single token. -/
theorem eq_of_scalar {text : String} {style : ScalarStyle} {anchor : Option String}
    {tag : Option Tag} (h : t.Writes ks) (ht : t.start.kind = .scalar text style anchor tag)
    (hbare : t.start.kind.isBare = true) : ks = [.scalar text style] := by
  have hleaf (hcollection : t.isCollection = true) : False :=
    opens_of_isCollection hcollection (by rw [ht]; rfl)
  cases h with
  | leaf h =>
    rw [ht] at h hbare
    rw [EventKind.isBare, Bool.and_eq_true, Option.isNone_iff_eq_none,
      Option.isNone_iff_eq_none] at hbare
    cases h with
    | scalar hps => rw [hps.nil_iff.mpr hbare, List.nil_append]
    | empty hps hne => exact absurd (hps.nil_iff.mpr hbare) hne
  | closed hcollection => exact (hleaf hcollection).elim
  | list hcollection => exact (hleaf hcollection).elim

/-- A node that starts with the opening of a collection is this collection. -/
theorem eq_closed {o c : TokenKind} {r : List TokenKind} (h : t.Writes (o :: r))
    (ho : o.closer? = some c) : t.isCollection = true ∧
      ∃ inner, r = inner ++ [c] ∧ Deep 1 1 inner ∧ depthAfter 1 inner = 1 := by
  have hown : o.isLeaf = false ∧ o.isProperty = false := by
    cases o <;> first | exact ⟨rfl, rfl⟩ | cases ho
  generalize hks : o :: r = ks at h
  cases h with
  | leaf h =>
    have hleaf := h.isLeaf o (hks ▸ List.mem_cons_self)
    rw [hown.1] at hleaf
    cases hleaf
  | @closed ps inner o' c' ht hps hbare ho' hinner hdepth =>
    obtain rfl := Begins.nil_of_head hps hown.2 hks
    obtain ⟨rfl, rfl⟩ := List.cons.inj hks
    obtain rfl : c = c' := Option.some.inj (ho.symm.trans ho')
    exact ⟨ht, inner, rfl, hinner, hdepth⟩
  | list ht hps hbare hhead hinner hdepth =>
    obtain rfl := Begins.nil_of_head hps hown.2 hks
    rw [List.nil_append] at hks
    rw [← hks] at hhead
    cases Option.some.inj hhead
    cases ho

/-- A node that starts with the mark of an entry is a list. -/
theorem isCollection_of_list (h : t.Writes ks) (hhead : ks.head? = some .blockEntry) :
    t.isCollection = true := by
  cases h with
  | leaf h => cases h.isLeaf _ (List.mem_of_mem_head? hhead)
  | closed ht => exact ht
  | list ht => exact ht

/-- Without an anchor and a tag, a collection starts with a token of its own. -/
theorem head_of_bare (h : t.Writes ks) (ht : t.isCollection = true)
    (hbare : t.start.kind.isBare = true) :
    (∃ o c, ks.head? = some o ∧ o.closer? = some c) ∨ ks.head? = some .blockEntry := by
  cases h with
  | leaf h => exact absurd h.opens_of_leaf (opens_of_isCollection ht)
  | @closed ps inner o c _ _ hps ho =>
    obtain rfl := hps.mpr hbare
    exact Or.inl ⟨o, c, rfl, ho⟩
  | list _ _ hps hhead =>
    obtain rfl := hps.mpr hbare
    exact Or.inr hhead

end Writes

end EventTree

end Blueprint.Yaml
