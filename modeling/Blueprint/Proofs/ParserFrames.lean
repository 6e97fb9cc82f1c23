import Blueprint.Proofs.ParserSlots
import Blueprint.Proofs.TokenDepth

/-!
The tokens that the parser reads with each event, and the stack of the collections in which it
stands. The token that opens a collection counts as read once the collection is on the stack.
-/

namespace Blueprint.Yaml

namespace TokenKind

/-- An anchor or a tag. -/
def isProperty : TokenKind → Bool
  | .anchor _ | .tag _ => true
  | _ => false

theorem isFlat_of_isProperty {k : TokenKind} (h : k.isProperty = true) : k.isFlat = true := by
  cases k <;> first | rfl | cases h

/-- A directive, or the mark of the start or the end of a document. -/
def isOutside : TokenKind → Bool
  | .versionDirective .. | .tagDirective .. | .documentStart | .documentEnd => true
  | _ => false

theorem isFlat_of_isOutside {k : TokenKind} (h : k.isOutside = true) : k.isFlat = true := by
  cases k <;> first | rfl | cases h

end TokenKind

/-- What a node can stand in; a `list` is a sequence at the column of its key. -/
inductive Enclosure where
  | document
  | block
  | list
  | brackets
  | braces
deriving DecidableEq

/-- The token that closes a collection. A list has none. -/
def Enclosure.closer? : Enclosure → Option TokenKind
  | .block => some .blockEnd
  | .brackets => some .flowSequenceEnd
  | .braces => some .flowMappingEnd
  | .document | .list => none

namespace Expect

def enclosure : Expect → Enclosure
  | .blockSequence _ | .blockMappingKey _ | .blockMappingValue => .block
  | .indentlessSequence => .list
  | .flowSequence _ | .flowPairKey | .flowPairValue | .flowPairEnd => .brackets
  | .flowMappingKey _ | .flowMappingValue _ => .braces
  | .document _ | .documentContent | .documentEnd | .blockNode | .nothing => .document

/-- The token that closes the collection in which the parser stands. -/
def closer? (x : Expect) : Option TokenKind :=
  x.enclosure.closer?

/-- Whether the token that opens the collection has not been dropped yet. -/
def isFresh : Expect → Bool
  | .blockSequence first | .blockMappingKey first | .flowSequence first | .flowMappingKey first =>
    first
  | _ => false

/-- Whether the last token has marked a key of a flow sequence. -/
def isBehindKey : Expect → Bool
  | .flowPairKey => true
  | _ => false

/-- Whether the parser may come back to this after a node. -/
def resumes (x : Expect) : Bool :=
  !x.isFresh && !x.isBehindKey

/-- The tokens that open a collection. -/
def OpenedBy (z : Expect) (os : List TokenKind) : Prop :=
  match z.closer? with
  | some c => ∃ o, os = [o] ∧ o.closer? = some c
  | none => os = []

/-- The sequences that can be started, and the tokens that start them. -/
inductive StartsSequence : Expect → List TokenKind → Prop where
  | block : StartsSequence (.blockSequence true) [.blockSequenceStart]
  | brackets : StartsSequence (.flowSequence true) [.flowSequenceStart]
  | list : StartsSequence .indentlessSequence []

theorem StartsSequence.openedBy {z : Expect} {os : List TokenKind} (h : z.StartsSequence os) :
    z.OpenedBy os := by
  cases h with
  | block | brackets => exact ⟨_, rfl, rfl⟩
  | list => rfl

theorem StartsSequence.slots {z : Expect} {os : List TokenKind} (h : z.StartsSequence os) :
    z.slots = [.item] := by
  cases h <;> rfl

theorem StartsSequence.inside {z : Expect} {os : List TokenKind} (h : z.StartsSequence os) :
    z.enclosure ≠ .document := by
  cases h <;> exact Enclosure.noConfusion

/-- Waiting for a key of a mapping. -/
def mappingKey (flow first : Bool) : Expect :=
  if flow then .flowMappingKey first else .blockMappingKey first

/-- Waiting for the value of a mapping; that of a `bare` key, without a colon, is missing. -/
def mappingValue (flow bare : Bool) : Expect :=
  if flow then .flowMappingValue bare else .blockMappingValue

/-- What a step makes of the collection in which the parser stands: the tokens that it reads, and
what takes the place of the collection on the stack. -/
inductive Goes (x : Expect) : List TokenKind → List Expect → Prop where
  | stay {y : Expect} {ks : List TokenKind} (hflat : ∀ k ∈ ks, k.isFlat = true)
    (hkey : .key ∈ ks → x.closer?.isSome) (hy : y.enclosure = x.enclosure) : Goes x ks [y]
  | enter {y z : Expect} {ks os : List TokenKind} (hflat : ∀ k ∈ ks, k.isFlat = true)
    (hkey : .key ∈ ks → x.closer?.isSome) (hy : y.enclosure = x.enclosure)
    (hresumes : y.resumes = true) (ho : z.OpenedBy os) (hz : z.enclosure ≠ .document) :
    Goes x (ks ++ os) [z, y]
  | leave {ks : List TokenKind} (hflat : ∀ k ∈ ks, k.isFlat = true)
    (hkey : .key ∈ ks → x.closer?.isSome) : Goes x (ks ++ x.closer?.toList) []

end Expect

/-- The tokens of the anchor and the tag before a node. -/
structure Properties (ps : List TokenKind) (anchor : Option String) (tag : Option Tag) : Prop where
  kinds : ∀ k ∈ ps, k.isProperty = true
  nil_iff : ps = [] ↔ anchor = none ∧ tag = none

theorem Properties.nil : Properties [] none none :=
  ⟨fun _ h => absurd h List.not_mem_nil, fun _ => ⟨rfl, rfl⟩, fun _ => rfl⟩

/-- The tokens up to the first one of the content of a node, and the collection that it opens. -/
inductive Begins : List TokenKind → EventKind → List Expect → Prop where
  | alias (name : String) : Begins [.alias name] (.alias name) []
  | scalar {ps : List TokenKind} {anchor : Option String} {tag : Option Tag}
    (h : Properties ps anchor tag) (text : String) (style : ScalarStyle) :
    Begins (ps ++ [.scalar text style]) (.scalar text style anchor tag) []
  | empty {ps : List TokenKind} {anchor : Option String} {tag : Option Tag}
    (h : Properties ps anchor tag) (hne : ps ≠ []) :
    Begins ps (.scalar "" .plain anchor tag) []
  | sequence {ps os : List TokenKind} {anchor : Option String} {tag : Option Tag} {z : Expect}
    (h : Properties ps anchor tag) (hz : z.StartsSequence os) :
    Begins (ps ++ os) (.sequenceStart anchor tag) [z]
  | mapping {ps : List TokenKind} {anchor : Option String} {tag : Option Tag}
    (h : Properties ps anchor tag) (flow : Bool) :
    Begins (ps ++ [if flow then .flowMappingStart else .blockMappingStart])
      (.mappingStart anchor tag) [.mappingKey flow true]

namespace Begins

variable {ks lead : List TokenKind} {k : EventKind} {fs : List Expect} {x y : Expect}

/-- A node is read in a collection, after the tokens that stand between its parts. -/
theorem goes (h : Begins ks k fs) (hlead : ∀ k ∈ lead, k.isFlat = true)
    (hkey : .key ∈ lead → x.closer?.isSome) (hy : y.enclosure = x.enclosure)
    (hresumes : y.resumes = true) : x.Goes (lead ++ ks) (fs ++ [y]) := by
  have hprops {ps : List TokenKind} {anchor : Option String} {tag : Option Tag}
      (h : Properties ps anchor tag) :
      (∀ k ∈ lead ++ ps, k.isFlat = true) ∧ (.key ∈ lead ++ ps → x.closer?.isSome) := by
    refine ⟨fun k hk => ?_, fun hmem => ?_⟩
    · rcases List.mem_append.mp hk with hk | hk
      · exact hlead k hk
      · exact TokenKind.isFlat_of_isProperty (h.kinds k hk)
    · rcases List.mem_append.mp hmem with hmem | hmem
      · exact hkey hmem
      · cases h.kinds .key hmem
  have hleaf {ps : List TokenKind} {anchor : Option String} {tag : Option Tag} {c : TokenKind}
      (h : Properties ps anchor tag) (hc : c.isFlat = true) (hne : c ≠ .key) :
      x.Goes (lead ++ (ps ++ [c])) [y] := by
    obtain ⟨hflat, hkey⟩ := hprops h
    refine .stay (fun k hk => ?_) (fun hmem => ?_) hy
    · rw [← List.append_assoc, List.mem_append, List.mem_singleton] at hk
      rcases hk with hk | rfl
      · exact hflat k hk
      · exact hc
    · rw [← List.append_assoc, List.mem_append, List.mem_singleton] at hmem
      exact hkey (hmem.resolve_right (Ne.symm hne))
  cases h with
  | «alias» name => exact hleaf .nil rfl TokenKind.noConfusion
  | scalar h text style => exact hleaf h rfl TokenKind.noConfusion
  | empty h _ => exact .stay (hprops h).1 (hprops h).2 hy
  | sequence h hz =>
    rw [← List.append_assoc]
    exact .enter (hprops h).1 (hprops h).2 hy hresumes hz.openedBy hz.inside
  | mapping h flow =>
    rw [← List.append_assoc]
    refine .enter (hprops h).1 (hprops h).2 hy hresumes ?_ ?_
    · cases flow <;> exact ⟨_, rfl, rfl⟩
    · cases flow <;> exact Enclosure.noConfusion

end Begins

namespace Parser

variable {d : Dialect} {p p' q : Parser} {e : Event}

def kinds (p : Parser) : List TokenKind :=
  p.tokens.map (·.token.kind)

/-- The tokens still to be read. -/
def left (p : Parser) : List TokenKind :=
  if p.expect.isFresh then p.kinds.drop 1 else p.kinds

/-- The collections in which the parser stands, the innermost first. -/
def stack (p : Parser) : List Expect :=
  p.expect :: p.pending

/-- The tokens still to be read, behind one that has just marked a key of a flow sequence. -/
def ahead (p : Parser) : List TokenKind :=
  if p.expect.isBehindKey then .key :: p.left else p.left

theorem Passed.kinds {ds : List HandedToken} {ns : List String} (h : Passed ds ns p q) :
    p.kinds = ds.map (·.token.kind) ++ q.kinds := by
  rw [Parser.kinds, h.tokens, List.map_append]
  rfl

theorem left_of_not_fresh (h : p.expect.isFresh = false) : p.left = p.kinds := by
  rw [left, h]
  rfl

theorem left_goto_fresh {x : Expect} {th : HandedToken} {r : List HandedToken}
    (htokens : p.tokens = th :: r) (hx : x.isFresh = true) :
    p.kinds = th.token.kind :: (p.goto x).left := by
  rw [left, show (p.goto x).expect.isFresh = true from hx]
  show p.tokens.map (·.token.kind) = _ :: (p.tokens.map (·.token.kind)).drop 1
  rw [htokens]
  rfl

theorem left_goto {x : Expect} (hx : x.isFresh = false) : (p.goto x).left = p.kinds :=
  left_of_not_fresh hx

/-- A parser that returns to a collection goes on behind its opening token. -/
theorem back_spec {x : Expect} {r : List Expect} (h : p.pending = x :: r)
    (hx : x.resumes = true) :
    p.back.left = p.kinds ∧ p.back.stack = p.pending ∧ p.back.expect = x := by
  rw [Expect.resumes, Bool.and_eq_true, Bool.not_eq_true'] at hx
  unfold back
  split
  next hnil => rw [h] at hnil; cases hnil
  next y s hcons =>
    obtain ⟨rfl, rfl⟩ := List.cons.inj (h.symm.trans hcons)
    exact ⟨left_of_not_fresh hx.1, hcons.symm, rfl⟩

theorem properties_read {anchor : Option String} {tag : Option Tag}
    (h : p.properties d = .ok (anchor, tag, q)) :
    ∃ ps, Properties ps anchor tag ∧ p.kinds = ps ++ q.kinds ∧ q.pending = p.pending := by
  unfold properties at h
  dsimp only at h
  obtain ⟨⟨t, p₁⟩, hlook, h⟩ := bind_eq_ok.mp h
  obtain ⟨th, r, rfl, htokens, h₁⟩ := look_passed hlook
  have one {k : TokenKind} {ds : List HandedToken} {ns : List String}
      {anchor : Option String} {tag : Option Tag} (hk : k.isProperty = true)
      (hds : ds.map (·.token.kind) = [k]) (h : Passed ds ns p q)
      (hsome : ¬(anchor = none ∧ tag = none)) :
      ∃ ps, Properties ps anchor tag ∧ p.kinds = ps ++ q.kinds ∧ q.pending = p.pending := by
    refine ⟨[k], ⟨?_, ?_⟩, hds ▸ h.kinds, h.pending⟩
    · intro x hx
      rw [List.mem_singleton.mp hx]
      exact hk
    · exact ⟨fun hnil => absurd hnil (List.cons_ne_nil _ _), fun hnone => absurd hnone hsome⟩
  have two {k j : TokenKind} {ds : List HandedToken} {ns : List String}
      {anchor : Option String} {tag : Option Tag} (hk : k.isProperty = true)
      (hj : j.isProperty = true) (hds : ds.map (·.token.kind) = [k, j]) (h : Passed ds ns p q)
      (hsome : ¬(anchor = none ∧ tag = none)) :
      ∃ ps, Properties ps anchor tag ∧ p.kinds = ps ++ q.kinds ∧ q.pending = p.pending := by
    refine ⟨[k, j], ⟨?_, ?_⟩, hds ▸ h.kinds, h.pending⟩
    · intro x hx
      rcases List.mem_cons.mp hx with rfl | hx
      · exact hk
      · rw [List.mem_singleton.mp hx]
        exact hj
    · exact ⟨fun hnil => absurd hnil (List.cons_ne_nil _ _), fun hnone => absurd hnone hsome⟩
  dsimp only at h
  split at h
  next name hkind =>
    obtain ⟨⟨t, p₂⟩, hlook, h⟩ := bind_eq_ok.mp h
    obtain ⟨th', r', rfl, htokens', h₂⟩ := look_passed hlook
    have hname := (h₁.trans (register_passed htokens name)).trans h₂
    dsimp only at h
    split at h
    next tag' hkind' =>
      obtain ⟨tag', htag, h⟩ := bind_eq_ok.mp h
      cases h
      refine two (k := .anchor name) (j := th'.token.kind) rfl (by rw [hkind']; rfl) ?_
        (hname.trans (drop_passed htokens')) (by simp)
      simp [hkind]
    · cases h
      exact one (k := .anchor name) rfl (by simp [hkind]) hname (by simp)
  next tag' hkind =>
    obtain ⟨tag'', htag, h⟩ := bind_eq_ok.mp h
    obtain ⟨⟨t, p₂⟩, hlook, h⟩ := bind_eq_ok.mp h
    obtain ⟨th', r', rfl, htokens', h₂⟩ := look_passed hlook
    have htag := (h₁.trans (drop_passed htokens)).trans h₂
    dsimp only at h
    split at h
    next name hkind' =>
      cases h
      refine two (k := .tag tag') (j := .anchor name) rfl rfl ?_
        (htag.trans (register_passed htokens' name)) (by simp)
      simp [hkind, hkind']
    · cases h
      exact one (k := .tag tag') rfl (by simp [hkind]) htag (by simp)
  · cases h
    exact ⟨[], .nil, h₁.kinds, h₁.pending⟩

/-- What reading a node does to the tokens and to the stack, where a list without a start is `listed`
among the nodes or not. -/
structure Begun (listed : Bool) (p : Parser) (k : EventKind) (ks : List TokenKind)
    (fs : List Expect) (p' : Parser) : Prop where
  begins : Begins ks k fs
  left : p.kinds = ks ++ p'.left
  stack : p'.stack = fs ++ p.pending
  list : ∀ z ∈ fs, z.closer? = none → listed = true ∧ p'.left.head? = some .blockEntry
  behind : p'.expect.isBehindKey = false

theorem content_begins {block indentless : Bool} {anchor : Option String} {tag : Option Tag}
    {ps : List TokenKind} {th : HandedToken} {r : List HandedToken} {x : Expect}
    {s : List Expect} (hps : Properties ps anchor tag) (htokens : q.tokens = th :: r)
    (hpending : q.pending = x :: s) (hx : x.resumes = true)
    (h : content block indentless anchor tag th.token q = .ok (e, p')) :
    ∃ os fs, Begins (ps ++ os) e.kind fs ∧ q.kinds = os ++ p'.left ∧
      p'.stack = fs ++ q.pending ∧
      (∀ z ∈ fs, z.closer? = none → indentless = true ∧ p'.left.head? = some .blockEntry) ∧
      p'.expect.isBehindKey = false := by
  have hback {p : Parser} (hp : p.pending = x :: s) : p.back.expect.isBehindKey = false := by
    rw [(back_spec hp hx).2.2]
    rw [Expect.resumes, Bool.and_eq_true, Bool.not_eq_true', Bool.not_eq_true'] at hx
    exact hx.2
  have hdrop : q.kinds = th.token.kind :: q.drop.kinds := (drop_passed htokens).kinds
  have hnone {y : Expect} {P : Prop} (hy : y.closer?.isSome) :
      ∀ z ∈ [y], z.closer? = none → P := by
    intro z hz hnone
    rw [List.mem_singleton.mp hz, ← Option.not_isSome_iff_eq_none] at hnone
    exact absurd hy hnone
  unfold content at h
  split at h
  next hkind =>
    cases h
    refine ⟨[], [.indentlessSequence], .sequence hps .list, rfl, rfl, ?_, rfl⟩
    intro _ _ _
    rw [left_goto rfl, hdrop, hkind]
    exact ⟨rfl, rfl⟩
  next text style hkind =>
    cases h
    have hpending' : q.drop.pending = x :: s := hpending
    obtain ⟨hleft, hstack, _⟩ := back_spec hpending' hx
    refine ⟨[.scalar text style], [], .scalar hps text style, ?_, hstack, ?_, hback hpending'⟩
    · rw [hdrop, hkind, hleft]
      rfl
    · exact fun z hz => absurd hz List.not_mem_nil
  next hkind =>
    cases h
    refine ⟨[.flowSequenceStart], [.flowSequence true], .sequence hps .brackets, ?_, rfl,
      hnone rfl, rfl⟩
    rw [← hkind]
    exact left_goto_fresh htokens rfl
  next hkind =>
    cases h
    refine ⟨[.flowMappingStart], [.flowMappingKey true], .mapping hps true, ?_, rfl, hnone rfl, rfl⟩
    rw [← hkind]
    exact left_goto_fresh htokens rfl
  next hkind =>
    cases h
    refine ⟨[.blockSequenceStart], [.blockSequence true], .sequence hps .block, ?_, rfl,
      hnone rfl, rfl⟩
    rw [← hkind]
    exact left_goto_fresh htokens rfl
  next hkind =>
    cases h
    refine ⟨[.blockMappingStart], [.blockMappingKey true], .mapping hps false, ?_, rfl,
      hnone rfl, rfl⟩
    rw [← hkind]
    exact left_goto_fresh htokens rfl
  · split at h
    next hsome =>
      cases h
      obtain ⟨hleft, hstack, _⟩ := back_spec hpending hx
      refine ⟨[], [], ?_, hleft.symm, hstack, fun z hz => absurd hz List.not_mem_nil,
        hback hpending⟩
      rw [List.append_nil]
      refine .empty hps fun hnil => ?_
      obtain ⟨rfl, rfl⟩ := hps.nil_iff.mp hnil
      cases hsome
    · cases h

theorem node_begins {block indentless : Bool} {x : Expect} {s : List Expect}
    (hpending : p.pending = x :: s) (hx : x.resumes = true)
    (h : p.node d block indentless = .ok (e, p')) : ∃ ks fs, Begun indentless p e.kind ks fs p' := by
  unfold node at h
  obtain ⟨⟨t, p₁⟩, hlook, h⟩ := bind_eq_ok.mp h
  obtain ⟨th, r, rfl, htokens, h₁⟩ := look_passed hlook
  dsimp only at h
  split at h
  next name hkind =>
    split at h
    · cases h
      have h₂ := h₁.trans (drop_passed htokens)
      obtain ⟨hleft, hstack, hexpect⟩ := back_spec (h₂.pending.trans hpending) hx
      refine ⟨[.alias name], [], .alias name, ?_, hstack.trans h₂.pending,
        fun z hz => absurd hz List.not_mem_nil, ?_⟩
      · rw [h₂.kinds, hleft, ← hkind]
        rfl
      · rw [hexpect]
        rw [Expect.resumes, Bool.and_eq_true, Bool.not_eq_true', Bool.not_eq_true'] at hx
        exact hx.2
    · cases h
  · obtain ⟨⟨anchor, tag, p₂⟩, hproperties, h⟩ := bind_eq_ok.mp h
    obtain ⟨⟨t, p₃⟩, hlook, h⟩ := bind_eq_ok.mp h
    obtain ⟨th', r', rfl, htokens', h₃⟩ := look_passed hlook
    obtain ⟨ps, hps, hkinds, hpending₂⟩ := properties_read hproperties
    have hpending₃ : p₃.pending = p.pending := (h₃.pending.trans hpending₂).trans h₁.pending
    obtain ⟨os, fs, hbegins, hleft, hstack, hlist, hbehind⟩ :=
      content_begins hps htokens' (hpending₃.trans hpending) hx h
    refine ⟨ps ++ os, fs, hbegins, ?_, hstack.trans (congrArg _ hpending₃), hlist, hbehind⟩
    have hkinds₃ : p₂.kinds = p₃.kinds := h₃.kinds
    rw [h₁.kinds, List.map_nil, List.nil_append, hkinds, hkinds₃, hleft, List.append_assoc]

end Parser

end Blueprint.Yaml
