import Blueprint.Text.Source
import Blueprint.Proofs.ParserMatching
import Blueprint.Proofs.TreeMatching

/-!
A scalar at one place of a document gets another text. The tokens that differ in this scalar only
build trees that differ in it only.
-/

namespace Blueprint

/-- Two texts, and the scalar that has another text in the second one. -/
structure Respelling where
  old : Source
  new : Source
  place : Mark
  word : String
  newWord : String

namespace Respelling

/-- The text of a scalar that starts at `m`. -/
def text (w : Respelling) (m : Mark) (text : String) : String :=
  if m = w.place ∧ text = w.word then w.newWord else text

/-- A character that tells nodes from each other stands at both places or at none. -/
def SameSigns (w : Respelling) (m m' : Mark) : Prop :=
  ∀ c ∈ ['~', '[', '\x7b'], w.old.char? m.index = some c ↔ w.new.char? m'.index = some c

instance (w : Respelling) (m m' : Mark) : Decidable (w.SameSigns m m') :=
  inferInstanceAs (Decidable (∀ c ∈ _, (_ ↔ _)))

/-- The words cannot be taken for missing nodes. -/
structure Written (w : Respelling) : Prop where
  word : w.word ≠ "" ∧ w.word ≠ "~"
  newWord : w.newWord ≠ "~"

end Respelling

namespace Yaml

/-- The kind of a token in the second text. -/
def Token.respelt (w : Respelling) (t : Token) : TokenKind :=
  match t.kind with
  | .scalar text style => .scalar (w.text t.mark text) style
  | k => k

theorem Token.respelt_of_scalar {w : Respelling} {t : Token} {text : String} {style : ScalarStyle}
    (h : t.kind = .scalar text style) : t.respelt w = .scalar (w.text t.mark text) style := by
  unfold respelt
  rw [h]

/-- Tokens of two texts that differ in the scalar only. -/
structure Token.Respelt (w : Respelling) (t t' : Token) : Prop where
  kind : t'.kind = t.respelt w
  signs : w.SameSigns t.mark t'.mark

instance (w : Respelling) (t t' : Token) : Decidable (Token.Respelt w t t') :=
  decidable_of_iff (t'.kind = t.respelt w ∧ w.SameSigns t.mark t'.mark)
    ⟨fun h => ⟨h.1, h.2⟩, fun h => ⟨h.1, h.2⟩⟩

/-- The kind of an event in the second text. -/
def Event.respelt (w : Respelling) (e : Event) : EventKind :=
  match e.kind with
  | .scalar text style anchor tag => .scalar (w.text e.mark text) style anchor tag
  | k => k

/-- The place of the end of a mapping is of no account. -/
structure Event.Respelt (w : Respelling) (e e' : Event) : Prop where
  kind : e'.kind = e.respelt w
  signs : e.kind = .mappingEnd ∨ w.SameSigns e.mark e'.mark

/-- Tokens that differ in a scalar only lead a parser the same way. -/
def Token.Respelt.matching (w : Respelling) : Matching where
  token := Token.Respelt w
  list := List.Forall₂ fun t t' => Token.Respelt w t.token t'.token
  kind {t t'} h := by
    rw [h.kind]
    unfold Token.respelt
    generalize t.kind = k
    cases k with
    | scalar text style => exact .scalars ..
    | _ => exact .same _
  head h := (List.forall₂_cons.mp h).1
  more h := nomatch h
  tail h _ := (List.forall₂_cons.mp h).2

theorem Token.Respelt.matching_total (w : Respelling) : (matching w).Total :=
  fun h => (List.forall₂_cons.mp h).2

section Events

variable {w : Respelling}

theorem Event.Respelt.of_matching (hw : w.Written) {e e' : Event}
    (h : (Token.Respelt.matching w).Event e e') : Event.Respelt w e e' := by
  cases h with
  | @same k hk t t' ht =>
    refine ⟨?_, Or.inr ht.signs⟩
    unfold Event.respelt
    cases k with
    | scalar text style anchor tag =>
      have hother : ¬(t.mark = w.place ∧ text = w.word) := by
        rintro ⟨_, rfl⟩
        exact hk.elim hw.word.1 hw.word.2
      exact congrArg (EventKind.scalar · style anchor tag) (if_neg hother).symm
    | _ => rfl
  | pairEnd => exact ⟨rfl, Or.inl rfl⟩
  | @scalars t t' ht text style text' style' hk hk' anchor tag =>
    have hkind := ht.kind
    rw [hk', Token.respelt_of_scalar hk] at hkind
    cases hkind
    exact ⟨rfl, Or.inr ht.signs⟩

/-- The tokens of the two texts differ in the scalar only, one by one. -/
def Scan.Respelt (w : Respelling) (scan scan' : Scan) : Prop :=
  List.Forall₂ (fun t t' => Token.Respelt w t.token t'.token) scan.tokens scan'.tokens

instance (w : Respelling) (scan scan' : Scan) : Decidable (Scan.Respelt w scan scan') :=
  inferInstanceAs (Decidable (List.Forall₂ _ _ _))

theorem Event.ofFirstDocument_respelt {d : Dialect} {scan scan' : Scan} (hw : w.Written)
    (h : Scan.Respelt w scan scan') :
    Mirrors (List.Forall₂ (Event.Respelt w)) (Event.ofFirstDocument d scan)
      (Event.ofFirstDocument d scan') := by
  have hlimit : Event.eventLimit scan' = Event.eventLimit scan := by
    unfold Event.eventLimit
    rw [h.length_eq]
  have hopen : Mirrors (Token.Respelt.matching w).Parsers (Parser.ofScan scan).open?
      (Parser.ofScan scan').open? := Matching.Parsers.open? ⟨h, rfl, rfl, rfl, rfl⟩
  unfold Event.ofFirstDocument
  rw [hlimit]
  refine hopen.bind fun p p' hp es hes => ?_
  obtain ⟨es', hes', hmatch⟩ :=
    Matching.Total.run (Token.Respelt.matching_total w) hp (fun _ _ _ _ => rfl) _ es hes
  exact ⟨es', hes', hmatch.imp fun _ _ => Event.Respelt.of_matching hw⟩

end Events

end Yaml

namespace Node

mutual

/-- Two trees that differ in places, and in the text of one scalar, only. -/
inductive Respelt (w : Respelling) : Node → Node → Prop where
  | scalar (start stop start' stop' : Mark) (text : String) (style : Yaml.ScalarStyle)
    (textTag : Bool) :
    Respelt w (.scalar start stop text style textTag)
      (.scalar start' stop' (w.text start text) style textTag)
  | sequence (start stop start' stop' : Mark) (flow : Bool) {items items' : List Node}
    (h : ItemsRespelt w items items') :
    Respelt w (.sequence start stop flow items) (.sequence start' stop' flow items')
  | mapping (start stop start' stop' : Mark) (flow : Bool) {entries entries' : List (Node × Node)}
    (h : EntriesRespelt w entries entries') :
    Respelt w (.mapping start stop flow entries) (.mapping start' stop' flow entries')
  | alias (start stop start' stop' : Mark) {target target' : Node} (h : Respelt w target target') :
    Respelt w (.alias start stop target) (.alias start' stop' target')

inductive ItemsRespelt (w : Respelling) : List Node → List Node → Prop where
  | nil : ItemsRespelt w [] []
  | cons {n n' : Node} {r r' : List Node} (h : Respelt w n n') (hr : ItemsRespelt w r r') :
    ItemsRespelt w (n :: r) (n' :: r')

inductive EntriesRespelt (w : Respelling) : List (Node × Node) → List (Node × Node) → Prop where
  | nil : EntriesRespelt w [] []
  | cons {k k' v v' : Node} {r r' : List (Node × Node)} (hk : Respelt w k k') (hv : Respelt w v v')
    (hr : EntriesRespelt w r r') : EntriesRespelt w ((k, v) :: r) ((k', v') :: r')

end

/-- The keys and the values of two entries differ in the scalar only. -/
def EntryRespelt (w : Respelling) (e e' : Node × Node) : Prop :=
  Respelt w e.1 e'.1 ∧ Respelt w e.2 e'.2

variable {w : Respelling}

theorem itemsRespelt_of {items items' : List Node} (h : List.Forall₂ (Respelt w) items items') :
    ItemsRespelt w items items' := by
  induction h with
  | nil => exact .nil
  | cons h _ ih => exact .cons h ih

theorem entriesRespelt_of {entries entries' : List (Node × Node)}
    (h : List.Forall₂ (EntryRespelt w) entries entries') : EntriesRespelt w entries entries' := by
  induction h with
  | nil => exact .nil
  | cons h _ ih => exact .cons h.1 h.2 ih

end Node

namespace Composition

/-- The children of two open collections differ in the scalar only. -/
inductive ChildrenRespelt (w : Respelling) : OpenChildren → OpenChildren → Prop where
  | items {done done' : List Node} (h : List.Forall₂ (Node.Respelt w) done done') :
    ChildrenRespelt w (.items done) (.items done')
  | entries {done done' : List (Node × Node)} {key key' : Option Node}
    (h : List.Forall₂ (Node.EntryRespelt w) done done')
    (hkey : Option.Rel (Node.Respelt w) key key') :
    ChildrenRespelt w (.entries done key) (.entries done' key')

structure OpenRespelt (w : Respelling) (f f' : OpenNode) : Prop where
  flow : f'.flow = f.flow
  anchor : f'.anchor = f.anchor
  children : ChildrenRespelt w f.children f'.children

variable {w : Respelling} {n n' : Node}

theorem OpenRespelt.add {f f' : OpenNode} (h : OpenRespelt w f f') (hn : Node.Respelt w n n') :
    OpenRespelt w (f.add n) (f'.add n') := by
  obtain ⟨start, flow, anchor, children⟩ := f
  obtain ⟨start', flow', anchor', children'⟩ := f'
  obtain ⟨hflow, hanchor, hchildren⟩ := h
  cases hchildren with
  | items h => exact ⟨hflow, hanchor, .items (.cons hn h)⟩
  | entries h hkey =>
    cases hkey with
    | none => exact ⟨hflow, hanchor, .entries h (.some hn)⟩
    | some hk => exact ⟨hflow, hanchor, .entries (.cons ⟨hk, hn⟩ h) .none⟩

theorem OpenRespelt.close {f f' : OpenNode} (h : OpenRespelt w f f') (stop stop' : Mark) :
    Node.Respelt w (f.close stop) (f'.close stop') := by
  obtain ⟨start, flow, anchor, children⟩ := f
  obtain ⟨start', flow', anchor', children'⟩ := f'
  obtain ⟨hflow, hanchor, hchildren⟩ := h
  obtain rfl : flow' = flow := hflow
  cases hchildren with
  | items h => exact .sequence _ _ _ _ _ (Node.itemsRespelt_of (List.rel_reverse h))
  | entries h hkey => exact .mapping _ _ _ _ _ (Node.entriesRespelt_of (List.rel_reverse h))

theorem scalarNode_respelt (hw : w.Written) {m m' : Mark} (hm : w.SameSigns m m') (text : String)
    (style : Yaml.ScalarStyle) (tag : Option Yaml.Tag) :
    Node.Respelt w (scalarNode w.old m text style tag)
      (scalarNode w.new m' (w.text m text) style tag) := by
  have htilde : w.new.char? m'.index = some '~' ↔ w.old.char? m.index = some '~' :=
    (hm '~' List.mem_cons_self).symm
  have htext : (if w.text m text = "~" ∧ w.new.char? m'.index ≠ some '~' then "" else w.text m text) =
      w.text m (if text = "~" ∧ w.old.char? m.index ≠ some '~' then "" else text) := by
    by_cases hword : m = w.place ∧ text = w.word
    · have hold : ¬(text = "~" ∧ w.old.char? m.index ≠ some '~') :=
        fun h => hw.word.2 (hword.2.symm.trans h.1)
      have hnew : w.text m text = w.newWord := if_pos hword
      rw [if_neg hold, hnew, if_neg fun h => hw.newWord h.1]
    · have hsame : w.text m text = text := if_neg hword
      have hempty : w.text m "" = "" := if_neg fun h => hw.word.1 h.2.symm
      rw [hsame, apply_ite (w.text m), hempty, hsame]
      exact if_congr (and_congr_right fun _ => not_congr htilde) rfl rfl
  unfold scalarNode
  dsimp only
  rw [htext]
  exact .scalar _ _ _ _ _ _ _

theorem flow_of_sameSigns {m m' : Mark} (hm : w.SameSigns m m') {c : Char}
    (hc : c ∈ ['~', '[', '\x7b']) :
    decide (w.new.char? m'.index = some c) = decide (w.old.char? m.index = some c) :=
  decide_eq_decide.mpr (hm c hc).symm

/-- Events that differ in a scalar only build trees that differ in it only. -/
def respeltTrees (w : Respelling) (hw : w.Written) : TreeMatching where
  old := w.old
  new := w.new
  event := Yaml.Event.Respelt w
  node := Node.Respelt w
  frame := OpenRespelt w
  kind {e e'} h := by
    rw [h.kind]
    unfold Yaml.Event.respelt
    generalize e.kind = k
    cases k with
    | scalar text style anchor tag => exact .scalars ..
    | _ => exact .same _
  scalar {e e' text text' style style' anchor tag} h he he' := by
    have hsigns : w.SameSigns e.mark e'.mark := h.signs.resolve_left (by rw [he]; nofun)
    have hkind := h.kind
    unfold Yaml.Event.respelt at hkind
    rw [he, he'] at hkind
    cases hkind
    exact scalarNode_respelt hw hsigns text style tag
  items {e e' anchor tag} h he number :=
    ⟨flow_of_sameSigns (h.signs.resolve_left (by rw [he]; nofun)) (by decide), rfl, .items .nil⟩
  entries {e e' anchor tag} h he number :=
    ⟨flow_of_sameSigns (h.signs.resolve_left (by rw [he]; nofun)) (by decide), rfl,
      .entries .nil .none⟩
  anchor h := h.anchor
  add := OpenRespelt.add
  close := OpenRespelt.close
  target h start stop start' stop' := .alias start stop start' stop' h

end Composition

/-- Tokens that differ in a scalar only lead to documents that differ in it only. -/
theorem Node.compose_respelt {w : Respelling} {text text' : List Char} {root : Option Node}
    (hw : w.Written)
    (htokens : Yaml.Scan.Respelt w (.ofList .document text) (.ofList .document text'))
    (hcompose : compose w.old text = .ok root) :
    ∃ root', compose w.new text' = .ok root' ∧ Option.Rel (Respelt w) root root' := by
  unfold compose at hcompose ⊢
  cases hevents : Yaml.Event.ofFirstDocument .document (Yaml.Scan.ofList .document text) with
  | error e =>
    rw [hevents] at hcompose
    cases hcompose
  | ok events =>
    rw [hevents] at hcompose
    obtain ⟨events', hevents', hrespelt⟩ :=
      Yaml.Event.ofFirstDocument_respelt hw htokens _ hevents
    have hroots :=
      (TreeMatching.Compositions.empty (Composition.respeltTrees w hw)).foldl hrespelt |>.root
    cases hcompose
    rw [hevents']
    exact ⟨ofEvents w.new events', rfl, hroots⟩

end Blueprint
