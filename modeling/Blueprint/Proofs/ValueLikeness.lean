import Blueprint.Proofs.ParserLikeness
import Blueprint.Proofs.TreeMatching

/-!
The value of a document depends on its events and hardly on their places: events that are alike lead
to trees of the same value, unless a boolean that is respelt is read as a text.
-/

namespace Blueprint

namespace Generic

theorem ofPlain_respell (text : String) : ofPlain (respell text) = ofPlain text := by
  unfold respell
  split
  next h =>
    rw [h]
    rfl
  next h =>
    rw [h]
    rfl
  · rfl

theorem respell_eq_tilde (text : String) : respell text = "~" ↔ text = "~" := by
  unfold respell
  split
  next h =>
    constructor
    · intro heq
      exact absurd heq (by decide)
    · intro heq
      rw [heq] at h
      cases h
  next h =>
    constructor
    · intro heq
      exact absurd heq (by decide)
    · intro heq
      rw [heq] at h
      cases h
  · exact Iff.rfl

end Generic

namespace Node

/-- Whether a node as a key is none of the words in an unusual spelling. -/
def usualKey (words : List String) : Node → Bool
  | scalar _ _ text .plain _ => !words.contains text || Generic.respell text == text
  | _ => true

mutual

/-- Whether those of the words that are read as texts, in keys and behind the tag `!!str`, have their
usual spelling. -/
def usual (words : List String) : Node → Bool
  | scalar _ _ text style textTag =>
    !(style == .plain && textTag && words.contains text) || Generic.respell text == text
  | sequence _ _ _ items => usualItems words items
  | mapping _ _ _ entries => usualEntries words entries
  | .alias _ _ target => target.usual words

def usualItems (words : List String) : List Node → Bool
  | [] => true
  | n :: r => n.usual words && usualItems words r

def usualEntries (words : List String) : List (Node × Node) → Bool
  | [] => true
  | (k, v) :: r => k.usualKey words && k.usual words && v.usual words && usualEntries words r

end

mutual

/-- Two trees that differ in places, and in the spelling of some words, only. -/
inductive Alike (words : List String) : Node → Node → Prop where
  | scalar {start stop start' stop' : Mark} (text : String) (style : Yaml.ScalarStyle)
    (textTag : Bool) :
    Alike words (.scalar start stop text style textTag) (.scalar start' stop' text style textTag)
  | boolean {start stop start' stop' : Mark} (text : String) (textTag : Bool) (hword : text ∈ words) :
    Alike words (.scalar start stop text .plain textTag)
      (.scalar start' stop' (Generic.respell text) .plain textTag)
  | sequence {start stop start' stop' : Mark} {flow flow' : Bool} {items items' : List Node}
    (h : ItemsAlike words items items') :
    Alike words (.sequence start stop flow items) (.sequence start' stop' flow' items')
  | mapping {start stop start' stop' : Mark} {flow flow' : Bool} {entries entries' : List (Node × Node)}
    (h : EntriesAlike words entries entries') :
    Alike words (.mapping start stop flow entries) (.mapping start' stop' flow' entries')
  | alias {start stop start' stop' : Mark} {target target' : Node} (h : Alike words target target') :
    Alike words (.alias start stop target) (.alias start' stop' target')

inductive ItemsAlike (words : List String) : List Node → List Node → Prop where
  | nil : ItemsAlike words [] []
  | cons {n n' : Node} {r r' : List Node} (h : Alike words n n') (hr : ItemsAlike words r r') :
    ItemsAlike words (n :: r) (n' :: r')

inductive EntriesAlike (words : List String) : List (Node × Node) → List (Node × Node) → Prop where
  | nil : EntriesAlike words [] []
  | cons {k k' v v' : Node} {r r' : List (Node × Node)} (hk : Alike words k k') (hv : Alike words v v')
    (hr : EntriesAlike words r r') : EntriesAlike words ((k, v) :: r) ((k', v') :: r')

end

/-- The keys and the values of two entries are alike. -/
def EntryAlike (words : List String) (e e' : Node × Node) : Prop :=
  Alike words e.1 e'.1 ∧ Alike words e.2 e'.2

variable {words : List String}

theorem itemsAlike_of {items items' : List Node} (h : List.Forall₂ (Alike words) items items') :
    ItemsAlike words items items' := by
  induction h with
  | nil => exact .nil
  | cons h _ ih => exact .cons h ih

theorem entriesAlike_of {entries entries' : List (Node × Node)}
    (h : List.Forall₂ (EntryAlike words) entries entries') : EntriesAlike words entries entries' := by
  induction h with
  | nil => exact .nil
  | cons h _ ih => exact .cons h.1 h.2 ih

/-- The text under which a key is entered. -/
theorem Alike.key_eq {k k' : Node} (h : Alike words k k') (husual : k.usualKey words = true)
    (hvalue : k'.value = k.value) : k'.text?.getD k'.value.render = k.text?.getD k.value.render := by
  cases h with
  | scalar text style textTag => rfl
  | boolean text textTag hword =>
    show Generic.respell text = text
    exact eq_of_beq (by simpa [usualKey, hword] using husual)
  | sequence h =>
    show Generic.render _ = Generic.render _
    rw [hvalue]
  | mapping h =>
    show Generic.render _ = Generic.render _
    rw [hvalue]
  | «alias» h =>
    show Generic.render _ = Generic.render _
    rw [hvalue]

mutual

/-- Trees that are alike have the same value. -/
theorem Alike.value_eq {n n' : Node} (h : Alike words n n') (husual : n.usual words = true) :
    n'.value = n.value := by
  match h with
  | .scalar text style textTag => rfl
  | .boolean text textTag hword =>
    cases textTag with
    | false =>
      unfold value
      rw [if_pos (by decide), if_pos (by decide), Generic.ofPlain_respell]
    | true =>
      have hsame : Generic.respell text = text := by
        rw [usual, List.contains_iff_mem.mpr hword] at husual
        exact eq_of_beq husual
      unfold value
      rw [hsame]
  | .sequence h =>
    rw [usual] at husual
    rw [value, value, h.values_eq husual]
  | .mapping h =>
    rw [usual] at husual
    rw [value, value, h.fields_eq husual]
  | .alias h =>
    rw [usual] at husual
    rw [value, value, h.value_eq husual]
termination_by structural h

theorem ItemsAlike.values_eq {items items' : List Node} (h : ItemsAlike words items items')
    (husual : usualItems words items = true) : values items' = values items := by
  match h with
  | .nil => rfl
  | .cons h hr =>
    rw [usualItems, Bool.and_eq_true] at husual
    rw [values, values, h.value_eq husual.1, hr.values_eq husual.2]
termination_by structural h

theorem EntriesAlike.fields_eq {entries entries' : List (Node × Node)}
    (h : EntriesAlike words entries entries') (husual : usualEntries words entries = true)
    (known : List (String × Generic)) : fields known entries' = fields known entries := by
  match h with
  | .nil => rfl
  | .cons hk hv hr =>
    rw [usualEntries, Bool.and_eq_true, Bool.and_eq_true, Bool.and_eq_true] at husual
    obtain ⟨⟨⟨hkey, hkeys⟩, hvalues⟩, hrest⟩ := husual
    rw [fields, fields, hk.key_eq hkey (hk.value_eq hkeys), hv.value_eq hvalues, hr.fields_eq hrest]
termination_by structural h

end

end Node

namespace Composition

/-- The children of two open collections are alike. -/
inductive ChildrenAlike (words : List String) : OpenChildren → OpenChildren → Prop where
  | items {done done' : List Node} (h : List.Forall₂ (Node.Alike words) done done') :
    ChildrenAlike words (.items done) (.items done')
  | entries {done done' : List (Node × Node)} {key key' : Option Node}
    (h : List.Forall₂ (Node.EntryAlike words) done done') (hkey : Option.Rel (Node.Alike words) key key') :
    ChildrenAlike words (.entries done key) (.entries done' key')

structure OpenAlike (words : List String) (f f' : OpenNode) : Prop where
  anchor : f'.anchor = f.anchor
  children : ChildrenAlike words f.children f'.children

variable {w : Rewriting} {words : List String} {n n' : Node}

theorem OpenAlike.add {f f' : OpenNode} (h : OpenAlike words f f') (hn : Node.Alike words n n') :
    OpenAlike words (f.add n) (f'.add n') := by
  obtain ⟨start, flow, anchor, children⟩ := f
  obtain ⟨start', flow', anchor', children'⟩ := f'
  obtain ⟨hanchor, hchildren⟩ := h
  cases hchildren with
  | items h => exact ⟨hanchor, .items (.cons hn h)⟩
  | entries h hkey =>
    cases hkey with
    | none => exact ⟨hanchor, .entries h (.some hn)⟩
    | some hk => exact ⟨hanchor, .entries (.cons ⟨hk, hn⟩ h) .none⟩

theorem OpenAlike.close {f f' : OpenNode} (h : OpenAlike words f f') (stop stop' : Mark) :
    Node.Alike words (f.close stop) (f'.close stop') := by
  obtain ⟨start, flow, anchor, children⟩ := f
  obtain ⟨start', flow', anchor', children'⟩ := f'
  obtain ⟨hanchor, hchildren⟩ := h
  cases hchildren with
  | items h => exact .sequence (Node.itemsAlike_of (List.rel_reverse h))
  | entries h hkey => exact .mapping (Node.entriesAlike_of (List.rel_reverse h))

theorem scalarNode_alike {m m' : Mark} (hm : Yaml.TildeAlike w m m') (text : String)
    (style : Yaml.ScalarStyle) (tag : Option Yaml.Tag) :
    Node.Alike w.words (scalarNode w.old m text style tag) (scalarNode w.new m' text style tag) := by
  have htext : (if text = "~" ∧ w.new.char? m'.index ≠ some '~' then "" else text) =
      if text = "~" ∧ w.old.char? m.index ≠ some '~' then "" else text := by
    unfold Yaml.TildeAlike at hm
    simp only [ne_eq, hm]
  unfold scalarNode
  dsimp only
  rw [htext]
  exact .scalar _ _ _

theorem scalarNode_respell {m m' : Mark} (hm : Yaml.TildeAlike w m m') (text : String)
    (hword : text ∈ w.words) (tag : Option Yaml.Tag) :
    Node.Alike w.words (scalarNode w.old m text .plain tag)
      (scalarNode w.new m' (Generic.respell text) .plain tag) := by
  by_cases htilde : text = "~"
  · have hsame : Generic.respell text = text :=
      ((Generic.respell_eq_tilde text).mpr htilde).trans htilde.symm
    rw [hsame]
    exact scalarNode_alike hm text .plain tag
  · have hother : Generic.respell text ≠ "~" := fun h =>
      htilde ((Generic.respell_eq_tilde text).mp h)
    have hold : (if text = "~" ∧ w.old.char? m.index ≠ some '~' then "" else text) = text :=
      if_neg fun h => htilde h.1
    have hnew : (if Generic.respell text = "~" ∧ w.new.char? m'.index ≠ some '~' then ""
        else Generic.respell text) = Generic.respell text := if_neg fun h => hother h.1
    unfold scalarNode
    dsimp only
    rw [hold, hnew]
    exact .boolean text _ hword

/-- Events that are alike build trees that are alike. -/
def alikeTrees (w : Rewriting) : TreeMatching where
  old := w.old
  new := w.new
  event := Yaml.Event.Alike w
  node := Node.Alike w.words
  frame := OpenAlike w.words
  kind {e e'} h := by
    have hkind := h.kind
    generalize e.kind = k at hkind ⊢
    generalize e'.kind = k' at hkind ⊢
    cases hkind with
    | same => exact .same k
    | boolean => exact .scalars ..
  scalar {e e' text text' style style' anchor tag} h he he' := by
    have htilde : Yaml.TildeAlike w e.mark e'.mark := h.tilde.resolve_left (by rw [he]; nofun)
    have hkind := h.kind
    rw [he, he'] at hkind
    cases hkind with
    | same => exact scalarNode_alike htilde text style tag
    | boolean _ _ _ hword => exact scalarNode_respell htilde text hword tag
  items _ _ _ := ⟨rfl, .items .nil⟩
  entries _ _ _ := ⟨rfl, .entries .nil .none⟩
  anchor h := h.anchor
  add := OpenAlike.add
  close := OpenAlike.close
  target h _ _ _ _ := .alias h

end Composition

theorem Node.map_value_eq {words : List String} {root root' : Option Node}
    (h : Option.Rel (Alike words) root root') (husual : root.all (usual words) = true) :
    root'.map value = root.map value := by
  cases h with
  | none => rfl
  | some hn => exact congrArg some (hn.value_eq husual)

/-- Tokens that are alike lead to documents of the same value. -/
theorem Node.compose_value_eq {w : Rewriting} {text text' : List Char} {root : Option Node}
    (htokens : Yaml.Scan.Alike w (.ofList .document text) (.ofList .document text'))
    (hcompose : compose w.old text = .ok root) (husual : root.all (usual w.words) = true) :
    ∃ root', compose w.new text' = .ok root' ∧ root'.map value = root.map value := by
  unfold compose at hcompose ⊢
  cases hevents : Yaml.Event.ofFirstDocument .document (Yaml.Scan.ofList .document text) with
  | error e =>
    rw [hevents] at hcompose
    cases hcompose
  | ok events =>
    rw [hevents] at hcompose
    obtain ⟨events', hevents', halike⟩ := Yaml.Event.ofFirstDocument_alike .document htokens _ hevents
    have hroots := (TreeMatching.Compositions.empty (Composition.alikeTrees w)).foldl halike |>.root
    cases hcompose
    rw [hevents']
    refine ⟨ofEvents w.new events', rfl, ?_⟩
    exact map_value_eq hroots husual

end Blueprint
