import Blueprint.Proofs.ComposedTree
import Blueprint.Proofs.ScanOrder

/-!
The nodes of a document come line by line: their events carry the positions of tokens, which are in
order, and a block mapping that is moved to its first key does not pass its parts.
-/

namespace Blueprint

namespace Yaml

open EventTree (startsNode)

namespace Parser

variable {d : Dialect} {p p' : Parser}

/-- The events that start a node carry the positions of tokens, one after the other. -/
theorem run_lines {fuel : Nat} {es : List Event} (htidy : p.Tidy)
    (hbottom : p.slots.getLast? = some .documentEnd)
    (hsorted : p.tokens.Pairwise (·.token.mark.line ≤ ·.token.mark.line))
    (h : p.run d endsDocument fuel = .ok es) :
    (∀ e ∈ es.filter startsNode, ∃ t ∈ p.tokens, e.mark = t.token.mark) ∧
      (es.filter startsNode).Pairwise (·.mark.line ≤ ·.mark.line) := by
  induction fuel generalizing p es with
  | zero =>
    cases h
    exact ⟨fun e he => absurd he List.not_mem_nil, .nil⟩
  | succ fuel ih =>
    rw [run] at h
    obtain ⟨⟨e, p'⟩, hstep, h⟩ := bind_eq_ok.mp h
    dsimp only at h
    rcases step_inside htidy hbottom hstep with ⟨_, hkind⟩ | ⟨hadv, _, hbottom'⟩
    · rw [hkind] at h
      cases h
      have hstarts : startsNode e = false := by rw [startsNode, hkind]; rfl
      rw [List.filter_cons_of_neg (by rw [hstarts]; exact Bool.false_ne_true)]
      exact ⟨fun e he => absurd he List.not_mem_nil, .nil⟩
    · rw [if_neg (by rw [turn_goes_on hadv.turn]; exact Bool.false_ne_true)] at h
      obtain ⟨rest, hrest, h⟩ := bind_eq_ok.mp h
      cases h
      obtain ⟨hmem, hpair⟩ := ih (hadv.tidy htidy) hbottom'
        (hsorted.sublist hadv.tokens.sublist) hrest
      have hmem' : ∀ e ∈ rest.filter startsNode, ∃ t ∈ p.tokens, e.mark = t.token.mark := by
        intro e he
        obtain ⟨t, ht, hmark⟩ := hmem e he
        exact ⟨t, hadv.tokens.subset ht, hmark⟩
      rw [List.filter_cons]
      split
      next hstarts =>
        obtain ⟨t, r, hsuf, hsuf', hmark⟩ := hadv.meets hstarts
        have hhead := hsorted.sublist hsuf.sublist
        refine ⟨?_, List.pairwise_cons.mpr ⟨?_, hpair⟩⟩
        · intro e' he'
          rcases List.mem_cons.mp he' with rfl | he'
          · exact ⟨t, hsuf.subset List.mem_cons_self, hmark⟩
          · exact hmem' e' he'
        · intro e' he'
          obtain ⟨t', ht', hmark'⟩ := hmem e' he'
          rw [hmark, hmark']
          rcases List.mem_cons.mp (hsuf'.subset ht') with rfl | ht'
          · exact Nat.le_refl _
          · exact (List.pairwise_cons.mp hhead).1 t' ht'
      · exact ⟨hmem', hpair⟩

end Parser

/-- In the first document of a text the nodes start line by line. -/
theorem Event.ofFirstDocument_lines {text : List Char} {es : List Event}
    (h : ofFirstDocument .document (Scan.ofList .document text) = .ok es) :
    (es.filter startsNode).Pairwise (·.mark.line ≤ ·.mark.line) := by
  have hsorted : (Scan.ofList .document text).tokens.Pairwise
      (·.token.mark.line ≤ ·.token.mark.line) := by
    have hprecede := (scan_tokens_mayPrecede text).imp fun h => h.1
    rwa [List.pairwise_map] at hprecede
  unfold ofFirstDocument at h
  obtain ⟨p, hopen, h⟩ := bind_eq_ok.mp h
  have hready := Parser.open_ready hopen
  rcases hready.run h with ⟨e, rfl, hkind⟩ | ⟨first, q, rest, rfl, hfirst, hopened, hrest⟩
  · rw [List.filter_cons, startsNode, hkind]
    exact .nil
  · have hstarts : startsNode first = false := by rw [startsNode, hfirst]; rfl
    rw [List.filter_cons_of_neg (by rw [hstarts]; exact Bool.false_ne_true)]
    refine (Parser.run_lines hopened.tidy (by rw [hopened.slots]; rfl) ?_ hrest).2
    refine (hsorted.sublist ?_).sublist hopened.tokens.sublist
    rw [hready.tokens]
    exact List.drop_sublist 1 _

end Yaml

namespace Node

/-- The lines on which a node and the nodes inside it start. -/
def lines (n : Node) : List Nat :=
  n.preorder.map line

theorem preorder_head (n : Node) : ∃ r, n.preorder = n :: r := by
  cases n <;> exact ⟨_, rfl⟩

theorem preorderItems_append (a b : List Node) :
    preorderItems (a ++ b) = preorderItems a ++ preorderItems b := by
  induction a with
  | nil => rfl
  | cons n r ih => rw [List.cons_append, preorderItems, preorderItems, ih, List.append_assoc]

theorem preorderEntries_append (a b : List (Node × Node)) :
    preorderEntries (a ++ b) = preorderEntries a ++ preorderEntries b := by
  induction a with
  | nil => rfl
  | cons x r ih =>
    obtain ⟨k, v⟩ := x
    rw [List.cons_append, preorderEntries, preorderEntries, ih, List.append_assoc,
      List.append_assoc]

end Node

namespace OpenNode

/-- The complete nodes inside an open collection. -/
def parts (f : OpenNode) : List Node :=
  match f.children with
  | .items done => Node.preorderItems done.reverse
  | .entries done key => Node.preorderEntries done.reverse ++ (key.map Node.preorder).getD []

/-- The lines on which the collection and the nodes inside it start. -/
def lines (f : OpenNode) : List Nat :=
  f.start.line :: f.parts.map Node.line

theorem add_lines (f : OpenNode) (n : Node) : (f.add n).lines = f.lines ++ n.lines := by
  have hparts : (f.add n).start = f.start ∧ (f.add n).parts = f.parts ++ n.preorder := by
    unfold add
    split
    next done hf =>
      refine ⟨rfl, ?_⟩
      simp [parts, hf, Node.preorderItems_append, Node.preorderItems]
    next done hf =>
      refine ⟨rfl, ?_⟩
      simp [parts, hf]
    next done k hf =>
      refine ⟨rfl, ?_⟩
      simp [parts, hf, Node.preorderEntries_append, Node.preorderEntries]
  rw [lines, hparts.1, hparts.2, List.map_append, lines, List.cons_append, Node.lines]

/-- A closed collection starts before its parts, on a line of its own or of its first key. -/
theorem close_lines (f : OpenNode) (stop : Mark) (h : f.lines.Pairwise (· ≤ ·)) :
    (f.close stop).lines.Pairwise (· ≤ ·) ∧ ∀ l ∈ (f.close stop).lines, l ∈ f.lines := by
  unfold close
  split
  next done hf =>
    have heq : (Node.sequence f.start stop f.flow done.reverse).lines = f.lines := by
      simp [Node.lines, lines, parts, hf, Node.preorder, Node.line, Node.start]
    rw [heq]
    exact ⟨h, fun l hl => hl⟩
  next done key hf =>
    have hsub : ((Node.preorderEntries done.reverse).map Node.line).Sublist
        (f.parts.map Node.line) := by
      rw [parts, hf]
      exact (List.sublist_append_left _ _).map _
    obtain ⟨hhead, htail⟩ := List.pairwise_cons.mp h
    have hkeep (start : Mark) (hmem : start.line ∈ f.lines)
        (hle : ∀ l ∈ (Node.preorderEntries done.reverse).map Node.line, start.line ≤ l) :
        (Node.mapping start stop f.flow done.reverse).lines.Pairwise (· ≤ ·) ∧
          ∀ l ∈ (Node.mapping start stop f.flow done.reverse).lines, l ∈ f.lines := by
      refine ⟨List.pairwise_cons.mpr ⟨hle, htail.sublist hsub⟩, ?_⟩
      intro l hl
      rcases List.mem_cons.mp hl with rfl | hl
      · exact hmem
      · exact List.mem_cons_of_mem _ (hsub.subset hl)
    have hown : ∀ l ∈ (Node.preorderEntries done.reverse).map Node.line, f.start.line ≤ l :=
      fun l hl => hhead l (hsub.subset hl)
    dsimp only
    split
    next k v r hentries =>
      split
      · exact hkeep f.start List.mem_cons_self hown
      · obtain ⟨r', hr'⟩ := Node.preorder_head k
        rw [hentries] at hkeep hsub
        have hfirst : (Node.preorderEntries ((k, v) :: r)).map Node.line =
            k.line :: (r' ++ (v.preorder ++ Node.preorderEntries r)).map Node.line := by
          rw [Node.preorderEntries, hr', List.cons_append, List.map_cons]
        rw [hfirst] at hkeep hsub
        rw [hentries]
        refine hkeep k.start (List.mem_cons_of_mem _ (hsub.subset List.mem_cons_self)) ?_
        intro l hl
        rcases List.mem_cons.mp hl with rfl | hl
        · exact Nat.le_refl _
        · exact (List.pairwise_cons.mp (htail.sublist hsub)).1 l hl
    · exact hkeep f.start List.mem_cons_self hown

end OpenNode

namespace Composition

open Yaml.EventTree (startsNode)

variable {source : Source} {c c' : Composition} {e : Yaml.Event} {n : Node}

/-- The lines on which the nodes met so far start. -/
def lines (c : Composition) : List Nat :=
  (c.root.map Node.lines).getD [] ++ c.pending.reverse.flatMap OpenNode.lines

theorem Gains.lines (h : c.Gains n c') : c'.lines.Sublist (c.lines ++ n.lines) := by
  unfold Composition.lines
  rw [h.pending, h.root]
  cases hp : c.pending with
  | nil =>
    cases hr : c.root with
    | none => simp
    | some root => simp
  | cons f r => simp [OpenNode.add_lines]

/-- Lines in order stay so when one that is not before them is put at the end. -/
theorem lines_snoc {ls : List Nat} {line : Nat} (hs : c.lines.Pairwise (· ≤ ·))
    (hb : ∀ l ∈ c.lines, l ≤ line) (hsub : ls.Sublist (c.lines ++ [line])) :
    ls.Pairwise (· ≤ ·) ∧ ∀ l ∈ ls, l ∈ c.lines ∨ l = line := by
  refine ⟨List.Pairwise.sublist hsub ?_, ?_⟩
  · refine List.pairwise_append.mpr ⟨hs, List.pairwise_singleton _ _, ?_⟩
    intro a ha b hb'
    rw [List.mem_singleton.mp hb']
    exact hb a ha
  · intro l hl
    rcases List.mem_append.mp (hsub.subset hl) with hl | hl
    · exact Or.inl hl
    · exact Or.inr (List.mem_singleton.mp hl)

theorem openNode_lines (c : Composition) (start : Mark) (flow : Bool) (anchor : Option String)
    {children : OpenChildren} (h : children = .items [] ∨ children = .entries [] none) :
    (c.openNode start flow anchor children).lines = c.lines ++ [start.line] := by
  rcases h with rfl | rfl <;> cases anchor <;>
    simp [lines, openNode, number, OpenNode.lines, OpenNode.parts, Node.preorderItems,
      Node.preorderEntries]

/-- The end of a collection puts it where it has been opened. -/
theorem close_lines (hs : c.lines.Pairwise (· ≤ ·)) {f : OpenNode} {r : List OpenNode}
    (hp : c.pending = f :: r) (stop : Mark) {anchor : Option Nat} :
    ({ c with pending := r }.attach (f.close stop) anchor).lines.Pairwise (· ≤ ·) ∧
      ∀ l ∈ ({ c with pending := r }.attach (f.close stop) anchor).lines, l ∈ c.lines := by
  have hlines : c.lines = { c with pending := r }.lines ++ f.lines := by
    simp [lines, hp]
  rw [hlines] at hs ⊢
  obtain ⟨houter, hinner, hcross⟩ := List.pairwise_append.mp hs
  obtain ⟨hclosed, hmem⟩ := f.close_lines stop hinner
  have hsub := (attach_gains { c with pending := r } (f.close stop) anchor).lines
  refine ⟨List.Pairwise.sublist hsub ?_, ?_⟩
  · exact List.pairwise_append.mpr ⟨houter, hclosed, fun a ha b hb => hcross a ha b (hmem b hb)⟩
  · intro l hl
    rcases List.mem_append.mp (hsub.subset hl) with hl | hl
    · exact List.mem_append_left _ hl
    · exact List.mem_append_right _ (hmem l hl)

/-- A step keeps the lines in order, when its node is not on an earlier line. -/
theorem step_lines (source : Source) (hs : c.lines.Pairwise (· ≤ ·))
    (hb : startsNode e = true → ∀ l ∈ c.lines, l ≤ e.mark.line) :
    (c.step source e).lines.Pairwise (· ≤ ·) ∧
      ∀ l ∈ (c.step source e).lines, l ∈ c.lines ∨ (startsNode e = true ∧ l = e.mark.line) := by
  have hnode {c' : Composition} (hstarts : startsNode e = true)
      (hsub : c'.lines.Sublist (c.lines ++ [e.mark.line])) : c'.lines.Pairwise (· ≤ ·) ∧
        ∀ l ∈ c'.lines, l ∈ c.lines ∨ (startsNode e = true ∧ l = e.mark.line) := by
    obtain ⟨hsorted, hmem⟩ := lines_snoc hs (hb hstarts) hsub
    exact ⟨hsorted, fun l hl => (hmem l hl).imp_right fun heq => ⟨hstarts, heq⟩⟩
  have hsame : c.lines.Pairwise (· ≤ ·) ∧
      ∀ l ∈ c.lines, l ∈ c.lines ∨ (startsNode e = true ∧ l = e.mark.line) :=
    ⟨hs, fun l hl => Or.inl hl⟩
  have hstarts (hsome : e.kind.opens?.isSome = true) : startsNode e = true := hsome
  unfold step
  split
  next text style anchor tag hkind =>
    refine hnode (hstarts (by rw [hkind]; rfl)) ?_
    exact (number_gains (attach_gains _ (scalarNode source e.mark text style tag) _)).lines
  next anchor tag hkind =>
    refine hnode (hstarts (by rw [hkind]; rfl)) ?_
    exact openNode_lines _ _ _ _ (Or.inl rfl) ▸ List.Sublist.refl _
  next anchor tag hkind =>
    refine hnode (hstarts (by rw [hkind]; rfl)) ?_
    exact openNode_lines _ _ _ _ (Or.inr rfl) ▸ List.Sublist.refl _
  · split
    · exact hsame
    next f r hp =>
      obtain ⟨hsorted, hmem⟩ := close_lines hs hp e.mark
      exact ⟨hsorted, fun l hl => Or.inl (hmem l hl)⟩
  · split
    · exact hsame
    next f r hp =>
      obtain ⟨hsorted, hmem⟩ := close_lines hs hp e.mark
      exact ⟨hsorted, fun l hl => Or.inl (hmem l hl)⟩
  next name hkind =>
    split
    next target _ =>
      refine hnode (hstarts (by rw [hkind]; rfl)) ?_
      exact (attach_gains c (.alias e.mark _ target) none).lines
    · exact hsame
  · exact hsame
  · exact hsame
  · exact hsame

theorem foldl_lines (source : Source) (es : List Yaml.Event) (hs : c.lines.Pairwise (· ≤ ·))
    (hes : (es.filter startsNode).Pairwise (·.mark.line ≤ ·.mark.line))
    (hb : ∀ l ∈ c.lines, ∀ e ∈ es.filter startsNode, l ≤ e.mark.line) :
    (es.foldl (step source) c).lines.Pairwise (· ≤ ·) := by
  induction es generalizing c with
  | nil => exact hs
  | cons e es ih =>
    have hhead : startsNode e = true → ∀ l ∈ c.lines, l ≤ e.mark.line := by
      intro hstarts l hl
      exact hb l hl e (by rw [List.filter_cons_of_pos hstarts]; exact List.mem_cons_self)
    have hlater : ∀ e' ∈ es.filter startsNode, e' ∈ (e :: es).filter startsNode := by
      intro e' he'
      rw [List.filter_cons]
      split
      · exact List.mem_cons_of_mem e he'
      · exact he'
    obtain ⟨hsorted, hmem⟩ := step_lines source hs hhead
    refine ih hsorted ?_ ?_
    · refine hes.sublist ?_
      rw [List.filter_cons]
      split
      · exact List.sublist_cons_self e _
      · exact List.Sublist.refl _
    · intro l hl e' he'
      rcases hmem l hl with hl | ⟨hstarts, rfl⟩
      · exact hb l hl e' (hlater e' he')
      · rw [List.filter_cons_of_pos hstarts] at hes
        exact (List.pairwise_cons.mp hes).1 e' he'

end Composition

/-- The nodes of a document come line by line. -/
theorem Node.compose_lines {source : Source} {text : List Char} {root : Node}
    (h : Node.compose source text = .ok (some root)) :
    root.walk.Pairwise (·.node.line ≤ ·.node.line) := by
  unfold compose at h
  cases hevents : Yaml.Event.ofFirstDocument .document (Yaml.Scan.ofList .document text) with
  | error e => rw [hevents] at h; cases h
  | ok events =>
    rw [hevents] at h
    have hroot : ofEvents source events = some root := Except.ok.inj h
    have hsorted := Composition.foldl_lines source events (c := .empty) .nil
      (Yaml.Event.ofFirstDocument_lines hevents) (by intro l hl; cases hl)
    have hlines : root.lines.Pairwise (· ≤ ·) := by
      refine hsorted.sublist ?_
      unfold Composition.lines
      rw [show (events.foldl (Composition.step source) .empty).root = some root from hroot]
      exact List.sublist_append_left _ _
    rw [lines, ← walk_nodes, List.pairwise_map, List.pairwise_map] at hlines
    exact hlines

end Blueprint
