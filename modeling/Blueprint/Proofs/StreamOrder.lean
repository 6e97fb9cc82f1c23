import Blueprint.Proofs.DirectiveHistory
import Blueprint.Proofs.NodeOrder
import Blueprint.Proofs.RunAccount

/-!
The elements of a document are its tokens with the comments between them, its nodes and its lines,
put together: each of the three sequences keeps its order, and the whole goes line by line.
-/

namespace Blueprint

section Merging

variable {α β : Type} {le : α → α → Bool}

theorem interleaveHead_filterMap_left {f : α → Option β} {x : α} {xs zs : List α}
    {rest : List α → List α}
    (hrest : ∀ ys, (∀ y ∈ ys, f y = none) → (x :: rest ys).filterMap f = xs.filterMap f)
    (hz : zs = xs) {ys : List α} (hy : ∀ y ∈ ys, f y = none) :
    (interleaveHead le x zs rest ys).filterMap f = xs.filterMap f := by
  subst hz
  induction ys with
  | nil => rfl
  | cons y ys ih =>
    rw [interleaveHead]
    split
    · exact hrest (y :: ys) hy
    · rw [List.filterMap_cons_none (hy y List.mem_cons_self)]
      exact ih fun z hz => hy z (List.mem_cons_of_mem y hz)

theorem interleave_filterMap_left {f : α → Option β} (xs : List α) {ys : List α}
    (hy : ∀ y ∈ ys, f y = none) : (interleave le xs ys).filterMap f = xs.filterMap f := by
  induction xs generalizing ys with
  | nil => exact List.filterMap_eq_nil_iff.mpr hy
  | cons x xs ih =>
    refine interleaveHead_filterMap_left ?_ rfl hy
    intro zs hz
    rw [List.filterMap_cons, ih hz, List.filterMap_cons]

theorem interleaveHead_sorted (htotal : ∀ a b, le a b ∨ le b a)
    (htrans : ∀ a b c, le a b → le b c → le a c) {x : α} {xs zs : List α}
    {rest : List α → List α} (hperm : ∀ ys, (rest ys).Perm (xs ++ ys))
    (hrest : ∀ ys, ys.Pairwise (le · ·) → (rest ys).Pairwise (le · ·))
    (hx : (x :: xs).Pairwise (le · ·)) (hz : zs = x :: xs) {ys : List α}
    (hy : ys.Pairwise (le · ·)) : (interleaveHead le x zs rest ys).Pairwise (le · ·) := by
  subst hz
  induction ys with
  | nil => exact hx
  | cons y ys ih =>
    have hlater := List.pairwise_cons.mp hx
    have hafter := List.pairwise_cons.mp hy
    rw [interleaveHead]
    split
    next hle =>
      refine List.pairwise_cons.mpr ⟨?_, hrest (y :: ys) hy⟩
      intro z hz
      rcases List.mem_append.mp ((hperm (y :: ys)).mem_iff.mp hz) with hz | hz
      · exact hlater.1 z hz
      · rcases List.mem_cons.mp hz with rfl | hz
        · exact hle
        · exact htrans x y z hle (hafter.1 z hz)
    next hlt =>
      have hle : le y x = true := (htotal x y).resolve_left hlt
      refine List.pairwise_cons.mpr ⟨?_, ih hafter.2⟩
      intro z hz
      have hmerged : (interleaveHead le x (x :: xs) rest ys).Perm (x :: xs ++ ys) :=
        interleaveHead_perm le (fun ys => (hperm ys).cons x) ys rfl
      rcases List.mem_append.mp (hmerged.mem_iff.mp hz) with hz | hz
      · rcases List.mem_cons.mp hz with rfl | hz
        · exact hle
        · exact htrans y x z hle (hlater.1 z hz)
      · exact hafter.1 z hz

/-- Two sequences that are in order are so when they are put together. -/
theorem interleave_sorted (htotal : ∀ a b, le a b ∨ le b a)
    (htrans : ∀ a b c, le a b → le b c → le a c) {xs ys : List α}
    (hx : xs.Pairwise (le · ·)) (hy : ys.Pairwise (le · ·)) :
    (interleave le xs ys).Pairwise (le · ·) := by
  induction xs generalizing ys with
  | nil => exact hy
  | cons x xs ih =>
    refine interleaveHead_sorted htotal htrans (interleave_perm le xs) ?_ hx rfl hy
    exact fun zs hz => ih hx.of_cons hz

end Merging

namespace Element

theorem notAfter_iff {a b : Element} : notAfter a b = true ↔
    a.lineNumber < b.lineNumber ∨ (a.lineNumber = b.lineNumber ∧ a.rank ≤ b.rank) := by
  simp [notAfter]

theorem notAfter_total (a b : Element) : notAfter a b ∨ notAfter b a := by
  rw [notAfter_iff, notAfter_iff]
  omega

theorem notAfter_trans (a b c : Element) (hab : notAfter a b) (hbc : notAfter b c) :
    notAfter a c := by
  rw [notAfter_iff] at hab hbc ⊢
  omega

/-- Elements of one sequence are in order when their lines are. -/
theorem sorted_of_lines {es : List Element} {rank : Nat} (hrank : ∀ e ∈ es, e.rank = rank)
    (h : es.Pairwise (·.lineNumber ≤ ·.lineNumber)) : es.Pairwise (notAfter · ·) := by
  refine h.imp_of_mem ?_
  intro a b ha hb hle
  rw [notAfter_iff, hrank a ha, hrank b hb]
  omega

/-- A token or a comment. -/
def lexical? : Element → Option Element
  | token t => some (token t)
  | comment c => some (comment c)
  | _ => none

def node? : Element → Option NodeVisit
  | node v => some v
  | _ => none

/-- The tokens of a text, each followed by the comments between it and the next one. -/
def lexical (text : String) : List Element :=
  ofLexemes (Source.ofText text) none [] (Lexeme.ofText (Source.ofText text) text.toList)

/-- The nodes of the tree of a text, a node before those inside it. -/
def visits (text : String) : List NodeVisit :=
  ((textRoot? text).map Node.walk).getD []

theorem ofDocument_eq (text : String) : ofDocument text =
    interleave notAfter (interleave notAfter (lexical text) ((visits text).map node))
      ((Line.ofList text.toList).map line) :=
  ofText_eq (Source.ofText text) text.toList (textRoot? text)

theorem ofLexemes_lexical? {source : Source} {prev : Option Lexeme}
    {path : List (Container × Mark)} {ls : List Lexeme} {e : Element}
    (he : e ∈ ofLexemes source prev path ls) : e.lexical? = some e ∧ e.rank = 0 := by
  induction ls generalizing prev path with
  | nil => cases he
  | cons l r ih =>
    rw [ofLexemes, List.cons_append, List.mem_cons, List.mem_append] at he
    rcases he with rfl | he | he
    · exact ⟨rfl, rfl⟩
    · obtain ⟨c, _, rfl⟩ := List.mem_map.mp he
      exact ⟨rfl, rfl⟩
    · exact ih he

theorem filterMap_lexical? {es : List Element} (h : ∀ e ∈ es, e.lexical? = some e) :
    es.filterMap lexical? = es := by
  rw [List.filterMap_congr h, List.filterMap_some]

theorem ofDocument_lexical (text : String) :
    (ofDocument text).filterMap lexical? = lexical text := by
  rw [ofDocument_eq, interleave_filterMap_left, interleave_filterMap_left]
  · exact filterMap_lexical? fun e he => (ofLexemes_lexical? he).1
  · intro e he
    obtain ⟨v, _, rfl⟩ := List.mem_map.mp he
    rfl
  · intro e he
    obtain ⟨l, _, rfl⟩ := List.mem_map.mp he
    rfl

theorem comments_ofDocument (text : String) :
    comments (ofDocument text) = comments (lexical text) := by
  unfold comments
  rw [← ofDocument_lexical, List.filterMap_filterMap]
  refine List.filterMap_congr fun e _ => ?_
  cases e <;> rfl

theorem mem_comments_ofDocument {text : String} {c : Comment} :
    c ∈ comments (ofDocument text) ↔ comment c ∈ lexical text := by
  rw [comments_ofDocument, mem_comments]

theorem ofDocument_nodes (text : String) : (ofDocument text).filterMap node? = visits text := by
  rw [ofDocument_eq, interleave_filterMap_left, interleave_filterMap, List.filterMap_map]
  · exact List.filterMap_some
  · intro e he
    cases e with
    | node v => cases (ofLexemes_lexical? he).1
    | token t => rfl
    | comment c => rfl
    | line l => rfl
  · intro e he
    obtain ⟨l, _, rfl⟩ := List.mem_map.mp he
    rfl

theorem lexical_sorted {text : String}
    (hn : ∀ c ∈ comments (ofDocument text), ¬c.FollowsNul (Source.ofText text)) :
    (lexical text).Pairwise (notAfter · ·) := by
  obtain ⟨hplaced, hsorted⟩ := Lexeme.ofText_order text.toList
  refine sorted_of_lines (fun e he => (ofLexemes_lexical? he).2) ?_
  refine (ofLexemes_sorted hplaced hsorted ?_).1
  exact fun c hc => hn c (mem_comments_ofDocument.mpr hc)

theorem visits_sorted (text : String) :
    ((visits text).map node).Pairwise (notAfter · ·) := by
  have hrank : ∀ e ∈ (visits text).map node, e.rank = 1 := by
    intro e he
    obtain ⟨v, _, rfl⟩ := List.mem_map.mp he
    rfl
  refine sorted_of_lines hrank ?_
  rw [List.pairwise_map]
  unfold visits textRoot?
  cases hroot : Node.compose (Source.ofText text) text.toList with
  | error e => exact .nil
  | ok root =>
    cases root with
    | none => exact .nil
    | some root => exact Node.compose_lines hroot

theorem lines_sorted (text : List Char) :
    ((Line.ofList text).map line).Pairwise (notAfter · ·) := by
  have hrank : ∀ e ∈ (Line.ofList text).map line, e.rank = 2 := by
    intro e he
    obtain ⟨l, _, rfl⟩ := List.mem_map.mp he
    rfl
  refine sorted_of_lines hrank ?_
  have hnumbers : ((Line.ofList text).map (·.number)).Pairwise (· ≤ ·) := by
    rw [lines_numbers]
    exact List.pairwise_le_range'
  rw [List.pairwise_map] at hnumbers ⊢
  exact hnumbers

/-- The elements of a document are its tokens and comments, its nodes and its lines, each of them
once and in the order of its sequence. They go line by line, and on a line the tokens and comments
come before the nodes and the line itself comes last, unless a NUL stands before a comment on its
line. -/
theorem ofDocument_merges (text : String) :
    (ofDocument text).filterMap lexical? = lexical text ∧
      (ofDocument text).filterMap node? = visits text ∧
      (ofDocument text).filterMap line? = Line.ofList text.toList ∧
      ((∀ c ∈ comments (ofDocument text), ¬c.FollowsNul (Source.ofText text)) →
        (ofDocument text).Pairwise (notAfter · ·)) := by
  refine ⟨ofDocument_lexical text, ofDocument_nodes text, ofText_lines _ _ _, ?_⟩
  intro hn
  rw [ofDocument_eq]
  have hinner := interleave_sorted notAfter_total notAfter_trans (lexical_sorted hn)
    (visits_sorted text)
  exact interleave_sorted notAfter_total notAfter_trans hinner (lines_sorted text.toList)

theorem ofDocument_merges_comments :
    (∀ c ∈ comments (ofDocument "# a\nb: [c,\n d] # e\n"),
      ¬c.FollowsNul (Source.ofText "# a\nb: [c,\n d] # e\n")) ∧
    (ofDocument "# a\nb: [c,\n d] # e\n").Pairwise (notAfter · ·) := by
  have hn : ∀ c ∈ comments (ofDocument "# a\nb: [c,\n d] # e\n"),
      ¬c.FollowsNul (Source.ofText "# a\nb: [c,\n d] # e\n") := by decide +kernel
  exact ⟨hn, (ofDocument_merges "# a\nb: [c,\n d] # e\n").2.2.2 hn⟩

/-- A NUL ends the tokens on the next line, and the comment behind it comes after its own line. -/
theorem ofDocument_unsorted_behind_nul :
    ¬(ofDocument "a: 1\x00 # c\n").Pairwise (notAfter · ·) := by
  decide +kernel

end Element

end Blueprint
