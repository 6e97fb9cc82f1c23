import Blueprint.Proofs.CommentOrder
import Mathlib.Data.List.Perm.Basic

/-!
In the sequence of the elements of a document the lines come in turn, and each comment is met while
its own line is read.
-/

namespace Blueprint

section Interleaving

variable {α : Type} (le : α → α → Bool)

theorem interleaveHead_perm {x : α} {xs zs : List α} {rest : List α → List α}
    (hrest : ∀ ys, (x :: rest ys).Perm (xs ++ ys)) (ys : List α) (hz : zs = xs) :
    (interleaveHead le x zs rest ys).Perm (xs ++ ys) := by
  subst hz
  induction ys with
  | nil => simp [interleaveHead]
  | cons y ys ih =>
    rw [interleaveHead]
    split
    · exact hrest (y :: ys)
    · exact (ih.cons y).trans List.perm_middle.symm

theorem interleave_perm (xs ys : List α) : (interleave le xs ys).Perm (xs ++ ys) := by
  induction xs generalizing ys with
  | nil => exact List.Perm.refl ys
  | cons x xs ih => exact interleaveHead_perm le (fun ys => (ih ys).cons x) ys rfl

end Interleaving

theorem linesFrom_numbers (number start : Nat) (before read text : List Char) :
    (Line.linesFrom number start before read text).map (·.number) =
      List.range' number (text.count '\n' + 1) := by
  induction text generalizing number start before read with
  | nil => rfl
  | cons c r ih =>
    unfold Line.linesFrom
    by_cases hfeed : c = '\n'
    · have := ih (number + 1) (start + Line.byteCount read + 1) (c :: (read ++ before)) []
      rw [if_pos hfeed, List.map_cons, this, hfeed, List.count_cons_self, List.range'_succ]
      congr 1
      split <;> rfl
    · rw [if_neg hfeed, ih, List.count_cons_of_ne hfeed]

/-- The lines of a document are numbered in turn. -/
theorem lines_numbers (text : List Char) :
    (Line.ofList text).map (·.number) = List.range' 1 (text.count '\n' + 1) :=
  linesFrom_numbers 1 0 [] [] text

namespace Element

def comment? : Element → Option Comment
  | comment c => some c
  | _ => none

def line? : Element → Option Line
  | line l => some l
  | _ => none

/-- The comments of a document in their order. -/
def comments (es : List Element) : List Comment :=
  es.filterMap comment?

theorem mem_comments {es : List Element} {c : Comment} : c ∈ comments es ↔ comment c ∈ es := by
  unfold comments
  rw [List.mem_filterMap]
  constructor
  · rintro ⟨e, he, hc⟩
    cases e <;> simp_all [comment?]
  · exact fun h => ⟨comment c, h, rfl⟩

/-- After `n` lines every line has the next number and every comment is on the line being read. -/
inductive Timely : Nat → List Element → Prop
  | nil {n : Nat} : Timely n []
  | token {n : Nat} {t : TokenView} {es : List Element} : Timely n es → Timely n (token t :: es)
  | node {n : Nat} {v : NodeVisit} {es : List Element} : Timely n es → Timely n (node v :: es)
  | comment {n : Nat} {c : Comment} {es : List Element} :
    c.line = n + 1 → Timely n es → Timely n (comment c :: es)
  | line {n : Nat} {l : Line} {es : List Element} :
    l.number = n + 1 → Timely (n + 1) es → Timely n (line l :: es)

theorem mem_ofLexemes_comment {text : List Char} {prev : Option Lexeme}
    {path : List (Container × Mark)} {ls : List Lexeme} (hp : ∀ l ∈ ls, l.Placed text)
    {c : Comment} (hc : comment c ∈ ofLexemes (Source.ofList text) prev path ls) :
    c.line = lineAt text c.index ∧ text[c.index]? = some '#' := by
  induction ls generalizing prev path with
  | nil => cases hc
  | cons l r ih =>
    rw [ofLexemes, List.cons_append, List.mem_cons, List.mem_append] at hc
    rcases hc with hc | hc | hc
    · cases hc
    · obtain ⟨d, hd, heq⟩ := List.mem_map.mp hc
      cases heq
      obtain ⟨hline, hhash, _⟩ := Comment.mem_between (hp l List.mem_cons_self) hd
      exact ⟨hline, hhash⟩
    · exact ih (fun l' hl' => hp l' (List.mem_cons_of_mem l hl')) hc

theorem ofLexemes_line? {source : Source} {prev : Option Lexeme}
    {path : List (Container × Mark)} {ls : List Lexeme} {e : Element}
    (he : e ∈ ofLexemes source prev path ls) : e.line? = none := by
  induction ls generalizing prev path with
  | nil => cases he
  | cons l r ih =>
    rw [ofLexemes, List.cons_append, List.mem_cons, List.mem_append] at he
    rcases he with rfl | he | he
    · rfl
    · obtain ⟨c, _, rfl⟩ := List.mem_map.mp he
      rfl
    · exact ih he

/-- Tokens and comments come line by line, unless a NUL hides the line of a comment. -/
theorem ofLexemes_sorted {text : List Char} {prev : Option Lexeme}
    {path : List (Container × Mark)} {ls : List Lexeme} (hp : ∀ l ∈ ls, l.Placed text)
    (hs : ls.Pairwise (·.start.line ≤ ·.start.line))
    (hn : ∀ c, comment c ∈ ofLexemes (Source.ofList text) prev path ls →
      ¬c.FollowsNul (Source.ofList text)) :
    (ofLexemes (Source.ofList text) prev path ls).Pairwise (·.lineNumber ≤ ·.lineNumber) ∧
      ∀ l ∈ ls.head?, ∀ e ∈ ofLexemes (Source.ofList text) prev path ls,
        l.start.line ≤ e.lineNumber := by
  induction ls generalizing prev path with
  | nil => exact ⟨.nil, (by intro l hl; cases hl)⟩
  | cons l r ih =>
    obtain ⟨hl, hs⟩ := List.pairwise_cons.mp hs
    have hplaced := hp l List.mem_cons_self
    rw [ofLexemes] at hn ⊢
    obtain ⟨hrest, hhead⟩ := ih (fun l' hl' => hp l' (List.mem_cons_of_mem l hl')) hs
      (fun c hc => hn c (List.mem_append_right _ hc))
    have hnext : ∀ e ∈ ofLexemes (Source.ofList text) (some l) (pathAfter path l) r,
        ∃ l' ∈ r.head?, l'.start.line ≤ e.lineNumber := by
      intro e he
      cases r with
      | nil => cases he
      | cons l' r => exact ⟨l', rfl, hhead l' rfl e he⟩
    have hbetween : ∀ c ∈ Comment.between (Source.ofList text) l r.head?,
        l.start.line ≤ c.line ∧ ∀ l' ∈ r.head?, c.line ≤ l'.start.line := by
      intro c hc
      obtain ⟨hline, hchar, hle, _, hlimit⟩ := Comment.mem_between hplaced hc
      have hnul : ¬c.FollowsNul (Source.ofList text) := by
        apply hn
        rw [List.cons_append]
        exact List.mem_cons_of_mem _ (List.mem_append_left _ (List.mem_map_of_mem hc))
      refine ⟨Comment.line_le_of_standsIn hplaced.start hline hchar hle hnul, ?_⟩
      intro l' hl'
      have hstands := (hp l' (List.mem_cons_of_mem l (List.mem_of_mem_head? hl'))).start
      exact Comment.line_le_start hstands hline (Nat.le_of_lt (hlimit l' hl'))
    have hge : ∀ e ∈ (Comment.between (Source.ofList text) l r.head?).map comment ++
        ofLexemes (Source.ofList text) (some l) (pathAfter path l) r,
        l.start.line ≤ e.lineNumber := by
      intro e he
      rcases List.mem_append.mp he with he | he
      · obtain ⟨c, hc, rfl⟩ := List.mem_map.mp he
        exact (hbetween c hc).1
      · obtain ⟨l', hl', hle⟩ := hnext e he
        exact (hl l' (List.mem_of_mem_head? hl')).trans hle
    refine ⟨List.pairwise_cons.mpr ⟨hge, ?_⟩, ?_⟩
    · refine List.pairwise_append.mpr ⟨?_, hrest, ?_⟩
      · rw [List.pairwise_map]
        exact (Comment.between_lines _ _ _).imp fun h => Nat.le_of_lt h
      · intro a ha e he
        obtain ⟨c, hc, rfl⟩ := List.mem_map.mp ha
        obtain ⟨l', hl', hle⟩ := hnext e he
        exact ((hbetween c hc).2 l' hl').trans hle
    · intro l' hl' e he
      cases Option.some.inj hl'
      rcases List.mem_cons.mp he with rfl | he
      · exact le_rfl
      · exact hge e he

/-- No element comes before a comment of an earlier line. -/
def CommentsInTurn (es : List Element) : Prop :=
  es.Pairwise fun e f => ∀ c ∈ f.comment?, e.lineNumber ≤ c.line

theorem commentsInTurn_of_sorted {es : List Element}
    (h : es.Pairwise (·.lineNumber ≤ ·.lineNumber)) : CommentsInTurn es := by
  refine h.imp ?_
  intro e f hle c hc
  cases f <;> cases hc
  exact hle

/-- Nodes do not disturb the order of the comments. -/
theorem commentsInTurn_interleave {xs ys : List Element} (hx : CommentsInTurn xs)
    (hy : ∀ e ∈ ys, e.comment? = none) : CommentsInTurn (interleave notAfter xs ys) := by
  induction xs generalizing ys with
  | nil =>
    refine List.pairwise_of_forall_mem_list ?_
    intro e _ f hf c hc
    rw [hy f hf] at hc
    cases hc
  | cons x xs ih =>
    obtain ⟨hhead, htail⟩ := List.pairwise_cons.mp hx
    rw [interleave]
    induction ys with
    | nil => exact hx
    | cons y ys ihy =>
      rw [interleaveHead]
      split
      · refine List.pairwise_cons.mpr ⟨?_, ih htail hy⟩
        intro f hf c hc
        rcases List.mem_append.mp ((interleave_perm notAfter xs (y :: ys)).mem_iff.mp hf) with h | h
        · exact hhead f h c hc
        · rw [hy f h] at hc
          cases hc
      next hafter =>
        refine List.pairwise_cons.mpr ⟨?_, ihy fun e he => hy e (List.mem_cons_of_mem y he)⟩
        have hlt : y.lineNumber ≤ x.lineNumber := by
          simp only [notAfter, Bool.or_eq_true, decide_eq_true_eq, Bool.and_eq_true, beq_iff_eq,
            not_or] at hafter
          omega
        intro f hf c hc
        have hperm := interleave_perm notAfter (x :: xs) ys
        rcases List.mem_append.mp (hperm.mem_iff.mp hf) with h | h
        · rcases List.mem_cons.mp h with rfl | h
          · cases f <;> cases hc
            exact hlt
          · exact hlt.trans (hhead f h c hc)
        · rw [hy f (List.mem_cons_of_mem y h)] at hc
          cases hc

theorem timely_of_plain {n : Nat} {es : List Element} (hc : ∀ e ∈ es, e.comment? = none)
    (hl : ∀ e ∈ es, e.line? = none) : Timely n es := by
  induction es with
  | nil => exact .nil
  | cons e es ih =>
    have hrest := ih (fun f hf => hc f (List.mem_cons_of_mem e hf))
      (fun f hf => hl f (List.mem_cons_of_mem e hf))
    cases e with
    | token t => exact .token hrest
    | node v => exact .node hrest
    | comment c => cases hc (.comment c) List.mem_cons_self
    | line l => cases hl (.line l) List.mem_cons_self

theorem timely_lines {n k : Nat} {ls : List Line} (h : ls.map (·.number) = List.range' (n + 1) k) :
    Timely n (ls.map line) := by
  induction ls generalizing n k with
  | nil => exact .nil
  | cons l ls ih =>
    cases k with
    | zero => cases h
    | succ k =>
      rw [List.map_cons, List.range'_succ] at h
      obtain ⟨hl, hrest⟩ := List.cons.inj h
      exact .line hl (ih hrest)

/-- A line that is put between the other elements ends when all its comments have been met. -/
theorem timely_interleave {xs : List Element} {ls : List Line} {n k : Nat}
    (hx : CommentsInTurn xs) (hline : ∀ e ∈ xs, e.line? = none)
    (hc : ∀ e ∈ xs, ∀ c ∈ e.comment?, n < c.line ∧ c.line ≤ n + k)
    (hl : ls.map (·.number) = List.range' (n + 1) k) :
    Timely n (interleave notAfter xs (ls.map line)) := by
  induction xs generalizing ls n k with
  | nil => exact timely_lines hl
  | cons x xs ih =>
    obtain ⟨hhead, htail⟩ := List.pairwise_cons.mp hx
    rw [interleave]
    induction ls generalizing n k with
    | nil =>
      have hk : k = 0 := by simpa using congrArg List.length hl.symm
      refine timely_of_plain ?_ hline
      intro e he
      cases hopt : e.comment? with
      | none => rfl
      | some c =>
        have := hc e he c hopt
        omega
    | cons l ls ihl =>
      cases k with
      | zero => cases hl
      | succ k =>
        have hnumbers := hl
        rw [List.map_cons, List.range'_succ] at hl
        obtain ⟨hnumber, hrest⟩ := List.cons.inj hl
        rw [List.map_cons, interleaveHead]
        split
        next hbefore =>
          have hrec := ih htail (fun e he => hline e (List.mem_cons_of_mem x he))
            (fun e he => hc e (List.mem_cons_of_mem x he)) hnumbers
          cases x with
          | token t => exact .token hrec
          | node v => exact .node hrec
          | line l' => cases hline (.line l') List.mem_cons_self
          | comment c =>
            refine .comment ?_ hrec
            have hgt := (hc (.comment c) List.mem_cons_self c rfl).1
            simp only [notAfter, lineNumber, hnumber, Bool.or_eq_true, decide_eq_true_eq,
              Bool.and_eq_true, beq_iff_eq] at hbefore
            omega
        next hafter =>
          refine .line hnumber (ihl ?_ hrest)
          have hlt : n + 1 < x.lineNumber := by
            have hrank : x.rank ≤ 2 := by cases x <;> simp [rank]
            have hlast : (line l).rank = 2 := rfl
            have hl : (line l).lineNumber = n + 1 := hnumber
            simp only [notAfter, Bool.or_eq_true, decide_eq_true_eq, Bool.and_eq_true, beq_iff_eq,
              not_or, hl, hlast] at hafter
            omega
          intro e he c hce
          obtain ⟨_, hle⟩ := hc e he c hce
          refine ⟨?_, by omega⟩
          rcases List.mem_cons.mp he with rfl | he
          · cases e <;> cases hce
            exact hlt
          · have := hhead e he c hce
            omega

/-- Each comment of a document is met on its own line, unless a NUL stands before it there. -/
theorem ofText_timely {text : List Char} {root : Option Node}
    (hn : ∀ c ∈ comments (ofText (Source.ofList text) text root),
      ¬c.FollowsNul (Source.ofList text)) :
    Timely 0 (ofText (Source.ofList text) text root) := by
  obtain ⟨hplaced, hsorted⟩ := Lexeme.ofText_order text
  have hnodes : ∀ e ∈ ((root.map Node.walk).getD []).map node,
      e.comment? = none ∧ e.line? = none := by
    intro e he
    obtain ⟨v, _, rfl⟩ := List.mem_map.mp he
    exact ⟨rfl, rfl⟩
  have hcontent (e : Element) (he : e ∈ interleave notAfter
      (ofLexemes (Source.ofList text) none [] (Lexeme.ofText (Source.ofList text) text))
      (((root.map Node.walk).getD []).map node)) :
      e ∈ ofLexemes (Source.ofList text) none [] (Lexeme.ofText (Source.ofList text) text) ∨
        e ∈ ((root.map Node.walk).getD []).map node :=
    List.mem_append.mp ((interleave_perm notAfter _ _).mem_iff.mp he)
  have hnul : ∀ c, comment c ∈
      ofLexemes (Source.ofList text) none [] (Lexeme.ofText (Source.ofList text) text) →
      ¬c.FollowsNul (Source.ofList text) := by
    intro c hc
    apply hn
    rw [mem_comments, ofText_eq]
    apply (interleave_perm notAfter _ _).mem_iff.mpr
    apply List.mem_append_left
    apply (interleave_perm notAfter _ _).mem_iff.mpr
    exact List.mem_append_left _ hc
  have hturn := commentsInTurn_interleave
    (commentsInTurn_of_sorted (ofLexemes_sorted hplaced hsorted hnul).1)
    (fun e he => (hnodes e he).1)
  rw [ofText_eq]
  refine timely_interleave hturn ?_ ?_ (lines_numbers text)
  · intro e he
    rcases hcontent e he with he | he
    · exact ofLexemes_line? he
    · exact (hnodes e he).2
  · intro e he c hc
    have hmem : e = comment c := by cases e <;> cases hc; rfl
    subst hmem
    rcases hcontent (comment c) he with he | he
    · have hline := (mem_ofLexemes_comment hplaced he).1
      have hcount : (text.take c.index).count '\n' ≤ text.count '\n' :=
        (List.take_sublist _ _).count_le '\n'
      unfold lineAt at hline
      omega
    · cases (hnodes _ he).1

end Element

end Blueprint
