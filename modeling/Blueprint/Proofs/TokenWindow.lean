import Mathlib.Data.List.Infix
import Blueprint.Document.Element

/-!
The window through which the tokens of a document are read. What it shows of a token and of those
around it is settled: each token is handed out later, or has been handed out, with the same range.
-/

namespace Blueprint

namespace Lexeme

/-- Places the tokens that follow `last`. -/
def placeFrom (source : Source) (last : Lexeme) : List Yaml.Token → List Lexeme
  | [] => [last.finish source source.size]
  | t :: r =>
    let last := (last.anchored t).finish source t.mark.index
    last :: placeFrom source (begin source t last.stop.index) r

def placeAll (source : Source) : List Yaml.Token → List Lexeme
  | [] => []
  | t :: r => placeFrom source ⟨t.kind, t.mark, t.mark⟩ r

/-- The tokens of a document, up to a fault. -/
def ofText (source : Source) (text : List Char) : List Lexeme :=
  placeAll source ((Yaml.Scan.ofList .document text).tokens.map (·.token))

variable {source : Source}

theorem anchored_kind (l : Lexeme) (t : Yaml.Token) : (l.anchored t).kind = l.kind := by
  unfold anchored
  split <;> rfl

theorem atIndicator_kind {after : Nat} (l : Lexeme) :
    (l.atIndicator source after).kind = l.kind := by
  unfold atIndicator
  dsimp only
  split <;> rfl

theorem begin_kind {t : Yaml.Token} {after : Nat} : (begin source t after).kind = t.kind := by
  unfold begin
  dsimp only
  split
  · exact atIndicator_kind _
  · exact atIndicator_kind _
  · rfl

theorem placeFrom_kinds (last : Lexeme) (ts : List Yaml.Token) :
    (placeFrom source last ts).map (·.kind) = last.kind :: ts.map (·.kind) := by
  induction ts generalizing last with
  | nil => rfl
  | cons t r ih =>
    rw [placeFrom, List.map_cons, ih, begin_kind]
    exact congrArg (· :: _) (anchored_kind last t)

theorem placeAll_kinds (source : Source) (ts : List Yaml.Token) :
    (placeAll source ts).map (·.kind) = ts.map (·.kind) := by
  cases ts with
  | nil => rfl
  | cons t r => exact placeFrom_kinds _ r

theorem placeAll_length (source : Source) (ts : List Yaml.Token) :
    (placeAll source ts).length = ts.length := by
  rw [← List.length_map (·.kind), placeAll_kinds, List.length_map]

end Lexeme

namespace Element

/-- Tokens, each followed by the comments between it and the next one. -/
def ofLexemes (source : Source) (prev : Option Lexeme) (path : List (Container × Mark)) :
    List Lexeme → List Element
  | [] => []
  | l :: r =>
    token ⟨l, prev, r.head?, r[1]?, path⟩
      :: (Comment.between source l r.head?).map comment
      ++ ofLexemes source (some l) (pathAfter path l) r

end Element

namespace TokenStream

variable {source : Source} {s : TokenStream} {window : List Lexeme}

/-! What is still to be handed out. -/

/-- The tokens of a window, which is not full yet, and those that follow it. -/
def remaining (source : Source) (window : List Lexeme) (ts : List Yaml.Token) : List Lexeme :=
  match window.getLast? with
  | none => Lexeme.placeAll source ts
  | some last => window.dropLast ++ Lexeme.placeFrom source last ts

theorem remaining_cons (l last : Lexeme) (r : List Lexeme) (ts : List Yaml.Token) :
    remaining source (l :: last :: r) ts = l :: remaining source (last :: r) ts := by
  rw [remaining, remaining, List.getLast?_cons_cons, List.dropLast_cons_cons]
  cases h : (last :: r).getLast? with
  | none => exact absurd (List.getLast?_eq_none_iff.mp h) (List.cons_ne_nil last r)
  | some _ => rfl

theorem remaining_enter (window : List Lexeme) (t : Yaml.Token) (ts : List Yaml.Token) :
    remaining source (enter source window t) ts = remaining source window (t :: ts) := by
  rw [enter, remaining, remaining]
  cases window.getLast? with
  | none => rfl
  | some last =>
    dsimp only
    rw [List.append_cons, List.getLast?_concat, List.dropLast_concat]
    exact List.append_cons .. |>.symm

theorem remaining_nil (window : List Lexeme) : remaining source window [] = close source window := by
  rw [remaining, close]
  cases window.getLast? <;> rfl

/-- The tokens that a stream has still to hand out. -/
def rest (source : Source) (s : TokenStream) : List Lexeme :=
  if s.ended then s.window else remaining source s.window s.coming

/-- Reading ahead changes nothing of what is handed out, and stops with a full window only as long as
tokens may come. -/
structure Filled (source : Source) (s filled : TokenStream) : Prop where
  prev : filled.prev = s.prev
  path : filled.path = s.path
  rest : filled.rest source = s.rest source
  full : filled.ended = false → windowSize ≤ filled.window.length

theorem fillFrom_filled (h : s.ended = false) (window : List Lexeme) (ts : List Yaml.Token) :
    Filled source { s with window, coming := ts } (fillFrom source s window ts) := by
  have hrest (window : List Lexeme) (ts : List Yaml.Token) :
      rest source { s with window, coming := ts } = remaining source window ts := if_neg (by simp [h])
  induction ts generalizing window with
  | nil =>
    unfold fillFrom
    split
    · refine ⟨rfl, rfl, ?_, nofun⟩
      rw [hrest, remaining_nil]
      rfl
    next hfull => exact ⟨rfl, rfl, rfl, fun _ => Nat.le_of_not_lt hfull⟩
  | cons t r ih =>
    unfold fillFrom
    split
    · have hlater := ih (enter source window t)
      refine ⟨hlater.prev, hlater.path, ?_, hlater.full⟩
      rw [hlater.rest, hrest, hrest, remaining_enter]
    next hfull => exact ⟨rfl, rfl, rfl, fun _ => Nat.le_of_not_lt hfull⟩

theorem fill_filled (source : Source) (s : TokenStream) : Filled source s (s.fill source) := by
  unfold fill
  split
  next h => exact ⟨rfl, rfl, rfl, fun h' => absurd h (by simp [h'])⟩
  next h => exact fillFrom_filled (Bool.not_eq_true _ ▸ h) s.window s.coming

/-- A step hands out the first of the tokens that are left, with the two that follow it. -/
theorem next?_of_rest_cons {l : Lexeme} {r : List Lexeme} (h : s.rest source = l :: r) :
    ∃ s', s.next? source = some (⟨l, s.prev, r.head?, r[1]?, s.path⟩, s') ∧
      s'.rest source = r ∧ s'.prev = some l ∧ s'.path = Element.pathAfter s.path l := by
  obtain ⟨hprev, hpath, hrest, hfull⟩ := fill_filled source s
  rw [h] at hrest
  unfold next?
  dsimp only
  generalize s.fill source = filled at *
  obtain ⟨coming, ended, window, prev, path⟩ := filled
  subst hprev hpath
  cases ended with
  | true =>
    obtain rfl : window = l :: r := hrest
    exact ⟨_, rfl, rfl, rfl, rfl⟩
  | false =>
    match window, hfull rfl with
    | a :: b :: c :: d :: more, _ =>
      have hremaining : remaining source (a :: b :: c :: d :: more) coming = l :: r := hrest
      rw [remaining_cons] at hremaining
      obtain ⟨rfl, hr⟩ := List.cons.inj hremaining
      have hshown : r = b :: c :: remaining source (d :: more) coming := by
        rw [← hr, remaining_cons, remaining_cons]
      subst hshown
      exact ⟨_, rfl, hr, rfl, rfl⟩

theorem next?_of_rest_nil (h : s.rest source = []) : s.next? source = none := by
  obtain ⟨-, -, hrest, hfull⟩ := fill_filled source s
  rw [h] at hrest
  unfold next?
  dsimp only
  generalize s.fill source = filled at *
  obtain ⟨coming, ended, window, prev, path⟩ := filled
  cases ended with
  | true =>
    obtain rfl : window = [] := hrest
    rfl
  | false =>
    match window, hfull rfl with
    | a :: b :: more, _ =>
      have hremaining : remaining source (a :: b :: more) coming = [] := hrest
      rw [remaining_cons] at hremaining
      cases hremaining

/-! What is handed out. -/

/-- Tokens with the two that follow each of them, the one before it, and the collections it is in. -/
def viewsFrom (prev : Option Lexeme) (path : List (Container × Mark)) : List Lexeme → List TokenView
  | [] => []
  | l :: r => ⟨l, prev, r.head?, r[1]?, path⟩ :: viewsFrom (some l) (Element.pathAfter path l) r

theorem yields_rest (source : Source) (s : TokenStream) :
    Yields (next? source) s (viewsFrom s.prev s.path (s.rest source)) := by
  induction hrest : s.rest source generalizing s with
  | nil => exact .done (next?_of_rest_nil hrest)
  | cons l r ih =>
    obtain ⟨s', hnext, hlater, hprev, hpath⟩ := next?_of_rest_cons hrest
    refine .step hnext ?_
    rw [← hprev, ← hpath]
    exact ih s' hlater

theorem viewsFrom_curr (prev : Option Lexeme) (path : List (Container × Mark)) (ls : List Lexeme) :
    (viewsFrom prev path ls).map (·.curr) = ls := by
  induction ls generalizing prev path with
  | nil => rfl
  | cons l r ih => rw [viewsFrom, List.map_cons, ih]

theorem yields_placeAll (source : Source) (ts : List Yaml.Token) :
    Yields (next? source) (ofTokens ts) (viewsFrom none [] (Lexeme.placeAll source ts)) :=
  yields_rest source (ofTokens ts)

theorem views_eq (source : Source) (ts : List Yaml.Token) :
    views source ts = viewsFrom none [] (Lexeme.placeAll source ts) := by
  refine (yields_placeAll source ts).drain_eq ?_
  rw [← List.length_map (·.curr), viewsFrom_curr, Lexeme.placeAll_length]

/-- The view of a token shows the tokens around it in the list of all tokens. -/
theorem viewsFrom_getElem? (prev : Option Lexeme) (path : List (Container × Mark))
    (ls : List Lexeme) (k : Nat) :
    (viewsFrom prev path ls)[k]? = ls[k]?.map fun l =>
      ⟨l, if k = 0 then prev else ls[k - 1]?, ls[k + 1]?, ls[k + 2]?,
        (ls.take k).foldl Element.pathAfter path⟩ := by
  induction ls generalizing prev path k with
  | nil => rfl
  | cons l r ih =>
    cases k with
    | zero =>
      rw [viewsFrom, List.getElem?_cons_zero, List.getElem?_cons_zero, List.head?_eq_getElem?]
      rfl
    | succ k =>
      rw [viewsFrom, List.getElem?_cons_succ, List.getElem?_cons_succ, ih]
      cases k <;> rfl

end TokenStream

namespace Element

theorem ofView_viewsFrom (source : Source) (prev : Option Lexeme) (path : List (Container × Mark))
    (ls : List Lexeme) :
    (TokenStream.viewsFrom prev path ls).flatMap (ofView source) = ofLexemes source prev path ls := by
  induction ls generalizing prev path with
  | nil => rfl
  | cons l r ih =>
    rw [TokenStream.viewsFrom, List.flatMap_cons, ih]
    rfl

/-- The elements of a document in terms of its tokens. -/
theorem ofText_eq (source : Source) (text : List Char) (root : Option Node) :
    ofText source text root =
      interleave notAfter
        (interleave notAfter (ofLexemes source none [] (Lexeme.ofText source text))
          (((root.map Node.walk).getD []).map node))
        ((Line.ofList text).map line) := by
  unfold ofText
  dsimp only
  rw [TokenStream.views_eq, ofView_viewsFrom]
  rfl

end Element

/-! The collections that are open. -/

namespace Lexeme

/-- Whether one of the tokens closes what was open before them all: up to it, more of them close a
collection than open one. -/
def closeOutward (ls : List Lexeme) : Bool :=
  ls.inits.any fun part => part.countP (·.opens?.isSome) < part.countP (·.closes)

/-- The collection that the first token opens, if none of the others closes it. -/
def standingOpen? : List Lexeme → Option (Container × Mark)
  | [] => none
  | l :: r => if closeOutward r then none else l.opens?.map (·, l.start)

/-- The collections that tokens open and no later one of them closes, the outermost first. -/
def openStarts (ls : List Lexeme) : List (Container × Mark) :=
  ls.tails.filterMap standingOpen?

/-- How many of the collections that were open before are closed by tokens. -/
def closedOutward : List Lexeme → Nat
  | [] => 0
  | l :: r =>
    if l.opens?.isSome then closedOutward r - 1
    else if l.closes then closedOutward r + 1
    else closedOutward r

theorem not_closes_of_opens? {l : Lexeme} (h : l.opens?.isSome = true) : l.closes = false := by
  obtain ⟨kind, start, stop⟩ := l
  cases kind <;> first | rfl | cases h

theorem closedOutward_le {ls part : List Lexeme} (h : part <+: ls) :
    part.countP (·.closes) ≤ part.countP (·.opens?.isSome) + closedOutward ls := by
  induction ls generalizing part with
  | nil =>
    rw [List.prefix_nil.mp h]
    exact Nat.zero_le _
  | cons l r ih =>
    cases part with
    | nil => exact Nat.zero_le _
    | cons a part =>
      obtain ⟨rfl, hpart⟩ := List.cons_prefix_cons.mp h
      have hle := ih hpart
      rw [List.countP_cons, List.countP_cons, closedOutward]
      by_cases hopens : a.opens?.isSome = true
      · have hcloses := not_closes_of_opens? hopens
        simp only [hopens, hcloses, if_true, Bool.false_eq_true, if_false]
        omega
      · by_cases hcloses : a.closes = true <;>
          simp only [hopens, hcloses, if_true, Bool.false_eq_true, if_false] <;> omega

theorem exists_closedOutward (ls : List Lexeme) :
    ∃ part, part <+: ls ∧
      part.countP (·.closes) = part.countP (·.opens?.isSome) + closedOutward ls := by
  induction ls with
  | nil => exact ⟨[], List.nil_prefix, rfl⟩
  | cons l r ih =>
    obtain ⟨part, hpart, heq⟩ := ih
    have hlonger : l :: part <+: l :: r := List.cons_prefix_cons.mpr ⟨rfl, hpart⟩
    rw [closedOutward]
    by_cases hopens : l.opens?.isSome = true
    · have hcloses := not_closes_of_opens? hopens
      by_cases hnone : closedOutward r = 0
      · exact ⟨[], List.nil_prefix, by simp [hopens, hnone]⟩
      · refine ⟨l :: part, hlonger, ?_⟩
        simp only [List.countP_cons, hopens, hcloses, if_true, Bool.false_eq_true, if_false]
        omega
    · refine ⟨l :: part, hlonger, ?_⟩
      by_cases hcloses : l.closes = true <;>
        simp only [List.countP_cons, hopens, hcloses, if_true, Bool.false_eq_true, if_false] <;>
        omega

theorem closeOutward_iff (ls : List Lexeme) : closeOutward ls = true ↔ 0 < closedOutward ls := by
  unfold closeOutward
  simp only [List.any_eq_true, List.mem_inits, decide_eq_true_eq]
  constructor
  · rintro ⟨part, hpart, hlt⟩
    have := closedOutward_le hpart
    omega
  · intro hpos
    obtain ⟨part, hpart, heq⟩ := exists_closedOutward ls
    exact ⟨part, hpart, by omega⟩

theorem openStarts_cons (l : Lexeme) (r : List Lexeme) :
    openStarts (l :: r) = (standingOpen? (l :: r)).toList ++ openStarts r := by
  rw [openStarts, List.tails, List.filterMap_cons]
  cases standingOpen? (l :: r) <;> rfl

/-- The path behind some tokens: what they leave of the collections that were open before, then those
that they leave open themselves. -/
theorem foldl_pathAfter (path : List (Container × Mark)) (ls : List Lexeme) :
    ls.foldl Element.pathAfter path =
      path.take (path.length - closedOutward ls) ++ openStarts ls := by
  induction ls generalizing path with
  | nil =>
    rw [List.foldl_nil, closedOutward, Nat.sub_zero, List.take_length]
    exact (List.append_nil path).symm
  | cons l r ih =>
    rw [List.foldl_cons, ih, openStarts_cons, standingOpen?, closedOutward, Element.pathAfter]
    cases hopens : l.opens? with
    | some c =>
      rw [Option.isSome_some, if_pos rfl]
      dsimp only
      cases hclosed : closeOutward r with
      | true =>
        have hpos := (closeOutward_iff r).mp hclosed
        rw [if_pos rfl, List.length_append, List.length_singleton,
          List.take_append_of_le_length (by omega)]
        congr 2
        omega
      | false =>
        have hnone : closedOutward r = 0 := by
          have := mt (closeOutward_iff r).mpr (by simp [hclosed])
          omega
        rw [hnone, if_neg Bool.false_ne_true, Nat.sub_zero, List.take_length, Nat.zero_sub,
          Nat.sub_zero, List.take_length, List.append_assoc]
        rfl
    | none =>
      have hfirst : (if closeOutward r = true then none
          else (none : Option Container).map (·, l.start)).toList = [] := by
        split <;> rfl
      rw [hfirst, List.nil_append, Option.isSome_none, if_neg Bool.false_ne_true]
      dsimp only
      split
      · rw [List.dropLast_eq_take, List.take_take, List.length_take]
        congr 2
        omega
      · rfl

end Lexeme

/-- The window shows every token together with its neighbours and its collections. All tokens of a
scanner are handed out, then the stream is at its end. What stands before and behind a token are the
tokens that are handed out before and after it, and nothing only at the two ends. Its path is the
list of the collections that a token before it opens and none before it closes. -/
theorem TokenStream.coherent (source : Source) (ts : List Yaml.Token) :
    Yields (next? source) (ofTokens ts) (views source ts) ∧
      (views source ts).map (·.curr.kind) = ts.map (·.kind) ∧
      ∀ k v, (views source ts)[k]? = some v →
        v.prev = (if k = 0 then none else (views source ts)[k - 1]?.map (·.curr)) ∧
        v.next = (views source ts)[k + 1]?.map (·.curr) ∧
        v.nextNext = (views source ts)[k + 2]?.map (·.curr) ∧
        v.path = Lexeme.openStarts (((views source ts).take k).map (·.curr)) := by
  have hcurr : (views source ts).map (·.curr) = Lexeme.placeAll source ts := by
    rw [views_eq, viewsFrom_curr]
  refine ⟨views_eq source ts ▸ yields_placeAll source ts, ?_, fun k v hv => ?_⟩
  · rw [← Lexeme.placeAll_kinds source, ← hcurr, List.map_map]
    rfl
  · rw [views_eq, viewsFrom_getElem?] at hv
    obtain ⟨l, -, rfl⟩ := Option.map_eq_some_iff.mp hv
    simp only [← List.getElem?_map, List.map_take, hcurr, true_and]
    rw [Lexeme.foldl_pathAfter, List.take_nil, List.nil_append]

end Blueprint
