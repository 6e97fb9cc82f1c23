import Blueprint.Proofs.ContextTables
import Blueprint.Proofs.LexemeRanges
import Blueprint.Proofs.StreamOrder
import Blueprint.Proofs.TokenDepth

/-!
The tracking of sections as a walk over the kinds of the tokens: what it keeps are the token before,
the number of open collections, and the sections.
-/

namespace Blueprint

open Yaml (TokenKind depthAfter)

namespace Lexeme

/-- Placing the tokens of a text keeps their kinds. -/
theorem ofText_kinds (source : Source) (text : List Char) : (ofText source text).map (·.kind) =
    (Yaml.Scan.ofList .document text).tokens.map (·.token.kind) := by
  rw [ofText, placeAll_kinds]
  exact List.map_map

end Lexeme

namespace Element

def view? : Element → Option TokenView
  | token t => some t
  | _ => none

/-- The tokens of a text with their neighbours, in their order. -/
def views (text : String) : List TokenView :=
  (ofDocument text).filterMap view?

theorem pathAfter_length (path : List (Container × Mark)) (l : Lexeme) :
    (pathAfter path l).length = l.kind.depth path.length := by
  obtain ⟨kind, start, stop⟩ := l
  cases kind <;> simp [pathAfter, Lexeme.opens?, Lexeme.closes, TokenKind.depth,
    TokenKind.closer?, TokenKind.closes]

theorem views_eq (text : String) : views text = (lexical text).filterMap view? := by
  unfold views
  rw [← ofDocument_lexical, List.filterMap_filterMap]
  refine List.filterMap_congr fun e _ => ?_
  cases e <;> rfl

theorem views_cons (source : Source) (prev : Option Lexeme) (path : List (Container × Mark))
    (l : Lexeme) (r : List Lexeme) : (ofLexemes source prev path (l :: r)).filterMap view? =
      ⟨l, prev, r.head?, r[1]?, path⟩ ::
        (ofLexemes source (some l) (pathAfter path l) r).filterMap view? := by
  have hcomments : ((Comment.between source l r.head?).map comment).filterMap view? = [] := by
    rw [List.filterMap_map]
    exact List.filterMap_eq_nil_iff.mpr fun c _ => rfl
  rw [ofLexemes, List.cons_append]
  refine congrArg (_ :: ·) ?_
  rw [List.filterMap_append, hcomments]
  rfl

/-- The kinds of the tokens of a text. -/
def kinds (text : String) : List TokenKind :=
  (views text).map (·.curr.kind)

theorem ofLexemes_kinds (source : Source) (prev : Option Lexeme) (path : List (Container × Mark))
    (ls : List Lexeme) :
    ((ofLexemes source prev path ls).filterMap view?).map (·.curr.kind) = ls.map (·.kind) := by
  induction ls generalizing prev path with
  | nil => rfl
  | cons l r ih => rw [views_cons, List.map_cons, ih, List.map_cons]

theorem kinds_eq (text : String) : kinds text =
    (Yaml.Scan.ofList .document text.toList).tokens.map (·.token.kind) := by
  rw [kinds, views_eq, lexical, ofLexemes_kinds, Lexeme.ofText_kinds]

end Element

/-- What is known of the sections between two tokens. -/
structure Place where
  reading : Bool
  current : Option String
  sections : NameSet

namespace Place

def enter (s : Place) (name : String) : Place :=
  if s.current == some "node_templates" && name == "inputs" then s
  else
    { s with
      sections := if name = "" then s.sections else s.sections.add name
      current := some name }

/-- Leaves the section. -/
def leave (s : Place) : Place :=
  { s with current := some "" }

/-- Goes past a token that enters the named section, if any. -/
def step (s : Place) (k : TokenKind) (name? : Option String) : Place :=
  if k = .streamStart then { s with reading := true, current := none }
  else if k = .streamEnd then { s with reading := false }
  else if s.reading then (name?.map s.enter).getD s
  else s

theorem enter_empty (s : Place) : s.enter "" = s.leave := by
  unfold enter
  rw [Bool.and_comm, show ("" == "inputs") = false from rfl]
  rfl

end Place

/-- Where the tokens are: the token before, the number of open collections, and the sections. -/
structure Tracker where
  prev : Option TokenKind
  depth : Nat
  place : Place

namespace Tracker

def textOf? : TokenKind → Option String
  | .scalar text _ => some text
  | _ => none

/-- Whether a section is entered at a key that these tokens follow. -/
def entersAt (ahead : List TokenKind) : Bool :=
  ahead.head? == some .value && ahead[1]?.any Context.opensCollection

/-- The section that a token enters, or the empty text if it leaves one. -/
def sectionAt (t : Tracker) (k : TokenKind) (ahead : List TokenKind) : Option String :=
  if k = .blockEnd ∧ t.depth = 2 then some ""
  else if t.depth = 1 then
    (if t.prev = some .key then textOf? k else none).map fun key =>
      if Sections.known.contains key && entersAt ahead then key else ""
  else none

/-- Follows a token with those ahead of it. -/
def read (t : Tracker) (k : TokenKind) (ahead : List TokenKind) : Tracker :=
  ⟨some k, k.depth t.depth, t.place.step k (t.sectionAt k ahead)⟩

/-- Follows some tokens with those ahead of them. -/
def follow (t : Tracker) (ahead : List TokenKind) : List TokenKind → Tracker
  | [] => t
  | k :: r => (t.read k (r ++ ahead)).follow ahead r

@[simp] theorem follow_nil (t : Tracker) (ahead : List TokenKind) : t.follow ahead [] = t := rfl

@[simp] theorem follow_cons (t : Tracker) (ahead : List TokenKind) (k : TokenKind)
    (r : List TokenKind) : t.follow ahead (k :: r) = (t.read k (r ++ ahead)).follow ahead r :=
  rfl

theorem follow_append (t : Tracker) (ahead a b : List TokenKind) :
    t.follow ahead (a ++ b) = (t.follow (b ++ ahead) a).follow ahead b := by
  induction a generalizing t with
  | nil => rfl
  | cons k r ih => rw [List.cons_append, follow_cons, follow_cons, ih, List.append_assoc]

theorem follow_depth (t : Tracker) (ahead ks : List TokenKind) :
    (t.follow ahead ks).depth = depthAfter t.depth ks := by
  induction ks generalizing t with
  | nil => rfl
  | cons k r ih =>
    rw [follow_cons, ih]
    rfl

end Tracker

namespace Context

def place (c : Context) : Place :=
  ⟨c.reading, c.currentSection, c.sections⟩

@[simp] theorem place_current (c : Context) : c.place.current = c.currentSection := rfl

@[simp] theorem place_sections (c : Context) : c.place.sections = c.sections := rfl

theorem place_enter (c : Context) (name : String) : (c.enter name).place = c.place.enter name := by
  unfold enter Place.enter inTemplates
  show _ = if c.currentSection == some "node_templates" && name == "inputs" then _ else _
  split <;> rfl

theorem place_enterPart (c : Context) (t : TokenView) : (c.enterPart t).place = c.place := by
  unfold enterPart
  split <;> rfl

/-- Following a token takes the section from the token and its neighbours alone. -/
theorem place_update (c : Context) (t : TokenView) :
    (c.update t).place = c.place.step t.curr.kind (sectionAt t) := by
  unfold update
  split
  next hkind =>
    rw [hkind]
    rfl
  next hkind =>
    rw [hkind]
    rfl
  next hstart hstop =>
    rw [Place.step, if_neg hstart, if_neg hstop]
    show _ = if c.reading then _ else _
    split
    · dsimp only
      rw [place_enterPart]
      cases sectionAt t with
      | none => rfl
      | some name => exact c.place_enter name
    · rfl

theorem sectionAt_eq (t : TokenView) (s : Place) {r : List Lexeme} (hnext : t.next = r.head?)
    (hafter : t.nextNext = r[1]?) : sectionAt t =
      (⟨t.prevKind, t.path.length, s⟩ : Tracker).sectionAt t.curr.kind (r.map (·.kind)) := by
  have hahead : beforeCollection t = Tracker.entersAt (r.map (·.kind)) := by
    unfold beforeCollection Tracker.entersAt TokenView.nextKind
    rw [hnext, hafter, List.head?_map, List.getElem?_map]
    cases r[1]? <;> rfl
  unfold sectionAt Tracker.sectionAt
  rw [hahead]
  rfl

theorem place_foldl_update (source : Source) (c : Context) (prev : Option Lexeme)
    (path : List (Container × Mark)) (ls : List Lexeme) (n : Nat) :
    ((((Element.ofLexemes source prev path ls).filterMap Element.view?).take n).foldl update
        c).place =
      ((⟨prev.map (·.kind), path.length, c.place⟩ : Tracker).follow ((ls.map (·.kind)).drop n)
        ((ls.map (·.kind)).take n)).place := by
  induction ls generalizing c prev path n with
  | nil => cases n <;> rfl
  | cons l r ih =>
    cases n with
    | zero => rfl
    | succ n =>
      rw [Element.views_cons, List.take_succ_cons, List.foldl_cons, ih, Element.pathAfter_length,
        place_update, sectionAt_eq _ c.place rfl rfl, List.map_cons, List.take_succ_cons,
        List.drop_succ_cons, Tracker.follow_cons, List.take_append_drop]
      rfl

/-- Following the first tokens of a text follows their kinds. -/
theorem place_views (text : String) (c : Context) (n : Nat) :
    (((Element.views text).take n).foldl update c).place =
      ((⟨none, 0, c.place⟩ : Tracker).follow ((Element.kinds text).drop n)
        ((Element.kinds text).take n)).place := by
  rw [Element.kinds, Element.views_eq, Element.lexical, Element.ofLexemes_kinds]
  exact place_foldl_update _ c none [] _ n

end Context

end Blueprint
