import Blueprint.Document.Comment
import Blueprint.Document.Walk
import Blueprint.Table
import Blueprint.Text.Line

/-!
A document as one sequence of elements, line by line: tokens and comments, then the nodes that start
on the line, then the line itself.
-/

namespace Blueprint

/-- A token with its neighbours and the collections around it, the outermost first. -/
structure TokenView where
  curr : Lexeme
  prev : Option Lexeme
  next : Option Lexeme
  nextNext : Option Lexeme
  path : List (Container × Mark)

namespace TokenView

def line (t : TokenView) : Nat :=
  t.curr.start.line

/-- Whether no earlier token ends on the line of this one. -/
def startsLine (t : TokenView) : Bool :=
  t.prev.all fun p => p.stop.line < t.curr.start.line

def inFlow (t : TokenView) : Bool :=
  t.path.any fun (c, _) => c.isFlow

def prevKind (t : TokenView) : Option Yaml.TokenKind :=
  t.prev.map (·.kind)

def nextKind (t : TokenView) : Option Yaml.TokenKind :=
  t.next.map (·.kind)

/-- The text of a scalar that is a key. -/
def keyScalar? (t : TokenView) : Option String :=
  if t.prevKind = some .key then t.curr.scalar? else none

end TokenView

inductive ElementKind where
  | token
  | comment
  | node
  | line
deriving DecidableEq

inductive Element where
  | token (t : TokenView)
  | comment (c : Comment)
  | node (v : NodeVisit)
  | line (l : Line)

namespace Element

def kind : Element → ElementKind
  | token _ => .token
  | comment _ => .comment
  | node _ => .node
  | line _ => .line

/-- The line that the element belongs to. -/
def lineNumber : Element → Nat
  | token t => t.line
  | comment c => c.line
  | node v => v.node.line
  | line l => l.number

/-- The place of the element among those of its line. -/
def rank : Element → Nat
  | token _ | comment _ => 0
  | node _ => 1
  | line _ => 2

/-- Whether `a` may precede `b`. -/
def notAfter (a b : Element) : Bool :=
  a.lineNumber < b.lineNumber || (a.lineNumber == b.lineNumber && a.rank ≤ b.rank)

def pathAfter (path : List (Container × Mark)) (l : Lexeme) : List (Container × Mark) :=
  match l.opens? with
  | some c => path ++ [(c, l.start)]
  | none => if l.closes then path.dropLast else path

end Element

/-- The tokens of a document as they are handed out, each with the two that follow it. -/
structure TokenStream where
  /-- What is still to come from the scanner. -/
  coming : List Yaml.Token
  /-- Whether the scanner has been found to have no more tokens. -/
  ended : Bool
  /-- The tokens that have been read ahead. -/
  window : List Lexeme
  prev : Option Lexeme
  path : List (Container × Mark)

namespace TokenStream

/-- How many tokens are read ahead. Where the last of them stops is known with the next one only. -/
def windowSize : Nat := 4

def ofTokens (ts : List Yaml.Token) : TokenStream where
  coming := ts
  ended := false
  window := []
  prev := none
  path := []

/-- Reads a token into the window, and settles the range of the one before it. -/
def enter (source : Source) (window : List Lexeme) (t : Yaml.Token) : List Lexeme :=
  match window.getLast? with
  | none => [⟨t.kind, t.mark, t.mark⟩]
  | some last =>
    let last := (last.anchored t).finish source t.mark.index
    window.dropLast ++ [last, Lexeme.begin source t last.stop.index]

/-- Settles the range of the last token of all. -/
def close (source : Source) (window : List Lexeme) : List Lexeme :=
  match window.getLast? with
  | none => []
  | some last => window.dropLast ++ [last.finish source source.size]

/-- Reads ahead until the window is full or the scanner has no more tokens. -/
def fillFrom (source : Source) (s : TokenStream) (window : List Lexeme) :
    List Yaml.Token → TokenStream
  | [] =>
    if window.length < windowSize then
      { s with coming := [], ended := true, window := close source window }
    else { s with coming := [], window }
  | t :: r =>
    if window.length < windowSize then fillFrom source s (enter source window t) r
    else { s with coming := t :: r, window }

def fill (source : Source) (s : TokenStream) : TokenStream :=
  if s.ended then s else fillFrom source s s.window s.coming

def next? (source : Source) (s : TokenStream) : Option (TokenView × TokenStream) :=
  let s := s.fill source
  match s.window with
  | [] => none
  | l :: r =>
    some (⟨l, s.prev, r.head?, r[1]?, s.path⟩,
      { s with window := r, prev := some l, path := Element.pathAfter s.path l })

def views (source : Source) (ts : List Yaml.Token) : List TokenView :=
  drain (next? source) ts.length (ofTokens ts)

end TokenStream

namespace Element

/-- A token, followed by the comments between it and the next one. -/
def ofView (source : Source) (t : TokenView) : List Element :=
  token t :: (Comment.between source t.curr t.next).map comment

/-- The elements of a document whose tree is `root`. -/
def ofText (source : Source) (text : List Char) (root : Option Node) : List Element :=
  let raw := (Yaml.Scan.ofList .document text).tokens.map (·.token)
  let tokens := (TokenStream.views source raw).flatMap (ofView source)
  let nodes := ((root.map Node.walk).getD []).map node
  interleave notAfter (interleave notAfter tokens nodes) ((Line.ofList text).map line)

end Element

end Blueprint
