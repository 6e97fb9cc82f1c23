/-!
The physical lines of a document. A document that ends with a line feed has an empty line after it.
-/

namespace Blueprint

/-- A line with the byte offsets of its content. `before` holds the document up to the line, last
character first, and `rest` what follows the content, from the terminator on. -/
structure Line where
  number : Nat
  start : Nat
  content : List Char
  before : List Char
  rest : List Char

namespace Line

def byteCount (s : List Char) : Nat :=
  s.foldl (fun n c => n + c.utf8Size) 0

/-- The byte offset just past the content. -/
def stop (l : Line) : Nat :=
  l.start + byteCount l.content

/-- The lines of a text of which `read` has been read on the current line, last character first. -/
def linesFrom (number start : Nat) (before read : List Char) : List Char → List Line
  | [] => [⟨number, start, read.reverse, before, []⟩]
  | c :: r =>
    if c = '\n' then
      let line : Line :=
        match read with
        | '\r' :: content => ⟨number, start, content.reverse, before, '\r' :: c :: r⟩
        | content => ⟨number, start, content.reverse, before, c :: r⟩
      line :: linesFrom (number + 1) (start + byteCount read + 1) (c :: (read ++ before)) [] r
    else linesFrom number start before (c :: read) r

def ofList (text : List Char) : List Line :=
  linesFrom 1 0 [] [] text

end Line

end Blueprint
