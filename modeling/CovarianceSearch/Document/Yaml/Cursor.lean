namespace CovarianceSearch.Yaml

def isBlank (c : Char) : Bool := c = ' ' || c = '\t'

def isBreak (c : Char) : Bool := c = '\n' || c = '\r'

def isFlow (c : Char) : Bool := c ∈ [',', '[', ']', '\x7b', '\x7d']

def endsWord : List Char → Bool
  | [] => true
  | c :: _ => isBlank c || isBreak c

/-- A place in a document, and whether only blanks stand before it in its line. -/
structure Cursor where
  rest : List Char
  line : Nat
  column : Nat
  offset : Nat
  isLeading : Bool

namespace Cursor

def atStart (cs : List Char) : Cursor := ⟨cs, 0, 0, 0, true⟩

def isAtBlank (c : Cursor) : Bool := c.rest.head?.any isBlank

def isAtBreak (c : Cursor) : Bool := c.rest.head?.any isBreak

def isAtEnd (c : Cursor) : Bool := c.rest.isEmpty

def skip (n : Nat) (c : Cursor) : Cursor :=
  { c with
    rest := c.rest.drop n
    column := c.column + n
    offset := c.offset + n
    isLeading := c.isLeading && (c.rest.take n).all isBlank }

def skipBreak (c : Cursor) : Cursor :=
  match c.rest with
  | '\r' :: '\n' :: rest => ⟨rest, c.line + 1, 0, c.offset + 2, true⟩
  | rest => ⟨rest.drop 1, c.line + 1, 0, c.offset + 1, true⟩

def skipWhile (p : Char → Bool) (c : Cursor) : Cursor := c.skip (c.rest.takeWhile p).length

/-- Skips blanks and a comment, which does not begin without a blank before it. -/
def skipLine (c : Cursor) : Option Cursor :=
  match c.skipWhile isBlank with
  | c' =>
    if c'.rest.head? = some '#' then
      if c.isAtBlank then some (c'.skipWhile (!isBreak ·)) else none
    else some c'

def isAtMark (mark : Char) (c : Cursor) : Bool :=
  c.column = 0 && c.rest.take 3 = [mark, mark, mark] && endsWord (c.rest.drop 3)

def isAtDocument (c : Cursor) : Bool := c.isAtMark '-' || c.isAtMark '.'

end Cursor

end CovarianceSearch.Yaml
