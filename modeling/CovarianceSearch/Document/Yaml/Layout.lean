import CovarianceSearch.Document.Yaml.Cursor

namespace CovarianceSearch.Yaml

/-- What a document is made of. Collections that are written by indentation have tokens for where
they begin and end. -/
inductive Token where
  | directive
  | documentStart
  | documentEnd
  | blockSequence
  | blockMapping
  | blockEnd
  | flowSequence
  | flowSequenceEnd
  | flowMapping
  | flowMappingEnd
  | comma
  | entry
  | key
  | value
  | anchor (name : String)
  | reference (name : String)
  | tag (isCore : Bool) (name : String)
  | scalar (isPlain : Bool) (text : String)

/-- A column that what follows may not stand to the left of, and whether a collection begins
there. -/
structure Indent where
  column : Int
  isBlock : Bool

/-- A place at which a key may have begun, and the number of tokens before it. -/
structure Candidate where
  number : Nat
  line : Nat
  column : Nat
  offset : Nat
  isRequired : Bool

inductive Flow where
  | sequence | mapping
  deriving DecidableEq

structure Layout where
  cursor : Cursor
  tokens : Array Token
  indents : List Indent
  flows : List Flow
  candidate : Option Candidate
  /-- Those outside of the open brackets. -/
  outer : List (Option Candidate)
  allowsKey : Bool
  /-- Where a colon needs no blank behind it. -/
  adjacent : Option Nat

namespace Layout

def atStart (cs : List Char) : Layout := ⟨.atStart cs, #[], [], [], none, [], true, none⟩

def indent (l : Layout) : Int :=
  match l.indents with
  | [] => -1
  | i :: _ => i.column

def inFlow (l : Layout) : Bool := !l.flows.isEmpty

def push (t : Token) (l : Layout) : Layout := { l with tokens := l.tokens.push t }

/-- Skips blanks, line ends and comments. Behind a line end a key may follow, and a tab does not
count as indentation. -/
def skipFiller : (bound : Nat) → Layout → Option Layout
  | 0, _ => none
  | bound + 1, l =>
    let c := l.cursor
    match c.rest with
    | '\n' :: _ | '\r' :: _ =>
      skipFiller bound { l with cursor := c.skipBreak, allowsKey := l.allowsKey || !l.inFlow }
    | ' ' :: _ => skipFiller bound { l with cursor := c.skip 1 }
    | '\t' :: _ =>
      if !l.indents.isEmpty && c.isLeading && c.column < l.indent then do
        let c ← c.skipLine
        if c.isAtEnd || c.isAtBreak then skipFiller bound { l with cursor := c } else none
      else skipFiller bound { l with cursor := c.skip 1 }
    | '#' :: _ => skipFiller bound { l with cursor := c.skipWhile (!isBreak ·) }
    | _ => some l

def skip (l : Layout) : Option Layout := l.skipFiller (l.cursor.rest.length + 1)

def endBlocks (column : Int) (l : Layout) : Layout :=
  if l.inFlow then l
  else
    let ended := (l.indents.takeWhile (column < ·.column)).filter (·.isBlock)
    { l with
      indents := l.indents.dropWhile (column < ·.column)
      tokens := l.tokens ++ ended.map fun _ ↦ Token.blockEnd }

def beginBlock (column n : Nat) (t : Token) (l : Layout) : Layout :=
  let indents := match l.indents with
    | i :: outer => if !i.isBlock && i.column ≤ column then outer else l.indents
    | [] => []
  if l.inFlow then l
  else if (indents.head?.all fun i ↦ i.column < (column : Int)) then
    { l with indents := ⟨column, true⟩ :: indents, tokens := l.tokens.insertIdxIfInBounds n t }
  else { l with indents }

def indentOne (l : Layout) : Layout :=
  match l.indents with
  | i :: _ =>
    if i.isBlock && !l.inFlow then { l with indents := ⟨i.column + 1, false⟩ :: l.indents } else l
  | [] => l

def unindent (l : Layout) : Layout := { l with indents := l.indents.dropWhile (!·.isBlock) }

/-- Notes that a key may begin here. It has to, where the keys of a collection begin. -/
def noteKey (l : Layout) : Layout :=
  if l.allowsKey then
    let c := l.cursor
    let isFirst := l.indents.head?.any fun i ↦ i.isBlock && i.column = (c.column : Int)
    let isRequired := !l.inFlow && isFirst
    { l with candidate := some ⟨l.tokens.size, c.line, c.column, c.offset, isRequired⟩ }
  else l

def forgetKey (l : Layout) : Option Layout :=
  if l.candidate.any (·.isRequired) then none else some { l with candidate := none }

/-- Gives up a key that does not end in its line, or is too long. -/
def forgetStale (l : Layout) : Option Layout :=
  let c := l.cursor
  let isStale := l.candidate.any fun k ↦ k.line < c.line || k.offset + 1024 < c.offset
  if isStale && !l.inFlow then l.forgetKey else some l

end Layout

end CovarianceSearch.Yaml
