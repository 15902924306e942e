import CovarianceSearch.Document.Yaml.Block
import CovarianceSearch.Document.Yaml.Layout

namespace CovarianceSearch.Yaml

namespace Layout

def readDocument (t : Token) (l : Layout) : Option Layout := do
  let l ← (l.endBlocks (-1)).forgetKey
  return ({ l with cursor := l.cursor.skip 3, allowsKey := false }).push t

/-- Reads the version of the format. Other instructions are skipped. -/
def readDirective (l : Layout) : Option Layout := do
  let l ← (l.endBlocks (-1)).forgetKey
  let c := (l.cursor.skip 1).skipWhile fun c ↦ c.isAlphanum || c = '_' || c = '-'
  let name := (l.cursor.rest.drop 1).takeWhile fun c ↦ c.isAlphanum || c = '_' || c = '-'
  if name.isEmpty || !endsWord c.rest then none
  else
    let c ← if String.ofList name = "YAML" then do
      let major := (c.skipWhile isBlank).skipWhile (·.isDigit)
      let minor := (major.skip 1).skipWhile (·.isDigit)
      if major.rest.head? ≠ some '.' || minor.offset = major.offset + 1 then none
      else minor.skipLine
    else some (c.skipWhile (!isBreak ·))
    if !c.isAtEnd && !c.isAtBreak then none
    else return ({ l with cursor := c, allowsKey := false }).push .directive

def openFlow (kind : Flow) (t : Token) (l : Layout) : Option Layout := do
  let l := l.noteKey.indentOne
  if 255 ≤ l.flows.length then none
  else
    let c ← (l.cursor.skip 1).skipLine
    return ({ l with
      cursor := c
      flows := kind :: l.flows
      candidate := none
      outer := l.candidate :: l.outer
      allowsKey := true }).push t

def closeFlow (t : Token) (l : Layout) : Option Layout := do
  let l ← l.forgetKey
  let c ← (l.cursor.skip 1).skipLine
  let flows := l.flows.drop 1
  return ({ l with
    cursor := c
    flows
    candidate := l.outer.head?.join
    outer := l.outer.drop 1
    allowsKey := false
    adjacent := if flows.isEmpty then l.adjacent else some c.offset }).push t

def readComma (l : Layout) : Option Layout := do
  let l ← l.forgetKey
  let c ← (l.cursor.skip 1).skipLine
  return ({ l with cursor := c, allowsKey := true }).push .comma

def readEntry (l : Layout) : Option Layout := do
  if l.inFlow || !l.allowsKey then none
  else
    let blanks := (l.cursor.rest.drop 1).takeWhile isBlank
    let c ← (l.cursor.skip 1).skipLine
    if '\t' ∈ blanks && c.rest.head? = some '-' && endsWord (c.rest.drop 1) then none
    else
      let l := l.beginBlock l.cursor.column l.tokens.size .blockSequence
      let l := if c.isAtBreak || c.rest.head?.any isFlow then l.indentOne else l
      return ({ ← l.forgetKey with cursor := c, allowsKey := true }).push .entry

def readKeyMark (l : Layout) : Option Layout := do
  let c := (l.cursor.skip 1).skipWhile (· = ' ')
  if !l.inFlow && !l.allowsKey || c.rest.head? = some '\t' || (l.cursor.skip 1).isAtEnd then none
  else
    let l ← (l.beginBlock l.cursor.column l.tokens.size .blockMapping).forgetKey
    return ({ l with cursor := c, allowsKey := !l.inFlow }).push .key

/-- Reads the mark of a value. Where a key may have begun, there it did. -/
def readValueMark (l : Layout) : Option Layout := do
  let blanks := (l.cursor.rest.drop 1).takeWhile isBlank
  let c := l.cursor.skip 1
  let c ← if c.rest.head? = some '\t' then c.skipLine else some c
  if blanks.head? = some '\t' && ' ' ∉ blanks && c.rest.head?.any (fun c ↦ c.isAlphanum || c = '-')
  then none
  else
    let l ← match l.candidate with
      | some k =>
        if l.flows.head? = some .sequence && k.line < l.cursor.line then none
        else
          let l := { l with tokens := l.tokens.insertIdxIfInBounds k.number .key }
          let l := (l.beginBlock k.column k.number .blockMapping).indentOne
          some { l with candidate := none, allowsKey := false }
      | none =>
        if !l.inFlow && !l.allowsKey then none
        else
          let l := (l.beginBlock l.cursor.column l.tokens.size .blockMapping).indentOne
          some { l with allowsKey := !l.inFlow }
    return ({ l with cursor := c }).push .value

def readName (t : String → Token) (l : Layout) : Option Layout :=
  let name := (l.cursor.rest.drop 1).takeWhile fun c ↦
    !isBlank c && !isBreak c && !isFlow c && c.toNat ≠ 0xFEFF
  let l := l.noteKey
  if name.isEmpty then none
  else some (({ l with
    cursor := l.cursor.skip (name.length + 1)
    allowsKey := false }).push (t (String.ofList name)))

def isTagChar (c : Char) : Bool := c.isAlphanum || c ∈ "-_#;/?:@&=+$.~*'()%".toList

def readTag (l : Layout) : Option Layout := do
  let l := l.noteKey
  let (isCore, name, length) ← match l.cursor.rest.drop 1 with
    | '<' :: rest =>
      let name := rest.takeWhile fun c ↦ isTagChar c || c ∈ [',', '!', '[', ']']
      if name.isEmpty || (rest.drop name.length).head? ≠ some '>' then none
      else some (false, name, name.length + 3)
    | '!' :: rest =>
      let name := rest.takeWhile isTagChar
      if name.isEmpty then none else some (true, name, name.length + 2)
    | rest =>
      let name := rest.takeWhile isTagChar
      some (false, name, name.length + 1)
  let c := l.cursor.skip length
  if !endsWord c.rest && !(l.inFlow && c.rest.head?.any isFlow) then none
  else return ({ l with cursor := c, allowsKey := false }).push (.tag isCore (String.ofList name))

/-- Reads a text in quotes. Nothing but the marks of collections may follow it in its line. -/
def readQuotedText (quote : Char) (l : Layout) : Option Layout := do
  let l := l.noteKey
  let start := l.cursor
  let (text, c) ← readQuoted quote l.indent start.rest.length (start.skip 1)
  let c ← c.skipLine
  let isOver := match c.rest with
    | [] => true
    | ':' :: _ => l.inFlow || start.line = c.line
    | char :: _ => isBreak char || l.inFlow && char ∈ [',', ']', '\x7d']
  if !isOver then none
  else
    let l ← ({ l with cursor := c, allowsKey := false }).skip
    return ({ l with adjacent := some l.cursor.offset }).push (.scalar false (String.ofList text))

def readPlainText (l : Layout) : Option Layout := do
  let l := l.noteKey.unindent
  let c := l.cursor
  if l.inFlow && c.column < l.indent + 1 then none
  else
    let (text, c) ← readPlain l.inFlow (l.indent + 1) (c.rest.length + 1) c
    if text.isEmpty then none
    else
      let l := { l with cursor := c, allowsKey := c.isLeading }
      return l.push (.scalar true (String.ofList text))

def readBlockText (isFolded : Bool) (l : Layout) : Option Layout := do
  let l := l.noteKey.unindent
  let (text, c) ← readBlock isFolded l.indent (l.cursor.skip 1)
  return ({ l with cursor := c, allowsKey := true }).push (.scalar false (String.ofList text))

def isValueMark (l : Layout) (rest : List Char) : Bool :=
  endsWord rest || l.inFlow && (rest.head?.any isFlow || l.adjacent = some l.cursor.offset)

def readToken (l : Layout) : Option Layout :=
  let c := l.cursor
  if c.column = 0 && c.rest.head? = some '%' then l.readDirective
  else if c.isAtMark '-' then l.readDocument .documentStart
  else if c.isAtMark '.' then do
    let l ← l.readDocument .documentEnd
    let c ← l.cursor.skipLine
    if c.isAtEnd || c.isAtBreak then return { l with cursor := c } else none
  else if c.column < l.indent then none
  else
    match c.rest with
    | '[' :: _ => l.openFlow .sequence .flowSequence
    | '\x7b' :: _ => l.openFlow .mapping .flowMapping
    | ']' :: _ => l.closeFlow .flowSequenceEnd
    | '\x7d' :: _ => l.closeFlow .flowMappingEnd
    | ',' :: _ => l.readComma
    | '*' :: _ => l.readName .reference
    | '&' :: _ => l.readName .anchor
    | '!' :: _ => l.readTag
    | '\'' :: _ => l.readQuotedText '\''
    | '"' :: _ => l.readQuotedText '"'
    | char :: rest =>
      if char = '-' && endsWord rest then l.readEntry
      else if char = '?' && endsWord rest then l.readKeyMark
      else if char = ':' && l.isValueMark rest then l.readValueMark
      else if char = '|' && !l.inFlow then l.readBlockText false
      else if char = '>' && !l.inFlow then l.readBlockText true
      else if char ∈ "%@`".toList then none
      else l.readPlainText
    | [] => some l

def readAll : (bound : Nat) → Layout → Option (List Token)
  | 0, _ => none
  | bound + 1, l => do
    let l ← (← l.skip).forgetStale
    let l := l.endBlocks l.cursor.column
    if l.cursor.isAtEnd then return ((← l.forgetKey).endBlocks (-1)).tokens.toList
    else readAll bound (← l.readToken)

end Layout

def tokens? (cs : List Char) : Option (List Token) := (Layout.atStart cs).readAll (cs.length + 1)

end CovarianceSearch.Yaml
