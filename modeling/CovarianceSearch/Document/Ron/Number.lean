import CovarianceSearch.Document.Ron.Text

namespace CovarianceSearch.Ron

/-- Takes out underscores, which follow a digit or another underscore. -/
def joinDigits? (isOpen : Bool) : List Char → Option (List Char)
  | [] => some []
  | c :: cs =>
    if c = '_' then if isOpen then joinDigits? true cs else none
    else
      let isOpen := c.isAlphanum || (isOpen && c ≠ '.')
      (joinDigits? isOpen cs).map (c :: ·)

def isRealChar (c : Char) : Bool :=
  c.isDigit || c = 'e' || c = 'E' || c = '.' || c = '+' || c = '-' || c = '_'

def isWholeChar (c : Char) : Bool := (Json.hexDigit? c).isSome || c = '_'

/-- Reads a number as a float, of half the size if it says so. -/
def readReal (cs : List Char) : Option (Datum × List Char) := do
  let x ← Decimal.Numeral.readReal? (← joinDigits? false (cs.takeWhile isRealChar))
  let rest := cs.dropWhile isRealChar
  match String.ofList (rest.takeWhile isNameChar) with
  | "f32" => return (.real x.toFloat32.toFloat, rest.drop 3)
  | "f64" => return (.real x, rest.drop 3)
  | _ => return (.real x, rest)

/-- The types of whole numbers, the first number of each and the first one behind it. -/
def ranges : List (String × Int × Int) :=
  [("i8", Int8.minValue.toInt, Int8.maxValue.toInt + 1),
    ("i16", Int16.minValue.toInt, Int16.maxValue.toInt + 1),
    ("i32", Int32.minValue.toInt, Int32.maxValue.toInt + 1),
    ("i64", Int64.minValue.toInt, Int64.maxValue.toInt + 1),
    ("u8", 0, UInt8.size), ("u16", 0, UInt16.size), ("u32", 0, UInt32.size),
    ("u64", 0, UInt64.size)]

def readWhole (radix : Nat) (sign : Option Char) (cs : List Char) :
    Option (Datum × List Char) := do
  let ds ← joinDigits? false (cs.takeWhile isWholeChar)
  let values ← ds.mapM Json.hexDigit?
  let n : Nat := values.foldl (fun acc v ↦ radix * acc + v) 0
  let n : Int := if sign = some '-' then -n else n
  let rest := cs.dropWhile isWholeChar
  let type := rest.takeWhile isNameChar
  let (first, last, rest) := match ranges.lookup (String.ofList type) with
    | some (first, last) => (first, last, rest.drop type.length)
    | none => (Int64.minValue.toInt, (UInt64.size : Int), rest)
  if !values.isEmpty && values.all (· < radix) && first ≤ n && n < last then
    return (.integer n, rest)
  else none

/-- Reads a number. One without a point is a whole number, if it fits into 64 bits. -/
def readNumber (cs : List Char) : Option (Datum × List Char) :=
  let (sign, ds) := Decimal.Numeral.takeSign cs
  match ds with
  | '0' :: 'x' :: ds => readWhole 16 sign ds
  | '0' :: 'o' :: ds => readWhole 8 sign ds
  | '0' :: 'b' :: ds => readWhole 2 sign ds
  | ds =>
    if (ds.takeWhile isWholeChar).length < (ds.takeWhile isRealChar).length then readReal cs
    else (readWhole 10 sign ds).orElse fun _ ↦ readReal cs

end CovarianceSearch.Ron
