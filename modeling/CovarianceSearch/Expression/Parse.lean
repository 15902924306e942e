import CovarianceSearch.Expression
import CovarianceSearch.Expression.Token

namespace CovarianceSearch.Expression

/-- What a reader leaves of `tokens`: less than there was. -/
abbrev Rest (tokens : List Token) := { rest : List Token // rest.length < tokens.length }

abbrev Reading (α : Type) (tokens : List Token) := Except ExpressionFault (α × Rest tokens)

def expect (token : Token) : (tokens : List Token) → Except ExpressionFault (Rest tokens)
  | [] => .error (.expected token none)
  | t :: ts => if t = token then .ok ⟨ts, by simp⟩ else .error (.expected token (some t))

def baseKernel : (tokens : List Token) → Reading BaseKernel tokens
  | .name word :: ts =>
    match BaseKernel.ofName? word with
    | some k => .ok (k, ⟨ts, by simp⟩)
    | none => .error (.unknownKernel word)
  | ts => .error (.expectedKernel ts.head?)

def laxFactor (tokens : List Token) : Reading (BaseKernel × BaseKernel) tokens := do
  let ⟨a, r, hr⟩ ← baseKernel tokens
  let ⟨s, hs⟩ ← expect .plus r
  let ⟨b, u, hu⟩ ← baseKernel s
  let ⟨v, hv⟩ ← expect .closeBracket u
  if a ≠ .constant ∧ b ≠ .constant then throw (.needsConstant a b)
  return ((a, b), ⟨v, by omega⟩)

def change? : String → Option (Expression → Expression → Expression)
  | "cp" => some .changePoint
  | "cw" => some .changeWindow
  | _ => none

mutual

/-- `expression := item (+ atom)*` -/
def readExpression (tokens : List Token) : Reading Expression tokens := do
  let ⟨first, r, hr⟩ ← readItem tokens
  let ⟨e, s, hs⟩ ← readTerms first r
  return (e, ⟨s, by omega⟩)
termination_by 4 * tokens.length + 2

def readTerms (e : Expression) : (tokens : List Token) →
    Except ExpressionFault (Expression × { rest : List Token // rest.length ≤ tokens.length })
  | .plus :: ts => do
    let ⟨term, r, hr⟩ ← readAtom ts
    let ⟨total, s, hs⟩ ← readTerms (.add e term) r
    return (total, ⟨s, by simp only [List.length_cons]; omega⟩)
  | ts => return (e, ⟨ts, Nat.le_refl _⟩)
termination_by tokens => 4 * tokens.length

/-- `item := atom | ( expression ) * factor` -/
def readItem : (tokens : List Token) → Reading Expression tokens
  | .openBracket :: ts => do
    let ⟨left, r, hr⟩ ← readExpression ts
    let ⟨s, hs⟩ ← expect .closeBracket r
    let ⟨u, hu⟩ ← expect .star s
    let ⟨e, v, hv⟩ ← readFactor left u
    return (e, ⟨v, by simp only [List.length_cons]; omega⟩)
  | ts => readAtom ts
termination_by tokens => 4 * tokens.length + 1

/-- `factor := atom | ( kernel + kernel )` -/
def readFactor (left : Expression) : (tokens : List Token) → Reading Expression tokens
  | .openBracket :: ts => do
    let ⟨(a, b), r, hr⟩ ← laxFactor ts
    return (.laxMul left a b, ⟨r, by simp only [List.length_cons]; omega⟩)
  | ts => do
    let ⟨right, r⟩ ← readAtom ts
    return (.mul left right, r)
termination_by tokens => 4 * tokens.length + 1

/-- `atom := kernel | cp ( expression , expression ) | cw ( expression , expression )` -/
def readAtom : (tokens : List Token) → Reading Expression tokens
  | .name word :: .openBracket :: ts =>
    match change? word with
    | some change => do
      let ⟨a, r, hr⟩ ← readExpression ts
      let ⟨s, hs⟩ ← expect .comma r
      let ⟨b, u, hu⟩ ← readExpression s
      let ⟨v, hv⟩ ← expect .closeBracket u
      return (change a b, ⟨v, by simp only [List.length_cons]; omega⟩)
    | none => do
      let ⟨k, r⟩ ← baseKernel (.name word :: .openBracket :: ts)
      return (.kernel k, r)
  | ts => do
    let ⟨k, r⟩ ← baseKernel ts
    return (.kernel k, r)
termination_by tokens => 4 * tokens.length

end

def ofTokens (tokens : List Token) : Except ExpressionFault Expression := do
  let ⟨e, r, _⟩ ← readExpression tokens
  match r with
  | [] => return e
  | t :: _ => throw (.trailing t)

structure ParseError where
  fault : ExpressionFault
  input : String
  deriving DecidableEq

def ParseError.message (e : ParseError) : String := e.fault.message ++ " in `" ++ e.input ++ "`"

def parse (input : String) : Except ParseError Expression :=
  (Token.scan 0 input.toList >>= ofTokens).mapError (⟨·, input⟩)

end CovarianceSearch.Expression
