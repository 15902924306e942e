import CovarianceSearch.BaseKernel
import CovarianceSearch.Text

namespace CovarianceSearch

inductive Token where
  | name (word : String)
  | openBracket
  | closeBracket
  | plus
  | star
  | comma
  deriving DecidableEq

inductive ExpressionFault where
  | unexpectedCharacter (c : Char) (position : Nat)
  | expectedKernel (found : Option Token)
  | expected (token : Token) (found : Option Token)
  | unknownKernel (word : String)
  | needsConstant (a b : BaseKernel)
  | trailing (token : Token)
  deriving DecidableEq

namespace Token

def quoted : Token → String
  | .name word => s!"`{word}`"
  | .openBracket => "`(`"
  | .closeBracket => "`)`"
  | .plus => "`+`"
  | .star => "`*`"
  | .comma => "`,`"

def quotedOrEnd : Option Token → String
  | some token => token.quoted
  | none => "end of input"

def ofSign? : Char → Option Token
  | '(' => some .openBracket
  | ')' => some .closeBracket
  | '+' => some .plus
  | '*' => some .star
  | ',' => some .comma
  | _ => none

def isWord (c : Char) : Bool := c.isAlphanum || c = '_'

/-- Puts a character before the tokens of the text that follows it, into the name that this text
starts with if it starts with one. -/
def consWord (c : Char) (joins : Bool) : List Token → List Token
  | .name word :: tokens =>
    if joins then .name (String.singleton c ++ word) :: tokens
    else .name (String.singleton c) :: .name word :: tokens
  | tokens => .name (String.singleton c) :: tokens

/-- The tokens of a text. Names are as long as possible and blanks separate them. Positions count
bytes of UTF-8. -/
def scan (position : Nat) : List Char → Except ExpressionFault (List Token)
  | [] => .ok []
  | c :: cs =>
    if Text.isBlank c then scan (position + c.utf8Size) cs
    else match ofSign? c with
      | some token => (token :: ·) <$> scan (position + c.utf8Size) cs
      | none =>
        if isWord c then
          consWord c (cs.head?.any isWord) <$> scan (position + c.utf8Size) cs
        else .error (.unexpectedCharacter c position)

end Token

def ExpressionFault.message : ExpressionFault → String
  | .unexpectedCharacter c position =>
    "unexpected character `" ++ c.toString ++ "` at position " ++ toString position
  | .expectedKernel found => "expected a kernel, found " ++ Token.quotedOrEnd found
  | .expected token found => "expected " ++ token.quoted ++ ", found " ++ Token.quotedOrEnd found
  | .unknownKernel word => "unknown kernel `" ++ word ++ "`"
  | .needsConstant a b =>
    "lax product `(" ++ a.name ++ " + " ++ b.name ++ ")` needs a `constant` operand"
  | .trailing token => "unexpected trailing " ++ token.quoted

end CovarianceSearch
