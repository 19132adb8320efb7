import Formula.Text.Basic
import Formula.Token.Basic

/-!
# Errors

An error has a cause and the byte offset at which it was found. The tokens of a source
can be at fault, or their evaluation. Offsets are words of 64 bits: the end of a name
behind the last word wraps around.
-/

namespace Formula

inductive Arity where
  | exactly (n : Nat)
  | atLeast (n : Nat)
deriving DecidableEq, Repr

namespace Arity

def admits : Arity → Nat → Bool
  | exactly n, count => count == n
  | atLeast n, count => n ≤ count

def text : Arity → String
  | exactly n => toString n
  | atLeast n => s!"at least {n}"

end Arity

inductive ParseFault where
  | unexpectedCharacter (found : Char)
  | malformedNumber (numeral : String)
  | unknownIdentifier (name : String)
  | unexpectedToken (found : Token.Kind)
  | unexpectedEnd (last : Token.Kind)
  | emptyExpression
deriving DecidableEq

inductive EvalFault where
  | unmatched (d : Delimiter)
  | mismatched (expected found : Delimiter)
  | unknownIdentifier (name : String)
  | notAFunction (name : String)
  | missingCall (name : String)
  | missingOperands (op : Operator)
  | noValue
  | leftoverValues (count : Nat)
  | wrongCount (name : String) (expected : Arity) (found : Nat)
  | misplacedComma
  | nestedVector
  | shapeMismatch (name : String) (left right : Nat)
  | invalidArgument (name : String) (details : String)
deriving DecidableEq

structure ParseError where
  fault : ParseFault
  offset : Nat
deriving DecidableEq

structure EvalError where
  fault : EvalFault
  offset : Nat
deriving DecidableEq

/-- Only a missing call is reported behind its token, at a sum that a word need not hold. -/
def EvalError.inWord (e : EvalError) : EvalError :=
  match e.fault with
  | .missingCall _ => { e with offset := e.offset % UInt64.size }
  | _ => e

inductive Error where
  | parse (e : ParseError)
  | eval (e : EvalError)
deriving DecidableEq

def ParseFault.text : ParseFault → String
  | unexpectedCharacter found => s!"Unexpected character '{found}'."
  | malformedNumber numeral => s!"Malformed number '{numeral}'."
  | unknownIdentifier name => s!"Unknown identifier '{name}'."
  | unexpectedToken found => s!"Unexpected {found.describe}."
  | unexpectedEnd last => s!"Unexpected end of expression after {last.describe}."
  | emptyExpression => "Empty expression."

def EvalFault.text : EvalFault → String
  | unmatched .paren => "Unmatched parenthesis."
  | unmatched .bracket => "Unmatched bracket."
  | mismatched expected found => s!"Expected '{expected.closer}' but found '{found.closer}'."
  | unknownIdentifier name => s!"Unknown identifier '{name}'."
  | notAFunction name => s!"'{name}' is not a function."
  | missingCall name => s!"Expected '(' after function '{name}'."
  | missingOperands op => s!"Not enough operands for '{op.symbol}'."
  | noValue => "Not enough operands for 'end of input'."
  | leftoverValues count => s!"Expression left {count} values instead of one."
  | wrongCount name expected found =>
    s!"Function '{name}' takes {expected.text} argument(s), but {found} were supplied."
  | misplacedComma => "',' is only allowed in argument lists and vectors."
  | nestedVector => "Vectors cannot contain vectors."
  | shapeMismatch name left right =>
    s!"Cannot apply '{name}' to vectors of lengths {left} and {right}."
  | invalidArgument name details => s!"Invalid argument to '{name}': {details}."

namespace Error

def offset : Error → Nat
  | parse e => e.offset
  | eval e => e.offset

def faultText : Error → String
  | parse e => e.fault.text
  | eval e => e.fault.text

def message (e : Error) : String := s!"Error at position {e.offset}: {e.faultText}"

def render (e : Error) (source : String) : String :=
  e.message ++ "\n\n" ++ Text.pointAt source e.offset

end Error
end Formula
