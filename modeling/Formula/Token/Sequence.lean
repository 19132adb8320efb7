import Formula.Error

/-!
# From a source to its tokens

A source is a row of lexemes with blanks between them. The lexeme at a place is
the longest piece of text of one of its kinds that stands there; a character that
begins none is a stray. No lexeme depends on its neighbours. A name begins with an ASCII
letter, an underscore or a dollar sign, and its later characters can also be digits.
-/

namespace Formula

inductive Mark where
  | plus
  | minus
  | star
  | doubleStar
  | slash
  | caret
  | equals
  | leftParen
  | rightParen
  | leftBracket
  | rightBracket
  | comma
deriving DecidableEq, Repr

inductive Lexeme where
  | numeral (n : Numeral)
  | name (cs : List Char)
  | mark (m : Mark)
  | stray (c : Char)
deriving DecidableEq, Repr

def Mark.text : Mark → List Char
  | plus => ['+']
  | minus => ['-']
  | star => ['*']
  | doubleStar => ['*', '*']
  | slash => ['/']
  | caret => ['^']
  | equals => ['=']
  | leftParen => ['(']
  | rightParen => [')']
  | leftBracket => ['[']
  | rightBracket => [']']
  | comma => [',']

def Mark.scan? : List Char → Option (Mark × List Char)
  | '+' :: cs => some (plus, cs)
  | '-' :: cs => some (minus, cs)
  | '*' :: '*' :: cs => some (doubleStar, cs)
  | '*' :: cs => some (star, cs)
  | '/' :: cs => some (slash, cs)
  | '^' :: cs => some (caret, cs)
  | '=' :: cs => some (equals, cs)
  | '(' :: cs => some (leftParen, cs)
  | ')' :: cs => some (rightParen, cs)
  | '[' :: cs => some (leftBracket, cs)
  | ']' :: cs => some (rightBracket, cs)
  | ',' :: cs => some (comma, cs)
  | _ => none

def startsName (c : Char) : Bool := c.isAlpha || c == '_' || c == '$'

def continuesName (c : Char) : Bool := c.isAlphanum || c == '_' || c == '$'

def isIdentifier (name : String) : Bool :=
  match name.toList with
  | [] => false
  | c :: cs => startsName c && cs.all continuesName

namespace Lexeme

def text : Lexeme → List Char
  | numeral n => n.text
  | name cs => cs
  | mark m => m.text
  | stray c => [c]

def scan (c : Char) (cs : List Char) : Lexeme × List Char :=
  if c.isDigit || c == '.' then
    let (n, rest) := Numeral.scan (c :: cs)
    (numeral n, rest)
  else if startsName c then
    (name (c :: cs.takeWhile continuesName), cs.dropWhile continuesName)
  else
    match Mark.scan? (c :: cs) with
    | some (m, rest) => (mark m, rest)
    | none => (stray c, cs)

theorem scan?_text {cs rest : List Char} {m : Mark} (h : Mark.scan? cs = some (m, rest)) :
    m.text ++ rest = cs := by
  unfold Mark.scan? at h
  split at h <;> simp_all [Mark.text]
  all_goals (obtain ⟨rfl, rfl⟩ := h; rfl)

theorem scan_text (c : Char) (cs : List Char) :
    (scan c cs).1.text ++ (scan c cs).2 = c :: cs := by
  unfold scan
  split
  · exact Numeral.scan_text (c :: cs)
  · split
    · simp [text]
    · split
      · exact scan?_text (by assumption)
      · rfl

theorem scan_text_ne_nil (c : Char) (cs : List Char) : (scan c cs).1.text ≠ [] := by
  unfold scan
  split
  · exact Numeral.scan_text_ne_nil cs (by assumption)
  · split
    · simp [text]
    · split
      · rename_i m rest hm
        cases m <;> simp [text, Mark.text]
      · simp [text]

theorem scan_length_le (c : Char) (cs : List Char) : (scan c cs).2.length ≤ cs.length := by
  have h := congrArg List.length (scan_text c cs)
  have := List.length_pos_iff.mpr (scan_text_ne_nil c cs)
  simp only [List.length_append, List.length_cons] at h
  omega

end Lexeme

structure PlacedLexeme where
  lexeme : Lexeme
  offset : Nat
deriving DecidableEq, Repr

def Lexeme.split (offset : Nat) : List Char → List PlacedLexeme
  | [] => []
  | c :: cs =>
    if Text.isBlank c then Lexeme.split (offset + c.utf8Size) cs
    else
      ⟨(Lexeme.scan c cs).1, offset⟩ ::
        Lexeme.split (offset + Text.byteLength (Lexeme.scan c cs).1.text) (Lexeme.scan c cs).2
termination_by cs => cs.length
decreasing_by
  · simp
  · have := Lexeme.scan_length_le c cs
    simp only [List.length_cons]
    omega

/-!
## Token sequences

Lexemes become tokens from left to right. What may come next depends on the token
before it, and behind the parenthesis of a call on the two tokens before it. The
first lexeme that is at fault is reported, and only for sequences without a fault
the question is asked whether they are complete.
-/

inductive Expected where
  | operand
  /-- Behind the opening parenthesis of a call, which can be closed at once. -/
  | argument
  | operator
  | operatorOrCall
deriving DecidableEq, Repr

namespace Expected

def afterOperand : Expected → Bool
  | operand | argument => false
  | operator | operatorOrCall => true

def admits : Expected → Token.Kind → Bool
  | argument, .closing .paren | operatorOrCall, .opening .paren => true
  | operand, k | argument, k => k.beginsOperand
  | operator, k | operatorOrCall, k => k.followsOperand

def next (before : Expected) : Token.Kind → Expected
  | .number _ | .closing _ => operator
  | .identifier _ => operatorOrCall
  | .opening .paren => if before = operatorOrCall then argument else operand
  | .opening .bracket | .sign _ | .binary _ | .comma => operand

end Expected

def Mark.kind (afterOperand : Bool) : Mark → Token.Kind
  | plus => if afterOperand then .binary .add else .sign .plus
  | minus => if afterOperand then .binary .sub else .sign .minus
  | star => .binary .mul
  | doubleStar | caret => .binary .pow
  | slash => .binary .div
  | equals => .binary .equal
  | leftParen => .opening .paren
  | rightParen => .closing .paren
  | leftBracket => .opening .bracket
  | rightBracket => .closing .bracket
  | comma => .comma

namespace Token

def Kind.ofLexeme (allowed : List String) (afterOperand : Bool) : Lexeme → Except ParseFault Kind
  | .numeral n =>
    if n.wellFormed then .ok (.number n.value)
    else .error (.malformedNumber (String.ofList n.text))
  | .name cs =>
    if String.ofList cs ∈ allowed then .ok (.identifier (String.ofList cs))
    else .error (.unknownIdentifier (String.ofList cs))
  | .mark m => .ok (m.kind afterOperand)
  | .stray c => .error (.unexpectedCharacter c)

def Kind.ofNext (allowed : List String) (expected : Expected) (l : Lexeme) :
    Except ParseFault Kind :=
  match Kind.ofLexeme allowed expected.afterOperand l with
  | .error fault => .error fault
  | .ok kind => if expected.admits kind then .ok kind else .error (.unexpectedToken kind)

def ofLexemes (allowed : List String) :
    Expected → List PlacedLexeme → Except ParseError (List Token)
  | _, [] => .ok []
  | expected, l :: rest =>
    match Kind.ofNext allowed expected l.lexeme with
    | .error fault => .error ⟨fault, l.offset⟩
    | .ok kind => (ofLexemes allowed (expected.next kind) rest).map (⟨kind, l.offset⟩ :: ·)

def checkEnd (sourceLength : Nat) (tokens : List Token) : Except ParseError (List Token) :=
  match tokens.getLast? with
  | none => .error ⟨.emptyExpression, sourceLength⟩
  | some last =>
    if last.kind.endsOperand then .ok tokens else .error ⟨.unexpectedEnd last.kind, last.offset⟩

end Token

def tokenize (source : String) (allowed : List String) : Except ParseError (List Token) :=
  match Token.ofLexemes allowed .operand (Lexeme.split 0 source.toList) with
  | .error e => .error e
  | .ok tokens => Token.checkEnd (Text.byteLength source.toList) tokens

end Formula
