import Formula.Evaluate

/-!
# Settings

What a call of the program is told to do, and the report on it. A variable is bound by a
name, an equals sign and an expression, in which only builtin functions can be used; a
later binding of a name replaces an earlier one.
-/

namespace Formula.CommandLine

structure Settings where
  /-- The contents name a file with one expression a line. -/
  isFile : Bool
  bindings : List (String × Value)
  builtins : Bool
  tolerance : Float
  contents : String

def Settings.environment (s : Settings) : Environment :=
  let env := Environment.empty.withTolerance s.tolerance
  let env := if s.builtins then env.withBuiltins else env
  s.bindings.foldl (fun env b => env.withVariable b.1 b.2) env

def parseBinding (s : String) : Except String (String × Value) :=
  match s.toList.span (· ≠ '=') with
  | (_, []) => .error s!"expected NAME=VALUE, found '{s}'"
  | (before, _ :: source) =>
    let name := String.ofList (Text.trim before)
    if isIdentifier name then
      match evaluate (String.ofList source) Environment.empty.withBuiltins with
      | .ok v => .ok (name, v)
      | .error e => .error e.message
    else .error s!"'{name}' is not a valid variable name"

def unreadable (path : String) : Report :=
  ⟨"", s!"Failed to read the input file '{path}'. Perhaps this file does not exist?\n", true⟩

def Settings.report (s : Settings) (bytes : Option ByteArray) : Report :=
  if s.isFile then
    match bytes.bind String.fromUTF8? with
    | some script => .ofScript s.environment script
    | none => unreadable s.contents
  else .ofExpression s.environment s.contents

end Formula.CommandLine
