import Formula.Stacks.Step
import Formula.Token.Sequence

/-!
# Sources and scripts

A source is split into tokens, which may use the names that are bound, and the tokens are
evaluated; where a name ends in the source is an offset in it, so nothing has to be cut to
a word here. A script has one expression a line, and lines of blanks are passed over.
Values are printed and errors are shown with the place in their line. An error does not
keep the lines behind it from being evaluated.
-/

namespace Formula

def evaluate (source : String) (env : Environment) : Except Error Value :=
  match tokenize source env.identifiers with
  | .error e => .error (.parse e)
  | .ok tokens => (traceTokens tokens env).result.mapError .eval

def innerEvents (source : String) (env : Environment) : List Event :=
  match tokenize source env.identifiers with
  | .error _ => []
  | .ok tokens => (traceTokens tokens env).events

def evaluationLog (source : String) (env : Environment) : List Event :=
  .evaluating source :: innerEvents source env ++
    match evaluate source env with
    | .error e => [.failed source e]
    | .ok _ => []

structure Report where
  output : String
  errors : String
  failed : Bool
deriving DecidableEq, Repr

namespace Report

def empty : Report := ⟨"", "", false⟩

def append (a b : Report) : Report :=
  ⟨a.output ++ b.output, a.errors ++ b.errors, a.failed || b.failed⟩

def concat (rs : List Report) : Report := rs.foldr append empty

def ofExpression (env : Environment) (source : String) : Report :=
  match evaluate source env with
  | .ok v => ⟨v.text ++ "\n", "", false⟩
  | .error e => ⟨"", e.render source ++ "\n", true⟩

end Report

def scriptLines (script : String) : List String :=
  ((Text.lines script.toList).filter fun line => !line.all Text.isBlank).map String.ofList

def Report.ofScript (env : Environment) (script : String) : Report :=
  .concat ((scriptLines script).map (.ofExpression env))

end Formula
