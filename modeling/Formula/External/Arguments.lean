import Formula.CommandLine.Settings

/-!
# Reading arguments

The program leaves its arguments to a library. This module stands in for that library, as
far as the program uses it, and for what it prints itself: usage errors, the help and the
version. It is kept apart from the rest of the program, and no theorem is about it beyond
the settings that it gives for some arguments.

Arguments are read from left to right. A value that follows its option as an argument of
its own is looked at only when the next known option or the contents are met, or at the
end, so that an unknown option behind it is reported first; a value that is attached to
its option is looked at at once. All arguments behind the first `--` are no options.

A message can repeat an argument with control characters in it, among them the escape
character that begins a control sequence. It is shown without them: a control character
is left out unless it is a tabulator, a line end or a page end, and a sequence is left out
up to the character that ends it, or up to the end of its part of the message. With a `[`
come the parameters of a function, up to its name. With a `]` comes a string, up to a
bell. With a `P` come the parameters of a device, up to its name, and then a string. With
an `X`, a `^` or a `_` comes a string. Any other character, perhaps behind some
punctuation, is a sequence by itself.
-/

namespace Formula

namespace Text

inductive ControlSequence where
  | outside
  | start
  | marked
  | function
  | device
  | deviceParameters
  | deviceMarked
  /-- In a string, which a bell or else the byte 9C ends. -/
  | string (bell : Bool)
  | paused (s : ControlSequence)
deriving DecidableEq, Repr

def isLayout (c : Char) : Bool :=
  c = '\t' || c = '\n' || c = '\x0c' || c = '\r'

namespace ControlSequence

/-- A line end, or another control character that is shown, pauses a sequence that is no string and
no device. -/
def shows (s : ControlSequence) (c : Char) : Bool :=
  match s with
  | outside | paused _ => isLayout c || (' ' ≤ c && c ≠ '\x7f')
  | start | marked | function => isLayout c
  | device | deviceParameters | deviceMarked | string _ => false

/-- Where the text stands after a character. An escape character begins a new sequence anywhere, and
two control characters cancel one. A paused sequence goes on behind the next control character that
is not shown, and is given up if a character beyond ASCII comes first. Parameters of a device out of
their order belong to its string. -/
def after (s : ControlSequence) (c : Char) : ControlSequence :=
  if c = '\x1b' then start
  else if c = '\x18' || c = '\x1a' then outside
  else
    match s with
    | outside => outside
    | start =>
      if isLayout c then paused start
      else if c = '[' then function
      else if c = ']' then string true
      else if c = 'P' then device
      else if c = 'X' || c = '^' || c = '_' then string false
      else if ' ' ≤ c && c ≤ '/' then marked
      else if '0' ≤ c && c ≤ '~' then outside
      else start
    | marked =>
      if isLayout c then paused marked
      else if '0' ≤ c && c ≤ '~' then outside
      else marked
    | function =>
      if isLayout c then paused function
      else if '@' ≤ c && c ≤ '~' then outside
      else function
    | device =>
      if ' ' ≤ c && c ≤ '/' then deviceMarked
      else if '0' ≤ c && c ≤ '?' then deviceParameters
      else if '@' ≤ c && c ≤ '~' then string false
      else device
    | deviceParameters =>
      if ' ' ≤ c && c ≤ '/' then deviceMarked
      else if '<' ≤ c && c ≤ '~' then string false
      else deviceParameters
    | deviceMarked => if '0' ≤ c && c ≤ '~' then string false else deviceMarked
    | string true => if c = '\x07' then outside else string true
    | string false => if (String.utf8EncodeChar c).contains 0x9C then outside else string false
    | paused s =>
      if !outside.shows c then s
      else if c ≤ '\x7f' then paused s
      else outside

def shown : ControlSequence → List Char → List Char
  | _, [] => []
  | s, c :: cs => if s.shows c then c :: (s.after c).shown cs else (s.after c).shown cs

end ControlSequence

def shown (cs : List Char) : List Char := ControlSequence.outside.shown cs

end Text

namespace CommandLine

inductive Opt where
  | file
  | var
  | noBuiltins
  | tolerance
  | help
  | version
deriving DecidableEq, Repr

namespace Opt

def all : List Opt := [file, var, noBuiltins, tolerance, help, version]

def long : Opt → String
  | file => "file"
  | var => "var"
  | noBuiltins => "no-builtins"
  | tolerance => "tolerance"
  | help => "help"
  | version => "version"

def letter? : Opt → Option Char
  | file => some 'f'
  | var => some 'v'
  | noBuiltins => none
  | tolerance => some 't'
  | help => some 'h'
  | version => some 'V'

def valueName? : Opt → Option String
  | var => some "NAME=VALUE"
  | tolerance => some "TOLERANCE"
  | file | noBuiltins | help | version => none

def ofLong? (name : String) : Option Opt := all.find? (·.long = name)

def ofLetter? (c : Char) : Option Opt := all.find? (·.letter? = some c)

def describe (o : Opt) : String :=
  "--" ++ o.long ++ o.valueName?.elim "" fun name => s!" <{name}>"

end Opt

inductive UsageError where
  | unexpectedArgument (argument : String)
  | repeated (o : Opt)
  | unexpectedValue (value : String) (o : Opt)
  | missingValue (o : Opt)
  | invalidValue (value : String) (o : Opt) (reason : String)
  | missingContents
deriving DecidableEq, Repr

def hint (words : String) : List String :=
  [words ++ "\n\nFor more information, try '", "--help", "'."]

def UsageError.parts : UsageError → List String
  | unexpectedArgument argument => "error: unexpected argument '" :: argument :: hint "' found"
  | repeated o => "error: the argument '" :: o.describe :: hint "' cannot be used multiple times"
  | unexpectedValue value o =>
    "error: unexpected value '" :: value :: "' for '" :: o.describe ::
      hint "' found; no more were expected"
  | missingValue o =>
    "error: a value is required for '" :: o.describe :: hint "' but none was supplied"
  | invalidValue value o reason =>
    "error: invalid value '" :: value :: "' for '" :: o.describe :: hint ("': " ++ reason)
  | missingContents =>
    "error: the following required arguments were not provided:\n  " :: "<CONTENTS>" :: hint ""

def UsageError.message (e : UsageError) : String :=
  String.ofList (e.parts.flatMap fun part => Text.shown part.toList)

def UsageError.headline (e : UsageError) : String :=
  String.ofList ((Text.lines e.message.toList).headD [])

def parseTolerance (s : String) : Except String Float :=
  match readFloat? s.toList with
  | some x => .ok x
  | none =>
    .error (if s.isEmpty then "cannot parse float from empty string" else "invalid float literal")

inductive Stop where
  | usage (e : UsageError)
  | help
  | version
deriving DecidableEq, Repr

structure Progress where
  isFile : Bool := false
  bindings : List (String × Value) := []
  noBuiltins : Bool := false
  tolerance : Option Float := none
  contents : Option String := none
  waiting : Option (Opt × Option String) := none

namespace Progress

def refuse {α : Type} (e : UsageError) : Except Stop α := .error (.usage e)

def accept (o : Opt) (value : String) (p : Progress) : Except Stop Progress :=
  match o with
  | .var =>
    match parseBinding value with
    | .ok b => .ok { p with bindings := p.bindings ++ [b] }
    | .error reason => refuse (.invalidValue value o reason)
  | .tolerance =>
    if p.tolerance.isSome then refuse (.repeated o)
    else
      match parseTolerance value with
      | .ok x => .ok { p with tolerance := some x }
      | .error reason => refuse (.invalidValue value o reason)
  | _ => refuse (.unexpectedValue value o)

def settle (p : Progress) : Except Stop Progress :=
  match p.waiting with
  | none => .ok p
  | some (o, none) => refuse (.missingValue o)
  | some (o, some value) => { p with waiting := none }.accept o value

def flag (o : Opt) (p : Progress) : Except Stop Progress := do
  let p ← p.settle
  match o with
  | .file => if p.isFile then refuse (.repeated o) else return { p with isFile := true }
  | .noBuiltins =>
    if p.noBuiltins then refuse (.repeated o) else return { p with noBuiltins := true }
  | .help => .error .help
  | .version => .error .version
  | .var | .tolerance => return { p with waiting := some (o, none) }

def attach (o : Opt) (value : String) (p : Progress) : Except Stop Progress :=
  if o.valueName?.isSome then do (← p.settle).accept o value
  else refuse (.unexpectedValue value o)

def letters : List Char → Progress → Except Stop Progress
  | [], p => .ok p
  | c :: rest, p =>
    match Opt.ofLetter? c with
    | none => refuse (.unexpectedArgument (String.ofList ['-', c]))
    | some o =>
      if o.valueName?.isNone then do letters rest (← p.flag o)
      else
        match rest with
        | [] => p.flag o
        | '=' :: value => p.attach o (String.ofList value)
        | value => p.attach o (String.ofList value)

def long (text : List Char) (p : Progress) : Except Stop Progress :=
  let (name, rest) := text.span (· ≠ '=')
  match Opt.ofLong? (String.ofList name), rest with
  | none, _ => refuse (.unexpectedArgument (String.ofList ('-' :: '-' :: name)))
  | some o, [] => p.flag o
  | some o, _ :: value => p.attach o (String.ofList value)

def positional (argument : String) (p : Progress) : Except Stop Progress :=
  if p.contents.isSome then refuse (.unexpectedArgument argument)
  else do return { ← p.settle with contents := some argument }

def argument (arg : String) (p : Progress) : Except Stop Progress :=
  match arg.toList, p.waiting with
  | '-' :: '-' :: text, _ => p.long text
  | '-' :: c :: rest, _ => p.letters (c :: rest)
  | _, some (o, none) => .ok { p with waiting := some (o, some arg) }
  | _, _ => p.positional arg

def settings (p : Progress) : Except Stop Settings := do
  let p ← p.settle
  match p.contents with
  | none => refuse .missingContents
  | some contents =>
    return ⟨p.isFile, p.bindings, !p.noBuiltins, p.tolerance.getD Environment.empty.tolerance,
      contents⟩

def readAll : List String → Progress → Except Stop Progress
  | [], p => .ok p
  | arg :: rest, p =>
    if arg = "--" then rest.foldlM (fun p arg => p.positional arg) p
    else do readAll rest (← p.argument arg)

end Progress

def versionText : String := "shunt 0.1.0\n"

/-- What is said about the program and its options where they are declared, one option a line. -/
def helpText : String :=
  "shunt evaluates arithmetic expressions with variables, functions and vectors\n\n" ++
  "Usage: shunt [OPTIONS] <CONTENTS>\n\n" ++
  "Arguments:\n" ++
  "  <CONTENTS>  \n\n" ++
  "Options:\n" ++
  "  -f, --file                   Tells shunt to read expressions from a file, one per line, " ++
  "instead of evaluating the argument itself\n" ++
  "  -v, --var <NAME=VALUE>       Binds a variable, e.g. `--var x=2` or `--var v=[1,2,3]`. " ++
  "The value may itself be an expression using builtins\n" ++
  "      --no-builtins            Leaves out the builtin functions such as `sqrt` and `atan2`\n" ++
  "  -t, --tolerance <TOLERANCE>  Threshold below which `=` treats two numbers as equal " ++
  "[default: 0.00000001]\n" ++
  "  -h, --help                   Print help\n" ++
  "  -V, --version                Print version\n"

def readArguments (args : List String) : Except Stop Settings := do
  (← Progress.readAll args {}).settings

end CommandLine
end Formula
