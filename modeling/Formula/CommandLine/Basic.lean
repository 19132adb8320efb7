import Formula.External.Arguments

/-!
# The command line

The outcome of a call is a function of its arguments and of the file that they name.
-/

namespace Formula.CommandLine

inductive Outcome where
  | finished (r : Report)
  | refused (e : UsageError)
deriving DecidableEq

namespace Outcome

def output : Outcome → String
  | finished r => r.output
  | refused _ => ""

def errors : Outcome → String
  | finished r => r.errors
  | refused e => e.message ++ "\n"

def exitCode : Outcome → UInt32
  | finished r => if r.failed then 1 else 0
  | refused _ => 2

end Outcome

def Stop.outcome : Stop → Outcome
  | usage e => .refused e
  | help => .finished ⟨helpText, "", false⟩
  | version => .finished ⟨versionText, "", false⟩

def run (file? : String → Option ByteArray) (args : List String) : Outcome :=
  match readArguments args with
  | .error stop => stop.outcome
  | .ok s => .finished (s.report (file? s.contents))

def path? (args : List String) : Option String :=
  match readArguments args with
  | .error _ => none
  | .ok s => if s.isFile then some s.contents else none

/-- A call looks at no other file than the one that it reads. -/
theorem run_congr {file? file?' : String → Option ByteArray} {args : List String}
    (h : ∀ path ∈ path? args, file? path = file?' path) : run file? args = run file?' args := by
  unfold run
  unfold path? at h
  cases hr : readArguments args with
  | error stop => rfl
  | ok s =>
    rw [hr] at h
    dsimp only at h ⊢
    unfold Settings.report
    split
    · rename_i hf
      rw [h s.contents (by simp [hf])]
    · rfl

end Formula.CommandLine
