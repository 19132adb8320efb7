import Formula.Value

/-!
# Environments

The names that an expression may use and the tolerance of its comparisons. A name is
bound in a finite map, in increasing order of code points, and writing it again replaces
what it was bound to. It can be bound as a variable and as a function at once; the
variable is then seen.
-/

namespace Formula

structure Bindings (α : Type) where
  entries : List (String × α) := []

namespace Bindings

variable {α : Type}

def lookup? (name : String) : List (String × α) → Option α
  | [] => none
  | e :: rest => if name = e.1 then some e.2 else lookup? name rest

def find? (b : Bindings α) (name : String) : Option α := lookup? name b.entries

def place (name : String) (a : α) : List (String × α) → List (String × α)
  | [] => [(name, a)]
  | e :: rest =>
    if name < e.1 then (name, a) :: e :: rest
    else if name = e.1 then (name, a) :: rest
    else e :: place name a rest

def insert (b : Bindings α) (name : String) (a : α) : Bindings α := ⟨place name a b.entries⟩

def insertAll (b : Bindings α) (entries : List (String × α)) : Bindings α :=
  entries.foldl (fun b e => b.insert e.1 e.2) b

def names (b : Bindings α) : List String := b.entries.map Prod.fst

theorem lookup?_place (name other : String) (a : α) (entries : List (String × α)) :
    lookup? other (place name a entries) =
      if other = name then some a else lookup? other entries := by
  induction entries with
  | nil => simp [place, lookup?]
  | cons e rest ih =>
    simp only [place]
    split
    · simp [lookup?]
    · split
      · rename_i hk
        simp only [lookup?, ← hk]
        split <;> rfl
      · rename_i hk
        simp only [lookup?, ih]
        by_cases h : other = e.1
        · simp [h, Ne.symm hk]
        · simp [h]

@[simp] theorem find?_insert (b : Bindings α) (name other : String) (a : α) :
    (b.insert name a).find? other = if other = name then some a else b.find? other :=
  lookup?_place name other a b.entries

theorem mem_names_iff (b : Bindings α) (name : String) :
    name ∈ b.names ↔ (b.find? name).isSome := by
  obtain ⟨entries⟩ := b
  simp only [names, find?]
  induction entries with
  | nil => simp [lookup?]
  | cons e rest ih =>
    by_cases h : name = e.1
    · simp [lookup?, h]
    · simp only [List.map_cons, List.mem_cons, h, false_or, lookup?, if_false, ih]

end Bindings

structure Environment where
  values : Bindings Value
  functions : Bindings Function
  tolerance : Float

namespace Environment

def empty : Environment := ⟨⟨[]⟩, ⟨[]⟩, 1e-8⟩

instance : EmptyCollection Environment := ⟨empty⟩

def withVariable (env : Environment) (name : String) (v : Value) : Environment :=
  { env with values := env.values.insert name v }

def withFunction (env : Environment) (name : String) (f : Function) : Environment :=
  { env with functions := env.functions.insert name f }

def withBuiltins (env : Environment) : Environment :=
  { env with functions := env.functions.insertAll builtins }

def withTolerance (env : Environment) (tolerance : Float) : Environment :=
  { env with tolerance }

def valueOf? (env : Environment) (name : String) : Option Value := env.values.find? name

def functionOf? (env : Environment) (name : String) : Option Function := env.functions.find? name

def identifiers (env : Environment) : List String :=
  List.merge env.values.names (env.functions.names.filter (· ∉ env.values.names))
    (fun a b => decide (a ≤ b))

theorem mem_identifiers_iff (env : Environment) (name : String) :
    name ∈ env.identifiers ↔ (env.valueOf? name).isSome ∨ (env.functionOf? name).isSome := by
  simp only [identifiers, List.mem_merge, List.mem_filter, decide_eq_true_eq,
    Bindings.mem_names_iff, valueOf?, functionOf?]
  by_cases h : (env.values.find? name).isSome <;> simp [h]

end Environment
end Formula
