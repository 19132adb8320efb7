import Mathlib.Data.String.Basic
import Formula.Proofs.Agreement

/-!
# Building environments

An environment is built in steps, of which each binds a variable, registers one function or
all builtin ones, or sets the tolerance. What is found under a name is what the last step
gave to it, steps that write different things can be exchanged, and a name that some step
binds as a variable is called by no expression that has a value.
-/

namespace Formula

open State Traced

namespace Bindings

variable {α : Type} {m n : String} {e : String × α}

theorem place_lt (h : n < e.1) (a : α) (rest : List (String × α)) :
    place n a (e :: rest) = (n, a) :: e :: rest := if_pos h

theorem place_eq (h : n = e.1) (a : α) (rest : List (String × α)) :
    place n a (e :: rest) = (n, a) :: rest := by
  rw [place, if_neg h.not_lt, if_pos h]

theorem place_gt (h : e.1 < n) (a : α) (rest : List (String × α)) :
    place n a (e :: rest) = e :: place n a rest := by
  rw [place, if_neg h.not_gt, if_neg h.ne']

theorem place_comm (h : m ≠ n) (a c : α) (entries : List (String × α)) :
    place m a (place n c entries) = place n c (place m a entries) := by
  wlog hmn : m < n generalizing m n a c
  · exact (this h.symm c a (lt_of_le_of_ne (not_lt.mp hmn) h.symm)).symm
  induction entries with
  | nil =>
    exact (place_lt hmn a []).trans (place_gt (e := (m, a)) hmn c []).symm
  | cons e rest ih =>
    rcases lt_trichotomy m e.1 with hm | hm | hm
    · -- the lesser name comes in front, whatever happens to the other
      rw [place_lt hm, place_gt (e := (m, a)) hmn]
      rcases lt_trichotomy n e.1 with hn | hn | hn
      · rw [place_lt hn, place_lt (e := (n, c)) hmn]
      · rw [place_eq hn, place_lt (e := (n, c)) hmn]
      · rw [place_gt hn, place_lt hm]
    · rw [place_gt (hm ▸ hmn), place_eq hm, place_eq hm, place_gt (e := (m, a)) hmn]
    · rw [place_gt (hm.trans hmn), place_gt hm, place_gt hm, place_gt (hm.trans hmn), ih]

theorem insert_comm (h : m ≠ n) (a c : α) (b : Bindings α) :
    (b.insert m a).insert n c = (b.insert n c).insert m a :=
  congrArg Bindings.mk (place_comm h.symm c a b.entries)

theorem insertAll_insert {entries : List (String × α)} (h : n ∉ entries.map Prod.fst) (a : α)
    (b : Bindings α) : (b.insert n a).insertAll entries = (b.insertAll entries).insert n a := by
  induction entries generalizing b with
  | nil => rfl
  | cons e rest ih =>
    obtain ⟨hn, hrest⟩ := not_or.mp (mt List.mem_cons.mpr h)
    calc (b.insert n a).insertAll (e :: rest)
        = ((b.insert n a).insert e.1 e.2).insertAll rest := rfl
      _ = ((b.insert e.1 e.2).insert n a).insertAll rest := by rw [insert_comm hn]
      _ = (b.insertAll (e :: rest)).insert n a := ih hrest _

theorem lookup?_eq_none {entries : List (String × α)} (h : n ∉ entries.map Prod.fst) :
    lookup? n entries = none := by
  induction entries with
  | nil => rfl
  | cons e rest ih =>
    obtain ⟨hn, hrest⟩ := not_or.mp (mt List.mem_cons.mpr h)
    rw [lookup?, if_neg hn, ih hrest]

theorem find?_insertAll_of_nodup {entries : List (String × α)}
    (h : (entries.map Prod.fst).Nodup) (n : String) (b : Bindings α) :
    (b.insertAll entries).find? n = (lookup? n entries).or (b.find? n) := by
  induction entries generalizing b with
  | nil => rfl
  | cons e rest ih =>
    obtain ⟨he, hrest⟩ := List.nodup_cons.mp h
    have hi := ih hrest (b.insert e.1 e.2)
    rw [find?_insert] at hi
    rw [lookup?]
    refine Eq.trans hi ?_
    by_cases hn : n = e.1
    · rw [if_pos hn, if_pos hn, lookup?_eq_none (hn ▸ he)]
      rfl
    · rw [if_neg hn, if_neg hn]

end Bindings

namespace Environment

variable {m n : String}

theorem withVariable_comm (h : m ≠ n) (v w : Value) (env : Environment) :
    (env.withVariable m v).withVariable n w = (env.withVariable n w).withVariable m v :=
  congrArg (fun values => { env with values }) (Bindings.insert_comm h v w env.values)

theorem withFunction_comm (h : m ≠ n) (f g : Function) (env : Environment) :
    (env.withFunction m f).withFunction n g = (env.withFunction n g).withFunction m f :=
  congrArg (fun functions => { env with functions }) (Bindings.insert_comm h f g env.functions)

theorem withFunction_withBuiltins (h : n ∉ builtins.map Prod.fst) (f : Function)
    (env : Environment) :
    (env.withFunction n f).withBuiltins = env.withBuiltins.withFunction n f :=
  congrArg (fun functions => { env with functions }) (Bindings.insertAll_insert h f env.functions)

end Environment

inductive BuildStep where
  | withBuiltins
  | withVariable (name : String) (v : Value)
  | withFunction (name : String) (f : Function)
  | withTolerance (x : Float)

inductive Slot where
  | value (name : String)
  | function (name : String)
  | tolerance
deriving DecidableEq, Repr

namespace BuildStep

def apply (env : Environment) : BuildStep → Environment
  | withBuiltins => env.withBuiltins
  | withVariable n v => env.withVariable n v
  | withFunction n f => env.withFunction n f
  | withTolerance x => env.withTolerance x

def value? (name : String) : BuildStep → Option Value
  | withVariable n v => if name = n then some v else none
  | withBuiltins | withFunction _ _ | withTolerance _ => none

def function? (name : String) : BuildStep → Option Function
  | withFunction n f => if name = n then some f else none
  | withBuiltins => Bindings.lookup? name builtins
  | withVariable _ _ | withTolerance _ => none

def tolerance? : BuildStep → Option Float
  | withTolerance x => some x
  | withBuiltins | withVariable _ _ | withFunction _ _ => none

def writes : BuildStep → List Slot
  | withBuiltins => builtins.map fun e => .function e.1
  | withVariable n _ => [.value n]
  | withFunction n _ => [.function n]
  | withTolerance _ => [.tolerance]

theorem valueOf?_apply (env : Environment) (step : BuildStep) (n : String) :
    (step.apply env).valueOf? n = (step.value? n).or (env.valueOf? n) := by
  cases step with
  | withVariable m v =>
    refine (Bindings.find?_insert env.values m n v).trans ?_
    rw [value?]
    split <;> rfl
  | _ => rfl

theorem nodup_builtins : (builtins.map Prod.fst).Nodup := by decide

theorem functionOf?_apply (env : Environment) (step : BuildStep) (n : String) :
    (step.apply env).functionOf? n = (step.function? n).or (env.functionOf? n) := by
  cases step with
  | withBuiltins => exact Bindings.find?_insertAll_of_nodup nodup_builtins n env.functions
  | withFunction m f =>
    refine (Bindings.find?_insert env.functions m n f).trans ?_
    rw [function?]
    split <;> rfl
  | _ => rfl

theorem tolerance_apply (env : Environment) (step : BuildStep) :
    some (step.apply env).tolerance = step.tolerance?.or (some env.tolerance) := by
  cases step <;> rfl

theorem apply_comm {a b : BuildStep} (h : a.writes.Disjoint b.writes) (env : Environment) :
    b.apply (a.apply env) = a.apply (b.apply env) := by
  have head {s : Slot} {ss : List Slot} : s ∈ s :: ss := List.mem_cons_self
  have builtin {n : String} (hn : n ∈ builtins.map Prod.fst) :
      Slot.function n ∈ withBuiltins.writes := by
    obtain ⟨e, he, rfl⟩ := List.mem_map.mp hn
    exact List.mem_map.mpr ⟨e, he, rfl⟩
  cases a with
  | withBuiltins =>
    cases b with
    | withBuiltins => exact (h head head).elim
    | withFunction n f =>
      exact (Environment.withFunction_withBuiltins (fun hn => h (builtin hn) head) f env).symm
    | _ => rfl
  | withVariable m v =>
    cases b with
    | withVariable n w =>
      exact Environment.withVariable_comm (fun hmn => h (hmn ▸ head) head) v w env
    | _ => rfl
  | withFunction m f =>
    cases b with
    | withBuiltins =>
      exact Environment.withFunction_withBuiltins (fun hm => h head (builtin hm)) f env
    | withFunction n g =>
      exact Environment.withFunction_comm (fun hmn => h (hmn ▸ head) head) f g env
    | _ => rfl
  | withTolerance x =>
    cases b with
    | withTolerance y => exact (h head head).elim
    | _ => rfl

end BuildStep

def Environment.build (steps : List BuildStep) : Environment :=
  steps.foldl BuildStep.apply .empty

namespace Environment

variable {env : Environment}

theorem evaluateTokens_call_variable {n : String} (hn : (env.valueOf? n).isSome = true)
    (pre : List Token) (o p : Nat) (post : List Token) (w : Value) :
    evaluateTokens (pre ++ ⟨.identifier n, o⟩ :: ⟨.opening .paren, p⟩ :: post) env ≠ .ok w := by
  have hc : ∀ t ∈ pre.getLast?, ¬ t.Calls (⟨.identifier n, o⟩ :: ⟨.opening .paren, p⟩ :: post) := by
    rintro t - ⟨-, u, hu, hk⟩
    cases hu
    cases hk
  intro h
  rw [evaluateTokens, outcome_eq_ok_iff, ← actions_result, traceTokens_append hc] at h
  obtain ⟨s, -, h⟩ := bind_result_eq_ok_iff.mp h
  rw [acts_called] at h
  obtain ⟨f, hf, -⟩ := bind_result_eq_ok_iff.mp h
  obtain ⟨v, hv⟩ := Option.isSome_iff_exists.mp hn
  rw [functionAt, hv] at hf
  cases hf

/-- What is found behind some steps was given by the last one that gives anything. -/
theorem read_build {β : Type} (read : Environment → Option β) (write? : BuildStep → Option β)
    (h : ∀ env step, read (BuildStep.apply env step) = (write? step).or (read env))
    (steps : List BuildStep) (env : Environment) :
    read (steps.foldl BuildStep.apply env) =
      ((steps.filterMap write?).getLast?).or (read env) := by
  induction steps generalizing env with
  | nil => rfl
  | cons step steps ih =>
    rw [List.foldl_cons, ih, h, List.filterMap_cons]
    cases write? step with
    | none => rfl
    | some b =>
      rw [List.getLast?_cons]
      cases (steps.filterMap write?).getLast? <;> rfl

theorem valueOf?_build (steps : List BuildStep) (n : String) :
    (build steps).valueOf? n = (steps.filterMap (BuildStep.value? n)).getLast? :=
  (read_build (fun env => env.valueOf? n) (BuildStep.value? n)
    (fun env step => step.valueOf?_apply env n) steps .empty).trans Option.or_none

theorem functionOf?_build (steps : List BuildStep) (n : String) :
    (build steps).functionOf? n = (steps.filterMap (BuildStep.function? n)).getLast? :=
  (read_build (fun env => env.functionOf? n) (BuildStep.function? n)
    (fun env step => step.functionOf?_apply env n) steps .empty).trans Option.or_none

theorem tolerance_build (steps : List BuildStep) :
    (build steps).tolerance = ((steps.filterMap BuildStep.tolerance?).getLast?).getD 1e-8 := by
  have h := read_build (fun env => some env.tolerance) BuildStep.tolerance?
    BuildStep.tolerance_apply steps .empty
  rw [Option.or_some] at h
  exact Option.some.inj h

theorem build_exchange {a b : BuildStep} (h : a.writes.Disjoint b.writes)
    (pre post : List BuildStep) :
    build (pre ++ b :: a :: post) = build (pre ++ a :: b :: post) := by
  simp only [build, List.foldl_append, List.foldl_cons, BuildStep.apply_comm h]

theorem isSome_valueOf?_build {steps : List BuildStep} {n : String} {v : Value}
    (h : .withVariable n v ∈ steps) : ((build steps).valueOf? n).isSome = true := by
  have hv : BuildStep.value? n (.withVariable n v) = some v := if_pos rfl
  have hne : steps.filterMap (BuildStep.value? n) ≠ [] :=
    List.ne_nil_of_mem (List.mem_filterMap.mpr ⟨_, h, hv⟩)
  rw [valueOf?_build, List.getLast?_eq_some_getLast hne]
  rfl

/-- What an environment holds was written by the last step that writes it, and steps that write
different things can be exchanged. Once a name is bound as a variable, no source in which it is
called has a value. -/
theorem build_lastWrite (steps : List BuildStep) :
    (∀ n, (build steps).valueOf? n = (steps.filterMap (BuildStep.value? n)).getLast?) ∧
    (∀ n, (build steps).functionOf? n = (steps.filterMap (BuildStep.function? n)).getLast?) ∧
    (build steps).tolerance = ((steps.filterMap BuildStep.tolerance?).getLast?).getD 1e-8 ∧
    (∀ n, n ∈ (build steps).identifiers ↔
      ((build steps).valueOf? n).isSome ∨ ((build steps).functionOf? n).isSome) ∧
    (∀ pre a b post, steps = pre ++ a :: b :: post → a.writes.Disjoint b.writes →
      build (pre ++ b :: a :: post) = build steps) ∧
    ∀ n v, .withVariable n v ∈ steps → ∀ source ts pre o p post,
      tokenize source (build steps).identifiers = .ok ts →
      ts = pre ++ ⟨.identifier n, o⟩ :: ⟨.opening .paren, p⟩ :: post →
      ∀ w, evaluate source (build steps) ≠ .ok w := by
  refine ⟨valueOf?_build steps, functionOf?_build steps, tolerance_build steps,
    mem_identifiers_iff _, ?_, ?_⟩
  · intro pre a b post hsteps h
    rw [hsteps]
    exact build_exchange h pre post
  · intro n v hmem source ts pre o p post hts hcall w hw
    obtain ⟨us, hus, hr⟩ := evaluate_eq_ok hw
    obtain rfl : ts = us := Except.ok.inj (hts.symm.trans hus)
    have hn := isSome_valueOf?_build hmem
    rw [hcall] at hr
    exact evaluateTokens_call_variable hn pre o p post w (outcome_eq_ok_iff.mpr hr)

/-- The builtin functions replace those registered before them and are replaced by the one behind
them, which a variable of the same name keeps from being called. -/
theorem build_lastWrite_variable :
    let halve : Function := .unary fun x => x / 2
    let steps : List BuildStep := [.withFunction "sqrt" halve, .withFunction "abs" halve,
      .withBuiltins, .withVariable "abs" (.scalar 2), .withTolerance 0.5, .withFunction "abs" halve]
    (build steps).functionOf? "sqrt" = some (.unary Float.sqrt) ∧
      (build steps).functionOf? "abs" = some halve ∧
      (build steps).tolerance = 0.5 ∧
      build [.withFunction "sqrt" halve, .withFunction "abs" halve, .withVariable "abs" (.scalar 2),
        .withBuiltins, .withTolerance 0.5, .withFunction "abs" halve] = build steps ∧
      ∀ w, evaluate "1+abs(abs)" (build steps) ≠ .ok w := by
  intro halve steps
  obtain ⟨hvalues, hfunctions, htolerance, hnames, hexchange, hcall⟩ := build_lastWrite steps
  have habs : "abs" ∈ (build steps).identifiers := (hnames "abs").mpr (.inl (by rw [hvalues]; rfl))
  have hts : tokenize "1+abs(abs)" (build steps).identifiers =
      .ok ([⟨.number 1, 0⟩, ⟨.binary .add, 1⟩] ++ ⟨.identifier "abs", 2⟩ ::
        ⟨.opening .paren, 5⟩ :: [⟨.identifier "abs", 6⟩, ⟨.closing .paren, 9⟩]) := by
    have hspelled : ∀ n ∈ spelledNames "1+abs(abs)", n = "abs" := by decide +kernel
    have hsame : tokenize "1+abs(abs)" (build steps).identifiers = tokenize "1+abs(abs)" ["abs"] :=
      tokenize_congr fun n hn => by simp [hspelled n hn, habs]
    rw [hsame]
    decide +kernel
  have hdisjoint : BuildStep.withBuiltins.writes.Disjoint
      (BuildStep.writes (.withVariable "abs" (.scalar 2))) :=
    List.disjoint_singleton.mpr (by decide)
  have hmem : .withVariable "abs" (.scalar 2) ∈ steps := by simp [steps]
  exact ⟨hfunctions "sqrt", hfunctions "abs", htolerance,
    hexchange [_, _] _ _ [_, _] rfl hdisjoint, hcall "abs" _ hmem _ _ _ _ _ _ hts rfl⟩

end Environment

end Formula
