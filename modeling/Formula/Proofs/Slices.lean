import Mathlib.Data.List.Basic
import Formula.Proofs.Elementwise
import Formula.Proofs.Stacks.Absorb

/-!
# Slices of an evaluation

When all vectors that a formula names have one length and all its functions work
elementwise, its evaluation is the evaluations of its slices put together: the slice
with number `i` sees the `i`-th element of every vector and ends with the `i`-th element
of the result, or all of them end with the same error. The runs are compared part by
part, on whole values and on every slice at once.
-/

namespace Formula

open State Traced

namespace Value

def slice (i : Nat) (v : Value) : Value := scalar (v.entry i)

theorem any_isVector_slice (i : Nat) (vs : List Value) :
    (vs.map (slice i)).any isVector = false := by
  simp [slice, isVector]

theorem row_slice (i j : Nat) (vs : List Value) : row (vs.map (slice i)) j = row vs i := by
  simp [row, slice, entry]

end Value

def Function.IsElementwise (f : Function) : Prop := ∃ g, f.body = .scalar g

def EvalFault.isShapeMismatch : EvalFault → Bool
  | .shapeMismatch _ _ _ => true
  | _ => false

def Token.names (ts : List Token) : List String :=
  ts.filterMap fun t => match t.kind with
    | .identifier n => some n
    | _ => none

namespace Environment

def slice (env : Environment) (names : List String) (i : Nat) : Environment :=
  { env with values := ⟨env.values.entries.map fun e =>
      if e.1 ∈ names then (e.1, e.2.slice i) else e⟩ }

theorem valueOf?_slice (env : Environment) {names : List String} {name : String}
    (h : name ∈ names) (i : Nat) :
    (env.slice names i).valueOf? name = (env.valueOf? name).map (Value.slice i) := by
  obtain ⟨⟨entries⟩, functions, tolerance⟩ := env
  simp only [valueOf?, slice, Bindings.find?]
  induction entries with
  | nil => rfl
  | cons e rest ih =>
    simp only [List.map_cons, Bindings.lookup?, ih]
    by_cases he : name = e.1
    · subst he
      simp [h]
    · split <;> simp

theorem functionOf?_slice (env : Environment) (names : List String) (i : Nat) (name : String) :
    (env.slice names i).functionOf? name = env.functionOf? name := rfl

/-- The variables with some names are scalars or vectors of one length, and the functions that are
seen under these names work elementwise. -/
structure Fits (env : Environment) (n : Nat) (names : List String) : Prop where
  values : ∀ name ∈ names, ∀ v, env.valueOf? name = some v → v.HasLength n
  functions : ∀ name ∈ names, ∀ f, env.valueOf? name = none → env.functionOf? name = some f →
    f.IsElementwise

end Environment

variable {n : Nat}

/-- A part of a run on whole values and the same part on every slice: there is no mismatch of
shapes, a result meets a postcondition, and each slice has its share of the result, or the error. -/
structure Traced.Sliced {α : Type} (n : Nat) (t : Traced α) (ti : Nat → Traced α)
    (share : Nat → α → α) (post : α → Prop) : Prop
    extends t.Ends (fun e => e.fault.isShapeMismatch = false) post where
  slice : ∀ i < n, (ti i).result = t.result.map (share i)

namespace Traced

variable {α β : Type} {share : Nat → α → α} {post : α → Prop}

theorem sliced_pure {a : α} {ai : Nat → α} (h : post a) (hi : ∀ i, ai i = share i a) :
    Sliced n (pure a : Traced α) (fun i => pure (ai i)) share post :=
  ⟨ends_pure h, fun i _ => congrArg Except.ok (hi i)⟩

theorem sliced_fail {fault : EvalFault} (h : fault.isShapeMismatch = false) (offset : Nat) :
    Sliced n (fail fault offset : Traced α) (fun _ => fail fault offset) share post :=
  ⟨ends_fail h, fun _ _ => rfl⟩

theorem Sliced.bind {t : Traced α} {ti : Nat → Traced α} (ht : Sliced n t ti share post)
    {f : α → Traced β} {fi : Nat → α → Traced β} {share' : Nat → β → β} {post' : β → Prop}
    (hf : ∀ a, post a → Sliced n (f a) (fun i => fi i (share i a)) share' post') :
    Sliced n (t >>= f) (fun i => ti i >>= fi i) share' post' := by
  refine ⟨ht.toEnds.bind fun a ha => (hf a ha).toEnds, fun i hi => ?_⟩
  rw [bind_result, bind_result, ht.slice i hi]
  cases hr : t.result with
  | error e => rfl
  | ok a => exact (hf a (ht.result a hr)).slice i hi

theorem Sliced.of_result {t u : Traced α} {ti ui : Nat → Traced α} (h : u.result = t.result)
    (hi : ∀ i, (ui i).result = (ti i).result) (ht : Sliced n t ti share post) :
    Sliced n u ui share post := by
  refine ⟨⟨?_, ?_⟩, fun i hin => ?_⟩
  · rw [h]
    exact ht.fault
  · rw [h]
    exact ht.result
  · rw [h, hi]
    exact ht.slice i hin

end Traced

theorem Sign.act_sliced (s : Sign) (o : Nat) {v : Value} (h : v.HasLength n) :
    Sliced n (s.act o v) (fun i => s.act o (v.slice i)) Value.slice (Value.HasLength n) := by
  refine ⟨⟨fun e he => ?_, fun w hw => ?_⟩, fun i hi => ?_⟩
  · cases he
  · cases hw
    cases s with
    | plus => exact h
    | minus => exact h.map _
  · change Except.ok (s.apply (v.slice i)) = Except.ok ((s.apply v).slice i)
    cases s with
    | plus => rfl
    | minus =>
      rw [Sign.apply, Sign.apply, Value.slice, Value.slice, Value.entry_map hi h]
      rfl

theorem broadcast_sliced (name : String) {operands : List Value}
    (h : ∀ v ∈ operands, v.HasLength n) (o : Nat) (f : List Float → Float) :
    Sliced n (lift (broadcast name operands o f))
      (fun i => lift (broadcast name (operands.map (Value.slice i)) o f)) Value.slice
      (Value.HasLength n) := by
  have hb := broadcast_of_hasLength h name o f
  refine ⟨⟨fun e he => ?_, fun v hv => ?_⟩, fun i hi => ?_⟩
  · rw [lift, hb] at he
    cases he
  · rw [lift, hb] at hv
    cases hv
    split
    · simp [Value.HasLength]
    · trivial
  · have hs : ∀ v ∈ operands.map (Value.slice i), v.HasLength 0 := by
      intro v hv
      obtain ⟨w, _, rfl⟩ := List.mem_map.mp hv
      exact Value.hasLength_scalar 0 _
    simp only [lift, hb, broadcast_of_hasLength hs, Value.any_isVector_slice, Value.row_slice]
    cases hv : operands.any Value.isVector with
    | true => simp [Except.map, Value.slice, Value.entry, hi]
    | false =>
      rw [row_of_scalars hv 0 i]
      rfl

theorem BinaryOp.act_sliced (tolerance : Float) (b : BinaryOp) (o : Nat) {x y : Value}
    (hx : x.HasLength n) (hy : y.HasLength n) :
    Sliced n (b.act tolerance o x y) (fun i => b.act tolerance o (x.slice i) (y.slice i))
      Value.slice (Value.HasLength n) := by
  have hxy : ∀ v ∈ [x, y], v.HasLength n := by simp [hx, hy]
  have hr (x y : Value) :
      (b.act tolerance o x y).result = broadcast b.symbol [x, y] o (b.evalRow tolerance) := by
    rw [← BinaryOp.apply_eq_broadcast, BinaryOp.act, bind_result]
    change (b.apply tolerance o x y).bind _ = _
    cases b.apply tolerance o x y <;> rfl
  exact (broadcast_sliced b.symbol hxy o (b.evalRow tolerance)).of_result (hr x y)
    fun i => hr (x.slice i) (y.slice i)

theorem Function.act_sliced {f : Function} (hf : f.IsElementwise) (name : String) (o : Nat)
    {args : List Value} (h : ∀ v ∈ args, v.HasLength n) :
    Sliced n (f.act name o args) (fun i => f.act name o (args.map (Value.slice i))) Value.slice
      (Value.HasLength n) := by
  obtain ⟨arity, body⟩ := f
  obtain ⟨g, rfl⟩ : ∃ g, body = .scalar g := hf
  have hr (as : List Value) : ((⟨arity, .scalar g⟩ : Function).act name o as).result =
      if arity.admits as.length then broadcast name as o g
      else .error ⟨.wrongCount name arity as.length, o⟩ := rfl
  cases ha : arity.admits args.length with
  | true =>
    refine (broadcast_sliced name h o g).of_result ?_ fun i => ?_
    · rw [hr, if_pos ha]
      rfl
    · rw [hr, List.length_map, if_pos ha]
      rfl
  | false =>
    have hf : EvalFault.isShapeMismatch (.wrongCount name arity args.length) = false := rfl
    refine (sliced_fail hf o).of_result ?_ fun i => ?_
    · rw [hr, ha]
      rfl
    · rw [hr, List.length_map, ha]
      rfl

def Purpose.IsElementwise : Purpose → Prop
  | .group => True
  | .call _ f => f.IsElementwise
  | .vector => False

namespace Stacks

def slice (i : Nat) (s : Stacks) : Stacks := (s.1, s.2.map (Value.slice i))

structure Fits (n : Nat) (s : Stacks) : Prop where
  frames : ∀ f, .frame f ∈ s.1 → f.purpose.IsElementwise
  values : ∀ v ∈ s.2, v.HasLength n

variable {pending : List Pending} {values : List Value}

theorem Fits.push (h : Fits n (pending, values)) {v : Value} (hv : v.HasLength n) :
    Fits n (pending, v :: values) :=
  ⟨h.frames, List.forall_mem_cons.mpr ⟨hv, h.values⟩⟩

theorem Fits.operator (h : Fits n (pending, values)) (op : Operator) (o : Nat) :
    Fits n (.operator op o :: pending, values) := by
  refine ⟨fun f hf => ?_, h.values⟩
  cases hf with
  | tail _ hf => exact h.frames f hf

theorem Fits.frame (h : Fits n (pending, values)) {f : Frame} (hf : f.purpose.IsElementwise) :
    Fits n (.frame f :: pending, values) := by
  refine ⟨fun g hg => ?_, h.values⟩
  cases hg with
  | head => exact hf
  | tail _ hg => exact h.frames g hg

theorem Fits.below {p : Pending} (h : Fits n (p :: pending, values)) {values' : List Value}
    (hv : ∀ v ∈ values', v.HasLength n) : Fits n (pending, values') :=
  ⟨fun f hf => h.frames f (List.mem_cons_of_mem p hf), hv⟩

end Stacks

theorem sliced_push {t : Traced Value} {ti : Nat → Traced Value}
    (ht : Sliced n t ti Value.slice (Value.HasLength n)) {rest : List Value}
    (h : ∀ v ∈ rest, v.HasLength n) :
    Sliced n (t >>= fun w => pure (w :: rest))
      (fun i => ti i >>= fun w => pure (w :: rest.map (Value.slice i)))
      (fun i => List.map (Value.slice i)) (fun w => ∀ v ∈ w, v.HasLength n) :=
  ht.bind fun _ ha => sliced_pure (List.forall_mem_cons.mpr ⟨ha, h⟩) fun _ => rfl

theorem applyOperator_sliced (tolerance : Float) (op : Operator) (o : Nat) (below : List Pending)
    {values : List Value} (hv : ∀ v ∈ values, v.HasLength n) :
    Sliced n (applyOperator tolerance op o below values)
      (fun i => applyOperator tolerance op o below (values.map (Value.slice i)))
      (fun i => List.map (Value.slice i)) (fun w => ∀ v ∈ w, v.HasLength n) := by
  rcases operands_cases op below values with h | ⟨s, x, rest, rfl, rfl, h⟩ |
    ⟨b, y, x, rest, rfl, rfl, h⟩
  · have hf : EvalFault.isShapeMismatch (.missingOperands op) = false := rfl
    have hs (i : Nat) :
        (values.map (Value.slice i)).length - Pending.base below < op.arity := by
      rwa [List.length_map]
    simp only [applyOperator_lacking tolerance o h, applyOperator_lacking tolerance o (hs _)]
    exact sliced_fail hf o
  · obtain ⟨hx, hrest⟩ := List.forall_mem_cons.mp hv
    have hs (i : Nat) : Pending.base below ≤ (rest.map (Value.slice i)).length := by
      rwa [List.length_map]
    simp only [List.map_cons, applyOperator_sign _ _ _ _ h, applyOperator_sign _ _ _ _ (hs _)]
    exact sliced_push (s.act_sliced o hx) hrest
  · obtain ⟨hy, hv⟩ := List.forall_mem_cons.mp hv
    obtain ⟨hx, hrest⟩ := List.forall_mem_cons.mp hv
    have hs (i : Nat) : Pending.base below ≤ (rest.map (Value.slice i)).length := by
      rwa [List.length_map]
    simp only [List.map_cons, applyOperator_binary _ _ _ _ _ h,
      applyOperator_binary _ _ _ _ _ (hs _)]
    exact sliced_push (b.act_sliced tolerance o hx hy) hrest

theorem collect_sliced {f : Frame} (hf : f.purpose.IsElementwise) {values : List Value}
    (h : ∀ v ∈ values, v.HasLength n) :
    Sliced n (collect f values) (fun i => collect f (values.map (Value.slice i)))
      (fun i => List.map (Value.slice i)) (fun w => ∀ v ∈ w, v.HasLength n) := by
  obtain ⟨purpose, o, base⟩ := f
  cases purpose with
  | group => exact sliced_pure h fun _ => rfl
  | call name function =>
    have hargs : ∀ v ∈ (values.take (values.length - base)).reverse, v.HasLength n :=
      fun v hv => h v (List.mem_of_mem_take (List.mem_reverse.mp hv))
    have hrest : ∀ v ∈ values.drop (values.length - base), v.HasLength n :=
      fun v hv => h v (List.mem_of_mem_drop hv)
    simp only [collect, List.length_map, ← List.map_take, ← List.map_drop, ← List.map_reverse]
    exact sliced_push (Function.act_sliced hf name o hargs) hrest
  | vector => exact hf.elim

namespace Environment

variable {env : Environment} {names : List String}

theorem valueAt_sliced (he : env.Fits n names) {m : String} (hm : m ∈ names) (o : Nat) :
    Sliced n (env.valueAt m o) (fun i => (env.slice names i).valueAt m o) Value.slice
      (Value.HasLength n) := by
  simp only [valueAt, valueOf?_slice env hm, functionOf?_slice]
  cases hv : env.valueOf? m with
  | some v => exact sliced_pure (he.values m hm v hv) fun _ => rfl
  | none =>
    cases env.functionOf? m with
    | some f => exact sliced_fail rfl _
    | none => exact sliced_fail rfl o

theorem functionAt_sliced (he : env.Fits n names) {m : String} (hm : m ∈ names) (o : Nat) :
    Sliced n (env.functionAt m o) (fun i => (env.slice names i).functionAt m o) (fun _ f => f)
      Function.IsElementwise := by
  simp only [functionAt, valueOf?_slice env hm, functionOf?_slice]
  cases hv : env.valueOf? m with
  | some v => exact sliced_fail rfl o
  | none =>
    cases hf : env.functionOf? m with
    | some f => exact sliced_pure (he.functions m hm f hv hf) fun _ => rfl
    | none => exact sliced_fail rfl o

end Environment

variable {env : Environment} {names : List String}

theorem place_sliced (he : env.Fits n names) {t : Token} (ht : t.kind ≠ .opening .bracket)
    (hn : ∀ m, t.kind = .identifier m → m ∈ names) {pending : List Pending} {values : List Value}
    (hs : Stacks.Fits n (pending, values)) :
    Sliced n (place env t pending values)
      (fun i => place (env.slice names i) t pending (values.map (Value.slice i)))
      Stacks.slice (Stacks.Fits n) := by
  obtain ⟨k, o⟩ := t
  cases k with
  | number x => exact sliced_pure (hs.push (Value.hasLength_scalar n x)) fun _ => rfl
  | identifier m =>
    exact (Environment.valueAt_sliced he (hn m rfl) o).bind
      fun v hv => sliced_pure (hs.push hv) fun _ => rfl
  | sign s => exact sliced_pure (hs.operator (.sign s) o) fun _ => rfl
  | binary b => exact sliced_pure (hs.operator (.binary b) o) fun _ => rfl
  | opening d =>
    cases d with
    | paren =>
      simp only [place, List.length_map]
      have hg : Purpose.IsElementwise .group := trivial
      exact sliced_pure (hs.frame hg) fun _ => rfl
    | bracket => exact absurd rfl ht
  | closing d =>
    rcases pending with _ | ⟨op | f, below⟩
    · exact sliced_fail rfl o
    · exact sliced_fail rfl o
    · simp only [place]
      split
      · exact (collect_sliced (hs.frames f List.mem_cons_self) hs.values).bind
          fun w hw => sliced_pure (hs.below hw) fun _ => rfl
      · exact sliced_fail rfl o
  | comma =>
    rcases pending with _ | ⟨op | f, below⟩
    · exact sliced_fail rfl o
    · exact sliced_fail rfl o
    · simp only [place]
      split
      · exact sliced_pure hs fun _ => rfl
      · exact sliced_fail rfl o

theorem absorb_sliced (he : env.Fits n names) {t : Token} (ht : t.kind ≠ .opening .bracket)
    (hn : ∀ m, t.kind = .identifier m → m ∈ names) {pending : List Pending} {values : List Value}
    (hs : Stacks.Fits n (pending, values)) :
    Sliced n (absorb env t pending values)
      (fun i => absorb (env.slice names i) t pending (values.map (Value.slice i)))
      Stacks.slice (Stacks.Fits n) := by
  induction pending generalizing values with
  | nil => exact place_sliced he ht hn hs
  | cons p below ih =>
    cases p with
    | frame f => exact place_sliced he ht hn hs
    | operator top o =>
      simp only [absorb]
      split
      · exact (applyOperator_sliced env.tolerance top o below hs.values).bind
          fun w hw => ih (hs.below hw)
      · exact place_sliced he ht hn hs

theorem absorbAll_sliced (he : env.Fits n names) (ts : List Token)
    (ht : ∀ t ∈ ts, t.kind ≠ .opening .bracket) (hn : ∀ m ∈ Token.names ts, m ∈ names)
    {s : Stacks} (hs : s.Fits n) :
    Sliced n (absorbAll env ts s) (fun i => absorbAll (env.slice names i) ts (s.slice i))
      Stacks.slice (Stacks.Fits n) := by
  rcases tokens_cases ts with rfl | ⟨m, o, p, ts, rfl⟩ | ⟨t, ts, rfl, hc⟩
  · exact sliced_pure hs fun _ => rfl
  · simp only [absorbAll, Stacks.slice, List.length_map]
    refine (Environment.functionAt_sliced he (hn m (by simp [Token.names])) o).bind fun f hf => ?_
    refine absorbAll_sliced he ts ?_ ?_ (hs.frame hf)
    · exact fun t h => ht t (List.mem_cons_of_mem _ (List.mem_cons_of_mem _ h))
    · intro m' hm'
      exact hn m' (by simpa [Token.names] using Or.inr hm')
  · simp only [absorbAll_cons hc]
    obtain ⟨ht, hts⟩ := List.forall_mem_cons.mp ht
    refine (absorb_sliced he ht ?_ hs).bind fun s' hs' => absorbAll_sliced he ts hts ?_ hs'
    · intro m hm
      exact hn m (by simp [Token.names, hm])
    · intro m hm
      exact hn m (by
        simp only [Token.names, List.filterMap_cons]
        split
        · exact hm
        · exact List.mem_cons_of_mem _ hm)
termination_by ts.length

theorem acts_nil_sliced (env : Environment) (names : List String) (last : Nat)
    {pending : List Pending} {values : List Value}
    (hs : Stacks.Fits n (pending, values)) :
    Sliced n (acts env last (reading [] pending values))
      (fun i => acts (env.slice names i) last (reading [] pending (values.map (Value.slice i))))
      Value.slice (Value.HasLength n) := by
  induction pending generalizing values with
  | nil =>
    simp only [acts_nil]
    match values with
    | [] => exact sliced_fail rfl last
    | [v] => exact sliced_pure (hs.values v List.mem_cons_self) fun _ => rfl
    | v :: w :: vs =>
      have hf : EvalFault.isShapeMismatch (.leftoverValues (v :: w :: vs).length) = false := rfl
      refine (sliced_fail hf last).of_result rfl fun i => ?_
      have hl : ((v :: w :: vs).map (Value.slice i)).length = (v :: w :: vs).length :=
        List.length_map _
      exact congrArg (fun count => Except.error (⟨.leftoverValues count, last⟩ : EvalError)) hl
  | cons p below ih =>
    cases p with
    | frame f =>
      simp only [acts_nil_frame]
      exact sliced_fail rfl f.offset
    | operator top o =>
      have hc : Completes top [] := trivial
      simp only [acts_apply hc]
      exact (applyOperator_sliced env.tolerance top o below hs.values).bind
        fun w hw => ih (hs.below hw)

/-- Tokens without vector literals, in which every variable is a scalar or has one length and every
function works elementwise, are evaluated on all elements at once: lengths never mismatch, the
result is a scalar or has that length, and the evaluation on the `i`-th elements alone has the
`i`-th element of the result, or the same error. -/
theorem evaluateTokens_slice {ts : List Token} (ht : ∀ t ∈ ts, t.kind ≠ .opening .bracket)
    {n : Nat} {env : Environment} (he : env.Fits n (Token.names ts)) :
    (∀ e, evaluateTokens ts env = .error e →
      e.fault.isShapeMismatch = false ∧
        ∀ i < n, evaluateTokens ts (env.slice (Token.names ts) i) = .error e) ∧
    (∀ v, evaluateTokens ts env = .ok v →
      v.HasLength n ∧
        ∀ i < n, evaluateTokens ts (env.slice (Token.names ts) i) = .ok (.scalar (v.entry i))) := by
  have hs : Stacks.Fits n ([], []) := by
    refine ⟨fun f hf => ?_, fun v hv => ?_⟩
    · cases hf
    · cases hv
  have hrun : Sliced n
      (absorbAll env ts ([], []) >>= fun s => acts env (lastOffset ts) (reading [] s.1 s.2))
      (fun i => absorbAll (env.slice (Token.names ts) i) ts ([], []) >>= fun s =>
        acts (env.slice (Token.names ts) i) (lastOffset ts) (reading [] s.1 s.2))
      Value.slice (Value.HasLength n) :=
    (absorbAll_sliced he ts ht (fun _ h => h) hs).bind
      fun s hs => acts_nil_sliced env (Token.names ts) (lastOffset ts) hs
  simp only [← traceTokens_absorbAll] at hrun
  refine ⟨fun e h => ?_, fun v h => ?_⟩
  · obtain ⟨e', he', rfl⟩ := outcome_eq_error_iff.mp h
    refine ⟨?_, fun i hi => ?_⟩
    · rw [EvalError.inWord_fault]
      exact hrun.fault e' he'
    · refine outcome_eq_error_iff.mpr ⟨e', (hrun.slice i hi).trans ?_, rfl⟩
      rw [actions_result, he']
      rfl
  · have hv := outcome_eq_ok_iff.mp h
    refine ⟨hrun.result v hv, fun i hi => ?_⟩
    exact outcome_eq_ok_iff.mpr ((hrun.slice i hi).trans (by rw [actions_result, hv]; rfl))

theorem evaluateTokens_slice_difference :
    let env := ((Environment.empty.withVariable "x" (.vector [1, 2])).withVariable "y"
      (.scalar 3)).withFunction "half" (.unary (· / 2))
    let ts : List Token := [⟨.identifier "half", 0⟩, ⟨.opening .paren, 4⟩, ⟨.identifier "x", 5⟩,
      ⟨.closing .paren, 6⟩, ⟨.binary .sub, 7⟩, ⟨.identifier "y", 8⟩]
    evaluateTokens ts env = .ok (.vector [-2.5, -2]) ∧
      evaluateTokens ts (env.slice (Token.names ts) 1) = .ok (.scalar (-2)) := by
  intro env ts
  have ht : ∀ t ∈ ts, t.kind ≠ .opening .bracket := by decide
  have hnames : Token.names ts = ["half", "x", "y"] := rfl
  have hhalf : env.valueOf? "half" = none := by decide +kernel
  have hx : env.valueOf? "x" = some (.vector [1, 2]) := by decide +kernel
  have hy : env.valueOf? "y" = some (.scalar 3) := by decide +kernel
  have he : env.Fits 2 (Token.names ts) := by
    rw [hnames]
    refine ⟨fun name hn v hv => ?_, fun name hn f hv hf => ?_⟩
    · rcases List.mem_cons.mp hn with rfl | hn
      · rw [hhalf] at hv
        cases hv
      · rcases List.mem_cons.mp hn with rfl | hn
        · cases hx.symm.trans hv
          rfl
        · cases List.mem_singleton.mp hn
          cases hy.symm.trans hv
          trivial
    · rcases List.mem_cons.mp hn with rfl | hn
      · cases hf
        exact ⟨_, rfl⟩
      · rcases List.mem_cons.mp hn with rfl | hn
        · cases hx.symm.trans hv
        · cases List.mem_singleton.mp hn
          cases hy.symm.trans hv
  have h : evaluateTokens ts env = .ok (.vector [-2.5, -2]) := by decide +kernel
  exact ⟨h, ((evaluateTokens_slice ht he).2 _ h).2 1 (by decide)⟩

end Formula
