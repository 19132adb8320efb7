import Mathlib.Data.List.Basic
import Formula.Proofs.Checked.Calls

/-!
# Elementwise application, row by row

The scan of the operands for a common length stops at the first vector that is not as long
as the first one. If it finds none, a row takes each scalar as it is and one element of
each vector, and the function is applied to the rows and to nothing else.
-/

namespace Formula

namespace Value

/-- The numbers of a row: from each value, in order, its number if it is a scalar and its element at
the place if it is a vector. -/
inductive RowAt (i : Nat) : List Value → List Float → Prop
  | nil : RowAt i [] []
  | scalar (x : Float) {vs : List Value} {r : List Float} :
      RowAt i vs r → RowAt i (.scalar x :: vs) (x :: r)
  | vector {xs : List Float} {x : Float} {vs : List Value} {r : List Float} :
      xs[i]? = some x → RowAt i vs r → RowAt i (.vector xs :: vs) (x :: r)

theorem rowAt_row {n i : Nat} (hi : i < n) {operands : List Value}
    (h : ∀ v ∈ operands, v.HasLength n) : RowAt i operands (row operands i) := by
  induction operands with
  | nil => exact .nil
  | cons v rest ih =>
    obtain ⟨hv, hrest⟩ := List.forall_mem_cons.mp h
    cases v with
    | scalar x => exact .scalar x (ih hrest)
    | vector xs => exact .vector (entry?_eq hi hv) (ih hrest)

theorem eq_map_scalar {operands : List Value} (h : ∀ v ∈ operands, v.isVector = false) :
    operands = (row operands 0).map scalar := by
  induction operands with
  | nil => rfl
  | cons v rest ih =>
    obtain ⟨hv, hrest⟩ := List.forall_mem_cons.mp h
    cases v with
    | scalar x => exact congrArg (scalar x :: ·) (ih hrest)
    | vector xs => cases hv

end Value

/-- The first vector among some values has the one length and the first later vector of another
length has the other. -/
def DifferFirst (operands : List Value) (left right : Nat) : Prop :=
  ∃ before xs between ys after,
    operands = before ++ .vector xs :: (between ++ .vector ys :: after) ∧
      (∀ v ∈ before, v.isVector = false) ∧ (∀ v ∈ between, v.HasLength left) ∧
      xs.length = left ∧ ys.length = right ∧ left ≠ right

theorem commonLength_some_error {n left right : Nat} {operands : List Value}
    (h : commonLength (some n) operands = .error (left, right)) :
    n = left ∧ ∃ between ys after, operands = between ++ .vector ys :: after ∧
      (∀ v ∈ between, v.HasLength left) ∧ ys.length = right ∧ left ≠ right := by
  induction operands with
  | nil => cases h
  | cons v rest ih =>
    cases v with
    | scalar x =>
      obtain ⟨hn, between, ys, after, rfl, hb, hy⟩ := ih h
      exact ⟨hn, .scalar x :: between, ys, after, rfl,
        List.forall_mem_cons.mpr ⟨Value.hasLength_scalar left x, hb⟩, hy⟩
    | vector xs =>
      simp only [commonLength] at h
      split at h
      · rename_i hx
        obtain ⟨hn, between, ys, after, rfl, hb, hy⟩ := ih h
        exact ⟨hn, .vector xs :: between, ys, after, rfl,
          List.forall_mem_cons.mpr ⟨hx.symm.trans hn, hb⟩, hy⟩
      · rename_i hx
        cases h
        exact ⟨rfl, [], xs, rest, rfl, List.forall_mem_nil _, rfl, hx⟩

theorem commonLength_none_error {left right : Nat} {operands : List Value}
    (h : commonLength none operands = .error (left, right)) : DifferFirst operands left right := by
  induction operands with
  | nil => cases h
  | cons v rest ih =>
    cases v with
    | scalar x =>
      obtain ⟨before, xs, between, ys, after, rfl, hb, hy⟩ := ih h
      exact ⟨.scalar x :: before, xs, between, ys, after, rfl,
        List.forall_mem_cons.mpr ⟨rfl, hb⟩, hy⟩
    | vector xs =>
      obtain ⟨hn, between, ys, after, rfl, hb, hy⟩ := commonLength_some_error h
      exact ⟨[], xs, between, ys, after, rfl, List.forall_mem_nil _, hb, hn, hy⟩

theorem exists_commonLength_error {operands : List Value} {xs ys : List Float}
    (hx : .vector xs ∈ operands) (hy : .vector ys ∈ operands) (hd : xs.length ≠ ys.length) :
    ∃ left right, commonLength none operands = .error (left, right) := by
  cases hc : commonLength none operands with
  | error lengths => exact ⟨lengths.1, lengths.2, rfl⟩
  | ok r =>
    rcases commonLength_none hc with ⟨-, hv⟩ | ⟨n, -, hv⟩
    · cases hv _ hx
    · exact absurd ((hv _ hx).trans (hv _ hy).symm) hd

theorem broadcast_congr {operands : List Value} {f g : List Float → Float}
    (h : ∀ xs, xs.length = operands.length → f xs = g xs) (name : String) (offset : Nat) :
    broadcast name operands offset f = broadcast name operands offset g := by
  have hrow (i : Nat) : f (row operands i) = g (row operands i) := h _ (List.length_map _)
  simp only [broadcast, hrow]

/-- Elementwise application fails at the first vector that is not as long as the first one, and then
the function is applied to nothing, so that it need not be defined anywhere. Without vectors it is
applied to the operands, and if all vectors have one length it is applied to the rows. The operators
are elementwise on two operands, two scalars included. -/
theorem broadcast_elementwise (name : String) (operands : List Value) (offset : Nat)
    (f : List Float → Float) :
    ((∃ xs ys, .vector xs ∈ operands ∧ .vector ys ∈ operands ∧ xs.length ≠ ys.length) →
      ∃ left right, DifferFirst operands left right ∧
        broadcast name operands offset f = .error ⟨.shapeMismatch name left right, offset⟩ ∧
        ∀ g : List Float → Option Float, Checked.broadcast name operands offset g =
          Checked.fail (.shapeMismatch name left right) offset) ∧
    ((∀ v ∈ operands, v.isVector = false) →
      ∃ xs, operands = xs.map .scalar ∧
        broadcast name operands offset f = .ok (.scalar (f xs))) ∧
    (∀ n, (∃ xs, .vector xs ∈ operands) → (∀ xs, .vector xs ∈ operands → xs.length = n) →
      ∃ ys, broadcast name operands offset f = .ok (.vector ys) ∧ ys.length = n ∧
        ∀ i < n, ∃ r, Value.RowAt i operands r ∧ ys[i]? = some (f r)) ∧
    ∀ (tolerance : Float) (b : BinaryOp), (∀ x y, f [x, y] = b.eval tolerance x y) →
      ∀ left right, b.apply tolerance offset left right =
        broadcast b.symbol [left, right] offset f := by
  refine ⟨?_, fun hv => ?_, fun n hx hn => ?_, fun tolerance b hf left right => ?_⟩
  · rintro ⟨xs, ys, hx, hy, hd⟩
    obtain ⟨left, right, hc⟩ := exists_commonLength_error hx hy hd
    refine ⟨left, right, commonLength_none_error hc, ?_, fun g => ?_⟩
    · rw [broadcast, hc]
    · rw [Checked.broadcast, hc]
  · refine ⟨row operands 0, Value.eq_map_scalar hv, ?_⟩
    have hl : ∀ v ∈ operands, v.HasLength 0 := by
      intro v hm
      cases v with
      | scalar x => trivial
      | vector xs => cases hv _ hm
    have ha : operands.any Value.isVector = false := by
      simpa only [List.any_eq_false, Bool.not_eq_true] using hv
    rw [broadcast_of_hasLength hl, ha]
    rfl
  · have hl : ∀ v ∈ operands, v.HasLength n := fun v hm => by
      cases v with
      | scalar x => trivial
      | vector xs => exact hn xs hm
    obtain ⟨xs, hm⟩ := hx
    have ha : operands.any Value.isVector = true := List.any_eq_true.mpr ⟨_, hm, rfl⟩
    refine ⟨(List.range n).map fun i => f (row operands i), ?_, ?_, fun i hi => ?_⟩
    · rw [broadcast_of_hasLength hl, ha]
      rfl
    · rw [List.length_map, List.length_range]
    · refine ⟨row operands i, Value.rowAt_row hi hl, ?_⟩
      simp only [List.getElem?_map, List.getElem?_range hi, Option.map_some]
  · rw [BinaryOp.apply_eq_broadcast]
    refine broadcast_congr (fun xs hx => ?_) b.symbol offset
    obtain ⟨x, y, rfl⟩ := List.length_eq_two.mp hx
    exact (hf x y).symm

/-- The first two vectors are empty; the lengths of the first and the third one are reported. -/
theorem broadcast_elementwise_lengths :
    let uneven : List Value := [.scalar 7, .vector [], .scalar 8, .vector [], .vector [1, 2],
      .vector [3]]
    let even : List Value := [.vector [1, 2], .scalar 3, .vector [4, 5]]
    let f : List Float → Float := fun xs => xs.foldl (· - ·) 10
    let sub : List Float → Float := BinaryOp.evalRow 0 .sub
    (∃ left right, DifferFirst uneven left right ∧
      broadcast "g" uneven 5 f = .error ⟨.shapeMismatch "g" left right, 5⟩ ∧
      ∀ g : List Float → Option Float, Checked.broadcast "g" uneven 5 g =
        Checked.fail (.shapeMismatch "g" left right) 5) ∧
    broadcast "g" uneven 5 f = .error ⟨.shapeMismatch "g" 0 2, 5⟩ ∧
    (∃ xs, [Value.scalar 7] = xs.map .scalar ∧
      broadcast "g" [.scalar 7] 5 f = .ok (.scalar (f xs))) ∧
    (∃ ys, broadcast "g" even 5 f = .ok (.vector ys) ∧ ys.length = 2 ∧
      ∀ i < 2, ∃ r, Value.RowAt i even r ∧ ys[i]? = some (f r)) ∧
    ∀ left right, BinaryOp.sub.apply 0 5 left right = broadcast "-" [left, right] 5 sub := by
  intro uneven even f sub
  have hu : (∃ xs ys, .vector xs ∈ uneven ∧ .vector ys ∈ uneven ∧ xs.length ≠ ys.length) :=
    ⟨[], [3], by simp [uneven], by simp [uneven], by simp⟩
  have he : ∀ xs, .vector xs ∈ even → xs.length = 2 := by simp [even]
  have hs : ∀ v ∈ [Value.scalar 7], v.isVector = false := by simp [Value.isVector]
  exact ⟨(broadcast_elementwise "g" uneven 5 f).1 hu, rfl,
    (broadcast_elementwise "g" [.scalar 7] 5 f).2.1 hs,
    (broadcast_elementwise "g" even 5 f).2.2.1 2 ⟨[1, 2], by simp [even]⟩ he,
    (broadcast_elementwise "g" even 5 sub).2.2.2 0 .sub fun _ _ => rfl⟩

end Formula
