import Formula.Value

/-!
# Laws of elementwise application

The vectors among the operands either have one length or two of them differ. If they
have one length, the result is a vector of that length, made of one row of numbers for
each of its elements; without any vector it is one number.
-/

namespace Formula

namespace Value

def HasLength (n : Nat) : Value → Prop
  | scalar _ => True
  | vector xs => xs.length = n

theorem hasLength_scalar (n : Nat) (x : Float) : (scalar x).HasLength n := trivial

theorem HasLength.map {n : Nat} {v : Value} (h : v.HasLength n) (f : Float → Float) :
    (v.map f).HasLength n := by
  cases v with
  | scalar x => trivial
  | vector xs => exact (List.length_map f).trans h

theorem entry_map {n i : Nat} (hi : i < n) {v : Value} (h : v.HasLength n) (f : Float → Float) :
    (v.map f).entry i = f (v.entry i) := by
  cases v with
  | scalar x => rfl
  | vector xs =>
    obtain rfl : xs.length = n := h
    simp [map, entry, hi]

end Value

theorem commonLength_some {n : Nat} {operands : List Value} {r : Option Nat}
    (h : commonLength (some n) operands = .ok r) :
    r = some n ∧ ∀ v ∈ operands, v.HasLength n := by
  induction operands with
  | nil =>
    cases h
    exact ⟨rfl, fun v hv => by cases hv⟩
  | cons v rest ih =>
    cases v with
    | scalar x =>
      obtain ⟨hr, hrest⟩ := ih h
      exact ⟨hr, List.forall_mem_cons.mpr ⟨trivial, hrest⟩⟩
    | vector xs =>
      simp only [commonLength] at h
      split at h
      · rename_i hn
        obtain ⟨hr, hrest⟩ := ih h
        exact ⟨hr, List.forall_mem_cons.mpr ⟨hn.symm, hrest⟩⟩
      · cases h

theorem commonLength_none {operands : List Value} {r : Option Nat}
    (h : commonLength none operands = .ok r) :
    (r = none ∧ ∀ v ∈ operands, v.isVector = false) ∨
      ∃ n, r = some n ∧ ∀ v ∈ operands, v.HasLength n := by
  induction operands with
  | nil =>
    cases h
    exact .inl ⟨rfl, fun v hv => by cases hv⟩
  | cons v rest ih =>
    cases v with
    | scalar x =>
      rcases ih h with ⟨hr, hrest⟩ | ⟨n, hr, hrest⟩
      · exact .inl ⟨hr, List.forall_mem_cons.mpr ⟨rfl, hrest⟩⟩
      · exact .inr ⟨n, hr, List.forall_mem_cons.mpr ⟨trivial, hrest⟩⟩
    | vector xs =>
      obtain ⟨hr, hrest⟩ := commonLength_some h
      exact .inr ⟨xs.length, hr, List.forall_mem_cons.mpr ⟨rfl, hrest⟩⟩

theorem commonLength_of_hasLength {n : Nat} {operands : List Value}
    (h : ∀ v ∈ operands, v.HasLength n) :
    commonLength (some n) operands = .ok (some n) ∧
      commonLength none operands = .ok (if operands.any Value.isVector then some n else none) := by
  induction operands with
  | nil => exact ⟨rfl, rfl⟩
  | cons v rest ih =>
    obtain ⟨hv, hrest⟩ := List.forall_mem_cons.mp h
    obtain ⟨hs, hn⟩ := ih hrest
    cases v with
    | scalar x => exact ⟨hs, hn⟩
    | vector xs =>
      obtain rfl : xs.length = n := hv
      exact ⟨by simp only [commonLength, if_true, hs], hs⟩

theorem broadcast_of_hasLength {n : Nat} {operands : List Value}
    (h : ∀ v ∈ operands, v.HasLength n) (name : String) (offset : Nat) (f : List Float → Float) :
    broadcast name operands offset f =
      .ok (if operands.any Value.isVector then
        .vector ((List.range n).map fun i => f (row operands i)) else
        .scalar (f (row operands 0))) := by
  rw [broadcast, (commonLength_of_hasLength h).2]
  split <;> simp_all

theorem row_of_scalars {operands : List Value} (h : operands.any Value.isVector = false)
    (i j : Nat) : row operands i = row operands j := by
  refine List.map_congr_left fun v hv => ?_
  cases v with
  | scalar x => rfl
  | vector xs => exact absurd rfl (List.any_eq_false.mp h _ hv)

theorem BinaryOp.apply_eq_broadcast (tolerance : Float) (o : Nat) (b : BinaryOp) (x y : Value) :
    b.apply tolerance o x y = broadcast b.symbol [x, y] o (b.evalRow tolerance) := by
  cases x <;> cases y <;> rfl

end Formula
