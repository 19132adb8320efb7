import Mathlib.Data.List.DropRight
import Formula.Text.Basic

/-!
# The UTF-8 form of a text

A character is written as a byte that begins it and bytes that continue it. The ASCII
characters are their own bytes, and these bytes stand for nothing else. So line feeds and
carriage returns can be looked for among the bytes, and the bytes that begin a character
can be counted in the place of the characters.
-/

namespace Formula.Text

def utf8 (cs : List Char) : List UInt8 := cs.flatMap String.utf8EncodeChar

/-- The byte does not continue a character. -/
def beginsChar (b : UInt8) : Bool := b < 128 || 192 ≤ b

theorem toUTF8_eq (s : String) : s.toUTF8.data.toList = utf8 s.toList := by
  rw [String.toUTF8, ← String.utf8Encode_toList, List.utf8Encode, List.toList_data_toByteArray]
  rfl

theorem utf8_cons (c : Char) (cs : List Char) :
    utf8 (c :: cs) = String.utf8EncodeChar c ++ utf8 cs := rfl

@[simp] theorem utf8_append (a b : List Char) : utf8 (a ++ b) = utf8 a ++ utf8 b :=
  List.flatMap_append

theorem utf8_singleton (c : Char) : utf8 [c] = String.utf8EncodeChar c := List.flatMap_singleton _ _

@[simp] theorem length_utf8 (cs : List Char) : (utf8 cs).length = byteLength cs := by
  induction cs with
  | nil => rfl
  | cons c cs ih => rw [utf8_cons, List.length_append, String.length_utf8EncodeChar, ih]; rfl

theorem utf8EncodeChar_ascii {c : Char} (h : c.toNat < 128) :
    String.utf8EncodeChar c = [UInt8.ofNat c.toNat] := by
  have hv : c.val.toNat ≤ 127 := Nat.le_of_lt_succ h
  rw [String.utf8EncodeChar, if_pos hv]
  rfl

theorem utf8EncodeChar_wide {c : Char} (h : 128 ≤ c.toNat) :
    ∃ b bs, String.utf8EncodeChar c = b :: bs ∧ 192 ≤ b.toNat ∧
      ∀ d ∈ bs, 128 ≤ d.toNat ∧ d.toNat < 192 := by
  have hv : ¬ c.val.toNat ≤ 127 := Nat.not_le_of_lt h
  have tail (n : Nat) : 128 ≤ (UInt8.ofNat (n % 64 + 128)).toNat ∧
      (UInt8.ofNat (n % 64 + 128)).toNat < 192 := by
    rw [UInt8.toNat_ofNat']
    omega
  rw [String.utf8EncodeChar]
  simp only [if_neg hv]
  split
  · refine ⟨_, _, rfl, ?_, ?_⟩
    · rw [UInt8.toNat_ofNat']
      omega
    · simp only [List.forall_mem_cons]
      exact ⟨tail _, List.forall_mem_nil _⟩
  · split
    · refine ⟨_, _, rfl, ?_, ?_⟩
      · rw [UInt8.toNat_ofNat']
        omega
      · simp only [List.forall_mem_cons]
        exact ⟨tail _, tail _, List.forall_mem_nil _⟩
    · refine ⟨_, _, rfl, ?_, ?_⟩
      · rw [UInt8.toNat_ofNat']
        omega
      · simp only [List.forall_mem_cons]
        exact ⟨tail _, tail _, tail _, List.forall_mem_nil _⟩

theorem utf8EncodeChar_begins (c : Char) :
    ∃ b bs, String.utf8EncodeChar c = b :: bs ∧ beginsChar b = true ∧
      ∀ d ∈ bs, beginsChar d = false := by
  by_cases hc : c.toNat < 128
  · refine ⟨_, _, utf8EncodeChar_ascii hc, ?_, List.forall_mem_nil _⟩
    rw [beginsChar, Bool.or_eq_true]
    left
    rw [decide_eq_true_iff, UInt8.lt_iff_toNat_lt, UInt8.toNat_ofNat']
    change c.toNat % 256 < 128
    omega
  · obtain ⟨b, bs, he, hb, hbs⟩ := utf8EncodeChar_wide (Nat.le_of_not_lt hc)
    refine ⟨b, bs, he, ?_, fun d hd => ?_⟩
    · rw [beginsChar, Bool.or_eq_true]
      right
      rw [decide_eq_true_iff, UInt8.le_iff_toNat_le]
      exact hb
    · obtain ⟨hlow, hhigh⟩ := hbs d hd
      rw [beginsChar, Bool.or_eq_false_iff, decide_eq_false_iff_not, decide_eq_false_iff_not,
        UInt8.lt_iff_toNat_lt, UInt8.le_iff_toNat_le]
      exact ⟨Nat.not_lt.mpr hlow, Nat.not_le.mpr hhigh⟩

theorem mem_utf8EncodeChar {a c : Char} (ha : a.toNat < 128) :
    UInt8.ofNat a.toNat ∈ String.utf8EncodeChar c ↔ a = c := by
  have hbyte : (UInt8.ofNat a.toNat).toNat = a.toNat := by
    rw [UInt8.toNat_ofNat']
    omega
  by_cases hc : c.toNat < 128
  · rw [utf8EncodeChar_ascii hc, List.mem_singleton, ← UInt8.toNat_inj, hbyte,
      UInt8.toNat_ofNat', Nat.mod_eq_of_lt (by omega)]
    exact Char.toNat_inj
  · obtain ⟨b, bs, he, hb, hbs⟩ := utf8EncodeChar_wide (Nat.le_of_not_lt hc)
    refine iff_of_false (fun hm => ?_) fun h => hc (h ▸ ha)
    rw [he] at hm
    rcases List.mem_cons.mp hm with h | h
    · rw [← h, hbyte] at hb
      omega
    · have := (hbs _ h).1
      rw [hbyte] at this
      omega

theorem mem_utf8 {a : Char} {cs : List Char} (ha : a.toNat < 128) :
    UInt8.ofNat a.toNat ∈ utf8 cs ↔ a ∈ cs := by
  simp only [utf8, List.mem_flatMap, mem_utf8EncodeChar ha, exists_eq_right']

theorem countP_beginsChar_utf8 (cs : List Char) : (utf8 cs).countP beginsChar = cs.length := by
  induction cs with
  | nil => rfl
  | cons c cs ih =>
    obtain ⟨b, bs, he, hb, hbs⟩ := utf8EncodeChar_begins c
    have hzero : bs.countP beginsChar = 0 :=
      List.countP_eq_zero.mpr fun d hd => Bool.eq_false_iff.mp (hbs d hd)
    rw [utf8_cons, he, List.countP_append, List.countP_cons_of_pos hb, hzero, ih, List.length_cons,
      Nat.add_comm]

theorem rdropWhile_utf8 {a : Char} (ha : a.toNat < 128) (cs : List Char) :
    (utf8 cs).rdropWhile (· = UInt8.ofNat a.toNat) = utf8 (cs.rdropWhile (· = a)) := by
  induction cs using List.reverseRecOn with
  | nil => rfl
  | append_singleton cs c ih =>
    rw [List.rdropWhile_concat]
    by_cases hc : c = a
    · subst hc
      rw [utf8_append, utf8_singleton, utf8EncodeChar_ascii ha, List.rdropWhile_concat,
        if_pos (by simp), if_pos (by simp), ih]
    · -- the last byte of another character is another byte
      obtain ⟨b, bs, he, -, -⟩ := utf8EncodeChar_begins c
      rcases List.eq_nil_or_concat (String.utf8EncodeChar c) with hn | ⟨init, d, hd⟩
      · rw [he] at hn
        cases hn
      · rw [List.concat_eq_append] at hd
        have hne : d ≠ UInt8.ofNat a.toNat := by
          rintro rfl
          refine hc ((mem_utf8EncodeChar ha).mp ?_).symm
          rw [hd]
          exact List.mem_append_right init List.mem_cons_self
        rw [if_neg (by simpa using hc), utf8_append, utf8_singleton, hd, ← List.append_assoc,
          List.rdropWhile_concat, if_neg (by simpa using hne)]

end Formula.Text
