import Formula.Proofs.Text.Caret
import Formula.Proofs.Text.Utf8

/-!
# Pointing by byte offsets

The drawing of a caret can be made from the bytes of the source alone: the offset is moved
back to a boundary between characters, line feeds are looked for on both sides of it, and the
pieces between these places are cut out. A piece can be cut out at boundaries only. All places
that are found are boundaries, so every cut succeeds, and what is drawn is the same.
-/

namespace Formula.Text

variable {source : List Char}

def isCharBoundary (bs : List UInt8) (i : Nat) : Bool :=
  i == 0 || bs[i]?.elim (i == bs.length) beginsChar

/-- Back to a boundary; there is no offset before the first. -/
def stepBack (bs : List UInt8) : Nat → Option Nat
  | 0 => if isCharBoundary bs 0 then some 0 else none
  | i + 1 => if isCharBoundary bs (i + 1) then some (i + 1) else stepBack bs i

def slice (bs : List UInt8) (i j : Nat) : Option (List UInt8) :=
  if i ≤ j && isCharBoundary bs i && isCharBoundary bs j then some ((bs.take j).drop i) else none

def lastIdxOf? (b : UInt8) (bs : List UInt8) : Option Nat :=
  (bs.reverse.idxOf? b).map (bs.length - 1 - ·)

def drawBytes (bs : List UInt8) (offset : Nat) : Option (List UInt8) := do
  let o ← stepBack bs (min offset bs.length)
  let before ← slice bs 0 o
  let lineStart := (lastIdxOf? 0x0A before).elim 0 (· + 1)
  let after ← slice bs o bs.length
  let lineEnd := (after.idxOf? 0x0A).elim bs.length (o + ·)
  let line ← slice bs lineStart lineEnd
  let indent ← slice bs lineStart o
  let column := indent.countP beginsChar
  return line.rdropWhile (· = 0x0D) ++ utf8 ['\n'] ++ utf8 (List.replicate column ' ') ++
    utf8 ['▲', '\n'] ++ utf8 (List.replicate column '─') ++ utf8 ['╯']

theorem isCharBoundary_of_pos {bs : List UInt8} {i : Nat} (h : 0 < i) :
    isCharBoundary bs i = bs[i]?.elim (i == bs.length) beginsChar := by
  rw [isCharBoundary, beq_false_of_ne (Nat.ne_of_gt h), Bool.false_or]

theorem isCharBoundary_append (front bs : List UInt8) {i : Nat} (h : 0 < i) :
    isCharBoundary (front ++ bs) (front.length + i) = isCharBoundary bs i := by
  have hlen : (front.length + i == (front ++ bs).length) = (i == bs.length) := by
    rw [Bool.eq_iff_iff, beq_iff_eq, beq_iff_eq, List.length_append, Nat.add_left_cancel_iff]
  rw [isCharBoundary_of_pos h, isCharBoundary_of_pos (Nat.add_pos_right _ h), hlen,
    List.getElem?_append_right (Nat.le_add_right _ _), Nat.add_sub_cancel_left]

theorem IsBoundary.of_isCharBoundary {i : Nat} (h : isCharBoundary (utf8 source) i = true) :
    IsBoundary source i := by
  induction source generalizing i with
  | nil =>
    rcases Nat.eq_zero_or_pos i with rfl | hi
    · exact ⟨[], [], rfl, rfl⟩
    · rw [isCharBoundary_of_pos hi] at h
      exact ⟨[], [], rfl, (eq_of_beq h).symm⟩
  | cons c source ih =>
    obtain ⟨b, bs, he, -, hbs⟩ := utf8EncodeChar_begins c
    have hsize : (b :: bs).length = c.utf8Size := by rw [← he, String.length_utf8EncodeChar]
    rcases Nat.eq_zero_or_pos i with rfl | hi
    · exact ⟨[], c :: source, rfl, rfl⟩
    · rw [utf8_cons, he] at h
      rcases Nat.lt_or_ge i (b :: bs).length with hlt | hge
      · -- the bytes behind the first continue the character
        obtain ⟨j, rfl⟩ := Nat.exists_eq_add_one.mpr hi
        rw [isCharBoundary_of_pos hi, List.getElem?_append_left hlt, List.getElem?_cons_succ,
          List.getElem?_eq_getElem (Nat.lt_of_succ_lt_succ hlt)] at h
        exact absurd h (Bool.eq_false_iff.mp (hbs _ (List.getElem_mem _)))
      · obtain ⟨j, rfl⟩ := Nat.exists_eq_add_of_le hge
        have hj : isCharBoundary (utf8 source) j = true := by
          rcases Nat.eq_zero_or_pos j with rfl | hj
          · rfl
          · rwa [isCharBoundary_append _ _ hj] at h
        obtain ⟨before, after, rfl, rfl⟩ := ih hj
        exact ⟨c :: before, after, rfl, by rw [byteLength_cons, hsize]⟩

theorem isCharBoundary_utf8 {i : Nat} :
    isCharBoundary (utf8 source) i = true ↔ IsBoundary source i := by
  refine ⟨IsBoundary.of_isCharBoundary, ?_⟩
  rintro ⟨before, after, rfl, rfl⟩
  rcases Nat.eq_zero_or_pos (byteLength before) with h0 | hpos
  · rw [h0]
    rfl
  · rw [isCharBoundary_of_pos hpos, utf8_append, ← length_utf8,
      List.getElem?_append_right (Nat.le_refl _), Nat.sub_self]
    cases after with
    | nil => simp
    | cons c after =>
      obtain ⟨b, bs, he, hb, -⟩ := utf8EncodeChar_begins c
      rw [utf8_cons, he]
      exact hb

theorem stepBack_utf8 (source : List Char) (i : Nat) :
    ∃ o, stepBack (utf8 source) i = some o ∧ IsGreatest {b | IsBoundary source b ∧ b ≤ i} o := by
  induction i with
  | zero =>
    refine ⟨0, rfl, ⟨⟨[], source, rfl, rfl⟩, Nat.le_refl 0⟩, ?_⟩
    rintro b ⟨-, hb⟩
    exact hb
  | succ i ih =>
    by_cases hi : isCharBoundary (utf8 source) (i + 1) = true
    · refine ⟨i + 1, if_pos hi, ⟨isCharBoundary_utf8.mp hi, Nat.le_refl _⟩, ?_⟩
      rintro b ⟨-, hb⟩
      exact hb
    · obtain ⟨o, ho, ⟨hbound, hle⟩, hgreatest⟩ := ih
      refine ⟨o, (if_neg hi).trans ho, ⟨hbound, Nat.le_succ_of_le hle⟩, ?_⟩
      rintro b ⟨hb, hbi⟩
      -- the offset itself is no boundary
      have hne : b ≠ i + 1 := fun h => hi (isCharBoundary_utf8.mpr (h ▸ hb))
      exact hgreatest ⟨hb, by omega⟩

theorem stepBack_clampsTo {offset o : Nat} (h : ClampsTo source offset o) :
    stepBack (utf8 source) (min offset (byteLength source)) = some o := by
  obtain ⟨p, hp, hg⟩ := stepBack_utf8 source (min offset (byteLength source))
  rw [hp, h.unique hg]

theorem slice_utf8 {a b c : List Char} {i j : Nat} (hs : source = a ++ (b ++ c))
    (hi : byteLength a = i) (hj : byteLength (a ++ b) = j) :
    slice (utf8 source) i j = some (utf8 b) := by
  subst hs hi hj
  have ha : isCharBoundary (utf8 (a ++ (b ++ c))) (byteLength a) = true :=
    isCharBoundary_utf8.mpr ⟨a, b ++ c, rfl, rfl⟩
  have hb : isCharBoundary (utf8 (a ++ (b ++ c))) (byteLength (a ++ b)) = true :=
    isCharBoundary_utf8.mpr ⟨a ++ b, c, (List.append_assoc a b c).symm, rfl⟩
  have hle : byteLength a ≤ byteLength (a ++ b) := by
    rw [byteLength_append]
    exact Nat.le_add_right _ _
  rw [slice, if_pos (by rw [ha, hb, decide_eq_true hle]; rfl), ← List.append_assoc, utf8_append,
    List.take_left' (length_utf8 _), utf8_append, List.drop_left' (length_utf8 _)]

theorem idxOf?_behind {b : UInt8} {front : List UInt8} (h : b ∉ front) (bs : List UInt8) :
    (front ++ b :: bs).idxOf? b = some front.length := by
  rw [List.idxOf?, List.findIdx?_append, List.findIdx?_eq_none_iff.mpr, List.findIdx?_cons,
    if_pos (beq_self_eq_true b), Option.none_or, Option.map_some, Nat.zero_add]
  exact fun c hc => beq_false_of_ne fun he => h (he ▸ hc)

theorem feed_notMem_utf8 {cs : List Char} (h : '\n' ∉ cs) : 0x0A ∉ utf8 cs :=
  fun hm => h ((mem_utf8 (a := '\n') (by decide)).mp hm)

theorem lastIdxOf?_utf8 {above start : List Char} (ha : ∀ c ∈ above.getLast?, c = '\n')
    (hs : '\n' ∉ start) :
    (lastIdxOf? 0x0A (utf8 (above ++ start))).elim 0 (· + 1) = byteLength above := by
  have hrev : 0x0A ∉ (utf8 start).reverse := fun h => feed_notMem_utf8 hs (List.mem_reverse.mp h)
  rcases List.eq_nil_or_concat above with rfl | ⟨above, c, rfl⟩
  · rw [lastIdxOf?, List.nil_append, List.idxOf?_eq_none_iff.mpr hrev]
    rfl
  · rw [List.concat_eq_append] at ha ⊢
    obtain rfl : c = '\n' := ha c (by simp)
    have hr : (utf8 (above ++ ['\n'] ++ start)).reverse =
        (utf8 start).reverse ++ 0x0A :: (utf8 above).reverse := by
      rw [utf8_append, utf8_append, List.reverse_append, List.reverse_append]
      rfl
    rw [lastIdxOf?, hr, idxOf?_behind hrev, Option.map_some, Option.elim_some, List.length_reverse,
      length_utf8, length_utf8, byteLength_append, byteLength_append]
    have : byteLength ['\n'] = 1 := rfl
    omega

theorem idxOf?_utf8 {rest below : List Char} (hb : ∀ c ∈ below.head?, c = '\n')
    (hr : '\n' ∉ rest) (o : Nat) :
    ((utf8 (rest ++ below)).idxOf? 0x0A).elim (o + byteLength (rest ++ below)) (o + ·) =
      o + byteLength rest := by
  cases below with
  | nil =>
    rw [List.append_nil, List.idxOf?_eq_none_iff.mpr (feed_notMem_utf8 hr)]
    rfl
  | cons c below =>
    obtain rfl : c = '\n' := hb c rfl
    have hu : utf8 (rest ++ '\n' :: below) = utf8 rest ++ 0x0A :: utf8 below := utf8_append _ _
    rw [hu, idxOf?_behind (feed_notMem_utf8 hr), Option.elim_some, length_utf8]

theorem drawBytes_utf8 {start rest : List Char} {offset o : Nat} (ho : ClampsTo source offset o)
    (h : LineAround source o start rest) :
    drawBytes (utf8 source) offset =
      some (utf8 (Caret.mk (dropReturns (start ++ rest)) start.length).render) := by
  have hback := stepBack_clampsTo ho
  obtain ⟨above, below, hs, rfl, ha, hb, hn⟩ := h
  rw [List.mem_append, not_or] at hn
  have hbefore : slice (utf8 source) 0 (byteLength (above ++ start)) =
      some (utf8 (above ++ start)) := slice_utf8 (a := []) hs rfl rfl
  have hafter : slice (utf8 source) (byteLength (above ++ start)) (byteLength source) =
      some (utf8 (rest ++ below)) :=
    slice_utf8 (c := []) (by rw [hs, List.append_nil]) rfl (by rw [hs])
  have hend : ((utf8 (rest ++ below)).idxOf? 0x0A).elim (byteLength source)
      (byteLength (above ++ start) + ·) = byteLength (above ++ (start ++ rest)) := by
    rw [hs, byteLength_append (above ++ start), idxOf?_utf8 hb hn.2, ← byteLength_append,
      List.append_assoc]
  have hline : slice (utf8 source) (byteLength above) (byteLength (above ++ (start ++ rest))) =
      some (utf8 (start ++ rest)) :=
    slice_utf8 (c := below) (by simp only [hs, List.append_assoc]) rfl rfl
  have hindent : slice (utf8 source) (byteLength above) (byteLength (above ++ start)) =
      some (utf8 start) := slice_utf8 (by rw [hs, List.append_assoc]) rfl rfl
  have hreturns : (utf8 (start ++ rest)).rdropWhile (· = 0x0D) =
      utf8 (dropReturns (start ++ rest)) := rdropWhile_utf8 (a := '\r') (by decide) _
  simp only [drawBytes, length_utf8, hback, Option.bind_eq_bind, Option.bind_some, hbefore,
    lastIdxOf?_utf8 ha hn.1, hafter, hend, hline, hindent, hreturns, countP_beginsChar_utf8]
  simp only [Caret.render, ← utf8_append, List.append_assoc]
  rfl

/-- Pointing into a source draws the line around the last place that is not behind the offset, with
the caret behind as many columns as characters stand in the line before that place. The bytes of the
source can be cut wherever that is asked for, and the other lines of a source do not matter. -/
theorem pointAt_lineAround (source : String) (offset : Nat) :
    (∃ o start rest shown returns,
      stepBack source.toUTF8.data.toList (min offset (byteLength source.toList)) = some o ∧
      ClampsTo source.toList offset o ∧ LineAround source.toList o start rest ∧
      start ++ rest = shown ++ List.replicate returns '\r' ∧ (∀ c ∈ shown.getLast?, c ≠ '\r') ∧
      pointAt source offset = String.ofList (shown ++ '\n' :: List.replicate start.length ' ' ++
        '▲' :: '\n' :: List.replicate start.length '─' ++ ['╯'])) ∧
    drawBytes source.toUTF8.data.toList offset = some (pointAt source offset).toUTF8.data.toList ∧
    (∀ before : String,
      pointAt (before ++ "\n" ++ source) (byteLength before.toList + 1 + offset) =
        pointAt source offset) ∧
    ∀ after : String, offset ≤ byteLength source.toList →
      pointAt (source ++ "\n" ++ after) offset = pointAt source offset := by
  obtain ⟨o, start, rest, ho, hline, hlocate⟩ := exists_lineAround source.toList offset
  have hfeed : "\n".toList = ['\n'] := by decide
  refine ⟨?_, ?_, fun before => ?_, fun after hle => ?_⟩
  · obtain ⟨returns, hreturns, hlast⟩ := dropReturns_spec (start ++ rest)
    have hback := stepBack_clampsTo ho
    rw [← toUTF8_eq] at hback
    refine ⟨o, start, rest, _, returns, hback, ho, hline, hreturns, hlast, ?_⟩
    rw [pointAt, hlocate]
    rfl
  · rw [toUTF8_eq, toUTF8_eq, pointAt, hlocate, String.toList_ofList]
    exact drawBytes_utf8 ho hline
  · rw [pointAt, pointAt, String.toList_append, String.toList_append, hfeed, List.append_assoc,
      List.singleton_append, Caret.locate_behind]
  · rw [pointAt, pointAt, String.toList_append, String.toList_append, hfeed, List.append_assoc,
      List.singleton_append, Caret.locate_above hle]

/-- An offset inside a character of two bytes, in the first of three lines. -/
theorem pointAt_lineAround_inside :
    let source := "x·y\r\nz"
    pointAt source 2 = "x·y\n ▲\n─╯" ∧ stepBack source.toUTF8.data.toList 2 = some 1 ∧
      drawBytes source.toUTF8.data.toList 2 = some (pointAt source 2).toUTF8.data.toList ∧
      2 ≤ byteLength source.toList ∧ pointAt (source ++ "\n" ++ "w") 2 = pointAt source 2 := by
  intro source
  obtain ⟨-, hdraw, -, habove⟩ := pointAt_lineAround source 2
  have hback : stepBack source.toUTF8.data.toList 2 = some 1 := by
    rw [toUTF8_eq]
    decide
  have hle : 2 ≤ byteLength source.toList := by decide
  exact ⟨by decide, hback, hdraw, hle, habove "w" hle⟩

end Formula.Text
