import Mathlib.Data.List.Induction
import Mathlib.Order.Bounds.Basic
import Formula.Proofs.Places

/-!
# Lines and the place in a line

A line feed with a carriage return before it ends a line as a line feed does. Only where
a carriage return stood before the line feed already does one remain in the line, and
there it is not shown.

An offset is moved back to a place between two characters, and that place cuts a line of the
source in two. The line is shown without the carriage returns at its end, but the caret
stands as many columns in as the line has characters before the place. So the caret leaves
the shown line where the place stands behind one of these carriage returns, and nowhere else.
-/

namespace Formula.Text

/-- Every line feed has one carriage return more before it. -/
def crlf (cs : List Char) : List Char :=
  cs.flatMap fun c => if c = '\n' then ['\r', '\n'] else [c]

theorem crlf_feed (cs : List Char) : crlf ('\n' :: cs) = '\r' :: '\n' :: crlf cs := rfl

theorem crlf_cons {c : Char} (hc : c ≠ '\n') (cs : List Char) : crlf (c :: cs) = c :: crlf cs := by
  simp only [crlf, List.flatMap_cons, if_neg hc, List.cons_append, List.nil_append]

theorem crlf_ne_feed (cs ds : List Char) : crlf cs ≠ '\n' :: ds := by
  intro h
  cases cs with
  | nil => cases h
  | cons c cs =>
    by_cases hc : c = '\n'
    · subst hc
      cases h
    · rw [crlf_cons hc] at h
      exact hc (List.cons.inj h).1

theorem lines_cons {c : Char} {cs : List Char} (hc : c ≠ '\n')
    (hr : ∀ ds, c = '\r' → cs ≠ '\n' :: ds) :
    lines (c :: cs) =
      match lines cs with
      | [] => [[c]]
      | line :: rest => (c :: line) :: rest :=
  lines.eq_4 c cs hc hr

theorem map_lines_crlf {α : Type} (cs : List Char) (f : List Char → α)
    (hf : ∀ line, f (line ++ ['\r']) = f line) : (lines (crlf cs)).map f = (lines cs).map f := by
  induction cs using lines.induct generalizing f with
  | case1 => rfl
  | case2 cs ih =>
    rw [crlf_feed, lines, lines, List.map_cons, List.map_cons, ih f hf]
  | case3 cs ih =>
    -- of two carriage returns the first stays in the line
    have hr : ∀ ds, '\r' = '\r' → '\r' :: '\n' :: crlf cs ≠ '\n' :: ds := fun _ _ h => by cases h
    rw [crlf_cons (by decide), crlf_feed, lines_cons (by decide) hr, lines, lines]
    simp only [List.map_cons, ih f hf]
    rw [← hf []]
    rfl
  | case4 c cs hc hr hl ih =>
    have hmap := ih f hf
    rw [hl, List.map_nil, List.map_eq_nil_iff] at hmap
    rw [crlf_cons hc, lines_cons hc fun ds _ => crlf_ne_feed cs ds, hmap, lines_cons hc hr, hl]
  | case5 c cs hc hr line rest hl ih =>
    -- the first line is seen with one character more in front
    have hfirst := ih (fun line => f (c :: line)) fun line => hf (c :: line)
    have hrest := ih f hf
    rw [crlf_cons hc, lines_cons hc fun ds _ => crlf_ne_feed cs ds, lines_cons hc hr, hl]
    rw [hl] at hfirst hrest
    cases hl' : lines (crlf cs) with
    | nil =>
      rw [hl'] at hrest
      cases hrest
    | cons line' rest' =>
      rw [hl'] at hfirst hrest
      simp only [List.map_cons, List.cons.injEq] at hfirst hrest ⊢
      exact ⟨hfirst.1, hrest.2⟩

theorem cutAt_append_of_le {offset : Nat} {cs : List Char} (h : offset ≤ byteLength cs)
    (tail : List Char) :
    cutAt offset (cs ++ tail) = ((cutAt offset cs).1, (cutAt offset cs).2 ++ tail) := by
  induction cs generalizing offset with
  | nil =>
    obtain rfl : offset = 0 := Nat.le_zero.mp h
    cases tail with
    | nil => rfl
    | cons c tail =>
      have hc : ¬c.utf8Size ≤ 0 := Nat.not_le_of_lt c.utf8Size_pos
      exact if_neg hc
  | cons c cs ih =>
    rw [byteLength_cons] at h
    rw [List.cons_append, cutAt, cutAt]
    split
    · rw [ih (by omega)]
    · rfl

theorem dropReturns_append (line : List Char) :
    dropReturns (line ++ ['\r']) = dropReturns line := by
  rw [dropReturns, List.reverse_append]
  rfl

theorem firstLine_append (after : List Char) : firstLine (after ++ ['\r']) = firstLine after ∨
    firstLine (after ++ ['\r']) = firstLine after ++ ['\r'] := by
  induction after with
  | nil => exact .inr rfl
  | cons c after ih =>
    simp only [firstLine, List.cons_append, List.takeWhile_cons] at ih ⊢
    split
    · exact ih.imp (congrArg (c :: ·)) (congrArg (c :: ·))
    · exact .inl rfl

theorem Caret.locate_append {source : List Char} {offset : Nat} (h : offset ≤ byteLength source) :
    Caret.locate (source ++ ['\r']) offset = Caret.locate source offset := by
  rw [locate, cutAt_append_of_le h, locate]
  dsimp only
  rcases firstLine_append (cutAt offset source).2 with he | he
  · rw [he]
  · rw [he, ← List.append_assoc, dropReturns_append]

/-- The last place between two characters that is neither behind the offset nor behind the text. -/
def ClampsTo (source : List Char) (offset o : Nat) : Prop :=
  IsGreatest {b | IsBoundary source b ∧ b ≤ min offset (byteLength source)} o

def LineAround (source : List Char) (o : Nat) (start rest : List Char) : Prop :=
  ∃ above below, source = above ++ start ++ (rest ++ below) ∧ byteLength (above ++ start) = o ∧
    (∀ c ∈ above.getLast?, c = '\n') ∧ (∀ c ∈ below.head?, c = '\n') ∧ '\n' ∉ start ++ rest

variable {source start rest above below : List Char} {o : Nat}

theorem cutAt_zero (cs : List Char) : cutAt 0 cs = ([], cs) := by
  cases cs with
  | nil => rfl
  | cons c cs => exact if_neg (Nat.not_le_of_lt c.utf8Size_pos)

theorem cutAt_byteLength_add (before after : List Char) (n : Nat) :
    cutAt (byteLength before + n) (before ++ after) =
      (before ++ (cutAt n after).1, (cutAt n after).2) := by
  induction before with
  | nil => rw [byteLength_nil, Nat.zero_add, List.nil_append, List.nil_append]
  | cons c before ih =>
    have hn : byteLength (c :: before) + n - c.utf8Size = byteLength before + n := by
      rw [byteLength_cons]
      omega
    have hc : c.utf8Size ≤ byteLength (c :: before) + n := by
      rw [byteLength_cons]
      omega
    rw [List.cons_append, cutAt, if_pos hc, hn, ih, List.cons_append]

theorem cutAt_byteLength (before after : List Char) :
    cutAt (byteLength before) (before ++ after) = (before, after) := by
  have h := cutAt_byteLength_add before after 0
  rwa [Nat.add_zero, cutAt_zero, List.append_nil] at h

theorem clampsTo_cutAt (source : List Char) (offset : Nat) :
    ClampsTo source offset (byteLength (cutAt offset source).1) := by
  have hb : IsBoundary source (byteLength (cutAt offset source).1) :=
    ⟨_, _, (cutAt_append offset source).symm, rfl⟩
  refine ⟨⟨hb, Nat.le_min.mpr ⟨byteLength_cutAt_le offset source, hb.le⟩⟩, ?_⟩
  rintro b ⟨⟨before, after, rfl, rfl⟩, hle⟩
  -- whatever ends before the offset lies before the cut
  obtain ⟨n, rfl⟩ := Nat.exists_eq_add_of_le (Nat.le_min.mp hle).1
  rw [cutAt_byteLength_add, byteLength_append]
  exact Nat.le_add_right _ _

theorem firstLine_append_below (hb : ∀ c ∈ below.head?, c = '\n') (cs : List Char) :
    firstLine (cs ++ below) = firstLine cs := by
  have hnil : below.takeWhile (· ≠ '\n') = [] := by
    cases below with
    | nil => rfl
    | cons c below =>
      rw [hb c rfl]
      rfl
  rw [firstLine, List.takeWhile_append, hnil, List.append_nil, ite_eq_right_iff.mpr]
  · rfl
  · intro h
    exact ((List.takeWhile_prefix _).eq_of_length h).symm

theorem firstLine_eq_self (h : '\n' ∉ rest) : firstLine rest = rest :=
  List.takeWhile_eq_self_iff.mpr fun _ hc => decide_eq_true fun he => h (he ▸ hc)

theorem exists_firstLine (after : List Char) :
    ∃ below, after = firstLine after ++ below ∧ (∀ c ∈ below.head?, c = '\n') ∧
      '\n' ∉ firstLine after := by
  refine ⟨after.dropWhile (· ≠ '\n'), List.takeWhile_append_dropWhile.symm, ?_, ?_⟩
  · intro c hc
    have := List.head?_dropWhile_not (· ≠ '\n') after
    rw [hc] at this
    simpa using this
  · intro h
    have := List.mem_takeWhile_imp h
    simp at this

theorem lastLine_eq (before : List Char) : lastLine before = (firstLine before.reverse).reverse :=
  rfl

theorem lastLine_append (ha : ∀ c ∈ above.getLast?, c = '\n') (cs : List Char) :
    lastLine (above ++ cs) = lastLine cs := by
  rw [← List.head?_reverse] at ha
  rw [lastLine_eq, List.reverse_append, firstLine_append_below ha, lastLine_eq]

theorem lastLine_eq_self (h : '\n' ∉ start) : lastLine start = start := by
  rw [lastLine_eq, firstLine_eq_self (mt List.mem_reverse.mp h), List.reverse_reverse]

theorem exists_lastLine (before : List Char) :
    ∃ above, before = above ++ lastLine before ∧ (∀ c ∈ above.getLast?, c = '\n') ∧
      '\n' ∉ lastLine before := by
  obtain ⟨below, he, hb, hf⟩ := exists_firstLine before.reverse
  refine ⟨below.reverse, ?_, ?_, fun h => hf (List.mem_reverse.mp h)⟩
  · rw [lastLine_eq, ← List.reverse_append, ← he, List.reverse_reverse]
  · rwa [List.getLast?_reverse]

theorem LineAround.locate (h : LineAround source o start rest) :
    Caret.locate source o = ⟨dropReturns (start ++ rest), start.length⟩ := by
  obtain ⟨above, below, rfl, rfl, ha, hb, hn⟩ := h
  rw [List.mem_append, not_or] at hn
  rw [Caret.locate, cutAt_byteLength]
  dsimp only
  rw [lastLine_append ha, lastLine_eq_self hn.1, firstLine_append_below hb, firstLine_eq_self hn.2]

theorem exists_lineAround (source : List Char) (offset : Nat) :
    ∃ o start rest, ClampsTo source offset o ∧ LineAround source o start rest ∧
      Caret.locate source offset = ⟨dropReturns (start ++ rest), start.length⟩ := by
  have hs := cutAt_append offset source
  obtain ⟨above, hbefore, ha, hstart⟩ := exists_lastLine (cutAt offset source).1
  obtain ⟨below, hafter, hb, hrest⟩ := exists_firstLine (cutAt offset source).2
  refine ⟨_, _, _, clampsTo_cutAt source offset, ⟨above, below, ?_, ?_, ha, hb, ?_⟩, rfl⟩
  · rw [← hbefore, ← hafter, hs]
  · rw [← hbefore]
  · rw [List.mem_append, not_or]
    exact ⟨hstart, hrest⟩

theorem Caret.locate_behind (before source : List Char) (offset : Nat) :
    locate (before ++ '\n' :: source) (byteLength before + 1 + offset) = locate source offset := by
  have hs : before ++ '\n' :: source = before ++ ['\n'] ++ source := by simp
  have hlength : byteLength before + 1 = byteLength (before ++ ['\n']) := by
    rw [byteLength_append]
    rfl
  have hlast : ∀ c ∈ (before ++ ['\n']).getLast?, c = '\n' := by simp
  rw [locate, hs, hlength, cutAt_byteLength_add, locate]
  dsimp only
  rw [lastLine_append hlast]

theorem Caret.locate_above {source : List Char} {offset : Nat} (h : offset ≤ byteLength source)
    (after : List Char) : locate (source ++ '\n' :: after) offset = locate source offset := by
  have hhead : ∀ c ∈ ('\n' :: after).head?, c = '\n' := by simp
  rw [locate, cutAt_append_of_le h, locate]
  dsimp only
  rw [firstLine_append_below hhead]

theorem dropReturns_spec (line : List Char) :
    ∃ n, line = dropReturns line ++ List.replicate n '\r' ∧
      ∀ c ∈ (dropReturns line).getLast?, c ≠ '\r' := by
  induction line using List.reverseRecOn with
  | nil => exact ⟨0, rfl, fun _ h => by cases h⟩
  | append_singleton line c ih =>
    by_cases hc : c = '\r'
    · subst hc
      obtain ⟨n, he, hlast⟩ := ih
      rw [dropReturns_append]
      refine ⟨n + 1, ?_, hlast⟩
      rw [List.replicate_succ', ← List.append_assoc, ← he]
    · have hd : dropReturns (line ++ [c]) = line ++ [c] := by
        rw [dropReturns, List.reverse_append, List.reverse_singleton, List.singleton_append,
          List.dropWhile_cons_of_neg (by simpa using hc), List.reverse_cons, List.reverse_reverse]
      refine ⟨0, ?_, ?_⟩
      · rw [hd, List.replicate_zero, List.append_nil]
      · intro d hm
        rw [hd, List.getLast?_concat] at hm
        cases hm
        exact hc

theorem dropReturns_append_replicate (line : List Char) (n : Nat) :
    dropReturns (line ++ List.replicate n '\r') = dropReturns line := by
  induction n with
  | zero => rw [List.replicate_zero, List.append_nil]
  | succ n ih => rw [List.replicate_succ', ← List.append_assoc, dropReturns_append, ih]

theorem length_dropReturns_le (line : List Char) : (dropReturns line).length ≤ line.length := by
  obtain ⟨n, he, -⟩ := dropReturns_spec line
  rw [congrArg List.length he, List.length_append]
  exact Nat.le_add_right _ _

theorem exists_return_of_length_lt (h : (dropReturns (start ++ rest)).length < start.length) :
    ∃ shown n, start = shown ++ ['\r'] ∧ rest = List.replicate n '\r' := by
  obtain ⟨n, hreturns, -⟩ := dropReturns_spec (start ++ rest)
  rcases List.append_eq_append_iff.mp hreturns with ⟨t, hd, -⟩ | ⟨t, hstart, hrest⟩
  · rw [hd, List.length_append] at h
    omega
  · rcases List.eq_nil_or_concat t with rfl | ⟨t, c, rfl⟩
    · rw [List.append_nil] at hstart
      rw [← hstart] at h
      exact absurd h (Nat.lt_irrefl _)
    · rw [List.concat_eq_append] at hstart hrest
      have hall : ∀ d ∈ t ++ [c] ++ rest, d = '\r' := by
        rw [← hrest]
        exact fun d hd => List.eq_of_mem_replicate hd
      obtain rfl : c = '\r' := hall c (by simp)
      refine ⟨dropReturns (start ++ rest) ++ t, rest.length, ?_, ?_⟩
      · rw [List.append_assoc, ← hstart]
      · exact List.eq_replicate_of_mem fun d hd => hall d (List.mem_append_right _ hd)

/-- The caret stands under a character of the line that is shown or directly behind its last one,
unless only carriage returns follow it up to the end of the line and one stands before it. -/
theorem Caret.column_le_iff (source : List Char) (offset : Nat) :
    ∃ o, ClampsTo source offset o ∧
      ((locate source offset).column ≤ (locate source offset).line.length ↔
        ¬ ∃ shown n, LineAround source o (shown ++ ['\r']) (List.replicate n '\r')) := by
  obtain ⟨o, start, rest, ho, hline, he⟩ := exists_lineAround source offset
  refine ⟨o, ho, ?_⟩
  rw [he]
  constructor
  · rintro hle ⟨shown, n, h⟩
    -- the place has one line only, so both ways to cut it agree
    have hsame := hline.locate.symm.trans h.locate
    rw [dropReturns_append_replicate, dropReturns_append, Caret.mk.injEq] at hsame
    obtain ⟨hdrop, hlength⟩ := hsame
    have hshown := length_dropReturns_le shown
    rw [List.length_append, List.length_singleton] at hlength
    rw [hdrop] at hle
    dsimp only at hle
    omega
  · intro hno
    by_contra hlt
    obtain ⟨shown, n, rfl, rfl⟩ := exists_return_of_length_lt (Nat.lt_of_not_le hlt)
    exact hno ⟨shown, n, hline⟩

/-- Behind a carriage return at the end of the source the caret stands one column too far. -/
theorem Caret.column_beyond_line :
    pointAt "x\r" 2 = "x\n  ▲\n──╯" ∧
      ¬ (locate "x\r".toList 2).column ≤ (locate "x\r".toList 2).line.length := by
  decide

end Formula.Text
