/-!
# Texts

Blank characters, byte offsets, lines, and how a place in a text is shown. Blank means
the Unicode property White_Space. Positions count the bytes of the UTF-8 form, and a
text is cut at an offset by keeping the characters that end at or before it, so that an
offset inside a character moves back to its start. A line ends at a line feed or at the
end of the text; a carriage return directly before the line feed belongs to no line.
-/

namespace Formula.Text

/-- The code points with the property White_Space, as closed ranges in increasing order. -/
def blankRanges : List (Nat × Nat) :=
  [(0x9, 0xD), (0x20, 0x20), (0x85, 0x85), (0xA0, 0xA0), (0x1680, 0x1680),
   (0x2000, 0x200A), (0x2028, 0x2029), (0x202F, 0x202F), (0x205F, 0x205F), (0x3000, 0x3000)]

def isBlank (c : Char) : Bool :=
  blankRanges.any fun r => r.1 ≤ c.toNat && c.toNat ≤ r.2

def trim (cs : List Char) : List Char :=
  ((cs.dropWhile isBlank).reverse.dropWhile isBlank).reverse

def byteLength : List Char → Nat
  | [] => 0
  | c :: cs => c.utf8Size + byteLength cs

@[simp] theorem byteLength_nil : byteLength [] = 0 := rfl

@[simp] theorem byteLength_cons (c : Char) (cs : List Char) :
    byteLength (c :: cs) = c.utf8Size + byteLength cs := rfl

@[simp] theorem byteLength_append (a b : List Char) :
    byteLength (a ++ b) = byteLength a + byteLength b := by
  induction a with
  | nil => simp
  | cons c a ih => simp [ih, Nat.add_assoc]

def cutAt : Nat → List Char → List Char × List Char
  | _, [] => ([], [])
  | offset, c :: cs =>
    if c.utf8Size ≤ offset then
      let (before, after) := cutAt (offset - c.utf8Size) cs
      (c :: before, after)
    else ([], c :: cs)

theorem cutAt_append (offset : Nat) (cs : List Char) :
    (cutAt offset cs).1 ++ (cutAt offset cs).2 = cs := by
  induction cs generalizing offset with
  | nil => simp [cutAt]
  | cons c cs ih =>
    simp only [cutAt]
    split
    · simp [ih]
    · simp

theorem byteLength_cutAt_le (offset : Nat) (cs : List Char) :
    byteLength (cutAt offset cs).1 ≤ offset := by
  induction cs generalizing offset with
  | nil => simp [cutAt]
  | cons c cs ih =>
    simp only [cutAt]
    split
    · have := ih (offset - c.utf8Size)
      simp only [byteLength_cons]
      omega
    · simp

def lines : List Char → List (List Char)
  | [] => []
  | '\n' :: cs => [] :: lines cs
  | '\r' :: '\n' :: cs => [] :: lines cs
  | c :: cs =>
    match lines cs with
    | [] => [[c]]
    | line :: rest => (c :: line) :: rest

def lastLine (before : List Char) : List Char :=
  (before.reverse.takeWhile (· ≠ '\n')).reverse

def firstLine (after : List Char) : List Char :=
  after.takeWhile (· ≠ '\n')

def dropReturns (line : List Char) : List Char :=
  (line.reverse.dropWhile (· = '\r')).reverse

structure Caret where
  line : List Char
  column : Nat

/-- Carriage returns at the end of the line are not shown; the column counts them. -/
def Caret.locate (source : List Char) (offset : Nat) : Caret :=
  let (before, after) := cutAt offset source
  ⟨dropReturns (lastLine before ++ firstLine after), (lastLine before).length⟩

def Caret.render (c : Caret) : List Char :=
  c.line ++ '\n' :: List.replicate c.column ' ' ++ '▲' :: '\n' ::
    List.replicate c.column '─' ++ ['╯']

def pointAt (source : String) (offset : Nat) : String :=
  String.ofList (Caret.locate source.toList offset).render

end Formula.Text
