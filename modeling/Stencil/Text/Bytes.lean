/-!
# Byte offsets in a text

Spans count bytes of the UTF-8 encoding, while a text is a list of characters. The functions here
measure a text in bytes and cut it at byte offsets. An offset is meant to be a character boundary;
a cut inside a character takes the whole character to the left.
-/

namespace Stencil.Text

/-- The number of bytes of the UTF-8 encoding of the text. -/
def byteSize (cs : List Char) : Nat := cs.foldl (fun size c => size + c.utf8Size) 0

theorem foldl_utf8Size (size : Nat) (cs : List Char) :
    cs.foldl (fun size c => size + c.utf8Size) size = size + byteSize cs := by
  unfold byteSize
  induction cs generalizing size with
  | nil => rfl
  | cons c cs ih => rw [List.foldl_cons, List.foldl_cons, ih, ih (0 + _), Nat.zero_add, Nat.add_assoc]

@[simp] theorem byteSize_nil : byteSize [] = 0 := rfl

@[simp] theorem byteSize_cons (c : Char) (cs : List Char) :
    byteSize (c :: cs) = c.utf8Size + byteSize cs := by
  rw [byteSize, List.foldl_cons, foldl_utf8Size, Nat.zero_add]

@[simp] theorem byteSize_append (as bs : List Char) :
    byteSize (as ++ bs) = byteSize as + byteSize bs := by
  induction as with
  | nil => simp
  | cons a as ih => simp [ih, Nat.add_assoc]

/-- The first `n` bytes of the text. -/
def takeBytes : Nat → List Char → List Char
  | _, [] => []
  | n, c :: cs => if n = 0 then [] else c :: takeBytes (n - c.utf8Size) cs

/-- The text after its first `n` bytes. -/
def dropBytes : Nat → List Char → List Char
  | _, [] => []
  | n, c :: cs => if n = 0 then c :: cs else dropBytes (n - c.utf8Size) cs

theorem takeBytes_append_dropBytes (n : Nat) (cs : List Char) :
    takeBytes n cs ++ dropBytes n cs = cs := by
  induction cs generalizing n with
  | nil => rfl
  | cons c cs ih => by_cases h : n = 0 <;> simp [takeBytes, dropBytes, h, ih]

/-- The bytes from offset `start` up to offset `stop`. -/
def slice (start stop : Nat) (cs : List Char) : List Char :=
  takeBytes (stop - start) (dropBytes start cs)

/-- Whether the byte offset `n` falls between two characters of the text, or at one of its ends. -/
def isBoundary : Nat → List Char → Bool
  | n, [] => n == 0
  | n, c :: cs => n == 0 || (c.utf8Size ≤ n && isBoundary (n - c.utf8Size) cs)

end Stencil.Text
