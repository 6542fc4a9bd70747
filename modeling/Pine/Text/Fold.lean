import Pine.Text.Case
import Pine.Text.Utf8

/-!
# Folded text

Names are compared in their folded form, which is lower case. It is made in a buffer, block by
block: a block of bytes is decoded, and its characters are written to the buffer in lower case. A
text that fits into one block and holds no replacement character comes out in lower case and that
is all. In other texts three more rules show.

* A character that finds no room in the buffer is lost. A buffer that takes nothing at all grows.
* A character that the end of a block cuts in two is read as stray bytes.
* A replacement character counts as one byte read, as if it stood for a stray byte. So the block
  counts as read up to an earlier byte, and the bytes behind that one are read again.
-/

namespace Pine.Text

/-- What one pass over a block does. -/
structure FoldPass where
  /-- The characters that it writes. -/
  written : List Char
  /-- The number of bytes that it counts as read. -/
  used : Nat
  /-- Whether it ends at a character that finds no room. -/
  full : Bool
  deriving DecidableEq, Repr

/-- The number of bytes of some characters. -/
def byteCount (cs : List Char) : Nat := cs.foldr (fun c n => c.utf8Size + n) 0

/-- The number of bytes that a character counts as read. -/
def readCount (c : Char) : Nat := if c = replacement then 1 else c.utf8Size

/-- Writes characters in lower case as long as there is room; the one that finds no room is
read too. -/
def writeLower (room : Nat) : List Char → FoldPass
  | [] => ⟨[], 0, false⟩
  | c :: cs =>
    let low := lowerChar c
    if room < low.utf8Size then ⟨[], readCount c, true⟩
    else
      let p := writeLower (room - low.utf8Size) cs
      ⟨low :: p.written, readCount c + p.used, p.full⟩

/-- The number of bytes of a block, and of the first buffer. -/
def blockSize : Nat := 128

/-- The size of a buffer after it has grown. -/
def grownSize (size : Nat) : Nat := if size ≤ 256 then 2 * size else size + size / 2

/-- The size of the buffer after a pass over a block, when `done` bytes are written and `left` are
to be read. There is none at first, and each block has the room of a block, until a pass changes a
block or ends at a character without room. Then a buffer is made that holds what is written, with
room for as much as is left if that is more than a block. -/
def bufferAfter (buffer : Option Nat) (p : FoldPass) (block : List UInt8) (done left : Nat) :
    Option Nat :=
  match buffer with
  | some size => some (if p.full && p.written.isEmpty then grownSize size else size)
  | none =>
    if !p.full && encode (String.ofList p.written) = block.take p.used then none
    else some (if blockSize < done then done + left else blockSize)

/-- The folded form of the bytes that are to be read, when `done` bytes are written. A pass reads
at least one byte. -/
def foldFrom (buffer : Option Nat) (done : Nat) : List UInt8 → List Char
  | [] => []
  | b :: rest =>
    let block := (b :: rest).take blockSize
    let p := writeLower (buffer.elim blockSize (· - done)) (decode block)
    let left := rest.drop (p.used - 1)
    let written := done + byteCount p.written
    p.written ++ foldFrom (bufferAfter buffer p block written left.length) written left
termination_by bytes => bytes.length
decreasing_by simp only [List.length_drop, List.length_cons]; omega

/-- The folded form of a text. -/
def folded (s : String) : List Char := foldFrom none 0 (encode s)

end Pine.Text
