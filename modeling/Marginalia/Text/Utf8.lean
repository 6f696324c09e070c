/-
Marginalia.Text.Utf8 — strict UTF-8.

* `encode` writes a text as bytes.
* `decode` reads bytes back, refusing everything that `encode` does not
  write: overlong forms, surrogates, values beyond U+10FFFF, stray
  continuation bytes and cut-off sequences.
* `Refusal` says where reading stopped and why. Its offset is that of the
  first byte of the sequence at fault, so all bytes before it are well formed.
* `decodeBlocks` reads a stream block by block, as a buffered reader does. A
  refusal then counts from the start of what was being decoded: an unfinished
  sequence carried over from earlier blocks, followed by the new block.
* `universalNewlines` turns every line ending into a line feed.

The decoder walks over the bytes once. Between two bytes it is either at a
character boundary or inside a sequence, and `Partial` holds what is known of
the sequence: its value so far, how many bytes are missing and the range in
which the next one has to lie. The range is narrower than 80–BF only after
E0, ED, F0 and F4.
-/
import Marginalia.Text.Basic

namespace Marginalia.Utf8

/-- Why a byte sequence is refused. -/
inductive Reason where
  /-- The byte never begins a character. -/
  | startByte
  /-- A following byte is outside the range that the first byte allows. -/
  | continuationByte
  /-- The input ends inside a sequence. -/
  | endOfData
  deriving Repr, DecidableEq, BEq

/-- The wording of a reason. -/
def Reason.message : Reason → Text
  | .startByte => "invalid start byte".toList
  | .continuationByte => "invalid continuation byte".toList
  | .endOfData => "unexpected end of data".toList

/-- A refused byte sequence: why, where it starts, how many of its bytes were accepted (at least
one, the start byte itself) and what its start byte is. -/
structure Refusal where
  reason : Reason
  offset : Nat
  length : Nat
  first : UInt8
  deriving Repr, DecidableEq

/-- A sequence that has begun: its first byte, the bytes read so far, the value they give, the
number of bytes missing and the range of the next one. -/
structure Partial where
  first : UInt8
  read : Nat
  value : Nat
  missing : Nat
  low : Nat
  high : Nat
  deriving Repr, DecidableEq

/-- The sequence that a byte of 80 or more begins. -/
def Partial.start? (b : UInt8) : Option Partial :=
  let n := b.toNat
  if 0xC2 ≤ n ∧ n ≤ 0xDF then some ⟨b, 1, n - 0xC0, 1, 0x80, 0xBF⟩
  else if n = 0xE0 then some ⟨b, 1, 0, 2, 0xA0, 0xBF⟩
  else if n = 0xED then some ⟨b, 1, 0xD, 2, 0x80, 0x9F⟩
  else if 0xE1 ≤ n ∧ n ≤ 0xEF then some ⟨b, 1, n - 0xE0, 2, 0x80, 0xBF⟩
  else if n = 0xF0 then some ⟨b, 1, 0, 3, 0x90, 0xBF⟩
  else if 0xF1 ≤ n ∧ n ≤ 0xF3 then some ⟨b, 1, n - 0xF0, 3, 0x80, 0xBF⟩
  else if n = 0xF4 then some ⟨b, 1, 4, 3, 0x80, 0x8F⟩
  else none

/-- The sequence after one more byte; `none` if the byte is out of range. -/
def Partial.push? (p : Partial) (b : UInt8) : Option Partial :=
  let n := b.toNat
  if p.low ≤ n ∧ n ≤ p.high then
    some ⟨p.first, p.read + 1, p.value * 64 + (n - 0x80), p.missing - 1, 0x80, 0xBF⟩
  else none

/-- How far decoding came: the text read, and the sequence left open at the end, if any. -/
structure Progress where
  text : Text
  pending : Option Partial

/-- Decodes bytes from a state. `offset` is where the next character starts, counting the bytes of
a pending sequence as part of it; `acc` holds the characters read so far, last first. -/
def run (acc : Text) (offset : Nat) : Option Partial → List UInt8 → Except Refusal Progress
  | pending, [] => .ok ⟨acc.reverse, pending⟩
  | none, b :: rest =>
    if b < 0x80 then run (Char.ofNat b.toNat :: acc) (offset + 1) none rest
    else match Partial.start? b with
      | none => .error ⟨.startByte, offset, 1, b⟩
      | some p => run acc offset (some p) rest
  | some p, b :: rest =>
    match p.push? b with
    | none => .error ⟨.continuationByte, offset, p.read, p.first⟩
    | some q =>
      if q.missing = 0 then run (Char.ofNat q.value :: acc) (offset + q.read) none rest
      else run acc offset (some q) rest

/-- Ends decoding: a pending sequence is refused at `offset`. -/
def Progress.finish (offset : Nat) (p : Progress) : Except Refusal Text :=
  match p.pending with
  | none => .ok p.text
  | some q => .error ⟨.endOfData, offset, q.read, q.first⟩

/-- The text that a byte sequence encodes. -/
def decode (bytes : List UInt8) : Except Refusal Text := do
  let progress ← run [] 0 none bytes
  progress.finish (bytes.length - (progress.pending.map (·.read)).getD 0)

/-- The number of bytes that a buffered reader takes at a time. -/
def blockSize : Nat := 8192

/-- A refusal within a block of `size` bytes that ends in `last`. Two last bytes that would begin a
surrogate are held back like a sequence that is left open, so they are refused at offset 0 of what
comes next, be it nothing. -/
def Refusal.held (size : Nat) (last : UInt8) (r : Refusal) : Refusal :=
  if r.reason = .continuationByte ∧ r.first = 0xED ∧ r.offset + 2 = size ∧ 0xA0 ≤ last ∧ last ≤ 0xBF
  then { r with offset := 0 }
  else r

/-- Decodes block after block. Offsets in refusals count from the start of a block's own input,
which begins with the sequence that the block before left open; at the end of the stream nothing
but that sequence is left, so it is refused at offset 0. -/
def decodeBlocks (fuel : Nat) (pending : Option Partial) (bytes : List UInt8) :
    Except Refusal Text :=
  match fuel, bytes with
  | 0, _ | _, [] => (Progress.mk [] pending).finish 0
  | fuel + 1, bytes => do
    let block := bytes.take blockSize
    let size := (pending.map (·.read)).getD 0 + block.length
    let progress ← (run [] 0 pending block).mapError (·.held size (block.getLast?.getD 0))
    let rest ← decodeBlocks fuel progress.pending (bytes.drop blockSize)
    return progress.text ++ rest

/-- The text of a stream that is read block by block. -/
def decodeStream (bytes : List UInt8) : Except Refusal Text :=
  decodeBlocks (bytes.length / blockSize + 1) none bytes

/-- The bytes of a character. -/
def encodeChar (c : Char) : List UInt8 :=
  let n := c.toNat
  if n < 0x80 then [n.toUInt8]
  else if n < 0x800 then [(0xC0 + n / 64).toUInt8, (0x80 + n % 64).toUInt8]
  else if n < 0x10000 then
    [(0xE0 + n / 4096).toUInt8, (0x80 + n / 64 % 64).toUInt8, (0x80 + n % 64).toUInt8]
  else
    [(0xF0 + n / 262144).toUInt8, (0x80 + n / 4096 % 64).toUInt8, (0x80 + n / 64 % 64).toUInt8,
      (0x80 + n % 64).toUInt8]

/-- The bytes of a text. -/
def encode (t : Text) : List UInt8 := t.flatMap encodeChar

/-- The number of bytes of a text. -/
def size (t : Text) : Nat := t.foldr (·.utf8Size + ·) 0

/-- Every line ending, whether CR LF, CR or LF, becomes a line feed. -/
def universalNewlines : Text → Text
  | [] => []
  | '\r' :: '\n' :: rest => '\n' :: universalNewlines rest
  | '\r' :: rest => '\n' :: universalNewlines rest
  | c :: rest => c :: universalNewlines rest

end Marginalia.Utf8
