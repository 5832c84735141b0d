import Interleaving.Text.Quoted

/-!
# SHA-256

The hash of a text: its UTF-8 bytes are padded to whole blocks of 64 bytes, and every block is mixed
into eight words of 32 bits. `Interleaving.Digest.hexDigest` writes the result in lower case digits
of base sixteen.
-/

namespace Interleaving.Digest

/-- The constants of the sixty-four rounds. -/
def roundConstants : Array UInt32 := #[
  0x428a2f98, 0x71374491, 0xb5c0fbcf, 0xe9b5dba5, 0x3956c25b, 0x59f111f1, 0x923f82a4, 0xab1c5ed5,
  0xd807aa98, 0x12835b01, 0x243185be, 0x550c7dc3, 0x72be5d74, 0x80deb1fe, 0x9bdc06a7, 0xc19bf174,
  0xe49b69c1, 0xefbe4786, 0x0fc19dc6, 0x240ca1cc, 0x2de92c6f, 0x4a7484aa, 0x5cb0a9dc, 0x76f988da,
  0x983e5152, 0xa831c66d, 0xb00327c8, 0xbf597fc7, 0xc6e00bf3, 0xd5a79147, 0x06ca6351, 0x14292967,
  0x27b70a85, 0x2e1b2138, 0x4d2c6dfc, 0x53380d13, 0x650a7354, 0x766a0abb, 0x81c2c92e, 0x92722c85,
  0xa2bfe8a1, 0xa81a664b, 0xc24b8b70, 0xc76c51a3, 0xd192e819, 0xd6990624, 0xf40e3585, 0x106aa070,
  0x19a4c116, 0x1e376c08, 0x2748774c, 0x34b0bcb5, 0x391c0cb3, 0x4ed8aa4a, 0x5b9cca4f, 0x682e6ff3,
  0x748f82ee, 0x78a5636f, 0x84c87814, 0x8cc70208, 0x90befffa, 0xa4506ceb, 0xbef9a3f7, 0xc67178f2]

/-- The eight words that blocks are mixed into. -/
structure State where
  a : UInt32
  b : UInt32
  c : UInt32
  d : UInt32
  e : UInt32
  f : UInt32
  g : UInt32
  h : UInt32

/-- The words before the first block. -/
def State.initial : State :=
  ⟨0x6a09e667, 0xbb67ae85, 0x3c6ef372, 0xa54ff53a, 0x510e527f, 0x9b05688c, 0x1f83d9ab, 0x5be0cd19⟩

/-- Rotation to the right. -/
def rotr (x : UInt32) (n : UInt32) : UInt32 := (x >>> n) ||| (x <<< (32 - n))

/-- The bytes with a delimiter, zeros and their length in bits, a multiple of 64 bytes in all. -/
def pad (bytes : ByteArray) : ByteArray :=
  let n := bytes.size
  let zeros := (119 - n % 64) % 64
  let bits := 8 * n
  let withZeros := (List.replicate zeros (0 : UInt8)).foldl ByteArray.push (bytes.push 0x80)
  (List.range 8).foldl (fun acc i => acc.push (bits >>> (8 * (7 - i))).toUInt8) withZeros

/-- The word that starts at a byte, the high byte first. -/
def wordAt (bytes : ByteArray) (i : Nat) : UInt32 :=
  let byte (j : Nat) : UInt32 := (bytes[j]?.getD 0).toUInt32
  (byte i <<< 24) ||| (byte (i + 1) <<< 16) ||| (byte (i + 2) <<< 8) ||| byte (i + 3)

/-- The next word of the message schedule, from the words before it. -/
def extend (w : Array UInt32) (_ : Nat) : Array UInt32 :=
  let i := w.size
  let x := w.getD (i - 15) 0
  let y := w.getD (i - 2) 0
  let s0 := rotr x 7 ^^^ rotr x 18 ^^^ (x >>> 3)
  let s1 := rotr y 17 ^^^ rotr y 19 ^^^ (y >>> 10)
  w.push (w.getD (i - 16) 0 + s0 + w.getD (i - 7) 0 + s1)

/-- The sixty-four words of a block: its own sixteen and forty-eight more. -/
def schedule (bytes : ByteArray) (start : Nat) : Array UInt32 :=
  let own := (List.range 16).foldl (fun w i => w.push (wordAt bytes (start + 4 * i))) #[]
  (List.range 48).foldl extend own

/-- One round. -/
def round (w : Array UInt32) (s : State) (i : Nat) : State :=
  let s1 := rotr s.e 6 ^^^ rotr s.e 11 ^^^ rotr s.e 25
  let ch := (s.e &&& s.f) ^^^ ((~~~s.e) &&& s.g)
  let t1 := s.h + s1 + ch + roundConstants.getD i 0 + w.getD i 0
  let s0 := rotr s.a 2 ^^^ rotr s.a 13 ^^^ rotr s.a 22
  let maj := (s.a &&& s.b) ^^^ (s.a &&& s.c) ^^^ (s.b &&& s.c)
  let t2 := s0 + maj
  ⟨t1 + t2, s.a, s.b, s.c, s.d + t1, s.e, s.f, s.g⟩

/-- Mixes in the block that starts at a byte. -/
def mix (bytes : ByteArray) (s : State) (block : Nat) : State :=
  let w := schedule bytes (64 * block)
  let t := (List.range 64).foldl (round w) s
  ⟨s.a + t.a, s.b + t.b, s.c + t.c, s.d + t.d, s.e + t.e, s.f + t.f, s.g + t.g, s.h + t.h⟩

/-- The eight words of the hash of some bytes. -/
def sha256 (bytes : ByteArray) : State :=
  let padded := pad bytes
  (List.range (padded.size / 64)).foldl (mix padded) .initial

/-- The hash of a text, in digits of base sixteen. -/
def hexDigest (s : String) : String :=
  let t := sha256 s.toUTF8
  String.ofList ([t.a, t.b, t.c, t.d, t.e, t.f, t.g, t.h].flatMap fun w => Text.hex 8 w.toNat)

end Interleaving.Digest
