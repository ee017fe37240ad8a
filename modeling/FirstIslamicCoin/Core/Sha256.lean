import FirstIslamicCoin.Core.ByteCodec

/-!
# SHA-256

The hash function on byte strings, as an executable definition.  Results elsewhere take
hashing as a parameter; this is the value of the parameter on concrete inputs.
-/

namespace FirstIslamicCoin.Sha256

open ByteCodec

/-- The state between two rounds, eight words of 32 bits. -/
structure State where
  a : ℕ
  b : ℕ
  c : ℕ
  d : ℕ
  e : ℕ
  f : ℕ
  g : ℕ
  h : ℕ

def initial : State :=
  ⟨0x6a09e667, 0xbb67ae85, 0x3c6ef372, 0xa54ff53a, 0x510e527f, 0x9b05688c, 0x1f83d9ab, 0x5be0cd19⟩

def roundConstants : List ℕ := [
  0x428a2f98, 0x71374491, 0xb5c0fbcf, 0xe9b5dba5, 0x3956c25b, 0x59f111f1, 0x923f82a4, 0xab1c5ed5,
  0xd807aa98, 0x12835b01, 0x243185be, 0x550c7dc3, 0x72be5d74, 0x80deb1fe, 0x9bdc06a7, 0xc19bf174,
  0xe49b69c1, 0xefbe4786, 0x0fc19dc6, 0x240ca1cc, 0x2de92c6f, 0x4a7484aa, 0x5cb0a9dc, 0x76f988da,
  0x983e5152, 0xa831c66d, 0xb00327c8, 0xbf597fc7, 0xc6e00bf3, 0xd5a79147, 0x06ca6351, 0x14292967,
  0x27b70a85, 0x2e1b2138, 0x4d2c6dfc, 0x53380d13, 0x650a7354, 0x766a0abb, 0x81c2c92e, 0x92722c85,
  0xa2bfe8a1, 0xa81a664b, 0xc24b8b70, 0xc76c51a3, 0xd192e819, 0xd6990624, 0xf40e3585, 0x106aa070,
  0x19a4c116, 0x1e376c08, 0x2748774c, 0x34b0bcb5, 0x391c0cb3, 0x4ed8aa4a, 0x5b9cca4f, 0x682e6ff3,
  0x748f82ee, 0x78a5636f, 0x84c87814, 0x8cc70208, 0x90befffa, 0xa4506ceb, 0xbef9a3f7, 0xc67178f2]

def rotateRight (word count : ℕ) : ℕ :=
  word >>> count ||| word <<< (32 - count) % 2 ^ 32

/-- The message schedule, latest word first. -/
def schedule : ℕ → List ℕ → List ℕ
  | 0, words => words
  | count + 1, words =>
      let early := words.getD 14 0
      let late := words.getD 1 0
      let first := rotateRight early 7 ^^^ rotateRight early 18 ^^^ early >>> 3
      let second := rotateRight late 17 ^^^ rotateRight late 19 ^^^ late >>> 10
      schedule count ((words.getD 15 0 + first + words.getD 6 0 + second) % 2 ^ 32 :: words)

def round (s : State) (constant word : ℕ) : State :=
  let choice := (s.e &&& s.f) ^^^ ((2 ^ 32 - 1 ^^^ s.e) &&& s.g)
  let majority := (s.a &&& s.b) ^^^ (s.a &&& s.c) ^^^ (s.b &&& s.c)
  let first := s.h + (rotateRight s.e 6 ^^^ rotateRight s.e 11 ^^^ rotateRight s.e 25) + choice +
    constant + word
  let second := (rotateRight s.a 2 ^^^ rotateRight s.a 13 ^^^ rotateRight s.a 22) + majority
  ⟨(first + second) % 2 ^ 32, s.a, s.b, s.c, (s.d + first) % 2 ^ 32, s.e, s.f, s.g⟩

def State.add (s r : State) : State :=
  ⟨(s.a + r.a) % 2 ^ 32, (s.b + r.b) % 2 ^ 32, (s.c + r.c) % 2 ^ 32, (s.d + r.d) % 2 ^ 32,
    (s.e + r.e) % 2 ^ 32, (s.f + r.f) % 2 ^ 32, (s.g + r.g) % 2 ^ 32, (s.h + r.h) % 2 ^ 32⟩

def compress (s : State) (block : List ℕ) : State :=
  let words := (schedule 48 block.reverse).reverse
  s.add ((roundConstants.zip words).foldl (fun r pair => round r pair.1 pair.2) s)

def compressAll : ℕ → List ℕ → State → State
  | 0, _, s => s
  | blocks + 1, words, s => compressAll blocks (words.drop 16) (compress s (words.take 16))

/-- The message, a one bit, zeros, and the number of bits in eight bytes. -/
def pad (message : Bytes) : Bytes :=
  message ++ 0x80 :: List.replicate ((119 - message.length % 64) % 64) 0 ++
    (littleEndian 8 (8 * message.length)).reverse

def toWords : Bytes → List ℕ
  | a :: b :: c :: d :: rest => ofLittleEndian [d, c, b, a] :: toWords rest
  | _ => []

def State.bytes (s : State) : Bytes :=
  [s.a, s.b, s.c, s.d, s.e, s.f, s.g, s.h].flatMap fun word => (littleEndian 4 word).reverse

def sha256 (message : Bytes) : Bytes :=
  (compressAll ((pad message).length / 64) (toWords (pad message)) initial).bytes

theorem length_sha256 (message : Bytes) : (sha256 message).length = 32 := by
  simp [sha256, State.bytes]

/-- The digest of `abc`. -/
example : sha256 [0x61, 0x62, 0x63] =
    (littleEndian 32 0xba7816bf8f01cfea414140de5dae2223b00361a396177a9cb410ff61f20015ad).reverse := by
  decide +kernel

def doubleSha256 (message : Bytes) : Bytes := sha256 (sha256 message)

theorem length_doubleSha256 (message : Bytes) : (doubleSha256 message).length = 32 :=
  length_sha256 _

end FirstIslamicCoin.Sha256
