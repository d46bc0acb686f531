import DiskLayers.Text.Hex

/-!
# SHA-256

The hash function of FIPS 180-4 with a digest of 256 bits.

* `Sha256.State`     eight words of 32 bits
* `Sha256.padded`    a message with its padding, a multiple of 64 bytes
* `Sha256.schedule`  the 64 words a block is stretched to
* `Sha256.compress`  the state after one more block
* `Sha256.digest`    the digest of a message, as its state
* `Sha256.hex`       a digest as 64 hexadecimal digits in lower case

`hex_length` fixes the number of digits, `hex_isLowerHex` their kind.
-/

namespace DiskLayers.Sha256

abbrev State := Vector UInt32 8

/-- the first 32 bits of the fractional parts of the square roots of the first 8 primes -/
def initial : State :=
  #v[0x6a09e667, 0xbb67ae85, 0x3c6ef372, 0xa54ff53a, 0x510e527f, 0x9b05688c, 0x1f83d9ab, 0x5be0cd19]

/-- the first 32 bits of the fractional parts of the cube roots of the first 64 primes -/
def constants : List UInt32 :=
  [0x428a2f98, 0x71374491, 0xb5c0fbcf, 0xe9b5dba5, 0x3956c25b, 0x59f111f1, 0x923f82a4, 0xab1c5ed5,
   0xd807aa98, 0x12835b01, 0x243185be, 0x550c7dc3, 0x72be5d74, 0x80deb1fe, 0x9bdc06a7, 0xc19bf174,
   0xe49b69c1, 0xefbe4786, 0x0fc19dc6, 0x240ca1cc, 0x2de92c6f, 0x4a7484aa, 0x5cb0a9dc, 0x76f988da,
   0x983e5152, 0xa831c66d, 0xb00327c8, 0xbf597fc7, 0xc6e00bf3, 0xd5a79147, 0x06ca6351, 0x14292967,
   0x27b70a85, 0x2e1b2138, 0x4d2c6dfc, 0x53380d13, 0x650a7354, 0x766a0abb, 0x81c2c92e, 0x92722c85,
   0xa2bfe8a1, 0xa81a664b, 0xc24b8b70, 0xc76c51a3, 0xd192e819, 0xd6990624, 0xf40e3585, 0x106aa070,
   0x19a4c116, 0x1e376c08, 0x2748774c, 0x34b0bcb5, 0x391c0cb3, 0x4ed8aa4a, 0x5b9cca4f, 0x682e6ff3,
   0x748f82ee, 0x78a5636f, 0x84c87814, 0x8cc70208, 0x90befffa, 0xa4506ceb, 0xbef9a3f7, 0xc67178f2]

/-- rotation to the right -/
def rotateRight (x : UInt32) (n : UInt32) : UInt32 := (x >>> n) ||| (x <<< (32 - n))

/-- a number as eight bytes, the most significant first -/
def bigEndian64 (n : Nat) : List UInt8 :=
  [n >>> 56, n >>> 48, n >>> 40, n >>> 32, n >>> 24, n >>> 16, n >>> 8, n].map Nat.toUInt8

/-- a message with a bit 1, zeros up to eight bytes before a multiple of 64, and its bit length -/
def padded (message : List UInt8) : List UInt8 :=
  let n := message.length
  message ++ 0x80 :: List.replicate ((119 - n % 64) % 64) 0 ++ bigEndian64 (8 * n)

/-- four bytes as a word, the most significant first -/
def word (a b c d : UInt8) : UInt32 :=
  (a.toUInt32 <<< 24) ||| (b.toUInt32 <<< 16) ||| (c.toUInt32 <<< 8) ||| d.toUInt32

/-- the words of a byte list -/
def words : List UInt8 → List UInt32
  | a :: b :: c :: d :: rest => word a b c d :: words rest
  | _ => []

/-- the words of a message in groups of sixteen -/
def blocks : List UInt32 → List (List UInt32)
  | [] => []
  | w :: ws => (w :: ws.take 15) :: blocks (ws.drop 15)
termination_by ws => ws.length
decreasing_by
  rw [List.length_drop, List.length_cons]
  exact Nat.lt_succ_of_le (Nat.sub_le _ _)

/-- the next word of a schedule whose last sixteen words are given, the newest first -/
def nextWord (recent : List UInt32) : UInt32 :=
  let w2 := recent.getD 1 0
  let w7 := recent.getD 6 0
  let w15 := recent.getD 14 0
  let w16 := recent.getD 15 0
  let s0 := rotateRight w15 7 ^^^ rotateRight w15 18 ^^^ (w15 >>> 3)
  let s1 := rotateRight w2 17 ^^^ rotateRight w2 19 ^^^ (w2 >>> 10)
  s1 + w7 + s0 + w16

/-- a schedule, newest word first, with `count` more words -/
def extend : Nat → List UInt32 → List UInt32
  | 0, recent => recent
  | count + 1, recent => extend count (nextWord recent :: recent)

/-- the 64 words of a block, in order -/
def schedule (block : List UInt32) : List UInt32 := (extend 48 block.reverse).reverse

/-- one round with a round constant and a word of the schedule -/
def round (s : State) (k w : UInt32) : State :=
  let a := s[0]; let b := s[1]; let c := s[2]; let d := s[3]
  let e := s[4]; let f := s[5]; let g := s[6]; let h := s[7]
  let s1 := rotateRight e 6 ^^^ rotateRight e 11 ^^^ rotateRight e 25
  let choice := (e &&& f) ^^^ ((~~~e) &&& g)
  let t1 := h + s1 + choice + k + w
  let s0 := rotateRight a 2 ^^^ rotateRight a 13 ^^^ rotateRight a 22
  let majority := (a &&& b) ^^^ (a &&& c) ^^^ (b &&& c)
  #v[t1 + (s0 + majority), a, b, c, d + t1, e, f, g]

def compress (s : State) (block : List UInt32) : State :=
  let last := (constants.zip (schedule block)).foldl (fun s (k, w) => round s k w) s
  s.zipWith (· + ·) last

def digest (message : List UInt8) : State := (blocks (words (padded message))).foldl compress initial

/-- the eight hexadecimal digits of a word -/
def hexWord (w : UInt32) : List Char :=
  [7, 6, 5, 4, 3, 2, 1, 0].map fun i => Text.hexDigit (w.toNat >>> (4 * i))

def hex (s : State) : List Char := s.toList.flatMap hexWord

theorem hexWord_length (w : UInt32) : (hexWord w).length = 8 := rfl

theorem hex_length (s : State) : (hex s).length = 64 := by
  simp [hex, List.length_flatMap, hexWord_length, List.map_const']

theorem hex_isLowerHex (s : State) : ∀ c ∈ hex s, Text.isLowerHex c = true := by
  intro c hc
  simp only [hex, List.mem_flatMap, hexWord, List.mem_map] at hc
  obtain ⟨w, -, i, -, rfl⟩ := hc
  exact Text.isLowerHex_hexDigit _

end DiskLayers.Sha256
