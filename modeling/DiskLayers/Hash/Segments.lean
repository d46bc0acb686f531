import DiskLayers.Hash.Sha256

/-!
# Short hashes of segments

* `utf8Bytes`      the bytes of a text
* `joinSegments`   byte lists with a NUL between neighbours
* `hashSegments`   the first twenty hexadecimal digits of the digest of joined segments

Twenty digits are 80 bits, short enough for a file name and long enough that no two layers of one
store meet by chance.
-/

namespace DiskLayers

/-- the UTF-8 bytes of a text -/
def utf8Bytes (s : String) : List UInt8 := s.toUTF8.data.toList

/-- the segments in a row, a NUL between neighbours -/
def joinSegments (segments : List (List UInt8)) : List UInt8 := [0].intercalate segments

/-- the number of digits of a short hash -/
def hashLength : Nat := 20

/-- the short hash of a list of segments -/
def hashSegments (segments : List (List UInt8)) : List Char :=
  (Sha256.hex (Sha256.digest (joinSegments segments))).take hashLength

theorem length_hashSegments (segments : List (List UInt8)) :
    (hashSegments segments).length = hashLength := by
  simp [hashSegments, Sha256.hex_length, hashLength]

theorem isLowerHex_hashSegments (segments : List (List UInt8)) :
    ∀ c ∈ hashSegments segments, Text.isLowerHex c = true :=
  fun c hc => Sha256.hex_isLowerHex _ c (List.mem_of_mem_take hc)

end DiskLayers
