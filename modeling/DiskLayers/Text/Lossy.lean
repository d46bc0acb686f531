/-!
# Reading bytes as text with replacement

UTF-8 bytes are read character by character.  Where no character can be read, the longest run of
bytes that begins some character (or the single byte, if none does) becomes one replacement
character U+FFFD, and reading goes on behind it.

* `utf8Lead`    what the first byte of a character asks of the bytes behind it
* `lossyChars`  the characters of a byte list
* `lossyText`   the text of a byte array
-/

namespace DiskLayers.Text

/-- What a first byte asks for: the value it contributes, the number of bytes behind it, and the
bounds of the first of those. -/
structure Lead where
  value : Nat
  more : Nat
  low : Nat
  high : Nat

/-- The demands of a first byte, none if no character begins with it. -/
def utf8Lead (b : Nat) : Option Lead :=
  if b < 0x80 then some ⟨b, 0, 0x80, 0xBF⟩
  else if b < 0xC2 then none
  else if b < 0xE0 then some ⟨b - 0xC0, 1, 0x80, 0xBF⟩
  else if b = 0xE0 then some ⟨0, 2, 0xA0, 0xBF⟩
  else if b = 0xED then some ⟨0xD, 2, 0x80, 0x9F⟩
  else if b < 0xF0 then some ⟨b - 0xE0, 2, 0x80, 0xBF⟩
  else if b = 0xF0 then some ⟨0, 3, 0x90, 0xBF⟩
  else if b < 0xF4 then some ⟨b - 0xF0, 3, 0x80, 0xBF⟩
  else if b = 0xF4 then some ⟨4, 3, 0x80, 0x8F⟩
  else none

/-- A character under way: the value so far, the bytes still owed and the bounds of the next. -/
abbrev Pending := Lead

/-- The characters of a byte list, `pending` being the character under way. -/
def lossyChars : Option Pending → List UInt8 → List Char
  | none, [] => []
  | some _, [] => ['\ufffd']
  | none, b :: bs =>
    match utf8Lead b.toNat with
    | none => '\ufffd' :: lossyChars none bs
    | some ⟨v, 0, _, _⟩ => Char.ofNat v :: lossyChars none bs
    | some lead => lossyChars (some lead) bs
  | some p, b :: bs =>
    let n := b.toNat
    if p.low ≤ n ∧ n ≤ p.high then
      let v := p.value * 64 + (n - 0x80)
      if p.more ≤ 1 then Char.ofNat v :: lossyChars none bs
      else lossyChars (some ⟨v, p.more - 1, 0x80, 0xBF⟩) bs
    else
      match utf8Lead n with
      | none => '\ufffd' :: '\ufffd' :: lossyChars none bs
      | some ⟨v, 0, _, _⟩ => '\ufffd' :: Char.ofNat v :: lossyChars none bs
      | some lead => '\ufffd' :: lossyChars (some lead) bs

/-- The text of a byte array, with replacements where it is no UTF-8. -/
def lossyText (bytes : ByteArray) : String :=
  match String.fromUTF8? bytes with
  | some s => s
  | none => String.ofList (lossyChars none bytes.data.toList)

example : lossyChars none [0x61, 0xE2, 0x82, 0xAC, 0xF0, 0x9F, 0x98, 0x80] = ['a', '€', '😀'] := by
  decide
example : lossyChars none [0xE2, 0x82, 0x41, 0xFF, 0xED, 0xA0, 0x80]
    = ['\ufffd', 'A', '\ufffd', '\ufffd', '\ufffd', '\ufffd'] := by decide

end DiskLayers.Text
