/-!
# Hexadecimal digits

* `hexDigit n`    the digit, in lower case, of the last four bits of a number
* `hexValue? c`   the value of a digit of either case
* `isLowerHex c`  a decimal digit or one of the letters `a` to `f`

`isLowerHex_hexDigit` and `hexValue?_hexDigit` say that writing gives such a digit, with its value.
-/

namespace DiskLayers.Text

/-- the digit of the last four bits of a number -/
def hexDigit (n : Nat) : Char :=
  if n % 16 < 10 then Char.ofNat (48 + n % 16) else Char.ofNat (87 + n % 16)

/-- the value of a digit of either case -/
def hexValue? (c : Char) : Option Nat :=
  let n := c.toNat
  if 48 ≤ n ∧ n ≤ 57 then some (n - 48)
  else if 97 ≤ n ∧ n ≤ 102 then some (n - 87)
  else if 65 ≤ n ∧ n ≤ 70 then some (n - 55)
  else none

/-- a decimal digit or one of the first six letters in lower case -/
def isLowerHex (c : Char) : Bool := ('0' ≤ c && c ≤ '9') || ('a' ≤ c && c ≤ 'f')

/-- a statement about every hexadecimal digit follows from its sixteen cases -/
theorem hexDigit_cases {P : Char → Nat → Prop} (h : ∀ d : Fin 16, P (hexDigit d) d) (n : Nat) :
    P (hexDigit n) (n % 16) := by
  have hn : n % 16 < 16 := Nat.mod_lt _ (by decide)
  have := h ⟨n % 16, hn⟩
  simpa [hexDigit] using this

theorem isLowerHex_hexDigit (n : Nat) : isLowerHex (hexDigit n) = true :=
  hexDigit_cases (P := fun c _ => isLowerHex c = true) (by decide) n

theorem hexValue?_hexDigit (n : Nat) : hexValue? (hexDigit n) = some (n % 16) :=
  hexDigit_cases (P := fun c d => hexValue? c = some d) (by decide) n

end DiskLayers.Text
