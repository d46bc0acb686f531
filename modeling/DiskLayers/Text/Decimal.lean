/-!
# Decimal numbers in text

* `digits n`        the decimal digits of a number, as characters
* `readDigits? cs`  the number that a non-empty list of digits spells
* `showNat n`       the digits as a text

`readDigits?_digits` says that reading undoes writing.
-/

namespace DiskLayers.Text

/-- the character of a digit below ten -/
def digitChar (d : Nat) : Char := Char.ofNat (48 + d % 10)

/-- the digits of `n`, the most significant first, no leading zero -/
def digits (n : Nat) : List Char :=
  if n < 10 then [digitChar n] else digits (n / 10) ++ [digitChar n]
termination_by n
decreasing_by omega

/-- a number as text -/
def showNat (n : Nat) : String := String.ofList (digits n)

/-- the value of a digit character -/
def digitValue? (c : Char) : Option Nat :=
  if '0'.toNat ≤ c.toNat ∧ c.toNat ≤ '9'.toNat then some (c.toNat - 48) else none

/-- `acc` followed by the digits of the list -/
def readDigitsFrom? (acc : Nat) : List Char → Option Nat
  | [] => some acc
  | c :: cs => (digitValue? c).bind fun d => readDigitsFrom? (acc * 10 + d) cs

/-- the number a non-empty list of digits spells -/
def readDigits? : List Char → Option Nat
  | [] => none
  | c :: cs => readDigitsFrom? 0 (c :: cs)

/-- a list of digits with an optional plus sign, at most `limit` -/
def readBounded? (limit : Nat) (cs : List Char) : Option Nat :=
  (readDigits? (if cs.head? = some '+' then cs.tail else cs)).filter (· ≤ limit)

theorem digitValue?_digitChar (n : Nat) : digitValue? (digitChar n) = some (n % 10) := by
  have h : n % 10 < 10 := Nat.mod_lt _ (by decide)
  rw [digitChar]
  revert h
  generalize n % 10 = d
  intro h
  have : d = 0 ∨ d = 1 ∨ d = 2 ∨ d = 3 ∨ d = 4 ∨ d = 5 ∨ d = 6 ∨ d = 7 ∨ d = 8 ∨ d = 9 := by omega
  rcases this with rfl | rfl | rfl | rfl | rfl | rfl | rfl | rfl | rfl | rfl <;> decide

theorem readDigitsFrom?_append (acc : Nat) (cs ds : List Char) :
    readDigitsFrom? acc (cs ++ ds) = (readDigitsFrom? acc cs).bind (readDigitsFrom? · ds) := by
  induction cs generalizing acc with
  | nil => rfl
  | cons c cs ih =>
    simp only [List.cons_append, readDigitsFrom?]
    cases digitValue? c with
    | none => rfl
    | some d => simp only [Option.bind_some]; exact ih _

theorem readDigitsFrom?_digits (n : Nat) : readDigitsFrom? 0 (digits n) = some n := by
  induction n using Nat.strongRecOn with
  | _ n ih =>
    rw [digits]
    split
    · next h => simp [readDigitsFrom?, digitValue?_digitChar, Nat.mod_eq_of_lt h]
    · next h =>
      rw [readDigitsFrom?_append, ih (n / 10) (by omega)]
      simp only [Option.bind_some, readDigitsFrom?, digitValue?_digitChar]
      congr 1
      omega

theorem digits_ne_nil (n : Nat) : digits n ≠ [] := by
  rw [digits]
  split <;> simp

/-- reading undoes writing -/
theorem readDigits?_digits (n : Nat) : readDigits? (digits n) = some n := by
  cases h : digits n with
  | nil => exact absurd h (digits_ne_nil n)
  | cons c cs => rw [readDigits?, ← h, readDigitsFrom?_digits]

end DiskLayers.Text
