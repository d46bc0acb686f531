/-!
# Whole numbers as doubles

A double keeps the first 53 bits of a number.

* `roundQuotient`   a quotient rounded to a whole number, a half to the even one
* `roundToBits`     a number with all but its first bits rounded away
* `nearestDouble`   the double next to a whole number
* `infinityBound`   from where on there is no finite double next to a number

`le_roundQuotient` and `roundQuotient_le` say that a quotient moves by a half at most, and
`roundQuotient_mul` that whole numbers stay what they are.
-/

namespace DiskLayers

def roundQuotient (num den : Nat) : Nat :=
  let q := num / den
  let r := num % den
  if 2 * r > den ∨ (2 * r = den ∧ q % 2 = 1) then q + 1 else q

def roundToBits (bits n : Nat) : Nat :=
  let spare := Nat.log2 n + 1 - bits
  roundQuotient n (Nat.pow 2 spare) * Nat.pow 2 spare

/-- the bits of a double -/
def doubleBits : Nat := 53

/-- the double next to a whole number, if that is not too large -/
def nearestDouble (n : Nat) : Nat := roundToBits doubleBits n

def infinityBound : Nat := Nat.pow 2 1024 - Nat.pow 2 970

private theorem parts (num den : Nat) : num = num / den * den + num % den := by
  rw [Nat.mul_comm]
  exact (Nat.div_add_mod num den).symm

/-- rounding adds a half at most -/
theorem roundQuotient_le (num den : Nat) : 2 * (roundQuotient num den * den) ≤ 2 * num + den := by
  have h := parts num den
  have hs : (num / den + 1) * den = num / den * den + den := Nat.succ_mul _ _
  simp only [roundQuotient]
  split
  · next hr => omega
  · omega

/-- rounding takes a half away at most -/
theorem le_roundQuotient (num : Nat) {den : Nat} (hd : 0 < den) :
    2 * num ≤ 2 * (roundQuotient num den * den) + den := by
  have h := parts num den
  have hm : num % den < den := Nat.mod_lt _ hd
  have hs : (num / den + 1) * den = num / den * den + den := Nat.succ_mul _ _
  simp only [roundQuotient]
  split
  · omega
  · next hr => omega

/-- whole numbers stay what they are -/
theorem roundQuotient_mul (q : Nat) {den : Nat} (hd : 0 < den) :
    roundQuotient (q * den) den = q := by
  have hn : ¬ (2 * 0 > den ∨ (2 * 0 = den ∧ q % 2 = 1)) := by omega
  simp only [roundQuotient, Nat.mul_div_cancel _ hd, Nat.mul_mod_left, if_neg hn]

example : nearestDouble 9007199254740993 = 9007199254740992 := by decide +kernel
example : nearestDouble 9007199254740995 = 9007199254740996 := by decide +kernel

end DiskLayers
