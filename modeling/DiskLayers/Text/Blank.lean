/-!
# Blank characters and trimming

A character is BLANK when Unicode gives it the property `White_Space`; there are 25 of them.

* `isBlank`              the property
* `trimBlankStart`, `trimBlankEnd`, `trimBlank`
                         a character list without its leading, trailing, surrounding blanks
* `trim`, `isAllBlank`   the same on strings

`trimBlankStart_of_not_isBlank`, `trimBlank_nil` and `trimBlankEnd_append` say what trimming does
to the ends of a list.
-/

namespace DiskLayers.Text

/-- the characters with the Unicode property `White_Space` -/
def isBlank (c : Char) : Bool :=
  let n := c.toNat
  (0x09 ≤ n && n ≤ 0x0D) || n == 0x20 || n == 0x85 || n == 0xA0 || n == 0x1680 ||
    (0x2000 ≤ n && n ≤ 0x200A) || n == 0x2028 || n == 0x2029 || n == 0x202F || n == 0x205F ||
    n == 0x3000

/-- the list from its first character that is not blank -/
def trimBlankStart (cs : List Char) : List Char := cs.dropWhile isBlank

/-- the list up to its last character that is not blank -/
def trimBlankEnd : List Char → List Char
  | [] => []
  | c :: cs =>
    match trimBlankEnd cs with
    | [] => if isBlank c then [] else [c]
    | d :: ds => c :: d :: ds

/-- the list without the blanks around it -/
def trimBlank (cs : List Char) : List Char := trimBlankEnd (trimBlankStart cs)

/-- a text without the blanks around it -/
def trim (s : String) : String := String.ofList (trimBlank s.toList)

/-- nothing but blanks -/
def isAllBlank (s : String) : Bool := s.toList.all isBlank

theorem trimBlankStart_nil : trimBlankStart [] = [] := rfl
theorem trimBlankStart_of_isBlank {c : Char} (cs : List Char) (h : isBlank c = true) :
    trimBlankStart (c :: cs) = trimBlankStart cs := by simp [trimBlankStart, h]
theorem trimBlankStart_of_not_isBlank {c : Char} (cs : List Char) (h : isBlank c = false) :
    trimBlankStart (c :: cs) = c :: cs := by simp [trimBlankStart, h]

theorem trimBlankEnd_nil : trimBlankEnd [] = [] := rfl
theorem trimBlankEnd_append (cs : List Char) {c : Char} (h : isBlank c = false) :
    trimBlankEnd (cs ++ [c]) = cs ++ [c] := by
  induction cs with
  | nil => simp [trimBlankEnd, h]
  | cons d ds ih => cases ds <;> simp_all [trimBlankEnd]

theorem trimBlankEnd_append_of_isBlank (cs : List Char) {c : Char} (h : isBlank c = true) :
    trimBlankEnd (cs ++ [c]) = trimBlankEnd cs := by
  induction cs with
  | nil => simp [trimBlankEnd, h]
  | cons d ds ih => rw [List.cons_append, trimBlankEnd, trimBlankEnd, ih]

theorem trimBlank_nil : trimBlank [] = [] := rfl

example : isBlank ' ' && isBlank '\t' && isBlank '\u00a0' && isBlank '\u3000' = true := by decide
example : isBlank '\u200b' || isBlank '\u001c' || isBlank '\ufeff' = false := by decide

end DiskLayers.Text
