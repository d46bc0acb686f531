/-!
# Cutting character lists at a separator

* `splitFirst c cs`   what stands before and after the first `c`, if there is one
* `splitLast c cs`    what stands before and after the last `c`, if there is one
* `splitAll c cs`     the pieces between the `c`s; there is always at least one
* `joinWith c ps`     the pieces with a `c` between neighbours
* `contains`          whether one list occurs inside another

`joinWith_splitAll` says that joining undoes splitting.
-/

namespace DiskLayers.Text

/-- what stands before and after the first `sep` -/
def splitFirst (sep : Char) : List Char → Option (List Char × List Char)
  | [] => none
  | c :: cs =>
    if c = sep then some ([], cs)
    else (splitFirst sep cs).map fun (before, after) => (c :: before, after)

/-- what stands before and after the last `sep` -/
def splitLast (sep : Char) : List Char → Option (List Char × List Char)
  | [] => none
  | c :: cs =>
    match splitLast sep cs with
    | some (before, after) => some (c :: before, after)
    | none => if c = sep then some ([], cs) else none

/-- the pieces between the separators -/
def splitAll (sep : Char) : List Char → List (List Char)
  | [] => [[]]
  | c :: cs =>
    if c = sep then [] :: splitAll sep cs
    else
      match splitAll sep cs with
      | [] => [[c]]
      | p :: ps => (c :: p) :: ps

/-- the pieces in a row, a separator between neighbours -/
def joinWith (sep : Char) : List (List Char) → List Char
  | [] => []
  | [p] => p
  | p :: q :: ps => p ++ sep :: joinWith sep (q :: ps)

/-- whether `part` occurs somewhere in the list -/
def contains (part : List Char) : List Char → Bool
  | [] => part.isEmpty
  | c :: cs => part.isPrefixOf (c :: cs) || contains part cs

/-- every `old` replaced by the characters `new` -/
def replaceChar (old : Char) (new : List Char) (cs : List Char) : List Char :=
  cs.flatMap fun c => if c = old then new else [c]

theorem splitFirst_nil (sep : Char) : splitFirst sep [] = none := rfl
theorem splitFirst_self (sep : Char) (cs : List Char) :
    splitFirst sep (sep :: cs) = some ([], cs) := by simp [splitFirst]

/-- the two parts and the separator make up the list, and the first part holds no separator -/
theorem splitFirst_eq_some {sep : Char} {cs before after : List Char}
    (h : splitFirst sep cs = some (before, after)) :
    cs = before ++ sep :: after ∧ sep ∉ before := by
  induction cs generalizing before with
  | nil => simp [splitFirst] at h
  | cons c cs ih =>
    by_cases hc : c = sep
    · subst hc
      simp only [splitFirst, ↓reduceIte, Option.some.injEq, Prod.mk.injEq] at h
      obtain ⟨rfl, rfl⟩ := h
      simp
    · simp only [splitFirst, hc, ↓reduceIte, Option.map_eq_some_iff, Prod.exists,
        Prod.mk.injEq] at h
      obtain ⟨b, a, hs, rfl, rfl⟩ := h
      obtain ⟨rfl, hn⟩ := ih hs
      simp [hn, Ne.symm hc]

theorem splitFirst_eq_none {sep : Char} {cs : List Char} : splitFirst sep cs = none ↔ sep ∉ cs := by
  induction cs with
  | nil => simp [splitFirst]
  | cons c cs ih =>
    by_cases hc : c = sep
    · simp [splitFirst, hc]
    · simp [splitFirst, hc, ih, Ne.symm hc]

theorem splitFirst_append {sep : Char} {before : List Char} (h : sep ∉ before) (rest : List Char) :
    splitFirst sep (before ++ sep :: rest) = some (before, rest) := by
  induction before with
  | nil => exact splitFirst_self sep rest
  | cons c before ih =>
    have hc : c ≠ sep := fun e => h (e ▸ List.mem_cons_self)
    rw [List.cons_append, splitFirst, if_neg hc, ih fun hm => h (List.mem_cons_of_mem _ hm)]
    rfl

theorem splitAll_nil (sep : Char) : splitAll sep [] = [[]] := rfl
theorem splitAll_self (sep : Char) (cs : List Char) :
    splitAll sep (sep :: cs) = [] :: splitAll sep cs := by simp [splitAll]

theorem splitAll_ne_nil (sep : Char) (cs : List Char) : splitAll sep cs ≠ [] := by
  cases cs with
  | nil => simp [splitAll]
  | cons c cs =>
    by_cases h : c = sep
    · simp [splitAll, h]
    · simp only [splitAll, h, ↓reduceIte]
      split <;> simp

theorem joinWith_nil (sep : Char) : joinWith sep [] = [] := rfl
theorem joinWith_singleton (sep : Char) (p : List Char) : joinWith sep [p] = p := rfl
theorem joinWith_cons_cons (sep : Char) (p q : List Char) (ps : List (List Char)) :
    joinWith sep (p :: q :: ps) = p ++ sep :: joinWith sep (q :: ps) := rfl

/-- joining undoes splitting -/
theorem joinWith_splitAll (sep : Char) (cs : List Char) : joinWith sep (splitAll sep cs) = cs := by
  induction cs with
  | nil => rfl
  | cons c cs ih =>
    by_cases h : c = sep
    · subst h
      rw [splitAll_self]
      cases hs : splitAll c cs with
      | nil => exact absurd hs (splitAll_ne_nil c cs)
      | cons p ps => rw [joinWith_cons_cons, ← hs, ih]; rfl
    · simp only [splitAll, h, ↓reduceIte]
      cases hs : splitAll sep cs with
      | nil => exact absurd hs (splitAll_ne_nil sep cs)
      | cons p ps =>
        rw [hs] at ih
        cases ps with
        | nil => simpa [joinWith] using ih
        | cons q qs => simpa [joinWith] using ih

end DiskLayers.Text
