import DiskLayers.Layer.Arena
import Mathlib

/-!
# The layers of a build form a forest

* `Insertion`           one more layer, with or without a parent
* `Arena.insertAll`     several insertions: the numbers that they return, and the arena that they leave
* `Arena.Admits`        insertions whose parents are numbers that were returned before
* `Arena.Climbs`        a walk from a layer to its parent, and so on, that comes to an end; nothing but the
                        parents themselves bounds it
* `Arena.Rooted`        every parent has a smaller number than its child

An insertion keeps an arena rooted (`Rooted.push`), hence several do (`Rooted.insertAll`).  In a rooted
arena every walk comes to an end (`Rooted.exists_climbs`), and it is the one that `ancestry` takes
(`Rooted.map_get?_of_climbs`).
-/

namespace DiskLayers

inductive Insertion where
  | base (identity : Identity) (location : Path) (directive : String)
  | child (parent : LayerId) (identity : Identity) (location : Path) (kind : LayerKind)
      (directive : String)
  deriving DecidableEq

namespace Insertion

def layer : Insertion → Layer
  | .base identity location directive => ⟨identity, none, location, .base, directive⟩
  | .child parent identity location kind directive => ⟨identity, some parent, location, kind, directive⟩

def isBase : Insertion → Bool
  | .base .. => true
  | .child .. => false

theorem isBase_of_parent {x : Insertion} (h : x.layer.parent = none) : x.isBase = true := by
  cases x with
  | base _ _ _ => rfl
  | child _ _ _ _ _ => cases h

end Insertion

namespace Arena

/-! ## inserting -/

def insert (a : Arena) : Insertion → LayerId × Arena
  | .base identity location directive => a.insertBase identity location directive
  | .child parent identity location kind directive => a.derive parent identity location kind directive

def insertAll (a : Arena) : List Insertion → List LayerId × Arena
  | [] => ([], a)
  | x :: xs =>
    let (id, b) := a.insert x
    let (ids, c) := b.insertAll xs
    (id :: ids, c)

def Admits (a : Arena) (returned : List LayerId) : List Insertion → Prop
  | [] => True
  | x :: xs => (∀ p, x.layer.parent = some p → p ∈ returned) ∧
      (a.insert x).2.Admits (returned ++ [(a.insert x).1]) xs

/-- A walk from a layer to its parent, and so on, down to a layer without one. -/
inductive Climbs (a : Arena) : LayerId → List LayerId → Prop where
  | root {id : LayerId} {l : Layer} (h : a.get? id = some l) (hroot : l.parent = none) : Climbs a id [id]
  | up {id p : LayerId} {l : Layer} {above : List LayerId} (h : a.get? id = some l)
      (hp : l.parent = some p) (rest : Climbs a p above) : Climbs a id (id :: above)

def Rooted (a : Arena) : Prop :=
  ∀ id l p, a.get? id = some l → l.parent = some p → p.index < id.index

theorem insert_eq (a : Arena) (x : Insertion) : a.insert x = a.push x.layer := by
  cases x <;> rfl

theorem insertAll_cons (a : Arena) (x : Insertion) (xs : List Insertion) :
    a.insertAll (x :: xs) =
      (⟨a.size⟩ :: ((a.push x.layer).2.insertAll xs).1, ((a.push x.layer).2.insertAll xs).2) := by
  rw [insertAll, insert_eq]
  rfl

theorem size_push (a : Arena) (l : Layer) : (a.push l).2.size = a.size + 1 := by
  simp [push, size]

theorem layers_insertAll (a : Arena) (xs : List Insertion) :
    (a.insertAll xs).2.layers = a.layers ++ xs.map Insertion.layer := by
  induction xs generalizing a with
  | nil => simp [insertAll]
  | cons x xs ih =>
    rw [insertAll_cons]
    show ((a.push x.layer).2.insertAll xs).2.layers = _
    rw [ih]
    simp [push]

theorem returned_insertAll (a : Arena) (xs : List Insertion) :
    (a.insertAll xs).1 = (List.range' a.size xs.length).map LayerId.mk := by
  induction xs generalizing a with
  | nil => rfl
  | cons x xs ih =>
    rw [insertAll_cons]
    show _ :: ((a.push x.layer).2.insertAll xs).1 = _
    rw [ih, size_push]
    rfl

theorem returned_insertAll_empty (xs : List Insertion) :
    (empty.insertAll xs).1 = (List.range' 0 xs.length).map LayerId.mk :=
  returned_insertAll empty xs

theorem returned_insertAll_append (xs ys : List Insertion) :
    (empty.insertAll (xs ++ ys)).1 =
      (empty.insertAll xs).1 ++ (List.range' xs.length ys.length).map LayerId.mk := by
  rw [returned_insertAll_empty, returned_insertAll_empty, ← List.map_append, List.length_append,
    ← List.range'_append_1]
  simp

theorem get?_insertAll_empty (xs : List Insertion) (i : Nat) :
    (empty.insertAll xs).2.get? ⟨i⟩ = (xs[i]?).map Insertion.layer := by
  unfold get?
  rw [layers_insertAll]
  simp [empty]

theorem get?_insertAll_append {xs ys : List Insertion} (id : LayerId) (l : Layer)
    (h : (empty.insertAll xs).2.get? id = some l) : (empty.insertAll (xs ++ ys)).2.get? id = some l := by
  rw [show id = ⟨id.index⟩ from rfl, get?_insertAll_empty, Option.map_eq_some_iff] at h ⊢
  obtain ⟨x, hx, rfl⟩ := h
  refine ⟨x, ?_, rfl⟩
  rw [List.getElem?_append_left (List.getElem?_eq_some_iff.mp hx).1]
  exact hx

/-! ## parents come first -/

theorem Rooted.push {a : Arena} (h : a.Rooted) {l : Layer}
    (hl : ∀ p, l.parent = some p → p.index < a.size) : (a.push l).2.Rooted := by
  intro id l' p hget hp
  by_cases hid : id.index < a.size
  · rw [a.get?_push_of_lt l hid] at hget
    exact h id l' p hget hp
  · -- the number of the new layer is the only one besides
    have hlt : id.index < (a.push l).2.size := (List.getElem?_eq_some_iff.mp hget).1
    rw [size_push] at hlt
    have hindex : id.index = a.size := by omega
    have he : id = (a.push l).1 := by
      cases id
      exact congrArg LayerId.mk hindex
    rw [he, get?_push_self] at hget
    cases hget
    have := hl p hp
    omega

theorem Rooted.insertAll {a : Arena} (h : a.Rooted) {returned : List LayerId} {xs : List Insertion}
    (hret : ∀ id ∈ returned, id.index < a.size) (hxs : a.Admits returned xs) :
    (a.insertAll xs).2.Rooted := by
  -- the numbers returned so far all stay below the size, which is the number that comes next
  induction xs generalizing a returned with
  | nil => exact h
  | cons x xs ih =>
    obtain ⟨hx, hrest⟩ := hxs
    rw [insert_eq] at hrest
    rw [insertAll_cons]
    apply ih (h.push fun p hp => hret p (hx p hp)) _ hrest
    intro id hid
    rw [size_push]
    rcases List.mem_append.mp hid with hid | hid
    · have := hret id hid
      omega
    · rw [List.mem_singleton.mp hid]
      exact Nat.lt_succ_self _

/-! ## walks -/

theorem Climbs.mono {a b : Arena} {id : LayerId} {climb : List LayerId} (h : a.Climbs id climb)
    (hab : ∀ id l, a.get? id = some l → b.get? id = some l) : b.Climbs id climb := by
  induction h with
  | root h hroot => exact .root (hab _ _ h) hroot
  | up h hp _ ih => exact .up (hab _ _ h) hp ih

theorem Climbs.exists_root {a : Arena} {id : LayerId} {climb : List LayerId} (h : a.Climbs id climb) :
    ∃ root l, climb.getLast? = some root ∧ a.get? root = some l ∧ l.parent = none := by
  induction h with
  | root h hroot => exact ⟨_, _, rfl, h, hroot⟩
  | up h hp rest ih =>
    obtain ⟨root, l, hlast, hget, hl⟩ := ih
    refine ⟨root, l, ?_, hget, hl⟩
    rw [List.getLast?_cons, hlast]
    rfl

theorem Climbs.get?_of_mem {a : Arena} {id : LayerId} {climb : List LayerId} (h : a.Climbs id climb)
    {i : LayerId} (hi : i ∈ climb) : ∃ l, a.get? i = some l := by
  induction h with
  | root h _ =>
    rw [List.mem_singleton.mp hi]
    exact ⟨_, h⟩
  | up h _ _ ih =>
    rcases List.mem_cons.mp hi with rfl | hi
    · exact ⟨_, h⟩
    · exact ih hi

namespace Rooted
variable {a : Arena} (h : a.Rooted)
include h

/-- every walk comes to an end, by induction on the number that it begins with -/
theorem exists_climbs (hfound : ∀ id l p, a.get? id = some l → l.parent = some p → p.index < a.size)
    {id : LayerId} (hid : id.index < a.size) : ∃ climb, a.Climbs id climb := by
  obtain ⟨i⟩ := id
  induction i using Nat.strongRecOn with
  | _ i ih =>
    obtain ⟨l, hl⟩ : ∃ l, a.get? ⟨i⟩ = some l := ⟨_, List.getElem?_eq_getElem hid⟩
    cases hp : l.parent with
    | none => exact ⟨_, .root hl hp⟩
    | some p =>
      obtain ⟨climb, hclimb⟩ := ih p.index (h _ _ _ hl hp) (hfound _ _ _ hl hp)
      exact ⟨_, .up hl hp hclimb⟩

theorem pairwise_of_climbs {id : LayerId} {climb : List LayerId} (hc : a.Climbs id climb) :
    climb.Pairwise (fun i j => j.index < i.index) ∧ ∀ i ∈ climb, i.index ≤ id.index := by
  induction hc with
  | root _ _ => simp
  | @up id p l above hget hp _ ih =>
    have hlt := h id l p hget hp
    refine ⟨List.pairwise_cons.mpr ⟨fun i hi => ?_, ih.1⟩, fun i hi => ?_⟩
    · have := ih.2 i hi
      omega
    · rcases List.mem_cons.mp hi with rfl | hi
      · exact Nat.le_refl _
      · have := ih.2 i hi
        omega

/-- the walk that `ancestry` takes is the one along the parents -/
theorem map_get?_of_climbs {id : LayerId} {climb : List LayerId} (hc : a.Climbs id climb) :
    climb.map a.get? = (a.ancestry id).map some := by
  induction hc with
  | root hget hroot =>
    have hlayer : a.layers[_]? = some _ := hget
    unfold ancestry ancestryFrom
    simp [hget, hlayer, hroot]
  | @up id p l above hget hp _ ih =>
    have hlayer : a.layers[id.index]? = some l := hget
    have hlt := h id l p hget hp
    unfold ancestry ancestryFrom
    rw [hlayer]
    simp only [hp, hlt, if_true, List.map_cons, hget]
    rw [ih]
    rfl

theorem ancestry_of_climbs {b : Arena} (hb : b.Rooted)
    (hab : ∀ id l, a.get? id = some l → b.get? id = some l) {id : LayerId} {climb : List LayerId}
    (hc : a.Climbs id climb) : b.ancestry id = a.ancestry id := by
  apply List.map_injective_iff.mpr (Option.some_injective Layer)
  rw [← hb.map_get?_of_climbs (hc.mono hab), ← h.map_get?_of_climbs hc]
  apply List.map_congr_left
  intro i hi
  obtain ⟨l, hl⟩ := hc.get?_of_mem hi
  rw [hl]
  exact hab i l hl

end Rooted

/-! ## the layers of a build -/

theorem rooted_empty : Rooted empty := by
  intro id l p hget
  cases hget

theorem Admits.of_append {a : Arena} {returned : List LayerId} {xs ys : List Insertion}
    (h : a.Admits returned (xs ++ ys)) : a.Admits returned xs := by
  induction xs generalizing a returned with
  | nil => trivial
  | cons x xs ih => exact ⟨h.1, ih h.2⟩

theorem rooted_insertAll_empty {xs : List Insertion} (h : empty.Admits [] xs) :
    (empty.insertAll xs).2.Rooted ∧
      ∀ id l p, (empty.insertAll xs).2.get? id = some l → l.parent = some p →
        p.index < (empty.insertAll xs).2.size := by
  have hrooted := rooted_empty.insertAll (fun id hid => absurd hid List.not_mem_nil) h
  refine ⟨hrooted, fun id l p hget hp => ?_⟩
  have hlt := hrooted id l p hget hp
  have hid : id.index < (empty.insertAll xs).2.size := (List.getElem?_eq_some_iff.mp hget).1
  omega

end Arena

/-- The layers of a build form a forest.  A number that was returned goes on to denote the layer it was
returned for, and the walk along its parents visits smaller and smaller numbers, ends at a layer that was
inserted without a parent, and is the same after any later insertions. -/
theorem layers_form_forest (xs ys : List Insertion) (h : Arena.empty.Admits [] (xs ++ ys)) :
    ∃ (ids more : List LayerId) (a b : Arena), Arena.empty.insertAll xs = (ids, a) ∧
      Arena.empty.insertAll (xs ++ ys) = (ids ++ more, b) ∧
      ids.length = xs.length ∧ (ids ++ more).Nodup ∧
      ∀ (i : Nat) (x : Insertion), xs[i]? = some x → ∃ (id : LayerId) (climb : List LayerId),
        ids[i]? = some id ∧ a.get? id = some x.layer ∧ b.get? id = some x.layer ∧
        a.Climbs id climb ∧ b.Climbs id climb ∧
        climb.Pairwise (fun j k => k.index < j.index) ∧
        climb.map a.get? = (a.ancestry id).map some ∧ b.ancestry id = a.ancestry id ∧
        ∃ (k : Nat) (root : LayerId) (base : Insertion), climb.getLast? = some root ∧
          ids[k]? = some root ∧ xs[k]? = some base ∧ base.isBase = true := by
  obtain ⟨hrooted, hfound⟩ := Arena.rooted_insertAll_empty h.of_append
  obtain ⟨hrooted', -⟩ := Arena.rooted_insertAll_empty h
  have hids := Arena.returned_insertAll_empty
  have hget := Arena.get?_insertAll_empty
  have hlater := @Arena.get?_insertAll_append xs ys
  have hnth : ∀ i x, xs[i]? = some x → (Arena.empty.insertAll xs).1[i]? = some (LayerId.mk i) := by
    intro i x hx
    have hi : i < xs.length := (List.getElem?_eq_some_iff.mp hx).1
    rw [hids]
    simp [hi]
  refine ⟨_, (List.range' xs.length ys.length).map LayerId.mk, _, _, rfl,
    Prod.ext (Arena.returned_insertAll_append xs ys) rfl, ?_, ?_, ?_⟩
  · rw [hids]
    simp
  · rw [← Arena.returned_insertAll_append, hids]
    apply List.Nodup.map _ List.nodup_range'
    intro i j hij
    exact congrArg LayerId.index hij
  · intro i x hx
    have hi : (Arena.empty.insertAll xs).2.get? ⟨i⟩ = some x.layer := by
      rw [hget, hx]
      rfl
    obtain ⟨climb, hclimb⟩ :=
      hrooted.exists_climbs hfound (List.getElem?_eq_some_iff.mp hi).1
    obtain ⟨root, l, hlast, hroot, hl⟩ := hclimb.exists_root
    rw [show root = ⟨root.index⟩ from rfl, hget, Option.map_eq_some_iff] at hroot
    obtain ⟨base, hbase, rfl⟩ := hroot
    exact ⟨⟨i⟩, climb, hnth i x hx, hi, hlater _ _ hi, hclimb, hclimb.mono hlater,
      (hrooted.pairwise_of_climbs hclimb).1, hrooted.map_get?_of_climbs hclimb,
      hrooted.ancestry_of_climbs hrooted' hlater hclimb, root.index, root, base, hlast,
      hnth _ _ hbase, hbase, Insertion.isBase_of_parent hl⟩

/-- a layer with two children, one of which has a child of its own -/
def twoBranches : List Insertion :=
  [.base ⟨"fedora-23"⟩ ⟨"/s/fedora-23.qcow2"⟩ "BASE:fedora-23",
   .child ⟨0⟩ ⟨"a"⟩ ⟨"/s/a.qcow2"⟩ .derived "MUTATE:a",
   .child ⟨0⟩ ⟨"b"⟩ ⟨"/s/b.qcow2"⟩ .derived "MUTATE:b",
   .child ⟨1⟩ ⟨"c"⟩ ⟨"/s/c.qcow2"⟩ .derived "MUTATE:c"]

/-- the youngest layer of `twoBranches`, before and after another base is inserted -/
theorem twoBranches_form_forest :
    Arena.empty.Admits [] (twoBranches ++ [.base ⟨"debian"⟩ ⟨"/s/debian.qcow2"⟩ "BASE:debian"]) ∧
      ∃ (ids more : List LayerId) (a b : Arena), Arena.empty.insertAll twoBranches = (ids, a) ∧
        Arena.empty.insertAll
          (twoBranches ++ [.base ⟨"debian"⟩ ⟨"/s/debian.qcow2"⟩ "BASE:debian"]) = (ids ++ more, b) ∧
        ∃ (id : LayerId) (climb : List LayerId), ids[3]? = some id ∧ a.Climbs id climb ∧
          climb.map a.get? = (a.ancestry id).map some ∧ b.ancestry id = a.ancestry id := by
  have h : Arena.empty.Admits []
      (twoBranches ++ [.base ⟨"debian"⟩ ⟨"/s/debian.qcow2"⟩ "BASE:debian"]) := by
    simp [twoBranches, Arena.Admits, Arena.insert, Arena.insertBase, Arena.derive, Arena.push,
      Arena.size, Arena.empty, Insertion.layer]
  obtain ⟨ids, more, a, b, ha, hb, -, -, hall⟩ := layers_form_forest twoBranches _ h
  obtain ⟨id, climb, hid, -, -, hclimb, -, -, hmap, hsame, -⟩ := hall 3 _ rfl
  exact ⟨h, ids, more, a, b, ha, hb, id, climb, hid, hclimb, hmap, hsame⟩

end DiskLayers
