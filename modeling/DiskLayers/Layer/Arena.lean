import DiskLayers.Layer.Basic

/-!
# The layers of one build

Layers refer to their parents by number, so that layers can share a parent.

* `Arena`                      the layers of a build, in the order of their making
* `Arena.insertBase`, `Arena.derive`
                               one more layer, without and with a parent
* `Arena.get?`                 the layer of a number
* `Arena.ancestry`             a layer, its parent, and so on

A parent has a smaller number than its child; a walk along parents stops where that fails, and so
always comes to an end.  `get?_push_of_lt` and `ancestry_push_of_lt` say that later layers change
nothing.
-/

namespace DiskLayers

structure Arena where
  layers : List Layer := []
  deriving Inhabited

namespace Arena

def empty : Arena := {}

/-- the number of layers -/
def size (a : Arena) : Nat := a.layers.length

def get? (a : Arena) (id : LayerId) : Option Layer := a.layers[id.index]?

/-- one more layer, with the next number -/
def push (a : Arena) (l : Layer) : LayerId × Arena := (⟨a.size⟩, ⟨a.layers ++ [l]⟩)

/-- one more layer without a parent -/
def insertBase (a : Arena) (identity : Identity) (location : Path) (directive : String) :
    LayerId × Arena :=
  a.push ⟨identity, none, location, .base, directive⟩

/-- one more layer with a parent -/
def derive (a : Arena) (parent : LayerId) (identity : Identity) (location : Path)
    (kind : LayerKind) (directive : String) : LayerId × Arena :=
  a.push ⟨identity, some parent, location, kind, directive⟩

/-- the layer of a number, its parent, and so on -/
def ancestryFrom (a : Arena) (i : Nat) : List Layer :=
  match a.layers[i]? with
  | none => []
  | some l =>
    match l.parent with
    | none => [l]
    | some p => if p.index < i then l :: ancestryFrom a p.index else [l]
termination_by i

def ancestry (a : Arena) (id : LayerId) : List Layer := a.ancestryFrom id.index

theorem get?_push_self (a : Arena) (l : Layer) : (a.push l).2.get? (a.push l).1 = some l := by
  simp [push, get?, size]

theorem get?_push_of_lt (a : Arena) (l : Layer) {id : LayerId} (h : id.index < a.size) :
    (a.push l).2.get? id = a.get? id := by
  simp only [push, get?, size] at *
  exact List.getElem?_append_left h

theorem ancestryFrom_push_of_lt (a : Arena) (l : Layer) (i : Nat) (h : i < a.size) :
    (a.push l).2.ancestryFrom i = a.ancestryFrom i := by
  induction i using Nat.strongRecOn with
  | _ i ih =>
    have e : (a.push l).2.layers[i]? = a.layers[i]? := @get?_push_of_lt a l ⟨i⟩ h
    rw [ancestryFrom, ancestryFrom, e]
    split
    · rfl
    · split
      · rfl
      · next p _ =>
        split
        · next hp => rw [ih p.index hp (by omega)]
        · rfl

theorem ancestry_push_of_lt (a : Arena) (l : Layer) {id : LayerId} (h : id.index < a.size) :
    (a.push l).2.ancestry id = a.ancestry id := ancestryFrom_push_of_lt a l id.index h

end Arena

end DiskLayers
