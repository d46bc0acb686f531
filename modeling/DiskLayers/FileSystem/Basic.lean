import DiskLayers.Path.Basic
import DiskLayers.SystemError

/-!
# File systems

A file system maps TRAILS to directories and files.  A trail lists the names from an entry up to
the root, the entry's own name first, so that its tail is the trail of the directory above.

* `Content`      the bytes of a file: zeros and what follows them
* `Node`         a directory, or a file with the number of its creation
* `FileRef`      a file apart from its name: where and as which it was created
* `FileSystem`   the entries below the root, and the files that have lost their names
* `FileSystem.node?`, `set`, `erase`
                 the entry of a trail, and how it comes and goes
* `FileSystem.content?`, `setContent`
                 the bytes of a file, reached through a `FileRef`
* `FileSystem.children`
                 the names in a directory

`node?_set` and `node?_erase` say what the two operations do to every trail.
-/

namespace DiskLayers

/-- The bytes of a file: a number of zeros, then the rest. -/
structure Content where
  zeros : Nat
  rest : ByteArray
  deriving Inhabited

instance : DecidableEq Content := fun a b =>
  decidable_of_iff (a.zeros = b.zeros ∧ a.rest.data = b.rest.data) <| by
    obtain ⟨m, ⟨xs⟩⟩ := a
    obtain ⟨n, ⟨ys⟩⟩ := b
    simp

namespace Content

def empty : Content := ⟨0, .empty⟩
def ofBytes (bytes : ByteArray) : Content := ⟨0, bytes⟩
def ofText (text : String) : Content := ⟨0, text.toUTF8⟩
def ofZeros (count : Nat) : Content := ⟨count, .empty⟩

/-- the number of bytes -/
def size (c : Content) : Nat := c.zeros + c.rest.size

/-- the bytes with a text behind them -/
def append (c : Content) (text : String) : Content := ⟨c.zeros, c.rest ++ text.toUTF8⟩

/-- the bytes as text, if they are UTF-8 -/
def text? (c : Content) : Option String :=
  (String.fromUTF8? c.rest).map fun rest => String.ofList (List.replicate c.zeros '\x00') ++ rest

theorem size_ofZeros (n : Nat) : (ofZeros n).size = n := by simp [size, ofZeros]

theorem fromUTF8?_toUTF8 (s : String) : String.fromUTF8? s.toUTF8 = some s :=
  dif_pos s.isValidUTF8

theorem text?_ofText (s : String) : (ofText s).text? = some s := by
  rw [text?, ofText, fromUTF8?_toUTF8]
  simp

end Content

/-- The names from an entry up to the root, its own name first; the root has none. -/
abbrev Trail := List String

/-- An entry of a file system.  Each file bears the number of its creation. -/
inductive Node where
  | dir
  | file (birth : Nat) (content : Content)
  deriving DecidableEq, Inhabited

namespace Node

def isFile : Node → Bool
  | .dir => false
  | .file _ _ => true

/-- what a directory reports as its size -/
def directorySize : Nat := 4096

/-- the size an entry reports -/
def size : Node → Nat
  | .dir => directorySize
  | .file _ content => content.size

end Node

/-- A file apart from its name: where it was opened and the number of its creation.  It still
names that file when the name is gone or belongs to another file. -/
structure FileRef where
  trail : Trail
  birth : Nat
  deriving DecidableEq, Repr, Inhabited

/-- The entries below the root, the number of the next file, the files whose names are gone, and
the directory that relative paths start from. -/
structure FileSystem where
  nodes : List (Trail × Node) := []
  births : Nat := 0
  nameless : List (FileRef × Content) := []
  current : Trail := []
  deriving Inhabited

namespace FileSystem

/-- the entry of a trail; the root is a directory -/
def node? (fs : FileSystem) (t : Trail) : Option Node :=
  if t = [] then some .dir else fs.nodes.lookup t

/-- the trail with this entry; the root stays what it is -/
def set (fs : FileSystem) (t : Trail) (n : Node) : FileSystem :=
  { fs with nodes := (t, n) :: fs.nodes.filter (·.1 ≠ t) }

/-- the trail without its entry -/
def erase (fs : FileSystem) (t : Trail) : FileSystem :=
  { fs with nodes := fs.nodes.filter (·.1 ≠ t) }

/-- whether there is a directory at the trail -/
def isDirAt (fs : FileSystem) (t : Trail) : Bool := fs.node? t = some .dir

/-- whether there is a file at the trail -/
def isFileAt (fs : FileSystem) (t : Trail) : Bool := (fs.node? t).any Node.isFile

theorem node?_root (fs : FileSystem) : fs.node? [] = some .dir := rfl

private theorem lookup_filter_ne (l : List (Trail × Node)) (t u : Trail) :
    (l.filter (·.1 ≠ t)).lookup u = if u = t then none else l.lookup u := by
  induction l with
  | nil => simp
  | cons p l ih =>
    obtain ⟨v, n⟩ := p
    by_cases hv : v = t
    · subst hv
      by_cases hu : u = v
      · simpa [hu] using ih
      · have : (u == v) = false := beq_eq_false_iff_ne.mpr hu
        simpa [List.lookup_cons, hu, this] using ih
    · rw [List.filter_cons_of_pos (by simpa using hv)]
      by_cases hu : u = v
      · subst hu; simp [hv]
      · have : (u == v) = false := beq_eq_false_iff_ne.mpr hu
        simpa [List.lookup_cons, this] using ih

/-- a new entry stands at its trail and changes no other one -/
theorem node?_set (fs : FileSystem) {t : Trail} (ht : t ≠ []) (n : Node) (u : Trail) :
    (fs.set t n).node? u = if u = t then some n else fs.node? u := by
  by_cases hu : u = []
  · subst hu; simp [node?, Ne.symm ht]
  · by_cases h : u = t
    · subst h; simp [node?, set, hu]
    · simp only [node?, hu, ↓reduceIte, set, List.lookup_cons, h, beq_eq_false_iff_ne.mpr h]
      rw [lookup_filter_ne, if_neg h]

/-- an erased entry is gone and every other one stays -/
theorem node?_erase (fs : FileSystem) {t : Trail} (ht : t ≠ []) (u : Trail) :
    (fs.erase t).node? u = if u = t then none else fs.node? u := by
  by_cases hu : u = []
  · subst hu; simp [node?, Ne.symm ht]
  · simp only [node?, hu, ↓reduceIte, erase]
    rw [lookup_filter_ne]

/-- The bytes of a file, by name as long as it has one. -/
def content? (fs : FileSystem) (ref : FileRef) : Option Content :=
  match fs.node? ref.trail with
  | some (.file birth content) =>
    if birth = ref.birth then some content else fs.nameless.lookup ref
  | _ => fs.nameless.lookup ref

/-- the file with other bytes, whether it still has a name or not -/
def setContent (fs : FileSystem) (ref : FileRef) (content : Content) : FileSystem :=
  let gone := { fs with nameless := (ref, content) :: fs.nameless.filter (·.1 ≠ ref) }
  match fs.node? ref.trail with
  | some (.file birth _) =>
    if birth = ref.birth then fs.set ref.trail (.file birth content) else gone
  | _ => gone

/-- a file at a trail that has none, with the next number -/
def create (fs : FileSystem) (t : Trail) (content : Content) : FileSystem :=
  { fs.set t (.file fs.births content) with births := fs.births + 1 }

/-- The trail without its file.  The bytes stay within reach of those who opened it. -/
def unname (fs : FileSystem) (t : Trail) : FileSystem :=
  match fs.node? t with
  | some (.file birth content) =>
    { fs.erase t with nameless := (⟨t, birth⟩, content) :: fs.nameless }
  | _ => fs

/-- the order of names by their bytes -/
def nameLE (a b : String) : Bool := decide (a ≤ b)

/-- the names in a directory, in order -/
def children (fs : FileSystem) (t : Trail) : List String :=
  (fs.nodes.filterMap fun (u, _) =>
    match u with
    | name :: above => if above = t then some name else none
    | [] => none).eraseDups.mergeSort nameLE

end FileSystem

end DiskLayers
