import DiskLayers.Proofs.Keys

/-!
# What a key tells of its script

* `shortHash`, `hashInput`   what a derived key is the hash of
* `Leads`                    the operations of a script so far lead to a key
* `hashInputsFrom`           what is hashed on the way
* `reference?`               the reference that a script begins with
* `Collisionless`            scripts whose hashes do not collide
* `Unambiguous`              scripts whose base images keep apart besides

`Collisionless.step_inj` says that a key tells the key below and the descriptor of the operation
above it; so the keys of a script are different, and `Unambiguous.step_inj` tells the whole script
but for blanks around the reference of its base image.
-/

namespace DiskLayers

/-- the first digits of the digest of some bytes -/
def shortHash (bytes : List UInt8) : List Char := (Sha256.hex (Sha256.digest bytes)).take hashLength

/-- the bytes that the key above a key is the hash of -/
def hashInput (parent : Identity) (op : Operation) : List UInt8 :=
  joinSegments [utf8Bytes parent.name, utf8Bytes op.descriptor]

theorem derive_eq (parent : Identity) (op : Operation) :
    parent.derive op = ⟨String.ofList (shortHash (hashInput parent op))⟩ := rfl

theorem joinSegments_pair (as bs : List UInt8) : joinSegments [as, bs] = as ++ 0 :: bs := by
  simp [joinSegments, List.intercalate]

/-! ## bytes of texts -/

theorem utf8Bytes_eq (s : String) : utf8Bytes s = s.toList.flatMap String.utf8EncodeChar := by
  show s.toByteArray.data.toList = _
  rw [← String.utf8Encode_toList]
  exact List.toList_data_toByteArray

theorem utf8Bytes_injective {s s' : String} (h : utf8Bytes s = utf8Bytes s') : s = s' := by
  apply String.toByteArray_inj.mp
  show s.toUTF8 = s'.toUTF8
  cases hs : s.toUTF8
  cases hs' : s'.toUTF8
  rw [utf8Bytes, utf8Bytes, hs, hs'] at h
  simpa using h

theorem isNameChar_bounds {c : Char} (h : isNameChar c = true) :
    32 < c.val.toNat ∧ c.val.toNat < 128 := by
  have h' : (c.isAlphanum = true ∨ c = '.') ∨ c = '_' ∨ c = '-' := by
    simpa [isNameChar, or_assoc] using h
  rcases h' with (h | rfl) | rfl | rfl
  · simp only [Char.isAlphanum, Char.isAlpha, Char.isUpper, Char.isLower, Char.isDigit,
      Bool.or_eq_true, Bool.and_eq_true, decide_eq_true_eq, ge_iff_le, UInt32.le_iff_toNat_le] at h
    have h1 : 'Z'.val.toNat = 90 := rfl
    have h2 : 'z'.val.toNat = 122 := rfl
    have h3 : '9'.val.toNat = 57 := rfl
    have h4 : 'A'.val.toNat = 65 := rfl
    have h5 : 'a'.val.toNat = 97 := rfl
    have h6 : '0'.val.toNat = 48 := rfl
    omega
  · decide
  · decide
  · decide

theorem isBlank_of_isNameChar {c : Char} (h : isNameChar c = true) : Text.isBlank c = false := by
  obtain ⟨hlow, hhigh⟩ := isNameChar_bounds h
  change 32 < c.toNat at hlow
  change c.toNat < 128 at hhigh
  simp only [Text.isBlank, Bool.or_eq_false_iff, Bool.and_eq_false_iff, decide_eq_false_iff_not,
    beq_eq_false_iff_ne]
  omega

theorem zero_not_mem_utf8Bytes {name : String} (h : isValidName name = true) :
    (0 : UInt8) ∉ utf8Bytes name := by
  rw [utf8Bytes_eq, List.mem_flatMap]
  intro ⟨c, hc, hzero⟩
  obtain ⟨hpos, hlt⟩ := isNameChar_bounds (isNameChar_of_valid h hc)
  have hle : c.val ≤ 0x7f := by
    rw [UInt32.le_iff_toNat_le]
    show c.val.toNat ≤ 127
    omega
  have hone : c.utf8Size = 1 := by
    simp [Char.utf8Size, hle]
  rw [String.utf8EncodeChar_eq_singleton hone, List.mem_singleton] at hzero
  have hnat : (0 : UInt8).toNat = c.val.toUInt8.toNat := congrArg UInt8.toNat hzero
  rw [UInt32.toNat_toUInt8] at hnat
  change 0 = c.val.toNat % 256 at hnat
  omega

/-! ## what hash inputs tell -/

/-- two lists that are cut at the first place of an element -/
theorem append_cons_inj {a : α} {as as' bs bs' : List α} (h : a ∉ as) (h' : a ∉ as')
    (he : as ++ a :: bs = as' ++ a :: bs') : as = as' ∧ bs = bs' := by
  induction as generalizing as' with
  | nil =>
    cases as' with
    | nil => exact ⟨rfl, (List.cons.inj he).2⟩
    | cons c cs => exact absurd (List.cons.inj he).1 fun e => h' (by rw [e]; exact List.mem_cons_self)
  | cons b as ih =>
    cases as' with
    | nil => exact absurd (List.cons.inj he).1.symm fun e => h (by rw [e]; exact List.mem_cons_self)
    | cons c cs =>
      obtain ⟨hbc, hrest⟩ := List.cons.inj he
      have hb : a ∉ as := fun hm => h (List.mem_cons_of_mem b hm)
      have hc : a ∉ cs := fun hm => h' (List.mem_cons_of_mem c hm)
      obtain ⟨h1, h2⟩ := ih hb hc hrest
      exact ⟨by rw [hbc, h1], h2⟩

theorem Directive.colon_not_mem_keyword (d : Directive) : ':' ∉ d.keyword.toList := by
  cases d <;> decide

theorem toList_descriptor (op : Operation) :
    op.descriptor.toList = op.directive.keyword.toList ++ ':' :: op.argument.toList := by
  simp [Operation.descriptor, String.toList_append]

theorem Operation.descriptor_inj {a b : Operation} (h : a.descriptor = b.descriptor) :
    a.directive = b.directive ∧ a.argument = b.argument := by
  have hlist := congrArg String.toList h
  rw [toList_descriptor, toList_descriptor] at hlist
  obtain ⟨hd, ha⟩ := append_cons_inj a.directive.colon_not_mem_keyword
    b.directive.colon_not_mem_keyword hlist
  exact ⟨Directive.keyword_injective (String.toList_inj.mp hd), String.toList_inj.mp ha⟩

/-- the descriptor of an operation that bears its own directive tells the operation -/
theorem descriptor_of_inj {d d' : Directive} {a a' : String}
    (h : (Operation.of d a).descriptor = (Operation.of d' a').descriptor) :
    Operation.of d a = Operation.of d' a' := by
  obtain ⟨hd, ha⟩ := Operation.descriptor_inj h
  rw [Operation.directive_of, Operation.directive_of] at hd
  rw [Operation.argument_of, Operation.argument_of] at ha
  rw [hd, ha]

theorem hashInput_inj {parent parent' : Identity} {op op' : Operation}
    (hp : isValidName parent.name = true) (hp' : isValidName parent'.name = true)
    (h : hashInput parent op = hashInput parent' op') :
    parent = parent' ∧ op.descriptor = op'.descriptor := by
  rw [hashInput, hashInput, joinSegments_pair, joinSegments_pair] at h
  obtain ⟨hname, hdesc⟩ :=
    append_cons_inj (zero_not_mem_utf8Bytes hp) (zero_not_mem_utf8Bytes hp') h
  refine ⟨?_, utf8Bytes_injective hdesc⟩
  cases parent
  cases parent'
  exact congrArg Identity.mk (utf8Bytes_injective hname)

/-! ## scripts that lead to keys -/

inductive Leads : List Operation → Option Identity → Prop
  | start : Leads [] none
  | step {ops below op key} : Leads ops below → nextKey below op = .ok key →
    Leads (ops ++ [op]) (some key)

/-- what is hashed for the keys above a key -/
def hashInputsFrom (below : Option Identity) : List Operation → List (List UInt8)
  | [] => []
  | op :: ops =>
    match nextKey below op with
    | .error _ => []
    | .ok key => (below.map (hashInput · op)).toList ++ hashInputsFrom (some key) ops

def reference? : List Operation → Option String
  | .base reference :: _ => some reference
  | _ => none

/-- Scripts whose hashes do not collide, and whose base images have no key that looks like a hash. -/
structure Collisionless (scripts : List (List Operation)) : Prop where
  hashes : ∀ a ∈ scripts.flatMap (hashInputsFrom none), ∀ b ∈ scripts.flatMap (hashInputsFrom none),
    shortHash a = shortHash b → a = b
  notDigest : ∀ a ∈ scripts.filterMap reference?, ∀ key, Identity.base? a = some key →
    key.isDigest = false

/-- Scripts of operations as the parser makes them, whose base images also have different keys,
unless they are the same but for blanks around their references. -/
structure Unambiguous (scripts : List (List Operation)) : Prop extends Collisionless scripts where
  made : ∀ script ∈ scripts, ∀ op ∈ script, ∃ d argument, op = Operation.of d argument
  bases : ∀ a ∈ scripts.filterMap reference?, ∀ b ∈ scripts.filterMap reference?,
    Text.trim a ≠ Text.trim b → Identity.base? a ≠ Identity.base? b

/-- the beginning of one of some scripts -/
def BeginsIn (scripts : List (List Operation)) (ops : List Operation) : Prop :=
  ∃ script ∈ scripts, ops <+: script

theorem BeginsIn.of_append {scripts : List (List Operation)} {ops rest : List Operation}
    (h : BeginsIn scripts (ops ++ rest)) : BeginsIn scripts ops := by
  obtain ⟨script, hs, hpre⟩ := h
  exact ⟨script, hs, (List.prefix_append ops rest).trans hpre⟩

theorem hashInputs_subset (below : Option Identity) (pre rest : List Operation) :
    hashInputsFrom below pre ⊆ hashInputsFrom below (pre ++ rest) := by
  induction pre generalizing below with
  | nil => exact List.nil_subset _
  | cons op pre ih =>
    rw [List.cons_append, hashInputsFrom, hashInputsFrom]
    cases nextKey below op with
    | error e => exact List.nil_subset _
    | ok key =>
      dsimp only
      exact List.append_subset.mpr
        ⟨List.subset_append_left _ _, fun a ha => List.mem_append_right _ (ih (some key) ha)⟩

/-- The beginning of a script is no more ambiguous than the script. -/
theorem Unambiguous.of_beginsIn {scripts : List (List Operation)} {pre : List Operation}
    (hu : Unambiguous scripts) (h : BeginsIn scripts pre) : Unambiguous [pre] := by
  obtain ⟨script, hs, rest, rfl⟩ := h
  have hinput : ∀ a ∈ [pre].flatMap (hashInputsFrom none), a ∈ scripts.flatMap (hashInputsFrom none) := by
    intro a ha
    rw [List.flatMap_singleton] at ha
    exact List.mem_flatMap.mpr ⟨_, hs, hashInputs_subset none pre rest ha⟩
  have hreference : ∀ a ∈ [pre].filterMap reference?, a ∈ scripts.filterMap reference? := by
    intro a ha
    obtain ⟨_, hpre, ha⟩ := List.mem_filterMap.mp ha
    rw [List.mem_singleton.mp hpre] at ha
    refine List.mem_filterMap.mpr ⟨_, hs, ?_⟩
    cases pre with
    | nil => cases ha
    | cons op pre => cases op <;> exact ha
  refine ⟨⟨fun a ha b hb => hu.hashes a (hinput a ha) b (hinput b hb),
    fun a ha => hu.notDigest a (hreference a ha)⟩, ?_,
    fun a ha b hb => hu.bases a (hreference a ha) b (hreference b hb)⟩
  intro script' hs' op hop
  rw [List.mem_singleton.mp hs'] at hop
  exact hu.made _ hs op (List.mem_append_left _ hop)

namespace Leads
variable {ops rest : List Operation} {below : Option Identity}

theorem keysFrom_append (h : Leads ops below) (rest : List Operation) :
    keysFrom none (ops ++ rest) = keysFrom none ops ++ keysFrom below rest := by
  induction h generalizing rest with
  | start => rfl
  | step h hk ih =>
    rw [List.append_assoc, ih, ih, List.append_assoc]
    congr 1
    rw [List.singleton_append, keysFrom, keysFrom, hk]
    rfl

theorem hashInputs_append (h : Leads ops below) (rest : List Operation) :
    hashInputsFrom none (ops ++ rest) = hashInputsFrom none ops ++ hashInputsFrom below rest := by
  induction h generalizing rest with
  | start => rfl
  | step h hk ih =>
    rw [List.append_assoc, ih, ih, List.append_assoc]
    congr 1
    rw [List.singleton_append, hashInputsFrom, hashInputsFrom, hk]
    simp [hashInputsFrom]

theorem isValidName {key : Identity} (h : Leads ops (some key)) :
    DiskLayers.isValidName key.name = true := by
  cases h with
  | step _ hk => exact isValidName_nextKey hk

/-- a key above the operations so far is led to by some more of them -/
theorem of_mem_keysFrom (h : Leads ops below) {key : Identity} (hk : key ∈ keysFrom below rest) :
    ∃ more, more ≠ [] ∧ more <+: rest ∧ Leads (ops ++ more) (some key) := by
  induction rest generalizing ops below with
  | nil => cases hk
  | cons op rest ih =>
    rw [keysFrom] at hk
    cases hn : nextKey below op with
    | error e =>
      rw [hn] at hk
      cases hk
    | ok k =>
      rw [hn] at hk
      have hstep : Leads (ops ++ [op]) (some k) := h.step hn
      rcases List.mem_cons.mp hk with rfl | hk
      · exact ⟨[op], List.cons_ne_nil _ _, List.prefix_append [op] rest, hstep⟩
      · obtain ⟨more, -, hpre, hmore⟩ := ih hstep hk
        rw [List.append_assoc] at hmore
        exact ⟨op :: more, List.cons_ne_nil _ _, List.cons_prefix_cons.mpr ⟨rfl, hpre⟩, hmore⟩

/-- operations whose plan succeeds lead to its last key -/
theorem of_planFrom {s : Store} {fs : FileSystem} {steps : List PlannedStep} (h : Leads ops below)
    (hp : planFrom s fs below rest = .ok steps) :
    Leads (ops ++ rest) ((steps.getLast?.map PlannedStep.identity).or below) := by
  induction rest generalizing ops below steps with
  | nil =>
    cases hp
    rw [List.append_nil]
    exact h
  | cons op rest ih =>
    obtain ⟨key, steps, hk, hr, rfl⟩ := planFrom_cons_eq_ok hp
    have hrest := ih (h.step hk) hr
    rw [List.append_assoc] at hrest
    rw [List.getLast?_cons]
    cases hl : steps.getLast? with
    | none =>
      rw [hl] at hrest
      exact hrest
    | some p =>
      rw [hl] at hrest
      exact hrest

end Leads

/-- one more operation is one more step of a plan -/
theorem planFrom_concat {s : Store} {fs : FileSystem} {below : Option Identity}
    {ops : List Operation} {steps : List PlannedStep} {op : Operation} {key : Identity}
    (h : planFrom s fs below ops = .ok steps)
    (hk : nextKey ((steps.getLast?.map PlannedStep.identity).or below) op = .ok key) :
    planFrom s fs below (ops ++ [op]) = .ok (steps ++ [PlannedStep.of s fs op key]) := by
  induction ops generalizing below steps with
  | nil =>
    cases h
    rw [List.nil_append, planFrom, show nextKey below op = .ok key from hk]
    rfl
  | cons o ops ih =>
    obtain ⟨k, rest, hn, hr, rfl⟩ := planFrom_cons_eq_ok h
    have hlast : ((rest.getLast?.map PlannedStep.identity).or (some k)) =
        (((PlannedStep.of s fs o k :: rest).getLast?.map PlannedStep.identity).or below) := by
      rw [List.getLast?_cons]
      cases rest.getLast? <;> rfl
    rw [← hlast] at hk
    rw [List.cons_append, planFrom, hn]
    show (planFrom s fs (some k) (ops ++ [op])).bind _ = _
    rw [ih hr hk]
    rfl

/-- Operations lead to a key if they can be planned and the plan ends with it. -/
theorem leads_iff_plan (s : Store) (fs : FileSystem) {ops : List Operation} {key : Identity} :
    Leads ops (some key) ↔
      ∃ steps, plan s fs ops = .ok steps ∧ steps.getLast?.map PlannedStep.identity = some key := by
  have hsome : ∀ {ops below}, Leads ops below → ∃ steps, planFrom s fs none ops = .ok steps ∧
      steps.getLast?.map PlannedStep.identity = below := by
    intro ops below h
    induction h with
    | start => exact ⟨[], rfl, rfl⟩
    | @step ops below op key h hk ih =>
      obtain ⟨steps, hsteps, hlast⟩ := ih
      refine ⟨_, @planFrom_concat s fs none ops steps op key hsteps ?_, ?_⟩
      · rw [hlast, Option.or_none]
        exact hk
      · rw [List.getLast?_concat]
        rfl
  constructor
  · intro h
    have hne : ops ≠ [] := by
      cases h with
      | step _ _ => simp
    obtain ⟨steps, hsteps, hlast⟩ := hsome h
    refine ⟨steps, ?_, hlast⟩
    rw [plan_eq, if_neg hne]
    exact hsteps
  · intro ⟨steps, hsteps, hlast⟩
    rw [plan_eq] at hsteps
    split at hsteps
    · cases hsteps
    · have h := Leads.of_planFrom .start hsteps
      rw [hlast] at h
      exact h

theorem nextKey_none {op : Operation} {key : Identity} (h : nextKey none op = .ok key) :
    ∃ r, op = .base r ∧ Identity.base? r = some key := by
  cases op with
  | base r =>
    rw [nextKey] at h
    cases hb : Identity.base? r with
    | none => rw [hb] at h; cases h
    | some k => rw [hb] at h; cases h; exact ⟨r, rfl, hb⟩
  | _ => cases h

theorem nextKey_some {parent : Identity} {op : Operation} {key : Identity}
    (h : nextKey (some parent) op = .ok key) : parent.derive op = key := by
  rw [nextKey] at h
  split at h
  · cases h
  · exact Except.ok.inj h

/-- what is so of all operations of some scripts is so of the last one of a beginning -/
theorem BeginsIn.of_forall {scripts : List (List Operation)} {ops : List Operation} {op : Operation}
    {P : Operation → Prop} (hin : BeginsIn scripts (ops ++ [op]))
    (h : ∀ script ∈ scripts, ∀ op ∈ script, P op) : P op := by
  obtain ⟨script, hs, hpre⟩ := hin
  exact h script hs op (hpre.subset (by simp))

namespace Leads
variable {scripts : List (List Operation)} {ops : List Operation} {op : Operation}

theorem reference_mem {r : String} (h : Leads ops none) (hin : BeginsIn scripts (ops ++ [.base r])) :
    r ∈ scripts.filterMap reference? := by
  cases h
  obtain ⟨script, hs, rest, hrest⟩ := hin
  refine List.mem_filterMap.mpr ⟨script, hs, ?_⟩
  rw [← hrest]
  rfl

theorem hashInput_mem {parent key : Identity} (h : Leads ops (some parent))
    (hin : BeginsIn scripts (ops ++ [op])) (hk : nextKey (some parent) op = .ok key) :
    hashInput parent op ∈ scripts.flatMap (hashInputsFrom none) := by
  obtain ⟨script, hs, rest, hrest⟩ := hin
  refine List.mem_flatMap.mpr ⟨script, hs, ?_⟩
  rw [← hrest, List.append_assoc, List.singleton_append, h.hashInputs_append, hashInputsFrom, hk]
  simp

end Leads

namespace Collisionless
variable {scripts : List (List Operation)} {ops ops' : List Operation}
  {below below' : Option Identity} {op op' : Operation} {key : Identity}

theorem not_base_of_derived (hc : Collisionless scripts) (h : Leads ops none)
    (hin : BeginsIn scripts (ops ++ [op])) (hk : nextKey none op = .ok key) {parent : Identity}
    (hk' : nextKey (some parent) op' = .ok key) : False := by
  obtain ⟨r, rfl, hb⟩ := nextKey_none hk
  have hnot := hc.notDigest r (h.reference_mem hin) key hb
  rw [← nextKey_some hk', Identity.isDigest_derive] at hnot
  cases hnot

/-- A key tells the key below and the descriptor of the operation above it. -/
theorem step_inj (hc : Collisionless scripts) (h : Leads ops below) (h' : Leads ops' below')
    (hin : BeginsIn scripts (ops ++ [op])) (hin' : BeginsIn scripts (ops' ++ [op']))
    (hk : nextKey below op = .ok key) (hk' : nextKey below' op' = .ok key) :
    below = below' ∧ (below ≠ none → op.descriptor = op'.descriptor) := by
  cases below with
  | none =>
    cases below' with
    | none => exact ⟨rfl, fun hne => absurd rfl hne⟩
    | some parent' => exact absurd (hc.not_base_of_derived h hin hk hk') id
  | some parent =>
    cases below' with
    | none => exact absurd (hc.not_base_of_derived h' hin' hk' hk) id
    | some parent' =>
      have hhash : shortHash (hashInput parent op) = shortHash (hashInput parent' op') := by
        have he := (nextKey_some hk).trans (nextKey_some hk').symm
        rw [derive_eq, derive_eq] at he
        exact String.ofList_injective (Identity.mk.inj he)
      have hinput := hc.hashes _ (h.hashInput_mem hin hk) _ (h'.hashInput_mem hin' hk') hhash
      obtain ⟨hparent, hdesc⟩ := hashInput_inj h.isValidName h'.isValidName hinput
      exact ⟨congrArg some hparent, fun _ => hdesc⟩

/-- Scripts that lead to the same key are equally long.  By induction on the first. -/
theorem length_eq (hc : Collisionless scripts) (h : Leads ops below) (h' : Leads ops' below)
    (hin : BeginsIn scripts ops) (hin' : BeginsIn scripts ops') : ops.length = ops'.length := by
  induction h generalizing ops' with
  | start =>
    cases h'
    rfl
  | @step ops below op key h hk ih =>
    cases h' with
    | @step ops' below' op' _ h' hk' =>
      obtain ⟨rfl, -⟩ := hc.step_inj h h' hin hin' hk hk'
      have hlen := ih h' hin.of_append hin'.of_append
      rw [List.length_append, List.length_append, hlen]
      rfl

/-- the keys of a script are different -/
theorem nodup_keysFrom (hc : Collisionless scripts) (h : Leads ops below) {rest : List Operation}
    (hin : BeginsIn scripts (ops ++ rest)) : (keysFrom below rest).Nodup := by
  induction rest generalizing ops below with
  | nil => exact List.nodup_nil
  | cons op rest ih =>
    rw [keysFrom]
    cases hk : nextKey below op with
    | error e => exact List.nodup_nil
    | ok key =>
      have hstep : Leads (ops ++ [op]) (some key) := h.step hk
      rw [← List.singleton_append, ← List.append_assoc] at hin
      refine List.nodup_cons.mpr ⟨fun hmem => ?_, ih hstep hin⟩
      obtain ⟨more, hne, ⟨after, rfl⟩, hmore⟩ := hstep.of_mem_keysFrom hmem
      rw [← List.append_assoc] at hin
      have hlen := hc.length_eq hstep hmore hin.of_append.of_append hin.of_append
      have happ : (ops ++ [op] ++ more).length = (ops ++ [op]).length + more.length :=
        List.length_append
      rw [happ] at hlen
      exact hne (List.length_eq_zero_iff.mp (by omega))

theorem not_mem_keysFrom (hc : Collisionless scripts) (h : Leads ops below)
    (hin : BeginsIn scripts (ops ++ [op])) (hk : nextKey below op = .ok key) :
    key ∉ keysFrom none ops := by
  have hd : (keysFrom none (ops ++ [op])).Nodup := hc.nodup_keysFrom .start hin
  rw [h.keysFrom_append, keysFrom, hk] at hd
  intro hmem
  exact (List.nodup_append.mp hd).2.2 key hmem key List.mem_cons_self rfl

end Collisionless

/-- A key tells the key below and the operation above it; that of a base image tells its reference
but for blanks around it. -/
theorem Unambiguous.step_inj {scripts : List (List Operation)} {ops ops' : List Operation}
    {below below' : Option Identity} {op op' : Operation} {key : Identity}
    (hu : Unambiguous scripts) (h : Leads ops below) (h' : Leads ops' below')
    (hin : BeginsIn scripts (ops ++ [op])) (hin' : BeginsIn scripts (ops' ++ [op']))
    (hk : nextKey below op = .ok key) (hk' : nextKey below' op' = .ok key) :
    below = below' ∧ (op = op' ∨ ∃ r r', op = .base r ∧ op' = .base r' ∧ below = none ∧
      Text.trim r = Text.trim r') := by
  obtain ⟨rfl, hdesc⟩ := hu.toCollisionless.step_inj h h' hin hin' hk hk'
  refine ⟨rfl, ?_⟩
  cases below with
  | none =>
    obtain ⟨r, rfl, hb⟩ := nextKey_none hk
    obtain ⟨r', rfl, hb'⟩ := nextKey_none hk'
    refine Or.inr ⟨r, r', rfl, rfl, rfl, ?_⟩
    by_contra hne
    exact hu.bases r (h.reference_mem hin) r' (h'.reference_mem hin') hne (hb.trans hb'.symm)
  | some parent =>
    obtain ⟨d, a, rfl⟩ := hin.of_forall hu.made
    obtain ⟨d', a', rfl⟩ := hin'.of_forall hu.made
    exact Or.inl (descriptor_of_inj (hdesc (by simp)))

end DiskLayers
