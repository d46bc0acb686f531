import DiskLayers.Build.Context
import DiskLayers.Build.Plan
import DiskLayers.Proofs.Layout

/-!
# The keys of a chain

Build and plan find the key of a layer in the same way, from the key below and the operation.

* `nextKey`             the key that an operation makes above another one, if it may stand there
* `planFrom`            the steps of operations above a key
* `keysFrom`            the keys of operations above a key, as far as the script allows
* `Context.StandsOn`    the chain of a context ends with a key
* `Layer.IsFor`         a layer that an operation makes above a key

`plan_eq` and `extend_cases` say that a plan and the context of a build go by `nextKey`.
-/

namespace DiskLayers

/-- the key of the layer that an operation makes above another one, or why it may not stand
there -/
def nextKey (below : Option Identity) (op : Operation) : Except ScriptError Identity :=
  match below, op with
  | none, .base reference =>
    match Identity.base? reference with
    | none => .error (.emptyBaseReference reference)
    | some key => .ok key
  | none, op => .error (.missingBase op.descriptor)
  | some parent, op =>
    if op.isBase then .error (.repeatedBase op.descriptor) else .ok (parent.derive op)

def planFrom (s : Store) (fs : FileSystem) (below : Option Identity) :
    List Operation → Except ScriptError (List PlannedStep)
  | [] => .ok []
  | op :: ops => do
    let key ← nextKey below op
    let steps ← planFrom s fs (some key) ops
    return PlannedStep.of s fs op key :: steps

def keysFrom (below : Option Identity) : List Operation → List Identity
  | [] => []
  | op :: ops =>
    match nextKey below op with
    | .error _ => []
    | .ok key => key :: keysFrom (some key) ops

/-! ## keys -/

theorem isValidName_of_isDigest {key : Identity} (h : key.isDigest = true) :
    isValidName key.name = true := by
  have hdigit : ∀ c, Text.isLowerHex c = true → isNameChar c = true ∧ c ≠ '.' := by
    intro c hc
    have hc' : ('0' ≤ c ∧ c ≤ '9') ∨ ('a' ≤ c ∧ c ≤ 'f') := by
      simpa [Text.isLowerHex] using hc
    have hdot : ¬ ('0' ≤ '.' ∧ '.' ≤ '9') ∧ ¬ ('a' ≤ '.' ∧ '.' ≤ 'f') := by decide
    refine ⟨?_, fun e => ?_⟩
    · rw [isNameChar]
      simp only [Char.isAlphanum, Char.isAlpha, Char.isUpper, Char.isLower, Char.isDigit,
        Bool.or_eq_true, Bool.and_eq_true, decide_eq_true_eq]
      rcases hc' with ⟨h1, h2⟩ | ⟨h1, h2⟩
      · exact Or.inl (Or.inl (Or.inl (Or.inr ⟨h1, h2⟩)))
      · exact Or.inl (Or.inl (Or.inl (Or.inl (Or.inr ⟨h1, Nat.le_trans h2 (show ('f').toNat ≤ ('z').toNat by decide)⟩))))
    · rw [e] at hc'
      exact hc'.elim hdot.1 hdot.2
  simp only [Identity.isDigest, Bool.and_eq_true, decide_eq_true_eq, List.all_eq_true] at h
  obtain ⟨hl, hall⟩ := h
  cases hcs : key.name.toList with
  | nil => rw [hcs] at hl; cases hl
  | cons c cs =>
    rw [hcs] at hall
    have hc := hdigit c (hall c List.mem_cons_self)
    simp only [isValidName, hcs, List.isEmpty_cons, Bool.not_false, List.head?_cons, Bool.true_and,
      Bool.and_eq_true, decide_eq_true_eq, List.all_eq_true]
    exact ⟨fun e => hc.2 (Option.some.inj e), fun c' hc' => (hdigit c' (hall c' hc')).1⟩

theorem isNameChar_nameChar (c : Char) : isNameChar (Identity.nameChar c) = true := by
  rw [Identity.nameChar]
  by_cases h : isNameChar c = true
  · rw [if_pos h]
    exact h
  · rw [if_neg h]
    decide

theorem isValidName_base? {reference : String} {key : Identity}
    (h : Identity.base? reference = some key) : isValidName key.name = true := by
  rw [Identity.base?] at h
  split at h
  · cases h
  · next hne =>
    cases h
    rw [isValidName, String.toList_ofList]
    cases hcs : Text.trimBlank reference.toList with
    | nil => exact absurd hcs hne
    | cons c cs =>
      have hall : ∀ c' ∈ cs.map Identity.nameChar, isNameChar c' = true := by
        intro c' hc'
        obtain ⟨b, -, rfl⟩ := List.mem_map.mp hc'
        exact isNameChar_nameChar b
      rw [Identity.nameChars, List.map_cons]
      by_cases hdot : Identity.nameChar c = '.'
      · rw [hdot]
        simp only [List.isEmpty_cons, Bool.not_false, List.head?_cons, List.all_cons, Bool.true_and,
          Bool.and_eq_true, decide_eq_true_eq, List.all_eq_true]
        exact ⟨by decide, by decide, hall⟩
      · split
        · next e => exact absurd (List.cons.inj e).1 hdot
        · simp only [List.isEmpty_cons, Bool.not_false, List.head?_cons, List.all_cons,
            Bool.true_and, Bool.and_eq_true, List.all_eq_true]
          exact ⟨by simpa using hdot, isNameChar_nameChar c, hall⟩

theorem isValidName_nextKey {below : Option Identity} {op : Operation} {key : Identity}
    (h : nextKey below op = .ok key) : isValidName key.name = true := by
  cases below with
  | some parent =>
    rw [nextKey] at h
    split at h
    · cases h
    · cases h
      exact isValidName_of_isDigest (Identity.isDigest_derive parent op)
  | none =>
    cases op with
    | base reference =>
      rw [nextKey] at h
      cases hb : Identity.base? reference with
      | none => rw [hb] at h; cases h
      | some k =>
        rw [hb] at h
        cases h
        exact isValidName_base? hb
    | _ => cases h

theorem isBase_of_nextKey {op : Operation} {key : Identity} (h : nextKey none op = .ok key) :
    op.isBase = true := by
  cases op with
  | base reference => rfl
  | _ => cases h

/-- a plan goes by the keys -/
theorem plan_eq (s : Store) (fs : FileSystem) (ops : List Operation) :
    plan s fs ops = if ops = [] then .error .empty else planFrom s fs none ops := by
  have habove : ∀ (ops : List Operation) (parent : Identity),
      planAbove s fs parent ops = planFrom s fs (some parent) ops := by
    intro ops
    induction ops with
    | nil => intro parent; rfl
    | cons op ops ih =>
      intro parent
      rw [planAbove, planFrom, nextKey]
      by_cases hb : op.isBase = true
      · rw [if_pos hb, if_pos hb]
        rfl
      · rw [if_neg hb, if_neg hb]
        dsimp only
        rw [ih]
        rfl
  cases ops with
  | nil => rfl
  | cons op ops =>
    rw [if_neg (List.cons_ne_nil _ _), planFrom]
    cases op with
    | base reference =>
      rw [plan, nextKey]
      cases hb : Identity.base? reference with
      | none => rfl
      | some key =>
        dsimp only
        rw [habove]
        rfl
    | _ => rfl

section
variable {s : Store} {fs : FileSystem} {below : Option Identity} {op : Operation}
  {ops : List Operation} {steps : List PlannedStep}

theorem planFrom_cons_eq_ok (h : planFrom s fs below (op :: ops) = .ok steps) :
    ∃ key rest, nextKey below op = .ok key ∧ planFrom s fs (some key) ops = .ok rest ∧
      steps = PlannedStep.of s fs op key :: rest := by
  rw [planFrom] at h
  cases hk : nextKey below op with
  | error e => rw [hk] at h; cases h
  | ok key =>
    rw [hk] at h
    cases hr : planFrom s fs (some key) ops with
    | error e =>
      have h' : ((planFrom s fs (some key) ops).bind fun steps =>
          .ok (PlannedStep.of s fs op key :: steps)) = .ok steps := h
      rw [hr] at h'
      cases h'
    | ok rest =>
      have h' : ((planFrom s fs (some key) ops).bind fun steps =>
          .ok (PlannedStep.of s fs op key :: steps)) = .ok steps := h
      rw [hr] at h'
      cases h'
      exact ⟨key, rest, rfl, hr, rfl⟩

theorem keysFrom_of_planFrom (h : planFrom s fs below ops = .ok steps) :
    keysFrom below ops = steps.map PlannedStep.identity := by
  induction ops generalizing below steps with
  | nil => cases h; rfl
  | cons op ops ih =>
    obtain ⟨key, rest, hk, hr, rfl⟩ := planFrom_cons_eq_ok h
    rw [keysFrom, hk]
    exact congrArg (key :: ·) (ih hr)

theorem steps_of_planFrom (h : planFrom s fs below ops = .ok steps) :
    steps = List.zipWith (PlannedStep.of s fs) ops (keysFrom below ops) := by
  induction ops generalizing below steps with
  | nil => cases h; rfl
  | cons op ops ih =>
    obtain ⟨key, rest, hk, hr, rfl⟩ := planFrom_cons_eq_ok h
    rw [keysFrom, hk]
    exact congrArg (_ :: ·) (ih hr)

theorem cached_of_planFrom {p : PlannedStep} (h : planFrom s fs below ops = .ok steps)
    (hp : p ∈ steps) : p.cached = fs.isWhole (s.layerPath p.identity) := by
  induction ops generalizing below steps with
  | nil =>
    cases h
    cases hp
  | cons op ops ih =>
    obtain ⟨key, rest, -, hr, rfl⟩ := planFrom_cons_eq_ok h
    rcases List.mem_cons.mp hp with rfl | hp
    · rfl
    · exact ih hr hp

theorem isValidName_of_mem_keysFrom {key : Identity} (h : key ∈ keysFrom below ops) :
    isValidName key.name = true := by
  induction ops generalizing below with
  | nil => cases h
  | cons op ops ih =>
    rw [keysFrom] at h
    cases hk : nextKey below op with
    | error e => rw [hk] at h; cases h
    | ok k =>
      rw [hk] at h
      rcases List.mem_cons.mp h with rfl | h
      · exact isValidName_nextKey hk
      · exact ih h

end

/-! ## the context of a build -/

def Context.StandsOn (s : Store) (c : Context) : Option Identity → Prop
  | none => c.current? = none
  | some key => ∃ id l, c.current? = some (id, l) ∧ l.identity = key ∧ l.location = s.layerPath key

structure Layer.IsFor (l : Layer) (s : Store) (below : Option Identity) (op : Operation)
    (key : Identity) : Prop where
  identity : l.identity = key
  location : l.location = s.layerPath key
  directive : l.directive = op.descriptor
  parent : l.parent.isNone = below.isNone

namespace Context
variable {s : Store} {c : Context} {below : Option Identity}

theorem current?_record (l : Layer) (status : StepStatus) :
    (Context.record { c with arena := (c.arena.push l).2 } (c.arena.push l).1 l status).current?
      = some ((c.arena.push l).1, l) := by
  have hlast : (c.chain ++ [(c.arena.push l).1]).getLast? = some (c.arena.push l).1 :=
    List.getLast?_concat
  rw [current?, record]
  dsimp only
  rw [hlast]
  show (do return ((c.arena.push l).1, ← (c.arena.push l).2.get? (c.arena.push l).1)) = _
  rw [Arena.get?_push_self]
  rfl

/-- the layer that an operation adds goes by the keys, and what the context had stays -/
theorem extend_cases (h : c.StandsOn s below) (op : Operation) :
    (∃ e, nextKey below op = .error e ∧ c.extend s op = .error e) ∨
      ∃ key goal c', nextKey below op = .ok key ∧ c.extend s op = .ok (goal, c') ∧
        goal.layer.IsFor s below op key ∧
        goal.parent.map Layer.location = below.map s.layerPath ∧
        (c'.steps = c.steps ∧ c'.tag = c.tag ∧ c'.chain = c.chain) ∧
        ∀ status, (c'.record goal.id goal.layer status).StandsOn s (some key) := by
  cases below with
  | none =>
    have hc : c.current? = none := h
    cases op with
    | base reference =>
      unfold extend
      rw [hc, nextKey]
      dsimp only
      cases hb : Identity.base? reference with
      | none => exact Or.inl ⟨_, rfl, rfl⟩
      | some key =>
        dsimp only
        exact Or.inr ⟨key, _, _, rfl, rfl, ⟨rfl, rfl, rfl, rfl⟩, rfl, ⟨rfl, rfl, rfl⟩,
          fun status => ⟨_, _, current?_record _ status, rfl, rfl⟩⟩
    | _ =>
      unfold extend
      rw [hc]
      exact Or.inl ⟨_, rfl, rfl⟩
  | some parent =>
    obtain ⟨id, l, hc, rfl, hl⟩ := h
    unfold extend
    rw [hc, nextKey]
    dsimp only
    by_cases hb : op.isBase = true
    · rw [if_pos hb, if_pos hb]
      exact Or.inl ⟨_, rfl, rfl⟩
    · rw [if_neg hb, if_neg hb]
      exact Or.inr ⟨_, _, _, rfl, rfl, ⟨rfl, rfl, rfl, rfl⟩, congrArg some hl, ⟨rfl, rfl, rfl⟩,
        fun status => ⟨_, _, current?_record _ status, rfl, rfl⟩⟩

end Context

end DiskLayers
