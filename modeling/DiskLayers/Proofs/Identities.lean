import DiskLayers.Proofs.Scripts

/-!
# The last key of a script tells the script

* `baseKey?`   the key of the base image that a script begins with

`Leads.key_eq_iff` compares two scripts key by key, from the last one down to the base images.
`terminal_eq_iff` says of two plans that they end with the same key if and only if they begin with
the same base image and go on with the same operations.
-/

namespace DiskLayers

def baseKey? (ops : List Operation) : Option Identity := (reference? ops).bind Identity.base?

theorem reference?_concat {ops : List Operation} (h : ops ≠ []) (op : Operation) :
    reference? (ops ++ [op]) = reference? ops := by
  obtain ⟨o, os, rfl⟩ := List.exists_cons_of_ne_nil h
  cases o <;> rfl

theorem Leads.ne_nil {ops : List Operation} {key : Identity} (h : Leads ops (some key)) :
    ops ≠ [] := by
  cases h with
  | step _ _ => simp

/-- Two scripts lead to the same key if and only if their base images have the same key and all
other operations are the same.  By induction on the first script, from its end: a key tells the key
below and the descriptor above it. -/
theorem Leads.key_eq_iff {scripts : List (List Operation)} {ops ops' : List Operation}
    {key key' : Identity} (hc : Collisionless scripts)
    (hmade : ∀ script ∈ scripts, ∀ op ∈ script, ∃ d argument, op = Operation.of d argument)
    (h : Leads ops (some key)) (h' : Leads ops' (some key')) (hin : BeginsIn scripts ops)
    (hin' : BeginsIn scripts ops') :
    key = key' ↔ baseKey? ops = baseKey? ops' ∧ ops.tail = ops'.tail := by
  generalize hend : some key = last at h
  induction h generalizing key key' ops' with
  | start => cases hend
  | @step ops below op k h hk ih =>
    obtain rfl := Option.some.inj hend
    cases h' with
    | @step ops' below' op' _ h' hk' =>
      have hbelow : key = key' → below = below' := by
        rintro rfl
        exact (hc.step_inj h h' hin hin' hk hk').1
      cases below with
      | none =>
        cases h
        obtain ⟨r, rfl, hr⟩ := nextKey_none hk
        have hbase : baseKey? ([] ++ [Operation.base r]) = some key := hr
        cases below' with
        | none =>
          cases h'
          obtain ⟨r', rfl, hr'⟩ := nextKey_none hk'
          have hbase' : baseKey? ([] ++ [Operation.base r']) = some key' := hr'
          rw [hbase, hbase']
          simp
        | some parent' =>
          -- one script has more than a base image, the other one has not
          refine ⟨fun he => absurd (hbelow he) (by simp), fun ⟨_, htail⟩ => ?_⟩
          rw [List.tail_append_of_ne_nil h'.ne_nil] at htail
          simp at htail
      | some parent =>
        cases below' with
        | none =>
          cases h'
          refine ⟨fun he => absurd (hbelow he) (by simp), fun ⟨_, htail⟩ => ?_⟩
          rw [List.tail_append_of_ne_nil h.ne_nil] at htail
          simp at htail
        | some parent' =>
          have hih := ih h' hin.of_append hin'.of_append rfl
          rw [baseKey?, baseKey?, reference?_concat h.ne_nil, reference?_concat h'.ne_nil,
            List.tail_append_of_ne_nil h.ne_nil, List.tail_append_of_ne_nil h'.ne_nil]
          constructor
          · rintro rfl
            obtain ⟨hparent, hdesc⟩ := hc.step_inj h h' hin hin' hk hk'
            obtain ⟨hb, ht⟩ := hih.mp (Option.some.inj hparent)
            obtain ⟨d, a, rfl⟩ := hin.of_forall hmade
            obtain ⟨d', a', rfl⟩ := hin'.of_forall hmade
            exact ⟨hb, by rw [ht, descriptor_of_inj (hdesc (by simp))]⟩
          · intro ⟨hb, htail⟩
            obtain ⟨ht, hop⟩ := List.append_inj' htail rfl
            obtain rfl := hih.mpr ⟨hb, ht⟩
            obtain rfl := (List.cons.inj hop).1
            rw [← nextKey_some hk, ← nextKey_some hk']

/-- Plans of operations as the parser makes them end with the same key if and only if they begin
with the same base image and go on with the same operations, whatever their arguments hold, unless
hashes on the way collide or a base image looks like a hash. -/
theorem terminal_eq_iff {s s' : Store} {fs fs' : FileSystem} {ops ops' : List Operation}
    {steps steps' : List PlannedStep} (hplan : plan s fs ops = .ok steps)
    (hplan' : plan s' fs' ops' = .ok steps')
    (hmade : ∀ script ∈ [ops, ops'], ∀ op ∈ script, ∃ d argument, op = Operation.of d argument)
    (hc : Collisionless [ops, ops']) :
    steps.getLast?.map PlannedStep.identity = steps'.getLast?.map PlannedStep.identity ↔
      baseKey? ops = baseKey? ops' ∧ ops.tail = ops'.tail := by
  have hleads : ∀ {s : Store} {fs : FileSystem} {ops : List Operation} {steps : List PlannedStep},
      plan s fs ops = .ok steps → ∃ key, steps.getLast?.map PlannedStep.identity = some key ∧
        Leads ops (some key) := by
    intro s fs ops steps hplan
    have hsteps : steps ≠ [] := by
      rintro rfl
      rw [plan_eq] at hplan
      cases ops with
      | nil => cases hplan
      | cons op ops =>
        rw [if_neg (List.cons_ne_nil _ _)] at hplan
        obtain ⟨_, _, _, _, h⟩ := planFrom_cons_eq_ok hplan
        cases h
    have hlast := congrArg (Option.map PlannedStep.identity) (List.getLast?_eq_some_getLast hsteps)
    exact ⟨_, hlast, (leads_iff_plan s fs).mpr ⟨steps, hplan, hlast⟩⟩
  obtain ⟨key, hlast, hl⟩ := hleads hplan
  obtain ⟨key', hlast', hl'⟩ := hleads hplan'
  rw [hlast, hlast', Option.some.injEq]
  exact hl.key_eq_iff hc hmade hl' ⟨ops, by simp, List.prefix_rfl⟩ ⟨ops', by simp, List.prefix_rfl⟩

/-- one command with a NUL and the text of a descriptor in it, and two commands -/
theorem terminal_ne_of_nul :
    let ops := [Operation.base " d ", .mutate "a\x00MUTATE:b"]
    let ops' := [Operation.base "d", .mutate "a", .mutate "b"]
    ∃ steps steps', plan ⟨⟨"/s"⟩⟩ {} ops = .ok steps ∧ plan ⟨⟨"/s"⟩⟩ {} ops' = .ok steps' ∧
      baseKey? ops = baseKey? ops' ∧
      steps.getLast?.map PlannedStep.identity ≠ steps'.getLast?.map PlannedStep.identity := by
  intro ops ops'
  obtain ⟨steps, hsteps⟩ : ∃ steps, plan ⟨⟨"/s"⟩⟩ {} ops = .ok steps := by
    cases h : plan ⟨⟨"/s"⟩⟩ {} ops with
    | ok steps => exact ⟨steps, rfl⟩
    | error e =>
      have : (plan ⟨⟨"/s"⟩⟩ {} ops).isOk = true := by decide +kernel
      rw [h] at this
      cases this
  obtain ⟨steps', hsteps'⟩ : ∃ steps, plan ⟨⟨"/s"⟩⟩ {} ops' = .ok steps := by
    cases h : plan ⟨⟨"/s"⟩⟩ {} ops' with
    | ok steps => exact ⟨steps, rfl⟩
    | error e =>
      have : (plan ⟨⟨"/s"⟩⟩ {} ops').isOk = true := by decide +kernel
      rw [h] at this
      cases this
  have hc : Collisionless [ops, ops'] := by
    refine ⟨by decide +kernel, ?_⟩
    intro a ha key hkey
    have ha' : a = " d " ∨ a = "d" := by simpa [ops, ops', reference?] using ha
    rcases ha' with rfl | rfl
    · cases hkey
      decide +kernel
    · cases hkey
      decide +kernel
  have hmade : ∀ script ∈ [ops, ops'], ∀ op ∈ script, ∃ d argument, op = Operation.of d argument := by
    intro script hs op hop
    have hop' : op = .base " d " ∨ op = .mutate "a\x00MUTATE:b" ∨ op = .base "d" ∨ op = .mutate "a" ∨
        op = .mutate "b" := by
      rcases List.mem_cons.mp hs with rfl | hs
      · rcases List.mem_cons.mp hop with rfl | hop
        · exact Or.inl rfl
        · exact Or.inr (Or.inl (List.mem_singleton.mp hop))
      · rw [List.mem_singleton.mp hs] at hop
        simpa [ops'] using Or.inr (Or.inr hop)
    rcases hop' with rfl | rfl | rfl | rfl | rfl
    · exact ⟨.base, _, rfl⟩
    · exact ⟨.mutate, _, rfl⟩
    · exact ⟨.base, _, rfl⟩
    · exact ⟨.mutate, _, rfl⟩
    · exact ⟨.mutate, _, rfl⟩
  refine ⟨steps, steps', hsteps, hsteps', by decide +kernel, fun he => ?_⟩
  have htail := ((terminal_eq_iff hsteps hsteps' hmade hc).mp he).2
  revert htail
  decide

end DiskLayers
