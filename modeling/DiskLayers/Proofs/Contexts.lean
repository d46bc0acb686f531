import DiskLayers.Proofs.Builds

/-!
# A context in use

* `ContextCall`       one call on the context of a build: an operation, or a tag
* `InUse`             a context, the operations that succeeded on it, and the world around it
* `InUse.call`, `InUse.calls`
                      one call, and several, each after others had the world to themselves
* `Stacked`           layers that stand one on the other, each made by its operation
* `Context.TellsOf`   chain, reports, numbers and arena of a context tell of the same operations
* `Context.Same`      chain, reports and numbers are what they were

A call that fails may leave a layer in the arena that is in no chain, so the number of a layer and
its place in the chain come apart.  `Context.TellsOf.push` says that such a layer does no harm,
`Context.TellsOf.record` that one more step is told of like those before, and `InUse.tells_calls`
follows by induction on the calls.
-/

namespace DiskLayers

/-! ## calls -/

inductive ContextCall where
  | apply (op : Operation)
  | tag (name : String)

/-- A context in use. -/
structure InUse (σ : Type) where
  context : Context := {}
  /-- the operations that succeeded, in order -/
  done : List Operation := []
  world : World σ

section
variable {σ : Type} (backend : Backend σ) (s : Store) (config : BuildConfig)

/-- one call on a context, after others did something to the world; the context is used further
whatever comes of it -/
def InUse.call (u : InUse σ) : (World σ → World σ) × ContextCall → InUse σ
  | (others, .apply op) =>
    match (applyOne backend s config op).runIn u.context (others u.world) with
    | ((.ok _, c), w) => ⟨c, u.done ++ [op], w⟩
    | ((.error _, c), w) => ⟨c, u.done, w⟩
  | (others, .tag name) =>
    let ((_, c), w) := (tagAs backend s config name).runIn u.context (others u.world)
    ⟨c, u.done, w⟩

/-- several calls on a context, one after the other -/
def InUse.calls (u : InUse σ) (calls : List ((World σ → World σ) × ContextCall)) : InUse σ :=
  calls.foldl (InUse.call backend s config) u

end

/-! ## layers one on the other -/

/-- The layer that an operation makes above the end of a chain. -/
def Layer.MadeBy (l : Layer) (op : Operation) : Option (LayerId × Layer) → Prop
  | none => l.parent = none ∧
      ∃ reference, op = .base reference ∧ Identity.base? reference = some l.identity
  | some (id, below) => l.parent = some id ∧ l.identity = below.identity.derive op

structure Stacked (ids : List LayerId) (ls : List Layer) (done : List Operation) : Prop where
  chain_length : ids.length = done.length
  layers_length : ls.length = done.length
  directives : ls.map Layer.directive = done.map Operation.descriptor
  /-- the first one stands on nothing, and its key is that of its template -/
  first : ∀ l, ls[0]? = some l → l.parent = none ∧
    ∃ reference, done[0]? = some (.base reference) ∧ Identity.base? reference = some l.identity
  /-- every other one stands on the one before, and has its key from there -/
  later : ∀ i l, ls[i + 1]? = some l → l.parent = ids[i]? ∧
    ∃ below op, ls[i]? = some below ∧ done[i + 1]? = some op ∧
      l.identity = below.identity.derive op

theorem Stacked.nil : Stacked [] [] [] :=
  ⟨rfl, rfl, rfl, fun _ h => (by cases h), fun _ _ h => (by cases h)⟩

/-- one more layer on top -/
theorem Stacked.concat {ids : List LayerId} {ls : List Layer} {done : List Operation}
    (h : Stacked ids ls done) (id : LayerId) {l : Layer} {op : Operation}
    (hd : l.directive = op.descriptor) (hl : l.MadeBy op (ids.zip ls).getLast?) :
    Stacked (ids ++ [id]) (ls ++ [l]) (done ++ [op]) := by
  have hids := h.chain_length
  have hls := h.layers_length
  have hzip : (ids.zip ls).length = done.length := by
    rw [List.length_zip, hids, hls, Nat.min_self]
  rw [List.getLast?_eq_getElem?, hzip] at hl
  refine ⟨by simp [hids], by simp [hls], by simp [h.directives, hd], fun l' hl' => ?_,
    fun i l' hl' => ?_⟩
  · -- only on an empty chain is the new layer the first one
    cases hdone : done with
    | nil =>
      rw [hdone] at hls hids
      rw [List.length_eq_zero_iff.mp hls] at hl hl'
      cases hl'
      rw [List.zip_nil_right] at hl
      obtain ⟨hparent, reference, rfl, hbase⟩ := hl
      exact ⟨hparent, reference, rfl, hbase⟩
    | cons op' ops =>
      rw [hdone, List.length_cons] at hls
      rw [List.getElem?_append_left (by omega)] at hl'
      have hfirst := h.first l' hl'
      rw [hdone] at hfirst
      exact hfirst
  · have hi : i + 1 < (ls ++ [l]).length := (List.getElem?_eq_some_iff.mp hl').1
    rw [List.length_append, List.length_singleton, hls] at hi
    rw [List.getElem?_append_left (by omega), List.getElem?_append_left (by omega)]
    -- the layer below the new one is the end of the chain so far
    by_cases hlast : i + 1 = done.length
    · rw [hlast, ← hls, List.getElem?_concat_length] at hl'
      cases hl'
      rw [hlast, List.getElem?_concat_length]
      rw [show done.length - 1 = i by omega] at hl
      cases hbelow : (ids.zip ls)[i]? with
      | none =>
        rw [List.getElem?_eq_none_iff] at hbelow
        omega
      | some found =>
        rw [hbelow] at hl
        obtain ⟨hid, hlayer⟩ := List.getElem?_zip_eq_some.mp hbelow
        exact ⟨hl.1.trans hid.symm, _, op, hlayer, rfl, hl.2⟩
    · rw [List.getElem?_append_left (by omega)] at hl' ⊢
      exact h.later i l' hl'

theorem Arena.ancestry_push_self (a : Arena) (l : Layer)
    (h : ∀ p, l.parent = some p → p.index < a.size) :
    (a.push l).2.ancestry (a.push l).1 = l :: (l.parent.map a.ancestry).getD [] := by
  have hget : (a.push l).2.layers[a.size]? = some l := a.get?_push_self l
  show (a.push l).2.ancestryFrom a.size = _
  rw [ancestryFrom, hget]
  dsimp only
  cases hp : l.parent with
  | none => rfl
  | some p =>
    dsimp only
    rw [if_pos (h p hp), ancestryFrom_push_of_lt a l p.index (h p hp)]
    rfl

/-! ## what a context tells -/

namespace Context

structure TellsOf (c : Context) (done : List Operation) : Prop where
  /-- every number in the chain is that of a layer -/
  found : c.chain.map c.arena.get? = c.layers.map some
  stacked : Stacked c.chain c.layers done
  steps_length : c.steps.length = done.length
  /-- every report is that of its layer -/
  reports : c.steps.map (fun step => (step.directive, step.identity)) =
    c.layers.map fun l => (l.directive, l.identity)
  total : c.stats.cached + c.stats.built = done.length
  /-- down from the last layer lie those of the chain -/
  ancestry : ∀ id, c.chain.getLast? = some id → c.arena.ancestry id = c.layers.reverse

structure Same (c c' : Context) : Prop where
  chain : c'.chain = c.chain
  layers : c'.layers = c.layers
  steps : c'.steps = c.steps
  stats : c'.stats = c.stats

/-- what an operation adds to the arena of a context, if the script allows it -/
theorem extend_eq_ok {s : Store} {c c' : Context} {op : Operation} {goal : Goal}
    (h : c.extend s op = .ok (goal, c')) :
    c' = { c with arena := (c.arena.push goal.layer).2 } ∧ goal.id = (c.arena.push goal.layer).1 ∧
      goal.layer.directive = op.descriptor ∧ goal.layer.MadeBy op c.current? := by
  unfold extend at h
  cases hc : c.current? with
  | none =>
    rw [hc] at h
    cases op with
    | base reference =>
      dsimp only at h
      cases hb : Identity.base? reference with
      | none => rw [hb] at h; cases h
      | some identity =>
        rw [hb] at h
        cases h
        exact ⟨rfl, rfl, rfl, rfl, reference, rfl, hb⟩
    | _ => cases h
  | some found =>
    obtain ⟨id, below⟩ := found
    rw [hc] at h
    dsimp only at h
    split at h
    · cases h
    · cases h
      exact ⟨rfl, rfl, rfl, rfl, rfl⟩

namespace TellsOf
variable {c : Context} {done : List Operation} {id : LayerId} {op : Operation}

theorem nil : TellsOf {} [] := ⟨rfl, .nil, rfl, rfl, rfl, fun _ h => (by cases h)⟩

variable (h : c.TellsOf done)
include h

theorem lt_size (hid : id ∈ c.chain) : id.index < c.arena.size := by
  have hmem : c.arena.get? id ∈ c.layers.map some := h.found ▸ List.mem_map_of_mem hid
  obtain ⟨l, -, hl⟩ := List.mem_map.mp hmem
  exact (List.getElem?_eq_some_iff.mp hl.symm).1

/-- an empty chain, or one with a last layer -/
theorem ending : (c.chain = [] ∧ c.layers = [] ∧ c.current? = none) ∨
    ∃ ids id ls below, c.chain = ids ++ [id] ∧ c.layers = ls ++ [below] ∧ ids.length = ls.length ∧
      c.current? = some (id, below) := by
  have hfound := h.found
  rcases List.eq_nil_or_concat' c.chain with hids | ⟨ids, id, hids⟩
  · rw [hids] at hfound
    refine Or.inl ⟨hids, List.map_eq_nil_iff.mp hfound.symm, ?_⟩
    rw [Context.current?, hids]
    rfl
  rcases List.eq_nil_or_concat' c.layers with hls | ⟨ls, below, hls⟩
  · rw [hids, hls] at hfound
    exact absurd (congrArg List.length hfound) (by simp)
  rw [hids, hls, List.map_append, List.map_append] at hfound
  obtain ⟨hinit, hend⟩ := List.append_inj' hfound rfl
  have hget : c.arena.get? id = some below := (List.cons.inj hend).1
  refine Or.inr ⟨ids, id, ls, below, hids, hls, by simpa using congrArg List.length hinit, ?_⟩
  rw [Context.current?, hids, List.getLast?_concat]
  show (do return (id, ← c.arena.get? id)) = some (id, below)
  rw [hget]
  rfl

theorem current?_eq : c.current? = (c.chain.zip c.layers).getLast? := by
  rcases h.ending with ⟨hids, -, hcur⟩ | ⟨ids, id, ls, below, hids, hls, hlen, hcur⟩
  · rw [hcur, hids]
    rfl
  · rw [hcur, hids, hls, List.zip_append hlen]
    exact List.getLast?_concat.symm

variable (l : Layer)

/-- one more layer in the arena leaves those of the chain as they are -/
theorem layers_push : layers { c with arena := (c.arena.push l).2 } = c.layers :=
  List.filterMap_congr fun _ hid => c.arena.get?_push_of_lt l (h.lt_size hid)

/-- a layer in the arena that is in no chain does no harm -/
theorem push (tag : Option String) :
    TellsOf { c with arena := (c.arena.push l).2, tag := tag } done := by
  have hlayers : layers { c with arena := (c.arena.push l).2, tag := tag } = c.layers :=
    h.layers_push l
  refine ⟨?_, ?_, h.steps_length, ?_, h.total, fun id hid => ?_⟩
  · rw [hlayers, ← h.found]
    exact List.map_congr_left fun _ hid => c.arena.get?_push_of_lt l (h.lt_size hid)
  · rw [hlayers]
    exact h.stacked
  · rw [hlayers]
    exact h.reports
  · rw [hlayers, ← h.ancestry id hid]
    exact c.arena.ancestry_push_of_lt l (h.lt_size (List.mem_of_getLast? hid))

/-- one more step is told of like those before -/
theorem record (hd : l.directive = op.descriptor) (hl : l.MadeBy op c.current?)
    (status : StepStatus) :
    (Context.record { c with arena := (c.arena.push l).2 } (c.arena.push l).1 l status).TellsOf
      (done ++ [op]) := by
  have hpush := h.push l c.tag
  have hlayers : (Context.record { c with arena := (c.arena.push l).2 } (c.arena.push l).1 l
      status).layers = c.layers ++ [l] := by
    rw [← h.layers_push l, layers, layers, Context.record, List.filterMap_append,
      List.filterMap_cons, Arena.get?_push_self]
    rfl
  refine ⟨?_, ?_, ?_, ?_, ?_, fun id hid => ?_⟩
  · rw [hlayers, Context.record, List.map_append, List.map_append, ← h.layers_push l,
      ← hpush.found, List.map_singleton, Arena.get?_push_self]
    rfl
  · rw [hlayers]
    rw [h.current?_eq] at hl
    exact h.stacked.concat _ hd hl
  · rw [Context.record, List.length_append, List.length_append, h.steps_length]
    rfl
  · rw [hlayers, Context.record, List.map_append, List.map_append, h.reports]
    rfl
  · rw [List.length_append, List.length_singleton, ← h.total]
    exact c.stats.total_add status
  · rw [Context.record, List.getLast?_concat] at hid
    rw [hlayers, List.reverse_append, ← Option.some.inj hid, Context.record]
    rcases h.ending with ⟨-, hls, hcur⟩ | ⟨ids, below, _, _, hids, -, -, hcur⟩
    · rw [hcur] at hl
      rw [Arena.ancestry_push_self c.arena l (by simp [hl.1]), hl.1, hls]
      rfl
    · rw [hcur] at hl
      have hlast : c.chain.getLast? = some below := by rw [hids, List.getLast?_concat]
      have hlt := h.lt_size (List.mem_of_getLast? hlast)
      rw [Arena.ancestry_push_self c.arena l fun p hp => ?_, hl.1]
      · exact congrArg (l :: ·) (h.ancestry below hlast)
      · rw [hl.1] at hp
        exact Option.some.inj hp ▸ hlt

end TellsOf

end Context

/-! ## what calls do -/

section
variable {σ : Type} (backend : Backend σ) (s : Store) (config : BuildConfig) {c : Context}
  {done : List Operation}

theorem tells_applyOne (h : c.TellsOf done) (op : Operation) (w : World σ) :
    match (applyOne backend s config op).runIn c w with
    | ((.ok id, c'), _) => c'.TellsOf (done ++ [op]) ∧ c'.chain = c.chain ++ [id] ∧ c'.tag = c.tag
    | ((.error _, c'), _) => c'.TellsOf done ∧ c.Same c' ∧ c'.tag = c.tag := by
  rw [applyOne_runIn]
  cases he : c.extend s op with
  | error e => exact ⟨h, ⟨rfl, rfl, rfl, rfl⟩, rfl⟩
  | ok found =>
    obtain ⟨goal, c'⟩ := found
    obtain ⟨hc', hid, hd, hmade⟩ := Context.extend_eq_ok he
    dsimp only
    rw [hc', hid]
    rcases (realize backend s config goal.layer goal.parent op).runIn w with ⟨res, w'⟩
    cases res with
    | ok status => exact ⟨h.record goal.layer hd hmade status, rfl, rfl⟩
    | error e => exact ⟨h.push goal.layer c.tag, ⟨rfl, h.layers_push goal.layer, rfl, rfl⟩, rfl⟩

theorem tells_tagAs (h : c.TellsOf done) (name : String) (w : World σ) :
    match (tagAs backend s config name).runIn c w with
    | ((.ok _, c'), _) => c'.TellsOf done ∧ c.Same c' ∧ c'.tag = some name
    | ((.error _, c'), _) => c'.TellsOf done ∧ c.Same c' ∧ c'.tag = c.tag := by
  have hkept := @tagAs_context σ backend s config c w name
  generalize (tagAs backend s config name).runIn c w = out at hkept ⊢
  obtain ⟨⟨res, c'⟩, w₁⟩ := out
  rcases hkept with ⟨rfl, e, rfl⟩ | ⟨last, l, -, ⟨rfl, rfl⟩ | ⟨rfl, e, rfl⟩⟩
  · exact ⟨h, ⟨rfl, rfl, rfl, rfl⟩, rfl⟩
  · exact ⟨h.push l (some name), ⟨rfl, h.layers_push l, rfl, rfl⟩, rfl⟩
  · exact ⟨h.push l c.tag, ⟨rfl, h.layers_push l, rfl, rfl⟩, rfl⟩

/-- one call keeps a context in step with the operations that succeeded on it -/
theorem InUse.tells_call {u : InUse σ} (h : u.context.TellsOf u.done)
    (call : (World σ → World σ) × ContextCall) :
    (u.call backend s config call).context.TellsOf (u.call backend s config call).done := by
  obtain ⟨others, op | name⟩ := call
  · have hstep := tells_applyOne backend s config h op (others u.world)
    rw [InUse.call]
    generalize (applyOne backend s config op).runIn u.context (others u.world) = out at hstep ⊢
    obtain ⟨⟨res, c'⟩, w₁⟩ := out
    cases res with
    | ok id => exact hstep.1
    | error e => exact hstep.1
  · have hstep := tells_tagAs backend s config h name (others u.world)
    rw [InUse.call]
    generalize (tagAs backend s config name).runIn u.context (others u.world) = out at hstep ⊢
    obtain ⟨⟨res, c'⟩, w₁⟩ := out
    cases res with
    | ok _ => exact hstep.1
    | error e => exact hstep.1

/-- so do several calls, whatever comes of each -/
theorem InUse.tells_calls {u : InUse σ} (h : u.context.TellsOf u.done)
    (calls : List ((World σ → World σ) × ContextCall)) :
    (u.calls backend s config calls).context.TellsOf (u.calls backend s config calls).done := by
  induction calls generalizing u with
  | nil => exact h
  | cons call calls ih => exact ih (InUse.tells_call backend s config h call)

/-- **A context stays in step with what succeeded on it.**  Whatever was called on a context, in
whatever world each call was made and whatever came of it, chain, reports and numbers tell of the
operations that succeeded and of no others, and the layers of the chain stand one on the other.  An
operation that succeeds adds itself, and nothing else touches chain, reports or numbers; the tag is
that of the last call for one that succeeded. -/
theorem context_in_step (calls : List ((World σ → World σ) × ContextCall)) (w : World σ) :
    let u := InUse.calls backend s config { world := w } calls
    u.context.TellsOf u.done ∧
    (∀ op w', match (applyOne backend s config op).runIn u.context w' with
      | ((.ok id, c'), _) => c'.TellsOf (u.done ++ [op]) ∧ c'.chain = u.context.chain ++ [id] ∧
          c'.tag = u.context.tag
      | ((.error _, c'), _) => c'.TellsOf u.done ∧ u.context.Same c' ∧ c'.tag = u.context.tag) ∧
    ∀ name w', match (tagAs backend s config name).runIn u.context w' with
      | ((.ok _, c'), _) => c'.TellsOf u.done ∧ u.context.Same c' ∧ c'.tag = some name
      | ((.error _, c'), _) => c'.TellsOf u.done ∧ u.context.Same c' ∧ c'.tag = u.context.tag := by
  intro u
  have h : u.context.TellsOf u.done := InUse.tells_calls backend s config .nil calls
  exact ⟨h, tells_applyOne backend s config h, tells_tagAs backend s config h⟩

end

end DiskLayers
