import DiskLayers.Build.Run
import DiskLayers.Proofs.Holding

/-!
# Lock discipline

* `Layer.BelongsTo`      a layer whose disk is that of its key
* `Store.lockPaths`      the locks of all keys that a store can have
* `Folding.Follows`      a step of a build all of whose moments are allowed

Nothing is assumed of the files, the backend or the others: an operation holds the lock of a key
whenever it is about the disk or the marker of that key, never a second one, and none at the end
(`locks_disciplined`).
-/

namespace DiskLayers
open DiskLayers.Path

/-! ## the disks of a store and their locks -/

namespace Store
variable {s : Store} {kind kind' : LayerKind} {key key' : Identity} {file : Path}

theorem markerOf_diskOf (s : Store) (kind : LayerKind) (hv : isValidName key.name = true) :
    Layer.markerOf (s.diskOf kind key) = (s.root.join (lockDir kind)).join (markerName key.name) := by
  refine markerOf_join hv ?_
  rw [chars_join]
  exact joinChars_ne_nil (isPlain_lockDir kind)

/-- files in the same directory under names of their own are those of the same key -/
theorem lockPath_eq (hv : isValidName key.name = true) (hv' : isValidName key'.name = true)
    (h : file ∈ s.filesOf kind key) (h' : file ∈ s.filesOf kind' key') :
    s.lockPath kind key = s.lockPath kind' key' := by
  have hdir : ∀ {name name' : String}, IsPlain name.toList → IsPlain name'.toList →
      (s.root.join (lockDir kind)).join name = (s.root.join (lockDir kind')).join name' →
        lockDir kind = lockDir kind' ∧ name = name' := by
    intro name name' hn hn' he
    refine ⟨?_, (join_inj hn hn' he).2⟩
    by_contra hne
    exact join_ne_of_dir_ne (lockDir_mem_directories kind) (lockDir_mem_directories kind') hne hn hn' he
  have hlock : lockDir kind = lockDir kind' → key.name = key'.name →
      s.lockPath kind key = s.lockPath kind' key' := by
    intro hd hn
    rw [lockPath, lockPath, hd, hn]
  have hdisk := isPlain_diskName hv
  have hmark := isPlain_markerName hv
  have hdisk' := isPlain_diskName hv'
  have hmark' := isPlain_markerName hv'
  rw [filesOf, Set.mem_ofPred_eq, s.markerOf_diskOf _ hv] at h
  rw [filesOf, Set.mem_ofPred_eq, s.markerOf_diskOf _ hv'] at h'
  rcases h with h | h <;> rcases h' with h' | h'
  · obtain ⟨hd, hn⟩ := hdir hdisk hdisk' (h.symm.trans h')
    exact hlock hd (diskName_injective hn)
  · exact absurd (hdir hdisk hmark' (h.symm.trans h')).2 (diskName_ne_markerName _ _)
  · exact absurd (hdir hmark hdisk' (h.symm.trans h')).2.symm (diskName_ne_markerName _ _)
  · obtain ⟨hd, hn⟩ := hdir hmark hmark' (h.symm.trans h')
    exact hlock hd (markerName_injective hn)

theorem not_mem_filesOf (hv : isValidName key.name = true) {name : String} (hn : IsPlain name.toList) :
    (s.root.join instancesDir).join name ∉ s.filesOf kind key := by
  have hne : ∀ {name'}, IsPlain name'.toList →
      (s.root.join instancesDir).join name ≠ (s.root.join (lockDir kind)).join name' := fun hn' =>
    join_ne_of_dir_ne (by simp [directories]) (lockDir_mem_directories kind) (by cases kind <;> decide) hn hn'
  rw [filesOf, Set.mem_ofPred_eq, s.markerOf_diskOf kind hv]
  rintro (h | h)
  · exact hne (isPlain_diskName hv) h
  · exact hne (isPlain_markerName hv) h

end Store

structure Layer.BelongsTo (l : Layer) (s : Store) : Prop where
  valid : isValidName l.identity.name = true
  location : l.location = s.diskOf l.kind l.identity

namespace Layer.BelongsTo
variable {σ : Type} {s : Store} {l : Layer} (h : l.BelongsTo s) (backend : Backend σ)
include h

theorem handles_removeDisk : (removePath l.location : Act σ StoreError Unit).Handles
    (s.filesOf l.kind l.identity) := by
  rw [h.location, Store.diskOf]
  exact .mapError (.remove (isPlain_diskName h.valid) (ne_lockName (toList_diskName _) (by decide))
    (Or.inl rfl))

theorem handles_unmark : (l.unmark : Act σ StoreError Unit).Handles (s.filesOf l.kind l.identity) := by
  have hmarker := s.markerOf_diskOf l.kind h.valid
  rw [Layer.unmark, Layer.marker, h.location, hmarker]
  exact .mapError (.remove (isPlain_markerName h.valid) (ne_lockName (toList_markerName _) (by decide))
    (Or.inr hmarker.symm))

theorem handles_mark : (l.mark : Act σ StoreError Unit).Handles (s.filesOf l.kind l.identity) :=
  .mapError (.write _ (Or.inr (by rw [Layer.marker, h.location])))

theorem handles_discard : (l.discard : Act σ StoreError Unit).Handles
    (s.filesOf l.kind l.identity) := by
  refine .bind (Act.handles_inspect _ _) fun present => ?_
  split
  · exact .bind h.handles_removeDisk fun _ => h.handles_unmark
  · exact h.handles_unmark

theorem handles_call {c : Call} (hc : c.disk? = some l.location) :
    (Act.call backend c).Handles (s.filesOf l.kind l.identity) := .call hc (Or.inl h.location)

theorem handles_snapshotOf (parent : Layer) : (l.snapshotOf backend parent).Handles
    (s.filesOf l.kind l.identity) := by
  have hsnapshot : ((Act.call backend (.snapshot parent.location l.location)).mapError
      StoreError.backend).Handles (s.filesOf l.kind l.identity) := .mapError (h.handles_call backend rfl)
  refine .bind (Act.handles_inspect _ _) fun found => ?_
  dsimp only
  split
  · exact Act.handles_throw_bind _ _ _
  refine .bind (Act.handles_inspect _ _) fun size => ?_
  split
  · exact Act.handles_throw_bind _ _ _
  refine .bind (Act.handles_inspect _ _) fun present => ?_
  split
  · exact .bind h.handles_removeDisk fun _ => hsnapshot
  · exact hsnapshot

theorem handles_execute (commands : List GuestCommand) : (l.execute backend commands).Handles
    (s.filesOf l.kind l.identity) := by
  induction commands with
  | nil => exact Act.handles_pure _ ()
  | cons c cs ih => exact .bind (.mapError (h.handles_call backend rfl)) fun _ => ih

theorem handles_apply (op : Operation) : (l.apply backend op).Handles
    (s.filesOf l.kind l.identity) := by
  cases op with
  | base reference => exact .mapError (h.handles_call backend rfl)
  | _ => exact h.handles_execute backend _

theorem handles_makeDisk (parent : Option Layer) (op : Operation) :
    (makeDisk backend l parent op).Handles (s.filesOf l.kind l.identity) := by
  have hend : ((l.apply backend op).mapError (BuildError.ofApply l) >>= fun _ =>
      l.unmark.mapError (.ofStore l)).Handles (s.filesOf l.kind l.identity) :=
    .bind (.mapError (h.handles_apply backend op)) fun _ => .mapError h.handles_unmark
  refine .bind (.mapError h.handles_discard) fun _ => .bind (.mapError h.handles_mark) fun _ => ?_
  cases parent with
  | none => exact hend
  | some p => exact .bind (.mapError (h.handles_snapshotOf backend p)) fun _ => hend

theorem handles_tag (terminal : Layer) : (do
    s.refuseIfUsed l.identity.name
    l.discard
    l.mark
    l.snapshotOf backend terminal
    l.unmark : Act σ StoreError Unit).Handles (s.filesOf l.kind l.identity) :=
  .bind (.look fun fs => s.ensureUnused fs l.identity.name) fun _ => .bind h.handles_discard fun _ =>
    .bind h.handles_mark fun _ => .bind (h.handles_snapshotOf backend terminal) fun _ => h.handles_unmark

theorem handles_realize (config : BuildConfig) (parent : Option Layer) (op : Operation) : (do
    if ← Act.inspect (isReusable config.force l) then return .cached
    makeDisk backend l parent op
    return .built : Act σ BuildError StepStatus).Handles (s.filesOf l.kind l.identity) := by
  refine .bind (Act.handles_inspect _ _) fun found => ?_
  split
  · exact Act.handles_pure _ _
  · exact .bind (h.handles_makeDisk backend parent op) fun _ => Act.handles_pure _ _

end Layer.BelongsTo

/-! ## builds -/

namespace Act
variable {σ : Type} {s : Store} {locks : Set Path} {l : Layer} (backend : Backend σ)

theorem acquires_layer (hlock : s.lockPath l.kind l.identity ∈ locks) (command : String)
    (wait : Duration) (w : World σ) :
    (s.acquire l command wait : Act σ StoreError Lock).Ends w fun res ms w' =>
      w.Acquires s locks (s.lockPath l.kind l.identity) res ms w' :=
  Ends.mapError ((acquires_acquire hlock _ _ _ w).mono fun _ _ _ hw => hw.mapError _)

theorem ends_underLayer {ε α : Type} (h : l.BelongsTo s) (hlock : s.lockPath l.kind l.identity ∈ locks)
    {acquire : Act σ ε Lock} {act : Act σ ε α} {w : World σ}
    (hacq : acquire.Ends w fun res ms w' => w.Acquires s locks (s.lockPath l.kind l.identity) res ms w')
    (hact : act.Handles (s.filesOf l.kind l.identity)) :
    (Lock.during acquire act).Ends w fun _ ms w' => s.Follows locks [] ms [] ∧ w.Returns w' :=
  ends_under hlock hacq hact (fun _ hf => Or.inl ⟨_, _, h.valid, hf⟩) fun _ hf _ _ hv hf' => Store.lockPath_eq h.valid hv hf hf'

theorem follows_realize (config : BuildConfig) (h : l.BelongsTo s)
    (hlock : s.lockPath l.kind l.identity ∈ locks) (parent : Option Layer) (op : Operation)
    (w : World σ) : (realize backend s config l parent op).Ends w fun _ ms w' =>
      s.Follows locks [] ms [] ∧ w.Returns w' := by
  rw [realize]
  refine ends_inspect_bind ?_
  split
  · exact ends_pure ⟨rfl, .refl w⟩
  · exact ends_underLayer h hlock (Ends.mapError ((acquires_layer hlock _ _ w).mono
      fun _ _ _ hw => hw.mapError _)) (h.handles_realize backend config parent op)

theorem follows_makeTag (config : BuildConfig) (h : l.BelongsTo s)
    (hlock : s.lockPath l.kind l.identity ∈ locks) (terminal : Layer) (w : World σ) :
    (makeTag backend s config l terminal).Ends w fun _ ms w' =>
      s.Follows locks [] ms [] ∧ w.Returns w' := by
  rw [makeTag]
  exact ends_underLayer h hlock (Ends.mapError ((acquires_layer hlock _ _ w).mono
    fun _ _ _ hw => hw.mapError _)) (.mapError (h.handles_tag backend terminal))

end Act

def Store.lockPaths (s : Store) : Set Path :=
  {path | ∃ kind key, isValidName key.name = true ∧ path = s.lockPath kind key}

theorem Context.extend_belongsTo {s : Store} {c c' : Context} {op : Operation} {goal : Goal}
    (h : c.extend s op = .ok (goal, c')) : goal.layer.BelongsTo s := by
  unfold extend at h
  split at h
  · cases op with
    | base reference =>
      cases hb : Identity.base? reference with
      | none =>
        simp only [hb] at h
        cases h
      | some key =>
        simp only [hb] at h
        cases h
        exact ⟨isValidName_base? hb, rfl⟩
    | _ => cases h
  · split at h
    · cases h
    · cases h
      exact ⟨isValidName_of_isDigest (Identity.isDigest_derive _ op), rfl⟩

/-- A step of a build all of whose moments are allowed, from no lock to no lock. -/
def Folding.Follows (s : Store) (step : Folding σ α) : Prop :=
  ∀ c w, ∃ ms, (step.runIn c w).2.journal = w.journal ++ ms ∧
    Linked w.files ms (step.runIn c w).2.files ∧ s.Follows s.lockPaths [] ms [] ∧
      w.Returns (step.runIn c w).2

namespace Folding
variable {σ α β : Type} {s : Store}

theorem follows_of_world {step : Folding σ α} (h : ∀ c w, (step.runIn c w).2 = w) :
    step.Follows s := by
  intro c w
  rw [h]
  exact ⟨[], (List.append_nil _).symm, rfl, rfl, .refl w⟩

theorem Follows.bind {step : Folding σ β} {f : β → Folding σ α} (h : step.Follows s)
    (hf : ∀ b, (f b).Follows s) : (step >>= f).Follows s := by
  intro c w
  obtain ⟨ms, hj, hl, hms, hw⟩ := h c w
  rw [runIn_bind]
  rcases hrun : step.runIn c w with ⟨⟨res, c'⟩, w'⟩
  rw [hrun] at hj hl hw
  cases res with
  | error e => exact ⟨ms, hj, hl, hms, hw⟩
  | ok b =>
    obtain ⟨ms', hj', hl', hms', hw'⟩ := hf b c' w'
    refine ⟨ms ++ ms', ?_, hl.append hl', hms.append hms', hw.trans hw'⟩
    rw [← List.append_assoc, ← hj]
    exact hj'

end Folding

section
variable {σ : Type} (backend : Backend σ) (s : Store) (config : BuildConfig)

theorem follows_applyOne (op : Operation) : (applyOne backend s config op).Follows s := by
  intro c w
  rw [applyOne_runIn]
  cases hext : c.extend s op with
  | error e => exact ⟨[], (List.append_nil _).symm, rfl, rfl, .refl w⟩
  | ok found =>
    obtain ⟨goal, c'⟩ := found
    have hlayer := Context.extend_belongsTo hext
    have hlock : s.lockPath goal.layer.kind goal.layer.identity ∈ s.lockPaths :=
      ⟨_, _, hlayer.valid, rfl⟩
    obtain ⟨ms, hj, hl, hms⟩ := Act.follows_realize backend config hlayer hlock goal.parent op w
    dsimp only
    rcases hrun : (realize backend s config goal.layer goal.parent op).runIn w with ⟨res, w'⟩
    rw [hrun] at hj hl hms
    cases res <;> exact ⟨ms, hj, hl, hms⟩

/-- by induction on the operations: after each of them no lock is held -/
theorem follows_applyAll (ops : List Operation) : (applyAll backend s config ops).Follows s := by
  induction ops with
  | nil => exact Folding.follows_of_world fun _ _ => rfl
  | cons op ops ih => exact (follows_applyOne backend s config op).bind fun _ => ih

theorem follows_tagAs (name : String) : (tagAs backend s config name).Follows s := by
  intro c w
  cases hv : isValidName name with
  | false =>
    refine Folding.follows_of_world (fun c w => ?_) c w
    rw [tagAs, hv, Bool.not_false, if_pos rfl, Folding.runIn_bind, Folding.runIn_throw]
  | true =>
    cases hcur : c.current? with
    | none =>
      have hrun : (tagAs backend s config name).runIn c w = ((.error (.script .nothingToTag), c), w) := by
        rw [tagAs, hv, Bool.not_true, if_neg (by simp), Folding.runIn_bind, Folding.runIn_get]
        dsimp only
        rw [hcur]
        rfl
      rw [hrun]
      exact ⟨[], (List.append_nil _).symm, rfl, rfl, .refl w⟩
    | some found =>
      obtain ⟨id, terminal⟩ := found
      obtain ⟨l, hl⟩ : ∃ l : Layer, l = { s.tagNamed name with parent := some id } := ⟨_, rfl⟩
      have hlayer : l.BelongsTo s := by
        rw [hl]
        exact ⟨hv, rfl⟩
      have hlock : s.lockPath l.kind l.identity ∈ s.lockPaths := ⟨_, _, hlayer.valid, rfl⟩
      obtain ⟨ms, hms⟩ := Act.follows_makeTag backend config hlayer hlock terminal w
      rw [tagAs_runIn_of_current config w hv hcur hl]
      rcases hrun : (makeTag backend s config l terminal).runIn w with ⟨res, w'⟩
      rw [hrun] at hms
      cases res <;> exact ⟨ms, hms⟩

theorem follows_buildIn (ops : List Operation) (tag : Option String) :
    (buildIn backend s config ops tag).Follows s := by
  refine (follows_applyAll backend s config ops).bind fun _ => ?_
  cases tag with
  | none => exact Folding.follows_of_world fun _ _ => rfl
  | some name =>
    exact (follows_tagAs backend s config name).bind fun _ => Folding.follows_of_world fun _ _ => rfl

end

/-! ## whole operations -/

namespace Act
variable {σ : Type}

theorem works_open (root : Path) :
    (Store.open root : Act σ StoreError Store).Works Moment.Prepares := by
  have hmake : ∀ dir, (Store.makeDirectories dir : Act σ StoreError Unit).Works Moment.Prepares :=
    fun dir => works_of_note fun w => Or.inr ⟨_, _, _, w, rfl, rfl, rfl, .refl w, Or.inl ⟨dir, rfl⟩,
      FileSystem.keepsLocks_makeDirectories w.files dir⟩
  rw [Store.open]
  refine (works_look fun fs => .ok fs.currentPath).bind fun current => ?_
  cases root.absolute? current with
  | none => exact works_look fun _ => .error _
  | some whole =>
    exact (hmake _).bind fun _ => (hmake _).bind fun _ => (hmake _).bind fun _ =>
      (hmake _).bind fun _ => works_look fun _ => .ok _

/-- what is known of the end of an operation in two ways is known together -/
theorem Ends.and {ε α : Type} {act : Act σ ε α} {w : World σ}
    {Q R : Except ε α → List Moment → World σ → Prop} (h : act.Ends w Q) (h' : act.Ends w R) :
    act.Ends w fun res ms w' => Q res ms w' ∧ R res ms w' := by
  obtain ⟨ms, hj, hl, hq⟩ := h
  obtain ⟨ms', hj', -, hr⟩ := h'
  have hms : ms' = ms := List.append_cancel_left (hj'.symm.trans hj)
  exact ⟨ms, hj, hl, hq, hms ▸ hr⟩

theorem follows_build (backend : Backend σ) (config : BuildConfig) (ops : List Operation)
    (tag : Option String) (w : World σ) :
    (build backend config ops tag).Ends w fun _ ms w' => w.Returns w' ∧
      ∃ s, (∀ s', Store.openReadOnly w.files config.storeRoot = .ok s' → s' = s) ∧
        s.Follows s.lockPaths [] ms [] := by
  obtain ⟨s₀, hs₀⟩ : ∃ s₀ : Store, ∀ s', Store.openReadOnly w.files config.storeRoot = .ok s' → s' = s₀ := by
    cases hopen : Store.openReadOnly w.files config.storeRoot with
    | error e => exact ⟨default, fun s' hs => by cases hs⟩
    | ok s => exact ⟨s, fun s' hs => (Except.ok.inj hs).symm⟩
  have hnothing : ∀ e, (throw e : Act σ BuildError BuildOutcome).Ends w fun _ ms w' =>
      w.Returns w' ∧ ∃ s, (∀ s', Store.openReadOnly w.files config.storeRoot = .ok s' → s' = s) ∧
        s.Follows s.lockPaths [] ms [] := fun e => ends_throw ⟨.refl w, s₀, hs₀, rfl⟩
  have hways : ∀ {s : Store} {ms : List Moment}, (∀ m ∈ ms, m.Prepares) →
      s.Follows s.lockPaths [] ms [] := fun h => .of_forall fun m hm => (h m hm).allows
  have hopened := ((works_open config.storeRoot w).and (ends_open config.storeRoot)).bind_mapError
    (f := BuildError.openStore) (Q := fun _ ms w' => w.Returns w' ∧
      ∃ s, (∀ s', Store.openReadOnly w.files config.storeRoot = .ok s' → s' = s) ∧
        s.Follows s.lockPaths [] ms [])
    (g := fun s => resume backend s config {} ops tag) ?_ ?_
  · rw [build]
    split
    · exact hnothing _
    · cases tag with
      | none => exact hopened
      | some name =>
        dsimp only
        split
        · exact hnothing _
        · exact hopened
  · rintro s ms w₁ ⟨⟨hk, hms⟩, hopens⟩
    have hs : ∀ s', Store.openReadOnly w.files config.storeRoot = .ok s' → s' = s := by
      intro s' h
      rw [Store.openReadOnly, (hopens.stands s rfl).1] at h
      exact (Except.ok.inj h).symm
    obtain ⟨ms', hj, hl, hms', hreturns⟩ := follows_buildIn backend s config ops tag {} w₁
    rcases hrun : (buildIn backend s config ops tag).runIn {} w₁ with ⟨⟨res, c⟩, w'⟩
    rw [hrun] at hj hl hreturns
    have hgood : w.Returns w' ∧
        ∃ s, (∀ s', Store.openReadOnly w.files config.storeRoot = .ok s' → s' = s) ∧
          s.Follows s.lockPaths [] (ms ++ ms') [] :=
      ⟨((World.Returns.refl w).kept hk).trans hreturns, s, hs, (hways hms).append hms'⟩
    refine ⟨ms', ?_⟩
    rw [resume, runIn_ofFunction, hrun]
    cases res <;> exact ⟨hj, hl, hgood⟩
  · rintro e ms w₁ ⟨⟨hk, hms⟩, -⟩
    exact ⟨Or.inl hk, s₀, hs₀, hways hms⟩

theorem follows_removeTag (s : Store) (name command : String) (wait : Duration) (w : World σ) :
    (s.removeTag name command wait : Act σ StoreError Unit).Ends w fun _ ms w' =>
      s.Follows {s.lockPath .tag ⟨name⟩} [] ms [] ∧ w.Returns w' := by
  rw [Store.removeTag]
  cases hv : isValidName name with
  | false =>
    have hrun : ∀ f : Option Layer → Act σ StoreError Unit,
        ((Act.ofFunction fun w => (s.tagLayer w.files name, w)) >>= f).runIn w =
          (.error (.invalidName name), w) := by
      intro f
      rw [runIn_bind, runIn_ofFunction, Store.tagLayer, hv, if_neg (by simp)]
    exact ends_of_runIn (hrun _) ⟨rfl, .refl w⟩
  | true =>
    have hlayer : (s.tagNamed name).BelongsTo s := ⟨hv, rfl⟩
    have hlock : s.lockPath (s.tagNamed name).kind (s.tagNamed name).identity ∈
        ({s.lockPath .tag ⟨name⟩} : Set Path) := rfl
    have hact : ((s.refuseIfUsed name : Act σ StoreError Unit) >>= fun _ =>
        (s.tagNamed name).discard).Handles (s.filesOf .tag ⟨name⟩) :=
      .bind (.look fun fs => s.ensureUnused fs name) fun _ => hlayer.handles_discard
    have hfound : ((Act.ofFunction fun w => (s.tagLayer w.files name, w)) :
        Act σ StoreError (Option Layer)).runIn w =
          (.ok (if (s.tagNamed name).isComplete w.files then some (s.tagNamed name) else none), w) := by
      rw [runIn_ofFunction, Store.tagLayer, hv, if_pos rfl]
    by_cases hwhole : (s.tagNamed name).isComplete w.files = true
    · rw [if_pos hwhole] at hfound
      refine (ends_underLayer hlayer hlock (acquires_layer hlock command wait w) hact).of_runIn_eq ?_
      rw [runIn_bind, hfound]
    · rw [if_neg hwhole] at hfound
      exact ends_of_runIn (r := .error (.tagNotFound name)) (by rw [runIn_bind, hfound]; rfl)
        ⟨rfl, .refl w⟩

theorem handles_launchLocked (backend : Backend σ) (s : Store) (tag : Layer) (m : MachineSpec)
    (hv : isValidName m.name = true) : (launchLocked backend s tag m).Handles
      {file | file = s.instancePath m.name ∨ file = s.recordPath m.name} := by
  have hundo : (s.removeInstance m.name : Act σ StoreError Unit).Handles
      {file | file = s.instancePath m.name ∨ file = s.recordPath m.name} :=
    .bind (.mapError (.remove (isPlain_diskName hv) (ne_lockName (toList_diskName _) (by decide))
      (Or.inl rfl))) fun _ =>
    .mapError (.remove (isPlain_recordName hv) (ne_lockName (toList_recordName _) (by decide))
      (Or.inr rfl))
  refine .bind (handles_inspect _ _) fun found => ?_
  dsimp only
  split
  · exact handles_throw_bind _ _ _
  · exact .bind (.mapError (.call rfl (Or.inl rfl))) fun _ =>
      .bind (.orElseUndo (.mapError (.mapError (.write _ (Or.inr rfl)))) hundo) fun _ =>
        .bind (.orElseUndo (.mapError (.call rfl (Or.inl rfl))) hundo) fun _ => handles_pure _ _

theorem follows_launch (backend : Backend σ) (s : Store) (tag : String) (m : MachineSpec) (w : World σ) :
    (launch backend s tag m).Ends w fun _ ms w' =>
      s.Follows {s.lockPath .tag ⟨tag⟩} [] ms [] ∧ w.Returns w' := by
  refine ends_launch_of_locked (fun e => ⟨rfl, .refl w⟩) fun hm _ _ _ => ?_
  have hlock : s.lockPath (s.tagNamed tag).kind (s.tagNamed tag).identity ∈
      ({s.lockPath .tag ⟨tag⟩} : Set Path) := rfl
  refine ends_under hlock (Ends.mapError ((acquires_layer hlock _ _ w).mono
    fun _ _ _ hw => hw.mapError _)) (handles_launchLocked backend s (s.tagNamed tag) m hm)
    (fun file hf => Or.inr ⟨m.name, hm, hf⟩) ?_
  rintro file (rfl | rfl) kind key hv hfile
  · exact absurd hfile (Store.not_mem_filesOf hv (isPlain_diskName hm))
  · exact absurd hfile (Store.not_mem_filesOf hv (isPlain_recordName hm))

end Act

/-- Lock discipline.  From every world, with every backend and whatever the others do when they have
their turn: a build, the removal of a tag and a launch touch the disk and the marker of a key only
while they hold the lock of that key, hold no lock when they take one or wait for one, and hold none
in the end; locks are then what they were, or what the others left.  No lock file goes, and a lock
is taken only when nobody holds it. -/
theorem locks_disciplined {σ : Type} (backend : Backend σ) (w : World σ) :
    (∀ config ops tag, (build backend config ops tag).Ends w fun _ ms w' => w.Returns w' ∧
      ∃ s, (∀ s', Store.openReadOnly w.files config.storeRoot = .ok s' → s' = s) ∧
        s.Disciplined s.lockPaths ms) ∧
    (∀ (s : Store) name command wait,
      (s.removeTag name command wait : Act σ StoreError Unit).Ends w fun _ ms w' =>
        w.Returns w' ∧ s.Disciplined {s.lockPath .tag ⟨name⟩} ms) ∧
    (∀ (s : Store) tag m, (launch backend s tag m).Ends w fun _ ms w' =>
      w.Returns w' ∧ s.Disciplined {s.lockPath .tag ⟨tag⟩} ms) ∧
    (∀ path who command wait l w',
      (Lock.acquire path who command wait : Act σ LockError Lock).runIn w = (.ok l, w') →
        ∃ others, w'.locked = l.file :: others ∧ l.file ∉ others) := by
  refine ⟨fun config ops tag => ?_, fun s name command wait => ?_, fun s tag m => ?_,
    fun path who command wait l w' hrun => ?_⟩
  · refine (Act.follows_build backend config ops tag w).mono ?_
    rintro _ ms w' ⟨hw, s, hs, hms⟩
    exact ⟨hw, s, hs, hms.disciplined⟩
  · refine (Act.follows_removeTag s name command wait w).mono ?_
    rintro _ ms w' ⟨hms, hw⟩
    exact ⟨hw, hms.disciplined⟩
  · refine (Act.follows_launch backend s tag m w).mono ?_
    rintro _ ms w' ⟨hms, hw⟩
    exact ⟨hw, hms.disciplined⟩
  · obtain ⟨ms, -, -, hacq⟩ := Act.acquires_acquire (s := default)
      (Set.mem_univ path) who command wait w
    rw [hrun] at hacq
    obtain ⟨-, -, others, hlocked, hfree, -⟩ := hacq
    exact ⟨others, hlocked, hfree⟩

end DiskLayers
