import DiskLayers.Proofs.Containment
import DiskLayers.Proofs.Effects

/-!
# Whole disks are those of their scripts

* `Anew`              a disk was made with some calls, all of them successful
* `Effect.Vouches`    each whole disk of a store is the one of a script that leads to its key

`Climbed.vouches` says that a step keeps this up at every moment, whether it succeeds or fails, and
`Ascent.vouches` says it of several steps, by induction on them with the script so far.
-/

namespace DiskLayers
open DiskLayers.Path

section
variable {σ : Type} (backend : Backend σ) (r : Trail) (l : Layer) (dir : Path) (d : Trail)
  (calls : List Call) (fs fs' : FileSystem)

/-- A disk was made with some calls, all of them successful, where it was not yet there. -/
def Anew : Prop :=
  dir.Fits (markerName l.identity.name) ∧ ∃ fs₁ fs₂,
    FileSystem.Within (l.trails d ∪ Store.lockTrails r) fs fs₁ ∧ fs₁.node? (l.diskTrail d) = none ∧
      Performed backend fs₁ calls fs₂ ∧ FileSystem.Within {l.markerTrail d} fs₂ fs'

/-- The disk is still what it was, or it is not whole, or all is done and it was made anew. -/
def Settles (now : FileSystem) : Prop :=
  FileSystem.Within (Store.lockTrails r) fs now ∨ now.isWhole l.location = false ∨
    (now = fs' ∧ Anew backend r l dir d calls fs fs')

end

section
variable {σ : Type} {backend : Backend σ} {r : Trail} {force : Bool} {l : Layer} {dir : Path}
  {d : Trail} {calls : List Call} {fs fs₀ fs' : FileSystem} {ms : List Moment}

/-- what becomes of a disk while it is made anew, and in the end -/
theorem Remade.settles {res : Except BuildError Unit}
    (h : Remade backend l dir d calls fs₀ res ms fs')
    (hw : FileSystem.Within (Store.lockTrails r) fs fs₀) :
    (∀ m ∈ ms, Settles backend r l dir d calls fs fs' m.after) ∧
      Settles backend r l dir d calls fs fs' fs' ∧
      (res = .ok () → Anew backend r l dir d calls fs fs') := by
  cases h with
  | stuck => exact ⟨fun m hm => (nomatch hm), Or.inl hw, fun hok => (nomatch hok)⟩
  | refused _ _ hnot hms =>
    exact ⟨fun m hm => Or.inr (Or.inl (hms m hm)), Or.inr (Or.inl hnot), fun hok => (nomatch hok)⟩
  | orphaned _ _ hnot hms =>
    exact ⟨fun m hm => Or.inr (Or.inl (hms m hm)), Or.inr (Or.inl hnot), fun hok => (nomatch hok)⟩
  | failed _ hnot hms =>
    exact ⟨fun m hm => Or.inr (Or.inl (hms m hm)), Or.inr (Or.inl hnot), fun hok => (nomatch hok)⟩
  | @made fs₁ fs₂ ms fs' _ hfits hmark hnone hperformed hlast _ hms =>
    have hanew : Anew backend r l dir d calls fs fs' :=
      ⟨hfits, fs₁, fs₂, (hw.mono fun t ht => Or.inr ht).trans (hmark.mono fun t ht => Or.inl ht),
        hnone, hperformed, hlast⟩
    refine ⟨fun m hm => ?_, Or.inr (Or.inr ⟨rfl, hanew⟩), fun _ => hanew⟩
    rcases hms m hm with hnot | he
    · exact Or.inr (Or.inl hnot)
    · exact Or.inr (Or.inr ⟨he, hanew⟩)

/-- what becomes of a disk while it is found or made, and in the end -/
theorem Realized.settles {res : Except BuildError StepStatus}
    (h : Realized backend r force l dir d calls fs res ms fs') :
    (∀ m ∈ ms, Settles backend r l dir d calls fs fs' m.after) ∧
      Settles backend r l dir d calls fs fs' fs' ∧
      (∀ status, res = .ok status → (fs' = fs ∧ fs.isWhole l.location = true) ∨
        Anew backend r l dir d calls fs fs') := by
  cases h with
  | found hr =>
    rw [isReusable, Bool.and_eq_true] at hr
    exact ⟨fun m hm => absurd hm List.not_mem_nil, Or.inl (.refl _ _), fun _ _ => Or.inl ⟨rfl, hr.2⟩⟩
  | locked _ _ hw hms => exact ⟨fun m hm => Or.inl (hms m hm), Or.inl hw, fun _ hok => (by cases hok)⟩
  | @remade fs₀ fs' res ms₀ ms m₀ _ _ hw hms₀ hm _ hlast =>
    obtain ⟨hms, hend, hok⟩ := hm.settles hw
    refine ⟨fun m hm => ?_, hend, fun status hres => Or.inr (hok ?_)⟩
    · rcases List.mem_append.mp hm with hm | hm
      · exact Or.inl (hms₀ m hm)
      · rcases List.mem_append.mp hm with hm | hm
        · exact hms m hm
        · rw [List.mem_singleton.mp hm, hlast]
          exact hend
    · cases res with
      | error e => cases hres
      | ok u => rfl

end

/-! ## the disks of a store and of scripts -/

theorem Store.KeepsLayer.contents_eq {s : Store} {key : Identity} {fs fs' : FileSystem}
    (h : s.KeepsLayer key fs fs') :
    fs'.contents (s.layerPath key) = fs.contents (s.layerPath key) :=
  FileSystem.KeepsDisk.contents_eq h

def Effect.Vouches (E : Effect) (s : Store) (scripts : List (List Operation)) (fs : FileSystem) :
    Prop :=
  ∀ key, isValidName key.name = true → fs.isWhole (s.layerPath key) = true →
    ∃ ops, BeginsIn scripts ops ∧ Leads ops (some key) ∧
      fs.contents (s.layerPath key) = E.disks s ops (s.layerPath key)

namespace Effect.Vouches
variable {E : Effect} {s : Store} {scripts : List (List Operation)} {fs fs' : FileSystem}

/-- nothing has happened to a key, or its disk is vouched for anew -/
theorem of_keeps (h : E.Vouches s scripts fs)
    (hk : ∀ key, isValidName key.name = true → s.KeepsLayer key fs fs' ∨
      (fs'.isWhole (s.layerPath key) = true → ∃ ops, BeginsIn scripts ops ∧ Leads ops (some key) ∧
        fs'.contents (s.layerPath key) = E.disks s ops (s.layerPath key))) :
    E.Vouches s scripts fs' := by
  intro key hv hwhole
  rcases hk key hv with hkeep | hnew
  · rw [hkeep.isWhole_eq] at hwhole
    rw [hkeep.contents_eq]
    exact h key hv hwhole
  · exact hnew hwhole

theorem contents_eq (h : E.Vouches s scripts fs) (hu : Unambiguous scripts) {key : Identity}
    {ops : List Operation} (hin : BeginsIn scripts ops) (hl : Leads ops (some key))
    (hwhole : fs.isWhole (s.layerPath key) = true) :
    fs.contents (s.layerPath key) = E.disks s ops (s.layerPath key) := by
  obtain ⟨ops', hin', hl', hcontents⟩ := h key hl.isValidName hwhole
  rw [hcontents, Effect.disks_eq hu hl' hl hin' hin]

end Effect.Vouches

section
variable {σ : Type} {backend : Backend σ} {E : Effect} {s : Store} {r : Trail} {force : Bool}
  {scripts : List (List Operation)} {pre : List Operation} {below : Option Identity}
  {op : Operation} {key : Identity} {fs fs' : FileSystem}

/-- the disks of a script are still there after changes to a key above them -/
theorem FileSystem.Bears.within (h : fs.Bears (E.disks s pre)) (hl : Leads pre below)
    (hs : s.StandsAt r fs) (hk : key ∉ keysFrom none pre)
    (hw : FileSystem.Within (Store.keyTrails r [key]) fs fs') : fs'.Bears (E.disks s pre) := by
  intro p content hp
  obtain ⟨k, hmem, rfl⟩ := (Effect.disks_ne_none hl).mp (by rw [hp]; simp)
  have hne : k ∉ [key] := by
    intro hk'
    rw [List.mem_singleton.mp hk'] at hmem
    exact hk hmem
  have hkeep := Store.KeepsLayer.of_within hs (isValidName_of_mem_keysFrom hmem) hne hw
  rw [hkeep.contents_eq]
  exact h _ content hp

/-- a disk that was made anew on the disks of a script is the next of its disks -/
theorem Anew.bears {l : Layer} (h : Anew backend r l (s.root.join Store.layersDir)
      (Store.layersDir :: r) (op.callsOn (below.map s.layerPath) (s.layerPath key)) fs fs')
    (hf : backend.Follows E) (hs : s.StandsAt r fs) (hu : Unambiguous scripts)
    (hl : Leads pre below) (hin : BeginsIn scripts (pre ++ [op])) (hk : nextKey below op = .ok key)
    (hfor : l.IsFor s below op key) (hb : fs.Bears (E.disks s pre)) :
    fs'.Bears (E.disks s (pre ++ [op])) := by
  obtain ⟨hfits, fs₁, fs₂, hw, hnone, hperformed, hlast⟩ := h
  have hv := isValidName_nextKey hk
  rw [hfor.trails_union] at hw
  rw [Layer.diskTrail, hfor.identity] at hnone
  rw [hfor.identity] at hfits
  have hs₁ := hs.within hw
  have hplain := isPlain_diskName hv
  have hfits' := fits_diskName hv (FileSystem.lookup_eq_dir.mp hs.layers).1.ne_nil hfits
  have hb₁ := hb.within hl hs (hu.toCollisionless.not_mem_keysFrom hl hin hk) hw
  have hd : fs₁.node? (diskName key.name :: Store.layersDir :: r) ≠ some .dir := by
    rw [hnone]
    simp
  have hc : ∀ c ∈ op.callsOn (below.map s.layerPath) (s.layerPath key),
      c.target? = some (s.layerPath key) := fun c hc => Operation.target?_of_mem_callsOn hc
  have hb₂ : fs₂.Bears (E.disks s (pre ++ [op])) := by
    rw [Effect.disks_concat hl hk]
    refine hperformed.bears hf hs₁.layers hplain hfits' hd hc (Effect.ready_disks hl hk)
      (Effect.grounded_disks hl) hb₁ fun p hp hne => ?_
    obtain ⟨k, hmem, rfl⟩ := (Effect.disks_ne_none hl).mp hp
    refine ⟨diskName k.name, isPlain_diskName (isValidName_of_mem_keysFrom hmem), ?_, rfl⟩
    intro e
    apply hne
    rw [Store.layerPath, e]
  -- the marker is no disk
  intro p content hp
  obtain ⟨k, hmem, rfl⟩ := (Effect.disks_ne_none (hl.step hk)).mp (by rw [hp]; simp)
  have hvk := isValidName_of_mem_keysFrom hmem
  have hs₂ := hs₁.within (hperformed.within hf.confined hf.leavesFiles hc hs₁.layers hplain hfits' hd)
  have hne : diskName k.name :: Store.layersDir :: r ∉
      ({l.markerTrail (Store.layersDir :: r)} : Set Trail) := by
    intro e
    exact diskName_ne_markerName _ _ (List.cons.inj e).1
  rw [Store.layerPath, hlast.contents_join hs₂.layers (isPlain_diskName hvk) hne]
  exact hb₂ _ content hp

/-- A step keeps it up that whole disks are vouched for, and if it succeeds its disk is there above
those of the script so far. -/
theorem Climbed.vouches {res : Except BuildError StepStatus} {ms : List Moment}
    (h : Climbed backend s r force below op key fs res ms fs') (hf : backend.Follows E)
    (hs : s.StandsAt r fs) (hu : Unambiguous scripts) (hl : Leads pre below)
    (hin : BeginsIn scripts (pre ++ [op])) (hk : nextKey below op = .ok key)
    (hv : E.Vouches s scripts fs) (hb : fs.Bears (E.disks s pre)) :
    (∀ m ∈ ms, E.Vouches s scripts m.after) ∧ E.Vouches s scripts fs' ∧
      ∀ status, res = .ok status → fs'.Bears (E.disks s (pre ++ [op])) := by
  obtain ⟨l, hfor, hreal⟩ := h.realized
  obtain ⟨hmoments, hend, hok⟩ := hreal.settles
  have hstep : Leads (pre ++ [op]) (some key) := hl.step hk
  -- the disk of the step at any moment
  have hnow : ∀ now, FileSystem.Within (Store.keyTrails r [key]) fs now →
      Settles backend r l (s.root.join Store.layersDir) (Store.layersDir :: r)
        (op.callsOn (below.map s.layerPath) (s.layerPath key)) fs fs' now →
      E.Vouches s scripts now := by
    intro now hw hsettles
    apply hv.of_keeps
    intro k hvk
    by_cases hkey : k = key
    · rw [hkey]
      rcases hsettles with hlock | hnot | ⟨rfl, hanew⟩
      · left
        rw [hkey] at hvk
        exact .of_within hs hvk List.not_mem_nil (hlock.mono Store.lockTrails_subset_keyTrails)
      · right
        rw [hfor.location] at hnot
        intro hwhole
        rw [hnot] at hwhole
        cases hwhole
      · right
        intro _
        refine ⟨pre ++ [op], hin, hstep, ?_⟩
        have hbears := hanew.bears hf hs hu hl hin hk hfor hb
        obtain ⟨content, hcontent⟩ :=
          Option.ne_none_iff_exists'.mp (Effect.disks_below (E := E) (s := s) hstep)
        rw [hcontent]
        exact hbears _ _ hcontent
    · left
      exact .of_within hs hvk (fun hmem => hkey (List.mem_singleton.mp hmem)) hw
  refine ⟨fun m hm => hnow _ (h.after m hm) (hmoments m hm), hnow _ h.within hend, ?_⟩
  intro status hstatus
  rcases hok status hstatus with ⟨rfl, hwhole⟩ | hanew
  · -- the disk was there, and so it is the one of the script
    rw [hfor.location] at hwhole
    have hcontents := hv.contents_eq hu hin hstep hwhole
    intro p content hp
    by_cases hpk : p = s.layerPath key
    · rw [hpk, hcontents, ← hpk]
      exact hp
    · apply hb p content
      rw [← hp, Effect.disks_concat hl hk, Effect.foldl_after_of_ne]
      intro c hc htarget
      rw [Operation.target?_of_mem_callsOn hc] at htarget
      exact hpk (Option.some.inj htarget).symm
  · exact hanew.bears hf hs hu hl hin hk hfor hb

/-- Steps keep it up that whole disks are vouched for.  By induction on the steps, with the script
so far and its disks, which are all there. -/
theorem Ascent.vouches {ops : List Operation} {res : Except BuildError Unit}
    {reports : List StepReport} {ms : List Moment}
    (h : Ascent backend s r force below ops fs res reports ms fs') (hf : backend.Follows E)
    (hs : s.StandsAt r fs) (hu : Unambiguous scripts) (hl : Leads pre below)
    (hin : BeginsIn scripts (pre ++ ops)) (hv : E.Vouches s scripts fs)
    (hb : fs.Bears (E.disks s pre)) :
    (∀ m ∈ ms, E.Vouches s scripts m.after) ∧ E.Vouches s scripts fs' := by
  induction h generalizing pre with
  | top => exact ⟨fun m hm => (nomatch hm), hv⟩
  | halted => exact ⟨fun m hm => (nomatch hm), hv⟩
  | @fallen below op ops key fs e ms fs' hk hclimb =>
    rw [← List.singleton_append, ← List.append_assoc] at hin
    obtain ⟨hms, hend, -⟩ := hclimb.vouches hf hs hu hl hin.of_append hk hv hb
    exact ⟨hms, hend⟩
  | @step below op ops key fs status ms fs₁ res reports ms' fs₂ hk hclimb hasc ih =>
    rw [← List.singleton_append, ← List.append_assoc] at hin
    obtain ⟨hms, hv₁, hb₁⟩ := hclimb.vouches hf hs hu hl hin.of_append hk hv hb
    obtain ⟨hms', hend⟩ := ih (hs.within hclimb.within) (hl.step hk) hin hv₁ (hb₁ status rfl)
    refine ⟨fun m hm => ?_, hend⟩
    rcases List.mem_append.mp hm with hm | hm
    · exact hms m hm
    · exact hms' m hm

end

end DiskLayers
