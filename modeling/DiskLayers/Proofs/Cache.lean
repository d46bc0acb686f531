import DiskLayers.Proofs.Standing
import DiskLayers.Proofs.Vouching

/-!
# Cached disks are those of a clean build

* `BuildRequest`      what one build is asked for
* `runBuilds`         builds one after the other, whatever comes of each
* `Effect.Trusts`     a store that is there, with no whole disk that its scripts do not vouch for

`Raised.vouches` is the step, from one build to the next, and `ends_runBuilds` the induction over a
history.  A clean build is itself a history, so that `whole_disk_of_builds` compares a disk found
after any history with the one that a clean build of its script makes.
-/

namespace DiskLayers
open DiskLayers.Path

structure BuildRequest where
  config : BuildConfig
  ops : List Operation
  tag : Option String := none

def runBuilds (backend : Backend σ) : List BuildRequest → World σ → World σ
  | [], w => w
  | b :: bs, w => runBuilds backend bs ((build backend b.config b.ops b.tag).runIn w).2

/-- A store is there, reached by paths from the same directory as ever, nobody else changes it, and
no disk in it is whole that some scripts do not vouch for. -/
structure Effect.Trusts (E : Effect) (s : Store) (r : Trail) (scripts : List (List Operation))
    (current : Path) (w : World σ) : Prop where
  stands : s.StandsAt r w.files
  here : w.files.currentPath = current
  undisturbed : w.Undisturbed
  vouches : E.Vouches s scripts w.files

section
variable {σ : Type} {backend : Backend σ} {E : Effect} {s : Store} {r : Trail}
  {scripts : List (List Operation)} {fs fs' : FileSystem} {current : Path} {w : World σ}

theorem Effect.Vouches.of_tags (h : E.Vouches s scripts fs) (hs : s.StandsAt r fs)
    {tag : Option String} (hw : FileSystem.Within (Store.tagTrails r tag) fs fs') : E.Vouches s scripts fs' :=
  h.of_keeps fun _ hv => Or.inl (.of_tags hs hv hw)

/-- A build of a script keeps it up at every moment that whole disks are vouched for. -/
theorem Raised.vouches {force : Bool} {ops : List Operation} {tag : Option String}
    {res : Except BuildError BuildOutcome} {reports : List StepReport} {ms : List Moment}
    (h : Raised backend s r force ops tag fs res reports ms fs') (hf : backend.Follows E)
    (hs : s.StandsAt r fs) (hu : Unambiguous scripts) (hin : ops ∈ scripts)
    (hv : E.Vouches s scripts fs) :
    (∀ m ∈ ms, E.Vouches s scripts m.after) ∧ E.Vouches s scripts fs' := by
  have hbegin : BeginsIn scripts ([] ++ ops) := ⟨ops, hin, List.prefix_rfl⟩
  have hnone : fs.Bears (E.disks s []) := fun _ _ hp => nomatch hp
  cases h with
  | fallen hasc => exact hasc.vouches hf hs hu .start hbegin hv hnone
  | ended hasc _ hended _ _ =>
    obtain ⟨hms, hend⟩ := hasc.vouches hf hs hu .start hbegin hv hnone
    have hs' := hs.within hasc.within.1
    refine ⟨fun m hm => ?_, hend.of_tags hs' hended.within⟩
    rcases List.mem_append.mp hm with hm | hm
    · exact hms m hm
    · exact hend.of_tags hs' (hended.after m hm)

/-- a build leaves a store that can be trusted, at every moment -/
theorem Effect.Trusts.ends_build {b : BuildRequest} (h : E.Trusts s r scripts current w)
    (hf : backend.Follows E) (hu : Unambiguous scripts) (hin : b.ops ∈ scripts)
    (ha : s.root.isAbsolute = true) (hroot : b.config.storeRoot.absolute? current = some s.root) :
    (build backend b.config b.ops b.tag).Ends w fun _ ms w' =>
      E.Trusts s r scripts current w' ∧ ∀ m ∈ ms, E.Vouches s scripts m.after := by
  refine (ends_build_standing hf.confined hf.leavesFiles h.undisturbed h.stands ha
    (h.here ▸ hroot)).mono ?_
  rintro res ms w' ⟨hleaves, ⟨rfl, rfl, -⟩ | ⟨ms', rfl, hraised⟩⟩
  · exact ⟨h, fun m hm => nomatch hm⟩
  · obtain ⟨hms, hend⟩ := hraised.vouches hf h.stands hu hin h.vouches
    have hw := hraised.within.1
    refine ⟨⟨h.stands.within hw, ?_, hleaves.undisturbed h.undisturbed, hend⟩, fun m hm => ?_⟩
    · rw [← h.here, FileSystem.currentPath, FileSystem.currentPath, hw.current]
    · rcases List.mem_append.mp hm with hm | hm
      · rw [Store.after_of_mem_opening hm]
        exact h.vouches
      · exact hms m hm

/-- Builds leave a store that can be trusted, at every moment.  By induction on the history. -/
theorem Effect.Trusts.ends_runBuilds {bs : List BuildRequest} (h : E.Trusts s r scripts current w)
    (hf : backend.Follows E) (hu : Unambiguous scripts) (hin : ∀ b ∈ bs, b.ops ∈ scripts)
    (ha : s.root.isAbsolute = true)
    (hroot : ∀ b ∈ bs, b.config.storeRoot.absolute? current = some s.root) :
    ∃ ms, (runBuilds backend bs w).journal = w.journal ++ ms ∧
      Linked w.files ms (runBuilds backend bs w).files ∧
      E.Trusts s r scripts current (runBuilds backend bs w) ∧
      ∀ m ∈ ms, E.Vouches s scripts m.after := by
  induction bs generalizing w with
  | nil => exact ⟨[], (List.append_nil _).symm, rfl, h, fun m hm => nomatch hm⟩
  | cons b bs ih =>
    obtain ⟨ms, hj, hlink, h', hms⟩ := h.ends_build hf hu (hin b List.mem_cons_self) ha
      (hroot b List.mem_cons_self)
    obtain ⟨ms', hj', hlink', h'', hms'⟩ := ih h' (fun b hb => hin b (List.mem_cons_of_mem _ hb))
      fun b hb => hroot b (List.mem_cons_of_mem _ hb)
    refine ⟨ms ++ ms', ?_, hlink.append hlink', h'', fun m hm => ?_⟩
    · rw [← List.append_assoc, ← hj]
      exact hj'
    · rcases List.mem_append.mp hm with hm | hm
      · exact hms m hm
      · exact hms' m hm

theorem Effect.Vouches.of_isEmpty (h : s.IsEmpty fs) (hs : s.StandsAt r fs) :
    E.Vouches s scripts fs := by
  intro key hv hwhole
  obtain ⟨⟨-, b, c, hnode⟩, -⟩ := (FileSystem.isWhole_join hs.layers hv).mp hwhole
  rw [h.node? hs (by simp [Store.directories])] at hnode
  cases hnode

end

theorem Leads.lastKey_eq {ops : List Operation} {key : Identity} (h : Leads ops (some key)) : lastKey none ops = some key := by
  cases h with
  | @step ops below op _ h hk =>
    rw [lastKey, h.keysFrom_append, keysFrom, hk]
    simp [keysFrom]

theorem Raised.isWhole_last {s : Store} {r : Trail} {force : Bool} {ops : List Operation}
    {tag : Option String} {fs fs' : FileSystem} {o : BuildOutcome} {reports : List StepReport}
    {ms : List Moment} {key : Identity} {σ : Type} {backend : Backend σ}
    (h : Raised backend s r force ops tag fs (.ok o) reports ms fs') (hs : s.StandsAt r fs)
    (hl : Leads ops (some key)) : fs'.isWhole (s.layerPath key) = true := by
  generalize hres : (Except.ok o : Except BuildError BuildOutcome) = res at h
  cases h with
  | fallen => cases hres
  | ended hasc hlast hended _ _ =>
    rw [hl.lastKey_eq] at hlast
    cases hlast
    have hwhole := isWhole_lastKey hasc (fun k hk => nomatch hk) hl.lastKey_eq
    have hkeep := Store.KeepsLayer.of_tags (hs.within hasc.within.1) hl.isValidName hended.within
    rw [hkeep.isWhole_eq]
    exact hwhole

/-- Whatever builds were done in a store that was empty, and however they ended: at every moment each
whole disk is the one that its script makes where there are no disks, and so the one that any build
of this script leaves in an empty store at the same place. -/
theorem whole_disk_of_builds {σ : Type} {backend : Backend σ} {E : Effect} {s : Store} {w : World σ}
    {bs : List BuildRequest} (hf : backend.Follows E) (hw : w.Undisturbed)
    (ha : s.root.isAbsolute = true) (hempty : s.IsEmpty w.files)
    (hroot : ∀ b ∈ bs, b.config.storeRoot.absolute? w.files.currentPath = some s.root)
    (hu : Unambiguous (bs.map BuildRequest.ops)) :
    ∃ ms, (runBuilds backend bs w).journal = w.journal ++ ms ∧
      Linked w.files ms (runBuilds backend bs w).files ∧
      ∀ fs, (fs = (runBuilds backend bs w).files ∨ ∃ m ∈ ms, fs = m.before ∨ fs = m.after) →
        ∀ key, isValidName key.name = true → fs.isWhole (s.layerPath key) = true →
          let Defines := fun pre => BeginsIn (bs.map BuildRequest.ops) pre ∧
            ∃ steps, plan s fs pre = .ok steps ∧ steps.getLast?.map PlannedStep.identity = some key
          (∃ pre, Defines pre) ∧ ∀ pre, Defines pre →
            (∃ content, fs.contents (s.layerPath key) = some content ∧
              E.disks s pre (s.layerPath key) = some content) ∧
            ∀ {τ : Type} (backend' : Backend τ) (config : BuildConfig) (v : World τ) (o : BuildOutcome),
              backend'.Follows E → v.Undisturbed → s.IsEmpty v.files →
              config.storeRoot.absolute? v.files.currentPath = some s.root →
              ((build backend' config pre none).runIn v).1 = .ok o →
              ((build backend' config pre none).runIn v).2.files.contents (s.layerPath key) =
                fs.contents (s.layerPath key) := by
  obtain ⟨r, hs⟩ := hempty.standsAt ha
  have htrusts : E.Trusts s r (bs.map BuildRequest.ops) w.files.currentPath w :=
    ⟨hs, rfl, hw, .of_isEmpty hempty hs⟩
  obtain ⟨ms, hj, hlink, hend, hms⟩ := htrusts.ends_runBuilds hf hu
    (fun b hb => List.mem_map_of_mem hb) ha hroot
  refine ⟨ms, hj, hlink, fun fs hfs key hv hwhole => ?_⟩
  have hvouches : E.Vouches s (bs.map BuildRequest.ops) fs := by
    rcases hfs with rfl | ⟨m, hm, rfl | rfl⟩
    · exact hend.vouches
    · exact hlink.before htrusts.vouches hms m hm
    · exact hms m hm
  intro Defines
  refine ⟨?_, fun pre hpre => ?_⟩
  · obtain ⟨pre, hin, hleads, -⟩ := hvouches key hv hwhole
    exact ⟨pre, hin, (leads_iff_plan s fs).mp hleads⟩
  obtain ⟨hin, hplan⟩ := hpre
  have hleads := (leads_iff_plan s fs).mpr hplan
  have hcontents := hvouches.contents_eq hu hin hleads hwhole
  obtain ⟨content, hcontent⟩ :=
    Option.ne_none_iff_exists'.mp (Effect.disks_below (E := E) (s := s) hleads)
  refine ⟨⟨content, hcontents.trans hcontent, hcontent⟩, ?_⟩
  -- a clean build is a history of one build
  intro τ backend' config v o hf' hv' hempty' hroot' hok
  obtain ⟨r', hs'⟩ := hempty'.standsAt ha
  have hu' := hu.of_beginsIn hin
  have hclean : E.Trusts s r' [pre] v.files.currentPath v := ⟨hs', rfl, hv', .of_isEmpty hempty' hs'⟩
  obtain ⟨-, -, -, htrusts', -⟩ :=
    @Effect.Trusts.ends_build τ backend' E s r' [pre] v.files.currentPath v ⟨config, pre, none⟩ hclean
      hf' hu' (List.mem_singleton_self pre) ha hroot'
  have hmade : ((build backend' config pre none).runIn v).2.files.isWhole (s.layerPath key) = true := by
    obtain ⟨ms', -, -, -, hcases⟩ := @ends_build_standing s r' τ backend' config pre none v
      hf'.confined hf'.leavesFiles hv' hs' ha hroot'
    rw [hok] at hcases
    rcases hcases with ⟨-, -, ⟨e, he⟩, -⟩ | ⟨ms', -, hraised⟩
    · cases he
    · exact hraised.isWhole_last hs' hleads
  rw [hcontents, htrusts'.vouches.contents_eq hu' ⟨pre, List.mem_singleton_self pre, List.prefix_rfl⟩
    hleads hmade]

/-! ## a history -/

/-- a file that was written, and is one, has the bytes that were written -/
theorem FileSystem.contents_of_write {fs fs' : FileSystem} {p : Path} {content : Content}
    (h : fs.write p content = .ok fs') (hfile : fs'.isFile p = true) :
    fs'.contents p = some content := by
  obtain ⟨t, b, ht, hw, hnode⟩ := within_of_write h
  have htrail := trail?_within hw ht
  rw [isFile] at hfile
  cases hl : fs'.lookup p with
  | error e =>
    rw [hl] at hfile
    cases hfile
  | ok found =>
    obtain ⟨u, n⟩ := found
    obtain ⟨hu, hn, -⟩ := lookup_eq_ok.mp hl
    rw [htrail] at hu
    cases hu
    rw [hnode] at hn
    cases hn
    rw [contents_eq, found?, hl]
    rfl

/-- the effect of calls that leave nothing but empty files -/
def Effect.blank : Effect where
  refers _ := ∅
  writes _ _ := .empty
  writes_congr _ _ _ _ := rfl
  refers_writes _ _ _ h := h.elim

theorem Backend.follows_touching (refuses : Call → Bool) :
    (Backend.touching refuses : Backend σ).Follows .blank := by
  refine ⟨confined_touching refuses, fun c p hc s fs hok => ?_⟩
  rw [touching, hc] at hok ⊢
  dsimp only at hok ⊢
  cases hr : refuses c with
  | true =>
    rw [hr] at hok
    cases hok
  | false =>
    rw [hr] at hok
    cases hw : fs.write p .empty with
    | error e =>
      rw [hw] at hok
      cases hok
    | ok fs' =>
      rw [hw] at hok
      cases hfile : fs'.isFile p with
      | true => exact FileSystem.contents_of_write hw hfile
      | false =>
        dsimp only at hok
        rw [hfile] at hok
        cases hok

/-- a file system with an empty store at its root -/
def FileSystem.cleared : FileSystem where
  nodes := Store.directories.map fun dir => ([dir], .dir)

/-- The base image stays, of which the first build asked before the guest failed it. -/
theorem whole_disk_of_builds_refused :
    let config : BuildConfig := { storeRoot := ⟨"/"⟩ }
    let w := runBuilds (.touching Call.isExecute)
      [⟨config, [.base " d ", .mutate "x"], none⟩, ⟨config, [.base "d"], some "t"⟩] (.on .cleared)
    w.files.isWhole (Store.layerPath ⟨⟨"/"⟩⟩ ⟨"d"⟩) = true ∧
      w.files.isWhole (Store.layerPath ⟨⟨"/"⟩⟩ ⟨"cda1f71bcdd8b42467a0"⟩) = false ∧
      w.files.contents (Store.layerPath ⟨⟨"/"⟩⟩ ⟨"d"⟩) = some .empty := by
  intro config w
  have hwhole : w.files.isWhole (Store.layerPath ⟨⟨"/"⟩⟩ ⟨"d"⟩) = true := by decide +kernel
  refine ⟨hwhole, by decide +kernel, ?_⟩
  have hu : Unambiguous [[.base " d ", .mutate "x"], [.base "d"]] := by
    refine ⟨⟨by decide +kernel, ?_⟩, ?_, ?_⟩
    · intro a ha key hkey
      have ha' : a = " d " ∨ a = "d" := by simpa [reference?] using ha
      rcases ha' with rfl | rfl
      · cases hkey
        decide +kernel
      · cases hkey
        decide +kernel
    · intro script hs op hop
      have hop' : op = .base " d " ∨ op = .mutate "x" ∨ op = .base "d" := by
        rcases List.mem_cons.mp hs with rfl | hs
        · simpa using Or.imp_right Or.inl (by simpa using hop)
        · rw [List.mem_singleton.mp hs] at hop
          exact Or.inr (Or.inr (List.mem_singleton.mp hop))
      rcases hop' with rfl | rfl | rfl
      · exact ⟨.base, _, rfl⟩
      · exact ⟨.mutate, _, rfl⟩
      · exact ⟨.base, _, rfl⟩
    · decide +kernel
  obtain ⟨ms, -, -, hall⟩ := @whole_disk_of_builds Unit (.touching Call.isExecute) .blank ⟨⟨"/"⟩⟩
    (.on .cleared) [⟨config, [.base " d ", .mutate "x"], none⟩, ⟨config, [.base "d"], some "t"⟩]
    (Backend.follows_touching _) (World.undisturbed_on _) (by decide) (by decide +kernel)
    (by decide +kernel) hu
  obtain ⟨-, hcontents⟩ := hall w.files (Or.inl rfl) ⟨"d"⟩ (by decide) hwhole
  obtain ⟨⟨content, hcontent, hmade⟩, -⟩ := hcontents [.base "d"] ⟨⟨_, by simp, List.prefix_rfl⟩, _, rfl, rfl⟩
  rw [hcontent, ← hmade]
  decide +kernel

end DiskLayers
