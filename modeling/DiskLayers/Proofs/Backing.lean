import DiskLayers.Proofs.Cache
import DiskLayers.Proofs.Pinning

/-!
# What disks were made from

* `makingOf`          the call that a disk was made by
* `Store.Backed`      a disk was made from an image, or on top of a layer that is whole or given up
* `Founded`           all whole disks are backed, those of layers as their scripts say
* `GivesUp`           a forced build has failed at a layer

A disk that is made anew is not looked at from above.  So a layer that a forced build fails at is
missing below those that stand on it.  `Climbed.founded` says of one step of a build that nothing
else goes missing, `Ascent.founded` says it of several by induction, and `Founded.perform` of
whatever else is asked of a store; `chains_whole` is the induction over a history.
-/

namespace DiskLayers
open DiskLayers.Path

/-- the disk that a call makes -/
def Call.makes? : Call → Option Path
  | .materialize _ _ disk => some disk
  | .snapshot _ disk => some disk
  | .execute _ _ | .createMachine _ _ | .attachMachine _ | .destroyMachine _ => none

/-- the call that a disk was made by, the last one that succeeded -/
def makingOf (ms : List Moment) (disk : Path) : Option Call :=
  (((answersOf ms).filter fun a => a.2.isOk && decide (a.1.makes? = some disk)).map Prod.fst).getLast?

section
variable {ms ms' : List Moment} {disk : Path}

theorem Call.target?_of_makes? {c : Call} (h : c.makes? = some disk) : c.target? = some disk := by
  cases c <;> cases h <;> rfl

theorem makingOf_append (ms ms' : List Moment) (disk : Path) :
    makingOf (ms ++ ms') disk = (makingOf ms' disk).or (makingOf ms disk) := by
  rw [makingOf, answersOf_append, List.filter_append, List.map_append, List.getLast?_append]
  rfl

theorem makingOf_eq_none (h : ∀ a ∈ answersOf ms, a.1.makes? = some disk → a.2 ≠ .ok ()) :
    makingOf ms disk = none := by
  have hnil : (answersOf ms).filter (fun a => a.2.isOk && decide (a.1.makes? = some disk)) = [] := by
    rw [List.filter_eq_nil_iff]
    rintro ⟨c, res⟩ ha hc
    obtain ⟨hok, hmakes⟩ := Bool.and_eq_true_iff.mp hc
    cases res with
    | error e => cases hok
    | ok u => exact h _ ha (of_decide_eq_true hmakes) rfl
  rw [makingOf, hnil]
  rfl

theorem makingOf_of_silent (h : answersOf ms = []) : makingOf ms disk = none := by
  rw [makingOf, h]
  rfl

theorem makingOf_of_target {other : Path} (hne : other ≠ disk)
    (h : ∀ a ∈ answersOf ms, a.1.target? = some other) : makingOf ms disk = none :=
  makingOf_eq_none fun a ha hmakes => by
    have htarget := (h a ha).symm.trans (Call.target?_of_makes? hmakes)
    exact absurd (Option.some.inj htarget) hne

theorem makingOf_of_answered {calls : List Call} (h : Answered calls (answersOf ms) none) :
    makingOf ms disk = (calls.filter fun c => decide (c.makes? = some disk)).getLast? := by
  have hfilter : ((answersOf ms).filter
      fun a => a.2.isOk && decide (a.1.makes? = some disk)).map Prod.fst =
        calls.filter fun c => decide (c.makes? = some disk) := by
    rw [h.eq_of_none, List.filter_map, List.map_map]
    exact List.map_id _
  rw [makingOf, hfilter]

end

/-! ## disks that are backed -/

namespace Store
variable (s : Store) (lost : Set Identity) (fs : FileSystem) (ms : List Moment)

/-- A disk was made from an image, or on top of the disk of a key. -/
def MadeFrom (disk : Path) : Option Identity → Prop
  | none => ∃ reference format, makingOf ms disk = some (.materialize reference format disk)
  | some key => makingOf ms disk = some (.snapshot (s.layerPath key) disk)

structure Backed (disk : Path) (below : Option Identity) : Prop where
  made : s.MadeFrom ms disk below
  stands : ∀ key, below = some key → fs.isWhole (s.layerPath key) = true ∨ key ∈ lost

end Store

section
variable {s : Store} {lost lost' : Set Identity} {fs fs' : FileSystem} {ms ms' : List Moment}
  {disk : Path} {below : Option Identity}

/-- the calls of an operation make a disk of an image, or on top of the one below -/
theorem Operation.madeFrom {op : Operation} {key : Identity} (hk : nextKey below op = .ok key)
    (h : Answered (op.callsOn (below.map s.layerPath) disk) (answersOf ms) none) :
    s.MadeFrom ms disk below := by
  have hmaking : makingOf ms disk = _ := makingOf_of_answered h
  cases below with
  | none =>
    obtain ⟨reference, rfl, -⟩ := nextKey_none hk
    refine ⟨Text.trim reference, diskFormat, hmaking.trans ?_⟩
    simp [Operation.callsOn, Call.makes?]
  | some k =>
    refine hmaking.trans ?_
    -- the guest makes no disk
    have hguest : ∀ commands : List GuestCommand,
        (commands.map (Call.execute disk)).filter (fun c => decide (c.makes? = some disk)) = [] := by
      intro commands
      rw [List.filter_eq_nil_iff]
      rintro c hc
      obtain ⟨g, -, rfl⟩ := List.mem_map.mp hc
      simp [Call.makes?]
    have hcalls : op.callsOn (some (s.layerPath k)) disk =
        .snapshot (s.layerPath k) disk :: op.guestCommands.map (Call.execute disk) := by
      cases op with
      | base reference => cases hk
      | _ => rfl
    rw [Option.map_some, hcalls, List.filter_cons_of_pos (by simp [Call.makes?]), hguest]
    rfl

theorem Store.MadeFrom.after (h : s.MadeFrom ms disk below) (hms : makingOf ms' disk = none) :
    s.MadeFrom (ms ++ ms') disk below := by
  have hsame : makingOf (ms ++ ms') disk = makingOf ms disk := by
    rw [makingOf_append, hms]
    rfl
  cases below with
  | none =>
    obtain ⟨reference, format, hm⟩ := h
    exact ⟨reference, format, hsame.trans hm⟩
  | some key => exact hsame.trans h

theorem Store.MadeFrom.anew (h : s.MadeFrom ms' disk below) : s.MadeFrom (ms ++ ms') disk below := by
  cases below with
  | none =>
    obtain ⟨reference, format, hm⟩ := h
    exact ⟨reference, format, by rw [makingOf_append, hm]; rfl⟩
  | some key =>
    show makingOf (ms ++ ms') disk = _
    rw [makingOf_append, show makingOf ms' disk = _ from h]
    rfl

end

/-! ## whole disks that are backed -/

/-- Every whole disk of a layer is backed as a script says, every whole disk of a tag is backed by a
layer, and the disk of every machine was made on top of its tag. -/
structure Founded (s : Store) (scripts : List (List Operation)) (lost : Set Identity) (pins : List Pin)
    (fs : FileSystem) (ms : List Moment) : Prop where
  layer : ∀ key, isValidName key.name = true → fs.isWhole (s.layerPath key) = true →
    ∃ pre below op, BeginsIn scripts (pre ++ [op]) ∧ Leads pre below ∧ nextKey below op = .ok key ∧
      s.Backed lost fs ms (s.layerPath key) below
  tag : ∀ name, isValidName name = true → fs.isWhole (s.tagPath name) = true →
    ∃ key, isValidName key.name = true ∧ s.Backed lost fs ms (s.tagPath name) (some key)
  machine : ∀ p ∈ pins, makingOf ms (s.instancePath p.machine) =
    some (.snapshot (s.tagPath p.tag) (s.instancePath p.machine))

namespace Founded
variable {s : Store} {scripts : List (List Operation)} {lost lost' : Set Identity}
  {pins pins' : List Pin} {fs fs' : FileSystem} {ms ms' : List Moment}

/-- Whole disks stay backed where each is as it was or was made anew, and no layer goes missing but
those that are given up. -/
theorem after (h : Founded s scripts lost pins fs ms)
    (hlost : ∀ key, isValidName key.name = true → fs.isWhole (s.layerPath key) = true ∨ key ∈ lost →
      fs'.isWhole (s.layerPath key) = true ∨ key ∈ lost')
    (hlayer : ∀ key, isValidName key.name = true → fs'.isWhole (s.layerPath key) = true →
      fs.isWhole (s.layerPath key) = true ∧ makingOf ms' (s.layerPath key) = none ∨
      ∃ pre below op, BeginsIn scripts (pre ++ [op]) ∧ Leads pre below ∧ nextKey below op = .ok key ∧
        s.Backed lost' fs' ms' (s.layerPath key) below)
    (htag : ∀ name, isValidName name = true → fs'.isWhole (s.tagPath name) = true →
      fs.isWhole (s.tagPath name) = true ∧ makingOf ms' (s.tagPath name) = none ∨
      ∃ key, isValidName key.name = true ∧ s.Backed lost' fs' ms' (s.tagPath name) (some key))
    (hmachine : ∀ p ∈ pins', p ∈ pins ∧ makingOf ms' (s.instancePath p.machine) = none ∨
      makingOf ms' (s.instancePath p.machine) =
        some (.snapshot (s.tagPath p.tag) (s.instancePath p.machine))) :
    Founded s scripts lost' pins' fs' (ms ++ ms') where
  layer := by
    intro key hv hwhole
    rcases hlayer key hv hwhole with ⟨hbefore, hms⟩ | ⟨pre, below, op, hin, hl, hk, hb⟩
    · obtain ⟨pre, below, op, hin, hl, hk, hb⟩ := h.layer key hv hbefore
      refine ⟨pre, below, op, hin, hl, hk, hb.made.after hms, ?_⟩
      rintro k rfl
      exact hlost k hl.isValidName (hb.stands k rfl)
    · exact ⟨pre, below, op, hin, hl, hk, hb.made.anew, hb.stands⟩
  tag := by
    intro name hv hwhole
    rcases htag name hv hwhole with ⟨hbefore, hms⟩ | ⟨key, hvk, hb⟩
    · obtain ⟨key, hvk, hb⟩ := h.tag name hv hbefore
      refine ⟨key, hvk, hb.made.after hms, ?_⟩
      rintro k ⟨⟩
      exact hlost key hvk (hb.stands key rfl)
    · exact ⟨key, hvk, hb.made.anew, hb.stands⟩
  machine := by
    intro p hp
    rw [makingOf_append]
    rcases hmachine p hp with ⟨hbefore, hms⟩ | hms
    · rw [hms]
      exact h.machine p hbefore
    · rw [hms]
      rfl

/-- The same where the layers are as they were, and no call is for one of them. -/
theorem of_keeps (h : Founded s scripts lost pins fs ms)
    (hkeep : ∀ key, isValidName key.name = true → s.KeepsLayer key fs fs')
    (hmade : ∀ key, isValidName key.name = true → makingOf ms' (s.layerPath key) = none)
    (htag : ∀ name, isValidName name = true → fs'.isWhole (s.tagPath name) = true →
      fs.isWhole (s.tagPath name) = true ∧ makingOf ms' (s.tagPath name) = none ∨
      ∃ key, isValidName key.name = true ∧ s.Backed lost fs' ms' (s.tagPath name) (some key))
    (hmachine : ∀ p ∈ pins', p ∈ pins ∧ makingOf ms' (s.instancePath p.machine) = none ∨
      makingOf ms' (s.instancePath p.machine) =
        some (.snapshot (s.tagPath p.tag) (s.instancePath p.machine))) :
    Founded s scripts lost pins' fs' (ms ++ ms') := by
  refine h.after (fun key hv hkey => ?_) (fun key hv hwhole => Or.inl ⟨?_, hmade key hv⟩) htag hmachine
  · rw [(hkeep key hv).isWhole_eq]
    exact hkey
  · rw [← (hkeep key hv).isWhole_eq]
    exact hwhole

theorem mono (h : Founded s scripts lost pins fs ms) (hsub : lost ⊆ lost') :
    Founded s scripts lost' pins fs ms where
  layer key hv hwhole := by
    obtain ⟨pre, below, op, hin, hl, hk, hb⟩ := h.layer key hv hwhole
    exact ⟨pre, below, op, hin, hl, hk, hb.made, fun k hk => (hb.stands k hk).imp_right fun hm => hsub hm⟩
  tag name hv hwhole := by
    obtain ⟨key, hvk, hb⟩ := h.tag name hv hwhole
    exact ⟨key, hvk, hb.made, fun k hk => (hb.stands k hk).imp_right fun hm => hsub hm⟩
  machine := h.machine

end Founded

/-! ## one step of a build -/

namespace Realized
variable {σ : Type} {backend : Backend σ} {r : Trail} {force : Bool} {l : Layer} {dir : Path}
  {d : Trail} {calls : List Call} {fs fs' : FileSystem} {ms : List Moment}
  {res : Except BuildError StepStatus}

theorem not_reusable {e : BuildError} (h : Realized backend r force l dir d calls fs (.error e) ms fs') :
    isReusable force l fs = false := by
  generalize hres : (Except.error e : Except BuildError StepStatus) = res at h
  cases h with
  | found => cases hres
  | locked hr _ _ _ => exact hr
  | remade hr _ _ _ _ _ _ => exact hr

end Realized

section
variable {σ : Type} {backend : Backend σ} {s : Store} {r : Trail} {l : Layer} {dir : Path} {d : Trail}
  {calls : List Call} {fs fs' : FileSystem} {ms : List Moment}

/-- a disk that is whole after it was to be made anew is as it was, or all calls for it have succeeded -/
theorem Remade.kept_or_made {res : Except BuildError Unit} {fs₀ : FileSystem} {ms₀ : List Moment} {m : Moment}
    (h : Remade backend l dir d calls fs₀ res ms fs') (hs : answersOf ms₀ = [])
    (hw : FileSystem.Within (Store.lockTrails r) fs fs₀) (hm : m.answered? = none)
    (hwhole : fs'.isWhole l.location = true) :
    answersOf (ms₀ ++ (ms ++ [m])) = [] ∧ FileSystem.Within (Store.lockTrails r) fs fs' ∨
      Answered calls (answersOf (ms₀ ++ (ms ++ [m]))) none := by
  rw [answersOf_between hs hm]
  cases h with
  | stuck => exact Or.inl ⟨rfl, hw⟩
  | refused _ _ hnot _ => rw [hnot] at hwhole; cases hwhole
  | orphaned _ _ hnot _ => rw [hnot] at hwhole; cases hwhole
  | failed _ hnot _ => rw [hnot] at hwhole; cases hwhole
  | made hans _ _ _ _ _ _ _ => exact Or.inr hans

theorem Realized.kept_or_made {force : Bool} {res : Except BuildError StepStatus}
    (h : Realized backend r force l dir d calls fs res ms fs')
    (hwhole : fs'.isWhole l.location = true) :
    answersOf ms = [] ∧ FileSystem.Within (Store.lockTrails r) fs fs' ∨
      Answered calls (answersOf ms) none := by
  cases h with
  | found => exact Or.inl ⟨rfl, .refl _ _⟩
  | locked _ hs hw _ => exact Or.inl ⟨hs, hw⟩
  | remade _ hs hw _ hm hm' _ => exact hm.kept_or_made hs hw hm' hwhole

theorem Tagged.kept_or_made {res : Except BuildError Unit}
    (h : Tagged backend s r l dir d calls fs res ms fs') (hwhole : fs'.isWhole l.location = true) :
    answersOf ms = [] ∧ FileSystem.Within (Store.lockTrails r) fs fs' ∨
      Answered calls (answersOf ms) none := by
  cases h with
  | refused _ hs hw => exact Or.inl ⟨hs, hw⟩
  | remade hs hw _ hm hm' => exact hm.kept_or_made hs hw hm' hwhole

theorem Tagged.mem_calls {res : Except BuildError Unit}
    (h : Tagged backend s r l dir d calls fs res ms fs') {a : Call × Except ToolError Unit}
    (ha : a ∈ answersOf ms) : a.1 ∈ calls := by
  cases h with
  | refused _ hs _ =>
    rw [hs] at ha
    cases ha
  | @remade fs₀ fs' res ms₀ ms m hs _ _ hm hm' =>
    rw [answersOf_between hs hm'] at ha
    exact hm.mem_calls ha

end

/-- A build that was forced, and has completed the steps below, has failed at the layer of a key. -/
structure GivesUp {α : Type} (force : Bool) (below : Option Identity) (ops : List Operation)
    (reports : List StepReport) (res : Except BuildError α) (key : Identity) : Prop where
  forced : force = true
  above : below ≠ none ∨ reports ≠ []
  next : (keysFrom below ops)[reports.length]? = some key
  failed : ∃ e directive, res = .error e ∧ e.step? = some (directive, key)

section
variable {σ : Type} {backend : Backend σ} {s : Store} {r : Trail} {force : Bool}
  {scripts : List (List Operation)} {lost : Set Identity} {pins : List Pin} {pre : List Operation}
  {below : Option Identity} {op : Operation} {key : Identity} {fs fs' : FileSystem}
  {ms ms' : List Moment}

/-- One step leaves every whole disk backed, and no layer goes missing but the one of a forced step
that fails. -/
theorem Climbed.founded {res : Except BuildError StepStatus}
    (h : Climbed backend s r force below op key fs res ms' fs')
    (hf : Founded s scripts lost pins fs ms) (hs : s.StandsAt r fs)
    (hpins : ∀ p ∈ pins, isValidName p.machine = true) (hl : Leads pre below)
    (hin : BeginsIn scripts (pre ++ [op])) (hk : nextKey below op = .ok key)
    (hbelow : ∀ k, below = some k → fs.isWhole (s.layerPath k) = true) :
    Founded s scripts (lost ∪ {k | k = key ∧ force = true ∧ below ≠ none ∧
      ∃ e directive, res = .error e ∧ e.step? = some (directive, key)}) pins fs' (ms ++ ms') := by
  obtain ⟨l, hfor, hreal⟩ := h.realized
  have hv := isValidName_nextKey hk
  have htarget : ∀ a ∈ answersOf ms', a.1.target? = some (s.layerPath key) := fun a ha =>
    Operation.target?_of_mem_callsOn (hreal.mem_calls ha)
  have hkeep : ∀ k, isValidName k.name = true → k ≠ key → s.KeepsLayer k fs fs' := fun k hvk hne =>
    .of_within hs hvk (fun hmem => hne (List.mem_singleton.mp hmem)) h.within
  -- the disk of the step goes missing only where it is made anew by force, and this fails
  have hgone : fs.isWhole (s.layerPath key) = true → fs'.isWhole (s.layerPath key) = true ∨
      force = true ∧ below ≠ none ∧ ∃ e directive, res = .error e ∧ e.step? = some (directive, key) := by
    intro hwhole
    cases res with
    | ok status =>
      have hmade := hreal.isWhole
      rw [hfor.location] at hmade
      exact Or.inl hmade
    | error e =>
      have hnot := hreal.not_reusable
      rw [hfor.isReusable_eq, hwhole, Bool.and_true, Bool.or_eq_false_iff] at hnot
      have hstep := hreal.failed.1
      rw [hfor.identity] at hstep
      refine Or.inr ⟨by simpa using hnot.2, ?_, e, l.directive, rfl, hstep⟩
      rintro rfl
      exact absurd hnot.1 (by simp)
  have hlost : ∀ k, isValidName k.name = true → fs.isWhole (s.layerPath k) = true ∨ k ∈ lost →
      fs'.isWhole (s.layerPath k) = true ∨ k ∈ lost ∪ {k | k = key ∧ force = true ∧ below ≠ none ∧
        ∃ e directive, res = .error e ∧ e.step? = some (directive, key)} := by
    rintro k hvk (hwhole | hmem)
    · by_cases hkey : k = key
      · rw [hkey] at hwhole ⊢
        exact (hgone hwhole).imp_right fun hg => Or.inr ⟨rfl, hg⟩
      · rw [(hkeep k hvk hkey).isWhole_eq]
        exact Or.inl hwhole
    · exact Or.inr (Or.inl hmem)
  refine hf.after hlost (fun k hvk hwhole => ?_) (fun name hvn hwhole => Or.inl ⟨?_, ?_⟩)
    fun p hp => Or.inl ⟨hp, ?_⟩
  · by_cases hkey : k = key
    · rw [hkey] at hwhole ⊢
      rcases hreal.kept_or_made (by rw [hfor.location]; exact hwhole) with ⟨hsilent, hw⟩ | hans
      · refine Or.inl ⟨?_, makingOf_of_silent hsilent⟩
        have hlocks : Store.lockTrails r ⊆ Store.keyTrails r [] := Store.lockTrails_subset_keyTrails
        rw [← (Store.KeepsLayer.of_within hs hv List.not_mem_nil (hw.mono hlocks)).isWhole_eq]
        exact hwhole
      · exact Or.inr ⟨pre, below, op, hin, hl, hk, Operation.madeFrom hk hans, fun k' hk' => by
          subst hk'
          exact hlost k' hl.isValidName (Or.inl (hbelow k' rfl))⟩
    · refine Or.inl ⟨?_, makingOf_of_target ?_ htarget⟩
      · rw [← (hkeep k hvk hkey).isWhole_eq]
        exact hwhole
      · exact fun he => hkey (s.layerPath_inj hv hvk he).symm
  · rw [← (hs.keepsTag hvn h.within (Store.tag_not_mem_keyTrails r _)).isWhole_eq]
    exact hwhole
  · exact makingOf_of_target (Store.layerPath_ne_tagPath hv hvn) htarget
  · exact makingOf_of_target (Store.layerPath_ne_instancePath hv (hpins p hp)) htarget

/-- Steps one after the other leave every whole disk backed, and no layer goes missing but the one at
which they fail, if they are forced.  By induction on the steps, with the script so far, above whose
last layer they go on. -/
theorem Ascent.founded {ops : List Operation} {res : Except BuildError Unit} {reports : List StepReport}
    (h : Ascent backend s r force below ops fs res reports ms' fs')
    (hf : Founded s scripts lost pins fs ms) (hs : s.StandsAt r fs)
    (hpins : ∀ p ∈ pins, isValidName p.machine = true) (hl : Leads pre below)
    (hin : BeginsIn scripts (pre ++ ops))
    (hbelow : ∀ k, below = some k → fs.isWhole (s.layerPath k) = true) :
    Founded s scripts (lost ∪ {k | GivesUp force below ops reports res k}) pins fs' (ms ++ ms') := by
  induction h generalizing pre ms with
  | top =>
    rw [List.append_nil]
    exact hf.mono Set.subset_union_left
  | halted =>
    rw [List.append_nil]
    exact hf.mono Set.subset_union_left
  | @fallen below op ops key fs e ms' fs' hk hclimb =>
    rw [← List.singleton_append, ← List.append_assoc] at hin
    refine (hclimb.founded hf hs hpins hl hin.of_append hk hbelow).mono (Set.union_subset_union_right _ ?_)
    rintro k ⟨rfl, hforce, hne, e', directive, he, hstep⟩
    cases he
    refine ⟨hforce, Or.inl hne, ?_, e, directive, rfl, hstep⟩
    rw [keysFrom, hk]
    rfl
  | @step below op ops key fs status ms₁ fs₁ res reports ms₂ fs₂ hk hclimb hasc ih =>
    rw [← List.singleton_append, ← List.append_assoc] at hin
    have hf₁ : Founded s scripts lost pins fs₁ (ms ++ ms₁) := by
      refine (hclimb.founded hf hs hpins hl hin.of_append hk hbelow).mono ?_
      rintro k (hmem | ⟨-, -, -, e, directive, he, -⟩)
      · exact hmem
      · cases he
    have hwhole : fs₁.isWhole (s.layerPath key) = true := by
      obtain ⟨l, hfor, hreal⟩ := hclimb.realized
      rw [← hfor.location]
      exact hreal.isWhole
    have hf₂ := ih hf₁ (hs.within hclimb.within) (hl.step hk) hin fun k hk => by
      cases hk
      exact hwhole
    rw [← List.append_assoc]
    refine hf₂.mono ?_
    rintro k (hmem | hup)
    · exact Or.inl hmem
    · refine Or.inr ⟨hup.forced, Or.inr (List.cons_ne_nil _ _), ?_, hup.failed⟩
      rw [keysFrom, hk]
      exact hup.next

end

/-! ## whole requests -/

section
variable {σ : Type} {backend : Backend σ} {s : Store} {r : Trail} {scripts : List (List Operation)}
  {lost : Set Identity} {pins : List Pin} {fs fs' : FileSystem} {ms ms' : List Moment}

/-- setting a tag leaves every whole disk backed -/
theorem Founded.ended {key : Identity} {tag : Option String} {res : Except BuildError Unit}
    (hf : Founded s scripts lost pins fs ms) (h : Ended backend s r key tag fs res ms' fs')
    (hs : s.StandsAt r fs) (hpins : ∀ p ∈ pins, isValidName p.machine = true)
    (htag : ∀ name, tag = some name → isValidName name = true) (hv : isValidName key.name = true)
    (hwhole : fs.isWhole (s.layerPath key) = true) :
    Founded s scripts lost pins fs' (ms ++ ms') := by
  have hkeep : ∀ k, isValidName k.name = true → s.KeepsLayer k fs fs' := fun k hvk =>
    .of_tags hs hvk h.within
  have hother : ∀ name, isValidName name = true → tag ≠ some name →
      fs'.isWhole (s.tagPath name) = fs.isWhole (s.tagPath name) := fun name hvn hne =>
    h.within.isWhole_join hs.tags hvn (Store.tag_not_mem_tagTrails hne).1
      (Store.tag_not_mem_tagTrails hne).2
  cases tag with
  | none =>
    obtain ⟨-, rfl⟩ := h.none rfl
    exact hf.of_keeps hkeep (fun _ _ => rfl)
      (fun name hvn hname => Or.inl ⟨hother name hvn nofun ▸ hname, rfl⟩) fun p hp => Or.inl ⟨hp, rfl⟩
  | some t =>
    have hvt := htag t rfl
    obtain ⟨l, -, hpath, htagged⟩ := h.some t rfl
    have htarget : ∀ a ∈ answersOf ms', a.1.target? = some (s.tagPath t) := fun a ha => by
      rw [List.mem_singleton.mp (htagged.mem_calls ha)]
      rfl
    refine hf.of_keeps hkeep
      (fun k hvk => makingOf_of_target (Store.layerPath_ne_tagPath hvk hvt).symm htarget)
      (fun name hvn hname => ?_) fun p hp =>
        Or.inl ⟨hp, makingOf_of_target (Store.tagPath_ne_instancePath hvt (hpins p hp)) htarget⟩
    by_cases hname' : t = name
    · subst hname'
      rcases htagged.kept_or_made (hpath ▸ hname) with ⟨hsilent, hw⟩ | hans
      · refine Or.inl ⟨?_, makingOf_of_silent hsilent⟩
        rw [← (hs.keepsTag hvn hw (Store.tag_not_mem_lockTrails r)).isWhole_eq]
        exact hname
      · refine Or.inr ⟨key, hv, ?_, ?_⟩
        · show makingOf ms' (s.tagPath t) = _
          rw [makingOf_of_answered hans]
          simp [Call.makes?]
        · rintro k ⟨⟩
          rw [(hkeep key hv).isWhole_eq]
          exact Or.inl hwhole
    · have hne : some t ≠ some name := fun e => hname' (Option.some.inj e)
      exact Or.inl ⟨hother name hvn hne ▸ hname,
        makingOf_of_target (fun e => hname' (Store.tagPath_inj hvt hvn e)) htarget⟩

/-- a build leaves every whole disk backed, but for the layer it gives up -/
theorem Raised.founded {force : Bool} {ops : List Operation} {tag : Option String}
    {res : Except BuildError BuildOutcome} {reports : List StepReport}
    (h : Raised backend s r force ops tag fs res reports ms' fs')
    (hf : Founded s scripts lost pins fs ms) (hs : s.StandsAt r fs)
    (hpins : ∀ p ∈ pins, isValidName p.machine = true)
    (htag : ∀ name, tag = some name → isValidName name = true) (hin : ops ∈ scripts) :
    Founded s scripts (lost ∪ {k | GivesUp force none ops reports res k}) pins fs' (ms ++ ms') := by
  have hbegin : BeginsIn scripts ([] ++ ops) := ⟨ops, hin, List.prefix_rfl⟩
  cases h with
  | @fallen e _ _ _ hasc =>
    refine (hasc.founded hf hs hpins .start hbegin nofun).mono (Set.union_subset_union_right _ ?_)
    rintro k ⟨hforce, habove, hnext, e', directive, he, hstep⟩
    cases he
    exact ⟨hforce, habove, hnext, e, directive, rfl, hstep⟩
  | @ended _ ms₁ fs₁ key res₁ ms₂ _ _ hasc hlast hended _ _ =>
    have hf₁ : Founded s scripts lost pins fs₁ (ms ++ ms₁) := by
      refine (hasc.founded hf hs hpins .start hbegin nofun).mono ?_
      rintro k (hmem | ⟨-, -, -, e, directive, he, -⟩)
      · exact hmem
      · cases he
    have hwhole := isWhole_lastKey hasc nofun hlast
    have hv : isValidName key.name = true := by
      have hmem : key ∈ keysFrom none ops := by
        rw [lastKey, Option.or_none] at hlast
        exact List.mem_of_getLast? hlast
      exact isValidName_of_mem_keysFrom hmem
    rw [← List.append_assoc]
    exact (hf₁.ended hended (hs.within hasc.within.1) hpins htag hv hwhole).mono
      Set.subset_union_left

end

/-- the operations of a build that is asked for -/
def Request.script? : Request → Option (List Operation)
  | .build _ ops _ => some ops
  | .removeTag _ _ _ | .launch _ _ | .destroy _ => none

/-- the layer that is given up where a request is performed -/
def Request.givenUp (backend : Backend σ) : Request → World σ → Set Identity
  | .build config ops tag, w => {key | GivesUp config.force none ops (completed backend config ops tag w)
      ((DiskLayers.build backend config ops tag).runIn w).1 key}
  | .removeTag _ _ _, _ | .launch _ _, _ | .destroy _, _ => ∅

/-- the layers that are given up where requests are performed one after the other -/
def givenUp (backend : Backend σ) (s : Store) : List Request → World σ × List Pin → Set Identity
  | [], _ => ∅
  | q :: requests, x => q.givenUp backend x.1 ∪ givenUp backend s requests (q.perform backend s x)

/-- where no build is forced, nothing is given up -/
theorem givenUp_eq_empty {requests : List Request} (backend : Backend σ) (s : Store)
    (h : ∀ config ops tag, .build config ops tag ∈ requests → config.force = false)
    (x : World σ × List Pin) : givenUp backend s requests x = ∅ := by
  induction requests generalizing x with
  | nil => rfl
  | cons q requests ih =>
    have hq : q.givenUp backend x.1 = ∅ := by
      cases q with
      | build config ops tag =>
        refine Set.eq_empty_of_forall_notMem fun key hkey => ?_
        have hforce := h config ops tag List.mem_cons_self
        rw [GivesUp.forced hkey] at hforce
        cases hforce
      | removeTag name command wait => rfl
      | launch tag m => rfl
      | destroy name => rfl
    rw [givenUp, hq, Set.empty_union]
    exact ih (fun config ops tag hmem => h config ops tag (List.mem_cons_of_mem _ hmem)) _

namespace Founded
variable {σ : Type} {backend : Backend σ} {s : Store} {r : Trail} {current : Path} {w : World σ}
  {scripts : List (List Operation)} {lost : Set Identity} {pins : List Pin} {fs fs' : FileSystem}
  {ms ms' : List Moment}

theorem build (h : Founded s scripts lost pins w.files ms) (hp : Pinned s r current w pins)
    (hb : backend.Confined) (hl : backend.LeavesFiles) (ha : s.root.isAbsolute = true)
    {config : BuildConfig} {ops : List Operation} (tag : Option String) (hin : ops ∈ scripts)
    (hroot : config.storeRoot.absolute? current = some s.root) :
    (DiskLayers.build backend config ops tag).Ends w fun _ ms' w' =>
      Founded s scripts (lost ∪ (Request.build config ops tag).givenUp backend w) pins w'.files
        (ms ++ ms') := by
  by_cases htag : ∀ name, tag = some name → isValidName name = true
  · obtain ⟨ms', hj, hlink, -, ⟨rfl, hw, -⟩ | ⟨ms₁, rfl, hraised⟩⟩ :=
      @ends_build_standing s r σ backend config ops tag w hb hl hp.undisturbed hp.stands ha
        (hp.here ▸ hroot)
    · refine ⟨[], hj, hlink, ?_⟩
      dsimp only
      rw [hw, List.append_nil]
      exact h.mono Set.subset_union_left
    · refine ⟨_, hj, hlink, ?_⟩
      have hopening : makingOf (s.opening w.files) = fun _ => none := funext fun _ =>
        makingOf_of_silent (s.answersOf_opening w.files)
      have h₀ : Founded s scripts lost pins w.files (ms ++ s.opening w.files) :=
        h.of_keeps (fun _ _ => ⟨rfl, rfl⟩) (fun _ _ => by rw [hopening])
          (fun _ _ hwhole => Or.inl ⟨hwhole, by rw [hopening]⟩) fun p hp => Or.inl ⟨hp, by rw [hopening]⟩
      dsimp only
      rw [← List.append_assoc]
      exact hraised.founded h₀ hp.stands hp.recorded.machine htag hin
  · obtain ⟨e, hrefused⟩ := build_refused backend config ops tag w fun hok => htag hok.2
    refine Act.ends_of_runIn hrefused ?_
    rw [List.append_nil]
    exact h.mono Set.subset_union_left

theorem of_still (h : Founded s scripts lost pins fs ms) {pins' : List Pin}
    (hkeep : ∀ key, isValidName key.name = true → s.KeepsLayer key fs fs')
    (htag : ∀ name, isValidName name = true → fs'.isWhole (s.tagPath name) = true →
      fs.isWhole (s.tagPath name) = true)
    (hstill : ∀ disk, makingOf ms' disk = none) (hpins : ∀ p ∈ pins', p ∈ pins) :
    Founded s scripts lost pins' fs' (ms ++ ms') :=
  h.of_keeps hkeep (fun _ _ => hstill _) (fun name hv hwhole => Or.inl ⟨htag name hv hwhole, hstill _⟩)
    fun p hp => Or.inl ⟨hpins p hp, hstill _⟩

theorem removeTag (h : Founded s scripts lost pins w.files ms) (hp : Pinned s r current w pins)
    (ha : s.root.isAbsolute = true) (name command : String) (wait : Duration) :
    (s.removeTag name command wait : Act σ StoreError Unit).Ends w fun _ ms' w' =>
      Founded s scripts lost pins w'.files (ms ++ ms') := by
  refine (Act.ends_removeTag (w := w) name command wait ha hp.stands hp.undisturbed hp.clear
    (hp.marked name)).mono ?_
  rintro res ms' w' ⟨-, hsilent, hres⟩
  generalize w'.files = fs' at hres ⊢
  have hw : FileSystem.Within (Store.tagTrails r (some name)) w.files fs' := by
    cases hres with
    | absent _ => exact .refl _ _
    | used hw _ => exact hw.mono (Store.lockTrails_subset_tagTrails r _)
    | gone _ _ _ hw _ => exact hw
  refine h.of_still (fun key hv => .of_tags hp.stands hv hw) (fun t hv hwhole => ?_)
    (fun _ => makingOf_of_silent hsilent) fun p hp => hp
  by_cases hne : name = t
  · subst hne
    cases hres with
    | absent _ => exact hwhole
    | used hw _ =>
      rw [← (hp.stands.keepsTag hv hw (Store.tag_not_mem_lockTrails r)).isWhole_eq]
      exact hwhole
    | gone _ _ _ _ hnot =>
      rw [hnot] at hwhole
      cases hwhole
  · have hne : some name ≠ some t := fun e => hne (Option.some.inj e)
    rw [Store.tagPath, ← hw.isWhole_join hp.stands.tags hv (Store.tag_not_mem_tagTrails hne).1
      (Store.tag_not_mem_tagTrails hne).2]
    exact hwhole

theorem keeps_of_instances (hs : s.StandsAt r fs) {machine : String}
    (hw : FileSystem.Within (Store.instanceTrails r machine ∪ Store.lockTrails r) fs fs') :
    (∀ key, isValidName key.name = true → s.KeepsLayer key fs fs') ∧
      ∀ name, isValidName name = true → fs'.isWhole (s.tagPath name) = true →
        fs.isWhole (s.tagPath name) = true := by
  have hnot : ∀ name, name :: Store.layersDir :: r ∉ Store.instanceTrails r machine ∪ Store.lockTrails r := by
    rintro name ((hx | hx) | hx)
    · exact absurd (List.cons.inj (List.cons.inj hx).2).1 (by decide)
    · exact absurd (List.cons.inj (List.cons.inj hx).2).1 (by decide)
    · exact Store.not_mem_lockTrails (by decide) _ hx
  refine ⟨fun key hv => .of_avoids hs hv (hnot _) (hnot _) hw, fun name hv hwhole => ?_⟩
  rw [← (hs.keepsTag hv hw (Store.tag_not_mem_instanceTrails r machine)).isWhole_eq]
  exact hwhole

/-- Where no disk is made but that of one machine, the others stay backed. -/
theorem of_machine (h : Founded s scripts lost pins fs ms) (hs : s.StandsAt r fs) {name : String}
    {pins' : List Pin} (hm : isValidName name = true)
    (hw : FileSystem.Within (Store.instanceTrails r name ∪ Store.lockTrails r) fs fs')
    (hother : ∀ disk, s.instancePath name ≠ disk → makingOf ms' disk = none)
    (hpins : ∀ p ∈ pins', p ∈ pins ∧ isValidName p.machine = true ∧ p.machine ≠ name ∨
      makingOf ms' (s.instancePath p.machine) =
        some (.snapshot (s.tagPath p.tag) (s.instancePath p.machine))) :
    Founded s scripts lost pins' fs' (ms ++ ms') := by
  obtain ⟨hkeep, htags⟩ := keeps_of_instances hs hw
  refine h.of_keeps hkeep (fun key hv => hother _ (Store.layerPath_ne_instancePath hv hm).symm)
    (fun tag hv hwhole =>
      Or.inl ⟨htags tag hv hwhole, hother _ (Store.tagPath_ne_instancePath hv hm).symm⟩)
    fun p hp => (hpins p hp).imp_left ?_
  rintro ⟨hmem, hv, hne⟩
  exact ⟨hmem, hother _ fun e => hne (Store.instancePath_inj hm hv e).symm⟩

theorem launch (h : Founded s scripts lost pins w.files ms) (hp : Pinned s r current w pins)
    (hb : backend.Confined) (hl : backend.LeavesFiles) (hsp : backend.Sparing s) (tag : String)
    (m : MachineSpec) :
    ∃ ms', ((Request.launch tag m).perform backend s (w, pins)).1.journal = w.journal ++ ms' ∧
      Founded s scripts lost ((Request.launch tag m).perform backend s (w, pins)).2
        ((Request.launch tag m).perform backend s (w, pins)).1.files (ms ++ ms') := by
  obtain ⟨ms', hj, -, -, hcalls, hres⟩ := Act.ends_launch (w := w) tag m hb hl hsp
    hp.stands hp.undisturbed hp.recorded.free_instance
  have hsub : Store.lockTrails r ⊆ Store.instanceTrails r m.name ∪ Store.lockTrails r :=
    fun _ ht => Or.inr ht
  -- the only disk that is made is that of the machine
  have hother : ∀ disk, s.instancePath m.name ≠ disk → makingOf ms' disk = none := by
    refine fun disk hne => makingOf_eq_none fun a ha hmakes => ?_
    rcases hcalls a ha with he | he
    · rw [he] at hmakes
      exact absurd (Option.some.inj hmakes) hne
    · rw [he] at hmakes
      cases hmakes
  rw [Request.perform]
  rcases hrun : (DiskLayers.launch backend s tag m).runIn w with ⟨res, w'⟩
  rw [hrun] at hj hres
  dsimp only at hj hres
  generalize hf : w'.files = fs' at hres
  cases hres with
  | refused hans hw =>
    obtain ⟨hkeep, htags⟩ := keeps_of_instances hp.stands (hw.mono hsub)
    refine ⟨ms', hj, ?_⟩
    rw [← hf] at hkeep htags
    exact h.of_still hkeep htags (fun disk => makingOf_eq_none fun a ha _ => hans a ha) fun p hp => hp
  | undone hm hnone hw _ _ _ =>
    rw [← hf] at hw
    exact ⟨ms', hj, h.of_machine hp.stands hm hw hother fun p hmem =>
      Or.inl ⟨hmem, hp.recorded.machine p hmem, hp.recorded.not_mem hnone p hmem⟩⟩
  | running hm _ _ hnone hw _ _ _ hans =>
    rw [← hf] at hw
    refine ⟨ms', hj, h.of_machine hp.stands hm hw hother fun p hmem => ?_⟩
    rcases List.mem_cons.mp hmem with rfl | hmem
    · right
      rw [makingOf, hans]
      simp [Call.makes?, Except.isOk, Except.toBool]
    · exact Or.inl ⟨hmem, hp.recorded.machine p hmem, hp.recorded.not_mem hnone p hmem⟩

theorem destroy (h : Founded s scripts lost pins w.files ms) (hp : Pinned s r current w pins)
    (hsp : backend.Sparing s) (name : String) :
    ∃ ms', ((Request.destroy name).perform backend s (w, pins)).1.journal = w.journal ++ ms' ∧
      Founded s scripts lost ((Request.destroy name).perform backend s (w, pins)).2
        ((Request.destroy name).perform backend s (w, pins)).1.files (ms ++ ms') := by
  obtain ⟨ms', hj, -, -, hcalls, hres⟩ := Act.ends_destroy (w := w) name hsp hp.stands
    hp.recorded.free_instance
  have hstill : ∀ disk, makingOf ms' disk = none := fun disk => makingOf_eq_none fun a ha hmakes => by
    rw [hcalls a ha] at hmakes
    cases hmakes
  rw [Request.perform]
  rcases hrun : (DiskLayers.destroy backend s name).runIn w with ⟨res, w'⟩
  rw [hrun] at hj hres
  dsimp only at hj hres
  have hsub : Store.instanceTrails r name ⊆ Store.instanceTrails r name ∪ Store.lockTrails r :=
    fun _ ht => Or.inl ht
  have hw : FileSystem.Within (Store.instanceTrails r name ∪ Store.lockTrails r) w.files w'.files := by
    generalize w'.files = fs' at hres
    cases hres with
    | refused hw => exact hw.within.mono fun _ ht => Or.inl (Or.inl ht)
    | gone _ hw _ _ => exact hw.mono hsub
  obtain ⟨hkeep, htags⟩ := keeps_of_instances hp.stands hw
  refine ⟨ms', ?_, ?_⟩
  · cases res <;> exact hj
  · cases res with
    | error e => exact h.of_still hkeep htags hstill fun p hp => hp
    | ok u => exact h.of_still hkeep htags hstill fun p hp => (List.mem_filter.mp hp).1

/-- Whatever is asked of the store, its whole disks stay backed, but for the layer that is given up. -/
theorem perform (h : Founded s scripts lost pins w.files ms) (hp : Pinned s r current w pins)
    (hb : backend.Confined) (hl : backend.LeavesFiles) (hsp : backend.Sparing s)
    (ha : s.root.isAbsolute = true) {q : Request} (hin : ∀ ops, q.script? = some ops → ops ∈ scripts)
    (hq : q.Reaches s current) :
    ∃ ms', (q.perform backend s (w, pins)).1.journal = w.journal ++ ms' ∧
      Founded s scripts (lost ∪ q.givenUp backend w) (q.perform backend s (w, pins)).2
        (q.perform backend s (w, pins)).1.files (ms ++ ms') := by
  cases q with
  | build config ops tag =>
    obtain ⟨ms', hj, -, hf⟩ := h.build hp hb hl ha tag (hin ops rfl) hq
    exact ⟨ms', hj, hf⟩
  | removeTag name command wait =>
    obtain ⟨ms', hj, -, hf⟩ := h.removeTag hp ha name command wait
    exact ⟨ms', hj, hf.mono Set.subset_union_left⟩
  | launch tag m =>
    obtain ⟨ms', hj, hf⟩ := h.launch hp hb hl hsp tag m
    exact ⟨ms', hj, hf.mono Set.subset_union_left⟩
  | destroy name =>
    obtain ⟨ms', hj, hf⟩ := h.destroy hp hsp name
    exact ⟨ms', hj, hf.mono Set.subset_union_left⟩

end Founded

/-! ## a history of requests -/

namespace Founded
variable {σ : Type} {backend : Backend σ} {s : Store} {r : Trail} {current : Path}
  {scripts : List (List Operation)} {lost : Set Identity} {ms : List Moment}

theorem of_isEmpty {fs : FileSystem} (hs : s.StandsAt r fs) (hempty : s.IsEmpty fs) :
    Founded s scripts ∅ [] fs [] where
  layer key hv hwhole := by
    obtain ⟨⟨-, b, c, hnode⟩, -⟩ := (FileSystem.isWhole_join hs.layers hv).mp hwhole
    rw [hempty.node? hs (by simp [Store.directories])] at hnode
    cases hnode
  tag name hv hwhole := by
    obtain ⟨⟨-, b, c, hnode⟩, -⟩ := (FileSystem.isWhole_join hs.tags hv).mp hwhole
    rw [hempty.node? hs (by simp [Store.directories])] at hnode
    cases hnode
  machine p hp := absurd hp List.not_mem_nil

/-- Whatever is asked of a store, its whole disks stay backed, but for the layers that are given up.
By induction on the requests. -/
theorem performAll (hb : backend.Confined) (hl : backend.LeavesFiles) (hsp : backend.Sparing s)
    (ha : s.root.isAbsolute = true) {requests : List Request}
    (hin : ∀ q ∈ requests, ∀ ops, q.script? = some ops → ops ∈ scripts)
    (hr : ∀ q ∈ requests, q.Reaches s current) {x : World σ × List Pin}
    (h : Founded s scripts lost x.2 x.1.files ms) (hp : Pinned s r current x.1 x.2) :
    ∃ ms', (DiskLayers.performAll backend s requests x).1.journal = x.1.journal ++ ms' ∧
      Founded s scripts (lost ∪ givenUp backend s requests x) (DiskLayers.performAll backend s requests x).2
        (DiskLayers.performAll backend s requests x).1.files (ms ++ ms') := by
  induction requests generalizing x lost ms with
  | nil => exact ⟨[], (List.append_nil _).symm, by
      rw [List.append_nil]
      exact h.mono Set.subset_union_left⟩
  | cons q requests ih =>
    obtain ⟨ms₁, hj₁, h₁⟩ := h.perform hp hb hl hsp ha (hin q List.mem_cons_self) (hr q List.mem_cons_self)
    obtain ⟨ms₂, hj₂, h₂⟩ := ih (fun q' hq' => hin q' (List.mem_cons_of_mem _ hq'))
      (fun q' hq' => hr q' (List.mem_cons_of_mem _ hq')) h₁
      (hp.perform hb hl hsp ha (hr q List.mem_cons_self))
    refine ⟨ms₁ ++ ms₂, ?_, ?_⟩
    · rw [← List.append_assoc, ← hj₁]
      exact hj₂
    · rw [givenUp, ← Set.union_assoc, ← List.append_assoc]
      exact h₂

end Founded

/-! ## what lies beneath -/

/-- A disk was made from an image, or on top of a whole layer of which the same is true, or on top of a
layer that is given up. -/
inductive Store.Grounded (s : Store) (lost : Set Identity) (fs : FileSystem) (ms : List Moment) :
    Path → Prop
  | image {disk reference format} : makingOf ms disk = some (.materialize reference format disk) →
    s.Grounded lost fs ms disk
  | above {disk key} : makingOf ms disk = some (.snapshot (s.layerPath key) disk) →
    fs.isWhole (s.layerPath key) = true → s.Grounded lost fs ms (s.layerPath key) →
    s.Grounded lost fs ms disk
  | givenUp {disk key} : makingOf ms disk = some (.snapshot (s.layerPath key) disk) → key ∈ lost →
    s.Grounded lost fs ms disk

namespace Founded
variable {s : Store} {scripts : List (List Operation)} {lost : Set Identity} {pins : List Pin}
  {fs : FileSystem} {ms : List Moment}

theorem grounded_of_backed {disk : Path} {below : Option Identity} (h : s.Backed lost fs ms disk below)
    (hbelow : ∀ key, below = some key → fs.isWhole (s.layerPath key) = true →
      s.Grounded lost fs ms (s.layerPath key)) : s.Grounded lost fs ms disk := by
  cases below with
  | none =>
    obtain ⟨reference, format, hmade⟩ := h.made
    exact .image hmade
  | some key =>
    rcases h.stands key rfl with hwhole | hmem
    · exact .above h.made hwhole (hbelow key rfl hwhole)
    · exact .givenUp h.made hmem

/-- Whole layers are grounded.  By induction on the script that leads to the key, which is the only one
of its length. -/
theorem grounded (h : Founded s scripts lost pins fs ms) (hc : Collisionless scripts)
    {ops : List Operation} {key : Identity} (hl : Leads ops (some key)) (hin : BeginsIn scripts ops)
    (hwhole : fs.isWhole (s.layerPath key) = true) : s.Grounded lost fs ms (s.layerPath key) := by
  generalize hbelow : some key = below at hl
  induction hl generalizing key with
  | start => cases hbelow
  | @step ops below op _ hl hk ih =>
    cases hbelow
    obtain ⟨pre, below', op', hin', hl', hk', hb⟩ := h.layer _ (isValidName_nextKey hk) hwhole
    obtain ⟨rfl, -⟩ := hc.step_inj hl hl' hin hin' hk hk'
    exact grounded_of_backed hb fun k hk hwhole => ih hin.of_append hwhole hk.symm

theorem grounded_of_isWhole (h : Founded s scripts lost pins fs ms) (hc : Collisionless scripts) :
    (∀ key, isValidName key.name = true → fs.isWhole (s.layerPath key) = true →
      s.Grounded lost fs ms (s.layerPath key)) ∧
    ∀ name, isValidName name = true → fs.isWhole (s.tagPath name) = true →
      s.Grounded lost fs ms (s.tagPath name) := by
  have hlayer : ∀ key, isValidName key.name = true → fs.isWhole (s.layerPath key) = true →
      s.Grounded lost fs ms (s.layerPath key) := by
    intro key hv hwhole
    obtain ⟨pre, below, op, hin, hl, hk, -⟩ := h.layer key hv hwhole
    exact h.grounded hc (hl.step hk) hin hwhole
  refine ⟨hlayer, fun name hv hwhole => ?_⟩
  obtain ⟨key, hvk, hb⟩ := h.tag name hv hwhole
  exact grounded_of_backed hb fun k hk hwhole => hlayer k (by cases hk; exact hvk) hwhole

/-- The next step of a plan is not cached before the last one is, but above a layer that is given up.  By
induction on the operations, with those before them. -/
theorem isChain_planFrom (h : Founded s scripts lost pins fs ms) {all : List (List Operation)}
    (hc : Collisionless all) (hsub : scripts ⊆ all) {pre ops : List Operation} {below : Option Identity}
    {steps : List PlannedStep} (hl : Leads pre below) (hin : BeginsIn all (pre ++ ops))
    (hp : planFrom s fs below ops = .ok steps) :
    steps.IsChain fun p q => q.cached = true → p.cached = true ∨ p.identity ∈ lost := by
  have hbegin : ∀ {ops}, BeginsIn scripts ops → BeginsIn all ops := fun ⟨script, hs, hpre⟩ =>
    ⟨script, hsub hs, hpre⟩
  induction ops generalizing pre below steps with
  | nil =>
    cases hp
    exact .nil
  | cons op ops ih =>
    obtain ⟨key, rest, hk, hr, rfl⟩ := planFrom_cons_eq_ok hp
    rw [← List.singleton_append, ← List.append_assoc] at hin
    have hstep := hl.step hk
    have hrest := ih hstep hin hr
    cases ops with
    | nil =>
      cases hr
      exact .singleton _
    | cons op' ops =>
      obtain ⟨key', rest', hk', -, rfl⟩ := planFrom_cons_eq_ok hr
      refine .cons_cons (fun hcached => ?_) hrest
      have hnext : BeginsIn all (pre ++ [op] ++ [op'] ++ ops) := by
        rw [List.append_assoc (pre ++ [op])]
        exact hin
      obtain ⟨pre', below', op'', hin', hl', hk'', hb⟩ := h.layer key' (isValidName_nextKey hk') hcached
      obtain ⟨rfl, -⟩ := hc.step_inj hstep hl' hnext.of_append (hbegin hin') hk' hk''
      exact hb.stands key rfl

end Founded

/-! ## after a history -/

/-- The disks of a store and what they were made from: a whole disk of a layer was made from an image, or
on top of a layer that is whole or given up, one of a tag on top of such a layer, and the disk of a
machine that runs on top of its tag, which is whole. -/
structure Store.Chained (s : Store) (lost : Set Identity) (fs : FileSystem) (ms : List Moment) : Prop where
  layer : ∀ key, isValidName key.name = true → fs.isWhole (s.layerPath key) = true →
    ∃ below, s.Backed lost fs ms (s.layerPath key) below
  tag : ∀ name, isValidName name = true → fs.isWhole (s.tagPath name) = true →
    ∃ key, s.Backed lost fs ms (s.tagPath name) (some key)
  machine : ∀ name, isValidName name = true → fs.isPresent (s.instancePath name) = true →
    fs.isPresent (s.recordPath name) = true → ∃ tag machines, s.instancesOf fs tag = .ok machines ∧
      name ∈ machines ∧ makingOf ms (s.instancePath name) =
        some (.snapshot (s.tagPath tag) (s.instancePath name))
  pinned : ∀ tag machines, s.instancesOf fs tag = .ok machines → machines ≠ [] →
    isValidName tag = true ∧ fs.isWhole (s.tagPath tag) = true

/-- whole disks that are backed, with the machines that run -/
theorem Founded.chained {σ : Type} {s : Store} {r : Trail} {current : Path} {w : World σ}
    {scripts : List (List Operation)} {lost : Set Identity} {pins : List Pin} {ms : List Moment}
    (h : Founded s scripts lost pins w.files ms) (hp : Pinned s r current w pins) :
    s.Chained lost w.files ms where
  layer key hv hwhole := by
    obtain ⟨pre, below, op, -, -, -, hb⟩ := h.layer key hv hwhole
    exact ⟨below, hb⟩
  tag name hv hwhole := by
    obtain ⟨key, -, hb⟩ := h.tag name hv hwhole
    exact ⟨key, hb⟩
  machine name hv _ hrecord := by
    have hnode := (FileSystem.isPresent_join hp.stands.instances (isPlain_recordName hv)).mp hrecord
    rcases hp.recorded.only _ hnode.2 with ⟨machine, -, he⟩ | ⟨p, hmem, he⟩
    · exact absurd he.symm (diskName_ne_recordName _ _)
    · have hname := recordName_injective he
      subst hname
      exact ⟨p.tag, _, hp.recorded.instancesOf_eq hp.stands p.tag,
        mem_machinesOn.mpr ⟨p, hmem, rfl, rfl⟩, h.machine p hmem⟩
  pinned tag machines hread hne := by
    rw [hp.recorded.instancesOf_eq hp.stands] at hread
    cases hread
    obtain ⟨machine, hmachine⟩ := List.exists_mem_of_ne_nil _ hne
    obtain ⟨p, hmem, rfl, -⟩ := mem_machinesOn.mp hmachine
    exact ⟨hp.recorded.tag p hmem, hp.whole p hmem⟩

namespace Store.Chained

variable {s : Store} {lost : Set Identity} {fs : FileSystem} {ms : List Moment} {name : String}
  {key below : Identity} (h : s.Chained lost fs ms)

include h

theorem mem_lost (hv : isValidName key.name = true) (hwhole : fs.isWhole (s.layerPath key) = true)
    (hmade : makingOf ms (s.layerPath key) = some (.snapshot (s.layerPath below) (s.layerPath key)))
    (hmissing : fs.isWhole (s.layerPath below) = false) :
    ∃ lower ∈ lost, s.layerPath lower = s.layerPath below := by
  obtain ⟨found, hbacked⟩ := h.layer key hv hwhole
  cases found with
  | none =>
    obtain ⟨reference, format, hcreated⟩ := hbacked.made
    rw [hmade] at hcreated
    cases hcreated
  | some lower =>
    have hsame : s.layerPath lower = s.layerPath below :=
      (Call.snapshot.inj (Option.some.inj (hbacked.made.symm.trans hmade))).1
    refine ⟨lower, (hbacked.stands lower rfl).resolve_left fun hstands => ?_, hsame⟩
    rw [hsame, hmissing] at hstands
    cases hstands

theorem isWhole_tagPath (hv : isValidName name = true)
    (hdisk : fs.isPresent (s.instancePath name) = true) (hrecord : fs.isPresent (s.recordPath name) = true) :
    ∃ tag, fs.isWhole (s.tagPath tag) = true ∧
      makingOf ms (s.instancePath name) = some (.snapshot (s.tagPath tag) (s.instancePath name)) := by
  obtain ⟨tag, machines, hread, hmem, hmade⟩ := h.machine name hv hdisk hrecord
  exact ⟨tag, (h.pinned tag machines hread (List.ne_nil_of_mem hmem)).2, hmade⟩

end Store.Chained

/-- Backing chains stay whole but for layers that are given up.  Whatever is asked of a store that was
empty, and however it ends: each whole disk was made from an image, or on top of a disk that is whole,
or of a layer at which a forced build has failed.  Where hashes do not collide this goes on down to a
base image, and no plan finds a step cached after one that is not, unless that one is such a layer.
Where no build is forced, there is no such layer. -/
theorem chains_whole {σ : Type} {backend : Backend σ} {s : Store} {w : World σ}
    {requests : List Request} (hb : backend.Confined) (hl : backend.LeavesFiles)
    (hsp : backend.Sparing s) (hu : w.Undisturbed) (ha : s.root.isAbsolute = true)
    (hempty : s.IsEmpty w.files) (hwf : w.files.WellFormed)
    (hfree : ∀ ref ∈ w.locked, ∀ r, s.StandsAt r w.files → ref.trail ∉ Store.lockTrails r)
    (hroot : ∀ q ∈ requests, q.Reaches s w.files.currentPath) :
    let x := performAll backend s requests (w, [])
    let lost := givenUp backend s requests (w, [])
    let scripts := requests.filterMap Request.script?
    ((∀ config ops tag, .build config ops tag ∈ requests → config.force = false) → lost = ∅) ∧
    ∃ ms, x.1.journal = w.journal ++ ms ∧ s.Chained lost x.1.files ms ∧
      (Collisionless scripts → (∀ key, isValidName key.name = true →
          x.1.files.isWhole (s.layerPath key) = true →
            s.Grounded lost x.1.files ms (s.layerPath key)) ∧
        ∀ name, isValidName name = true → x.1.files.isWhole (s.tagPath name) = true →
          s.Grounded lost x.1.files ms (s.tagPath name)) ∧
      ∀ ops steps, Collisionless (ops :: scripts) → plan s x.1.files ops = .ok steps →
        steps.IsChain fun p q => q.cached = true → p.cached = true ∨ p.identity ∈ lost := by
  intro x lost scripts
  obtain ⟨r, hs⟩ := hempty.standsAt ha
  have hp : Pinned s r w.files.currentPath w [] :=
    Pinned.of_isEmpty hs hempty hwf hu fun ref href => hfree ref href r hs
  have hscripts : ∀ q ∈ requests, ∀ ops, q.script? = some ops → ops ∈ scripts := fun q hq ops hops =>
    List.mem_filterMap.mpr ⟨q, hq, hops⟩
  obtain ⟨ms, hj, hfounded⟩ := Founded.performAll (x := (w, [])) hb hl hsp ha hscripts hroot
    (Founded.of_isEmpty hs hempty) hp
  rw [Set.empty_union, List.nil_append] at hfounded
  have hpinned : Pinned s r w.files.currentPath x.1 x.2 := Pinned.performAll hb hl hsp ha hroot hp
  refine ⟨fun h => givenUp_eq_empty backend s h (w, []), ms, hj, hfounded.chained hpinned,
    hfounded.grounded_of_isWhole, fun ops steps hc hplan => ?_⟩
  rw [plan_eq] at hplan
  split at hplan
  · cases hplan
  · exact hfounded.isChain_planFrom hc (List.subset_cons_self _ _) .start
      ⟨ops, List.mem_cons_self, List.prefix_rfl⟩ hplan

/-! ## a layer that is given up -/

/-- A disk of three layers is tagged, a machine is launched from it, and it is built again by force. -/
def Request.rebuilt : List Request :=
  [.build { storeRoot := ⟨"/"⟩ } [.base "d", .mutate "x", .mutate "y"] (some "t"),
    .launch "t" { name := "m" },
    .build { storeRoot := ⟨"/"⟩, force := true } [.base "d", .mutate "x", .mutate "y"] none]

/-- a backend that fails at the tenth call -/
def Backend.tiring : Backend (List Call) := .refusing fun past _ => past.length == 9

theorem Request.reaches_rebuilt : ∀ q ∈ Request.rebuilt,
    q.Reaches ⟨⟨"/"⟩⟩ (World.afresh .cleared).files.currentPath := by
  have hroot : (⟨"/"⟩ : Path).absolute? (World.afresh .cleared).files.currentPath =
      some ⟨"/"⟩ := by
    decide +kernel
  simp [Request.rebuilt, Request.Reaches, hroot]

/-- what is left of the three layers, the tag and the machine -/
theorem Request.leaves_rebuilt :
    let s : Store := ⟨⟨"/"⟩⟩
    let ops : List Operation := [.base "d", .mutate "x", .mutate "y"]
    let x := performAll .tiring s Request.rebuilt (.afresh .cleared, [])
    (plan s x.1.files ops).toOption.map (List.map PlannedStep.cached) = some [true, false, true] ∧
      ∃ keys ∈ [keysFrom none ops], ∃ below ∈ keys[1]?, ∃ key ∈ keys[2]?,
        isValidName key.name = true ∧ x.1.files.isWhole (s.layerPath key) = true ∧
          x.1.files.isWhole (s.layerPath below) = false ∧
          makingOf x.1.journal (s.layerPath key) =
            some (.snapshot (s.layerPath below) (s.layerPath key)) ∧
          makingOf x.1.journal (s.tagPath "t") = some (.snapshot (s.layerPath key) (s.tagPath "t")) ∧
            x.1.files.isPresent (s.instancePath "m") = true ∧
              x.1.files.isPresent (s.recordPath "m") = true := by
  decide +kernel

theorem Request.collisionless_rebuilt : Collisionless (Request.rebuilt.filterMap Request.script?) := by
  refine ⟨by decide +kernel, ?_⟩
  intro a ha key hkey
  have hpair : a ∈ ["d", "d"] := ha
  obtain rfl : a = "d" := by simpa using hpair
  cases hkey
  decide +kernel

/-- The second layer is given up, above which the third still stands, and the machine runs on the tag. -/
theorem chains_whole_rebuilt :
    let s : Store := ⟨⟨"/"⟩⟩
    let x := performAll .tiring s Request.rebuilt (.afresh .cleared, [])
    let lost := givenUp .tiring s Request.rebuilt (.afresh .cleared, [])
    s.Chained lost x.1.files x.1.journal ∧
      (∃ key, s.Grounded lost x.1.files x.1.journal (s.layerPath key) ∧ ∃ below ∈ lost,
        makingOf x.1.journal (s.layerPath key) =
          some (.snapshot (s.layerPath below) (s.layerPath key))) ∧
      ∃ tag, x.1.files.isWhole (s.tagPath tag) = true ∧ makingOf x.1.journal (s.instancePath "m") =
        some (.snapshot (s.tagPath tag) (s.instancePath "m")) := by
  have hleft := Request.leaves_rebuilt
  have hwhole := @chains_whole (List Call) .tiring ⟨⟨"/"⟩⟩ (.afresh .cleared) Request.rebuilt
    (Backend.confined_refusing _) (Backend.leavesFiles_refusing _) (Backend.sparing_refusing _ _)
    (World.undisturbed_afresh _) (by decide) (by decide +kernel) (by decide +kernel)
    (fun ref href => absurd href List.not_mem_nil) Request.reaches_rebuilt
  dsimp only at hleft hwhole ⊢
  generalize performAll .tiring ⟨⟨"/"⟩⟩ Request.rebuilt (.afresh .cleared, []) = x at hleft hwhole ⊢
  generalize givenUp .tiring ⟨⟨"/"⟩⟩ Request.rebuilt (.afresh .cleared, []) = lost at hwhole ⊢
  obtain ⟨-, keys, -, below, -, key, -, hv, hkey, hmissing, hmade, -, hdisk, hrecord⟩ := hleft
  obtain ⟨-, ms, hj, hchained, hgrounded, -⟩ := hwhole
  have hms : ms = x.1.journal := (hj.trans (List.nil_append ms)).symm
  subst hms
  obtain ⟨lower, hlost, hsame⟩ := hchained.mem_lost hv hkey hmade hmissing
  rw [← hsame] at hmade
  exact ⟨hchained, ⟨key, (hgrounded Request.collisionless_rebuilt).1 key hv hkey, lower, hlost, hmade⟩,
    hchained.isWhole_tagPath (by decide) hdisk hrecord⟩

/-- The layer at which the forced build fails is missing beneath a layer, a tag and a machine. -/
theorem chain_broken_by_rebuild :
    let s : Store := ⟨⟨"/"⟩⟩
    let x := performAll .tiring s Request.rebuilt (.afresh .cleared, [])
    (plan s x.1.files [.base "d", .mutate "x", .mutate "y"]).toOption.map (List.map PlannedStep.cached) =
      some [true, false, true] ∧
    ∃ below key, makingOf x.1.journal (s.layerPath key) =
        some (.snapshot (s.layerPath below) (s.layerPath key)) ∧
      x.1.files.isWhole (s.layerPath key) = true ∧ x.1.files.isWhole (s.layerPath below) = false ∧
        makingOf x.1.journal (s.tagPath "t") = some (.snapshot (s.layerPath key) (s.tagPath "t")) ∧
          x.1.files.isPresent (s.instancePath "m") = true ∧
            x.1.files.isPresent (s.recordPath "m") = true := by
  obtain ⟨hplan, keys, -, below, -, key, -, -, hwhole, hnot, hmade, htag, hmachine⟩ :=
    Request.leaves_rebuilt
  exact ⟨hplan, below, key, hmade, hwhole, hnot, htag, hmachine⟩

end DiskLayers
