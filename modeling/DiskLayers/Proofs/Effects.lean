import DiskLayers.Proofs.Scripts
import DiskLayers.Proofs.Steps

/-!
# What calls write

A successful call writes its target from its arguments and from the disks that it reads, and from
nothing else.  A disk may refer to other ones, which are then read with it.

* `FileSystem.contents`   the bytes behind paths
* `Reads`                 the disks that a call reads
* `Effect`                what calls write
* `Backend.Follows`       a backend whose successes write just that
* `Effect.disks`          the disks of a script that is built where there are none
* `FileSystem.Bears`      some disks are there with their bytes

`Performed.bears` says that calls do to files what they do to the disks of a script, even if there
are more files than disks, and `disks_eq` that a key tells the disks of its script.
-/

namespace DiskLayers
open DiskLayers.Path

/-! ## bytes -/

/-- the bytes of a file -/
def Node.content? : Node → Option Content
  | .dir => none
  | .file _ content => some content

namespace FileSystem

/-- the bytes behind a path, if it leads to a file -/
def contents (fs : FileSystem) (p : Path) : Option Content := (fs.readContent p).toOption

section
variable {fs fs' : FileSystem} {p dir : Path} {d : Trail} {name : String} {T : Set Trail}

theorem contents_eq (fs : FileSystem) (p : Path) :
    fs.contents p = (fs.found? p).bind fun e => e.2.content? := by
  unfold contents readContent found?
  cases fs.lookup p with
  | error e => rfl
  | ok e =>
    obtain ⟨t, n⟩ := e
    cases n <;> rfl

theorem contents_join (h : fs.lookup dir = .ok (d, .dir)) (hn : IsPlain name.toList) :
    fs.contents (dir.join name) =
      if dir.Fits name then (fs.node? (name :: d)).bind Node.content? else none := by
  rw [contents_eq, found?_join h hn]
  by_cases hf : dir.Fits name
  · rw [if_pos hf, if_pos hf]
    cases fs.node? (name :: d) <;> rfl
  · rw [if_neg hf, if_neg hf]
    rfl

theorem isFile_of_contents {content : Content} (h : fs.contents p = some content) :
    fs.isFile p = true := by
  rw [contents_eq, found?] at h
  rw [isFile]
  cases hl : fs.lookup p with
  | error e =>
    rw [hl] at h
    cases h
  | ok e =>
    obtain ⟨t, n⟩ := e
    rw [hl] at h
    cases n with
    | dir => cases h
    | file b c => rfl

theorem Within.contents_join (hw : Within T fs fs') (h : fs.lookup dir = .ok (d, .dir))
    (hn : IsPlain name.toList) (ht : name :: d ∉ T) :
    fs'.contents (dir.join name) = fs.contents (dir.join name) := by
  rw [contents_eq, contents_eq, hw.found?_join h hn ht]

end

theorem KeepsDisk.contents_eq {disk : Path} {fs fs' : FileSystem} (h : KeepsDisk disk fs fs') :
    fs'.contents disk = fs.contents disk := by
  rw [FileSystem.contents_eq, FileSystem.contents_eq, h.1]

/-- Some disks are there with their bytes, among whatever else. -/
def Bears (fs : FileSystem) (disks : Path → Option Content) : Prop :=
  ∀ p content, disks p = some content → fs.contents p = some content

end FileSystem

/-! ## what a call reads and writes -/

/-- the disk that a call reads, unless it makes one from a template -/
def Call.source? : Call → Option Path
  | .snapshot parent _ => some parent
  | .execute target _ => some target
  | _ => none

/-- The disks that a call reads: its source, and all disks that a disk refers to that is read. -/
inductive Reads (refers : Content → Set Path) (disks : Path → Option Content) (c : Call) :
    Path → Prop
  | source {p} : c.source? = some p → Reads refers disks c p
  | behind {p q content} : Reads refers disks c p → disks p = some content → q ∈ refers content →
    Reads refers disks c q

/-- What calls write at their targets, by the disks that are there.  Only those count that a call
reads, and what it writes refers to no others. -/
structure Effect where
  /-- the disks that a disk refers to, as its bytes tell -/
  refers : Content → Set Path
  writes : Call → (Path → Option Content) → Content
  writes_congr : ∀ c disks disks', (∀ p, Reads refers disks c p → disks' p = disks p) →
    writes c disks' = writes c disks
  refers_writes : ∀ c disks p, p ∈ refers (writes c disks) → Reads refers disks c p

/-- A backend that changes nothing but the target of a call, and whose successes write there what
the effect says.  A call that fails may leave anything there. -/
structure Backend.Follows (backend : Backend σ) (E : Effect) : Prop where
  confined : backend.Confined
  writes : ∀ c p, c.target? = some p → ∀ s fs, (backend c s fs).1 = .ok () →
    (backend c s fs).2.2.contents p = some (E.writes c fs.contents)

theorem Backend.Follows.leavesFiles {backend : Backend σ} {E : Effect} (h : backend.Follows E) :
    backend.LeavesFiles := by
  intro c p hc s fs hok
  exact FileSystem.isFile_of_contents (h.writes c p hc s fs hok)

namespace Effect
variable (E : Effect) {disks : Path → Option Content} {c : Call} {calls : List Call} {p : Path}

/-- the disks after a call -/
def after (disks : Path → Option Content) (c : Call) : Path → Option Content :=
  match c.target? with
  | none => disks
  | some p => Function.update disks p (some (E.writes c disks))

/-- disks that refer to each other only -/
def Grounded (disks : Path → Option Content) : Prop :=
  ∀ p content q, disks p = some content → q ∈ E.refers content → disks q ≠ none

/-- each call finds its source when its turn comes -/
def Ready (disks : Path → Option Content) : List Call → Prop
  | [] => True
  | c :: calls => (∀ p, c.source? = some p → disks p ≠ none) ∧ Ready (E.after disks c) calls

theorem after_of_target (h : c.target? = some p) :
    E.after disks c = Function.update disks p (some (E.writes c disks)) := by
  rw [after, h]

theorem after_ne_none : E.after disks c p ≠ none ↔ disks p ≠ none ∨ c.target? = some p := by
  rw [after]
  cases c.target? with
  | none => simp
  | some t =>
    by_cases hp : p = t
    · rw [hp]
      simp
    · have hp' : ¬ t = p := fun e => hp e.symm
      simp [Function.update_of_ne hp, hp']

theorem foldl_after_ne_none :
    calls.foldl E.after disks p ≠ none ↔ disks p ≠ none ∨ ∃ c ∈ calls, c.target? = some p := by
  induction calls generalizing disks with
  | nil => simp
  | cons c calls ih =>
    rw [List.foldl_cons, ih, after_ne_none, or_assoc]
    simp

theorem foldl_after_of_ne (h : ∀ c ∈ calls, c.target? ≠ some p) :
    calls.foldl E.after disks p = disks p := by
  induction calls generalizing disks with
  | nil => rfl
  | cons c calls ih =>
    rw [List.foldl_cons, ih fun k hk => h k (List.mem_cons_of_mem _ hk)]
    have hc := h c List.mem_cons_self
    cases ht : c.target? with
    | none => rw [after, ht]
    | some t =>
      rw [after_of_target E ht, Function.update_of_ne]
      intro e
      exact hc (by rw [ht, e])

variable {E}

/-- what is read where disks refer to each other only is a disk -/
theorem ne_none_of_reads (hg : E.Grounded disks) (hs : ∀ p, c.source? = some p → disks p ≠ none)
    (h : Reads E.refers disks c p) : disks p ≠ none := by
  cases h with
  | source hp => exact hs _ hp
  | behind _ hcontent hq => exact hg _ _ _ hcontent hq

theorem writes_of_bears {fs : FileSystem} (hg : E.Grounded disks)
    (hs : ∀ p, c.source? = some p → disks p ≠ none) (hb : fs.Bears disks) :
    E.writes c fs.contents = E.writes c disks := by
  apply E.writes_congr
  intro p hp
  obtain ⟨content, hcontent⟩ := Option.ne_none_iff_exists'.mp (ne_none_of_reads hg hs hp)
  rw [hcontent]
  exact hb p content hcontent

theorem Grounded.after (hg : E.Grounded disks) (hs : ∀ p, c.source? = some p → disks p ≠ none) :
    E.Grounded (E.after disks c) := by
  intro p content q hp hq
  rw [after_ne_none]
  left
  cases ht : c.target? with
  | none =>
    rw [Effect.after, ht] at hp
    exact hg p content q hp hq
  | some t =>
    rw [after_of_target E ht] at hp
    by_cases hpt : p = t
    · rw [hpt, Function.update_self] at hp
      cases hp
      exact ne_none_of_reads hg hs (E.refers_writes c disks q hq)
    · rw [Function.update_of_ne hpt] at hp
      exact hg p content q hp hq

theorem Grounded.foldl (hg : E.Grounded disks) (hr : E.Ready disks calls) :
    E.Grounded (calls.foldl E.after disks) := by
  induction calls generalizing disks with
  | nil => exact hg
  | cons c calls ih => exact ih (hg.after hr.1) hr.2

theorem ready_execute {commands : List GuestCommand} (h : disks p ≠ none) :
    E.Ready disks (commands.map (.execute p)) := by
  induction commands generalizing disks with
  | nil => trivial
  | cons g commands ih =>
    refine ⟨fun q hq => ?_, ih ((E.after_ne_none).mpr (Or.inl h))⟩
    cases hq
    exact h

/-- the calls of an operation are ready if the disk below is there -/
theorem ready_callsOn {op : Operation} {below : Option Path} {disk : Path}
    (hbase : below = none → op.isBase = true) (h : ∀ p, below = some p → disks p ≠ none) :
    E.Ready disks (op.callsOn below disk) := by
  have hsome : ∀ {disks : Path → Option Content}, disks disk ≠ none →
      E.Ready disks (op.callsOn none disk) := by
    intro disks hd
    cases op with
    | base reference => exact ⟨fun p hp => (nomatch hp), trivial⟩
    | _ => exact ready_execute hd
  cases below with
  | none =>
    cases op with
    | base reference => exact ⟨fun p hp => (nomatch hp), trivial⟩
    | _ => cases hbase rfl
  | some parent =>
    refine ⟨fun p hp => ?_, hsome ((E.after_ne_none).mpr (Or.inr rfl))⟩
    cases hp
    exact h parent rfl

end Effect

/-! ## what calls do to files -/

section
variable {σ : Type} {backend : Backend σ} {E : Effect} {dir : Path} {d : Trail} {name : String}
  {disks : Path → Option Content} {fs fs' : FileSystem}

/-- Disks that are there stay in step with the files while calls make one more disk beside them.
By induction on the calls; the files may hold more than the disks. -/
theorem Performed.bears {calls : List Call} (h : Performed backend fs calls fs')
    (hf : backend.Follows E) (hl : fs.lookup dir = .ok (d, .dir)) (hn : IsPlain name.toList)
    (hfits : dir.Fits name) (hd : fs.node? (name :: d) ≠ some .dir)
    (hc : ∀ c ∈ calls, c.target? = some (dir.join name)) (hr : E.Ready disks calls)
    (hg : E.Grounded disks) (hb : fs.Bears disks)
    (hplace : ∀ p, disks p ≠ none → p ≠ dir.join name →
      ∃ other, IsPlain other.toList ∧ other ≠ name ∧ p = dir.join other) :
    fs'.Bears (calls.foldl E.after disks) := by
  induction h generalizing disks with
  | nil => exact hb
  | @cons c cs tools fs tools' fs₁ fs₂ hcall hrest ih =>
    have htarget := hc c List.mem_cons_self
    have hw := within_call hf.confined htarget (s := tools) hl hn hfits hd
    have hwrites := hf.writes c _ htarget tools fs
    rw [hcall] at hw hwrites
    rw [Effect.writes_of_bears hg hr.1 hb] at hwrites
    have hfile := (FileSystem.isFile_join (hw.lookup_dir hl) hn).mp
      (FileSystem.isFile_of_contents (hwrites rfl))
    refine ih (hw.lookup_dir hl) ?_ (fun k hk => hc k (List.mem_cons_of_mem _ hk)) hr.2
      (hg.after hr.1) ?_ ?_
    · obtain ⟨-, b, content, hnode⟩ := hfile
      rw [hnode]
      simp
    · intro p content hp
      rw [E.after_of_target htarget] at hp
      by_cases hpt : p = dir.join name
      · rw [hpt, Function.update_self] at hp
        rw [hpt, hwrites rfl, hp]
      · rw [Function.update_of_ne hpt] at hp
        obtain ⟨other, hplain, hne, rfl⟩ := hplace p (by rw [hp]; simp) hpt
        rw [hw.contents_join hl hplain fun e => hne (List.cons.inj e).1]
        exact hb _ _ hp
    · intro p hp hne
      rw [E.after_ne_none, htarget] at hp
      rcases hp with hp | hp
      · exact hplace p hp hne
      · exact absurd (Option.some.inj hp).symm hne

end

/-! ## the disks of a script -/

namespace Effect
variable (E : Effect) (s : Store)

/-- the disks after some more operations of a script -/
def disksFrom (below : Option Identity) (disks : Path → Option Content) :
    List Operation → Path → Option Content
  | [] => disks
  | op :: ops =>
    match nextKey below op with
    | .error _ => disks
    | .ok key => disksFrom (some key)
        ((op.callsOn (below.map s.layerPath) (s.layerPath key)).foldl E.after disks) ops

def disks (ops : List Operation) : Path → Option Content := E.disksFrom s none (fun _ => none) ops

variable {E s} {ops ops' : List Operation} {below : Option Identity} {op : Operation}
  {key : Identity}

theorem disks_append (h : Leads ops below) (rest : List Operation) :
    E.disks s (ops ++ rest) = E.disksFrom s below (E.disks s ops) rest := by
  induction h generalizing rest with
  | start => rfl
  | step h hk ih =>
    rw [List.append_assoc, ih, ih, List.singleton_append, disksFrom, disksFrom, hk]
    rfl

theorem disks_concat (h : Leads ops below) (hk : nextKey below op = .ok key) :
    E.disks s (ops ++ [op]) =
      (op.callsOn (below.map s.layerPath) (s.layerPath key)).foldl E.after (E.disks s ops) := by
  rw [disks_append h, disksFrom, hk]
  rfl

/-- the disks of a script are those of its keys -/
theorem disks_ne_none (h : Leads ops below) {p : Path} :
    E.disks s ops p ≠ none ↔ ∃ key ∈ keysFrom none ops, p = s.layerPath key := by
  induction h with
  | start => simp [disks, disksFrom, keysFrom]
  | @step ops below op key h hk ih =>
    have hkeys : keysFrom none (ops ++ [op]) = keysFrom none ops ++ [key] := by
      rw [h.keysFrom_append, keysFrom, hk]
      rfl
    have hcalls : (∃ c ∈ op.callsOn (below.map s.layerPath) (s.layerPath key),
        c.target? = some p) ↔ p = s.layerPath key := by
      constructor
      · rintro ⟨c, hc, htarget⟩
        rw [Operation.target?_of_mem_callsOn hc] at htarget
        exact (Option.some.inj htarget).symm
      · rintro rfl
        have hne : op.callsOn (below.map s.layerPath) (s.layerPath key) ≠ [] := by
          apply Operation.callsOn_ne_nil
          intro hnone
          rw [Option.map_eq_none_iff.mp hnone] at hk
          exact isBase_of_nextKey hk
        obtain ⟨c, hc⟩ := List.exists_mem_of_ne_nil _ hne
        exact ⟨c, hc, Operation.target?_of_mem_callsOn hc⟩
    rw [disks_concat h hk, foldl_after_ne_none, ih, hcalls, hkeys]
    simp [or_and_right, exists_or]

theorem disks_below (h : Leads ops (some key)) : E.disks s ops (s.layerPath key) ≠ none := by
  rw [disks_ne_none h]
  cases h with
  | @step ops below op _ h hk =>
    refine ⟨key, ?_, rfl⟩
    rw [h.keysFrom_append, keysFrom, hk]
    simp

theorem ready_disks (h : Leads ops below) (hk : nextKey below op = .ok key) :
    E.Ready (E.disks s ops) (op.callsOn (below.map s.layerPath) (s.layerPath key)) := by
  apply ready_callsOn
  · intro hnone
    rw [Option.map_eq_none_iff.mp hnone] at hk
    exact isBase_of_nextKey hk
  · intro p hp
    obtain ⟨k, rfl, rfl⟩ := Option.map_eq_some_iff.mp hp
    exact disks_below h

theorem grounded_disks (h : Leads ops below) : E.Grounded (E.disks s ops) := by
  induction h with
  | start => exact fun p content q hp => (nomatch hp)
  | step h hk ih =>
    rw [disks_concat h hk]
    exact ih.foldl (ready_disks h hk)

/-- a key tells the disks of its script -/
theorem disks_eq {scripts : List (List Operation)} (hu : Unambiguous scripts) (h : Leads ops below)
    (h' : Leads ops' below) (hin : BeginsIn scripts ops) (hin' : BeginsIn scripts ops') :
    E.disks s ops = E.disks s ops' := by
  induction h generalizing ops' with
  | start =>
    cases h'
    rfl
  | @step ops below op key h hk ih =>
    cases h' with
    | @step ops' below' op' _ h' hk' =>
      obtain ⟨rfl, hop⟩ := hu.step_inj h h' hin hin' hk hk'
      rw [disks_concat h hk, disks_concat h' hk', ih h' hin.of_append hin'.of_append]
      rcases hop with rfl | ⟨r, r', rfl, rfl, -, htrim⟩
      · rfl
      · rw [Operation.callsOn, Operation.callsOn, htrim]

end Effect

end DiskLayers
