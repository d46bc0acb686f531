import DiskLayers.Layer.Files
import DiskLayers.Proofs.Layout
import DiskLayers.Proofs.Runs

/-!
# Calls, one after the other

* `Call.target?`          the disk that a call is to write
* `Backend.Confined`      a backend that changes nothing but the target of a call
* `Backend.LeavesFiles`   a backend whose successes leave a file at the target
* `perform`               calls, one after the other, up to the first that fails
* `Answered`              the answers that calls get so
* `Performed`             what calls make of the files if all succeed
* `Backend.touching`, `World.on`
                          a small backend with the two properties, and a world for it

`ends_perform` says how `perform` ends on calls with a common target.
-/

namespace DiskLayers
open DiskLayers.Path

def Call.target? : Call → Option Path
  | .materialize _ _ target => some target
  | .snapshot _ new => some new
  | .execute target _ => some target
  | .createMachine _ _ | .attachMachine _ | .destroyMachine _ => none

structure Backend.Confined (backend : Backend σ) : Prop where
  same : ∀ {c : Call} {p : Path}, c.target? = some p → ∀ s fs t, fs.trail? p ≠ .ok t →
    (backend c s fs).2.2.node? t = fs.node? t
  current : ∀ {c : Call} {p : Path}, c.target? = some p → ∀ s fs,
    (backend c s fs).2.2.current = fs.current

def Backend.LeavesFiles (backend : Backend σ) : Prop :=
  ∀ c p, c.target? = some p → ∀ s fs, (backend c s fs).1 = .ok () →
    (backend c s fs).2.2.isFile p = true

def perform (backend : Backend σ) (fail : Call → ToolError → ε) : List Call → Act σ ε Unit
  | [] => pure ()
  | c :: cs => do
    (Act.call backend c).mapError (fail c)
    perform backend fail cs

/-- The answers that calls get one after the other, and the call that failed with its error, if one
did.  No call follows it. -/
inductive Answered : List Call → List (Call × Except ToolError Unit) →
    Option (Call × ToolError) → Prop
  | done : Answered [] [] none
  | next {c calls answers failure} :
    Answered calls answers failure → Answered (c :: calls) ((c, .ok ()) :: answers) failure
  | failed {c e calls} : Answered (c :: calls) [(c, .error e)] (some (c, e))

namespace Answered
variable {calls calls' : List Call} {answers answers' : List (Call × Except ToolError Unit)}
  {failure : Option (Call × ToolError)} {c : Call} {e : ToolError}

theorem append (h : Answered calls answers none) (h' : Answered calls' answers' failure) :
    Answered (calls ++ calls') (answers ++ answers') failure := by
  generalize hf : (none : Option (Call × ToolError)) = f at h
  induction h with
  | done => exact h'
  | next _ ih => exact .next (ih hf)
  | failed => cases hf

theorem append_of_failed (h : Answered calls answers (some (c, e))) (calls' : List Call) :
    Answered (calls ++ calls') answers (some (c, e)) := by
  generalize hf : some (c, e) = f at h
  induction h with
  | done => cases hf
  | next _ ih => exact .next (ih hf)
  | failed =>
    cases hf
    exact .failed

theorem eq_of_none (h : Answered calls answers none) : answers = calls.map (·, .ok ()) := by
  generalize hf : (none : Option (Call × ToolError)) = f at h
  induction h with
  | done => rfl
  | next _ ih => rw [ih hf, List.map_cons]
  | failed => cases hf

theorem eq_of_some (h : Answered calls answers (some (c, e))) :
    ∃ before after, calls = before ++ c :: after ∧
      answers = before.map (·, .ok ()) ++ [(c, .error e)] := by
  generalize hf : some (c, e) = f at h
  induction h with
  | done => cases hf
  | @next c' _ _ _ _ ih =>
    obtain ⟨before, after, hc, ha⟩ := ih hf
    exact ⟨c' :: before, after, by rw [hc]; rfl, by rw [ha]; rfl⟩
  | @failed c' e' cs =>
    cases hf
    exact ⟨[], cs, rfl, rfl⟩

theorem head_mem (h : Answered calls answers failure) (hc : calls.head? = some c) :
    c ∈ answers.map Prod.fst := by
  cases h with
  | done => cases hc
  | next _ | failed =>
    cases hc
    exact List.mem_cons_self

theorem mem_calls (h : Answered calls answers failure) {a : Call × Except ToolError Unit}
    (ha : a ∈ answers) : a.1 ∈ calls := by
  induction h with
  | done => cases ha
  | next _ ih =>
    rcases List.mem_cons.mp ha with rfl | ha
    · exact List.mem_cons_self
    · exact List.mem_cons_of_mem _ (ih ha)
  | failed =>
    rcases List.mem_singleton.mp ha with rfl
    exact List.mem_cons_self

end Answered

inductive Performed (backend : Backend σ) : FileSystem → List Call → FileSystem → Prop
  | nil {fs} : Performed backend fs [] fs
  | cons {c cs s fs s' fs' fs''} : backend c s fs = (.ok (), s', fs') →
    Performed backend fs' cs fs'' → Performed backend fs (c :: cs) fs''

/-- the error behind a result, if it is one -/
def failureOf (fail : Call → ToolError → ε) : Option (Call × ToolError) → Except ε Unit
  | none => .ok ()
  | some (c, e) => .error (fail c e)

section
variable {backend : Backend σ} {c : Call} {dir : Path} {d : Trail} {name : String}

/-- a call for a path that can be written changes what stands there and nothing else -/
theorem within_call (hb : backend.Confined) (hc : c.target? = some (dir.join name)) {s : σ}
    {fs : FileSystem} (h : fs.lookup dir = .ok (d, .dir)) (hn : IsPlain name.toList)
    (hf : dir.Fits name) (hd : fs.node? (name :: d) ≠ some .dir) :
    FileSystem.Within {name :: d} fs (backend c s fs).2.2 := by
  have ht : fs.trail? (dir.join name) = .ok (name :: d) := by
    rw [FileSystem.trail?_join h hn, if_pos hf]
  have hs : ∀ t, t ≠ name :: d → (backend c s fs).2.2.node? t = fs.node? t := by
    intro t hne
    refine hb.same hc s fs t (fun e => hne ?_)
    rw [ht] at e
    exact (Except.ok.inj e).symm
  refine ⟨fun t hT => hs t hT, fun t hdir => ?_, hb.current hc s fs⟩
  have hne : t ≠ name :: d := fun e => hd (e ▸ hdir)
  rw [hs t hne]
  exact hdir

/-- where all calls succeed the last one leaves a file -/
theorem Performed.isFile {calls : List Call} {fs fs' : FileSystem} {p : Path}
    (h : Performed backend fs calls fs') (hf : backend.LeavesFiles) (hne : calls ≠ [])
    (hc : ∀ c ∈ calls, c.target? = some p) : fs'.isFile p = true := by
  induction h with
  | nil => exact absurd rfl hne
  | @cons c cs s fs s' fs₁ fs₂ hcall hrest ih =>
    cases cs with
    | nil =>
      cases hrest
      have := hf c p (hc c List.mem_cons_self) s fs
      rw [hcall] at this
      exact this rfl
    | cons c' cs => exact ih (List.cons_ne_nil _ _) fun k hk => hc k (List.mem_cons_of_mem _ hk)

/-- calls for one path that all succeed change what stands there and nothing else -/
theorem Performed.within {calls : List Call} {fs fs' : FileSystem}
    (h : Performed backend fs calls fs') (hb : backend.Confined) (hl : backend.LeavesFiles)
    (hc : ∀ c ∈ calls, c.target? = some (dir.join name)) (hdir : fs.lookup dir = .ok (d, .dir))
    (hn : IsPlain name.toList) (hf : dir.Fits name) (hd : fs.node? (name :: d) ≠ some .dir) :
    FileSystem.Within {name :: d} fs fs' := by
  induction h with
  | nil => exact .refl _ _
  | @cons c cs s fs s' fs₁ fs₂ hcall hrest ih =>
    have htarget := hc c List.mem_cons_self
    have hw := within_call hb htarget (s := s) hdir hn hf hd
    have hfile := hl c _ htarget s fs
    rw [hcall] at hw hfile
    have hdir' := hw.lookup_dir hdir
    refine hw.trans (ih (fun k hk => hc k (List.mem_cons_of_mem _ hk)) hdir' ?_)
    obtain ⟨-, b, content, hnode⟩ := (FileSystem.isFile_join hdir' hn).mp (hfile rfl)
    rw [hnode]
    simp

end

namespace Act
variable {σ ε : Type} {backend : Backend σ} {dir : Path} {d : Trail} {name : String}

/-- how calls for one path end -/
theorem ends_perform {w : World σ} (fail : Call → ToolError → ε) (hb : backend.Confined)
    (hl : backend.LeavesFiles) (hn : IsPlain name.toList) (hf : dir.Fits name)
    {calls : List Call} (hc : ∀ c ∈ calls, c.target? = some (dir.join name))
    (h : w.files.lookup dir = .ok (d, .dir)) (hd : w.files.node? (name :: d) ≠ some .dir) :
    (perform backend fail calls).Ends w fun r ms w' =>
      w.Kept w' ∧ w.Reaches {name :: d} ms w' ∧ ∃ failure,
        Answered calls (answersOf ms) failure ∧ r = failureOf fail failure ∧
        (failure = none → Performed backend w.files calls w'.files) := by
  induction calls generalizing w with
  | nil => exact ends_pure ⟨.refl w, .refl _ w, none, .done, rfl, fun _ => .nil⟩
  | cons c cs ih =>
    have hc₀ := hc c List.mem_cons_self
    -- the call itself, whatever it answers
    have hcall : ((Act.call backend c).mapError (fail c) : Act σ ε Unit).Ends w fun r ms w' =>
        w.Kept w' ∧ w.Reaches {name :: d} ms w' ∧
        ∃ s', backend c w.tools w.files = ((backend c w.tools w.files).1, s', w'.files) ∧
          answersOf ms = [(c, (backend c w.tools w.files).1)] ∧
          r = (backend c w.tools w.files).1.mapError (fail c) := by
      have hw := within_call (s := w.tools) hb hc₀ h hn hf hd
      refine Ends.mapError (ends_of_note rfl rfl rfl ?_)
      exact ⟨⟨rfl, rfl⟩, .of_note (fun hu => hu) hw, _, rfl, rfl, rfl⟩
    refine hcall.bind ?_ ?_
    · rintro ⟨⟩ ms w' ⟨hk, hr, s', hcall, hans, hres⟩
      cases hans₁ : (backend c w.tools w.files).1 with
      | error e => rw [hans₁] at hres; cases hres
      | ok u =>
        rw [hans₁] at hcall hans
        have hfile : w'.files.isFile (dir.join name) = true := by
          have := hl c _ hc₀ w.tools w.files hans₁
          rw [hcall] at this
          exact this
        have h' := hr.within.lookup_dir h
        have hd' : w'.files.node? (name :: d) ≠ some .dir := by
          obtain ⟨-, b, content, hbc⟩ := (FileSystem.isFile_join h' hn).mp hfile
          rw [hbc]
          simp
        refine (ih (fun k hk => hc k (List.mem_cons_of_mem _ hk)) h' hd').mono ?_
        rintro r ms' w'' ⟨hk', hr', failure, ha, hrf, hp⟩
        refine ⟨hk.trans hk', hr.trans hr', failure, ?_, hrf, fun hnone => .cons hcall (hp hnone)⟩
        rw [answersOf_append, hans]
        exact .next ha
    · rintro e ms w' ⟨hk, hr, s', hcall, hans, hres⟩
      cases hans₁ : (backend c w.tools w.files).1 with
      | ok u => rw [hans₁] at hres; cases hres
      | error e' =>
        rw [hans₁] at hans hres
        cases hres
        refine ⟨hk, hr, some (c, e'), ?_, rfl, fun hnone => by cases hnone⟩
        rw [hans]
        exact .failed

end Act

/-! ## a backend and a world -/

/-- A backend that writes an empty file at the target of each call that it does not refuse. -/
def Backend.touching (refuses : Call → Bool) : Backend σ := fun c tools fs =>
  match c.target? with
  | none => (.ok (), tools, fs)
  | some p =>
    if refuses c then (.error (.timeout "qemu-img" ⟨60, 0⟩), tools, fs)
    else
      match fs.write p .empty with
      | .ok fs' => (if fs'.isFile p then .ok () else .error (.failed "qemu-img" none ""), tools, fs')
      | .error e => (.error (.spawn "qemu-img" e), tools, fs)

/-- a file that is opened was there, or is made where its path leads -/
theorem FileSystem.open_eq_ok {fs fs' : FileSystem} {p : Path} {ref : FileRef}
    (h : fs.open p = .ok (ref, fs')) : fs.trail? p = .ok ref.trail ∧
      ((fs' = fs ∧ ∃ c, fs.node? ref.trail = some (.file ref.birth c)) ∨
        (fs.node? ref.trail = none ∧ ref.birth = fs.births ∧ fs' = fs.create ref.trail .empty)) := by
  rw [FileSystem.open] at h
  by_cases hdots : endsInDots p.chars = true
  · rw [if_pos hdots] at h
    cases hl : fs.lookup p <;> rw [hl] at h <;> cases h
  by_cases hslash : endsInSlash p.chars = true
  · rw [if_neg hdots, if_pos hslash] at h
    cases ha : fs.above? p <;> rw [ha] at h <;> cases h
  rw [if_neg hdots, if_neg hslash] at h
  cases ht : fs.trail? p with
  | error e =>
    rw [ht] at h
    cases h
  | ok t =>
    rw [ht] at h
    -- nothing more can fail before the entry is looked at
    dsimp only [bind, Except.bind, pure, Except.pure] at h
    cases hn : fs.node? t with
    | none =>
      rw [hn] at h
      cases h
      exact ⟨rfl, Or.inr ⟨hn, rfl, rfl⟩⟩
    | some n =>
      rw [hn] at h
      cases n with
      | dir => cases h
      | file b c =>
        cases h
        exact ⟨rfl, Or.inl ⟨rfl, c, hn⟩⟩

/-- a file that is opened stands where its path leads, whatever that path is -/
theorem FileSystem.within_of_open {fs fs' : FileSystem} {p : Path} {ref : FileRef}
    (h : fs.open p = .ok (ref, fs')) :
    fs.trail? p = .ok ref.trail ∧ FileSystem.Within {ref.trail} fs fs' ∧
      ∃ c, fs'.node? ref.trail = some (.file ref.birth c) := by
  obtain ⟨ht, ⟨rfl, hfile⟩ | ⟨hnone, hbirth, rfl⟩⟩ := open_eq_ok h
  · exact ⟨ht, Within.refl _ _, hfile⟩
  · have ht₀ : ref.trail ≠ [] := by
      intro e
      rw [e] at hnone
      cases hnone
    have hnode := node?_create_eq fs ht₀ .empty
    exact ⟨ht, Within.of_update (by rw [hnone]; simp) hnode rfl, .empty, by
      rw [hnode, Function.update_self, hbirth]⟩

theorem FileSystem.within_of_write {fs fs' : FileSystem} {p : Path} {c : Content}
    (h : fs.write p c = .ok fs') : ∃ t b, fs.trail? p = .ok t ∧ FileSystem.Within {t} fs fs' ∧
      fs'.node? t = some (.file b c) := by
  rw [write] at h
  cases ho : fs.open p with
  | error e =>
    rw [ho] at h
    cases h
  | ok o =>
    obtain ⟨ref, fs₁⟩ := o
    rw [ho] at h
    cases h
    obtain ⟨ht, hw, c₁, hnode⟩ := within_of_open ho
    refine ⟨ref.trail, ref.birth, ht, hw.trans (within_setContent fs₁ ref c), ?_⟩
    rw [node?_setContent_self fs₁ hnode, Function.update_self]

theorem Backend.touching_cases (refuses : Call → Bool) (c : Call) (s : σ) (fs : FileSystem) :
    (Backend.touching refuses c s fs).2.2 = fs ∨ ∃ p t b c', c.target? = some p ∧
      fs.trail? p = .ok t ∧ FileSystem.Within {t} fs (Backend.touching refuses c s fs).2.2 ∧
        (Backend.touching refuses c s fs).2.2.node? t = some (.file b c') := by
  rw [Backend.touching]
  cases c.target? with
  | none => exact Or.inl rfl
  | some p =>
    dsimp only
    split
    · exact Or.inl rfl
    · cases hw : fs.write p .empty with
      | error e => exact Or.inl rfl
      | ok fs' =>
        obtain ⟨t, b, ht, hwithin, hnode⟩ := FileSystem.within_of_write hw
        exact Or.inr ⟨p, t, b, _, rfl, ht, hwithin, hnode⟩

theorem Backend.confined_touching (refuses : Call → Bool) :
    (Backend.touching refuses : Backend σ).Confined := by
  refine ⟨fun {c p} hc s fs t ht => ?_, fun {c p} hc s fs => ?_⟩
  · rcases Backend.touching_cases refuses c s fs with h | ⟨q, u, -, -, hq, hu, hw, -⟩
    · rw [h]
    · refine hw.same t fun e => ht ?_
      have htu : t = u := e
      rw [hc] at hq
      cases hq
      rw [hu, htu]
  · rcases Backend.touching_cases refuses c s fs with h | ⟨_, _, _, _, -, -, hw, -⟩
    · rw [h]
    · exact hw.current

theorem Backend.leavesFiles_touching (refuses : Call → Bool) :
    (Backend.touching refuses : Backend σ).LeavesFiles := by
  intro c p hc s fs h
  rw [Backend.touching, hc] at h ⊢
  dsimp only at h ⊢
  cases hr : refuses c with
  | true =>
    rw [hr] at h
    cases h
  | false =>
    rw [hr] at h
    cases hw : fs.write p .empty with
    | error e =>
      rw [hw] at h
      cases h
    | ok fs' =>
      rw [hw] at h
      cases hfile : fs'.isFile p with
      | true => exact hfile
      | false =>
        dsimp only at h
        rw [hfile] at h
        cases h

/-- A backend that remembers what it was called for, and does nothing when it refuses a call. -/
def Backend.refusing (refuses : List Call → Call → Bool) : Backend (List Call) := fun c past fs =>
  if refuses past c then (.error (.timeout "virsh" ⟨60, 0⟩), c :: past, fs)
  else
    match (Backend.touching (fun _ => false) : Backend Unit) c () fs with
    | (res, _, fs') => (res, c :: past, fs')

section
variable (refuses : List Call → Call → Bool)

/-- a call is refused, or has the effect it has otherwise -/
theorem Backend.refusing_cases (c : Call) (past : List Call) (fs : FileSystem) :
    ((∃ e, (Backend.refusing refuses c past fs).1 = .error e) ∧
      (Backend.refusing refuses c past fs).2.2 = fs) ∨
    ((Backend.refusing refuses c past fs).1 = (Backend.touching (fun _ => false) c () fs).1 ∧
      (Backend.refusing refuses c past fs).2.2 = (Backend.touching (fun _ => false) c () fs).2.2) := by
  rw [Backend.refusing]
  cases refuses past c with
  | true => exact Or.inl ⟨⟨_, rfl⟩, rfl⟩
  | false => exact Or.inr ⟨rfl, rfl⟩

theorem Backend.confined_refusing : (Backend.refusing refuses).Confined := by
  refine ⟨fun {c p} hc past fs t ht => ?_, fun {c p} hc past fs => ?_⟩
  · rcases Backend.refusing_cases refuses c past fs with ⟨-, h⟩ | ⟨-, h⟩
    · rw [h]
    · rw [h]
      exact (Backend.confined_touching _).same hc () fs t ht
  · rcases Backend.refusing_cases refuses c past fs with ⟨-, h⟩ | ⟨-, h⟩
    · rw [h]
    · rw [h]
      exact (Backend.confined_touching _).current hc () fs

theorem Backend.leavesFiles_refusing : (Backend.refusing refuses).LeavesFiles := by
  intro c p hc past fs hok
  rcases Backend.refusing_cases refuses c past fs with ⟨⟨e, he⟩, -⟩ | ⟨hres, h⟩
  · rw [he] at hok
    cases hok
  · rw [h]
    exact Backend.leavesFiles_touching _ c p hc () fs (hres ▸ hok)

end

/-- the calls that work inside a disk -/
def Call.isExecute : Call → Bool
  | .execute _ _ => true
  | _ => false

/-- files that no other process looks at -/
def World.on (files : FileSystem) : World Unit := { files := files, tools := (), pid := 1, now := 0 }

/-- the same, with a backend that has not been called -/
def World.afresh (files : FileSystem) : World (List Call) :=
  { files := files, tools := [], pid := 1, now := 0 }

theorem World.undisturbed_on (files : FileSystem) : (World.on files).Undisturbed := by
  intro turn hturn
  cases hturn

theorem World.undisturbed_afresh (files : FileSystem) : (World.afresh files).Undisturbed := by
  intro turn hturn
  cases hturn

end DiskLayers
