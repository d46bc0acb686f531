import DiskLayers.Proofs.Backing
import DiskLayers.Proofs.Identities
import DiskLayers.Store.Listing

/-!
# Base images and derived layers

* `Call.Makes`          a call makes a disk in the way of a kind
* `MadeAs`              a disk was made in the way of a kind
* `Identity.kind`       the kind of the layer of a key, as a listing tells it
* `Operation.kind`      the kind of layer that an operation makes
* `HasPlainBase`        a script whose base image has no key that looks like a derived one
* `Store.TellsKinds`    disks among the layers were made in the way that their names tell

Base images and derived layers lie in one directory, and nothing but the shape of a name tells them apart.
A derived key has the shape of a hash, always; a base key has it only if its reference does.  As long as
none does, a disk is taken for what it was made as: a step of a build keeps this true
(`Climbed.tellsKinds`), and so do builds one after the other (`kinds_kept_apart`).
-/

namespace DiskLayers
open DiskLayers.Path

/-- A call makes a disk in the way of a kind: from an image, or on top of another disk. -/
def Call.Makes (c : Call) (disk : Path) : LayerKind → Prop
  | .base => ∃ reference format, c = .materialize reference format disk
  | .derived | .tag => ∃ below, c = .snapshot below disk

/-- the call that a disk was made by has made it in the way of a kind -/
def MadeAs (ms : List Moment) (disk : Path) (kind : LayerKind) : Prop :=
  ∃ c, makingOf ms disk = some c ∧ c.Makes disk kind

/-- the kind of the layer of a key, as a listing tells it -/
def Identity.kind (key : Identity) : LayerKind := Store.storedKind false key.name

def Operation.kind (op : Operation) : LayerKind := if op.isBase then .base else .derived

def HasPlainBase (ops : List Operation) : Prop :=
  ∀ key, baseKey? ops = some key → key.isDigest = false

/-! ## kinds of keys -/

theorem Identity.kind_of_isDigest {key : Identity} (h : key.isDigest = true) : key.kind = .derived := by
  rw [kind, Store.storedKind, if_neg (by simp)]
  exact if_pos h

theorem Identity.kind_of_plain {key : Identity} (h : key.isDigest = false) : key.kind = .base := by
  rw [kind, Store.storedKind, if_neg (by simp)]
  exact if_neg (by simpa using h)

theorem Identity.kind_ne_tag (key : Identity) : key.kind ≠ .tag := by
  cases h : key.isDigest with
  | true => rw [kind_of_isDigest h]; simp
  | false => rw [kind_of_plain h]; simp

theorem Operation.kind_ne_tag (op : Operation) : op.kind ≠ .tag := by
  rw [kind]
  split <;> simp

theorem Call.Makes.makes? {c : Call} {disk : Path} {kind : LayerKind} (h : c.Makes disk kind) :
    c.makes? = some disk := by
  cases kind with
  | base =>
    obtain ⟨reference, format, rfl⟩ := h
    rfl
  | derived | tag =>
    obtain ⟨below, rfl⟩ := h
    rfl

/-- a call makes layers of one kind -/
theorem Call.Makes.kind_eq {c : Call} {disk disk' : Path} {kind kind' : LayerKind} (h : c.Makes disk kind)
    (h' : c.Makes disk' kind') (hne : kind ≠ .tag) (hne' : kind' ≠ .tag) : kind = kind' := by
  cases kind with
  | tag => exact absurd rfl hne
  | base =>
    cases kind' with
    | tag => exact absurd rfl hne'
    | base => rfl
    | derived =>
      obtain ⟨reference, format, rfl⟩ := h
      obtain ⟨below, hc⟩ := h'
      cases hc
  | derived =>
    cases kind' with
    | tag => exact absurd rfl hne'
    | derived => rfl
    | base =>
      obtain ⟨below, rfl⟩ := h
      obtain ⟨reference, format, hc⟩ := h'
      cases hc

section
variable {s : Store} {below : Option Identity} {op : Operation} {ops : List Operation} {key : Identity}
  {disk other : Path} {c : Call}

theorem baseKey?_of_nextKey (h : nextKey none op = .ok key) (ops : List Operation) :
    baseKey? (op :: ops) = some key := by
  obtain ⟨reference, rfl, hkey⟩ := nextKey_none h
  exact hkey

theorem kind_of_nextKey_some {parent : Identity} (h : nextKey (some parent) op = .ok key) :
    op.kind = .derived := by
  rw [nextKey] at h
  split at h
  · cases h
  · next hbase => exact if_neg hbase

theorem kind_of_nextKey (h : nextKey below op = .ok key) (hplain : below = none → key.isDigest = false) :
    key.kind = op.kind := by
  cases below with
  | none =>
    obtain ⟨reference, rfl, -⟩ := nextKey_none h
    exact Identity.kind_of_plain (hplain rfl)
  | some parent =>
    rw [kind_of_nextKey_some h, ← nextKey_some h]
    exact Identity.kind_of_isDigest (Identity.isDigest_derive parent op)

/-- the keys of a script tell the kinds of its steps -/
theorem kind_of_keysFrom (hplain : below = none → HasPlainBase ops) {i : Nat} (hop : ops[i]? = some op)
    (hkey : (keysFrom below ops)[i]? = some key) : key.kind = op.kind := by
  induction ops generalizing below i with
  | nil => cases hop
  | cons first ops ih =>
    cases hk : nextKey below first with
    | error e =>
      rw [keysFrom, hk] at hkey
      cases hkey
    | ok next =>
      rw [keysFrom, hk] at hkey
      cases i with
      | zero =>
        cases hop
        cases hkey
        refine kind_of_nextKey hk fun hnone => ?_
        subst hnone
        exact hplain rfl key (baseKey?_of_nextKey hk ops)
      | succ i => exact @ih (some next) (fun hnone => by cases hnone) i hop hkey

/-- of the calls of an operation those that make a disk do so in the way of its kind -/
theorem Operation.makes_of_mem_callsOn (h : nextKey below op = .ok key)
    (hc : c ∈ op.callsOn (below.map s.layerPath) disk) (hm : c.makes? = some other) :
    c.Makes other op.kind := by
  rcases List.mem_append.mp hc with hc | hc
  · cases below with
    | none => cases hc
    | some parent =>
      rw [List.mem_singleton.mp hc] at hm ⊢
      rw [kind_of_nextKey_some h]
      cases hm
      exact ⟨_, rfl⟩
  · cases op with
    | base reference =>
      rw [List.mem_singleton.mp hc] at hm ⊢
      cases hm
      exact ⟨_, _, rfl⟩
    | _ =>
      obtain ⟨g, -, rfl⟩ := List.mem_map.mp hc
      cases hm

theorem Operation.head?_callsOn (h : nextKey below op = .ok key) :
    ∃ c, (op.callsOn (below.map s.layerPath) disk).head? = some c ∧ c.makes? = some disk := by
  cases below with
  | none =>
    obtain ⟨reference, rfl, -⟩ := nextKey_none h
    exact ⟨_, rfl, rfl⟩
  | some parent => exact ⟨_, rfl, rfl⟩

end

section
variable {ms : List Moment} {disk : Path} {c : Call}

theorem mem_callsOf_of_makingOf (h : makingOf ms disk = some c) :
    c ∈ callsOf ms ∧ c.makes? = some disk := by
  obtain ⟨a, ha, rfl⟩ := List.mem_map.mp (List.mem_of_getLast? h)
  obtain ⟨hmem, hmade⟩ := List.mem_filter.mp ha
  rw [callsOf_eq]
  exact ⟨List.mem_map_of_mem hmem, of_decide_eq_true (Bool.and_eq_true_iff.mp hmade).2⟩

theorem exists_makingOf_append (h : ∃ c, makingOf ms disk = some c) (ms' : List Moment) :
    ∃ c, makingOf (ms ++ ms') disk = some c := by
  obtain ⟨c, hc⟩ := h
  rw [makingOf_append, hc]
  cases makingOf ms' disk with
  | none => exact ⟨c, rfl⟩
  | some c' => exact ⟨c', rfl⟩

end

/-! ## disks appear by calls only -/

section
variable {σ : Type} {backend : Backend σ} {r : Trail} {force : Bool} {l : Layer} {dir : Path} {d : Trail}
  {calls : List Call} {fs fs' : FileSystem} {ms : List Moment} {c : Call}

/-- where something stands that did not, the first call for it was made -/
theorem Remade.appears {res : Except BuildError Unit} (h : Remade backend l dir d calls fs res ms fs')
    (hc : calls.head? = some c) (hnode : fs'.node? (l.diskTrail d) ≠ none) :
    fs.node? (l.diskTrail d) ≠ none ∨ c ∈ callsOf ms := by
  rw [callsOf_eq]
  cases h with
  | stuck => exact Or.inl hnode
  | refused _ _ _ _ hold => exact Or.inl (hold hnode)
  | orphaned _ _ _ _ hnone => exact absurd hnone hnode
  | failed hans _ _ => exact Or.inr (hans.head_mem hc)
  | made hans => exact Or.inr (hans.head_mem hc)

theorem Realized.appears {res : Except BuildError StepStatus}
    (h : Realized backend r force l dir d calls fs res ms fs') (hd : l.diskTrail d ∉ Store.lockTrails r)
    (hc : calls.head? = some c) (hnode : fs'.node? (l.diskTrail d) ≠ none) :
    fs.node? (l.diskTrail d) ≠ none ∨ c ∈ callsOf ms := by
  cases h with
  | found => exact Or.inl hnode
  | locked _ _ hw _ =>
    rw [hw.same _ hd] at hnode
    exact Or.inl hnode
  | remade _ _ hw _ hm _ _ =>
    rw [← hw.same _ hd, callsOf_append, callsOf_append]
    exact (hm.appears hc hnode).imp_right fun hmem =>
      List.mem_append_right _ (List.mem_append_left _ hmem)

end

/-! ## disks that are what their names tell -/

namespace Store
variable (s : Store) (r : Trail) (fs : FileSystem) (ms : List Moment)

/-- A name among the layers is accounted for: it is that of a marker, or of a disk that a call was to
make. -/
def Accounts (name : String) : Prop :=
  ∃ key : Identity, isValidName key.name = true ∧ (name = markerName key.name ∨
    name = diskName key.name ∧ ∃ c ∈ callsOf ms, c.makes? = some (s.layerPath key))

/-- Nothing stands among the layers but markers, and disks that calls were to make.  Each of these calls
was to make its disk in the way that the key tells, and where a disk is whole one has succeeded. -/
structure TellsKinds : Prop where
  calls : ∀ c ∈ callsOf ms, ∀ key : Identity, isValidName key.name = true →
    c.makes? = some (s.layerPath key) → c.Makes (s.layerPath key) key.kind
  names : ∀ name, fs.node? (name :: layersDir :: r) ≠ none → s.Accounts ms name
  whole : ∀ key : Identity, isValidName key.name = true → fs.isWhole (s.layerPath key) = true →
    ∃ c, makingOf ms (s.layerPath key) = some c

variable {s r fs ms} {fs' : FileSystem} {ms' : List Moment}

theorem Accounts.before {name : String} (h : s.Accounts ms name) (ms' : List Moment) :
    s.Accounts (ms ++ ms') name := by
  obtain ⟨key, hv, hname⟩ := h
  rw [Accounts, callsOf_append]
  exact ⟨key, hv, hname.imp_right fun ⟨he, c, hc, hm⟩ => ⟨he, c, List.mem_append_left _ hc, hm⟩⟩

theorem Accounts.behind {name : String} (h : s.Accounts ms' name) (ms : List Moment) :
    s.Accounts (ms ++ ms') name := by
  obtain ⟨key, hv, hname⟩ := h
  rw [Accounts, callsOf_append]
  exact ⟨key, hv, hname.imp_right fun ⟨he, c, hc, hm⟩ => ⟨he, c, List.mem_append_right _ hc, hm⟩⟩

namespace TellsKinds

/-- a disk was made in the way that its key tells -/
theorem makes (h : s.TellsKinds r fs ms) {key : Identity} (hv : isValidName key.name = true)
    (hmade : ∃ c, makingOf ms (s.layerPath key) = some c) :
    MadeAs ms (s.layerPath key) key.kind := by
  obtain ⟨c, hc⟩ := hmade
  obtain ⟨hmem, hm⟩ := mem_callsOf_of_makingOf hc
  exact ⟨c, hc, h.calls c hmem key hv hm⟩

/-- more calls, each in the way that the key tells, with which what is new is accounted for -/
theorem after (h : s.TellsKinds r fs ms)
    (hcalls : ∀ c ∈ callsOf ms', ∀ key : Identity, isValidName key.name = true →
      c.makes? = some (s.layerPath key) → c.Makes (s.layerPath key) key.kind)
    (hnames : ∀ name, fs'.node? (name :: layersDir :: r) ≠ none →
      fs.node? (name :: layersDir :: r) ≠ none ∨ s.Accounts ms' name)
    (hwhole : ∀ key : Identity, isValidName key.name = true → fs'.isWhole (s.layerPath key) = true →
      fs.isWhole (s.layerPath key) = true ∨ ∃ c, makingOf ms' (s.layerPath key) = some c) :
    s.TellsKinds r fs' (ms ++ ms') where
  calls c hc key hv hm := by
    rw [callsOf_append] at hc
    rcases List.mem_append.mp hc with hc | hc
    · exact h.calls c hc key hv hm
    · exact hcalls c hc key hv hm
  names name hname := by
    rcases hnames name hname with hold | hnew
    · exact (h.names name hold).before ms'
    · exact hnew.behind ms
  whole key hv hkey := by
    rcases hwhole key hv hkey with hold | ⟨c, hc⟩
    · exact exists_makingOf_append (h.whole key hv hold) ms'
    · rw [makingOf_append, hc]
      exact ⟨c, rfl⟩

/-- nothing happens among the layers, and no call is for one of them -/
theorem of_keeps (h : s.TellsKinds r fs ms)
    (hcalls : ∀ c ∈ callsOf ms', ∀ key : Identity, isValidName key.name = true →
      c.makes? ≠ some (s.layerPath key))
    (hsame : ∀ name, fs'.node? (name :: layersDir :: r) = fs.node? (name :: layersDir :: r))
    (hkeep : ∀ key, isValidName key.name = true → s.KeepsLayer key fs fs') :
    s.TellsKinds r fs' (ms ++ ms') := by
  refine h.after (fun c hc key hv hm => absurd hm (hcalls c hc key hv)) (fun name hname => Or.inl ?_)
    fun key hv hwhole => Or.inl ?_
  · rwa [← hsame name]
  · rwa [← (hkeep key hv).isWhole_eq]

theorem of_isEmpty (h : s.IsEmpty fs) (hs : s.StandsAt r fs) : s.TellsKinds r fs [] where
  calls c hc := absurd hc List.not_mem_nil
  names name hname := absurd (h.node? hs (by simp [directories]) name) hname
  whole key hv hwhole := by
    rw [layerPath, FileSystem.isWhole_join hs.layers hv] at hwhole
    obtain ⟨⟨-, b, c, hnode⟩, -⟩ := hwhole
    rw [h.node? hs (by simp [directories])] at hnode
    cases hnode

end TellsKinds

end Store

section
variable {σ : Type} {backend : Backend σ} {s : Store} {r : Trail} {force : Bool} {below : Option Identity}
  {op : Operation} {key : Identity} {fs fs' : FileSystem} {ms ms' : List Moment}

/-- One step of a build whose key tells its kind leaves disks that are what their names tell. -/
theorem Climbed.tellsKinds {res : Except BuildError StepStatus}
    (h : Climbed backend s r force below op key fs res ms' fs') (ht : s.TellsKinds r fs ms)
    (hs : s.StandsAt r fs) (hk : nextKey below op = .ok key) (hkind : key.kind = op.kind) :
    s.TellsKinds r fs' (ms ++ ms') := by
  obtain ⟨l, hfor, hreal⟩ := h.realized
  have hv := isValidName_nextKey hk
  have htrail : l.diskTrail (Store.layersDir :: r) = diskName key.name :: Store.layersDir :: r := by
    rw [Layer.diskTrail, hfor.identity]
  refine ht.after (fun c hc k hvk hm => ?_) (fun name hname => ?_) fun k hvk hwhole => ?_
  · rw [callsOf_eq] at hc
    obtain ⟨a, ha, rfl⟩ := List.mem_map.mp hc
    have hcall := hreal.mem_calls ha
    have hmakes := Operation.makes_of_mem_callsOn hk hcall hm
    have hdisk := (Operation.target?_of_mem_callsOn hcall).symm.trans (Call.target?_of_makes? hm)
    rw [← s.layerPath_inj hv hvk (Option.some.inj hdisk), hkind]
    rwa [← s.layerPath_inj hv hvk (Option.some.inj hdisk)] at hmakes
  · by_cases hmem : name :: Store.layersDir :: r ∈ Store.keyTrails r [key]
    · rcases hmem with ⟨k, hkmem, hmem | hmem⟩ | hmem
      · -- the disk of the step was there, or a call for it was made
        obtain rfl := List.mem_singleton.mp hkmem
        obtain ⟨c, hhead, hmakes⟩ := @Operation.head?_callsOn s below op k (s.layerPath k) hk
        rw [hmem, ← htrail] at hname
        have hout : l.diskTrail (Store.layersDir :: r) ∉ Store.lockTrails r :=
          Store.not_mem_lockTrails (by decide) _
        rcases hreal.appears hout hhead hname with hold | hcall
        · rw [hmem, ← htrail]
          exact Or.inl hold
        · exact Or.inr ⟨k, hv, Or.inr ⟨(List.cons.inj hmem).1, c, hcall, hmakes⟩⟩
      · obtain rfl := List.mem_singleton.mp hkmem
        exact Or.inr ⟨k, hv, Or.inl (List.cons.inj hmem).1⟩
      · exact absurd hmem (Store.not_mem_lockTrails (by decide) _)
    · left
      rwa [← h.within.same _ hmem]
  · by_cases hkey : k = key
    · subst hkey
      rw [← hfor.location] at hwhole
      rcases hreal.kept_or_made hwhole with ⟨-, hw⟩ | hans
      · have hlocks : Store.lockTrails r ⊆ Store.keyTrails r [] := Store.lockTrails_subset_keyTrails
        left
        rw [← (Store.KeepsLayer.of_within hs hv List.not_mem_nil (hw.mono hlocks)).isWhole_eq,
          ← hfor.location]
        exact hwhole
      · obtain ⟨c, hhead, hmakes⟩ := @Operation.head?_callsOn s below op k (s.layerPath k) hk
        right
        rw [makingOf_of_answered hans]
        refine Option.ne_none_iff_exists'.mp fun hnone => ?_
        have hnil := List.getLast?_eq_none_iff.mp hnone
        rw [List.filter_eq_nil_iff] at hnil
        exact hnil c (List.mem_of_head? hhead) (decide_eq_true hmakes)
    · left
      have hne : k ∉ [key] := fun hmem => hkey (List.mem_singleton.mp hmem)
      rwa [← (Store.KeepsLayer.of_within hs hvk hne h.within).isWhole_eq]

/-- setting a tag does, too -/
theorem Store.TellsKinds.ended {tag : Option String} {res : Except BuildError Unit}
    (ht : s.TellsKinds r fs ms) (h : Ended backend s r key tag fs res ms' fs') (hs : s.StandsAt r fs)
    (htag : ∀ name, tag = some name → isValidName name = true) : s.TellsKinds r fs' (ms ++ ms') := by
  refine ht.of_keeps (fun c hc k hv hm => ?_)
    (fun name => h.within.same _ (Store.not_mem_tagTrails (by decide) (by decide) name))
    fun k hv => .of_tags hs hv h.within
  cases tag with
  | none =>
    obtain ⟨-, rfl⟩ := h.none rfl
    exact absurd hc List.not_mem_nil
  | some name =>
    obtain ⟨l, -, -, htagged⟩ := h.some name rfl
    rw [callsOf_eq] at hc
    obtain ⟨a, ha, rfl⟩ := List.mem_map.mp hc
    rw [List.mem_singleton.mp (htagged.mem_calls ha)] at hm
    exact Store.layerPath_ne_tagPath hv (htag name rfl) (Option.some.inj hm).symm

/-- The disks that steps have reused were made, and their keys tell the kinds of the steps. -/
def Store.ReusesMade (s : Store) (ms : List Moment) (ops : List Operation) (reports : List StepReport) :
    Prop :=
  ∀ (i : Nat) (op : Operation) (report : StepReport), ops[i]? = some op → reports[i]? = some report →
    report.status = .cached → isValidName report.identity.name = true ∧
      report.identity.kind = op.kind ∧ ∃ c, makingOf ms (s.layerPath report.identity) = some c

/-- Steps one after the other leave disks that are what their names tell, and reuse such disks.  By
induction on the steps: those above the first are for derived layers. -/
theorem Ascent.tellsKinds {ops : List Operation} {res : Except BuildError Unit} {reports : List StepReport}
    (h : Ascent backend s r force below ops fs res reports ms' fs') (ht : s.TellsKinds r fs ms)
    (hs : s.StandsAt r fs) (hplain : below = none → HasPlainBase ops) :
    s.TellsKinds r fs' (ms ++ ms') ∧ s.ReusesMade (ms ++ ms') ops reports := by
  have hfirst : ∀ {below : Option Identity} {op : Operation} {ops : List Operation} {key : Identity},
      nextKey below op = .ok key → (below = none → HasPlainBase (op :: ops)) → key.kind = op.kind :=
    fun hk hplain => kind_of_nextKey hk fun hnone => by
      subst hnone
      exact hplain rfl _ (baseKey?_of_nextKey hk _)
  have hnone : ∀ {ms : List Moment} {ops : List Operation}, s.ReusesMade ms ops [] :=
    fun i op report _ hr => by cases hr
  induction h generalizing ms with
  | top | halted =>
    rw [List.append_nil]
    exact ⟨ht, hnone⟩
  | fallen hk hclimb => exact ⟨hclimb.tellsKinds ht hs hk (hfirst hk hplain), hnone⟩
  | @step below op ops key fs status ms₁ fs₁ res reports ms₂ fs₂ hk hclimb hasc ih =>
    have hkind := hfirst hk hplain
    obtain ⟨hend, hreports⟩ := ih (hclimb.tellsKinds ht hs hk hkind) (hs.within hclimb.within)
      (fun hnone => by cases hnone)
    rw [← List.append_assoc]
    refine ⟨hend, fun i op' report hop hreport hcached => ?_⟩
    cases i with
    | succ i => exact hreports i op' report hop hreport hcached
    | zero =>
      cases hop
      cases hreport
      obtain ⟨l, hfor, hreal⟩ := hclimb.realized
      have hv := isValidName_nextKey hk
      have hreused : isReusable force l fs = true := by
        by_contra hnot
        have hstatus := hreal.status_eq
        rw [if_neg hnot] at hstatus
        cases hcached.symm.trans hstatus
      rw [hfor.isReusable_eq, Bool.and_eq_true] at hreused
      refine ⟨hv, hkind, ?_⟩
      rw [List.append_assoc]
      exact exists_makingOf_append (ht.whole key hv hreused.2) _

theorem Raised.tellsKinds {ops : List Operation} {tag : Option String}
    {res : Except BuildError BuildOutcome} {reports : List StepReport}
    (h : Raised backend s r force ops tag fs res reports ms' fs') (ht : s.TellsKinds r fs ms)
    (hs : s.StandsAt r fs) (hplain : HasPlainBase ops)
    (htag : ∀ name, tag = some name → isValidName name = true) :
    s.TellsKinds r fs' (ms ++ ms') ∧ ∀ o, res = .ok o → s.ReusesMade (ms ++ ms') ops o.steps := by
  cases h with
  | fallen hasc => exact ⟨(hasc.tellsKinds ht hs fun _ => hplain).1, fun o ho => by cases ho⟩
  | @ended _ _ _ _ res₁ _ _ _ hasc _ hended herr hok =>
    obtain ⟨hend, hreports⟩ := hasc.tellsKinds ht hs fun _ => hplain
    rw [← List.append_assoc]
    refine ⟨hend.ended hended (hs.within hasc.within.1) htag, fun o ho => ?_⟩
    cases res₁ with
    | error e =>
      rw [herr e rfl] at ho
      cases ho
    | ok u =>
      obtain ⟨o', ho', hsteps⟩ := hok rfl
      rw [ho] at ho'
      cases ho'
      rw [hsteps]
      intro i op report hop hreport hcached
      obtain ⟨hv, hkind, hmade⟩ := hreports i op report hop hreport hcached
      exact ⟨hv, hkind, exists_makingOf_append hmade _⟩

end

/-! ## builds, one after the other -/

/-- A store is there, nobody else is at work in it, and its disks are what their names tell. -/
structure Store.Told (s : Store) (r : Trail) (current : Path) (w : World σ) (ms : List Moment) : Prop where
  stands : s.StandsAt r w.files
  here : w.files.currentPath = current
  undisturbed : w.Undisturbed
  kinds : s.TellsKinds r w.files ms

namespace Store.Told
variable {σ : Type} {backend : Backend σ} {s : Store} {r : Trail} {current : Path} {w : World σ}
  {ms : List Moment} (hb : backend.Confined) (hl : backend.LeavesFiles) (ha : s.root.isAbsolute = true)
include hb hl ha

theorem ends_build (h : s.Told r current w ms) {config : BuildConfig} {ops : List Operation}
    (tag : Option String) (hroot : config.storeRoot.absolute? current = some s.root)
    (hplain : HasPlainBase ops) :
    (build backend config ops tag).Ends w fun res ms' w' =>
      s.Told r current w' (ms ++ ms') ∧ ∀ o, res = .ok o → s.ReusesMade (ms ++ ms') ops o.steps := by
  by_cases htag : ∀ name, tag = some name → isValidName name = true
  · refine (ends_build_standing hb hl h.undisturbed h.stands ha (h.here ▸ hroot)).mono ?_
    rintro res ms' w' ⟨hleaves, ⟨rfl, rfl, ⟨e, rfl⟩, -⟩ | ⟨ms', rfl, hraised⟩⟩
    · rw [List.append_nil]
      exact ⟨h, fun o ho => by cases ho⟩
    · have hopened : s.TellsKinds r w.files (ms ++ s.opening w.files) :=
        h.kinds.of_keeps (fun c hc => absurd hc List.not_mem_nil) (fun _ => rfl) fun _ _ => ⟨rfl, rfl⟩
      obtain ⟨hend, hreports⟩ := hraised.tellsKinds hopened h.stands hplain htag
      have hw := hraised.within.1
      rw [← List.append_assoc]
      refine ⟨⟨h.stands.within hw, ?_, hleaves.undisturbed h.undisturbed, hend⟩, hreports⟩
      rw [← h.here, FileSystem.currentPath, FileSystem.currentPath, hw.current]
  · obtain ⟨e, hrefused⟩ := build_refused backend config ops tag w fun hok => htag hok.2
    refine Act.ends_of_runIn hrefused ?_
    rw [List.append_nil]
    exact ⟨h, fun o ho => by cases ho⟩

theorem runBuilds {bs : List BuildRequest} (h : s.Told r current w ms)
    (hroot : ∀ b ∈ bs, b.config.storeRoot.absolute? current = some s.root)
    (hplain : ∀ b ∈ bs, HasPlainBase b.ops) :
    ∃ ms', (DiskLayers.runBuilds backend bs w).journal = w.journal ++ ms' ∧
      s.Told r current (DiskLayers.runBuilds backend bs w) (ms ++ ms') := by
  induction bs generalizing w ms with
  | nil => exact ⟨[], (List.append_nil _).symm, by rwa [List.append_nil]⟩
  | cons b bs ih =>
    obtain ⟨ms₁, hj, -, h₁, -⟩ := h.ends_build hb hl ha b.tag (hroot b List.mem_cons_self)
      (hplain b List.mem_cons_self)
    obtain ⟨ms₂, hj', h₂⟩ := ih h₁ (fun b' hb' => hroot b' (List.mem_cons_of_mem b hb'))
      fun b' hb' => hplain b' (List.mem_cons_of_mem b hb')
    refine ⟨ms₁ ++ ms₂, ?_, ?_⟩
    · rw [← List.append_assoc, ← hj]
      exact hj'
    · rw [← List.append_assoc]
      exact h₂

end Store.Told

/-- what is planned to be reused was made, and its key tells the kind of the step -/
theorem Store.TellsKinds.plan {s : Store} {r : Trail} {fs : FileSystem} {ms : List Moment}
    {ops : List Operation} {steps : List PlannedStep} (ht : s.TellsKinds r fs ms)
    (hplan : DiskLayers.plan s fs ops = .ok steps) (hplain : HasPlainBase ops) (i : Nat) (op : Operation)
    (p : PlannedStep) (hop : ops[i]? = some op) (hp : steps[i]? = some p) (hcached : p.cached = true) :
    isValidName p.identity.name = true ∧ p.identity.kind = op.kind ∧
      ∃ c, makingOf ms (s.layerPath p.identity) = some c := by
  rw [plan_eq] at hplan
  split at hplan
  · cases hplan
  have hkeys := keysFrom_of_planFrom hplan
  have hkey : (keysFrom none ops)[i]? = some p.identity := by
    rw [hkeys, List.getElem?_map, hp]
    rfl
  have hv := isValidName_of_mem_keysFrom (List.mem_of_getElem? hkey)
  refine ⟨hv, kind_of_keysFrom (fun _ => hplain) hop hkey, ht.whole p.identity hv ?_⟩
  rw [← cached_of_planFrom hplan (List.mem_of_getElem? hp)]
  exact hcached

/-! ## what is listed -/

namespace Store
variable {s : Store} {r : Trail} {fs : FileSystem} {ms : List Moment}

theorem storedName?_diskName {name : String} (h : isValidName name = true) :
    storedName? (diskName name) = some name := by
  obtain ⟨hext, hstem⟩ := splitExtension_of_valid h (isPlain_diskName h) (by decide) (by decide)
  rw [storedName?, diskName, hext, hstem]
  exact if_pos rfl

theorem storedName?_markerName {name : String} (h : isValidName name = true) :
    storedName? (markerName name) = none := by
  obtain ⟨hext, -⟩ := splitExtension_of_valid h (isPlain_markerName h) (by decide) (by decide)
  rw [storedName?, markerName, hext]
  exact if_neg (by decide)

theorem scan_eq {dir : Path} {d : Trail} (h : fs.lookup dir = .ok (d, .dir)) (tags : Bool) :
    scan fs dir tags = .ok ((fs.children d).filterMap (storedDisk? fs dir tags)) := by
  have hread : fs.readDirectory dir = .ok (fs.children d) := by
    rw [FileSystem.readDirectory, h]
    rfl
  rw [scan, hread]

theorem kind_of_storedDisk? {dir : Path} {tags : Bool} {file : String} {disk : StoredDisk}
    (h : storedDisk? fs dir tags file = some disk) : disk.kind = .tag ↔ tags = true := by
  obtain ⟨name, -, rfl⟩ := Option.map_eq_some_iff.mp h
  cases tags with
  | true => exact iff_of_true rfl rfl
  | false => exact iff_of_false (Identity.kind_ne_tag ⟨name⟩) (by simp)

theorem StandsAt.list_eq (hs : s.StandsAt r fs) : s.list fs = .ok
    (((fs.children (layersDir :: r)).filterMap (storedDisk? fs (s.root.join layersDir) false) ++
      (fs.children (tagsDir :: r)).filterMap (storedDisk? fs (s.root.join tagsDir) true)).mergeSort
        StoredDisk.le) := by
  rw [list, scan_eq hs.layers, scan_eq hs.tags]
  rfl

theorem StandsAt.mem_list (hs : s.StandsAt r fs) {disks : List StoredDisk} (h : s.list fs = .ok disks)
    {disk : StoredDisk} (hkind : disk.kind ≠ .tag) :
    disk ∈ disks ↔ ∃ file, fs.node? (file :: layersDir :: r) ≠ none ∧
      storedDisk? fs (s.root.join layersDir) false file = some disk := by
  rw [hs.list_eq] at h
  rw [← Except.ok.inj h, List.mem_mergeSort, List.mem_append, List.mem_filterMap, List.mem_filterMap]
  constructor
  · rintro (⟨file, hfile, hdisk⟩ | ⟨file, -, hdisk⟩)
    · exact ⟨file, FileSystem.mem_children.mp hfile, hdisk⟩
    · exact absurd ((kind_of_storedDisk? hdisk).mpr rfl) hkind
  · rintro ⟨file, hfile, hdisk⟩
    exact Or.inl ⟨file, FileSystem.mem_children.mpr hfile, hdisk⟩

/-- Where disks are what their names tell, they are listed as what they are. -/
theorem TellsKinds.list (h : s.TellsKinds r fs ms) (hs : s.StandsAt r fs) :
    ∃ disks, s.list fs = .ok disks ∧
      (∀ key : Identity, isValidName key.name = true → fs.isPresent (s.layerPath key) = true →
        ∃ disk ∈ disks, disk.kind ≠ .tag ∧ disk.path = s.layerPath key) ∧
      ∀ disk ∈ disks, disk.kind ≠ .tag → ∀ kind : LayerKind, kind ≠ .tag →
        (disk.kind = kind ↔ ∃ c ∈ callsOf ms, c.Makes disk.path kind) := by
  have hlist := hs.list_eq
  have hstored : ∀ {key : Identity}, isValidName key.name = true → ∃ disk : StoredDisk,
      storedDisk? fs (s.root.join layersDir) false (diskName key.name) = some disk ∧
        disk.kind = key.kind ∧ disk.path = s.layerPath key := fun hv => by
    rw [storedDisk?, storedName?_diskName hv]
    exact ⟨_, rfl, rfl, rfl⟩
  refine ⟨_, hlist, fun key hv hpresent => ?_, fun disk hdisk hne kind hkind => ?_⟩
  · obtain ⟨disk, hdisk, hkind, hpath⟩ := hstored hv
    have hne : disk.kind ≠ .tag := hkind ▸ key.kind_ne_tag
    have hnode := ((FileSystem.isPresent_join hs.layers (isPlain_diskName hv)).mp hpresent).2
    exact ⟨disk, (hs.mem_list hlist hne).mpr ⟨_, hnode, hdisk⟩, hne, hpath⟩
  · obtain ⟨file, hnode, hfile⟩ := (hs.mem_list hlist hne).mp hdisk
    obtain ⟨key, hv, rfl | ⟨rfl, c, hc, hm⟩⟩ := h.names file hnode
    · rw [storedDisk?, storedName?_markerName hv] at hfile
      cases hfile
    obtain ⟨disk', hdisk', hkey, hpath⟩ := hstored hv
    rw [hfile] at hdisk'
    cases hdisk'
    rw [hkey, hpath]
    constructor
    · rintro rfl
      exact ⟨c, hc, h.calls c hc key hv hm⟩
    · rintro ⟨c', hc', hmakes⟩
      exact (h.calls c' hc' key hv hmakes.makes?).kind_eq hmakes key.kind_ne_tag hkind

end Store

/-- Whatever builds were done in a store that was empty, and however they ended, if none of their base
images has a key that looks like a derived one: no such key is that of a derived layer; what is listed
among the layers as a base image was to be made from an image, and what is listed as derived, on top of
another disk; and a step, planned or done, that finds its disk finds one that was made in the way of the
step. -/
theorem kinds_kept_apart {σ : Type} {backend : Backend σ} {s : Store} {w : World σ}
    {bs : List BuildRequest} (hb : backend.Confined) (hl : backend.LeavesFiles) (hu : w.Undisturbed)
    (ha : s.root.isAbsolute = true) (hempty : s.IsEmpty w.files)
    (hroot : ∀ b ∈ bs, b.config.storeRoot.absolute? w.files.currentPath = some s.root)
    (hplain : ∀ b ∈ bs, HasPlainBase b.ops) :
    let v := runBuilds backend bs w
    (∀ ops key, HasPlainBase ops → baseKey? ops = some key →
      ∀ (parent : Identity) (op : Operation), key ≠ parent.derive op) ∧
    ∃ ms, v.journal = w.journal ++ ms ∧
      (∃ disks, s.list v.files = .ok disks ∧
        (∀ key, isValidName key.name = true → v.files.isPresent (s.layerPath key) = true →
          ∃ disk ∈ disks, disk.kind ≠ .tag ∧ disk.path = s.layerPath key) ∧
        ∀ disk ∈ disks, disk.kind ≠ .tag →
          (disk.kind = .base ↔ ∃ c ∈ callsOf ms, c.Makes disk.path .base) ∧
          (disk.kind = .derived ↔ ∃ c ∈ callsOf ms, c.Makes disk.path .derived)) ∧
      ∀ ops, HasPlainBase ops →
        (∀ steps, plan s v.files ops = .ok steps → ∀ (i : Nat) op p, ops[i]? = some op →
          steps[i]? = some p → p.cached = true → MadeAs ms (s.layerPath p.identity) op.kind) ∧
        ∀ config tag, config.storeRoot.absolute? w.files.currentPath = some s.root →
          let out := (build backend config ops tag).runIn v
          ∃ ms', out.2.journal = v.journal ++ ms' ∧
            ∀ o, out.1 = .ok o → ∀ (i : Nat) op report, ops[i]? = some op →
              o.steps[i]? = some report → report.status = .cached →
                MadeAs (ms ++ ms') (s.layerPath report.identity) op.kind := by
  intro v
  refine ⟨fun ops key hplain hkey parent op he => ?_, ?_⟩
  · have hdigest := Identity.isDigest_derive parent op
    rw [← he, hplain key hkey] at hdigest
    cases hdigest
  obtain ⟨r, hs⟩ := hempty.standsAt ha
  have htold : s.Told r w.files.currentPath w [] := ⟨hs, rfl, hu, .of_isEmpty hempty hs⟩
  obtain ⟨ms, hj, hv⟩ := htold.runBuilds hb hl ha hroot hplain
  rw [List.nil_append] at hv
  obtain ⟨disks, hlist, hlisted, hkinds⟩ := hv.kinds.list hv.stands
  refine ⟨ms, hj, ⟨disks, hlist, hlisted, fun disk hdisk hne => ⟨?_, ?_⟩⟩, fun ops hplain' => ⟨?_, ?_⟩⟩
  · exact hkinds disk hdisk hne .base (by simp)
  · exact hkinds disk hdisk hne .derived (by simp)
  · intro steps hplan i op p hop hp hcached
    obtain ⟨hvalid, hkind, hmade⟩ := hv.kinds.plan hplan hplain' i op p hop hp hcached
    rw [← hkind]
    exact hv.kinds.makes hvalid hmade
  · intro config tag hconfig out
    obtain ⟨ms', hj', -, hend, hreports⟩ := hv.ends_build hb hl ha tag hconfig hplain'
    refine ⟨ms', hj', fun o ho i op report hop hreport hcached => ?_⟩
    obtain ⟨hvalid, hkind, hmade⟩ := hreports o ho i op report hop hreport hcached
    rw [← hkind]
    exact hend.kinds.makes hvalid hmade

/-- a build of two layers, in a store at the root -/
def BuildRequest.layered : BuildRequest where
  config := { storeRoot := ⟨"/"⟩ }
  ops := [.base "d", .mutate "x"]

/-- Two layers are built, and then again: both are reused, and each is of its kind. -/
theorem kinds_kept_apart_reused :
    let s : Store := ⟨⟨"/"⟩⟩
    let b := BuildRequest.layered
    let v := runBuilds (.touching fun _ => false) [b] (.on .cleared)
    let out := (build (.touching fun _ => false) b.config b.ops b.tag).runIn v
    ∃ base derived : Identity,
      out.1.toOption.map (fun o => o.steps.map fun p => (p.identity, p.status)) =
        some [(base, .cached), (derived, .cached)] ∧
      MadeAs out.2.journal (s.layerPath base) .base ∧
      MadeAs out.2.journal (s.layerPath derived) .derived := by
  have hplain : HasPlainBase BuildRequest.layered.ops := by
    rintro _ ⟨⟩
    decide +kernel
  have hcached : ((build (.touching fun _ => false) BuildRequest.layered.config
      BuildRequest.layered.ops BuildRequest.layered.tag).runIn
        (runBuilds (.touching fun _ => false) [.layered] (.on .cleared))).1.toOption.map
          (fun o => o.steps.map fun p => (p.identity, p.status)) =
      some [(⟨"d"⟩, .cached), (⟨"cda1f71bcdd8b42467a0"⟩, .cached)] := by decide +kernel
  have hapart := @kinds_kept_apart Unit (.touching fun _ => false) ⟨⟨"/"⟩⟩ (.on .cleared) [.layered]
    (Backend.confined_touching _) (Backend.leavesFiles_touching _) (World.undisturbed_on _) (by decide)
    (by decide +kernel) (by decide +kernel)
    fun b hb => by rw [List.mem_singleton.mp hb]; exact hplain
  dsimp only at hapart ⊢
  generalize runBuilds (.touching fun _ => false) [.layered] (.on .cleared) = v at hcached hapart ⊢
  obtain ⟨-, ms, hj, -, hall⟩ := hapart
  obtain ⟨ms', hj', hreports⟩ := (hall BuildRequest.layered.ops hplain).2 BuildRequest.layered.config
    BuildRequest.layered.tag (by decide +kernel)
  generalize (build (.touching fun _ => false) BuildRequest.layered.config BuildRequest.layered.ops
    BuildRequest.layered.tag).runIn v = out at hcached hj' hreports ⊢
  obtain ⟨res, w⟩ := out
  refine ⟨_, _, hcached, ?_⟩
  cases res with
  | error e => cases hcached
  | ok o =>
    have hsteps := Option.some.inj hcached
    -- the report at a place, from what is known of all
    have hreport : ∀ (i : Nat) key, [(⟨"d"⟩, StepStatus.cached), (⟨"cda1f71bcdd8b42467a0"⟩, .cached)][i]? =
        some (key, .cached) → ∃ report, o.steps[i]? = some report ∧ report.identity = key ∧
          report.status = .cached := fun i key hkey => by
      rw [← hsteps, List.getElem?_map] at hkey
      obtain ⟨report, hr, he⟩ := Option.map_eq_some_iff.mp hkey
      exact ⟨report, hr, (Prod.mk.inj he).1, (Prod.mk.inj he).2⟩
    obtain ⟨report, hr, hkey, hstatus⟩ := hreport 0 _ rfl
    obtain ⟨report', hr', hkey', hstatus'⟩ := hreport 1 _ rfl
    have hjournal : w.journal = ms ++ ms' := by
      rw [show w.journal = v.journal ++ ms' from hj', hj]
      rfl
    rw [hjournal, ← hkey, ← hkey']
    exact ⟨hreports o rfl 0 _ report rfl hr hstatus, hreports o rfl 1 _ report' rfl hr' hstatus'⟩

/-- An image whose reference looks like a derived key: where such a layer is, it is taken for the image,
and where none is, the image is listed as derived. -/
theorem base_taken_for_derived :
    let s : Store := ⟨⟨"/"⟩⟩
    let config : BuildConfig := { storeRoot := ⟨"/"⟩ }
    let ops := [Operation.base "cda1f71bcdd8b42467a0"]
    let key : Identity := ⟨"cda1f71bcdd8b42467a0"⟩
    let v := runBuilds (.touching fun _ => false) [.layered] (.on .cleared)
    let out := (build (.touching fun _ => false) config ops none).runIn v
    let alone := (build (.touching fun _ => false) config ops none).runIn (.on .cleared)
    baseKey? ops = some ((⟨"d"⟩ : Identity).derive (.mutate "x")) ∧
      out.1.toOption.map (fun o => o.steps.map fun p => (p.identity, p.status)) = some [(key, .cached)] ∧
      makingOf out.2.journal (s.layerPath key) =
        some (.snapshot (s.layerPath ⟨"d"⟩) (s.layerPath key)) ∧
      callsOf alone.2.journal = [.materialize "cda1f71bcdd8b42467a0" diskFormat (s.layerPath key)] ∧
      (s.list alone.2.files).toOption.map (List.map fun disk => (disk.name, disk.kind)) =
        some [(key.name, .derived)] := by
  decide +kernel

end DiskLayers
