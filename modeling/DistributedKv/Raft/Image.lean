import DistributedKv.Cluster.Model
import DistributedKv.Lib.Run
import DistributedKv.Raft.Payload
import DistributedKv.Raft.Restart
import DistributedKv.Raft.WellFormed

/-!
The state machine as the image of the log. `Env.applyAll` applies a list of
entries to an empty state machine; `store_is_image` says that outside the apply
loop's window between selecting and checkpointing an entry the state machine is
the image of the entries up to `lastApplied`, as long as no snapshot is installed
while a selected command waits to be applied. `stale_apply_mixes_images` shows
what such an installation leads to.
-/

namespace DistributedKv

open Crash Prog

variable {σ : Type} {env : Env σ} {r r' : Raft σ} {d d' : Disk}

/-! ## Images -/

/-- `Apply` of an entry; no-ops do not reach the state machine. -/
def Env.applyOne (env : Env σ) (st : σ) (e : LogEntry) : Except String σ :=
  if e.operation = .noop then .ok st
  else
    match env.applier with
    | none => .error "no applier"
    | some f => f e st

/-- An empty state machine after the entries, in order. -/
def Env.applyAll (env : Env σ) (l : List LogEntry) : Except String σ :=
  l.foldlM env.applyOne env.initial

theorem Env.applyAll_concat {l : List LogEntry} {st : σ} (h : env.applyAll l = .ok st)
    (e : LogEntry) : env.applyAll (l ++ [e]) = env.applyOne st e := by
  unfold applyAll at h ⊢
  rw [List.foldlM_append, h]
  change env.applyOne st e >>= pure = _
  rw [bind_pure]

/-- What snapshots of the entries in `Good` are restored to, if anything. -/
def Env.RoundTrip (env : Env σ) (Good : List LogEntry → Prop) : Prop :=
  ∀ {l st sn data}, Good l → env.applyAll l = .ok st → env.snapshotter = some sn →
    sn.snapshot st = .ok data → sn.restore data = .ok st

/-- The image of some entries is what they make of an empty state machine. Data
encodes entries in `Good` if it is restored to their image. -/
def Env.images (env : Env σ) (Good : List LogEntry → Prop) (h : env.RoundTrip Good) :
    Imaging env where
  Image l st := env.applyAll l = .ok st
  Encodes l data := Good l → ∀ sn, env.snapshotter = some sn →
    ∃ st, sn.restore data = .ok st ∧ env.applyAll l = .ok st
  initial := rfl
  noop hl hop := by rw [Env.applyAll_concat hl, Env.applyOne, if_pos hop]
  apply hf hl hop hst := by
    rw [Env.applyAll_concat hl, Env.applyOne, if_neg hop, hf]
    exact hst
  snapshot {s l st data} hs hl hd _ := by
    intro hgood sn hsn
    obtain rfl := Option.some.inj (hs.symm.trans hsn)
    exact ⟨st, h hgood hl hsn hd, hl⟩

/-- Nothing is asked of snapshots. -/
def Env.plainImages (env : Env σ) : Imaging env := env.images (fun _ => False) nofun

/-- The snapshot is the image of its entries, and these agree with the committed
entries of the receiver. -/
structure Raft.Genuine (env : Env σ) (r : Raft σ) (req : InstallSnapshotRequest) : Prop where
  length : req.covers.length = req.lastIncludedIndex
  term : req.lastIncludedTerm = lastTerm req.covers
  indexed : Indexed 0 req.covers
  valid : ∀ e ∈ req.covers, e.Valid
  image : ∀ sn, env.snapshotter = some sn →
    ∃ st, sn.restore req.data = .ok st ∧ env.applyAll req.covers = .ok st
  agrees : req.covers.take r.commitIndex <+: r.history

theorem Raft.Genuine.installOk {req : InstallSnapshotRequest} (h : r.Genuine env req)
    {Good : List LogEntry → Prop} (hround : env.RoundTrip Good) :
    InstallOk (env.images Good hround) r.history r.commitIndex req :=
  ⟨h.length, h.term, h.indexed, h.valid, fun _ => h.image, h.image _, h.agrees⟩

/-- Files that a stopped node may leave, with a snapshot that is the image of its
entries. -/
def Disk.Genuine (env : Env σ) (d : Disk) : Prop :=
  DiskOk env.plainImages d ∧ Restorable env.plainImages d

theorem Disk.Genuine.empty : Disk.empty.Genuine env :=
  ⟨.empty, fun hs => by cases hs⟩

/-! ## Every life of a node -/

/-- Every snapshot that gets installed is genuine. -/
def Raft.InstallsGenuine (env : Env σ) (r : Raft σ) : Input → Prop
  | .installRequest req => r.Accepts req → r.Genuine env req
  | _ => True

/-- No snapshot gets installed while a selected command waits to be applied. -/
def Raft.AppliesFirst (r : Raft σ) : Input → Prop
  | .installRequest req => r.Accepts req → ∀ e, r.apply = .selected e → e.operation = .noop
  | _ => True

theorem inputOk_of_genuine {i : Input} (hg : r.InstallsGenuine env i) (ha : r.AppliesFirst i) :
    InputOk env.plainImages True r i := by
  cases i with
  | installRequest req => exact fun hreq => ⟨(hg hreq).installOk nofun, fun _ => ha hreq⟩
  | _ => trivial

theorem start_running {answers : List Outcome} {d₀ : Disk} {v : σ} (hfiles : d₀.Genuine env)
    (hans : ∀ o ∈ answers, Atomic o) (hstart : start env answers d₀ = .done (.ok r) v d) :
    env.cfg.validate = .ok () ∧ Running env.plainImages True r d := by
  have hcfg : env.cfg.validate = .ok () := ((start_done hstart).2 r rfl).1
  have hsn : ∃ sn, env.snapshotter = some sn := by
    cases hsn : env.snapshotter with
    | some sn => exact ⟨sn, rfl⟩
    | none =>
      simp only [start, newWithSnapshot, hsn] at hstart
      cases hstart
  have hrun := wp_run _ _ answers env.initial d₀ hans
    (newWithSnapshot_spec True hcfg hsn hfiles.1 hfiles.2)
  rw [show (newWithSnapshot env).run answers env.initial d₀ = _ from hstart] at hrun
  exact ⟨hcfg, hrun.1⟩

/-- Outside the apply loop's window the state machine is the image. -/
theorem Running.store_eq {M : Imaging env} (h : Running M True r d) (hidle : r.apply.inHand = none) :
    M.Image (r.history.take r.lastApplied) r.store := by
  have hphase := h.phase
  cases ha : r.apply with
  | selected e => rw [ha] at hidle; cases hidle
  | applied e => rw [ha] at hidle; cases hidle
  | idle => rw [ha] at hphase; exact hphase
  | failed err => rw [ha] at hphase; exact hphase trivial
  | stopped => rw [ha] at hphase; exact hphase trivial
  | snapshotting b => rw [ha] at hphase; exact hphase.1
  | snapshotSaved b => rw [ha] at hphase; exact hphase.1

/-- In every life of a node that installs genuine snapshots only, and none while
a selected command waits to be applied: whenever the apply loop is not between
selecting and checkpointing an entry, the state machine is what the committed
entries up to `lastApplied` make of an empty one. -/
theorem store_is_image {answers : List Outcome} {d₀ : Disk} {v : σ} (hfiles : d₀.Genuine env)
    (hans : ∀ o ∈ answers, Atomic o) (hstart : start env answers d₀ = .done (.ok r) v d)
    {steps : List (Input × List Outcome)} (hsteps : ∀ a ∈ steps, ∀ o ∈ a.2, Atomic o)
    (hgenuine : ∀ k a, steps[k]? = some a → ∀ r' d',
      (live env r d (steps.take k)).process = .up r' d' → r'.InstallsGenuine env a.1)
    (hfirst : ∀ k a, steps[k]? = some a → ∀ r' d',
      (live env r d (steps.take k)).process = .up r' d' → r'.AppliesFirst a.1)
    (hup : (live env r d steps).process = .up r' d') (hidle : r'.apply.inHand = none) :
    r'.lastApplied ≤ r'.commitIndex ∧
      env.applyAll (r'.history.take r'.lastApplied) = .ok r'.store := by
  obtain ⟨hcfg, hrunning⟩ := start_running hfiles hans hstart
  have hlast : Running env.plainImages True r' d' := by
    refine live_induction (fun _ => Running env.plainImages True)
      (fun r _ a => (∀ o ∈ a.2, Atomic o) ∧ InputOk env.plainImages True r a.1)
      hrunning (fun hr hok hrun => (react_done hcfg hr hok.2 hok.1 hrun).1.running) ?_ hup
    intro k a hk r₁ d₁ hup₁
    exact ⟨hsteps a (List.mem_of_getElem? hk),
      inputOk_of_genuine (hgenuine k a hk r₁ d₁ hup₁) (hfirst k a hk r₁ d₁ hup₁)⟩
  exact ⟨hlast.applied_le, hlast.store_eq hidle⟩

/-! ## A selected command on a newer image -/

def setA (index : Nat) : LogEntry := ⟨index, 1, .set, [107], [97]⟩

def setB (index : Nat) : LogEntry := ⟨index, 1, .set, [107], [98]⟩

/-- The snapshot of a leader that has set one key twice. -/
def newerImage : InstallSnapshotRequest := ⟨1, 2, 2, 1, [1, 1, 107, 0, 1, 98, 0], [setA 1, setB 2]⟩

theorem newerImage_genuine {r : Raft (MemoryStore 8)} (hcommit : r.commitIndex = 1)
    (hhistory : r.history = [setA 1]) : r.Genuine ((localCluster 1).env 1) newerImage where
  length := rfl
  term := rfl
  indexed := Indexed.cons.mpr ⟨rfl, Indexed.cons.mpr ⟨rfl, Indexed.nil _⟩⟩
  valid := by
    simp only [newerImage, List.forall_mem_cons]
    exact ⟨rfl, rfl, fun _ he => by cases he⟩
  image := by
    rintro _ ⟨⟩
    exact ⟨_, rfl, rfl⟩
  agrees := by
    rw [hcommit, hhistory]
    exact List.prefix_rfl

/-- The first entry is applied before the snapshot arrives. -/
def orderlyLife : List (Input × List Outcome) :=
  [(.appendRequest ⟨1, 2, 0, 0, [setA 1], 1⟩, []), (.applySelect, []), (.applyEntry, []),
    (.installRequest newerImage, []), (.applyCheckpoint, [])]

theorem store_is_image_orderlyLife :
    ∃ r v d, start ((localCluster 1).env 1) [] .empty = .done (.ok r) v d ∧
      ∃ r' d', (live ((localCluster 1).env 1) r d orderlyLife).process = .up r' d' ∧
        r'.apply.inHand = none ∧ r'.lastApplied = 2 ∧
        ((localCluster 1).env 1).applyAll (r'.history.take r'.lastApplied) = .ok r'.store := by
  refine ⟨_, _, _, rfl, _, _, rfl, rfl, rfl, ?_⟩
  refine (@store_is_image _ ((localCluster 1).env 1) _ _ _ _ [] _ _ .empty (by simp) rfl orderlyLife
    (by simp [orderlyLife]) ?_ ?_ rfl rfl).2
  · refine live_each ⟨fun _ _ _ => trivial, fun _ _ _ => trivial, fun _ _ _ => trivial, ?_,
      fun _ _ _ => trivial, trivial⟩
    rintro _ _ ⟨⟩ _
    exact newerImage_genuine rfl rfl
  · refine live_each ⟨fun _ _ _ => trivial, fun _ _ _ => trivial, fun _ _ _ => trivial, ?_,
      fun _ _ _ => trivial, trivial⟩
    rintro _ _ ⟨⟩ _ e he
    cases he

/-- The snapshot arrives between selecting the first entry and applying it. -/
def staleLife : List (Input × List Outcome) :=
  [(.appendRequest ⟨1, 2, 0, 0, [setA 1], 1⟩, []), (.applySelect, []),
    (.installRequest newerImage, []), (.applyEntry, []), (.applyCheckpoint, [])]

theorem stale_apply_mixes_images :
    ∃ r v d, start ((localCluster 1).env 1) [] .empty = .done (.ok r) v d ∧
      (∀ k a, staleLife[k]? = some a → ∀ r' d',
        (live ((localCluster 1).env 1) r d (staleLife.take k)).process = .up r' d' →
          r'.InstallsGenuine ((localCluster 1).env 1) a.1) ∧
      ∃ r' d' image, (live ((localCluster 1).env 1) r d staleLife).process = .up r' d' ∧
        r'.apply.inHand = none ∧ r'.lastApplied = 2 ∧
        ((localCluster 1).env 1).applyAll (r'.history.take r'.lastApplied) = .ok image ∧
        image.get [107] = .ok [98] ∧ r'.store.get [107] = .ok [97] := by
  refine ⟨_, _, _, rfl, ?_, _, _, _, rfl, rfl, rfl, rfl, rfl, rfl⟩
  refine live_each ⟨fun _ _ _ => trivial, fun _ _ _ => trivial, ?_, fun _ _ _ => trivial,
    fun _ _ _ => trivial, trivial⟩
  rintro _ _ ⟨⟩ _
  exact newerImage_genuine rfl rfl

end DistributedKv
