import DistributedKv.Cluster.Acknowledged
import DistributedKv.Raft.Image

/-!
The cluster as one replicated state machine. In every run in which no snapshot
is installed while a selected command waits to be applied, there is one list of
entries such that the state machine of every node, at every moment, is what a
prefix of that list makes of an empty one; and the prefix that a node shows
never gets shorter, not even across a crash.
-/

namespace DistributedKv

open Crash Prog

variable {σ : Type}

/-- The state machine after the entries, in order. -/
def Machine.replay (m : Machine σ) (l : List LogEntry) : Except String σ :=
  l.foldlM (fun st e => if e.operation = .noop then .ok st else m.apply e st) m.initial

/-- What the state machine serializes it restores to the same state. -/
def Machine.RoundTrips (m : Machine σ) : Prop :=
  ∀ {st data}, m.snapshotter.snapshot st = .ok data → m.snapshotter.restore data = .ok st

/-- Whatever the state machine serializes. -/
def Machine.imageFreight (m : Machine σ) : m.Freight where
  Entry _ := True
  Store _ := True
  Image data := ∃ st, m.snapshotter.snapshot st = .ok data
  noop _ _ := trivial
  initial := trivial
  apply _ _ _ := trivial
  snapshot _ hst := ⟨_, hst⟩
  restore _ _ := trivial

theorem Machine.RoundTrips.restores {m : Machine σ} (h : m.RoundTrips) : m.imageFreight.Restores := by
  rintro _ ⟨st, hst⟩
  exact ⟨st, h hst⟩

/-! ## What a node shows -/

/-- How many entries the state machine has seen: an entry counts from the moment
it is applied, before it is checkpointed. -/
def Raft.shown (r : Raft σ) : Nat :=
  match r.apply with
  | .applied e => if e.index = r.lastApplied + 1 then r.lastApplied + 1 else r.lastApplied
  | _ => r.lastApplied

theorem Raft.lastApplied_le_shown (r : Raft σ) : r.lastApplied ≤ r.shown := by
  unfold shown
  split
  · split <;> omega
  · exact Nat.le_refl _

theorem Raft.shown_le (r : Raft σ) : r.shown ≤ r.lastApplied + 1 := by
  unfold shown
  split
  · split <;> omega
  · exact Nat.le_succ _

theorem Raft.shown_of_not_applied {r : Raft σ} (h : ∀ e, r.apply ≠ .applied e) :
    r.shown = r.lastApplied := by
  unfold shown
  split
  · exact absurd ‹_› (h _)
  · rfl

section Shown

variable {env : Env σ} {M : Imaging env} {i : Input} {r₀ r r' : Raft σ} {d d' : Disk}

theorem Raft.shown_congr (happly : r'.apply = r.apply) (hlast : r'.lastApplied = r.lastApplied) :
    r'.shown = r.shown := by
  simp only [Raft.shown, happly, hlast]

/-- The state machine is the image of the entries that the node shows. -/
theorem Running.image_shown (h : Running M True r d) :
    r.shown ≤ r.commitIndex ∧ M.Image (r.history.take r.shown) r.store := by
  have happlied := h.applied_le
  have hphase := h.phase
  cases ha : r.apply with
  | applied e =>
    rw [ha] at hphase
    rcases hphase with ⟨hidx, hlt, himg⟩ | ⟨hle, himg⟩
    · rw [Raft.shown, ha]
      simp only [hidx, ↓reduceIte]
      exact ⟨hlt, himg⟩
    · rw [Raft.shown, ha]
      simp only [show e.index ≠ r.lastApplied + 1 by omega, ↓reduceIte]
      exact ⟨happlied, himg trivial⟩
  | selected e =>
    rw [ha] at hphase
    rw [Raft.shown_of_not_applied (by simp [ha])]
    rcases hphase with ⟨-, -, -, himg⟩ | ⟨-, hstale⟩
    · exact ⟨happlied, himg⟩
    · exact ⟨happlied, (hstale trivial).2⟩
  | _ =>
    rw [Raft.shown_of_not_applied (by simp [ha])]
    exact ⟨happlied, h.store_eq (by rw [ha]; rfl)⟩

/-- Outside the checkpoint no change of the memory hides an entry. -/
theorem Effect.shown_le (he : Effect env r₀ i r r') (hi : i ≠ .applyCheckpoint) :
    r.shown ≤ r'.shown := by
  have hsame (happly : r'.apply = r.apply) (hlast : r'.lastApplied = r.lastApplied) :
      r.shown ≤ r'.shown := (Raft.shown_congr happly hlast).ge
  have hleave (hnot : ∀ e, r.apply ≠ .applied e) (hlast : r'.lastApplied = r.lastApplied) :
      r.shown ≤ r'.shown := by
    rw [Raft.shown_of_not_applied hnot, ← hlast]
    exact r'.lastApplied_le_shown
  cases he with
  | checkpoint | checkpointFailed => exact absurd rfl hi
  | install _ req _ hinst =>
    have habove := hinst.above
    have hlast : (r.installed req).lastApplied = req.lastIncludedIndex :=
      Nat.max_eq_right habove.le
    have := r.shown_le
    have := (r.installed req).lastApplied_le_shown
    omega
  | select _ _ ha | selectFailed _ _ ha | begin _ _ ha => exact hleave (by simp [ha]) rfl
  | applyNoop _ _ ha | applyDone _ _ _ _ ha | applyFailed _ _ _ ha =>
    exact hleave (by simp [ha]) rfl
  | save _ _ ha | compact _ _ _ ha => exact hleave (by simp [ha]) rfl
  | stop _ err ha =>
    obtain ⟨_, _, _, -, -, heq⟩ := r.stopped_eq err
    exact hleave (by simp [ha]) (by rw [heq])
  | abandon _ _ ha =>
    refine hleave (fun e he => ?_) rfl
    rw [he] at ha
    cases ha
  | _ => exact hsame rfl rfl

theorem Effects.shown_le (he : Effects env r i r') (hi : i ≠ .applyCheckpoint) :
    r.shown ≤ r'.shown := by
  induction he with
  | refl => exact Nat.le_refl _
  | tail _ he ih => exact ih.trans (he.shown_le hi)

/-- A checkpoint shows as much as before. -/
theorem applyCheckpoint_shown {tidy : Prop} (h : Running M tidy r d) :
    wp Atomic (fun _ => True) applyCheckpoint (fun _ r' _ => r.shown ≤ r'.shown) r d := by
  simp only [applyCheckpoint, saveStableValuesLocked, wp_bind, wp_read]
  cases hphase : r.apply with
  | applied e =>
    have happ := h.phase_of hphase
    simp only [PhaseOk] at happ
    simp only [wp_bind, wp_ite, wp_modify, wp_pure]
    refine ⟨fun hne => ?_, fun heq => ?_⟩
    · rw [Raft.shown, hphase]
      simp only [Ne.symm hne, ↓reduceIte]
      exact Nat.le_refl r.lastApplied
    · rw [not_not] at heq
      have hle : e.index ≤ r.commitIndex := by
        rcases happ with ⟨hidx, hlt, -⟩ | ⟨hle, -⟩
        · omega
        · exact hle.trans h.applied_le
      refine wp_saveStable h.vote_ge hle ?_ trivial trivial
      simp only [wp_bind, wp_modify, wp_pure]
      have hshown := r.shown_le
      obtain ⟨_, _, -, -, hnotify⟩ :=
        Raft.notify_eq { r with lastApplied := e.index, apply := .idle } e.index
      rw [hnotify]
      change r.shown ≤ e.index
      omega
  | _ => exact Nat.le_refl _

/-- No step that runs to its end hides an entry. -/
theorem react_shown {tidy : Prop} (hcfg : env.cfg.validate = .ok ()) (h : Running M tidy r d)
    {answers : List Outcome} (hans : ∀ o ∈ answers, Atomic o) {out : Output}
    (hrun : (react env i).run answers r d = .done out r' d') : r.shown ≤ r'.shown := by
  by_cases hi : i = .applyCheckpoint
  · subst hi
    have hwp : wp Atomic (fun _ => True) (react env .applyCheckpoint)
        (fun _ r' _ => r.shown ≤ r'.shown) r d := by
      simp only [react, wp_bind]
      refine wp_mono _ _ _ (applyCheckpoint_shown h) ?_ fun _ hd => hd
      rintro (_ | ⟨channel, entry⟩) r' d' hr
      · exact hr
      · exact hr
    have := wp_run _ _ answers r d hans hwp
    rwa [hrun] at this
  · have hahead : Ahead r d.stable := by
      rw [h.disk_stable]
      exact .inr ⟨rfl, .inr rfl⟩
    exact (effects_of_done (Env.majority_gt_one hcfg).ne' hahead hrun).1.shown_le hi

theorem Peer.Step.commit_le {p p' : Peer} (h : p.Step env i p') : p.commit ≤ p'.commit := by
  cases h with
  | install => exact Nat.le_max_left _ _
  | _ => first | exact Nat.le_refl _ | exact Nat.le_of_lt ‹_›

theorem Peer.Steps.commit_le {p p' : Peer} (h : p.Steps env i p') : p.commit ≤ p'.commit := by
  induction h with
  | refl => exact Nat.le_refl _
  | tail _ h ih => exact ih.trans h.commit_le

end Shown

namespace Cluster

variable {C : Cluster σ} {actions : List Action} {f : Nat → History} {n : Int} {w : World σ}
  {r r' : Raft σ} {d d' : Disk}

/-! ## Images in a run -/

/-- No snapshot gets installed in the run while a selected command waits to be
applied. -/
def AppliesFirst (run : List Action → World σ) (actions : List Action) : Prop :=
  ∀ k n i answers r d, actions[k]? = some (.step n i answers) →
    (run (actions.take k)).nodes n = .up r d → r.AppliesFirst i

theorem roundTrip_env (hround : C.machine.RoundTrips) (n : Int) :
    (C.env n).RoundTrip fun _ => True := by
  intro l st sn data _ _ hsn hdata
  obtain rfl := Option.some.inj hsn
  exact hround hdata

/-- The image of some entries is what they make of an empty state machine. -/
def images (hround : C.machine.RoundTrips) (n : Int) : Imaging (C.env n) :=
  (C.env n).images (fun _ => True) (roundTrip_env hround n)

variable {hround : C.machine.RoundTrips}

theorem images_encodes {l : List LogEntry} {data : Bytes} :
    (images hround n).Encodes l data ↔
      ∃ st, C.machine.snapshotter.restore data = .ok st ∧ C.machine.replay l = .ok st := by
  constructor
  · exact fun h => h trivial _ rfl
  · intro h _ sn hsn
    obtain rfl := Option.some.inj hsn
    exact h

def ProcessImaged (hround : C.machine.RoundTrips) (n : Int) : Process σ → Prop
  | .up r d => Running (images hround n) True r d
  | .down d => DiskOk (images hround n) d

/-- The state machines are images, and so are the snapshots in flight. -/
structure Imaged (hround : C.machine.RoundTrips) (w : World σ) : Prop where
  node : ∀ n, ProcessImaged hround n (w.nodes n)
  net : ∀ dst req, .installRequest dst req ∈ w.net →
    ∃ st, C.machine.snapshotter.restore req.data = .ok st ∧ C.machine.replay req.covers = .ok st

theorem Imaged.initial : Imaged hround .initial where
  node _ := DiskOk.empty
  net _ _ h := by cases h

theorem Imaged.up (h : Imaged hround w) (hup : w.nodes n = .up r d) :
    Running (images hround n) True r d := by
  have := h.node n
  rwa [hup] at this

theorem Imaged.down (h : Imaged hround w) (hdown : w.nodes n = .down d) :
    DiskOk (images hround n) d := by
  have := h.node n
  rwa [hdown] at this

theorem Imaged.move (h : Imaged hround w) {proc : Process σ} (hp : ProcessImaged hround n proc)
    {sent : List Message} (hs : ∀ dst req, .installRequest dst req ∈ sent →
      ∃ st, C.machine.snapshotter.restore req.data = .ok st ∧
        C.machine.replay req.covers = .ok st) :
    Imaged hround ⟨Function.update w.nodes n proc, sent ++ w.net⟩ where
  node m := by
    rcases eq_or_ne m n with rfl | hne
    · simpa only [Function.update_self] using hp
    · simpa only [Function.update_of_ne hne] using h.node m
  net dst req hm := (List.mem_append.mp hm).elim (hs dst req) (h.net dst req)

theorem Imaged.settle (h : Imaged hround w) {proc : Process σ} (hp : ProcessImaged hround n proc) :
    Imaged hround { w with nodes := Function.update w.nodes n proc } :=
  h.move hp fun _ _ hm => absurd hm List.not_mem_nil

/-- A snapshot in flight can be installed. -/
theorem Imaged.inputOk (h : Imaged hround w) {a : History} (hsim : C.Sim w a)
    (hup : w.nodes n = .up r d) {i : Input} (hav : i.available w.net n = true)
    (hfirst : r.AppliesFirst i) : InputOk (images hround n) True r i := by
  obtain ⟨-, -, hpeer⟩ := hsim.up hup
  have hin := hsim.input hav
  cases i with
  | installRequest req =>
    have hreq : C.InstallSim a req := hin _ rfl
    have hdata := h.net n req (by simpa [Input.available] using hav)
    refine fun haccepts => ⟨?_, fun _ => hfirst haccepts⟩
    refine ⟨hreq.length, hreq.term, hreq.indexed, hreq.valid, images_encodes.mpr hdata, ?_,
      (hreq.installOk (hdata.imp fun _ hst => hst.1) hsim.inv hpeer).agrees⟩
    intro sn hsn
    obtain rfl := Option.some.inj hsn
    exact hdata
  | _ => trivial

theorem installs_of_sends {i : Input} {out : Output}
    (hem : r.peer.Emits (C.env n) (images hround n).Encodes i out) {dst : Int}
    {req : InstallSnapshotRequest} (hm : .installRequest dst req ∈ C.sends n i out) :
    ∃ st, C.machine.snapshotter.restore req.data = .ok st ∧
      C.machine.replay req.covers = .ok st := by
  cases out with
  | installRequest peer req' =>
    have hreq : dst = peer ∧ req = req' := by cases i <;> simpa [sends] using hm
    obtain ⟨rfl, rfl⟩ := hreq
    cases i with
    | sendInstall _ =>
      obtain ⟨-, -, -, -, -, -, henc⟩ := hem
      exact images_encodes.mp henc
    | _ => exact hem.elim
  | _ => cases i <;> simp [sends] at hm

/-- What a start-up leaves behind. -/
theorem Imaged.boot (h : Imaged hround w) (hn : n ∈ C.members) (hdown : w.nodes n = .down d)
    {answers : List Outcome} {exit : Exit σ Disk (Except String (Raft σ))}
    (hstart : start (C.env n) answers d = exit) (hans : ∀ o ∈ answers, Atomic o) :
    match exit with
    | .done out _ d' => Started (images hround n) True d out d'
    | .crashed d' => SamePeer (images hround n) d d' := by
  have hdisk := h.down hdown
  have hsnap : Restorable (images hround n) d := by
    intro s sn hs hsn
    obtain rfl := Option.some.inj hsn
    exact images_encodes.mp (hdisk.snapshot s hs).encodes
  have hspec := newWithSnapshot_spec True (cfg_ok hn) ⟨_, rfl⟩ hdisk hsnap
  have hrun := Prog.wp_run _ _ answers _ d hans hspec
  rw [show (newWithSnapshot (C.env n)).run answers (C.env n).initial d = exit from hstart] at hrun
  cases exit <;> exact hrun

/-- How many entries a process shows, or will show once it has restarted. -/
def shownBy : Process σ → Nat
  | .up r _ => r.shown
  | .down d => d.peer.commit

theorem shownBy_update {proc : Process σ} (h : shownBy (w.nodes n) ≤ shownBy proc) (m : Int) :
    shownBy (w.nodes m) ≤ shownBy (Function.update w.nodes n proc m) := by
  rcases eq_or_ne m n with rfl | hne
  · rwa [Function.update_self]
  · rw [Function.update_of_ne hne]

/-- One action keeps the images, and no process shows less after it. -/
theorem Imaged.perform (h : Imaged hround w) {a : History} (hsim : C.Sim w a) {act : Action}
    (hans : ∀ o ∈ act.answers, Atomic o)
    (hfirst : ∀ n i answers r d, act = .step n i answers → w.nodes n = .up r d →
      r.AppliesFirst i) :
    Imaged hround (C.perform w act) ∧
      ∀ m, shownBy (w.nodes m) ≤ shownBy ((C.perform w act).nodes m) := by
  have hmoved := C.moved w act
  generalize C.perform w act = w' at hmoved ⊢
  cases hmoved with
  | idle => exact ⟨h, fun _ => Nat.le_refl _⟩
  | @crash n r d hup =>
    have hrun := h.up hup
    have hdown : ProcessImaged hround n (.down d) := hrun.diskOk
    refine ⟨h.settle hdown, shownBy_update ?_⟩
    rw [hup]
    change r.shown ≤ d.peer.commit
    rw [hrun.disk_peer]
    exact hrun.image_shown.1
  | @died n i answers r d d' hup hn hav hrun =>
    have hrunning := h.up hup
    have hok := h.inputOk hsim hup hav (hfirst n i answers r d rfl hup)
    obtain ⟨hdisk, hsteps⟩ := react_crashed (cfg_ok hn) hrunning hok hans hrun
    have hdown : ProcessImaged hround n (.down d') := hdisk
    refine ⟨h.settle hdown, shownBy_update ?_⟩
    rw [hup]
    exact hrunning.image_shown.1.trans hsteps.commit_le
  | @step n i answers r d out r' d' hup hn hav hrun =>
    have hrunning := h.up hup
    have hok := h.inputOk hsim hup hav (hfirst n i answers r d rfl hup)
    obtain ⟨hreach, hemits⟩ := react_done (cfg_ok hn) hrunning hok hans hrun
    have hup' : ProcessImaged hround n (.up r' d') := hreach.running
    refine ⟨h.move hup' fun dst req hm => installs_of_sends hemits hm, shownBy_update ?_⟩
    rw [hup]
    exact react_shown (cfg_ok hn) hrunning hans hrun
  | @failed n answers d d' hdown hn hstart =>
    have hsame : SamePeer (images hround n) d d' := by
      rcases hstart with hstart | ⟨err, v, hstart⟩
      · exact h.boot hn hdown hstart hans
      · exact (h.boot hn hdown hstart hans).1
    have hdown' : ProcessImaged hround n (.down d') := hsame.1
    refine ⟨h.settle hdown', shownBy_update ?_⟩
    rw [hdown]
    exact (congrArg Peer.commit hsame.2).ge
  | @started n answers d r v d' hdown hn hstart =>
    obtain ⟨hrunning, hpeer, -, -, hlast, -⟩ := h.boot hn hdown hstart hans
    have hup : ProcessImaged hround n (.up r d') := hrunning
    refine ⟨h.settle hup, shownBy_update ?_⟩
    rw [hdown]
    change d.peer.commit ≤ r.shown
    rw [← hpeer]
    exact hlast.ge.trans r.lastApplied_le_shown

/-! ## One log for the whole run -/

section Run

variable (hf : C.Traced actions f) (hperm : Permitted Atomic actions)
  (hfirst : AppliesFirst C.run actions)

include hf hperm hfirst

theorem Traced.imaged_step (k : Nat) (h : Imaged hround (C.run (actions.take k))) :
    Imaged hround (C.run (actions.take (k + 1))) ∧
      ∀ m, shownBy ((C.run (actions.take k)).nodes m) ≤
        shownBy ((C.run (actions.take (k + 1))).nodes m) := by
  cases hact : actions[k]? with
  | none =>
    have hsame : actions.take (k + 1) = actions.take k := by
      rw [List.take_add_one, hact, Option.toList_none, List.append_nil]
    rw [hsame]
    exact ⟨h, fun _ => Nat.le_refl _⟩
  | some act =>
    rw [C.run_take_succ hact]
    refine h.perform (hf.sim k) (hperm act (List.mem_of_getElem? hact)) ?_
    rintro n i answers r d rfl hup
    exact hfirst k n i answers r d hact hup

theorem Traced.imaged (hround : C.machine.RoundTrips) (k : Nat) :
    Imaged hround (C.run (actions.take k)) := by
  induction k with
  | zero => exact .initial
  | succ k ih => exact (hf.imaged_step hperm hfirst k ih).1

/-- What a process shows grows along the run. -/
theorem Traced.shownBy_mono (hround : C.machine.RoundTrips) {j k : Nat} (hjk : j ≤ k) (m : Int) :
    shownBy ((C.run (actions.take j)).nodes m) ≤ shownBy ((C.run (actions.take k)).nodes m) := by
  induction k, hjk using Nat.le_induction with
  | base => exact Nat.le_refl _
  | succ k _ ih =>
    exact ih.trans ((hf.imaged_step hperm hfirst k (hf.imaged hperm hfirst hround k)).2 m)

end Run

/-- The committed entries of a node that is up. -/
def committedBy : Process σ → List LogEntry
  | .up r _ => r.history.take r.commitIndex
  | .down _ => []

/-- Whatever two nodes have committed, at any two moments, one continues the other. -/
theorem Traced.committedBy_comparable (hf : C.Traced actions f) (j k : Nat) (a b : Int) :
    committedBy ((C.run (actions.take j)).nodes a) <+: committedBy ((C.run (actions.take k)).nodes b) ∨
    committedBy ((C.run (actions.take k)).nodes b) <+: committedBy ((C.run (actions.take j)).nodes a) := by
  cases ha : (C.run (actions.take j)).nodes a with
  | down da => exact .inl List.nil_prefix
  | up ra da =>
    cases hb : (C.run (actions.take k)).nodes b with
    | down db => exact .inr List.nil_prefix
    | up rb db =>
      have hsa := hf.sim j
      have hsb := hf.sim k
      have hcoma := ((hsa.up ha).2.2.committed hsa.inv).mono (hf.extends_ (Nat.le_max_left j k))
        le_rfl
      have hcomb := ((hsb.up hb).2.2.committed hsb.inv).mono (hf.extends_ (Nat.le_max_right j k))
        le_rfl
      exact (hf.sim (max j k)).inv.committed_comparable hcoma hcomb

/-- One list of entries explains every node that is up at any moment of the run:
what it has committed is a prefix, its state machine is what the entries that it
shows make of an empty one, and it never shows fewer entries than before. -/
structure OneLog (C : Cluster σ) (actions : List Action) (l : List LogEntry) : Prop where
  committed : ∀ {k n r d}, (C.run (actions.take k)).nodes n = .up r d →
    r.history.take r.commitIndex <+: l
  shown_le : ∀ {k n r d}, (C.run (actions.take k)).nodes n = .up r d →
    r.shown ≤ (r.history.take r.commitIndex).length
  store : ∀ {k n r d}, (C.run (actions.take k)).nodes n = .up r d →
    C.machine.replay (l.take r.shown) = .ok r.store
  mono : ∀ {j k n r d r' d'}, j ≤ k → (C.run (actions.take j)).nodes n = .up r d →
    (C.run (actions.take k)).nodes n = .up r' d' → r.shown ≤ r'.shown

/-- There is a longest committed log of a run. -/
theorem Traced.exists_log (hf : C.Traced actions f) :
    ∃ l, ∀ {k n r d}, (C.run (actions.take k)).nodes n = .up r d →
      r.history.take r.commitIndex <+: l := by
  obtain ⟨l, -, hl⟩ := Consensus.exists_isPrefix_bound
    ((List.range (actions.length + 1)).flatMap fun k =>
      C.members.map fun n => committedBy ((C.run (actions.take k)).nodes n)) (by
    intro a ha b hb
    obtain ⟨j, -, ha⟩ := List.mem_flatMap.mp ha
    obtain ⟨k, -, hb⟩ := List.mem_flatMap.mp hb
    obtain ⟨m, -, rfl⟩ := List.mem_map.mp ha
    obtain ⟨n, -, rfl⟩ := List.mem_map.mp hb
    exact hf.committedBy_comparable j k m n)
  refine ⟨l, fun {k n r d} hup => ?_⟩
  -- after the last action nothing changes any more
  have hmin : actions.take k = actions.take (min k actions.length) := by
    rw [← List.take_eq_take_min]
  rw [hmin] at hup
  have hmem := hl (committedBy ((C.run (actions.take (min k actions.length))).nodes n))
    (List.mem_flatMap.mpr ⟨_, List.mem_range.mpr (by omega),
      List.mem_map_of_mem ((hf.sim _).up hup).1⟩)
  rwa [hup] at hmem

theorem exists_oneLog (hround : C.machine.RoundTrips) (hperm : Permitted Atomic actions)
    (hfirst : AppliesFirst C.run actions) : ∃ l, C.OneLog actions l := by
  have hrestoring : Restoring C.machine.imageFreight actions :=
    ⟨hround.restores, fun _ _ _ _ _ _ _ => trivial, hperm⟩
  obtain ⟨f, hf⟩ := hrestoring.exists_histories
  obtain ⟨l, hl⟩ := hf.exists_log
  have himage {k n r d} (hup : (C.run (actions.take k)).nodes n = .up r d) :=
    ((hf.imaged hperm hfirst hround k).up hup).image_shown
  have hlen {k n r d} (hup : (C.run (actions.take k)).nodes n = .up r d) :
      r.shown ≤ (r.history.take r.commitIndex).length := by
    have hcommit := ((hf.sim k).up hup).2.1.commit_le
    rw [List.length_take, Nat.min_eq_left hcommit]
    exact (himage hup).1
  refine ⟨l, hl, hlen, fun {k n r d} hup => ?_, fun {j k n r d r' d'} hjk hup hup' => ?_⟩
  swap
  · have hmono := hf.shownBy_mono hperm hfirst hround hjk n
    rwa [hup, hup'] at hmono
  have htake : l.take r.shown = r.history.take r.shown := by
    rw [Consensus.take_of_isPrefix (hl hup) (hlen hup), List.take_take,
      Nat.min_eq_left (himage hup).1]
  rw [htake]
  exact (himage hup).2

/-- A run without installations has none at a bad moment. -/
theorem AppliesFirst.of_none {run : List Action → World σ}
    (h : ∀ a ∈ actions, ∀ n req answers, a ≠ .step n (.installRequest req) answers) :
    AppliesFirst run actions := by
  intro k n i answers r d hact _
  cases i with
  | installRequest req => exact absurd rfl (h _ (List.mem_of_getElem? hact) n req answers)
  | _ => trivial

end Cluster

end DistributedKv
