import DistributedKv.Cluster.Replicas

/-!
Images, state by state. A state machine need not get back every state that it
serializes, and the key-value store does not: it is enough that the states which
come up in a run are got back. For such a run the machine can be exchanged for one
that refuses to serialize any other state (`run_guarded`), and this one gets back
whatever it serializes. So the replicas of a cluster whose clients write text
follow one log.
-/

namespace DistributedKv

open Crash

variable {σ : Type}

namespace Machine

/-- The state is restored from its own image. -/
def Recovers (m : Machine σ) (st : σ) : Prop :=
  ∀ data, m.snapshotter.snapshot st = .ok data → m.snapshotter.restore data = .ok st

open Classical in
/-- The machine that refuses to serialize what it would not get back. -/
noncomputable def guarded (m : Machine σ) : Machine σ :=
  { m with
    snapshotter :=
      { snapshot := fun st =>
          if m.Recovers st then m.snapshotter.snapshot st else .error "image is not recoverable"
        restore := m.snapshotter.restore } }

theorem guarded_snapshot {m : Machine σ} {st : σ} (h : m.Recovers st) :
    m.guarded.snapshotter.snapshot st = m.snapshotter.snapshot st := if_pos h

theorem guarded_roundTrips (m : Machine σ) : m.guarded.RoundTrips := by
  intro st data hst
  by_cases h : m.Recovers st
  · rw [guarded_snapshot h] at hst
    exact h data hst
  · have herr : m.guarded.snapshotter.snapshot st = .error "image is not recoverable" := if_neg h
    rw [herr] at hst
    cases hst

end Machine

namespace Cluster

variable (C : Cluster σ)

/-- The cluster with the guarded machine on every node. -/
noncomputable def guarded : Cluster σ := { C with machine := C.machine.guarded }

variable {C} {actions : List Action} {n : Int}

theorem commitCandidate_guarded (r : Raft σ) (index : Nat) :
    r.commitCandidate (C.guarded.env n) index = r.commitCandidate (C.env n) index := by
  induction index with
  | zero => rfl
  | succ index ih =>
    simp only [Raft.commitCandidate, ih]
    rfl

theorem advanceCommitIndexLocked_guarded :
    advanceCommitIndexLocked (C.guarded.env n) = advanceCommitIndexLocked (C.env n) := by
  simp only [advanceCommitIndexLocked, commitCandidate_guarded]

theorem replay_guarded (r : Raft σ) (k lastApplied : Nat) :
    replay (C.guarded.env n) r k lastApplied = replay (C.env n) r k lastApplied := by
  induction k generalizing lastApplied with
  | zero => rfl
  | succ k ih =>
    simp only [replay, ih]
    rfl

/-- Only `maybeSnapshot` serializes the state machine. -/
theorem react_guarded {r : Raft σ} (h : C.machine.Recovers r.store) (d : Disk) (i : Input)
    (answers : List Outcome) :
    (react (C.guarded.env n) i).run answers r d = (react (C.env n) i).run answers r d := by
  cases i with
  | appendResponse peer req resp =>
    simp only [react, handleAppendEntriesResponse, advanceCommitIndexLocked_guarded]
  | snapshotSave =>
    have hsnap : C.guarded.machine.snapshotter.snapshot r.store =
        C.machine.snapshotter.snapshot r.store := Machine.guarded_snapshot h
    simp only [react, snapshotSave, bind, Prog.bind, Prog.read, Prog.run, Cluster.env]
    cases r.apply with
    | snapshotting b => simp only [hsnap]
    | _ => rfl
  | _ => rfl

theorem start_guarded (answers : List Outcome) (d : Disk) :
    start (C.guarded.env n) answers d = start (C.env n) answers d := by
  have hcommitted : ∀ (persisted : StableState) (r : Raft σ),
      replayCommitted (C.guarded.env n) persisted r = replayCommitted (C.env n) persisted r := by
    intro persisted r
    simp only [replayCommitted, replay_guarded]
  have hlog : ∀ (m : SnapshotMetadata) (covers : List LogEntry),
      newWithLogAndSnapshot (C.guarded.env n) m covers = newWithLogAndSnapshot (C.env n) m covers := by
    intro m covers
    simp only [newWithLogAndSnapshot, hcommitted]
    rfl
  simp only [start, newWithSnapshot, hlog]
  rfl

/-- Every state that comes up in the run is restored from its own image. -/
def Recoverable (C : Cluster σ) (actions : List Action) : Prop :=
  ∀ k n r d, (C.run (actions.take k)).nodes n = .up r d → C.machine.Recovers r.store

theorem perform_guarded {w : World σ}
    (h : ∀ n r d, w.nodes n = .up r d → C.machine.Recovers r.store) (a : Action) :
    C.guarded.perform w a = C.perform w a := by
  cases a with
  | crash n => rfl
  | step n i answers =>
    simp only [perform]
    cases hproc : w.nodes n with
    | down d => rfl
    | up r d =>
      simp only [react_guarded (h n r d hproc)]
      rfl
  | restart n answers =>
    simp only [perform, start_guarded]
    rfl

theorem run_guarded (h : C.Recoverable actions) (k : Nat) :
    C.guarded.run (actions.take k) = C.run (actions.take k) := by
  refine Run.foldl_congr (actions.take k) fun j a hj => perform_guarded ?_ a
  intro n r d hup
  have hlt : j < k := by
    have := (List.getElem?_eq_some_iff.mp hj).1
    rw [List.length_take] at this
    omega
  rw [List.take_take, Nat.min_eq_left hlt.le] at hup
  exact h j n r d hup

/-! ## One log -/

theorem Recoverable.exists_oneLog (h : C.Recoverable actions) (hperm : Permitted Atomic actions)
    (hfirst : AppliesFirst C.run actions) : ∃ l, C.OneLog actions l := by
  have hround : C.guarded.machine.RoundTrips := C.machine.guarded_roundTrips
  have hrun := run_guarded h
  have hguarded : AppliesFirst C.guarded.run actions := by
    intro k n i answers r d hact hup
    rw [hrun] at hup
    exact hfirst k n i answers r d hact hup
  obtain ⟨l, hl⟩ := Cluster.exists_oneLog hround hperm hguarded
  exact ⟨l, fun hup => hl.committed ((hrun _).symm ▸ hup), fun hup => hl.shown_le ((hrun _).symm ▸ hup),
    fun hup => hl.store ((hrun _).symm ▸ hup),
    fun hjk hup hup' => hl.mono hjk ((hrun _).symm ▸ hup) ((hrun _).symm ▸ hup')⟩

section Text

variable {maxLength : Int} {json : Json} {C : Cluster (MemoryStore maxLength)}

/-- Every store of the run is text, and so it is restored from its image. -/
theorem WritesText.recoverable (h : C.WritesText json actions) : C.Recoverable actions := by
  intro k n r d hup data hdata
  have hcarries : Carries h.freight (C.run (actions.take k)) :=
    carries_run (h.restoring.take k).proposes
  have htext : r.store.Textual := (hcarries.up hup).1.store
  rw [h.machine] at hdata ⊢
  obtain rfl := Except.ok.inj hdata
  exact htext.restore h.faithful

theorem WritesText.exists_oneLog (h : C.WritesText json actions)
    (hfirst : AppliesFirst C.runReloading actions) : ∃ l, C.OneLog actions l := by
  simp only [AppliesFirst, h.run_take_eq] at hfirst
  exact h.recoverable.exists_oneLog h.atomic hfirst

/-- In every run of a cluster whose clients write text and in which no snapshot is
installed while a selected command waits to be applied, there is one list of
entries for all nodes and moments: a node that is up has committed a prefix of it,
and its state machine is what the first entries, as many as it shows, make of an
empty one. A node never shows fewer entries than before, not even across its
crashes and restarts. -/
theorem replicas_follow_one_log (h : C.WritesText json actions)
    (hfirst : AppliesFirst C.runReloading actions) :
    ∃ l, ∀ k n r d, (C.runReloading (actions.take k)).nodes n = .up r d →
      r.history.take r.commitIndex <+: l ∧ r.lastApplied ≤ r.shown ∧
      r.shown ≤ (r.history.take r.commitIndex).length ∧
      C.machine.replay (l.take r.shown) = .ok r.store ∧
      ∀ j ≤ k, ∀ r₀ d₀, (C.runReloading (actions.take j)).nodes n = .up r₀ d₀ →
        r₀.shown ≤ r.shown := by
  obtain ⟨l, hl⟩ := h.exists_oneLog hfirst
  simp only [h.run_take_eq]
  exact ⟨l, fun k n r d hup => ⟨hl.committed hup, r.lastApplied_le_shown, hl.shown_le hup,
    hl.store hup, fun j hjk r₀ d₀ hup₀ => hl.mono hjk hup₀ hup⟩⟩

end Text

/-- The leader of `storedRun` crashes and comes back with the write. -/
def recoveredRun : List Action := storedRun ++ [.crash 1, .restart 1 []]

theorem recoveredRun_text : (localCluster 1).WritesText .framed recoveredRun :=
  localCluster_writesText 1 (by decide) (by decide)

theorem recoveredRun_appliesFirst {run : List Action → World (MemoryStore 8)} :
    AppliesFirst run recoveredRun := by
  refine .of_none fun a ha n req answers heq => ?_
  subst heq
  simp [recoveredRun, storedRun] at ha

theorem replicas_follow_one_log_recoveredRun :
    ∃ (r r' : Raft (MemoryStore 8)) (d d' : Disk) (l : List LogEntry),
      ((localCluster 1).runReloading (recoveredRun.take 18)).nodes 1 = .up r d ∧
      ((localCluster 1).runReloading (recoveredRun.take 22)).nodes 1 = .up r' d' ∧
      r.shown = 2 ∧ r.shown ≤ r'.shown ∧ r'.store.get [107] = .ok [118] ∧
      (localCluster 1).machine.replay (l.take r'.shown) = .ok r'.store := by
  obtain ⟨l, hl⟩ := replicas_follow_one_log recoveredRun_text recoveredRun_appliesFirst
  obtain ⟨-, -, -, hstore, hmono⟩ := hl 22 1 _ _ rfl
  exact ⟨_, _, _, _, l, rfl, rfl, rfl, hmono 18 (by decide) _ _ rfl, rfl, hstore⟩

end Cluster

end DistributedKv
