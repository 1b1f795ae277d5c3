import DistributedKv.Raft.Install

/-!
One step of a running node on any input, assembled from the specifications of
the operations (`react_spec`), and what it means for a step that runs to its end
(`react_done`) or dies on the way (`react_crashed`).
-/

namespace DistributedKv

open Crash Prog

variable {σ : Type} {env : Env σ} {M : Imaging env} {tidy : Prop} {i : Input}
  {r r' : Raft σ} {d d' : Disk}

/-- What is asked of an input. Only snapshots that get installed carry something
that the node cannot check for itself. -/
def InputOk (M : Imaging env) (tidy : Prop) (r : Raft σ) : Input → Prop
  | .installRequest req => r.Accepts req → InstallOk M r.history r.commitIndex req ∧
      (tidy → ∀ e, r.apply = .selected e → e.operation = .noop)
  | _ => True

/-- An operation that changes the node and shows nothing. -/
theorem wp_silent {α : Type} {p : Peer} {op : Op σ α}
    (h : wp Atomic (Survives M i p) op (fun _ r' d' => Reaches M tidy i p r' d') r d) :
    wp Atomic (Survives M i p) (do let _ ← op; return Output.none)
      (fun out r' d' => Reaches M tidy i p r' d' ∧ r'.peer.Emits env M.Encodes i out) r d := by
  simp only [wp_bind, wp_pure]
  exact wp_mono _ _ _ h (fun _ _ _ hr => ⟨hr, trivial⟩) fun _ hd => hd

theorem react_spec (hcfg : env.cfg.validate = .ok ()) (hrun : Running M tidy r d)
    (hin : InputOk M tidy r i) :
    wp Atomic (Survives M i r.peer) (react env i)
      (fun out r' d' => Reaches M tidy i r.peer r' d' ∧ r'.peer.Emits env M.Encodes i out) r d := by
  have h : Reaches M tidy i r.peer r d := .refl hrun
  cases i with
  | electionTimeout =>
    simp only [react, wp_bind, wp_read, wp_ite, wp_pure]
    refine ⟨fun _ => ⟨h, trivial⟩, fun _ => ?_⟩
    refine wp_mono _ _ _ (startElection_spec hcfg h) ?_ fun _ hd => hd
    rintro (_ | req) r' d' ⟨hr, hreq⟩
    · exact ⟨hr, trivial⟩
    · exact ⟨hr, hreq req rfl⟩
  | voteRequest req =>
    simp only [react, wp_bind, wp_pure]
    refine wp_mono _ _ _ (handleRequestVote_spec h) ?_ fun _ hd => hd
    exact fun resp r' d' hr => hr
  | voteResponse peer term resp => exact wp_silent (receiveVote_spec h)
  | appendRequest req =>
    simp only [react, wp_bind, wp_pure]
    refine wp_mono _ _ _ (handleAppendEntries_spec h) ?_ fun _ hd => hd
    exact fun resp r' d' hr => ⟨hr.1, hr.2.success⟩
  | appendResponse peer req resp => exact wp_silent (handleAppendEntriesResponse_spec h)
  | installRequest req =>
    simp only [react, wp_bind, wp_read, wp_ite, wp_pure]
    refine ⟨fun _ => ⟨h, trivial⟩, fun hmu => ?_⟩
    refine wp_mono _ _ _ (handleInstallSnapshot_spec h (by simpa using hmu) hin) ?_
      fun _ hd => hd
    rintro (_ | resp) r' d' ⟨hr, hresp⟩
    · exact ⟨hr, trivial⟩
    · exact ⟨hr, fun ht => hresp.current resp rfl ht⟩
  | installResponse peer req resp => exact wp_silent (handleInstallSnapshotResponse_spec h)
  | propose command =>
    simp only [react, wp_bind]
    refine wp_mono _ _ _ (propose_spec h) ?_ fun _ hd => hd
    rintro (_ | ⟨index, channel⟩) r' d' hr
    · exact ⟨hr, trivial⟩
    · exact ⟨hr, trivial⟩
  | sendAppend peer =>
    simp only [react, wp_bind, wp_read]
    cases hreq : r.buildAppendEntries env.id peer with
    | none => exact ⟨h, trivial⟩
    | some req => exact ⟨h, buildAppendEntries_emits hrun.toShape hreq⟩
  | sendInstall peer =>
    simp only [react, wp_bind]
    refine wp_mono _ _ _ (buildInstallSnapshot_spec hrun _) ?_ fun _ hd => hd
    rintro out _ _ ⟨rfl, rfl, hreq⟩
    rcases out with _ | (_ | req)
    · exact ⟨h, trivial⟩
    · exact ⟨h, trivial⟩
    · exact ⟨h, hreq req rfl⟩
  | applySelect => exact wp_silent (applySelect_spec h)
  | applyEntry => exact wp_silent (applyEntry_spec h)
  | applyCheckpoint =>
    simp only [react, wp_bind]
    refine wp_mono _ _ _ (applyCheckpoint_spec h) ?_ fun _ hd => hd
    rintro (_ | ⟨channel, entry⟩) r' d' hr
    · exact ⟨hr, trivial⟩
    · exact ⟨hr, trivial⟩
  | recordApplyFailure => exact wp_silent (recordApplyFailure_spec h)
  | snapshotBegin => exact wp_silent (snapshotBegin_spec h)
  | snapshotSave => exact wp_silent (snapshotSave_spec h)
  | snapshotPublish => exact wp_silent (snapshotPublish_spec h)

/-- A step that runs to its end. -/
theorem react_done (hcfg : env.cfg.validate = .ok ()) (hrun : Running M tidy r d)
    (hin : InputOk M tidy r i) {answers : List Outcome} (ha : ∀ a ∈ answers, Atomic a)
    {out : Output} (hstep : (react env i).run answers r d = .done out r' d') :
    Reaches M tidy i r.peer r' d' ∧ r'.peer.Emits env M.Encodes i out := by
  have := wp_run _ _ answers r d ha (react_spec hcfg hrun hin)
  rwa [hstep] at this

/-- A step at which the process dies. -/
theorem react_crashed (hcfg : env.cfg.validate = .ok ()) (hrun : Running M tidy r d)
    (hin : InputOk M tidy r i) {answers : List Outcome} (ha : ∀ a ∈ answers, Atomic a)
    (hstep : (react env i).run answers r d = .crashed d') : Survives M i r.peer d' := by
  have := wp_run _ _ answers r d ha (react_spec hcfg hrun hin)
  rwa [hstep] at this

end DistributedKv
