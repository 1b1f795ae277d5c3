import DistributedKv.Raft.Refinement

/-!
The apply goroutine: selecting, applying and checkpointing committed entries,
and taking a local snapshot. None of it changes the peer.
-/

namespace DistributedKv

open Crash Prog

variable {σ : Type} {env : Env σ} {M : Imaging env} {tidy : Prop} {i : Input} {p : Peer}
  {r r' : Raft σ} {d d' : Disk}

/-- The invariant at a given step of the apply goroutine. -/
theorem Running.phase_of (h : Running M tidy r d) {phase : ApplyPhase} (hp : r.apply = phase) :
    PhaseOk M tidy phase r.history r.lastApplied r.commitIndex r.store d.snapshot :=
  hp ▸ h.phase

theorem Raft.history_take_succ {e : LogEntry} {k : Nat} (he : r.history[k]? = some e) :
    r.history.take (k + 1) = r.history.take k ++ [e] := by
  rw [List.take_add_one, he]
  rfl

/-- The goroutine moves on without touching the log or the files. -/
theorem Reaches.setPhase (h : Reaches M tidy i p r d) (hcov : r'.covered = r.covered)
    (hlg : r'.log = r.log) (hmeta : r'.snapshotMeta = r.snapshotMeta)
    (hst : r'.stable = r.stable) (hstate : r'.state = r.state) (helec : r'.election = r.election)
    (hmatch : r'.matchIndex = r.matchIndex)
    (hphase : PhaseOk M tidy r'.apply r.history r.lastApplied r.commitIndex r'.store d.snapshot) :
    Reaches M tidy i p r' d := by
  refine ⟨h.running.setPhase hcov hlg hmeta hst hphase, ?_⟩
  simp only [Raft.stable, StableState.mk.injEq] at hst
  have hpeer : r'.peer = r.peer := by
    simp [Raft.peer, Raft.history, hcov, hlg, hst, hstate, helec, hmatch]
  exact hpeer ▸ h.steps

variable (h : Reaches M tidy i p r d)

include h

/-! ## Applying committed entries -/

theorem applySelect_spec :
    wp Atomic (Survives M i p) (applySelect env) (fun _ r' d' => Reaches M tidy i p r' d') r d := by
  have hrun := h.running
  simp only [applySelect, wp_bind, wp_read, wp_ite, wp_pure]
  refine ⟨fun _ => h, fun hsel => ?_⟩
  obtain ⟨hidle, hlt⟩ := not_or.mp hsel
  have himg : M.Image (r.history.take r.lastApplied) r.store := hrun.phase_of (not_not.mp hidle)
  cases he : r.entryAtLocked (r.lastApplied + 1) with
  | none =>
    simp only [wp_modify]
    exact h.setPhase rfl rfl rfl rfl rfl rfl rfl fun _ => himg
  | some entry =>
    simp only [wp_ite, wp_modify]
    refine ⟨fun _ => h.setPhase rfl rfl rfl rfl rfl rfl rfl fun _ => himg, fun _ => ?_⟩
    have hb := hrun.boundary_le
    rw [hrun.entryAtLocked_eq, if_pos (by omega), Nat.add_sub_cancel] at he
    have hidx := hrun.indexed _ _ he
    exact h.setPhase rfl rfl rfl rfl rfl rfl rfl (.inl ⟨by omega, by omega, he, himg⟩)

theorem applyEntry_spec :
    wp Atomic (Survives M i p) (applyEntry env) (fun _ r' d' => Reaches M tidy i p r' d') r d := by
  simp only [applyEntry, wp_bind, wp_read]
  cases hphase : r.apply with
  | selected e =>
    have hsel := h.running.phase_of hphase
    simp only [PhaseOk] at hsel
    simp only [wp_ite, wp_modify]
    refine ⟨fun hnoop => ?_, fun hop => ?_⟩
    · refine h.setPhase rfl rfl rfl rfl rfl rfl rfl ?_
      rcases hsel with ⟨hidx, hlt, hget, himg⟩ | ⟨hle, hstale⟩
      · refine .inl ⟨hidx, hlt, ?_⟩
        have := M.noop himg hnoop
        rwa [← Raft.history_take_succ hget] at this
      · exact .inr ⟨hle, fun ht => (hstale ht).2⟩
    · cases hf : env.applier with
      | none => exact h
      | some f =>
        -- a failed call leaves the state machine as it was
        have hfail : ∀ err, Reaches M tidy i p { r with apply := .failed err } d := by
          intro err
          refine h.setPhase rfl rfl rfl rfl rfl rfl rfl fun ht => ?_
          rcases hsel with ⟨_, _, _, himg⟩ | ⟨_, hstale⟩
          · exact himg
          · exact (hstale ht).2
        simp only [wp_bind]
        refine wp_attempt_atomic ?_ h.survives
        cases hst : f e r.store with
        | error err => exact hfail _
        | ok st =>
          simp only [wp_modify]
          refine h.setPhase rfl rfl rfl rfl rfl rfl rfl ?_
          rcases hsel with ⟨hidx, hlt, hget, himg⟩ | ⟨hle, hstale⟩
          · refine .inl ⟨hidx, hlt, ?_⟩
            have := M.apply hf himg hop hst
            rwa [← Raft.history_take_succ hget] at this
          · exact .inr ⟨hle, fun ht => absurd (hstale ht).1 hop⟩
  | _ => exact h

theorem applyCheckpoint_spec :
    wp Atomic (Survives M i p) applyCheckpoint (fun _ r' d' => Reaches M tidy i p r' d') r d := by
  have hrun := h.running
  simp only [applyCheckpoint, saveStableValuesLocked, wp_bind, wp_read]
  cases hphase : r.apply with
  | applied e =>
    have happ := hrun.phase_of hphase
    simp only [PhaseOk] at happ
    simp only [wp_bind, wp_ite, wp_modify, wp_pure]
    refine ⟨fun hne => ?_, fun heq => ?_⟩
    · refine h.setPhase rfl rfl rfl rfl rfl rfl rfl fun ht => ?_
      rcases happ with ⟨hidx, _⟩ | ⟨_, hstale⟩
      · exact absurd hidx.symm hne
      · exact hstale ht
    · rw [not_not] at heq
      rcases happ with ⟨hidx, hlt, himg⟩ | ⟨hle, _⟩
      swap
      · omega
      obtain ⟨channels, pending, -, -, hnotify⟩ :=
        Raft.notify_eq { r with lastApplied := e.index, apply := .idle } e.index
      let r' : Raft σ := { r with
        lastApplied := e.index, apply := .idle, channels := channels, pendingResults := pending }
      have h' : Reaches M tidy i p r' { d with stable := r'.stable } := by
        refine ⟨?_, h.steps⟩
        exact
          { hrun with
            boundary_le := hrun.boundary_le.trans (by change r.lastApplied ≤ e.index; omega)
            applied_le := by change e.index ≤ r.commitIndex; omega
            disk_stable := rfl
            disk_applied := hrun.disk_applied.trans (by change r.lastApplied ≤ e.index; omega)
            phase := by
              change M.Image (r.history.take e.index) r.store
              rwa [hidx] }
      refine h.wp_saveStable h' ?_
      simp only [wp_bind, wp_modify, wp_pure, hnotify]
      exact h'
  | _ => exact h

theorem recordApplyFailure_spec :
    wp Atomic (Survives M i p) recordApplyFailure
      (fun _ r' d' => Reaches M tidy i p r' d') r d := by
  simp only [recordApplyFailure, wp_bind, wp_read]
  cases hphase : r.apply with
  | failed err =>
    have hfail : tidy → M.Image (r.history.take r.lastApplied) r.store :=
      h.running.phase_of hphase
    cases r.applyErr with
    | some _ => exact h.setPhase rfl rfl rfl rfl rfl rfl rfl hfail
    | none =>
      obtain ⟨channels, -, hc⟩ := Raft.complete_foldl r.pendingResults err r
      simp only [wp_modify, hc]
      exact h.setPhase rfl rfl rfl rfl rfl rfl rfl hfail
  | _ => exact h

/-! ## Local snapshots -/

theorem snapshotBegin_spec :
    wp Atomic (Survives M i p) (snapshotBegin env)
      (fun _ r' d' => Reaches M tidy i p r' d') r d := by
  have hrun := h.running
  simp only [snapshotBegin, wp_bind, wp_read, wp_ite, wp_pure]
  refine ⟨fun _ => h, fun hgo => ?_⟩
  have himg : M.Image (r.history.take r.lastApplied) r.store :=
    hrun.phase_of (not_not.mp (not_or.mp hgo).1)
  cases ht : r.termAtLocked r.lastApplied with
  | none => exact h
  | some term =>
    have hterm := (hrun.termAt_of_termAtLocked ht).2
    rw [lastTerm_take (hrun.applied_le.trans hrun.commit_le)] at hterm
    refine h.setPhase rfl rfl rfl rfl rfl rfl rfl ⟨himg, ?_⟩
    rw [← Option.some.inj hterm]

omit h in
theorem Raft.Shape.logThrough_eq (h : r.Shape) {k : Nat}
    (hk : r.snapshotMeta.lastIncludedIndex ≤ k) :
    r.covered ++ r.logThrough k = r.history.take k := by
  rw [h.history_take hk, Raft.logThrough]
  congr 1
  have := LogStore.takeWhile_indexed h.log_indexed (k + 1)
  simp only [Nat.lt_succ_iff] at this
  rw [this]
  congr 1
  omega

theorem snapshotSave_spec :
    wp Atomic (Survives M i p) (snapshotSave env)
      (fun _ r' d' => Reaches M tidy i p r' d') r d := by
  have hrun := h.running
  simp only [snapshotSave, wp_bind, wp_read]
  cases hphase : r.apply with
  | snapshotting b =>
    obtain ⟨himg, rfl⟩ := hrun.phase_of hphase
    have hidle : Reaches M tidy i p { r with apply := .idle } d :=
      h.setPhase rfl rfl rfl rfl rfl rfl rfl himg
    cases hsn : env.snapshotter with
    | none => exact h
    | some sn =>
      simp only [wp_bind]
      refine wp_attempt_atomic ?_ h.survives
      cases hdata : sn.snapshot r.store with
      | error err => exact hidle
      | ok data =>
        have hcov := hrun.logThrough_eq hrun.boundary_le
        simp only [wp_bind]
        let s : Snapshot := ⟨r.lastApplied, lastTerm (r.history.take r.lastApplied), data,
          r.covered ++ r.logThrough r.lastApplied⟩
        cases hval : s.validate with
        | error err => exact wp_saveSnapshot_error hval hidle
        | ok u =>
          have hst : s.Standing M r.history :=
            ⟨hrun.applied_le.trans hrun.commit_le, hcov, by simp only [s, hcov],
              by simp only [s, hcov]; exact M.snapshot hsn himg hdata (s.validate_ok_iff.mp hval).2⟩
          have h' : Reaches M tidy i p
              { r with apply := .snapshotSaved ⟨r.lastApplied, lastTerm (r.history.take r.lastApplied)⟩ }
              { d with snapshot := some s } := by
            refine ⟨?_, h.steps⟩
            exact
              { hrun with
                boundary_disk := hrun.boundary_le
                disk_applied := le_rfl
                disk_snapshot := fun s' hs' => Option.some.inj hs' ▸ hst
                phase := ⟨himg, rfl, s, rfl, rfl⟩ }
          refine wp_saveSnapshot hval ?_ h.survives h'.survives
          exact h'
  | _ => exact h

theorem snapshotPublish_spec :
    wp Atomic (Survives M i p) snapshotPublish
      (fun _ r' d' => Reaches M tidy i p r' d') r d := by
  have hrun := h.running
  simp only [snapshotPublish, wp_bind, wp_read]
  cases hphase : r.apply with
  | snapshotSaved b =>
    obtain ⟨himg, rfl, s, hs, hmeta⟩ := hrun.phase_of hphase
    have hidle : Reaches M tidy i p { r with apply := .idle } d :=
      h.setPhase rfl rfl rfl rfl rfl rfl rfl himg
    simp only [wp_ite, wp_modify]
    refine ⟨fun _ => hidle, fun _ => ?_⟩
    have hlen := hrun.applied_le.trans hrun.commit_le
    have hb := hrun.boundary_le
    rw [hrun.entriesFromLocked_eq, if_pos (by omega), Nat.add_sub_cancel]
    simp only [wp_bind]
    have hcov := hrun.logThrough_eq hb
    let r' : Raft σ := { r with
      log := r.history.drop r.lastApplied
      snapshotMeta := ⟨r.lastApplied, lastTerm (r.history.take r.lastApplied)⟩
      covered := r.covered ++ r.logThrough r.lastApplied
      apply := .idle }
    have hhist : r'.history = r.history := by
      change (r.covered ++ r.logThrough r.lastApplied) ++ r.history.drop r.lastApplied = r.history
      rw [hcov, List.take_append_drop]
    have hidx : s.lastIncludedIndex = r.lastApplied :=
      congrArg SnapshotMetadata.lastIncludedIndex hmeta
    have h' : Reaches M tidy i p r' { d with
        log := d.log.drop (r.lastApplied - r.snapshotMeta.lastIncludedIndex) } := by
      constructor
      · exact
          { covered_length := by
              change (r.covered ++ r.logThrough r.lastApplied).length = r.lastApplied
              rw [hcov, List.length_take, Nat.min_eq_left hlen]
            boundary_term := by
              change lastTerm (r.history.take r.lastApplied) = lastTerm (r.covered ++ _)
              rw [hcov]
            indexed := hhist ▸ hrun.indexed
            valid := hhist ▸ hrun.valid
            boundary_le := le_rfl
            applied_le := hrun.applied_le
            commit_le := hhist ▸ hrun.commit_le
            vote_ge := hrun.vote_ge
            disk_log := by
              change d.log.drop _ = r.history.drop r.lastApplied
              rw [hrun.disk_log, hrun.history_drop hb]
            disk_stable := hrun.disk_stable
            boundary_disk := by simp [Disk.boundary, hs, hidx, r']
            disk_applied := hrun.disk_applied
            disk_snapshot := hhist ▸ hrun.disk_snapshot
            phase := by
              change M.Image (r'.history.take r.lastApplied) r.store
              rw [hhist]
              exact himg }
      · have hpeer : r'.peer = r.peer := by
          simp only [Raft.peer, hhist]
          rfl
        exact hpeer ▸ h.steps
    refine wp_compactThrough (hrun.disk_log ▸ hrun.log_valid) (hrun.disk_log ▸ hrun.log_indexed) ?_
      h.survives h'.survives
    exact h'
  | _ => exact h

end DistributedKv
