import DistributedKv.Goroutines.Refinement
import DistributedKv.Raft.Leading
import DistributedKv.Raft.Ordered

/-!
What a step of a node does to `lastApplied`, `commitIndex` and the phase of its
apply goroutine, whatever the stores answer, and at which place of the apply loop
each phase can be found.
-/

namespace DistributedKv

open Crash Prog

variable {σ : Type} {env : Env σ} {i : Input} {r₀ r r' : Raft σ} {d d' : Disk}

/-- The inputs that can move `commitIndex`. -/
def Input.Commits : Input → Prop
  | .appendRequest _ => True
  | .appendResponse _ _ _ => True
  | .installRequest _ => True
  | _ => False

/-! ## What a step does to the indexes -/

/-- What the steps of a node do to the two indexes and to a recorded error. -/
structure Raft.Progresses (r r' : Raft σ) : Prop where
  applied : r.lastApplied ≤ r'.lastApplied
  commit : r.commitIndex ≤ r'.commitIndex
  error : r.applyErr ≠ none → r'.applyErr ≠ none

namespace Raft.Progresses

theorem refl (r : Raft σ) : r.Progresses r := ⟨le_rfl, le_rfl, id⟩

theorem trans {r₁ r₂ r₃ : Raft σ} (h : r₁.Progresses r₂) (h' : r₂.Progresses r₃) :
    r₁.Progresses r₃ :=
  ⟨h.applied.trans h'.applied, h.commit.trans h'.commit, fun he => h'.error (h.error he)⟩

end Raft.Progresses

theorem Raft.stopped_applyErr (r : Raft σ) (err : String) : (r.stopped err).applyErr ≠ none := by
  unfold Raft.stopped
  split
  · rename_i herr
    change r.applyErr ≠ none
    rw [herr]
    exact Option.some_ne_none _
  · exact Option.some_ne_none _

theorem Effect.progresses (he : Effect env r₀ i r r') : r.Progresses r' := by
  cases he with
  | followCommit _ _ hlt => exact ⟨le_rfl, hlt.le, id⟩
  | install => exact ⟨Nat.le_max_left _ _, Nat.le_max_left _ _, id⟩
  | advance _ _ _ _ index _ hc => exact ⟨le_rfl, (commitCandidate_some hc).1.le, id⟩
  | checkpoint _ entry _ hnext =>
    obtain ⟨_, _, -, -, heq⟩ := r.checkpointed_eq entry
    rw [heq]
    refine ⟨?_, le_rfl, id⟩
    change r.lastApplied ≤ entry.index
    omega
  | stop _ err =>
    refine ⟨?_, ?_, fun _ => r.stopped_applyErr err⟩
    all_goals
      obtain ⟨_, _, _, -, -, heq⟩ := r.stopped_eq err
      rw [heq]
  | _ => exact ⟨le_rfl, le_rfl, id⟩

theorem Effects.progresses (he : Effects env r i r') : r.Progresses r' := by
  induction he with
  | refl => exact .refl r
  | tail _ he ih => exact ih.trans he.progresses

theorem Effect.commitIndex_eq (he : Effect env r₀ i r r') (hi : ¬ i.Commits) :
    r'.commitIndex = r.commitIndex := by
  cases he with
  | followCommit => exact absurd trivial hi
  | install => exact absurd trivial hi
  | advance => exact absurd trivial hi
  | checkpoint _ entry =>
    obtain ⟨_, _, -, -, heq⟩ := r.checkpointed_eq entry
    rw [heq]
  | stop _ err =>
    obtain ⟨_, _, _, -, -, heq⟩ := r.stopped_eq err
    rw [heq]
  | _ => rfl

theorem Effects.commitIndex_eq (he : Effects env r i r') (hi : ¬ i.Commits) :
    r'.commitIndex = r.commitIndex := by
  induction he with
  | refl => rfl
  | tail _ he ih => exact (he.commitIndex_eq hi).trans ih

/-- `HandleInstallSnapshot` moves `commitIndex` only together with the boundary. -/
theorem Effect.install_cases {req : InstallSnapshotRequest}
    (he : Effect env r₀ (.installRequest req) r r') :
    r'.commitIndex = r.commitIndex ∧ r'.snapshotMeta = r.snapshotMeta ∨
      r.Installs req ∧ r' = r.installed req := by
  cases he with
  | install _ _ _ hins => exact .inr ⟨hins, rfl⟩
  | _ => exact .inl ⟨rfl, rfl⟩

theorem Effects.install_cases {req : InstallSnapshotRequest}
    (he : Effects env r (.installRequest req) r')
    (h : r.snapshotMeta.lastIncludedIndex ≤ r.lastApplied) :
    r'.commitIndex = r.commitIndex ∨
      r.snapshotMeta.lastIncludedIndex < r'.snapshotMeta.lastIncludedIndex := by
  induction he with
  | refl => exact .inl rfl
  | @tail b c hes he ih =>
    rcases he.install_cases with ⟨hcommit, hmeta⟩ | ⟨hins, rfl⟩
    · rcases ih with ih | ih
      · exact .inl (hcommit.trans ih)
      · exact .inr (by rw [hmeta]; exact ih)
    · refine .inr ?_
      have habove := hins.above
      have happlied := (Effects.progresses hes).applied
      change r.snapshotMeta.lastIncludedIndex < req.lastIncludedIndex
      omega

/-! ## What a step does to the apply goroutine -/

theorem entryAtLocked_index {index : Nat} {e : LogEntry} (h : r.entryAtLocked index = some e) :
    e.index = index := by
  unfold Raft.entryAtLocked at h
  split at h
  · cases h
  rename_i offset hoffset
  unfold Raft.logOffsetLocked at hoffset
  split at hoffset
  · cases hoffset
  dsimp only at hoffset
  split at hoffset
  · cases hoffset
  rename_i e' he'
  split at hoffset
  · cases hoffset
  rename_i hidx
  obtain rfl := Option.some.inj hoffset
  rw [he'] at h
  obtain rfl := Option.some.inj h
  exact not_not.mp hidx

/-- The entry in the hands of the apply goroutine is a committed one. -/
theorem Effect.within (he : Effect env r₀ i r r') (h : r.apply.Within r.commitIndex) :
    r'.apply.Within r'.commitIndex := by
  have hmono : r.apply.Within r'.commitIndex := h.mono he.progresses.commit
  cases he with
  | select _ entry _ hlt hentry =>
    have := entryAtLocked_index hentry
    change entry.index ≤ r.commitIndex
    omega
  | applyNoop _ entry hsel | applyDone _ entry _ _ hsel =>
    rw [hsel] at h
    exact h
  | checkpoint _ entry =>
    obtain ⟨_, _, -, -, heq⟩ := r.checkpointed_eq entry
    rw [heq]
    trivial
  | stop _ err =>
    obtain ⟨_, _, _, -, -, heq⟩ := r.stopped_eq err
    rw [heq]
    trivial
  | selectFailed | applyFailed | checkpointFailed | begin | save | abandon | compact => trivial
  | _ => exact hmono

theorem Effects.within (he : Effects env r i r') (h : r.apply.Within r.commitIndex) :
    r'.apply.Within r'.commitIndex := by
  induction he with
  | refl => exact h
  | tail _ he ih => exact he.within ih

namespace Goroutines

/-- The phases of the apply goroutine at each place of its loop. -/
def Fits : ApplyLoop → ApplyPhase → Prop
  | .waiting, phase => phase = .idle
  | .applying, phase => phase.holdsSnapshotMu = false ∧ phase ≠ .stopped
  | .snapshotting, phase => phase = .idle ∨ phase.holdsSnapshotMu = true
  | .ended, phase => phase = .stopped

/-- A place of the loop at which the goroutine can take the input. -/
def ApplyLoop.Takes (loop : ApplyLoop) (i : Input) : Prop :=
  (i = .applySelect → loop = .applying) ∧ (i = .snapshotBegin → loop = .snapshotting) ∧
    i ≠ .recordApplyFailure

end Goroutines

open Goroutines

theorem Effect.fits {loop : ApplyLoop} (he : Effect env r₀ i r r') (hi : loop.Takes i)
    (h : Fits loop r.apply) : Fits loop r'.apply := by
  cases he with
  | select _ _ hidle =>
    obtain rfl := hi.1 rfl
    exact ⟨rfl, ApplyPhase.noConfusion⟩
  | selectFailed _ _ hidle =>
    obtain rfl := hi.1 rfl
    exact ⟨rfl, ApplyPhase.noConfusion⟩
  | applyNoop _ _ ha | applyDone _ _ _ _ ha | applyFailed _ _ _ ha | checkpointFailed _ _ _ ha =>
    rw [ha] at h
    cases loop with
    | applying => exact ⟨rfl, ApplyPhase.noConfusion⟩
    | waiting => cases h
    | snapshotting => rcases h with h | h <;> cases h
    | ended => cases h
  | checkpoint _ entry ha =>
    obtain ⟨_, _, -, -, heq⟩ := r.checkpointed_eq entry
    rw [heq]
    rw [ha] at h
    cases loop with
    | applying => exact ⟨rfl, ApplyPhase.noConfusion⟩
    | waiting => cases h
    | snapshotting => rcases h with h | h <;> cases h
    | ended => cases h
  | stop => exact absurd rfl hi.2.2
  | begin =>
    obtain rfl := hi.2.1 rfl
    exact .inr rfl
  | save _ _ ha =>
    rw [ha] at h
    cases loop with
    | snapshotting => exact .inr rfl
    | applying => cases h.1
    | waiting => cases h
    | ended => cases h
  | abandon _ _ ha =>
    cases loop with
    | snapshotting => exact .inl rfl
    | applying => exact absurd ha (by rw [h.1]; exact Bool.false_ne_true)
    | waiting =>
      rw [show r.apply = .idle from h] at ha
      cases ha
    | ended =>
      rw [show r.apply = .stopped from h] at ha
      cases ha
  | compact _ _ _ ha =>
    rw [ha] at h
    cases loop with
    | snapshotting => exact .inl rfl
    | applying => cases h.1
    | waiting => cases h
    | ended => cases h
  | _ => exact h

theorem Effects.fits {loop : ApplyLoop} (he : Effects env r i r') (hi : loop.Takes i)
    (h : Fits loop r.apply) : Fits loop r'.apply := by
  induction he with
  | refl => exact h
  | tail _ he ih => exact he.fits hi ih

/-- Either there is nothing to apply, or the goroutine takes an entry or an error
into its hands. -/
theorem applySelect_idle (hidle : r.apply = .idle) :
    wp Any (fun _ => True) (applySelect env)
      (fun _ r' _ => r'.apply = .idle → r'.commitIndex ≤ r'.lastApplied) r d := by
  simp only [applySelect, wp_bind, wp_read, wp_ite, wp_pure]
  refine ⟨fun hskip _ => ?_, fun hgo => ?_⟩
  · rcases hskip with hne | hle
    · exact absurd hidle hne
    · exact hle
  · cases r.entryAtLocked (r.lastApplied + 1) with
    | none =>
      rw [wp_modify]
      exact fun h => by cases h
    | some entry =>
      simp only [wp_ite, wp_modify]
      exact ⟨fun _ h => (by cases h), fun _ h => by cases h⟩

theorem recordApplyFailure_stopped {err : String} (hfailed : r.apply = .failed err) :
    wp Any (fun _ => True) (recordApplyFailure : Op σ Unit)
      (fun _ r' _ => r'.apply = .stopped ∧ r'.applyErr ≠ none) r d := by
  simp only [recordApplyFailure, wp_bind, wp_read, hfailed]
  cases herr : r.applyErr with
  | none => exact ⟨rfl, Option.some_ne_none _⟩
  | some e =>
    refine ⟨rfl, ?_⟩
    change r.applyErr ≠ none
    rw [herr]
    exact Option.some_ne_none _

/-- The entry that was selected is applied, or the goroutine fails. -/
theorem applyEntry_applied {entry : LogEntry} (hsel : r.apply = .selected entry)
    (happlier : env.applier ≠ none) :
    wp Any (fun _ => True) (applyEntry env)
      (fun _ r' _ => (∃ e, r'.apply = .applied e) ∨ ∃ err, r'.apply = .failed err) r d := by
  simp only [applyEntry, wp_bind, wp_read, hsel, wp_ite, wp_modify]
  refine ⟨fun _ => .inl ⟨entry, rfl⟩, fun _ => ?_⟩
  cases hf : env.applier with
  | none => exact absurd hf happlier
  | some f =>
    simp only [wp_bind, wp_attempt]
    refine ⟨?_, fun _ _ => .inr ⟨_, rfl⟩, fun _ _ => .inr ⟨_, rfl⟩, fun _ _ => trivial⟩
    cases f entry r.store with
    | error err => exact .inr ⟨_, rfl⟩
    | ok store => exact .inl ⟨entry, rfl⟩

/-- The entry that was applied is checkpointed, or the goroutine fails. -/
theorem applyCheckpoint_idle {entry : LogEntry} (happlied : r.apply = .applied entry) :
    wp Any (fun _ => True) (applyCheckpoint : Op σ _)
      (fun _ r' _ => (r'.apply = .idle ∧ r'.lastApplied = r.lastApplied + 1 ∧
        r.lastApplied + 1 = entry.index) ∨ ∃ err, r'.apply = .failed err) r d := by
  simp only [applyCheckpoint, saveStableValuesLocked, wp_bind, wp_read, happlied, wp_ite, wp_modify,
    wp_pure]
  refine ⟨fun _ => .inr ⟨_, rfl⟩, fun hnext => ?_⟩
  refine wp_store_of_keeps trivial (fun _ _ => trivial) (fun _ => trivial) ?_
  rintro (_ | _) _ _
  · exact .inr ⟨_, rfl⟩
  · obtain ⟨_, _, -, -, heq⟩ := r.checkpointed_eq entry
    have hidx := not_not.mp hnext
    refine .inl ⟨?_, ?_, hidx⟩
    · change (r.checkpointed entry).apply = .idle
      rw [heq]
    · change (r.checkpointed entry).lastApplied = r.lastApplied + 1
      rw [heq, hidx]

/-- What the checkpoint establishes holds after the step. -/
theorem checkpoint_done {answers : List Outcome} {out : Output} {Q : Raft σ → Prop}
    (hrun : (react env .applyCheckpoint).run answers r d = .done out r' d')
    (hwp : wp Any (fun _ => True) applyCheckpoint (fun _ r' _ => Q r') r d) : Q r' := by
  have hstep : wp Any (fun _ => True) (react env .applyCheckpoint) (fun _ r' _ => Q r') r d := by
    simp only [react, wp_bind]
    refine wp_mono _ _ _ hwp ?_ fun _ hd => hd
    rintro (_ | ⟨channel, entry⟩) r' d' hq
    · exact hq
    · exact hq
  have hdone := wp_run _ _ answers r d (fun _ _ => trivial) hstep
  rwa [hrun] at hdone

theorem snapshotSave_saved {b : SnapshotMetadata} (hb : r.apply = .snapshotting b)
    (hsn : env.snapshotter ≠ none) :
    wp Any (fun _ => True) (snapshotSave env)
      (fun _ r' _ => r'.apply = .idle ∨ ∃ b, r'.apply = .snapshotSaved b) r d := by
  simp only [snapshotSave, wp_bind, wp_read, hb]
  cases hs : env.snapshotter with
  | none => exact absurd hs hsn
  | some snapshotter =>
    simp only [wp_bind, wp_attempt]
    refine ⟨?_, fun _ _ => .inl rfl, fun _ _ => .inl rfl, fun _ _ => trivial⟩
    cases snapshotter.snapshot r.store with
    | error err => exact .inl rfl
    | ok data =>
      rw [wp_bind]
      refine wp_store_of_keeps trivial (fun _ _ => trivial) (fun _ => trivial) ?_
      rintro (_ | _) _ _
      · exact .inl rfl
      · exact .inr ⟨b, rfl⟩

theorem snapshotPublish_idle {b : SnapshotMetadata} (hb : r.apply = .snapshotSaved b) :
    wp Any (fun _ => True) (snapshotPublish : Op σ _) (fun _ r' _ => r'.apply = .idle) r d := by
  simp only [snapshotPublish, wp_bind, wp_read, hb, wp_ite, wp_modify]
  refine ⟨fun _ => trivial, fun _ => ?_⟩
  cases r.entriesFromLocked (b.lastIncludedIndex + 1) with
  | none => exact rfl
  | some suffix =>
    rw [wp_bind]
    refine wp_store_of_keeps trivial (fun _ _ => trivial) (fun _ => trivial) ?_
    rintro (_ | _) _ _
    · exact rfl
    · exact rfl

/-! ## Starting -/

/-- A node that has started has applied everything that is committed. -/
def CaughtUpStart (out : Except String (Raft σ)) : Prop :=
  ∀ r, out = .ok r → r.commitIndex ≤ r.lastApplied

theorem CaughtUpStart.error (err : String) : CaughtUpStart (.error err : Except String (Raft σ)) :=
  fun _ h => by cases h

theorem replayCommitted_caughtUp (persisted : StableState) (r : Raft σ) :
    Keeps Any (fun _ => True) (fun _ => True) CaughtUpStart (replayCommitted env persisted r) := by
  unfold replayCommitted
  refine .bind (P := fun _ => True) (fun v d _ _ => ?_) fun out _ => ?_
  · exact wp_mono _ _ _ (replay_unchanged (R := fun _ => True) _ _ trivial)
      (fun _ _ _ _ => ⟨trivial, trivial, trivial⟩) fun _ h => h
  cases out with
  | error err => exact .pure (.error err)
  | ok _ =>
    refine .bind .read fun store _ => ?_
    have hok : CaughtUpStart (.ok { r with
        lastApplied := max r.lastApplied r.commitIndex, store := store }) := by
      intro r' hr'
      obtain rfl := Except.ok.inj hr'
      exact Nat.le_max_right _ _
    dsimp only
    split
    · refine .bind (keeps_store _) fun res _ => ?_
      cases res with
      | error err => exact .pure (.error _)
      | ok _ => exact .pure hok
    · exact .pure hok

theorem newWithLogAndSnapshot_caughtUp (b : SnapshotMetadata) (covers : List LogEntry) :
    Keeps Any (fun _ => True) (fun _ => True) CaughtUpStart
      (newWithLogAndSnapshot env b covers) := by
  unfold newWithLogAndSnapshot
  split
  · exact .pure (.error _)
  split
  · exact .pure (.error _)
  refine .bind .disk fun d _ => ?_
  split
  · exact .pure (.error _)
  split
  · exact .pure (.error _)
  split
  · exact .pure (.error _)
  dsimp only
  split
  · exact .pure (.error _)
  split
  · exact .pure (.error _)
  · exact .bind .read fun store _ => replayCommitted_caughtUp _ _

theorem recoverLog_keeps (entries : List LogEntry) (b : SnapshotMetadata) :
    Keeps Any (fun _ => True) (fun _ => True) (fun _ => True)
      (recoverLogAfterSnapshot entries b : Boot σ _) := by
  unfold recoverLogAfterSnapshot
  cases entries with
  | nil => exact .pure trivial
  | cons first rest =>
    dsimp only
    split
    · exact .pure trivial
    split
    · exact .pure trivial
    split
    · exact keeps_store _
    · exact keeps_store _

theorem newWithSnapshot_caughtUp :
    Keeps Any (fun _ => True) (fun _ => True) CaughtUpStart (newWithSnapshot env) := by
  unfold newWithSnapshot
  split
  · exact .pure (.error _)
  refine .bind .disk fun d _ => ?_
  split
  · exact newWithLogAndSnapshot_caughtUp _ _
  split
  · exact .pure (.error _)
  split
  · exact .pure (.error _)
  split
  · exact .pure (.error _)
  refine .bind (recoverLog_keeps _ _) fun recovered _ => ?_
  cases recovered with
  | error err => exact .pure (.error _)
  | ok _ =>
  refine .bind .attempt fun restored _ => ?_
  cases restored with
  | error err => exact .pure (.error _)
  | ok _ =>
  dsimp only
  split
  · exact .pure (.error _)
  refine .bind (.modify fun _ _ => trivial) fun _ _ => .bind (keeps_store _) fun saved _ => ?_
  cases saved with
  | error err => exact .pure (.error _)
  | ok _ => exact newWithLogAndSnapshot_caughtUp _ _

theorem start_caughtUp {answers : List Outcome} {v : σ} {d' : Disk}
    (h : start env answers d = .done (.ok r) v d') : r.commitIndex ≤ r.lastApplied := by
  have hkeeps : Keeps Any _ _ _ (newWithSnapshot env) := newWithSnapshot_caughtUp
  have hdone := hkeeps.run (o := answers) (v := env.initial) (d := d) (fun _ _ => trivial) trivial
    trivial
  rw [show (newWithSnapshot env).run answers env.initial d = _ from h] at hdone
  exact hdone.1 r rfl

end DistributedKv
