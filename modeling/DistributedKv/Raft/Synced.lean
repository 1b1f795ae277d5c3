import DistributedKv.Raft.Immutable
import DistributedKv.Raft.Ordered
import DistributedKv.Raft.Payload

/-!
Memory and disk when store calls fail without effect. After every step of a node
the durable log is the one in memory, the durable stable state is the one in
memory, and the durable snapshot is not behind the boundary in memory
(`Synced`), with one exception: an InstallSnapshot that has rewritten the log
file and then fails to restore the state machine or to save the stable state
leaves the old log in memory. `memory_matches_disk` is about every life of a node
without that exception (`Raft.Steady`), `restore_failure_loses_log` shows it. The
log in memory is the one that was given to the file; the file reads back as it if
every key and value in it is text.
-/

namespace DistributedKv

open Crash Prog

variable {σ : Type} {env : Env σ} {r r' : Raft σ} {d d' : Disk}

/-- Memory and files of a node between two calls. -/
structure Synced (r : Raft σ) (d : Disk) : Prop where
  log : d.log = r.log
  stable : d.stable = r.stable
  saved : r.snapshotMeta.lastIncludedIndex ≤ d.boundary
  indexed : Indexed r.snapshotMeta.lastIncludedIndex r.log
  boundary_le : r.snapshotMeta.lastIncludedIndex ≤ r.lastApplied
  phase : ∀ b, r.apply.boundary = some b → b.lastIncludedIndex = r.lastApplied
  snapshotSaved : ∀ b, r.apply = .snapshotSaved b → b.lastIncludedIndex ≤ d.boundary

namespace Synced

/-- A change that leaves the log, the boundary and the apply goroutine alone. -/
theorem update (h : Synced r d) (hlog : r'.log = r.log) (hmeta : r'.snapshotMeta = r.snapshotMeta)
    (happlied : r'.lastApplied = r.lastApplied) (happly : r'.apply = r.apply)
    (hdlog : d'.log = d.log) (hsnapshot : d'.snapshot = d.snapshot)
    (hstable : d'.stable = r'.stable) : Synced r' d' where
  log := by rw [hdlog, hlog]; exact h.log
  stable := hstable
  saved := by rw [hmeta, Disk.boundary, hsnapshot]; exact h.saved
  indexed := by rw [hmeta, hlog]; exact h.indexed
  boundary_le := by rw [hmeta, happlied]; exact h.boundary_le
  phase := by rw [happly, happlied]; exact h.phase
  snapshotSaved := by rw [happly, Disk.boundary, hsnapshot]; exact h.snapshotSaved

/-- A new phase of the apply goroutine that is not part of `maybeSnapshot`. -/
theorem setPhase (h : Synced r d) {phase : ApplyPhase} (hp : phase.boundary = none) :
    Synced { r with apply := phase } d where
  log := h.log
  stable := h.stable
  saved := h.saved
  indexed := h.indexed
  boundary_le := h.boundary_le
  phase b hb := by
    rw [hp] at hb
    cases hb
  snapshotSaved b hb := by
    obtain rfl : phase = .snapshotSaved b := hb
    cases hp

theorem carried (h : Synced r d) (hc : Carried r d r' d') : Synced r' d' where
  log := hc.log
  stable := hc.stable h.stable
  saved := by rw [hc.snapshotMeta, Disk.boundary, hc.snapshot]; exact h.saved
  indexed := by rw [hc.snapshotMeta]; exact hc.indexed
  boundary_le := by rw [hc.snapshotMeta, hc.lastApplied]; exact h.boundary_le
  phase := by rw [hc.apply, hc.lastApplied]; exact h.phase
  snapshotSaved := by rw [hc.apply, Disk.boundary, hc.snapshot]; exact h.snapshotSaved

theorem lastLogIndexLocked (h : Synced r d) :
    r.lastLogIndexLocked = r.snapshotMeta.lastIncludedIndex + r.log.length :=
  Raft.lastLogIndexLocked_of_indexed rfl h.indexed

/-- The suffix of the log in memory is what compacting leaves in the file. -/
theorem entriesFromLocked_eq (h : Synced r d) {index : Nat} {es l : List LogEntry}
    (hes : r.entriesFromLocked (index + 1) = some es)
    (hl : LogStore.compactThrough index d.log = .ok l) :
    l = es ∧ Indexed index es := by
  have hdrop : l = r.log.drop (index - r.snapshotMeta.lastIncludedIndex) := by
    rw [LogStore.compactThrough_eq hl, h.log, LogStore.dropWhile_indexed h.indexed]
  have hlast := h.lastLogIndexLocked
  unfold Raft.entriesFromLocked Raft.firstLogIndexLocked at hes
  split at hes
  · cases hes
  rename_i hrange
  have hidx := h.indexed.drop (k := index - r.snapshotMeta.lastIncludedIndex) (by omega)
  rw [show r.snapshotMeta.lastIncludedIndex + (index - r.snapshotMeta.lastIncludedIndex) = index by
    omega] at hidx
  suffices hsame : es = r.log.drop (index - r.snapshotMeta.lastIncludedIndex) from
    ⟨hdrop.trans hsame.symm, hsame ▸ hidx⟩
  split at hes
  · rw [List.drop_eq_nil_of_le (by omega)]
    exact (Option.some.inj hes).symm
  split at hes
  · cases hes
  · rename_i offset hoffset
    obtain ⟨rfl, -⟩ := Raft.logOffsetLocked_some hoffset
    rw [← Option.some.inj hes]
    congr 1
    omega

/-- An entry that continues the log, in memory and in the file. -/
theorem append (h : Synced r d) {e : LogEntry} (he : e.index = r.lastLogIndexLocked + 1)
    (hlog : r'.log = r.log ++ [e]) (hmeta : r'.snapshotMeta = r.snapshotMeta)
    (happlied : r'.lastApplied = r.lastApplied) (happly : r'.apply = r.apply)
    (hstable : r'.stable = r.stable) : Synced r' { d with log := d.log ++ [e] } where
  log := by rw [hlog, h.log]
  stable := h.stable.trans hstable.symm
  saved := by rw [hmeta]; exact h.saved
  indexed := by
    rw [hmeta, hlog, Indexed.append, Indexed.cons]
    exact ⟨h.indexed, he.trans (by rw [h.lastLogIndexLocked]), Indexed.nil _⟩
  boundary_le := by rw [hmeta, happlied]; exact h.boundary_le
  phase := by rw [happly, happlied]; exact h.phase
  snapshotSaved := by rw [happly]; exact h.snapshotSaved

end Synced

/-! ## Operations without InstallSnapshot -/

section Operations

variable {R : Disk → Prop}

theorem wp_appendOne {e : LogEntry} {Q : Except String Unit → Raft σ → Disk → Prop}
    (hok : Q (.ok ()) r { d with log := d.log ++ [e] }) (herr : ∀ err, Q (.error err) r d) :
    wp Clean R (store (Disk.appendLog [e])) Q r d := by
  refine wp_store_clean (fun d' hd' => ?_) herr
  simp only [Disk.appendLog] at hd'
  split at hd'
  · cases hd'
  rename_i l hl
  obtain rfl := Except.ok.inj hd'
  obtain ⟨-, rfl⟩ := (LogStore.append_ok_iff _ _ _).mp hl
  exact hok

variable (h : Synced r d)

include h

theorem becomeFollowerLocked_synced (term : Nat) (leaderID : Int) :
    wp Clean R (becomeFollowerLocked term leaderID) (fun _ r' d' => Synced r' d') r d :=
  wp_mono _ _ _ (becomeFollowerLocked_carried (.refl h.indexed h.log) term leaderID)
    (fun _ _ _ hc => h.carried hc) fun _ hd => hd

theorem becomeLeaderLocked_synced :
    wp Clean R (becomeLeaderLocked env) (fun _ r' d' => Synced r' d') r d := by
  simp only [becomeLeaderLocked, wp_bind, wp_read]
  refine wp_appendOne ?_ fun err => h
  simp only [wp_bind, wp_modify, wp_pure]
  exact h.append (e := noopEntry (r.lastLogInfoLocked.1 + 1) r.currentTerm) rfl rfl rfl rfl rfl rfl

theorem startElection_synced :
    wp Clean R (startElection env) (fun _ r' d' => Synced r' d') r d := by
  simp only [startElection, becomeCandidateLocked, saveStableLocked, saveStableValuesLocked,
    wp_bind, wp_read]
  refine wp_saveStable_clean (fun _ => ?_) fun err => h
  simp only [wp_bind, wp_modify, wp_pure, wp_read, wp_ite]
  refine ⟨fun _ => ⟨fun _ => becomeLeaderLocked_synced ?_, fun _ => ?_⟩, fun _ => ?_⟩
  all_goals exact h.update rfl rfl rfl rfl rfl rfl rfl

theorem receiveVote_synced (peer : Int) (term : Nat) (resp : RequestVoteResponse) :
    wp Clean R (receiveVote env peer term resp) (fun _ r' d' => Synced r' d') r d := by
  have hsame : ∀ e, Synced { r with election := e } d := fun e =>
    h.update rfl rfl rfl rfl rfl rfl h.stable
  simp only [receiveVote, wp_bind, wp_read]
  cases r.election with
  | none => exact h
  | some e =>
    simp only [wp_ite, wp_pure, wp_bind, wp_modify]
    refine ⟨fun _ => h, fun _ => ⟨fun _ => ?_, fun _ => ⟨fun _ => hsame _, fun _ =>
      ⟨fun _ => ⟨fun _ => ?_, fun _ => hsame _⟩, fun _ => hsame _⟩⟩⟩⟩
    · refine wp_mono _ _ _ (becomeFollowerLocked_synced h _ _) ?_ fun _ hd => hd
      exact fun _ _ _ h' => h'.update rfl rfl rfl rfl rfl rfl h'.stable
    · refine wp_mono _ _ _ (becomeLeaderLocked_synced h) ?_ fun _ hd => hd
      exact fun _ _ _ h' => h'.update rfl rfl rfl rfl rfl rfl h'.stable

theorem propose_synced (command : Command) :
    wp Clean R (propose env command) (fun _ r' d' => Synced r' d') r d := by
  unfold propose
  split
  · exact h
  simp only [wp_bind, wp_read, wp_ite, wp_pure]
  refine ⟨fun _ => h, fun _ => ⟨fun _ => h, fun _ => ?_⟩⟩
  cases r.applyErr with
  | some err => exact h
  | none =>
    simp only [wp_bind]
    refine wp_appendOne ?_ fun err => h
    simp only [wp_bind, wp_modify, wp_pure]
    exact h.append (e := proposedEntry (r.lastLogInfoLocked.1 + 1) r.currentTerm command) rfl rfl rfl
      rfl rfl rfl

theorem handleAppendEntriesResponse_synced (peer : Int) (req : AppendEntriesRequest)
    (resp : AppendEntriesResponse) :
    wp Clean R (handleAppendEntriesResponse env peer req resp) (fun _ r' d' => Synced r' d') r d := by
  simp only [handleAppendEntriesResponse, advanceCommitIndexLocked, saveStableValuesLocked, wp_bind,
    wp_read, wp_ite, wp_pure, wp_modify]
  refine ⟨fun _ => becomeFollowerLocked_synced h _ _, fun _ => ⟨fun _ => h, fun _ =>
    ⟨fun _ => ⟨fun _ => h, fun _ => h.update rfl rfl rfl rfl rfl rfl h.stable⟩, fun _ => ?_⟩⟩⟩
  have h' : Synced (r.recordMatch peer (req.prevLogIndex + req.entries.length)) d :=
    h.update rfl rfl rfl rfl rfl rfl h.stable
  split
  · exact h'
  · simp only [wp_bind]
    refine wp_saveStable_clean (fun _ => ?_) fun err => h'
    exact h'.update rfl rfl rfl rfl rfl rfl rfl

theorem handleInstallSnapshotResponse_synced (peer : Int) (req : InstallSnapshotRequest)
    (resp : InstallSnapshotResponse) :
    wp Clean R (handleInstallSnapshotResponse peer req resp) (fun _ r' d' => Synced r' d') r d := by
  simp only [handleInstallSnapshotResponse, wp_bind, wp_read, wp_ite, wp_pure, wp_modify]
  exact ⟨fun _ => becomeFollowerLocked_synced h _ _, fun _ => ⟨fun _ => h, fun _ =>
    h.update rfl rfl rfl rfl rfl rfl h.stable⟩⟩

theorem applySelect_synced : wp Clean R (applySelect env) (fun _ r' d' => Synced r' d') r d := by
  simp only [applySelect, wp_bind, wp_read, wp_ite, wp_pure]
  refine ⟨fun _ => h, fun _ => ?_⟩
  cases r.entryAtLocked (r.lastApplied + 1) with
  | none => exact h.setPhase rfl
  | some entry =>
    simp only [wp_ite]
    exact ⟨fun _ => h.setPhase rfl, fun _ => h.setPhase rfl⟩

theorem applyEntry_synced : wp Clean R (applyEntry env) (fun _ r' d' => Synced r' d') r d := by
  simp only [applyEntry, wp_bind, wp_read]
  cases hphase : r.apply with
  | selected entry =>
    simp only [wp_ite]
    refine ⟨fun _ => h.setPhase rfl, fun _ => ?_⟩
    cases env.applier with
    | none => exact h
    | some f =>
      simp only [wp_bind, wp_attempt, Clean, false_implies, implies_true, and_true, true_implies]
      refine ⟨?_, fun err => h.setPhase rfl⟩
      cases f entry r.store with
      | error err => exact h.setPhase rfl
      | ok st =>
        have h' : Synced { r with store := st } d := h.update rfl rfl rfl rfl rfl rfl h.stable
        exact h'.setPhase rfl
  | _ => exact h

theorem applyCheckpoint_synced : wp Clean R applyCheckpoint (fun _ r' d' => Synced r' d') r d := by
  simp only [applyCheckpoint, saveStableValuesLocked, wp_bind, wp_read]
  cases hphase : r.apply with
  | applied entry =>
    simp only [wp_ite, wp_bind, wp_modify, wp_pure]
    refine ⟨fun _ => h.setPhase rfl, fun hnext => ?_⟩
    refine wp_saveStable_clean (fun _ => ?_) fun err => h.setPhase rfl
    simp only [wp_bind, wp_modify, wp_pure]
    obtain ⟨channels, pending, -, -, heq⟩ :=
      Raft.notify_eq { r with lastApplied := entry.index, apply := .idle } entry.index
    rw [heq]
    have hle := h.boundary_le
    exact ⟨h.log, rfl, h.saved, h.indexed, show r.snapshotMeta.lastIncludedIndex ≤ entry.index by omega,
      fun b hb => (by cases hb), fun b hb => (by cases hb)⟩
  | _ => exact h

theorem recordApplyFailure_synced :
    wp Clean R recordApplyFailure (fun _ r' d' => Synced r' d') r d := by
  simp only [recordApplyFailure, wp_bind, wp_read]
  cases hphase : r.apply with
  | failed err =>
    dsimp only
    cases hprev : r.applyErr with
    | some _ => exact h.setPhase rfl
    | none =>
      simp only [wp_modify]
      obtain ⟨channels, -, heq⟩ := Raft.complete_foldl r.pendingResults err r
      rw [heq]
      have h' : Synced { r with channels := channels, applyErr := some err, pendingResults := [] } d :=
        h.update rfl rfl rfl rfl rfl rfl h.stable
      exact h'.setPhase rfl
  | _ => exact h

theorem snapshotBegin_synced : wp Clean R (snapshotBegin env) (fun _ r' d' => Synced r' d') r d := by
  simp only [snapshotBegin, wp_bind, wp_read, wp_ite, wp_pure]
  refine ⟨fun _ => h, fun _ => ?_⟩
  cases r.termAtLocked r.lastApplied with
  | none => exact h
  | some term =>
    refine ⟨h.log, h.stable, h.saved, h.indexed, h.boundary_le, fun b hb => ?_,
      fun b hb => (by cases hb)⟩
    rw [← Option.some.inj hb]

theorem snapshotSave_synced : wp Clean R (snapshotSave env) (fun _ r' d' => Synced r' d') r d := by
  have hidle : Synced { r with apply := .idle } d := h.setPhase rfl
  simp only [snapshotSave, wp_bind, wp_read]
  cases hphase : r.apply with
  | snapshotting b =>
    cases env.snapshotter with
    | none => exact h
    | some sn =>
      simp only [wp_bind, wp_attempt, Clean, false_implies, implies_true, and_true, true_implies]
      refine ⟨?_, fun err => hidle⟩
      cases sn.snapshot r.store with
      | error err => exact hidle
      | ok data =>
        simp only [wp_bind]
        refine wp_store_clean (fun d' hd' => ?_) fun err => hidle
        simp only [Disk.saveSnapshot, Disk.replace] at hd'
        split at hd'
        · cases hd'
        obtain rfl := Except.ok.inj hd'
        have hb : b.lastIncludedIndex = r.lastApplied := h.phase b (by rw [hphase]; rfl)
        refine ⟨h.log, h.stable, ?_, h.indexed, h.boundary_le, fun b' hb' => ?_, fun b' hb' => ?_⟩
        · change _ ≤ b.lastIncludedIndex
          rw [hb]
          exact h.boundary_le
        · rw [← Option.some.inj hb']
          exact hb
        · rw [← ApplyPhase.snapshotSaved.inj hb']
          exact le_rfl
  | _ => cases env.snapshotter <;> exact h

theorem snapshotPublish_synced :
    wp Clean R snapshotPublish (fun _ r' d' => Synced r' d') r d := by
  have hidle : Synced { r with apply := .idle } d := h.setPhase rfl
  simp only [snapshotPublish, wp_bind, wp_read]
  cases hphase : r.apply with
  | snapshotSaved b =>
    simp only [wp_ite, wp_modify]
    refine ⟨fun _ => hidle, fun hguard => ?_⟩
    cases hes : r.entriesFromLocked (b.lastIncludedIndex + 1) with
    | none => exact hidle
    | some suffix =>
      simp only [wp_bind]
      refine wp_store_clean (fun d' hd' => ?_) fun err => hidle
      simp only [Disk.compactThrough, Disk.replace] at hd'
      split at hd'
      · cases hd'
      rename_i l hl
      obtain rfl := Except.ok.inj hd'
      obtain ⟨rfl, hidx⟩ := h.entriesFromLocked_eq hes hl
      have hle : b.lastIncludedIndex ≤ r.lastApplied := by omega
      exact ⟨rfl, h.stable, h.snapshotSaved b hphase, hidx, hle, fun b' hb' => (by cases hb'),
        fun b' hb' => (by cases hb')⟩
  | _ => exact h

end Operations

/-! ## InstallSnapshot -/

/-- The calls of an installation up to the one that rewrites the log file: the
save of a higher term, if the request has one, the save of the snapshot and the
rewriting itself. -/
def Raft.callsToRewrite (r : Raft σ) (req : InstallSnapshotRequest) : Nat :=
  if r.currentTerm < req.term then 3 else 2

/-- An installation that rewrites the log file gets through: the data can be
restored, and no later call fails. -/
def Raft.Steady (env : Env σ) (r : Raft σ) : Input → List Outcome → Prop
  | .installRequest req, answers => r.Accepts req → r.log ≠ [] →
      (∀ o ∈ answers.take (r.callsToRewrite req), o = .ok) →
        (∀ sn, env.snapshotter = some sn → ∃ st, sn.restore req.data = .ok st) ∧
        ∀ o ∈ answers.drop (r.callsToRewrite req), o = .ok
  | _, _ => True

/-- The first call and those that follow it. -/
theorem forall_mem_take_succ {P : Outcome → Prop} {o : List Outcome} {n : Nat}
    (hfirst : ∀ x ∈ o.take 1, P x) (hrest : ∀ x ∈ o.tail.take n, P x) : ∀ x ∈ o.take (n + 1), P x := by
  cases o with
  | nil => simp
  | cons a o =>
    rw [List.take_succ_cons]
    exact List.forall_mem_cons.mpr ⟨hfirst a (by simp), hrest⟩

theorem Raft.retainedSuffix_of_nil {index term : Nat} (hlog : r.log = [])
    (hlt : r.snapshotMeta.lastIncludedIndex < index) : r.retainedSuffix index term = none := by
  have hlast : r.lastLogIndexLocked = r.snapshotMeta.lastIncludedIndex := by
    rw [lastLogIndexLocked, hlog]
    rfl
  have hoffset : r.logOffsetLocked index = none := by
    rw [logOffsetLocked, if_pos (.inr (by omega))]
  have hterm : r.termAtLocked index = none := by
    rw [termAtLocked, if_neg (by omega), entryAtLocked, hoffset]
  rw [retainedSuffix, hterm]

section Install

variable {R : Disk → Prop} {o : List Outcome} {req : InstallSnapshotRequest}

/-- The file holds the suffix that is kept, or the call failed and changed nothing. -/
theorem discardLog_along (h : Synced r d) (ho : ∀ x ∈ o, Clean x) {index term : Nat} :
    along R (discardLog (r.retainedSuffix index term) index)
      (fun out o' r' d' => r = r' ∧ d'.stable = d.stable ∧ d'.snapshot = d.snapshot ∧
        (∀ x ∈ o', Clean x) ∧ (r.log ≠ [] → o' = o.tail) ∧
        match out with
        | .error _ => d'.log = d.log
        | .ok () => d'.log = (r.retainedSuffix index term).getD [] ∧
            Indexed index ((r.retainedSuffix index term).getD []) ∧
            (r.log ≠ [] → ∀ x ∈ o.take 1, x = .ok)) o r d := by
  have htail : ∀ x ∈ o.tail, Clean x := fun x hx => ho x (List.mem_of_mem_tail hx)
  simp only [discardLog, along_bind, along_read]
  cases hs : r.retainedSuffix index term with
  | some es =>
    simp only [along_bind]
    refine along_store_clean ho (fun d' hd' hfirst => ?_) fun err => ?_
    · simp only [Disk.compactThrough, Disk.replace] at hd'
      split at hd'
      · cases hd'
      rename_i l hl
      obtain rfl := Except.ok.inj hd'
      obtain ⟨rfl, hidx⟩ := h.entriesFromLocked_eq (Raft.entriesFrom_of_retainedSuffix hs) hl
      exact ⟨rfl, rfl, rfl, htail, fun _ => rfl, rfl, hidx, fun _ => hfirst⟩
    · exact ⟨rfl, rfl, rfl, htail, fun _ => rfl, rfl⟩
  | none =>
    simp only [along_ite, along_bind, along_pure]
    refine ⟨fun _ => along_store_clean ho (fun d' hd' hfirst => ?_) fun err => ?_, fun hnil => ?_⟩
    · simp only [Disk.truncateFrom, Disk.replace] at hd'
      split at hd'
      · cases hd'
      rename_i l hl
      obtain rfl := Except.ok.inj hd'
      refine ⟨rfl, rfl, rfl, htail, fun _ => rfl, ?_, Indexed.nil _, fun _ => hfirst⟩
      rw [LogStore.truncateFrom_eq hl, h.log, LogStore.takeWhile_indexed h.indexed,
        Raft.firstLogIndexLocked]
      simp
    · exact ⟨rfl, rfl, rfl, htail, fun _ => rfl, rfl⟩
    · have hnil := not_not.mp hnil
      exact ⟨trivial, trivial, trivial, ho, fun hne => absurd hnil hne, h.log.trans hnil,
        Indexed.nil _, fun hne => absurd hnil hne⟩

theorem installSnapshot_synced {sn : Snapshotter σ} (h : Synced r d) (hacc : d.stable.Accepted)
    (ho : ∀ x ∈ o, Clean x) (hmu : r.apply.holdsSnapshotMu = false)
    (hlt : r.lastApplied < req.lastIncludedIndex)
    (hsteady : r.log ≠ [] → (∀ x ∈ o.take 2, x = .ok) →
      (∃ st, sn.restore req.data = .ok st) ∧ ∀ x ∈ o.drop 2, x = .ok) :
    along R (installSnapshot sn req) (fun _ _ r' d' => Synced r' d') o r d := by
  have hbelow : r.snapshotMeta.lastIncludedIndex < req.lastIncludedIndex :=
    h.boundary_le.trans_lt hlt
  have hfree : ∀ b, r.apply.boundary = some b → False := by
    intro b hb
    cases hphase : r.apply <;> rw [hphase] at hmu hb <;> cases hmu <;> cases hb
  simp only [installSnapshot, along_bind, along_read]
  refine along_store_clean ho (fun d₁ hd₁ hsave => ?_) fun err => h
  simp only [Disk.saveSnapshot, Disk.replace] at hd₁
  split at hd₁
  · cases hd₁
  obtain rfl := Except.ok.inj hd₁
  let image : Snapshot := ⟨req.lastIncludedIndex, req.lastIncludedTerm, req.data, req.covers⟩
  have h₁ : Synced r { d with snapshot := some image } :=
    ⟨h.log, h.stable, hbelow.le, h.indexed, h.boundary_le, h.phase,
      fun b hb => (hfree b (by rw [hb]; rfl)).elim⟩
  simp only [along_bind]
  refine along_mono _ _ _ _ (discardLog_along h₁ fun x hx => ho x (List.mem_of_mem_tail hx)) ?_
  rintro (err | _) o₂ _ d₂ ⟨rfl, hstable, hsnapshot, ho₂, hleft, hlog⟩
  · exact h₁.update rfl rfl rfl rfl hlog hsnapshot (hstable.trans h₁.stable)
  obtain ⟨hlog, hidx, hrewrite⟩ := hlog
  let st' : StableState := ⟨r.currentTerm, r.votedFor, max r.commitIndex req.lastIncludedIndex,
    max r.lastApplied req.lastIncludedIndex⟩
  have hst' : st'.Accepted := by
    rw [h.stable] at hacc
    have hle : r.lastApplied ≤ r.commitIndex := hacc.2
    exact ⟨hacc.1, by change max _ _ ≤ max _ _; omega⟩
  -- publishing the new log brings memory in line with the files
  have hpublished : ∀ st : σ, Synced { r with
      log := (r.retainedSuffix req.lastIncludedIndex req.lastIncludedTerm).getD []
      snapshotMeta := ⟨req.lastIncludedIndex, req.lastIncludedTerm⟩
      commitIndex := max r.commitIndex req.lastIncludedIndex
      lastApplied := max r.lastApplied req.lastIncludedIndex
      covered := req.covers, store := st } { d₂ with stable := st' } := by
    intro st
    have hboundary : d₂.boundary = req.lastIncludedIndex := by rw [Disk.boundary, hsnapshot]; rfl
    exact ⟨hlog, rfl, hboundary.ge, hidx, le_max_right _ _, fun b hb => (hfree b hb).elim,
      fun b hb => (hfree b (by rw [show r.apply = _ from hb]; rfl)).elim⟩
  by_cases hnil : r.log = []
  · -- nothing was rewritten, so that a failure leaves memory and files as they were
    have hkeep : ∀ st : σ, Synced { r with store := st } d₂ := by
      intro st
      refine h₁.update rfl rfl rfl rfl ?_ hsnapshot (hstable.trans h₁.stable)
      rw [hlog, Raft.retainedSuffix_of_nil hnil hbelow]
      exact (h.log.trans hnil).symm
    simp only [restoreStore, attempt, along_bind]
    refine along_store_clean ho₂ (fun d₃ hd₃ _ => ?_) fun err => hkeep r.store
    obtain rfl := Except.ok.inj hd₃
    dsimp only
    cases hst : sn.restore req.data with
    | error err => exact hkeep r.store
    | ok st =>
      simp only [along_bind, along_modify, along_pure, saveStableValuesLocked]
      refine along_store_clean (fun x hx => ho₂ x (List.mem_of_mem_tail hx)) (fun d₄ hd₄ _ => ?_)
        fun err => hkeep st
      obtain ⟨-, rfl⟩ := Disk.saveStable_ok_iff.mp hd₄
      exact hpublished st
  · obtain ⟨⟨st, hst⟩, hlate⟩ := hsteady hnil (forall_mem_take_succ hsave (hrewrite hnil))
    have hlate₂ : ∀ x ∈ o₂, x = .ok := by
      rw [hleft hnil, ← List.drop_one, List.drop_tail]
      exact hlate
    simp only [restoreStore, attempt, along_bind]
    refine along_store_ok hlate₂ rfl ?_
    simp only [hst, along_bind, along_modify, along_pure, saveStableValuesLocked]
    refine along_store_ok (fun x hx => hlate₂ x (List.mem_of_mem_tail hx))
      (Disk.saveStable_ok_iff.mpr ⟨hst', rfl⟩) ?_
    exact hpublished st

theorem recognizeLeader_along (h : Synced r d) (hacc : d.stable.Accepted) (ho : ∀ x ∈ o, Clean x)
    {term : Nat} (hge : r.currentTerm ≤ term) (leaderID : Int) :
    along R (recognizeLeader term leaderID)
      (fun out o' r' d' => Synced r' d' ∧ d'.stable.Accepted ∧ (∀ x ∈ o', Clean x) ∧
        r'.apply = r.apply ∧ r'.log = r.log ∧ r'.lastApplied = r.lastApplied ∧
        (o' = if r.currentTerm < term then o.tail else o) ∧
        (out = .ok () → r.currentTerm < term → ∀ x ∈ o.take 1, x = .ok)) o r d := by
  have htail : ∀ x ∈ o.tail, Clean x := fun x hx => ho x (List.mem_of_mem_tail hx)
  simp only [recognizeLeader, becomeFollowerLocked, saveStableLocked, saveStableValuesLocked,
    along_bind, along_read, along_ite, along_pure, along_modify]
  refine ⟨fun hgt => ⟨fun hlt => absurd hge (Nat.not_le_of_lt hlt), fun _ => ⟨fun _ => ?_,
    fun hle => absurd hgt hle⟩⟩, fun hle => ?_⟩
  · simp only [if_pos (show r.currentTerm < term from hgt)]
    refine along_store_clean ho (fun d₁ hd₁ hfirst => ?_) fun err =>
      ⟨h, hacc, htail, rfl, rfl, rfl, rfl, fun hok => (by cases hok)⟩
    obtain ⟨-, rfl⟩ := Disk.saveStable_ok_iff.mp hd₁
    rw [h.stable] at hacc
    exact ⟨h.update rfl rfl rfl rfl rfl rfl rfl, ⟨Int.le_refl _, hacc.2⟩, htail, rfl, rfl, rfl, rfl,
      fun _ _ => hfirst⟩
  · simp only [if_neg (show ¬ r.currentTerm < term from hle)]
    exact ⟨h.update rfl rfl rfl rfl rfl rfl h.stable, hacc, ho, trivial, trivial, trivial, trivial,
      fun _ hlt => absurd hlt hle⟩

theorem handleInstallSnapshot_synced (h : Synced r d) (hacc : d.stable.Accepted)
    (ho : ∀ x ∈ o, Clean x) (hmu : r.apply.holdsSnapshotMu = false)
    (hsteady : r.Steady env (.installRequest req) o) :
    along R (handleInstallSnapshot env req) (fun _ _ r' d' => Synced r' d') o r d := by
  simp only [handleInstallSnapshot, along_bind, along_read, along_ite, along_pure]
  refine ⟨fun _ => h, fun hge => ?_⟩
  have hge := Nat.le_of_not_lt hge
  refine along_mono _ _ _ _ (recognizeLeader_along h hacc ho hge req.leaderID) ?_
  rintro (err | _) o₁ r₁ d₁ ⟨h₁, hacc₁, ho₁, happly, hlog, happlied, hleft, hraise⟩
  · exact h₁
  simp only [along_bind, along_read]
  cases hsn : env.snapshotter with
  | none => exact h₁
  | some sn =>
    dsimp only
    cases hmeta : SnapshotMetadata.validate ⟨req.lastIncludedIndex, req.lastIncludedTerm⟩ with
    | error err => exact h₁
    | ok _ =>
      simp only [along_ite, along_pure]
      refine ⟨fun _ => h₁, fun hdata => ⟨fun _ => h₁, fun hgt => ?_⟩⟩
      have hgt : r₁.lastApplied < req.lastIncludedIndex := Nat.lt_of_not_le hgt
      refine installSnapshot_synced h₁ hacc₁ ho₁ (happly ▸ hmu) hgt fun hne hearly => ?_
      have hsteady := hsteady ⟨hge, hmeta, hdata, happlied ▸ hgt, hmu⟩ (hlog ▸ hne)
      -- the save of a higher term is one call more
      unfold Raft.callsToRewrite at hsteady
      split at hsteady
      · rename_i hlt
        rw [if_pos hlt] at hleft
        subst hleft
        obtain ⟨hrestores, hlate⟩ := hsteady (forall_mem_take_succ (hraise rfl hlt) hearly)
        exact ⟨hrestores sn hsn, by rwa [List.drop_tail]⟩
      · rename_i hle
        rw [if_neg hle] at hleft
        subst hleft
        obtain ⟨hrestores, hlate⟩ := hsteady hearly
        exact ⟨hrestores sn hsn, hlate⟩

end Install

/-! ## Steps -/

theorem react_synced {i : Input} (h : Synced r d) (hi : ∀ req, i ≠ .installRequest req) :
    wp Clean (fun _ => False) (react env i) (fun _ r' d' => Synced r' d') r d := by
  have hquiet : ∀ {α : Type} {op : Op σ α} {f : α → Output},
      wp Clean (fun _ => False) op (fun _ r' d' => Synced r' d') r d →
      wp Clean (fun _ => False) (do let a ← op; return f a) (fun _ r' d' => Synced r' d') r d := by
    intro α op f hop
    simpa only [wp_bind, wp_pure] using hop
  cases i with
  | electionTimeout =>
    simp only [react, wp_bind, wp_read, wp_ite, wp_pure]
    refine ⟨fun _ => h, fun _ => wp_mono _ _ _ (startElection_synced h) ?_ fun _ hd => hd⟩
    rintro (_ | req) _ _ h' <;> exact h'
  | voteRequest req =>
    exact wp_mono _ _ _ (react_carried trivial h.indexed h.log) (fun _ _ _ hc => h.carried hc)
      fun _ hd => hd
  | voteResponse peer term resp => exact hquiet (receiveVote_synced h peer term resp)
  | appendRequest req =>
    exact wp_mono _ _ _ (react_carried trivial h.indexed h.log) (fun _ _ _ hc => h.carried hc)
      fun _ hd => hd
  | appendResponse peer req resp =>
    exact hquiet (handleAppendEntriesResponse_synced h peer req resp)
  | installRequest req => exact absurd rfl (hi req)
  | installResponse peer req resp =>
    exact hquiet (handleInstallSnapshotResponse_synced h peer req resp)
  | propose command =>
    simp only [react, wp_bind]
    refine wp_mono _ _ _ (propose_synced h command) ?_ fun _ hd => hd
    rintro (_ | ⟨index, channel⟩) _ _ h' <;> exact h'
  | sendAppend peer =>
    simp only [react, wp_bind, wp_read]
    cases r.buildAppendEntries env.id peer <;> exact h
  | sendInstall peer =>
    simp only [react, buildInstallSnapshot, wp_bind, wp_read, wp_ite, wp_pure]
    refine ⟨fun _ => h, fun _ => ?_⟩
    cases r.nextIndex peer with
    | none => exact h
    | some next =>
      simp only [wp_ite, wp_pure, wp_bind, wp_disk]
      refine ⟨fun _ => h, fun _ => ⟨fun _ => h, fun _ => ?_⟩⟩
      cases d.snapshot with
      | none => exact h
      | some stored =>
        simp only [wp_ite, wp_pure]
        exact ⟨fun _ => h, fun _ => h⟩
  | applySelect => exact hquiet (applySelect_synced h)
  | applyEntry => exact hquiet (applyEntry_synced h)
  | applyCheckpoint =>
    simp only [react, wp_bind]
    refine wp_mono _ _ _ (applyCheckpoint_synced h) ?_ fun _ hd => hd
    rintro (_ | ⟨channel, entry⟩) _ _ h' <;> exact h'
  | recordApplyFailure => exact hquiet (recordApplyFailure_synced h)
  | snapshotBegin => exact hquiet (snapshotBegin_synced h)
  | snapshotSave => exact hquiet (snapshotSave_synced h)
  | snapshotPublish => exact hquiet (snapshotPublish_synced h)

/-- One step, whichever calls fail, if an installation that rewrites the log file
gets through. -/
theorem run_synced {i : Input} {o : List Outcome} (h : Synced r d) (hacc : d.stable.Accepted)
    (ho : ∀ x ∈ o, Clean x) (hs : r.Steady env i o) :
    ∃ out r' d', (react env i).run o r d = .done out r' d' ∧ Synced r' d' := by
  by_cases hi : ∃ req, i = .installRequest req
  · obtain ⟨req, rfl⟩ := hi
    have halong : along (fun _ => False) (react env (.installRequest req))
        (fun _ _ r' d' => Synced r' d') o r d := by
      simp only [react, along_bind, along_read, along_ite, along_pure]
      refine ⟨fun _ => h, fun hmu => ?_⟩
      refine along_mono _ _ _ _ (handleInstallSnapshot_synced h hacc ho (by simpa using hmu) hs) ?_
      rintro (_ | resp) _ _ _ h' <;> exact h'
    have := along_run _ _ _ _ _ halong
    split at this
    · rename_i out r' d' hrun
      obtain ⟨-, h'⟩ := this
      exact ⟨out, r', d', hrun, h'⟩
    · exact this.elim
  · have hwp : wp Clean (fun _ => False) (react env i) (fun _ r' d' => Synced r' d') r d :=
      react_synced h fun req heq => hi ⟨req, heq⟩
    have := wp_run _ _ o r d ho hwp
    split at this
    · rename_i out r' d' hrun
      exact ⟨out, r', d', hrun, this⟩
    · exact this.elim

/-! ## Start-up -/

section Start

variable {v : σ}

/-- What a start-up promises when it returns a node. -/
def BootsSynced (out : Except String (Raft σ)) (d : Disk) : Prop :=
  ∀ r, out = .ok r → Synced r d ∧ d.stable.Accepted

theorem BootsSynced.error {err : String} : BootsSynced (.error err : Except String (Raft σ)) d :=
  nofun

/-- `h` is what the node would be if its `lastApplied` were the durable one. -/
theorem replayCommitted_synced {persisted : StableState} (hacc : d.stable.Accepted)
    (h : Synced { r with lastApplied := persisted.lastApplied } d)
    (hboundary : r.snapshotMeta.lastIncludedIndex = r.lastApplied) (hidle : r.apply = .idle) :
    wp Clean (fun _ => True) (replayCommitted env persisted r) (fun out _ d' => BootsSynced out d')
      v d := by
  simp only [replayCommitted, wp_bind]
  refine wp_mono _ _ _ (replay_unchanged _ _ trivial) ?_ fun _ h => h
  rintro (err | _) v' _ rfl
  · exact .error
  have hok : ∀ d' : Disk, d'.log = d.log → d'.snapshot = d.snapshot → d'.stable.Accepted →
      d'.stable = ⟨r.currentTerm, r.votedFor, r.commitIndex, max r.lastApplied r.commitIndex⟩ →
      BootsSynced (.ok { r with
        lastApplied := max r.lastApplied r.commitIndex, store := v' }) d' := by
    rintro d' hlog hsnapshot hacc' hstable _ ⟨⟩
    refine ⟨⟨hlog.trans h.log, hstable, ?_, h.indexed, ?_, ?_, ?_⟩, hacc'⟩
    · rw [Disk.boundary, hsnapshot]
      exact h.saved
    · exact hboundary.le.trans (Nat.le_max_left _ _)
    · intro b hb
      simp only [hidle] at hb
      cases hb
    · intro b hb
      cases hidle.symm.trans hb
  simp only [wp_bind, wp_read, wp_ite, wp_pure]
  refine ⟨fun _ => ?_, fun hsame => ?_⟩
  · exact wp_saveStable_clean (fun hst => hok _ rfl rfl hst rfl) fun _ => .error
  · have hstable := h.stable
    refine hok d rfl rfl hacc (hstable.trans ?_)
    rw [← not_not.mp hsame]
    rfl

theorem newWithLogAndSnapshot_synced {b : SnapshotMetadata} (covers : List LogEntry)
    (hb : b.lastIncludedIndex ≤ d.boundary) :
    wp Clean (fun _ => True) (newWithLogAndSnapshot env b covers)
      (fun out _ d' => BootsSynced out d') v d := by
  unfold newWithLogAndSnapshot
  split
  · exact .error
  split
  · exact .error
  simp only [wp_bind, wp_disk]
  cases hstable : loadStable env.cfg.raftStatePath d.stable with
  | error err => exact .error
  | ok persisted =>
  cases hlog : LogStore.loadLocked d.log with
  | error err => exact .error
  | ok entries =>
  dsimp only
  cases hsuffix : validateLogSuffix entries b with
  | error err => exact .error
  | ok _ =>
  simp only [wp_ite, wp_pure]
  refine ⟨fun _ => .error, fun _ => ⟨fun _ => .error, fun hlow => ?_⟩⟩
  obtain ⟨-, hidx⟩ := (checkFrom_some_ok_iff _ _ _ _).mp hsuffix
  have hacc := StableState.accepted_of_load hstable
  obtain rfl := loadStable_eq hstable
  obtain rfl := LogStore.loadLocked_eq hlog
  simp only [wp_bind, wp_read]
  refine replayCommitted_synced hacc ?_ rfl rfl
  exact ⟨rfl, rfl, hb, hidx, Nat.le_of_not_lt hlow, fun _ h => (by cases h),
    fun _ h => (by cases h)⟩

theorem recoverLogAfterSnapshot_snapshot (entries : List LogEntry) (b : SnapshotMetadata) :
    wp Clean (fun _ => True) (@recoverLogAfterSnapshot σ entries b)
      (fun _ _ d' => d'.snapshot = d.snapshot) v d := by
  unfold recoverLogAfterSnapshot
  cases entries with
  | nil => exact rfl
  | cons first rest =>
    simp only [wp_ite, wp_pure]
    refine ⟨fun _ => trivial, fun _ => ⟨fun _ => trivial, fun _ => ⟨fun _ => ?_, fun _ => ?_⟩⟩⟩
    all_goals
      refine wp_store_clean (fun d' hd' => ?_) fun _ => rfl
      simp only [Disk.compactThrough, Disk.truncateFrom, Disk.replace] at hd'
      split at hd'
      · cases hd'
      · exact Except.ok.inj hd' ▸ rfl

theorem newWithSnapshot_synced :
    wp Clean (fun _ => True) (newWithSnapshot env) (fun out _ d' => BootsSynced out d') v d := by
  unfold newWithSnapshot
  cases env.snapshotter with
  | none => exact .error
  | some snapshotter =>
  simp only [wp_bind, wp_disk]
  cases hsnapshot : d.snapshot with
  | none => exact newWithLogAndSnapshot_synced _ (Nat.zero_le _)
  | some stored =>
  dsimp only
  cases stored.metadata.validate with
  | error err => exact .error
  | ok _ =>
  cases loadStable env.cfg.raftStatePath d.stable with
  | error err => exact .error
  | ok persisted =>
  cases LogStore.loadLocked d.log with
  | error err => exact .error
  | ok entries =>
  simp only [wp_bind]
  refine wp_mono _ _ _ (recoverLogAfterSnapshot_snapshot entries stored.metadata) ?_ fun _ h => h
  rintro (err | _) v₁ d₁ hd₁
  · exact .error
  simp only [wp_bind, wp_attempt]
  refine ⟨?_, fun _ _ => .error, fun _ _ => .error, fun _ _ => trivial⟩
  cases snapshotter.restore stored.data with
  | error err => exact .error
  | ok store =>
    simp only [wp_bind, wp_modify]
    refine wp_saveStable_clean (fun _ => ?_) fun _ => .error
    refine newWithLogAndSnapshot_synced _ (Nat.le_of_eq ?_)
    rw [Disk.boundary, hd₁, hsnapshot]
    rfl

/-- No node is made from a stable state that cannot be loaded. -/
theorem newWithLogAndSnapshot_refuses {err : String} {b : SnapshotMetadata} (covers : List LogEntry)
    (hload : loadStable env.cfg.raftStatePath d.stable = .error err) :
    wp Any (fun _ => True) (newWithLogAndSnapshot env b covers) (fun out _ _ => ∃ e, out = .error e)
      v d := by
  unfold newWithLogAndSnapshot
  cases env.cfg.validate with
  | error err => exact ⟨_, rfl⟩
  | ok _ =>
  cases b.validate with
  | error err => exact ⟨_, rfl⟩
  | ok _ =>
    simp only [wp_bind, wp_disk, hload]
    exact ⟨_, rfl⟩

theorem newWithSnapshot_refuses {err : String}
    (hload : loadStable env.cfg.raftStatePath d.stable = .error err) :
    wp Any (fun _ => True) (newWithSnapshot env) (fun out _ _ => ∃ e, out = .error e) v d := by
  unfold newWithSnapshot
  cases env.snapshotter with
  | none => exact ⟨_, rfl⟩
  | some snapshotter =>
  simp only [wp_bind, wp_disk]
  cases d.snapshot with
  | none => exact newWithLogAndSnapshot_refuses [] hload
  | some stored =>
  dsimp only
  cases stored.metadata.validate with
  | error err => exact ⟨_, rfl⟩
  | ok _ =>
    simp only [hload]
    exact ⟨_, rfl⟩

theorem accepted_of_start {answers : List Outcome}
    (hstart : start env answers d = .done (.ok r) v d') : d.stable.Accepted := by
  cases hload : loadStable env.cfg.raftStatePath d.stable with
  | ok persisted => exact StableState.accepted_of_load hload
  | error err =>
    have hrefused := wp_run (newWithSnapshot env) _ answers env.initial d (fun _ _ => trivial)
      (newWithSnapshot_refuses hload)
    rw [show (newWithSnapshot env).run answers env.initial d = _ from hstart] at hrefused
    obtain ⟨_, he⟩ := hrefused
    cases he

end Start

/-! ## Every life of a node -/

/-- Something is asked of entries only, and nothing of stores and images. -/
def Payload.ofEntries (env : Env σ) (Entry : LogEntry → Prop)
    (hnoop : ∀ index term, Entry (noopEntry index term)) : Payload env where
  Entry := Entry
  Store _ := True
  Image _ := True
  noop := hnoop
  initial := trivial
  apply _ _ _ _ := trivial
  snapshot _ _ _ := trivial
  restore _ _ _ := trivial

theorem accepted_of_done {i : Input} {o : List Outcome} {out : Output} (hacc : d.stable.Accepted)
    (hrun : (react env i).run o r d = .done out r' d') : d'.stable.Accepted := by
  let P := Payload.ofEntries env (fun _ => True) fun _ _ => trivial
  have hinput : P.InputOk i := by
    cases i <;> first | exact fun _ _ => trivial | exact fun _ _ _ => trivial | trivial
  have := (Payload.react_keeps hinput).run (fun _ _ => trivial) (o := o)
    (v := r) (d := d) ⟨fun _ _ => trivial, fun _ _ => trivial, trivial⟩
    ⟨fun _ _ => trivial, fun _ _ => trivial, hacc⟩
  rw [hrun] at this
  exact this.2.2.stable

/-- The entries that the input brings for the log are text. -/
def Input.BringsText : Input → Prop
  | .appendRequest req => ∀ e ∈ req.entries, e.Text
  | .propose command => command.validate = .ok () → ValidUTF8 command.key ∧ ValidUTF8 command.value
  | _ => True

theorem Input.BringsText.inputOk {i : Input} (h : i.BringsText) :
    (Payload.ofEntries env LogEntry.Text LogEntry.text_noop).InputOk i := by
  cases i with
  | appendRequest req => exact h
  | propose command => exact fun hvalid _ _ => h hvalid
  | _ => trivial

section Text

variable {v : σ} {answers : List Outcome} {d₀ : Disk} {steps : List (Input × List Outcome)}

/-- Text is what a start reads from the log file and what each step adds to it. -/
theorem live_text (hstart : start env answers d₀.reloaded = .done (.ok r) v d)
    (hsteps : ∀ a ∈ steps, a.1.BringsText) (hup : (live env r d steps).process = .up r' d') :
    ∀ e ∈ r'.log, e.Text := by
  let P := Payload.ofEntries env LogEntry.Text LogEntry.text_noop
  have hread : ∀ e ∈ d₀.reloaded.log, e.Text :=
    List.forall_mem_map.mpr fun e _ => e.text_repaired
  have hfirst := (Payload.newWithSnapshot_keeps (P := P)).run (fun _ _ => trivial) (o := answers)
    (v := env.initial) (d := d₀.reloaded) trivial
    ⟨hread, fun _ _ => trivial, accepted_of_start hstart⟩
  rw [show (newWithSnapshot env).run answers env.initial d₀.reloaded = _ from hstart] at hfirst
  have hlast : P.Memory r' ∧ P.Files d' := by
    refine live_induction (fun _ r d => P.Memory r ∧ P.Files d) (fun _ _ a => P.InputOk a.1)
      ⟨hfirst.1.1 r rfl, hfirst.2.2⟩ ?_ (fun k a hk _ _ _ => ?_) hup
    · intro _ r₁ d₁ a _ _ _ h hin hrun
      have hkept := (Payload.react_keeps hin).run (fun _ _ => trivial) (o := a.2) h.1 h.2
      rw [hrun] at hkept
      exact hkept.2
    · exact (hsteps a (List.mem_of_getElem? hk)).inputOk
  exact hlast.1.log

/-- From any files from which a node starts, under any inputs and any failing
calls that leave no effect: the node runs on, its stable state is the one on
disk, the snapshot on disk reaches the boundary in memory, and the log in its
file is the one in memory if and only if that one is text, as it is if only text
is brought in. -/
theorem memory_matches_disk (hstart : start env answers d₀.reloaded = .done (.ok r) v d)
    (hclean : ∀ o ∈ answers, Clean o) (hsteps : ∀ a ∈ steps, ∀ o ∈ a.2, Clean o)
    (hsteady : ∀ k a, steps[k]? = some a → ∀ r' d',
      (live env r d (steps.take k)).process = .up r' d' → r'.Steady env a.1 a.2) :
    ∃ r' d', (live env r d steps).process = .up r' d' ∧ d'.stable = r'.stable ∧
      r'.snapshotMeta.lastIncludedIndex ≤ d'.boundary ∧
      (d'.reloaded.log = r'.log ↔ ∀ e ∈ r'.log, e.Text) ∧
      ((∀ a ∈ steps, a.1.BringsText) → d'.reloaded.log = r'.log) := by
  have hfirst : Synced r d ∧ d.stable.Accepted := by
    have hboots := wp_run (newWithSnapshot env) _ answers env.initial d₀.reloaded hclean
      newWithSnapshot_synced
    rw [show (newWithSnapshot env).run answers env.initial d₀.reloaded = _ from hstart] at hboots
    exact hboots r rfl
  have hstep {r₁ : Raft σ} {d₁ : Disk} {a : Input × List Outcome}
      (h₁ : Synced r₁ d₁ ∧ d₁.stable.Accepted)
      (ha : (∀ o ∈ a.2, Clean o) ∧ r₁.Steady env a.1 a.2) :
      ∃ out r₂ d₂, (react env a.1).run a.2 r₁ d₁ = .done out r₂ d₂ ∧
        Synced r₂ d₂ ∧ d₂.stable.Accepted := by
    obtain ⟨out, r₂, d₂, hrun, h₂⟩ := run_synced h₁.1 h₁.2 ha.1 ha.2
    exact ⟨out, r₂, d₂, hrun, h₂, accepted_of_done h₁.2 hrun⟩
  obtain ⟨r', d', hup, h, -⟩ := foldl_up (l := ⟨.up r d, []⟩) hstep rfl hfirst
    fun k a hk r' d' hup => ⟨hsteps a (List.mem_of_getElem? hk), hsteady k a hk r' d' hup⟩
  have htext : d'.reloaded.log = r'.log ↔ ∀ e ∈ r'.log, e.Text := by
    rw [← h.log]
    exact Disk.reloaded_log_eq_iff
  exact ⟨r', d', hup, h.stable, h.saved, htext, fun hbrings =>
    htext.mpr (live_text hstart hbrings hup)⟩

end Text

/-- A follower cannot append a second entry and is then given the snapshot of a
leader of the next term, at the second try. -/
def installLife : List (Input × List Outcome) :=
  [(.appendRequest ⟨1, 2, 0, 0, [noopEntry 1 1], 0⟩, []),
    (.appendRequest ⟨1, 2, 1, 1, [noopEntry 2 1], 0⟩, [.fail "disk full"]),
    (.installRequest ⟨2, 3, 2, 1, [1], [noopEntry 1 1, noopEntry 2 1]⟩, [.ok, .fail "disk full"]),
    (.installRequest ⟨2, 3, 2, 1, [1], [noopEntry 1 1, noopEntry 2 1]⟩, [.ok, .ok, .ok, .ok])]

theorem memory_matches_disk_installLife :
    ∃ r v d, start ((localCluster 1).env 1) [] .empty = .done (.ok r) v d ∧
      ∃ r' d', (live ((localCluster 1).env 1) r d installLife).process = .up r' d' ∧
        r'.snapshotMeta = ⟨2, 1⟩ ∧ r'.lastApplied = 2 ∧ d'.reloaded.log = r'.log ∧
        d'.stable = r'.stable ∧ r'.snapshotMeta.lastIncludedIndex ≤ d'.boundary := by
  refine ⟨_, _, _, rfl, ?_⟩
  have hclean : ∀ a ∈ installLife, ∀ o ∈ a.2, Clean o := by simp [installLife, Clean]
  have hbrings : ∀ a ∈ installLife, a.1.BringsText := by
    simp [installLife, Input.BringsText, LogEntry.text_noop]
  have hdata : ∀ sn, ((localCluster 1).env 1).snapshotter = some sn →
      ∃ st, sn.restore [1] = .ok st := by
    rintro _ ⟨⟩
    exact ⟨_, rfl⟩
  obtain ⟨r', d', hup, hstable, hboundary, -, htext⟩ := @memory_matches_disk _
    ((localCluster 1).env 1) _ _ _ [] .empty installLife rfl (by simp) hclean
    (live_each ⟨fun _ _ _ => trivial, fun _ _ _ => trivial,
      fun _ _ _ _ _ _ => ⟨hdata, by unfold Raft.callsToRewrite; split <;> simp⟩,
      fun _ _ _ _ _ _ => ⟨hdata, by unfold Raft.callsToRewrite; split <;> simp⟩, trivial⟩)
  cases hup
  exact ⟨_, _, rfl, rfl, rfl, htext hbrings, hstable, hboundary⟩

/-- The state machine refuses the image. -/
def lossyLife : List (Input × List Outcome) :=
  [(.appendRequest ⟨1, 2, 0, 0, [noopEntry 1 1], 0⟩, []),
    (.installRequest ⟨1, 2, 2, 1, [1], [noopEntry 1 1, noopEntry 2 1]⟩,
      [.ok, .ok, .fail "restore refused"])]

theorem restore_failure_loses_log :
    ∃ r v d, start ((localCluster 1).env 1) [] .empty = .done (.ok r) v d ∧
      (∀ a ∈ lossyLife, (∀ o ∈ a.2, Clean o) ∧ a.1.BringsText) ∧
      ∃ r' d', (live ((localCluster 1).env 1) r d lossyLife).process = .up r' d' ∧
        r'.log = [noopEntry 1 1] ∧ d'.reloaded.log = [] := by
  refine ⟨_, _, _, rfl, ?_, _, _, rfl, rfl, rfl⟩
  simp [lossyLife, Clean, Input.BringsText, LogEntry.text_noop]

/-- A leader takes a DELETE of the key `FF`, and every call succeeds: the file has
the DELETE of another key. -/
theorem propose_changes_key_in_file :
    ∃ r v d, start ((localCluster 1).env 1) [] .empty = .done (.ok r) v d ∧
      ∃ r' d', (live ((localCluster 1).env 1) r d [(.electionTimeout, []),
          (.voteResponse 2 1 ⟨1, true⟩, []), (.propose ⟨.delete, [0xFF], []⟩, [])]).process =
            .up r' d' ∧
        r'.log = [noopEntry 1 1, ⟨2, 1, .delete, [0xFF], []⟩] ∧
        d'.reloaded.log = [noopEntry 1 1, ⟨2, 1, .delete, [0xEF, 0xBF, 0xBD], []⟩] :=
  ⟨_, _, _, rfl, _, _, rfl, rfl, rfl⟩

end DistributedKv
