import DistributedKv.Raft.History

/-!
The invariant of one node, for memory and files together (`Running`) and for
the files alone (`DiskOk`). Both are relative to a notion of image: which states
of the state machine, and which snapshot data, stand for a list of entries.
`Running.diskOk` says that stopping a running node at any moment leaves good
files that recover the same peer.
-/

namespace DistributedKv

variable {σ : Type}

/-- What counts as the state machine after some entries, and as snapshot data
for them. -/
structure Imaging (env : Env σ) where
  Image : List LogEntry → σ → Prop
  Encodes : List LogEntry → Bytes → Prop
  initial : Image [] env.initial
  noop : ∀ {l st e}, Image l st → e.operation = .noop → Image (l ++ [e]) st
  apply : ∀ {f l st st' e}, env.applier = some f → Image l st → e.operation ≠ .noop →
    f e st = .ok st' → Image (l ++ [e]) st'
  snapshot : ∀ {s l st data}, env.snapshotter = some s → Image l st → s.snapshot st = .ok data →
    data ≠ [] → Encodes l data

variable {env : Env σ} (M : Imaging env)

/-- The snapshot stands for a prefix of the log. -/
structure Snapshot.Standing (l : List LogEntry) (s : Snapshot) : Prop where
  le_length : s.lastIncludedIndex ≤ l.length
  covers : s.covers = l.take s.lastIncludedIndex
  term : s.lastIncludedTerm = lastTerm s.covers
  encodes : M.Encodes s.covers s.data

/-- The files of a stopped node. -/
structure DiskOk (d : Disk) : Prop where
  vote : noVote ≤ d.stable.votedFor
  applied : d.stable.lastApplied ≤ d.stable.commitIndex
  contiguous : Contiguous d.log
  indexed : Indexed 0 d.history
  valid : ∀ e ∈ d.history, e.Valid
  snapshot : ∀ s, d.snapshot = some s → s.Standing M d.history
  base : ∀ e, d.log.head? = some e → e.index ≤ d.boundary + 1
  commit : max d.stable.commitIndex d.boundary ≤ d.history.length

/-- The state machine at the current step of the apply goroutine. An entry that
was selected may turn out to be stale, when a snapshot was installed after it was
selected; `tidy` asks that this does no harm. -/
def PhaseOk (tidy : Prop) (phase : ApplyPhase) (history : List LogEntry)
    (lastApplied commitIndex : Nat) (store : σ) (snapshot : Option Snapshot) : Prop :=
  match phase with
  | .idle => M.Image (history.take lastApplied) store
  | .selected e =>
      (e.index = lastApplied + 1 ∧ lastApplied < commitIndex ∧ history[lastApplied]? = some e ∧
        M.Image (history.take lastApplied) store) ∨
      (e.index ≤ lastApplied ∧
        (tidy → e.operation = .noop ∧ M.Image (history.take lastApplied) store))
  | .applied e =>
      (e.index = lastApplied + 1 ∧ lastApplied < commitIndex ∧
        M.Image (history.take (lastApplied + 1)) store) ∨
      (e.index ≤ lastApplied ∧ (tidy → M.Image (history.take lastApplied) store))
  | .failed _ => tidy → M.Image (history.take lastApplied) store
  | .stopped => tidy → M.Image (history.take lastApplied) store
  | .snapshotting b =>
      M.Image (history.take lastApplied) store ∧
        b = ⟨lastApplied, lastTerm (history.take lastApplied)⟩
  | .snapshotSaved b =>
      M.Image (history.take lastApplied) store ∧
        b = ⟨lastApplied, lastTerm (history.take lastApplied)⟩ ∧
        ∃ s, snapshot = some s ∧ s.metadata = b

def Raft.stable (r : Raft σ) : StableState :=
  ⟨r.currentTerm, r.votedFor, r.commitIndex, r.lastApplied⟩

/-- A running node and its files, between two steps. -/
structure Running (tidy : Prop) (r : Raft σ) (d : Disk) : Prop extends r.Shape where
  boundary_le : r.snapshotMeta.lastIncludedIndex ≤ r.lastApplied
  applied_le : r.lastApplied ≤ r.commitIndex
  commit_le : r.commitIndex ≤ r.history.length
  vote_ge : noVote ≤ r.votedFor
  disk_log : d.log = r.log
  disk_stable : d.stable = r.stable
  boundary_disk : r.snapshotMeta.lastIncludedIndex ≤ d.boundary
  disk_applied : d.boundary ≤ r.lastApplied
  disk_snapshot : ∀ s, d.snapshot = some s → s.Standing M r.history
  phase : PhaseOk M tidy r.apply r.history r.lastApplied r.commitIndex r.store d.snapshot

variable {M} {tidy : Prop} {r r' : Raft σ} {d d' : Disk}

theorem DiskOk.empty : DiskOk M .empty where
  vote := by decide
  applied := by decide
  contiguous := ⟨by simp [Disk.empty], 0, by simp [Disk.empty, Indexed]⟩
  indexed := by simp [Disk.history, Disk.covers, Disk.recoveredLog, Disk.empty, Indexed]
  valid := by simp [Disk.history, Disk.covers, Disk.recoveredLog, Disk.empty]
  snapshot := by simp [Disk.empty]
  base := by simp [Disk.empty]
  commit := by decide

/-! ## Recovering the log -/

/-- A log that starts at or before the boundary, with the snapshot's term there,
keeps exactly what lies above the boundary. -/
theorem Snapshot.retained_of_indexed {s : Snapshot} {b : Nat} {l : List LogEntry}
    (hl : Indexed b l) (hb : b ≤ s.lastIncludedIndex)
    (ht : b < s.lastIncludedIndex → s.lastIncludedIndex ≤ b + l.length →
      (l[s.lastIncludedIndex - b - 1]?.map LogEntry.term) = some s.lastIncludedTerm) :
    s.retained l = l.drop (s.lastIncludedIndex - b) := by
  cases l with
  | nil => simp [Snapshot.retained]
  | cons first rest =>
    have hfirst : first.index = b + 1 := (Indexed.cons.mp hl).1
    simp only [Snapshot.retained, hfirst]
    by_cases heq : b = s.lastIncludedIndex
    · simp [heq]
    · have hne : b + 1 ≠ s.lastIncludedIndex + 1 := by omega
      rw [if_neg hne]
      by_cases hin : s.lastIncludedIndex ≤ b + (first :: rest).length
      · have hlt : s.lastIncludedIndex - b - 1 < (first :: rest).length := by omega
        have hget := List.getElem?_eq_getElem hlt
        have hidx := hl _ _ hget
        have hterm := ht (by omega) hin
        rw [hget] at hterm
        have hmatch : boundaryMatches (first :: rest) (b + 1) s.metadata = true := by
          unfold boundaryMatches
          have : s.metadata.lastIncludedIndex - (b + 1) = s.lastIncludedIndex - b - 1 := by
            change s.lastIncludedIndex - (b + 1) = _
            omega
          rw [this, hget]
          simp only [decide_eq_true_eq]
          refine ⟨?_, by simpa [Snapshot.metadata] using hterm⟩
          change _ = s.lastIncludedIndex
          omega
        rw [if_pos hmatch]
        congr 1
        omega
      · have hdrop : (first :: rest).drop (s.lastIncludedIndex - b) = [] :=
          List.drop_eq_nil_of_le (by omega)
        rw [hdrop]
        split
        · exact List.drop_eq_nil_of_le (by omega)
        · rfl

/-- The files of a running node recover its uncompacted log. -/
theorem Running.disk_history (h : Running M tidy r d) : d.history = r.history := by
  unfold Disk.history Disk.covers Disk.recoveredLog
  cases hs : d.snapshot with
  | none =>
    have hb := h.boundary_disk
    simp only [Disk.boundary, hs, Option.map_none, Option.getD_none, Nat.le_zero] at hb
    have hcov : r.covered = [] := List.length_eq_zero_iff.mp (h.covered_length.trans hb)
    simp [h.disk_log, Raft.history, hcov]
  | some s =>
    have hst := h.disk_snapshot s hs
    have hb := h.boundary_disk
    simp only [Disk.boundary, hs, Option.map_some, Option.getD_some] at hb
    rw [h.disk_log]
    have hret : s.retained r.log =
        r.log.drop (s.lastIncludedIndex - r.snapshotMeta.lastIncludedIndex) := by
      refine Snapshot.retained_of_indexed h.log_indexed hb fun hlt _ => ?_
      have hterm := lastTerm_take hst.le_length
      rw [← hst.covers, ← hst.term] at hterm
      obtain ⟨k, hk⟩ : ∃ k, s.lastIncludedIndex = k + 1 := ⟨s.lastIncludedIndex - 1, by omega⟩
      rw [hk, termAt_succ, h.history_getElem? (by omega)] at hterm
      rw [← hterm, hk]
      congr 2
      omega
    simp only [hret, Option.map_some, Option.getD_some, hst.covers]
    rw [← h.history_drop hb, List.take_append_drop]

theorem Running.disk_peer (h : Running M tidy r d) :
    d.peer = { r.peer with role := .follower, election := none, matchIndex := fun _ => none } := by
  have hle := h.disk_applied.trans h.applied_le
  simp only [Disk.peer, Raft.peer, h.disk_history, h.disk_stable, Raft.stable,
    Nat.max_eq_left hle]

theorem Running.diskOk (h : Running M tidy r d) : DiskOk M d where
  vote := by rw [h.disk_stable]; exact h.vote_ge
  applied := by rw [h.disk_stable]; exact h.applied_le
  contiguous := by rw [h.disk_log]; exact ⟨h.log_valid, _, h.log_indexed⟩
  indexed := by rw [h.disk_history]; exact h.indexed
  valid := by rw [h.disk_history]; exact h.valid
  snapshot s hs := by rw [h.disk_history]; exact h.disk_snapshot s hs
  base e he := by
    rw [h.disk_log, List.head?_eq_getElem?] at he
    have := h.log_indexed 0 e he
    have := h.boundary_disk
    omega
  commit := by
    have := h.disk_applied.trans h.applied_le
    rw [h.disk_history, h.disk_stable]
    exact max_le h.commit_le (this.trans h.commit_le)

/-! ## Changing what the apply goroutine does not read -/

theorem getElem?_of_take_isPrefix {l q : List LogEntry} {n k : Nat} (h : l.take n <+: q)
    (hk : k < n) (hl : n ≤ l.length) : q[k]? = l[k]? := by
  obtain ⟨m, rfl⟩ := h
  rw [List.getElem?_append_left (by simp; omega), List.getElem?_take_of_lt hk]

theorem take_eq_of_take_isPrefix {l q : List LogEntry} {n k : Nat} (h : l.take n <+: q)
    (hk : k ≤ n) (hl : n ≤ l.length) : q.take k = l.take k := by
  obtain ⟨m, rfl⟩ := h
  rw [List.take_append_of_le_length (by simp; omega), List.take_take, Nat.min_eq_left hk]

theorem Snapshot.Standing.congr {l q : List LogEntry} {s : Snapshot} (h : s.Standing M l)
    (hl : l.take s.lastIncludedIndex <+: q) : s.Standing M q where
  le_length := by
    have := hl.length_le
    rw [List.length_take, Nat.min_eq_left h.le_length] at this
    exact this
  covers := by rw [h.covers, take_eq_of_take_isPrefix hl le_rfl h.le_length]
  term := h.term
  encodes := h.encodes

theorem PhaseOk.congr {phase : ApplyPhase} {l q : List LogEntry} {a c c' : Nat} {store : σ}
    {snapshot : Option Snapshot} (h : PhaseOk M tidy phase l a c store snapshot)
    (hcl : c ≤ l.length) (hac : a ≤ c) (hlog : l.take c <+: q) (hc : c ≤ c') :
    PhaseOk M tidy phase q a c' store snapshot := by
  have htake := take_eq_of_take_isPrefix hlog hac hcl
  cases phase with
  | idle => simpa only [PhaseOk, htake] using h
  | selected e =>
    simp only [PhaseOk, htake] at h ⊢
    rcases h with ⟨hi, hlt, hget, himg⟩ | h
    · exact .inl ⟨hi, hlt.trans_le hc, by rw [getElem?_of_take_isPrefix hlog hlt hcl, hget], himg⟩
    · exact .inr h
  | applied e =>
    simp only [PhaseOk, htake] at h ⊢
    rcases h with ⟨hi, hlt, himg⟩ | h
    · exact .inl ⟨hi, hlt.trans_le hc, by rwa [take_eq_of_take_isPrefix hlog hlt hcl]⟩
    · exact .inr h
  | failed err => simpa only [PhaseOk, htake] using h
  | stopped => simpa only [PhaseOk, htake] using h
  | snapshotting b => simpa only [PhaseOk, htake] using h
  | snapshotSaved b => simpa only [PhaseOk, htake] using h

/-- A step that leaves the compacted prefix, the state machine and the apply
goroutine alone, keeps the committed entries, and writes what it changes. -/
theorem Running.update (h : Running M tidy r d) (hcov : r'.covered = r.covered)
    (hmeta : r'.snapshotMeta = r.snapshotMeta) (hlast : r'.lastApplied = r.lastApplied)
    (hstore : r'.store = r.store) (happly : r'.apply = r.apply)
    (hlog : r.history.take r.commitIndex <+: r'.history) (hidx : Indexed 0 r'.history)
    (hval : ∀ e ∈ r'.history, e.Valid) (hc : r.commitIndex ≤ r'.commitIndex)
    (hcl : r'.commitIndex ≤ r'.history.length) (hvote : noVote ≤ r'.votedFor)
    (hdlog : d'.log = r'.log) (hdst : d'.stable = r'.stable) (hds : d'.snapshot = d.snapshot) :
    Running M tidy r' d' where
  covered_length := by rw [hcov, hmeta, h.covered_length]
  boundary_term := by rw [hcov, hmeta, h.boundary_term]
  indexed := hidx
  valid := hval
  boundary_le := by rw [hmeta, hlast]; exact h.boundary_le
  applied_le := by rw [hlast]; exact h.applied_le.trans hc
  commit_le := hcl
  vote_ge := hvote
  disk_log := hdlog
  disk_stable := hdst
  boundary_disk := by rw [hmeta, Disk.boundary, hds]; exact h.boundary_disk
  disk_applied := by rw [hlast, Disk.boundary, hds]; exact h.disk_applied
  disk_snapshot s hs := by
    rw [hds] at hs
    refine (h.disk_snapshot s hs).congr (List.IsPrefix.trans (List.take_prefix_take_left ?_) hlog)
    have := h.disk_applied
    simp only [Disk.boundary, hs, Option.map_some, Option.getD_some] at this
    exact this.trans h.applied_le
  phase := by
    rw [happly, hlast, hstore, hds]
    exact h.phase.congr h.commit_le h.applied_le hlog hc

/-- Entries appended to memory and disk. -/
theorem Running.extendLog (h : Running M tidy r d) {es : List LogEntry}
    (hidx : Indexed r.history.length es) (hval : ∀ e ∈ es, e.Valid)
    (hcov : r'.covered = r.covered) (hlg : r'.log = r.log ++ es)
    (hmeta : r'.snapshotMeta = r.snapshotMeta) (hst : r'.stable = r.stable)
    (hstore : r'.store = r.store) (happly : r'.apply = r.apply) :
    Running M tidy r' { d with log := d.log ++ es } := by
  have hhist : r'.history = r.history ++ es := by
    rw [Raft.history, Raft.history, hcov, hlg, List.append_assoc]
  have hst' := hst
  simp only [Raft.stable, StableState.mk.injEq] at hst'
  obtain ⟨hterm, hvote, hcommit, hlast⟩ := hst'
  refine h.update hcov hmeta hlast hstore happly ?_ ?_ ?_ hcommit.ge ?_ (hvote ▸ h.vote_ge) ?_
    (h.disk_stable.trans hst.symm) rfl
  · rw [hhist]
    exact (List.take_prefix _ _).trans (List.prefix_append _ _)
  · rw [hhist, Indexed.append, Nat.zero_add]
    exact ⟨h.indexed, hidx⟩
  · rw [hhist]
    intro e he
    rcases List.mem_append.mp he with he | he
    · exact h.valid e he
    · exact hval e he
  · rw [hhist, hcommit, List.length_append]
    exact h.commit_le.trans (Nat.le_add_right _ _)
  · rw [hlg, h.disk_log]

/-- Uncommitted entries removed from memory and disk. -/
theorem Running.cutLog (h : Running M tidy r d) {k : Nat}
    (hb : r.snapshotMeta.lastIncludedIndex ≤ k) (hk : r.commitIndex ≤ k)
    (hcov : r'.covered = r.covered)
    (hlg : r'.log = r.log.take (k - r.snapshotMeta.lastIncludedIndex))
    (hmeta : r'.snapshotMeta = r.snapshotMeta) (hst : r'.stable = r.stable)
    (hstore : r'.store = r.store) (happly : r'.apply = r.apply) :
    r'.history = r.history.take k ∧
      Running M tidy r'
        { d with log := d.log.take (k - r.snapshotMeta.lastIncludedIndex) } := by
  have hhist : r'.history = r.history.take k := by
    rw [h.history_take hb, Raft.history, hcov, hlg]
  have hst' := hst
  simp only [Raft.stable, StableState.mk.injEq] at hst'
  obtain ⟨hterm, hvote, hcommit, hlast⟩ := hst'
  refine ⟨hhist, h.update hcov hmeta hlast hstore happly ?_ ?_ ?_ hcommit.ge ?_
    (hvote ▸ h.vote_ge) ?_ (h.disk_stable.trans hst.symm) rfl⟩
  · rw [hhist]
    exact List.take_prefix_take_left hk
  · rw [hhist]
    exact h.indexed.take k
  · rw [hhist]
    exact fun e he => h.valid e (List.mem_of_mem_take he)
  · rw [hhist, hcommit, List.length_take]
    exact le_min hk h.commit_le
  · rw [hlg, h.disk_log]

/-- A change of role or term, with the stable state written. -/
theorem Running.restate (h : Running M tidy r d) (hcov : r'.covered = r.covered)
    (hlg : r'.log = r.log) (hmeta : r'.snapshotMeta = r.snapshotMeta)
    (hlast : r'.lastApplied = r.lastApplied) (hstore : r'.store = r.store)
    (happly : r'.apply = r.apply) (hc : r.commitIndex ≤ r'.commitIndex)
    (hcl : r'.commitIndex ≤ r.history.length) (hvote : noVote ≤ r'.votedFor) :
    Running M tidy r' { d with stable := r'.stable } := by
  have hh : r'.history = r.history := by rw [Raft.history, Raft.history, hcov, hlg]
  refine h.update hcov hmeta hlast hstore happly ?_ ?_ ?_ hc ?_ hvote ?_ rfl rfl
  · rw [hh]; exact List.take_prefix _ _
  · rw [hh]; exact h.indexed
  · rw [hh]; exact h.valid
  · rw [hh]; exact hcl
  · rw [hlg]; exact h.disk_log

/-- A change that no file records. -/
theorem Running.relabel (h : Running M tidy r d) (hcov : r'.covered = r.covered)
    (hlg : r'.log = r.log) (hmeta : r'.snapshotMeta = r.snapshotMeta)
    (hst : r'.stable = r.stable) (hstore : r'.store = r.store) (happly : r'.apply = r.apply) :
    Running M tidy r' d := by
  simp only [Raft.stable, StableState.mk.injEq] at hst
  obtain ⟨hterm, hvote, hcommit, hlast⟩ := hst
  have := h.restate hcov hlg hmeta hlast hstore happly hcommit.ge
    (hcommit ▸ h.commit_le) (hvote ▸ h.vote_ge)
  have hstable : r'.stable = d.stable := by
    rw [h.disk_stable, Raft.stable, Raft.stable, hterm, hvote, hcommit, hlast]
  rwa [hstable] at this

/-- A step of the apply goroutine that leaves log and files alone. -/
theorem Running.setPhase (h : Running M tidy r d) (hcov : r'.covered = r.covered)
    (hlg : r'.log = r.log) (hmeta : r'.snapshotMeta = r.snapshotMeta)
    (hst : r'.stable = r.stable)
    (hphase : PhaseOk M tidy r'.apply r.history r.lastApplied r.commitIndex r'.store d.snapshot) :
    Running M tidy r' d := by
  have hst' := hst
  simp only [Raft.stable, StableState.mk.injEq] at hst'
  obtain ⟨hterm, hvote, hcommit, hlast⟩ := hst'
  have hhist : r'.history = r.history := by rw [Raft.history, Raft.history, hcov, hlg]
  exact
    { covered_length := by rw [hcov, hmeta, h.covered_length]
      boundary_term := by rw [hcov, hmeta, h.boundary_term]
      indexed := hhist ▸ h.indexed
      valid := hhist ▸ h.valid
      boundary_le := by rw [hmeta, hlast]; exact h.boundary_le
      applied_le := by rw [hlast, hcommit]; exact h.applied_le
      commit_le := by rw [hcommit, hhist]; exact h.commit_le
      vote_ge := hvote ▸ h.vote_ge
      disk_log := h.disk_log.trans hlg.symm
      disk_stable := h.disk_stable.trans hst.symm
      boundary_disk := hmeta ▸ h.boundary_disk
      disk_applied := hlast ▸ h.disk_applied
      disk_snapshot := hhist ▸ h.disk_snapshot
      phase := by rw [hhist, hlast, hcommit]; exact hphase }

end DistributedKv
