import DistributedKv.Raft.Apply
import DistributedKv.Raft.Effect
import DistributedKv.Raft.Replication

/-!
`HandleInstallSnapshot`. The snapshot file is written first, and from then on
recovery already yields the installed log; the calls that follow only bring the
log file, the state machine and the stable state in line with it.
-/

namespace DistributedKv

open Crash Prog

variable {σ : Type} {env : Env σ} {M : Imaging env} {tidy : Prop} {p : Peer}
  {r r' : Raft σ} {d d' : Disk} {req : InstallSnapshotRequest}

/-- What an installed snapshot must be: the image of entries that agree with the
committed ones of the receiver. -/
structure InstallOk (M : Imaging env) (history : List LogEntry) (commit : Nat)
    (req : InstallSnapshotRequest) : Prop where
  length : req.covers.length = req.lastIncludedIndex
  term : req.lastIncludedTerm = lastTerm req.covers
  indexed : Indexed 0 req.covers
  valid : ∀ e ∈ req.covers, e.Valid
  encodes : M.Encodes req.covers req.data
  restores : ∀ {sn}, env.snapshotter = some sn →
    ∃ st, sn.restore req.data = .ok st ∧ M.Image req.covers st
  agrees : req.covers.take commit <+: history

/-- The entries that stay above an installed snapshot. -/
def installedSuffix (l : List LogEntry) (req : InstallSnapshotRequest) : List LogEntry :=
  if termAt l req.lastIncludedIndex = some req.lastIncludedTerm then l.drop req.lastIncludedIndex
  else []

theorem installedLog_eq (l : List LogEntry) (req : InstallSnapshotRequest) :
    installedLog l req = req.covers ++ installedSuffix l req := rfl

namespace InstallOk

variable {l : List LogEntry} {c : Nat} (h : InstallOk M l c req)

include h

theorem take_installedLog : (installedLog l req).take req.lastIncludedIndex = req.covers := by
  rw [installedLog_eq, List.take_append_of_le_length h.length.ge, List.take_of_length_le h.length.le]

theorem indexed_installedLog (hl : Indexed 0 l) : Indexed 0 (installedLog l req) := by
  rw [installedLog_eq, Indexed.append, Nat.zero_add, h.length]
  refine ⟨h.indexed, ?_⟩
  unfold installedSuffix
  split
  · rename_i ht
    have := hl.drop (termAt_le_length ht)
    rwa [Nat.zero_add] at this
  · exact Indexed.nil _

theorem valid_installedLog (hl : ∀ e ∈ l, e.Valid) : ∀ e ∈ installedLog l req, e.Valid := by
  intro e he
  rw [installedLog_eq] at he
  rcases List.mem_append.mp he with he | he
  · exact h.valid e he
  · unfold installedSuffix at he
    split at he
    · exact hl e (List.mem_of_mem_drop he)
    · cases he

/-- The committed entries stay: below the boundary the snapshot agrees with
them, and if they reach beyond it, so does the suffix. -/
theorem commit_le (hc : c ≤ l.length) :
    max c req.lastIncludedIndex ≤ (installedLog l req).length ∧
      l.take c <+: installedLog l req := by
  rw [installedLog_eq, List.length_append, h.length]
  rcases Nat.le_total c req.lastIncludedIndex with hle | hge
  · refine ⟨by rw [max_eq_right hle]; omega, List.IsPrefix.trans ?_ (List.prefix_append _ _)⟩
    have hlen : (req.covers.take c).length = c := by simp [h.length, hle]
    obtain ⟨m, hm⟩ := h.agrees
    rw [← hm, List.take_append_of_le_length hlen.ge, List.take_take, min_self]
    exact List.take_prefix _ _
  · have hcov : req.covers <+: l := by
      have := h.agrees
      rwa [List.take_of_length_le (by rw [h.length]; exact hge)] at this
    have hmatch : termAt l req.lastIncludedIndex = some req.lastIncludedTerm := by
      rw [termAt_of_isPrefix hcov h.length.ge, ← h.length, termAt_length, h.term]
    have heq : installedSuffix l req = l.drop req.lastIncludedIndex := if_pos hmatch
    have hjoin : req.covers ++ l.drop req.lastIncludedIndex = l := by
      obtain ⟨m, rfl⟩ := hcov
      rw [← h.length, List.drop_left]
    rw [heq, hjoin, max_eq_left hge, List.length_drop]
    exact ⟨by omega, List.take_prefix _ _⟩

end InstallOk

/-! ## The files while a snapshot is being installed -/

/-- The snapshot that `HandleInstallSnapshot` stores. -/
def InstallSnapshotRequest.snapshot (req : InstallSnapshotRequest) : Snapshot :=
  ⟨req.lastIncludedIndex, req.lastIncludedTerm, req.data, req.covers⟩

theorem InstallOk.standing {l : List LogEntry} {c : Nat} (h : InstallOk M l c req) :
    req.snapshot.Standing M (installedLog l req) where
  le_length := by
    rw [installedLog_eq, List.length_append, h.length]
    exact Nat.le_add_right _ _
  covers := h.take_installedLog.symm
  term := h.term
  encodes := h.encodes

/-- Recovery keeps of the old log exactly what the handler keeps. -/
theorem retained_eq_installedSuffix (h : r.Shape)
    (hb : r.snapshotMeta.lastIncludedIndex < req.lastIncludedIndex) :
    req.snapshot.retained r.log = installedSuffix r.history req := by
  have hlen := h.history_length
  obtain ⟨k, hk⟩ : ∃ k, req.lastIncludedIndex = k + 1 := ⟨req.lastIncludedIndex - 1, by omega⟩
  have hget := h.history_getElem? (k := k) (by omega)
  unfold installedSuffix
  cases hlog : r.log with
  | nil =>
    rw [hlog, List.length_nil] at hlen
    have hnone : termAt r.history req.lastIncludedIndex = none := by
      rw [hk, termAt_succ, List.getElem?_eq_none (by omega)]
      rfl
    rw [hnone, if_neg (by simp)]
    rfl
  | cons first rest =>
    have hlidx := h.log_indexed
    have hfirst : first.index = r.snapshotMeta.lastIncludedIndex + 1 := by
      rw [hlog] at hlidx
      exact (Indexed.cons.mp hlidx).1
    have hne : first.index ≠ req.snapshot.lastIncludedIndex + 1 := by
      change _ ≠ req.lastIncludedIndex + 1
      omega
    have hmatch : boundaryMatches (first :: rest) first.index req.snapshot.metadata = true ↔
        termAt r.history req.lastIncludedIndex = some req.lastIncludedTerm := by
      unfold boundaryMatches
      have hoff : req.snapshot.metadata.lastIncludedIndex - first.index =
          k - r.snapshotMeta.lastIncludedIndex := by
        change req.lastIncludedIndex - first.index = _
        omega
      rw [hoff, ← hlog, hk, termAt_succ, hget]
      cases he : r.log[k - r.snapshotMeta.lastIncludedIndex]? with
      | none => simp
      | some e =>
        have hidx := hlidx _ _ he
        have : e.index = req.snapshot.metadata.lastIncludedIndex := by
          change _ = req.lastIncludedIndex
          omega
        simp only [this, true_and, decide_eq_true_eq, Option.map_some, Option.some.injEq]
        exact Iff.rfl
    simp only [Snapshot.retained, if_neg hne]
    by_cases hm : termAt r.history req.lastIncludedIndex = some req.lastIncludedTerm
    · rw [if_pos (hmatch.mpr hm), if_pos hm, h.history_drop (by omega), hlog]
      congr 1
      change req.lastIncludedIndex + 1 - first.index = _
      omega
    · rw [if_neg (fun hcon => hm (hmatch.mp hcon)), if_neg hm]

/-- Once the snapshot is stored, any log file that recovers the kept suffix is
good, whether or not it was rewritten yet. -/
theorem installed_survives (h : Reaches M tidy (.installRequest req) p r d)
    (hterm : r.currentTerm = req.term) (hf : r.state = .follower)
    (hok : InstallOk M r.history r.commitIndex req) {log : List LogEntry} (hcont : Contiguous log)
    (hret : req.snapshot.retained log = installedSuffix r.history req)
    (hbase : ∀ e, log.head? = some e → e.index ≤ req.lastIncludedIndex + 1) :
    Survives M (.installRequest req) p { d with snapshot := some req.snapshot, log := log } := by
  have hrun := h.running
  have hhist : Disk.history { d with snapshot := some req.snapshot, log := log } =
      installedLog r.history req := by
    simp only [Disk.history, Disk.recoveredLog, hret, installedLog_eq]
    rfl
  refine ⟨?_, ?_⟩
  · exact
      { vote := by simp only [hrun.disk_stable]; exact hrun.vote_ge
        applied := by simp only [hrun.disk_stable]; exact hrun.applied_le
        contiguous := hcont
        indexed := by rw [hhist]; exact hok.indexed_installedLog hrun.indexed
        valid := by rw [hhist]; exact hok.valid_installedLog hrun.valid
        snapshot := fun s hs => by
          rw [hhist, ← Option.some.inj hs]
          exact hok.standing
        base := hbase
        commit := by
          rw [hhist]
          simp only [hrun.disk_stable]
          exact (hok.commit_le hrun.commit_le).1 }
  · have hpeer : Disk.peer { d with snapshot := some req.snapshot, log := log } =
        { r.peer with
          history := installedLog r.history req
          commit := max r.commitIndex req.lastIncludedIndex
          role := .follower, election := none, matchIndex := fun _ => none } := by
      unfold Disk.peer
      rw [hhist]
      simp only [hrun.disk_stable]
      rfl
    rw [hpeer]
    exact (h.steps.tail (.install _ req hterm hf)).tail (.crash _ _)

/-! ## The handler -/

theorem Raft.Shape.retainedSuffix_eq (h : r.Shape) {index term : Nat}
    (hb : r.snapshotMeta.lastIncludedIndex ≤ index) :
    r.retainedSuffix index term =
      if termAt r.history index = some term then some (r.history.drop index) else none := by
  unfold Raft.retainedSuffix
  rw [h.termAtLocked_eq, if_pos hb]
  cases ht : termAt r.history index with
  | none => simp
  | some t =>
    have hle := termAt_le_length ht
    by_cases heq : t = term
    · simp only [heq, ↓reduceIte]
      rw [h.entriesFromLocked_eq, if_pos (by omega), Nat.add_sub_cancel]
    · simp [heq]

section Handler

variable (h : Reaches M tidy (.installRequest req) p r d) (hterm : r.currentTerm = req.term)
  (hf : r.state = .follower) (hok : InstallOk M r.history r.commitIndex req)
  (hnew : r.lastApplied < req.lastIncludedIndex)

include h hterm hf hok hnew

/-- The stored log may still be the old one after the snapshot was saved. -/
theorem saved_survives :
    Survives M (.installRequest req) p { d with snapshot := some req.snapshot } := by
  have hrun := h.running
  have hb : r.snapshotMeta.lastIncludedIndex < req.lastIncludedIndex :=
    hrun.boundary_le.trans_lt hnew
  refine installed_survives h hterm hf hok hrun.diskOk.contiguous ?_ fun e he => ?_
  · rw [hrun.disk_log]
    exact retained_eq_installedSuffix hrun.toShape hb
  · rw [hrun.disk_log, List.head?_eq_getElem?] at he
    have := hrun.log_indexed 0 e he
    omega

omit hnew in
/-- Or it holds the kept suffix only. -/
theorem discarded_survives :
    Survives M (.installRequest req) p
      { d with snapshot := some req.snapshot, log := installedSuffix r.history req } := by
  have hidx := hok.indexed_installedLog h.running.indexed
  rw [installedLog_eq, Indexed.append, Nat.zero_add, hok.length] at hidx
  have hval : ∀ e ∈ installedSuffix r.history req, e.Valid := fun e he =>
    hok.valid_installedLog h.running.valid e (List.mem_append_right _ he)
  refine installed_survives h hterm hf hok ⟨hval, _, hidx.2⟩ ?_ fun e he => ?_
  · have := Snapshot.retained_of_indexed (s := req.snapshot) hidx.2 (le_refl _)
      (fun hlt => absurd hlt (lt_irrefl _))
    rw [this]
    change List.drop (req.lastIncludedIndex - req.lastIncludedIndex) _ = _
    rw [Nat.sub_self, List.drop_zero]
  · rw [List.head?_eq_getElem?] at he
    have := hidx.2 0 e he
    omega

theorem discardLog_spec :
    wp Atomic (Survives M (.installRequest req) p)
      (discardLog (r.retainedSuffix req.lastIncludedIndex req.lastIncludedTerm)
        req.lastIncludedIndex)
      (fun out r' d' => out = .ok () ∧ r = r' ∧
        d' = { d with snapshot := some req.snapshot, log := installedSuffix r.history req })
      r { d with snapshot := some req.snapshot } := by
  have hrun := h.running
  have hb : r.snapshotMeta.lastIncludedIndex < req.lastIncludedIndex :=
    hrun.boundary_le.trans_lt hnew
  have hsaved := saved_survives h hterm hf hok hnew
  have hdone := discarded_survives h hterm hf hok
  have hv : ∀ e ∈ d.log, e.Valid := hrun.disk_log ▸ hrun.log_valid
  have hi : Indexed r.snapshotMeta.lastIncludedIndex d.log := hrun.disk_log ▸ hrun.log_indexed
  simp only [discardLog, wp_bind, wp_read, hrun.retainedSuffix_eq hb.le]
  by_cases hm : termAt r.history req.lastIncludedIndex = some req.lastIncludedTerm
  · have hsuf : d.log.drop (req.lastIncludedIndex - r.snapshotMeta.lastIncludedIndex) =
        installedSuffix r.history req := by
      rw [installedSuffix, if_pos hm, hrun.disk_log, hrun.history_drop hb.le]
    rw [if_pos hm]
    simp only [wp_bind]
    refine wp_compactThrough hv hi ?_ hsaved ?_
    · simp only [hsuf, wp_pure]
      trivial
    · simpa only [hsuf] using hdone
  · have hsuf : installedSuffix r.history req = [] := if_neg hm
    rw [if_neg hm]
    simp only [wp_ite, wp_bind, wp_pure, not_not]
    refine ⟨fun _ => ?_, fun hnil => ⟨trivial, trivial, ?_⟩⟩
    · refine wp_truncateFrom hv hi (Nat.succ_pos _) ?_ ?_ hsaved ?_
      · change r.snapshotMeta.lastIncludedIndex + 1 ≤ _
        omega
      all_goals
        have htake : r.firstLogIndexLocked - r.snapshotMeta.lastIncludedIndex - 1 = 0 := by
          change r.snapshotMeta.lastIncludedIndex + 1 - r.snapshotMeta.lastIncludedIndex - 1 = 0
          omega
        rw [htake, List.take_zero]
      · simp only [wp_pure, hsuf]
        trivial
      · simpa only [hsuf] using hdone
    · rw [hsuf, ← hnil, ← hrun.disk_log]

omit hterm hf in
/-- The phase of the apply goroutine after an installation: whatever entry it
had selected is stale now. -/
theorem installed_phase {store : σ} (himg : M.Image req.covers store)
    (hmu : r.apply.holdsSnapshotMu = false)
    (htidy : tidy → ∀ e, r.apply = .selected e → e.operation = .noop) :
    PhaseOk M tidy r.apply (installedLog r.history req) req.lastIncludedIndex
      (max r.commitIndex req.lastIncludedIndex) store (some req.snapshot) := by
  have hphase := h.running.phase
  cases ha : r.apply with
  | idle => simpa only [PhaseOk, hok.take_installedLog] using himg
  | selected e =>
    rw [ha] at hphase
    refine .inr ⟨?_, fun ht => ⟨htidy ht e ha, by rwa [hok.take_installedLog]⟩⟩
    rcases hphase with ⟨hidx, _⟩ | ⟨hle, _⟩
    · omega
    · omega
  | applied e =>
    rw [ha] at hphase
    refine .inr ⟨?_, fun _ => by rwa [hok.take_installedLog]⟩
    rcases hphase with ⟨hidx, _⟩ | ⟨hle, _⟩
    · omega
    · omega
  | failed err => exact fun _ => by rwa [hok.take_installedLog]
  | stopped => exact fun _ => by rwa [hok.take_installedLog]
  | snapshotting b => rw [ha] at hmu; cases hmu
  | snapshotSaved b => rw [ha] at hmu; cases hmu

theorem installSnapshot_spec {sn : Snapshotter σ} (hsn : env.snapshotter = some sn)
    (hval : req.snapshot.validate = .ok ()) (hmu : r.apply.holdsSnapshotMu = false)
    (htidy : tidy → ∀ e, r.apply = .selected e → e.operation = .noop) :
    wp Atomic (Survives M (.installRequest req) p) (installSnapshot sn req)
      (fun out r' d' => Reaches M tidy (.installRequest req) p r' d' ∧
        out = .ok ⟨r.currentTerm⟩ ∧ r'.currentTerm = r.currentTerm ∧
        req.lastIncludedIndex ≤ r'.commitIndex ∧
        r'.snapshotMeta.lastIncludedIndex = req.lastIncludedIndex ∧
        r'.history = installedLog r.history req) r d := by
  have hrun := h.running
  obtain ⟨st, hrestore, himg⟩ := hok.restores hsn
  have hdone := discarded_survives h hterm hf hok
  have hb : r.snapshotMeta.lastIncludedIndex ≤ req.lastIncludedIndex :=
    (hrun.boundary_le.trans_lt hnew).le
  simp only [installSnapshot, wp_bind, wp_read]
  refine wp_saveSnapshot hval ?_ h.survives (saved_survives h hterm hf hok hnew)
  simp only [wp_bind]
  refine wp_mono _ _ _ (discardLog_spec h hterm hf hok hnew) ?_ fun _ hd => hd
  rintro _ _ _ ⟨rfl, rfl, rfl⟩
  simp only [restoreStore, saveStableValuesLocked, wp_bind]
  refine wp_attempt_atomic ?_ hdone
  simp only [hrestore, wp_bind, wp_modify, wp_pure]
  let r' : Raft σ := { r with
    store := st
    log := (r.retainedSuffix req.lastIncludedIndex req.lastIncludedTerm).getD []
    snapshotMeta := ⟨req.lastIncludedIndex, req.lastIncludedTerm⟩
    commitIndex := max r.commitIndex req.lastIncludedIndex
    lastApplied := max r.lastApplied req.lastIncludedIndex
    covered := req.covers }
  have hlog : r'.log = installedSuffix r.history req := by
    change (r.retainedSuffix _ _).getD [] = _
    rw [hrun.retainedSuffix_eq hb, installedSuffix]
    split <;> rfl
  have hhist : r'.history = installedLog r.history req := by
    rw [Raft.history, hlog, installedLog_eq]
  have hlast : r'.lastApplied = req.lastIncludedIndex := max_eq_right hnew.le
  have h' : Reaches M tidy (.installRequest req) p r'
      ⟨r'.stable, installedSuffix r.history req, some req.snapshot⟩ := by
    constructor
    · exact
        { covered_length := hok.length
          boundary_term := hok.term
          indexed := by rw [hhist]; exact hok.indexed_installedLog hrun.indexed
          valid := by rw [hhist]; exact hok.valid_installedLog hrun.valid
          boundary_le := by rw [hlast]
          applied_le := by rw [hlast]; exact le_max_right _ _
          commit_le := by rw [hhist]; exact (hok.commit_le hrun.commit_le).1
          vote_ge := hrun.vote_ge
          disk_log := hlog.symm
          disk_stable := rfl
          boundary_disk := le_refl req.lastIncludedIndex
          disk_applied := by rw [hlast]; exact le_refl req.lastIncludedIndex
          disk_snapshot := fun s hs => by
            rw [hhist, ← Option.some.inj hs]
            exact hok.standing
          phase := by
            rw [hhist, hlast]
            exact installed_phase h hok hnew himg hmu htidy }
    · have hpeer : r'.peer = { r.peer with
          history := installedLog r.history req
          commit := max r.commitIndex req.lastIncludedIndex } := by
        simp only [Raft.peer, hhist]
        rfl
      rw [hpeer]
      exact h.steps.tail (.install _ req hterm hf)
  refine wp_saveStable h'.running.vote_ge h'.running.applied_le ?_ hdone h'.survives
  simp only [wp_bind, wp_modify, wp_pure]
  exact ⟨h', trivial, trivial, le_max_right _ _, trivial, hhist⟩

end Handler

/-- The node has a state machine to restore, and the request something to install. -/
def CanInstall (env : Env σ) (req : InstallSnapshotRequest) : Prop :=
  env.snapshotter.isSome = true ∧ req.snapshot.validate = .ok ()

/-- What the answer to an InstallSnapshot request tells about the node before
and after it. -/
structure InstallAnswered (env : Env σ) (req : InstallSnapshotRequest) (r : Raft σ)
    (out : Except String InstallSnapshotResponse) (r' : Raft σ) : Prop where
  current : ∀ resp, out = .ok resp → resp.term = req.term →
    r'.currentTerm = req.term ∧ req.lastIncludedIndex ≤ r'.commitIndex
  answers : r.currentTerm ≤ req.term → CanInstall env req →
    out = .ok ⟨req.term⟩ ∧ r'.currentTerm = req.term
  ignored : ¬ r.Accepts req → r.SameLog r'
  installs : r.Accepts req → CanInstall env req →
    r'.snapshotMeta.lastIncludedIndex = req.lastIncludedIndex ∧
      r'.history = installedLog r.history req

/-- A request that the node cannot install is refused with an error. -/
theorem InstallAnswered.error {err : String} (hs : r.SameLog r') (hcan : ¬ CanInstall env req) :
    InstallAnswered env req r (.error err) r' :=
  ⟨nofun, fun _ h => absurd h hcan, fun _ => hs, fun _ h => absurd h hcan⟩

/-- The handler without the installation itself, which only some requests get to. -/
theorem handleInstallSnapshot_of_install {i : Input} (h : Reaches M tidy i p r d)
    (hmu : r.apply.holdsSnapshotMu = false)
    (hinstall : r.Accepts req → ∀ {sn r₁ d₁}, env.snapshotter = some sn →
      req.snapshot.validate = .ok () → Reaches M tidy i p r₁ d₁ → r.SameLog r₁ →
      r₁.currentTerm = req.term → r₁.state = .follower →
      wp Atomic (Survives M i p) (installSnapshot sn req)
        (fun out r' d' => Reaches M tidy i p r' d' ∧ InstallAnswered env req r out r') r₁ d₁) :
    wp Atomic (Survives M i p) (handleInstallSnapshot env req)
      (fun out r' d' => Reaches M tidy i p r' d' ∧ InstallAnswered env req r out r') r d := by
  simp only [handleInstallSnapshot, wp_bind, wp_read, wp_ite, wp_pure]
  refine ⟨fun hlt => ⟨h, ⟨fun resp hresp ht => ?_, fun hle => by omega, fun _ => .refl r,
    fun hreq => absurd hreq.term (Nat.not_le.mpr hlt)⟩⟩, fun hge => ?_⟩
  · rw [← Except.ok.inj hresp] at ht
    exact absurd ht (Nat.ne_of_gt hlt)
  refine wp_mono _ _ _ (recognizeLeader_spec h (by omega) req.leaderID) ?_ fun _ hd => hd
  rintro _ r₁ d₁ ⟨rfl, h₁, hsame, hterm₁, hf₁⟩
  simp only [wp_bind, wp_read]
  cases hsn : env.snapshotter with
  | none =>
    refine ⟨h₁, .error hsame fun hcan => ?_⟩
    have := hcan.1
    rw [hsn] at this
    cases this
  | some sn =>
    cases hmeta : SnapshotMetadata.validate ⟨req.lastIncludedIndex, req.lastIncludedTerm⟩ with
    | error err =>
      refine ⟨h₁, .error hsame fun hcan => ?_⟩
      have := hmeta.symm.trans (req.snapshot.validate_ok_iff.mp hcan.2).1
      cases this
    | ok u =>
      simp only [wp_ite, wp_pure]
      refine ⟨fun hnil => ⟨h₁, .error hsame fun hcan => ?_⟩,
        fun hdata => ⟨fun hle => ⟨h₁, ?_⟩, fun hgt => ?_⟩⟩
      · exact (req.snapshot.validate_ok_iff.mp hcan.2).2 hnil
      · refine ⟨fun _ _ _ => ⟨hterm₁, hle.trans h₁.running.applied_le⟩,
          fun _ _ => ⟨by rw [hterm₁], hterm₁⟩, fun _ => hsame, fun hreq => ?_⟩
        rw [hsame.lastApplied] at hle
        exact absurd hreq.above (Nat.not_lt.mpr hle)
      have hval : req.snapshot.validate = .ok () := req.snapshot.validate_ok_iff.mpr ⟨hmeta, hdata⟩
      refine hinstall ⟨Nat.le_of_not_lt hge, hmeta, hdata, ?_, hmu⟩ hsn hval h₁ hsame hterm₁ hf₁
      rw [← hsame.lastApplied]
      exact Nat.lt_of_not_le hgt

theorem handleInstallSnapshot_spec (h : Reaches M tidy (.installRequest req) p r d)
    (hmu : r.apply.holdsSnapshotMu = false)
    (hin : r.Accepts req → InstallOk M r.history r.commitIndex req ∧
      (tidy → ∀ e, r.apply = .selected e → e.operation = .noop)) :
    wp Atomic (Survives M (.installRequest req) p) (handleInstallSnapshot env req)
      (fun out r' d' => Reaches M tidy (.installRequest req) p r' d' ∧
        InstallAnswered env req r out r') r d := by
  refine handleInstallSnapshot_of_install h hmu fun hreq sn r₁ d₁ hsn hval h₁ hsame hterm₁ hf₁ => ?_
  obtain ⟨hok, htidy⟩ := hin hreq
  have hnew : r₁.lastApplied < req.lastIncludedIndex := hsame.lastApplied ▸ hreq.above
  rw [← hsame.history, ← hsame.commitIndex] at hok
  rw [← hsame.apply] at hmu htidy
  refine wp_mono _ _ _ (installSnapshot_spec h₁ hterm₁ hf₁ hok hnew hsn hval hmu htidy) ?_
    fun _ hd => hd
  rintro _ r₂ d₂ ⟨h₂, rfl, hterm₂, hle, hmeta, hhist⟩
  have hterm : r₂.currentTerm = req.term := hterm₂.trans hterm₁
  exact ⟨h₂, fun _ _ _ => ⟨hterm, hle⟩, fun _ _ => ⟨by rw [hterm₁], hterm⟩,
    fun hno => absurd hreq hno, fun _ _ => ⟨hmeta, by rw [hhist, hsame.history]⟩⟩

/-- A request that is ignored changes nothing that another input could not change too. -/
theorem handleInstallSnapshot_ignored {i : Input} (h : Reaches M tidy i p r d)
    (hmu : r.apply.holdsSnapshotMu = false) (hreq : ¬ r.Accepts req) :
    wp Atomic (Survives M i p) (handleInstallSnapshot env req)
      (fun _ r' d' => Reaches M tidy i p r' d') r d :=
  wp_mono _ _ _ (handleInstallSnapshot_of_install h hmu fun hin => absurd hin hreq)
    (fun _ _ _ hr => hr.1) fun _ hd => hd

end DistributedKv
