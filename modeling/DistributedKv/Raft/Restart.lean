import DistributedKv.Raft.React

/-!
Starting a node from good files. `newWithSnapshot_spec`: a start that is not cut
short either yields a running node with the peer of the files, everything
committed applied, or stops at an entry that the state machine rejects; and a
crash on the way leaves good files with the same peer.
-/

namespace DistributedKv

open Crash Prog

variable {σ : Type} {env : Env σ} {M : Imaging env} {tidy : Prop} {r : Raft σ} {d d' : Disk}

/-- The state machine rejects an entry in a state to which the ones before it lead. -/
def Rejected (M : Imaging env) (l : List LogEntry) : Prop :=
  ∃ k e st, l[k]? = some e ∧ e.operation ≠ .noop ∧ M.Image (l.take k) st ∧
    ∀ f, env.applier = some f → ∃ err, f e st = .error err

/-- Good files with the peer of `d`. -/
def SamePeer (M : Imaging env) (d d' : Disk) : Prop := DiskOk M d' ∧ d'.peer = d.peer

/-- The stored snapshot restores to the image of its entries. -/
def Restorable (M : Imaging env) (d : Disk) : Prop :=
  ∀ {s sn}, d.snapshot = some s → env.snapshotter = some sn →
    ∃ st, sn.restore s.data = .ok st ∧ M.Image s.covers st

/-! ## Replay -/

theorem replay_spec {R : Disk → Prop} (h : r.Shape) (hR : R d) {n a : Nat} {st : σ}
    (hb : r.snapshotMeta.lastIncludedIndex ≤ a) (hn : a + n ≤ r.history.length)
    (himg : M.Image (r.history.take a) st) :
    wp Atomic R (replay env r n a)
      (fun out st' d' => d = d' ∧ match out with
        | .ok () => M.Image (r.history.take (a + n)) st'
        | .error _ => Rejected M r.history) st d := by
  induction n generalizing a st with
  | zero => exact ⟨rfl, himg⟩
  | succ n ih =>
    have hlt : a < r.history.length := by omega
    have hget := List.getElem?_eq_getElem hlt
    have hnext : ∀ st', M.Image (r.history.take (a + 1)) st' →
        wp Atomic R (replay env r n (a + 1))
          (fun out st' d' => d = d' ∧ match out with
            | .ok () => M.Image (r.history.take (a + (n + 1))) st'
            | .error _ => Rejected M r.history) st' d := by
      intro st' himg'
      have := ih (a := a + 1) (by omega) (by omega) himg'
      rwa [show a + 1 + n = a + (n + 1) by omega] at this
    rw [replay, h.entryAtLocked_eq, if_pos (by omega), Nat.add_sub_cancel, hget]
    simp only [wp_ite]
    refine ⟨fun hop => ?_, fun hnoop => hnext st ?_⟩
    · cases hf : env.applier with
      | none =>
        refine ⟨rfl, a, _, st, hget, hop, himg, fun f hf' => ?_⟩
        rw [hf] at hf'
        cases hf'
      | some f =>
        simp only [wp_bind]
        refine wp_attempt_atomic ?_ hR
        simp only [wp_bind, wp_read]
        cases hst : f r.history[a] st with
        | error err =>
          refine ⟨rfl, a, _, st, hget, hop, himg, fun f' hf' => ?_⟩
          obtain rfl := Option.some.inj (hf.symm.trans hf')
          exact ⟨err, hst⟩
        | ok st' =>
          simp only [wp_bind, wp_modify]
          refine hnext st' ?_
          rw [Raft.history_take_succ hget]
          exact M.apply hf himg hop hst
    · rw [Raft.history_take_succ hget]
      exact M.noop himg (not_not.mp hnoop)

/-! ## The files after each call of a start -/

theorem loadStable_ok {path : String} {st : StableState} (hv : noVote ≤ st.votedFor)
    (ha : st.lastApplied ≤ st.commitIndex) : loadStable path st = .ok st := by
  unfold loadStable
  rw [if_neg (by omega), if_neg (by omega)]

/-- Raising the indexes of the stable state keeps good files good. -/
theorem DiskOk.restable (h : DiskOk M d) {st : StableState}
    (hterm : st.currentTerm = d.stable.currentTerm) (hvote : st.votedFor = d.stable.votedFor)
    (hcommit : max st.commitIndex d.boundary = max d.stable.commitIndex d.boundary)
    (happlied : st.lastApplied ≤ st.commitIndex) : SamePeer M d { d with stable := st } := by
  refine ⟨?_, ?_⟩
  · exact
      { vote := hvote ▸ h.vote
        applied := happlied
        contiguous := h.contiguous
        indexed := h.indexed
        valid := h.valid
        snapshot := h.snapshot
        base := h.base
        commit := by
          change max st.commitIndex d.boundary ≤ d.history.length
          rw [hcommit]
          exact h.commit }
  · change (⟨st.currentTerm, st.votedFor, d.history, max st.commitIndex d.boundary, _, _, _⟩ : Peer)
      = _
    rw [hterm, hvote, hcommit]
    rfl

/-- The uncompacted log splits at the boundary of the snapshot. -/
theorem DiskOk.recovered_indexed (h : DiskOk M d) : Indexed d.boundary d.recoveredLog := by
  have hidx := (Indexed.append.mp h.indexed).2
  rw [Nat.zero_add] at hidx
  cases hs : d.snapshot with
  | none => simpa [Disk.boundary, Disk.covers, hs] using hidx
  | some s =>
    have hst := h.snapshot s hs
    have hlen : s.covers.length = s.lastIncludedIndex := by
      rw [hst.covers, List.length_take, Nat.min_eq_left hst.le_length]
    simpa [Disk.boundary, Disk.covers, hs, hlen] using hidx

theorem DiskOk.covers_length (h : DiskOk M d) : d.covers.length = d.boundary := by
  cases hs : d.snapshot with
  | none => simp [Disk.boundary, Disk.covers, hs]
  | some s =>
    have hst := h.snapshot s hs
    simp [Disk.boundary, Disk.covers, hs, hst.covers, hst.le_length]

theorem retained_self {s : Snapshot} {l : List LogEntry} (h : Indexed s.lastIncludedIndex l) :
    s.retained l = l := by
  have := Snapshot.retained_of_indexed (s := s) h le_rfl (fun hlt => absurd hlt (lt_irrefl _))
  rwa [Nat.sub_self, List.drop_zero] at this

/-- Bringing the log file in line with the snapshot keeps good files good. -/
theorem DiskOk.relog (h : DiskOk M d) {s : Snapshot} (hs : d.snapshot = some s) :
    SamePeer M d { d with log := s.retained d.log } ∧
      Disk.recoveredLog { d with log := s.retained d.log } = s.retained d.log := by
  have hidx := h.recovered_indexed
  have hrec : d.recoveredLog = s.retained d.log := by simp [Disk.recoveredLog, hs]
  have hb : d.boundary = s.lastIncludedIndex := by simp [Disk.boundary, hs]
  rw [hrec, hb] at hidx
  have hrec' : Disk.recoveredLog { d with log := s.retained d.log } = s.retained d.log := by
    simp only [Disk.recoveredLog, hs]
    exact retained_self hidx
  have hhist : Disk.history { d with log := s.retained d.log } = d.history := by
    rw [Disk.history, hrec', Disk.history, hrec]
    rfl
  have hval : ∀ e ∈ s.retained d.log, e.Valid := fun e he =>
    h.valid e (List.mem_append_right _ (hrec ▸ he))
  refine ⟨⟨?_, ?_⟩, hrec'⟩
  · exact
      { vote := h.vote
        applied := h.applied
        contiguous := ⟨hval, _, hidx⟩
        indexed := by rw [hhist]; exact h.indexed
        valid := by rw [hhist]; exact h.valid
        snapshot := by rw [hhist]; exact h.snapshot
        base := fun e he => by
          rw [List.head?_eq_getElem?] at he
          have := hidx 0 e he
          change e.index ≤ d.boundary + 1
          omega
        commit := by rw [hhist]; exact h.commit }
  · simp only [Disk.peer, hhist]
    rfl

/-! ## A start -/

/-- What a start leaves: a node with the peer of the files `d` and everything
committed applied; or the files, when the state machine rejects an entry. -/
def Started (M : Imaging env) (tidy : Prop) (d : Disk) (out : Except String (Raft σ)) (d' : Disk) :
    Prop :=
  match out with
  | .ok r => Running M tidy r d' ∧ r.peer = d.peer ∧ r.log = d.recoveredLog ∧
      r.snapshotMeta.lastIncludedIndex = d.boundary ∧ r.lastApplied = r.commitIndex ∧
      r.apply = .idle
  | .error _ => SamePeer M d d' ∧ Rejected M d.history

section Recovered

variable (h : DiskOk M d) {m : SnapshotMetadata} {st : σ} (hlog : d.log = d.recoveredLog)
  (hm : m.lastIncludedIndex = d.boundary) (ht : m.lastIncludedTerm = lastTerm d.covers)

include h hlog hm ht

theorem DiskOk.recovered_shape : (Raft.recovered d.stable d.log m d.covers st).Shape ∧
    (Raft.recovered d.stable d.log m d.covers st).history = d.history := by
  have hhist : (Raft.recovered d.stable d.log m d.covers st).history = d.history := by
    change d.covers ++ d.log = d.covers ++ d.recoveredLog
    rw [hlog]
  refine ⟨?_, hhist⟩
  exact
    { covered_length := h.covers_length.trans hm.symm
      boundary_term := ht
      indexed := hhist ▸ h.indexed
      valid := hhist ▸ h.valid }

/-- A recovered node that has applied everything committed. -/
theorem DiskOk.recovered_started (hlow : d.boundary ≤ d.stable.lastApplied)
    (himg : M.Image (d.history.take d.stable.commitIndex) st) {d' : Disk} (hdl : d'.log = d.log)
    (hds : d'.snapshot = d.snapshot) {r : Raft σ}
    (hr : r = { Raft.recovered d.stable d.log m d.covers st with
      lastApplied := max m.lastIncludedIndex d.stable.commitIndex })
    (hdst : d'.stable = r.stable) : Started M tidy d (.ok r) d' := by
  obtain ⟨hshape, hhist⟩ : (Raft.recovered d.stable d.log m d.covers st).Shape ∧
    (Raft.recovered d.stable d.log m d.covers st).history = d.history := h.recovered_shape hlog hm ht
  have hlowc : d.boundary ≤ d.stable.commitIndex := hlow.trans h.applied
  have hmax : max m.lastIncludedIndex d.stable.commitIndex = d.stable.commitIndex :=
    max_eq_right (hm ▸ hlowc)
  have hbd : d'.boundary = d.boundary := by simp only [Disk.boundary, hds]
  have hpeer : r.peer = d.peer := by
    have : max d.stable.commitIndex d.boundary = d.stable.commitIndex := max_eq_left hlowc
    simp only [Disk.peer, this, ← hhist, hr]
    rfl
  refine ⟨?_, hpeer, by rw [hr]; exact hlog, by rw [hr]; exact hm, by rw [hr]; exact hmax,
    by rw [hr]; rfl⟩
  subst hr
  exact
    { hshape with
      boundary_le := le_max_left _ _
      applied_le := hmax.le
      commit_le := hhist ▸ (le_max_left _ _).trans h.commit
      vote_ge := h.vote
      disk_log := hdl
      disk_stable := hdst
      boundary_disk := by rw [hbd]; exact hm.le
      disk_applied := by
        rw [hbd]
        exact hlowc.trans hmax.ge
      disk_snapshot := fun s hs => by
        change s.Standing M (Raft.recovered d.stable d.log m d.covers st).history
        rw [hhist]
        exact h.snapshot s (hds ▸ hs)
      phase := by
        change M.Image ((Raft.recovered d.stable d.log m d.covers st).history.take
          (max m.lastIncludedIndex d.stable.commitIndex)) st
        rw [hmax, hhist]
        exact himg }

theorem replayCommitted_spec (hlow : d.boundary ≤ d.stable.lastApplied)
    (himg : M.Image d.covers st) :
    wp Atomic (SamePeer M d)
      (replayCommitted env d.stable (Raft.recovered d.stable d.log m d.covers st))
      (fun out _ d' => Started M tidy d out d') st d := by
  let r : Raft σ := Raft.recovered d.stable d.log m d.covers st
  obtain ⟨hshape, hhist⟩ : r.Shape ∧ r.history = d.history := h.recovered_shape hlog hm ht
  have hlowc : d.boundary ≤ d.stable.commitIndex := hlow.trans h.applied
  have hcommit : d.stable.commitIndex ≤ d.history.length := (le_max_left _ _).trans h.commit
  have hsame : SamePeer M d d := ⟨h, rfl⟩
  have htake : r.history.take d.boundary = d.covers := by
    rw [hhist, Disk.history, List.take_append_of_le_length h.covers_length.ge,
      List.take_of_length_le h.covers_length.le]
  have hreplay := replay_spec hshape hsame (n := d.stable.commitIndex - d.boundary)
    (a := d.boundary) (le_of_eq hm) (by rw [hhist]; omega) (htake.symm ▸ himg)
  rw [show d.boundary + (d.stable.commitIndex - d.boundary) = d.stable.commitIndex by omega]
    at hreplay
  simp only [replayCommitted, wp_bind]
  have harg : replay env r (r.commitIndex - r.lastApplied) r.lastApplied =
      replay env r (d.stable.commitIndex - d.boundary) d.boundary := by
    change replay env r (d.stable.commitIndex - m.lastIncludedIndex) m.lastIncludedIndex = _
    rw [hm]
  change wp Atomic (SamePeer M d) (replay env r (r.commitIndex - r.lastApplied) r.lastApplied) _ _ _
  rw [harg]
  refine wp_mono _ _ _ hreplay ?_ fun _ hd => hd
  rintro (err | u) st' _ ⟨rfl, hout⟩
  · simp only [wp_pure]
    rw [hhist] at hout
    exact ⟨hsame, hout⟩
  simp only [wp_bind, wp_read, wp_ite, wp_pure]
  rw [hhist] at hout
  have hmax : max m.lastIncludedIndex d.stable.commitIndex = d.stable.commitIndex :=
    max_eq_right (hm ▸ hlowc)
  let r' : Raft σ := { r with
    lastApplied := max m.lastIncludedIndex d.stable.commitIndex, store := st' }
  have hstarted : ∀ d', d'.log = d.log → d'.snapshot = d.snapshot → d'.stable = r'.stable →
      Started M tidy d (.ok r') d' := fun d' hdl hds hdst =>
    h.recovered_started hlog hm ht hlow hout hdl hds rfl hdst
  refine ⟨fun hne => ?_, fun heq => hstarted d rfl rfl ?_⟩
  · have hsaved : SamePeer M d { d with stable := r'.stable } :=
      h.restable rfl rfl rfl (le_of_eq hmax)
    refine wp_saveStable h.vote (le_of_eq hmax) ?_ hsame hsaved
    exact hstarted _ rfl rfl rfl
  · rw [not_not] at heq
    have hlast : d.stable.lastApplied = max m.lastIncludedIndex d.stable.commitIndex := heq
    change d.stable = ⟨d.stable.currentTerm, d.stable.votedFor, d.stable.commitIndex,
      max m.lastIncludedIndex d.stable.commitIndex⟩
    rw [← hlast]

end Recovered

variable (tidy) in
theorem newWithLogAndSnapshot_spec (hcfg : env.cfg.validate = .ok ()) (h : DiskOk M d)
    {m : SnapshotMetadata} {st : σ} (hlog : d.log = d.recoveredLog)
    (hm : m.lastIncludedIndex = d.boundary) (ht : m.lastIncludedTerm = lastTerm d.covers)
    (hlow : d.boundary ≤ d.stable.lastApplied) (himg : M.Image d.covers st) :
    wp Atomic (SamePeer M d) (newWithLogAndSnapshot env m d.covers)
      (fun out _ d' => Started M tidy d out d') st d := by
  have hmeta : m.validate = .ok () := by
    refine m.validate_ok_iff.mpr fun h0 => ?_
    have hnil : d.covers = [] :=
      List.length_eq_zero_iff.mp (h.covers_length.trans (hm.symm.trans h0))
    rw [ht, hnil]
    rfl
  have hidx := h.recovered_indexed
  rw [← hlog] at hidx
  have hsuffix : validateLogSuffix d.log m = .ok () :=
    (checkFrom_some_ok_iff _ _ _ _).mpr ⟨h.contiguous.1, hm ▸ hidx⟩
  have hlast : lastLogIndexFor d.log m = d.history.length := by
    rw [Disk.history, List.length_append, h.covers_length, ← hlog, lastLogIndexFor]
    cases hl : d.log.getLast? with
    | none => rw [List.getLast?_eq_none_iff.mp hl]; exact hm
    | some e => exact hidx.getLast hl
  have hlowc : d.boundary ≤ d.stable.commitIndex := hlow.trans h.applied
  have hcommit : d.stable.commitIndex ≤ d.history.length := (le_max_left _ _).trans h.commit
  simp only [newWithLogAndSnapshot, hcfg, hmeta, wp_bind, wp_disk, loadStable_ok h.vote h.applied,
    LogStore.loadLocked_ok h.contiguous, hsuffix, hlast]
  rw [if_neg (by omega), if_neg (by omega)]
  simp only [wp_bind, wp_read]
  exact replayCommitted_spec h hlog hm ht hlow himg

theorem recoverLogAfterSnapshot_spec (h : DiskOk M d) {s : Snapshot} (hs : d.snapshot = some s)
    {st : σ} :
    wp Atomic (SamePeer M d) (recoverLogAfterSnapshot d.log s.metadata)
      (fun out st' d' => out = .ok () ∧ st = st' ∧ d' = { d with log := s.retained d.log }) st d := by
  have hsame : SamePeer M d d := ⟨h, rfl⟩
  obtain ⟨hrelog, -⟩ := h.relog hs
  have hbound : d.boundary = s.lastIncludedIndex := by simp [Disk.boundary, hs]
  cases hlog : d.log with
  | nil =>
    simp only [recoverLogAfterSnapshot, wp_pure, Snapshot.retained]
    exact ⟨trivial, trivial, by rw [← hlog]⟩
  | cons first rest =>
    obtain ⟨hv, b, hb⟩ := h.contiguous
    have hfirst : first.index = b + 1 := (Indexed.cons.mp (hlog ▸ hb)).1
    have hbase := h.base first (by rw [hlog]; rfl)
    rw [hbound] at hbase
    simp only [recoverLogAfterSnapshot, wp_ite, wp_pure]
    refine ⟨fun heq => ⟨trivial, trivial, ?_⟩, fun hne => ⟨fun hgt => ?_, fun _ =>
      ⟨fun hmatch => ?_, fun hmatch => ?_⟩⟩⟩
    · have : s.retained (first :: rest) = first :: rest := by
        simp only [Snapshot.retained]
        exact if_pos heq
      rw [this, ← hlog]
    · change first.index > s.lastIncludedIndex + 1 at hgt
      omega
    all_goals rw [hlog] at hrelog
    · have hret : s.retained (first :: rest) = d.log.drop (s.lastIncludedIndex - b) := by
        simp only [Snapshot.retained]
        refine (if_neg hne).trans ((if_pos hmatch).trans ?_)
        rw [hlog]
        congr 1
        omega
      rw [hret] at hrelog ⊢
      exact wp_compactThrough hv hb ⟨rfl, rfl, rfl⟩ hsame hrelog
    · have hret : s.retained (first :: rest) = d.log.take (first.index - b - 1) := by
        simp only [Snapshot.retained]
        refine (if_neg hne).trans ((if_neg hmatch).trans ?_)
        rw [show first.index - b - 1 = 0 by omega, List.take_zero]
      rw [hret] at hrelog ⊢
      exact wp_truncateFrom hv hb (by omega) (by omega) ⟨rfl, rfl, rfl⟩ hsame hrelog

theorem SamePeer.trans {d₁ d₂ : Disk} (h : SamePeer M d d₁) (h' : SamePeer M d₁ d₂) :
    SamePeer M d d₂ := ⟨h'.1, h'.2.trans h.2⟩

variable (tidy) in
/-- Starting from good files. -/
theorem newWithSnapshot_spec (hcfg : env.cfg.validate = .ok ())
    (hsn : ∃ sn, env.snapshotter = some sn) (h : DiskOk M d) (hrest : Restorable M d) :
    wp Atomic (SamePeer M d) (newWithSnapshot env) (fun out _ d' => Started M tidy d out d')
      env.initial d := by
  obtain ⟨sn, hsn⟩ := hsn
  have hsame : SamePeer M d d := ⟨h, rfl⟩
  simp only [newWithSnapshot, hsn, wp_bind, wp_disk]
  cases hs : d.snapshot with
  | none =>
    have hcov : d.covers = [] := by simp [Disk.covers, hs]
    have hb : d.boundary = 0 := by simp [Disk.boundary, hs]
    have := newWithLogAndSnapshot_spec tidy hcfg h (m := .empty)
      (by simp [Disk.recoveredLog, hs]) hb.symm (by rw [hcov]; rfl) (by omega)
      (hcov ▸ M.initial)
    rwa [hcov] at this
  | some s =>
    have hst := h.snapshot s hs
    have hcov : d.covers = s.covers := by simp [Disk.covers, hs]
    have hb : d.boundary = s.lastIncludedIndex := by simp [Disk.boundary, hs]
    have hmeta : s.metadata.validate = .ok () := by
      refine s.metadata.validate_ok_iff.mpr fun h0 => ?_
      change s.lastIncludedIndex = 0 at h0
      change s.lastIncludedTerm = 0
      rw [hst.term, hst.covers, h0]
      rfl
    simp only [hmeta, loadStable_ok h.vote h.applied, LogStore.loadLocked_ok h.contiguous, wp_bind]
    refine wp_mono _ _ _ (recoverLogAfterSnapshot_spec h hs) ?_ fun _ hd => hd
    rintro _ _ _ ⟨rfl, rfl, rfl⟩
    obtain ⟨hrelog, hrec⟩ := h.relog hs
    simp only [wp_bind]
    refine wp_attempt_atomic ?_ hrelog
    obtain ⟨st, hrestore, himg⟩ := hrest hs hsn
    simp only [hrestore, wp_bind, wp_modify]
    have hle : (d.stable.raisedTo s.lastIncludedIndex).lastApplied ≤
        (d.stable.raisedTo s.lastIncludedIndex).commitIndex := by
      have := h.applied
      simp only [StableState.raisedTo]
      omega
    have hraised : SamePeer M { d with log := s.retained d.log }
        ⟨d.stable.raisedTo s.lastIncludedIndex, s.retained d.log, d.snapshot⟩ := by
      refine hrelog.1.restable rfl rfl ?_ hle
      change max (max d.stable.commitIndex s.lastIncludedIndex) d.boundary =
        max d.stable.commitIndex d.boundary
      rw [hb, max_assoc, max_self]
    refine wp_saveStable h.vote hle ?_ hrelog (hrelog.trans hraised)
    have hall := hrelog.trans hraised
    have hrec' : Disk.recoveredLog
        ⟨d.stable.raisedTo s.lastIncludedIndex, s.retained d.log, d.snapshot⟩ =
          s.retained d.log := hrec
    have hfinal := newWithLogAndSnapshot_spec tidy hcfg hraised.1 (m := s.metadata)
      hrec'.symm hb.symm (hst.term.trans (congrArg lastTerm hcov.symm))
      (hb ▸ le_max_right _ _) (show M.Image d.covers st from hcov ▸ himg)
    change wp Atomic (SamePeer M d) (newWithLogAndSnapshot env s.metadata s.covers) _ st
      ⟨d.stable.raisedTo s.lastIncludedIndex, s.retained d.log, d.snapshot⟩
    rw [← hcov]
    refine wp_mono _ _ _ hfinal ?_ fun d' hd' => hall.trans hd'
    rintro (err | r) st' d' hstart
    · obtain ⟨hsame', hrejected⟩ := hstart
      refine ⟨hall.trans hsame', ?_⟩
      rwa [show d.history = _ from (congrArg Peer.history hall.2).symm]
    · obtain ⟨hrun, hpeer, hlog, hbd, hlast, hidle⟩ := hstart
      refine ⟨hrun, hpeer.trans hall.2, hlog.trans ?_, hbd, hlast, hidle⟩
      rw [hrec']
      simp [Disk.recoveredLog, hs]

end DistributedKv
