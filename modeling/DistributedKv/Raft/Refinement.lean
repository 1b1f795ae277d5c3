import DistributedKv.Raft.Invariant

/-!
When every store call is carried out, and the process may die at any of them,
each operation of a running node keeps the invariant and changes the peer by
steps of `Peer.Step`; whatever a crash leaves on disk is a good set of files
whose peer was reached by such steps too. This module has the rules and the
operations that change terms, votes and roles.
-/

namespace DistributedKv

open Crash Prog

/-- Store calls are carried out, unless the process dies at one. -/
def Atomic : Outcome → Prop
  | .ok => True
  | .crash _ => True
  | _ => False

variable {σ : Type} {env : Env σ} {M : Imaging env} {tidy : Prop} {i : Input} {p : Peer}
  {r r' : Raft σ} {d d' : Disk} {V α : Type}

/-! ## Store calls -/

section Stores

variable {R : Disk → Prop} {Q : Except String Unit → V → Disk → Prop} {v : V}

theorem wp_replace {run : Disk → Except String Disk} (h : run d = .ok d') (hQ : Q (.ok ()) v d')
    (hR : R d) (hR' : R d') : wp Atomic R (store (Disk.replace run)) Q v d := by
  rw [wp_store]
  simp only [Disk.replace, h]
  refine ⟨hQ, fun e he => he.elim, fun e he => he.elim, fun n _ => ?_⟩
  cases n with
  | zero => exact hR
  | succ n => exact hR'

theorem wp_replace_error {run : Disk → Except String Disk} {err : String}
    (h : run d = .error err) (hQ : Q (.error err) v d) :
    wp Atomic R (store (Disk.replace run)) Q v d := by
  rw [wp_store]
  simpa only [Disk.replace, h] using hQ

theorem wp_saveStable {st : StableState} (hv : noVote ≤ st.votedFor)
    (hle : st.lastApplied ≤ st.commitIndex) (hQ : Q (.ok ()) v { d with stable := st })
    (hR : R d) (hR' : R { d with stable := st }) :
    wp Atomic R (store (Disk.saveStable st)) Q v d := by
  refine wp_replace ?_ hQ hR hR'
  rw [if_neg (by omega), if_neg (by omega)]

theorem wp_saveSnapshot {s : Snapshot} (hs : s.validate = .ok ())
    (hQ : Q (.ok ()) v { d with snapshot := some s }) (hR : R d)
    (hR' : R { d with snapshot := some s }) :
    wp Atomic R (store (Disk.saveSnapshot s)) Q v d := by
  refine wp_replace ?_ hQ hR hR'
  simp only [hs]

theorem wp_saveSnapshot_error {s : Snapshot} {err : String} (hs : s.validate = .error err)
    (hQ : Q (.error err) v d) : wp Atomic R (store (Disk.saveSnapshot s)) Q v d := by
  refine wp_replace_error ?_ hQ
  simp only [hs]

theorem wp_truncateFrom {b index : Nat} (hv : ∀ e ∈ d.log, e.Valid) (hi : Indexed b d.log)
    (hpos : 0 < index) (hle : index ≤ b + d.log.length + 1)
    (hQ : Q (.ok ()) v { d with log := d.log.take (index - b - 1) }) (hR : R d)
    (hR' : R { d with log := d.log.take (index - b - 1) }) :
    wp Atomic R (store (Disk.truncateFrom index)) Q v d := by
  refine wp_replace ?_ hQ hR hR'
  simp only [LogStore.truncateFrom_ok hv hi hpos hle]

theorem wp_compactThrough {b index : Nat} (hv : ∀ e ∈ d.log, e.Valid) (hi : Indexed b d.log)
    (hQ : Q (.ok ()) v { d with log := d.log.drop (index - b) }) (hR : R d)
    (hR' : R { d with log := d.log.drop (index - b) }) :
    wp Atomic R (store (Disk.compactThrough index)) Q v d := by
  refine wp_replace ?_ hQ hR hR'
  simp only [LogStore.compactThrough_ok hv hi]

theorem wp_appendLog {es : List LogEntry} (hes : Contiguous es)
    (hQ : Q (.ok ()) v { d with log := d.log ++ es })
    (hR : ∀ n, R { d with log := d.log ++ es.take n }) :
    wp Atomic R (store (Disk.appendLog es)) Q v d := by
  rw [wp_store]
  simp only [Disk.appendLog, (LogStore.append_ok_iff es d.log _).mpr ⟨hes, rfl⟩]
  exact ⟨hQ, fun e he => he.elim, fun e he => he.elim, fun n _ => hR n⟩

theorem wp_appendLog_error {es : List LogEntry} (hes : ¬ Contiguous es)
    (hQ : ∀ err, Q (.error err) v d) : wp Atomic R (store (Disk.appendLog es)) Q v d := by
  rw [wp_store]
  cases ha : LogStore.append es d.log with
  | error err => simpa only [Disk.appendLog, ha] using hQ err
  | ok l => exact absurd ((LogStore.append_ok_iff es d.log l).mp ha).1 hes

theorem wp_attempt_atomic (hQ : Q (.ok ()) v d) (hR : R d) :
    wp Atomic R (attempt : Prog V Disk _) Q v d := by
  rw [wp_attempt]
  exact ⟨hQ, fun e he => he.elim, fun e he => he.elim, fun _ _ => hR⟩

end Stores

/-! ## Reaching and surviving -/

/-- A running node that keeps the invariant and came from the peer `p`. -/
structure Reaches (M : Imaging env) (tidy : Prop) (i : Input) (p : Peer) (r : Raft σ) (d : Disk) :
    Prop where
  running : Running M tidy r d
  steps : p.Steps env i r.peer

/-- Good files that came from the peer `p`. -/
structure Survives (M : Imaging env) (i : Input) (p : Peer) (d : Disk) : Prop where
  diskOk : DiskOk M d
  steps : p.Steps env i d.peer

theorem Reaches.survives (h : Reaches M tidy i p r d) : Survives M i p d where
  diskOk := h.running.diskOk
  steps := by
    rw [h.running.disk_peer]
    exact h.steps.tail (.crash i _)

theorem Reaches.refl (h : Running M tidy r d) : Reaches M tidy i r.peer r d := ⟨h, .refl⟩

/-- The log, the indexes, the state machine and the apply goroutine are the same. -/
structure Raft.SameLog (r r' : Raft σ) : Prop where
  covered : r'.covered = r.covered
  log : r'.log = r.log
  snapshotMeta : r'.snapshotMeta = r.snapshotMeta
  commitIndex : r'.commitIndex = r.commitIndex
  lastApplied : r'.lastApplied = r.lastApplied
  store : r'.store = r.store
  apply : r'.apply = r.apply

theorem Raft.SameLog.refl (r : Raft σ) : r.SameLog r := ⟨rfl, rfl, rfl, rfl, rfl, rfl, rfl⟩

theorem Raft.SameLog.history (h : r.SameLog r') : r'.history = r.history := by
  rw [Raft.history, Raft.history, h.covered, h.log]

theorem Running.of_sameLog (h : Running M tidy r d) (hs : r.SameLog r')
    (hv : noVote ≤ r'.votedFor) : Running M tidy r' { d with stable := r'.stable } :=
  h.restate hs.covered hs.log hs.snapshotMeta hs.lastApplied hs.store hs.apply hs.commitIndex.ge
    (hs.commitIndex ▸ h.commit_le) hv

/-- Writing the stable state that the memory is about to have. -/
theorem Reaches.wp_saveStable (h : Reaches M tidy i p r d) {v : V}
    (h' : Reaches M tidy i p r' { d with stable := r'.stable })
    {Q : Except String Unit → V → Disk → Prop} (hQ : Q (.ok ()) v { d with stable := r'.stable }) :
    wp Atomic (Survives M i p) (store (Disk.saveStable r'.stable)) Q v d :=
  DistributedKv.wp_saveStable h'.running.vote_ge h'.running.applied_le hQ h.survives h'.survives

/-! ## Roles -/

section Roles

variable (h : Reaches M tidy i p r d)

include h

theorem becomeFollowerLocked_spec (term : Nat) (leaderID : Int) :
    wp Atomic (Survives M i p) (becomeFollowerLocked term leaderID)
      (fun out r' d' => out = .ok () ∧ Reaches M tidy i p r' d' ∧ r.SameLog r' ∧
        (r.currentTerm ≤ term → r'.currentTerm = term ∧ r'.state = .follower)) r d := by
  simp only [becomeFollowerLocked, saveStableLocked, saveStableValuesLocked, wp_bind, wp_read,
    wp_ite, wp_pure, wp_modify]
  refine ⟨fun hlt => ⟨trivial, h, .refl r, fun hle => by omega⟩, fun hge => ⟨fun hgt => ?_,
    fun hle => ⟨trivial, ⟨?_, ?_⟩, ⟨rfl, rfl, rfl, rfl, rfl, rfl, rfl⟩, fun _ => ⟨by omega, trivial⟩⟩⟩⟩
  · let r' : Raft σ := { r with
      currentTerm := term, votedFor := noVote, state := .follower, leaderID := leaderID }
    have hs : r.SameLog r' := ⟨rfl, rfl, rfl, rfl, rfl, rfl, rfl⟩
    have h' : Reaches M tidy i p r' { d with stable := r'.stable } :=
      ⟨h.running.of_sameLog hs (Int.le_refl _), h.steps.tail (.raise i _ term hgt)⟩
    refine h.wp_saveStable h' ?_
    simp only [wp_bind, wp_modify, wp_pure]
    exact ⟨trivial, h', hs, fun _ => ⟨trivial, trivial⟩⟩
  · exact h.running.relabel rfl rfl rfl rfl rfl rfl
  · exact h.steps.tail (.follow i _)

theorem recognizeLeader_spec {term : Nat} (hterm : r.currentTerm ≤ term) (leaderID : Int) :
    wp Atomic (Survives M i p) (recognizeLeader term leaderID)
      (fun out r' d' => out = .ok () ∧ Reaches M tidy i p r' d' ∧ r.SameLog r' ∧
        r'.currentTerm = term ∧ r'.state = .follower) r d := by
  simp only [recognizeLeader, wp_bind, wp_read, wp_ite, wp_pure, wp_modify]
  refine ⟨fun hgt => ?_, fun hle => ⟨trivial, ⟨?_, ?_⟩, ⟨rfl, rfl, rfl, rfl, rfl, rfl, rfl⟩, ?_, trivial⟩⟩
  · refine wp_mono _ _ _ (becomeFollowerLocked_spec h term leaderID) ?_ fun _ hd => hd
    rintro out r' d' ⟨hok, hr, hs, ht⟩
    exact ⟨hok, hr, hs, ht hterm⟩
  · exact h.running.relabel rfl rfl rfl rfl rfl rfl
  · exact h.steps.tail (.follow i _)
  · omega

end Roles

/-! ## Elections -/

theorem noopEntry_contiguous (index term : Nat) : Contiguous [noopEntry (index + 1) term] := by
  refine ⟨fun e he => ?_, index, fun k e he => ?_⟩
  · rw [List.mem_singleton.mp he]
    rfl
  · rw [List.getElem?_singleton] at he
    split at he
    · rename_i hk
      subst hk
      rw [← Option.some.inj he]
      rfl
    · cases he

theorem startElection_spec (hcfg : env.cfg.validate = .ok ())
    (h : Reaches M tidy .electionTimeout p r d) :
    wp Atomic (Survives M .electionTimeout p) (startElection env)
      (fun out r' d' => Reaches M tidy .electionTimeout p r' d' ∧
        ∀ req, out = some req → r'.state = .candidate ∧
          req = ⟨r'.currentTerm, env.id, r'.history.length, lastTerm r'.history⟩) r d := by
  let r' : Raft σ := { r with
    currentTerm := r.currentTerm + 1, votedFor := env.id, state := .candidate,
    leaderID := unknownLeader, election := some ⟨r.currentTerm + 1, 1, []⟩ }
  have hs : r.SameLog r' := ⟨rfl, rfl, rfl, rfl, rfl, rfl, rfl⟩
  have hvote : noVote ≤ r'.votedFor := Int.le_trans (by decide) (Env.id_nonneg hcfg)
  have h' : Reaches M tidy .electionTimeout p r' { d with stable := r'.stable } :=
    ⟨h.running.of_sameLog hs hvote, h.steps.tail (.stand _)⟩
  simp only [startElection, becomeCandidateLocked, saveStableLocked, saveStableValuesLocked,
    wp_bind, wp_read]
  refine h.wp_saveStable h' ?_
  simp only [wp_bind, wp_modify, wp_pure, (Env.majority_gt_one hcfg).ne', ↓reduceIte]
  refine ⟨h', fun req hreq => ⟨trivial, ?_⟩⟩
  have hinfo := h'.running.lastLogInfoLocked_eq
  have heq : Raft.lastLogInfoLocked { r with
      currentTerm := r.currentTerm + 1, votedFor := env.id, state := .candidate,
      leaderID := unknownLeader } = r'.lastLogInfoLocked := rfl
  rw [heq, hinfo] at hreq
  exact (Option.some.inj hreq).symm

/-- `becomeLeaderLocked`, called when the last vote needed has come in. -/
theorem becomeLeaderLocked_spec {peer : Int} {resp : RequestVoteResponse} {e : Election}
    (h : Reaches M tidy (.voteResponse peer r.currentTerm resp) p r d)
    (he : r.peer.Awaits e peer r.currentTerm) (hc : r.state = .candidate)
    (hr : resp.voteGranted = true ∧ resp.term = r.currentTerm)
    (hm : env.majority ≤ e.votes + 1) :
    wp Atomic (Survives M (.voteResponse peer r.currentTerm resp) p) (becomeLeaderLocked env)
      (fun _ r' d' => Reaches M tidy (.voteResponse peer r.currentTerm resp) p
        { r' with election := none } d') r d := by
  have hrun := h.running
  let noop := noopEntry (r.history.length + 1) r.currentTerm
  let r' : Raft σ := { r with
    log := r.log ++ [noop], state := .leader, leaderID := env.id
    nextIndex := fun q => if q ∈ env.peers then some (noop.index + 1) else none
    matchIndex := fun q => if q ∈ env.peers then some 0 else none
    election := none }
  have hhist : r'.history = r.history ++ [noop] := by simp [r', Raft.history]
  have h' : Reaches M tidy (.voteResponse peer r.currentTerm resp) p r'
      { d with log := d.log ++ [noop] } := by
    refine ⟨hrun.extendLog ?_ (noopEntry_contiguous _ _).1 rfl rfl rfl rfl rfl rfl, ?_⟩
    · exact Indexed.cons.mpr ⟨rfl, Indexed.nil _⟩
    · have hpeer : r'.peer = { r.peer with
          history := r.peer.history ++ [noopEntry (r.peer.history.length + 1) r.peer.term]
          role := .leader
          matchIndex := fun q => if q ∈ env.peers then some 0 else none
          election := none } := by
        simp only [Raft.peer, hhist]
        rfl
      rw [hpeer]
      exact h.steps.tail (.win _ peer resp e he hc hr hm)
  simp only [becomeLeaderLocked, wp_bind, wp_read, hrun.lastLogInfoLocked_eq]
  refine wp_appendLog (noopEntry_contiguous _ _) ?_ fun n => ?_
  · simp only [wp_bind, wp_modify, wp_pure]
    exact h'
  · cases n with
    | zero => simpa using h.survives
    | succ n => simpa [noop] using h'.survives

theorem receiveVote_spec {peer : Int} {term : Nat} {resp : RequestVoteResponse}
    (h : Reaches M tidy (.voteResponse peer term resp) p r d) :
    wp Atomic (Survives M (.voteResponse peer term resp) p) (receiveVote env peer term resp)
      (fun _ r' d' => Reaches M tidy (.voteResponse peer term resp) p r' d') r d := by
  -- dropping or counting a vote touches the election only
  have hend : ∀ {r' d'}, Reaches M tidy (.voteResponse peer term resp) p r' d' →
      Reaches M tidy (.voteResponse peer term resp) p { r' with election := none } d' :=
    fun h => ⟨h.running.relabel rfl rfl rfl rfl rfl rfl, h.steps.tail (.lose _ peer term resp)⟩
  simp only [receiveVote, wp_bind, wp_read]
  cases he : r.election with
  | none => exact h
  | some e =>
    simp only [wp_bind, wp_ite, wp_pure, wp_modify]
    refine ⟨fun _ => h, fun hfirst => ⟨fun _ => ?_, fun hterm => ⟨fun _ => hend h, fun hrole =>
      ⟨fun hgranted => ⟨fun hmaj => ?_, fun hmaj => ?_⟩, fun hnot => ?_⟩⟩⟩⟩
    · refine wp_mono _ _ _ (becomeFollowerLocked_spec h resp.term unknownLeader) ?_ fun _ hd => hd
      exact fun _ _ _ hr => hend hr.2.1
    all_goals
      obtain ⟨hterm', hnew⟩ := not_or.mp hfirst
      obtain rfl := not_not.mp hterm'
      have haw : r.peer.Awaits e peer e.term := ⟨he, rfl, hnew⟩
      obtain ⟨hcand, hcur⟩ := not_or.mp hrole
      rw [not_not] at hcand hcur
    · rw [← hcur] at h haw ⊢
      exact becomeLeaderLocked_spec h haw hcand ⟨hgranted.2, hgranted.1.trans hcur.symm⟩ hmaj
    · refine ⟨h.running.relabel rfl rfl rfl rfl rfl rfl, h.steps.tail ?_⟩
      have := @Peer.Step.count _ env r.peer peer e.term resp e haw
      rwa [if_pos hgranted] at this
    · refine ⟨h.running.relabel rfl rfl rfl rfl rfl rfl, h.steps.tail ?_⟩
      have := @Peer.Step.count _ env r.peer peer e.term resp e haw
      rwa [if_neg hnot] at this

theorem voteInTerm_spec {req : RequestVoteRequest}
    (h : Reaches M tidy (.voteRequest req) p r d) (hterm : r.currentTerm = req.term) :
    wp Atomic (Survives M (.voteRequest req) p) (voteInTerm req)
      (fun resp r' d' => Reaches M tidy (.voteRequest req) p r' d' ∧
        (resp.voteGranted = true → r'.currentTerm = req.term ∧ resp.term = req.term ∧
          r'.votedFor = req.candidateID)) r d := by
  simp only [voteInTerm, saveStableLocked, saveStableValuesLocked, wp_bind, wp_read, wp_ite,
    wp_pure]
  refine ⟨fun _ => ⟨h, by simp⟩, fun hfree => ⟨fun _ => ⟨h, by simp⟩, fun hup => ⟨fun hnew => ?_,
    fun hold => ⟨h, fun _ => ⟨hterm, hterm, not_not.mp hold⟩⟩⟩⟩⟩
  rcases Int.lt_or_le req.candidateID noVote with hlt | hid
  · refine wp_replace_error (if_pos hlt) ?_
    simp only [wp_pure]
    exact ⟨h, by simp⟩
  let r' : Raft σ := { r with votedFor := req.candidateID }
  have hs : r.SameLog r' := ⟨rfl, rfl, rfl, rfl, rfl, rfl, rfl⟩
  have hfree' : r.votedFor = noVote ∨ r.votedFor = req.candidateID := by
    by_contra hcon
    exact hfree (not_or.mp hcon)
  rw [Bool.not_eq_false, h.running.candidateLogIsUpToDateLocked_iff] at hup
  have h' : Reaches M tidy (.voteRequest req) p r' { d with stable := r'.stable } :=
    ⟨h.running.of_sameLog hs hid,
      h.steps.tail (.vote _ req hterm hfree' hup)⟩
  refine h.wp_saveStable h' ?_
  simp only [wp_bind, wp_modify, wp_pure]
  exact ⟨h', fun _ => ⟨hterm, hterm, trivial⟩⟩

theorem handleRequestVote_spec {req : RequestVoteRequest}
    (h : Reaches M tidy (.voteRequest req) p r d) :
    wp Atomic (Survives M (.voteRequest req) p) (handleRequestVote req)
      (fun resp r' d' => Reaches M tidy (.voteRequest req) p r' d' ∧
        (resp.voteGranted = true → r'.currentTerm = req.term ∧ resp.term = req.term ∧
          r'.votedFor = req.candidateID)) r d := by
  simp only [handleRequestVote, wp_bind, wp_read, wp_ite, wp_pure]
  refine ⟨fun _ => ⟨h, by simp⟩, fun hge => ⟨fun hgt => ?_, fun hle => ?_⟩⟩
  · refine wp_mono _ _ _ (becomeFollowerLocked_spec h req.term unknownLeader) ?_ fun _ hd => hd
    rintro _ r' d' ⟨rfl, hr, -, ht⟩
    exact voteInTerm_spec hr (ht hgt.le).1
  · exact voteInTerm_spec h (by omega)

end DistributedKv
