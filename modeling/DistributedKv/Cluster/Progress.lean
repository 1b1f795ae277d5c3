import DistributedKv.Cluster.Converge
import DistributedKv.Cluster.Leader

/-!
What a leader knows of its followers. A successful AppendEntries only ever
raises a match index, and a snapshot's response assigns it. The assignment is a
step forward as long as the next index of the peer is above its match index;
backing up after a refusal can break this order, because a follower also refuses
a prefix that it has compacted away.
-/

namespace DistributedKv

open Crash Prog

variable {σ : Type} {env : Env σ} {i : Input} {r r' : Raft σ} {d d' : Disk}

/-- A response to what the leader's cursors call for: a refusal leaves the next
index above the match index, and a snapshot's boundary is not below the next
index. -/
def Raft.Expects (r : Raft σ) : Input → Prop
  | .appendResponse peer req resp => r.state = .leader → req.term = r.currentTerm →
      resp.term = r.currentTerm → resp.success = false → 1 < (r.nextIndex peer).getD 0 →
      (r.matchIndex peer).getD 0 + 1 < (r.nextIndex peer).getD 0
  | .installResponse peer req resp => r.state = .leader → req.term = r.currentTerm →
      resp.term = r.currentTerm → (r.nextIndex peer).getD 0 ≤ req.lastIncludedIndex
  | _ => True

/-- A leader tries to send each peer more than the peer is known to have. -/
def Raft.Spaced (r : Raft σ) : Prop :=
  r.state = .leader → ∀ p, (r.matchIndex p).getD 0 < max 1 ((r.nextIndex p).getD 0)

/-- The match indexes have not moved back. -/
def Raft.MatchesGrow (r r' : Raft σ) : Prop :=
  ∀ p, (r.matchIndex p).getD 0 ≤ (r'.matchIndex p).getD 0

/-! ## The two responses -/

section Cursors

variable (r : Raft σ) (peer : Int) (value : Nat)

theorem Raft.recordMatch_of_ne {p : Int} (hne : p ≠ peer) :
    (r.recordMatch peer value).matchIndex p = r.matchIndex p ∧
      (r.recordMatch peer value).nextIndex p = r.nextIndex p := by
  have hother (m : Int → Option Nat) (v : Nat) (c : Prop) [Decidable c] :
      (if c then setAt m peer v else m) p = m p := by
    split
    · exact setAt_of_ne _ _ _ hne
    · rfl
  exact ⟨hother _ _ _, hother _ _ _⟩

theorem Raft.recordMatch_match :
    ((r.recordMatch peer value).matchIndex peer).getD 0 =
      max ((r.matchIndex peer).getD 0) value := by
  simp only [Raft.recordMatch]
  split
  · rw [setAt_self, Option.getD_some]
    omega
  · omega

theorem Raft.recordMatch_next :
    ((r.recordMatch peer value).nextIndex peer).getD 0 =
      max ((r.nextIndex peer).getD 0) (max ((r.matchIndex peer).getD 0) value + 1) := by
  have hmatch : (if value > (r.matchIndex peer).getD 0 then value else (r.matchIndex peer).getD 0) =
      max ((r.matchIndex peer).getD 0) value := by
    split <;> omega
  simp only [Raft.recordMatch, hmatch]
  split
  · rw [setAt_self, Option.getD_some]
    omega
  · omega

theorem Raft.recordMatch_grows : r.MatchesGrow (r.recordMatch peer value) := by
  intro p
  by_cases hpeer : p = peer
  · rw [hpeer, r.recordMatch_match]
    exact Nat.le_max_left _ _
  · rw [(r.recordMatch_of_ne peer value hpeer).1]

theorem Raft.Spaced.recordMatch {r : Raft σ} (h : r.Spaced) :
    (r.recordMatch peer value).Spaced := by
  intro hl p
  by_cases hpeer : p = peer
  · rw [hpeer, r.recordMatch_match, r.recordMatch_next]
    omega
  · obtain ⟨hmatch, hnext⟩ := r.recordMatch_of_ne peer value hpeer
    rw [hmatch, hnext]
    exact h hl p

end Cursors

theorem Raft.MatchesGrow.refl (r : Raft σ) : r.MatchesGrow r := fun _ => Nat.le_refl _

/-- A step down, or nothing. -/
theorem becomeFollowerLocked_progress {term : Nat} (hterm : r.currentTerm < term) (leaderID : Int)
    (h : r.Spaced) :
    wp Any (fun _ => True) (becomeFollowerLocked term leaderID)
      (fun _ r' _ => r'.Spaced ∧ r.MatchesGrow r') r d := by
  refine wp_mono _ _ _ (becomeFollowerLocked_cases hterm leaderID) ?_ fun _ hd => hd
  rintro _ r' _ (⟨-, rfl⟩ | ⟨-, rfl⟩)
  · exact ⟨h, .refl r'⟩
  · exact ⟨fun hl => (by cases hl), .refl r⟩

theorem advanceCommitIndexLocked_progress (h : r.Spaced) :
    wp Any (fun _ => True) (advanceCommitIndexLocked env)
      (fun _ r' _ => r'.Spaced ∧ r.MatchesGrow r') r d := by
  simp only [advanceCommitIndexLocked, saveStableValuesLocked, wp_bind, wp_read]
  cases r.commitCandidate env r.lastLogIndexLocked with
  | none => exact ⟨h, .refl r⟩
  | some index =>
    simp only [wp_bind]
    refine wp_store_of_keeps trivial (fun _ _ => trivial) (fun _ => trivial) fun res d' _ => ?_
    cases res with
    | error err => exact ⟨h, .refl r⟩
    | ok u => exact ⟨h, .refl r⟩

theorem handleAppendEntriesResponse_progress {peer : Int} {req : AppendEntriesRequest}
    {resp : AppendEntriesResponse} (h : r.Spaced)
    (hexp : r.Expects (.appendResponse peer req resp)) :
    wp Any (fun _ => True) (handleAppendEntriesResponse env peer req resp)
      (fun _ r' _ => r'.Spaced ∧ r.MatchesGrow r') r d := by
  simp only [handleAppendEntriesResponse, wp_bind, wp_read, wp_ite, wp_pure, wp_modify]
  refine ⟨fun hterm => becomeFollowerLocked_progress hterm unknownLeader h,
    fun _ => ⟨fun _ => ⟨h, .refl r⟩, fun hlead => ?_⟩⟩
  simp only [not_or, not_not] at hlead
  obtain ⟨hl, hreq, hresp⟩ := hlead
  refine ⟨fun hno => ⟨fun _ => ⟨h, .refl r⟩, fun hnext => ⟨fun _ p => ?_, .refl r⟩⟩, fun _ => ?_⟩
  · -- the refusal concerns a prefix above the match index
    have hgap := hexp hl hreq hresp hno (Nat.lt_of_not_le hnext)
    change (r.matchIndex p).getD 0 < max 1 ((setAt r.nextIndex peer _ p).getD 0)
    by_cases hpeer : p = peer
    · rw [hpeer, setAt_self, Option.getD_some]
      omega
    · rw [setAt_of_ne _ _ _ hpeer]
      exact h hl p
  · refine wp_mono _ _ _ (advanceCommitIndexLocked_progress (h.recordMatch _ _)) ?_ fun _ hd => hd
    rintro _ r' _ ⟨hs, hgrow⟩
    exact ⟨hs, fun p => (r.recordMatch_grows _ _ p).trans (hgrow p)⟩

theorem handleInstallSnapshotResponse_progress {peer : Int} {req : InstallSnapshotRequest}
    {resp : InstallSnapshotResponse} (h : r.Spaced)
    (hexp : r.Expects (.installResponse peer req resp)) :
    wp Any (fun _ => True) (handleInstallSnapshotResponse peer req resp)
      (fun _ r' _ => r'.Spaced ∧ r.MatchesGrow r') r d := by
  simp only [handleInstallSnapshotResponse, wp_bind, wp_read, wp_ite, wp_pure, wp_modify]
  refine ⟨fun hterm => becomeFollowerLocked_progress hterm unknownLeader h,
    fun _ => ⟨fun _ => ⟨h, .refl r⟩, fun hlead => ?_⟩⟩
  simp only [not_or, not_not] at hlead
  obtain ⟨hl, hreq, hresp⟩ := hlead
  have hle := hexp hl hreq hresp
  have hpeer := h hl peer
  refine ⟨fun _ p => ?_, fun p => ?_⟩
  · change (setAt r.matchIndex peer _ p).getD 0 < max 1 ((setAt r.nextIndex peer _ p).getD 0)
    by_cases heq : p = peer
    · rw [heq, setAt_self, setAt_self, Option.getD_some, Option.getD_some]
      omega
    · rw [setAt_of_ne _ _ _ heq, setAt_of_ne _ _ _ heq]
      exact h hl p
  · change _ ≤ (setAt r.matchIndex peer _ p).getD 0
    by_cases heq : p = peer
    · rw [heq, setAt_self, Option.getD_some]
      omega
    · rw [setAt_of_ne _ _ _ heq]

/-! ## Any other input -/

theorem Effects.spaced (hi : ¬ i.IsReply) (he : Effects env r i r') (h : r.Spaced) :
    r'.Spaced := by
  induction he with
  | refl => exact h
  | @tail b _ _ he ih =>
    cases he with
    | raise => exact nofun
    | follow => exact nofun
    | stand => exact nofun
    | lead =>
      intro _ p
      simp only [Raft.led]
      split <;> simp
    | backUp => exact (hi trivial).elim
    | recordAppend => exact (hi trivial).elim
    | recordInstall => exact (hi trivial).elim
    | checkpoint _ entry =>
      obtain ⟨_, _, -, -, heq⟩ := b.checkpointed_eq entry
      rw [heq]
      exact ih
    | stop _ err =>
      obtain ⟨_, _, _, -, -, heq⟩ := b.stopped_eq err
      rw [heq]
      exact ih
    | _ => exact ih

theorem react_progress (hmaj : env.majority ≠ 1) (ha : Ahead r d.stable) {answers : List Outcome}
    {out : Output} (hrun : (react env i).run answers r d = .done out r' d') (h : r.Spaced)
    (hexp : r.Expects i) : r'.Spaced ∧ (i.IsReply → r.MatchesGrow r') := by
  by_cases hi : i.IsReply
  · have hwp : wp Any (fun _ => True) (react env i) (fun _ r' _ => r'.Spaced ∧ r.MatchesGrow r')
        r d := by
      cases i with
      | appendResponse peer req resp =>
        simp only [react, wp_bind, wp_pure]
        exact handleAppendEntriesResponse_progress h hexp
      | installResponse peer req resp =>
        simp only [react, wp_bind, wp_pure]
        exact handleInstallSnapshotResponse_progress h hexp
      | _ => exact hi.elim
    have := wp_run _ _ answers r d (fun _ _ => trivial) hwp
    rw [hrun] at this
    exact ⟨this.1, fun _ => this.2⟩
  · exact ⟨(effects_of_done hmaj ha hrun).1.spaced hi h, fun hcon => absurd hcon hi⟩

/-! ## Runs -/

namespace Cluster

variable {C : Cluster σ} {actions : List Action} {n : Int}

/-- The node that takes the step expects its input. -/
def Expects (w : World σ) : Action → Prop
  | .step n i _ => ∀ r d, w.nodes n = .up r d → r.Expects i
  | _ => True

/-- Every response that a node gets in the run is one it expects. -/
def Expected (C : Cluster σ) (actions : List Action) : Prop :=
  ∀ k act, actions[k]? = some act → Expects (C.run (actions.take k)) act

theorem spaced_perform {w : World σ} {act : Action} (hb : C.Ballots w)
    (h : ∀ n r d, w.nodes n = .up r d → r.Spaced)
    (hexp : Expects w act) {r : Raft σ} {d : Disk} (hup : (C.perform w act).nodes n = .up r d) :
    r.Spaced := by
  rcases perform_up hup with hold | ⟨i, answers, r₀, d₀, out, rfl, hup₀, hn, hav, hrun⟩ |
    ⟨answers, d₀, st, rfl, -, -, hstart⟩
  · exact h n r d hold
  · have hp := hb.process n
    rw [hup₀] at hp
    exact (react_progress (majority_ne_one hn) hp.2.2 hrun (h n r₀ d₀ hup₀) (hexp r₀ d₀ hup₀)).1
  · obtain ⟨-, hfresh, -⟩ := (start_done hstart).2 r rfl
    intro hl
    rw [hfresh.state] at hl
    cases hl

theorem spaced_run (hexp : C.Expected actions) {r : Raft σ} {d : Disk}
    (hup : (C.run actions).nodes n = .up r d) : r.Spaced := by
  let inv (w : World σ) : Prop := C.Ballots w ∧ ∀ n r d, w.nodes n = .up r d → r.Spaced
  have hfirst : inv .initial := ⟨.initial, fun n r d hup => by cases hup⟩
  have hstep : ∀ w act, inv w → Expects w act → inv (C.perform w act) :=
    fun w act h hact => ⟨h.1.perform act, fun n r d => spaced_perform h.1 h.2 hact⟩
  exact (Run.invariant hstep hfirst actions hexp).2 n r d hup

theorem Expected.take (h : C.Expected actions) (k : Nat) : C.Expected (actions.take k) := by
  intro j act hj
  have hlt : j < k := by
    have := (List.getElem?_eq_some_iff.mp hj).1
    rw [List.length_take] at this
    omega
  rw [List.getElem?_take_of_lt hlt] at hj
  rw [List.take_take, Nat.min_eq_left hlt.le]
  exact h j act hj

/-- In every run whose responses are all expected, handling a response to an
AppendEntries or InstallSnapshot request leaves every match index at least as
large as it was. -/
theorem matchIndex_grows (hexp : C.Expected actions) {k : Nat} {answers : List Outcome}
    (hact : actions[k]? = some (.step n i answers)) (hi : i.IsReply)
    (hup : (C.run (actions.take k)).nodes n = .up r d)
    (hup' : (C.run (actions.take (k + 1))).nodes n = .up r' d') (p : Int) :
    (r.matchIndex p).getD 0 ≤ (r'.matchIndex p).getD 0 := by
  have hs := spaced_run (hexp.take k) hup
  rw [C.run_take_succ hact] at hup'
  rcases perform_up hup' with hold | ⟨i', answers', r₀, d₀, out, heq, hup₀, hn, -, hrun⟩ |
    ⟨_, _, _, hcon, -⟩
  · obtain ⟨rfl, -⟩ := Process.up.inj (hup.symm.trans hold)
    exact Nat.le_refl _
  · obtain ⟨-, rfl, rfl⟩ := Action.step.inj heq
    obtain ⟨rfl, rfl⟩ := Process.up.inj (hup.symm.trans hup₀)
    exact (react_progress (majority_ne_one hn) (up_ballot hup).2 hrun hs (hexp k _ hact r d hup)).2 hi p
  · cases hcon

/-- Node 1 brings node 2 up with a snapshot and one entry. -/
def caughtUpRun : List Action :=
  let set : LogEntry := ⟨2, 1, .set, [97], [98]⟩
  let probe : AppendEntriesRequest := ⟨1, 1, 1, 1, [], 1⟩
  let image : InstallSnapshotRequest := ⟨1, 1, 1, 1, [1], [noopEntry 1 1]⟩
  let entries : AppendEntriesRequest := ⟨1, 1, 1, 1, [set], 1⟩
  laggingRun ++ [.step 1 (.sendAppend 2) [], .step 2 (.appendRequest probe) [],
    .step 1 (.appendResponse 2 probe ⟨1, false⟩) [],
    .step 1 (.sendInstall 2) [], .step 2 (.installRequest image) [],
    .step 1 (.installResponse 2 image ⟨1⟩) [],
    .step 1 (.propose ⟨.set, [97], [98]⟩) [],
    .step 1 (.sendAppend 2) [], .step 2 (.appendRequest entries) [],
    .step 1 (.appendResponse 2 entries ⟨1, true⟩) []]

theorem caughtUpRun_expected : (localCluster 1).Expected caughtUpRun := by
  have quiet {w : World (MemoryStore 8)} {n : Int} {i : Input} (hi : ¬ i.IsReply) :
      ∀ r d, w.nodes n = .up r d → r.Expects i := by
    intro r d _
    cases i with
    | appendResponse | installResponse => exact absurd trivial hi
    | _ => trivial
  refine Run.Each.getElem? ⟨trivial, trivial, trivial, quiet id, quiet id, quiet id, quiet id,
    quiet id, ?_, quiet id, quiet id, ?_, quiet id, quiet id, quiet id, quiet id, quiet id,
    quiet id, quiet id, quiet id, ?_, quiet id, quiet id, ?_, quiet id, quiet id, quiet id, ?_,
    trivial⟩
  · rintro _ _ ⟨⟩ _ _ _ _ _
    decide
  · rintro _ _ ⟨⟩ _ _ _ ⟨⟩
  · rintro _ _ ⟨⟩ _ _ _ _ _
    decide
  · rintro _ _ ⟨⟩ _ _ _
    decide
  · rintro _ _ ⟨⟩ _ _ _ ⟨⟩

theorem matchIndex_grows_caughtUpRun :
    ∃ r d r' d', ((localCluster 1).run (caughtUpRun.take 27)).nodes 1 = .up r d ∧
      ((localCluster 1).run (caughtUpRun.take 28)).nodes 1 = .up r' d' ∧
      (r.matchIndex 2).getD 0 ≤ (r'.matchIndex 2).getD 0 :=
  ⟨_, _, _, _, rfl, rfl, matchIndex_grows (k := 27) caughtUpRun_expected rfl trivial rfl rfl 2⟩

/-- Node 2 takes a third entry and compacts it with the others, while its
answers are lost; it then refuses the earlier prefixes that node 1 tries, and is
sent the snapshot of index 1 again. -/
def loweredRun : List Action :=
  let set : LogEntry := ⟨2, 1, .set, [97], [98]⟩
  let last : LogEntry := ⟨3, 1, .set, [97], [99]⟩
  let image : InstallSnapshotRequest := ⟨1, 1, 1, 1, [1], [noopEntry 1 1]⟩
  let entries : AppendEntriesRequest := ⟨1, 1, 2, 1, [last], 2⟩
  let others : AppendEntriesRequest := ⟨1, 1, 1, 1, [set, last], 2⟩
  let commit : AppendEntriesRequest := ⟨1, 1, 2, 1, [last], 3⟩
  let earlier : AppendEntriesRequest := ⟨1, 1, 1, 1, [set, last], 3⟩
  caughtUpRun ++ [.step 1 (.propose ⟨.set, [97], [99]⟩) [],
    .step 1 (.sendAppend 2) [], .step 2 (.appendRequest entries) [],
    .step 1 (.sendAppend 3) [], .step 3 (.appendRequest others) [],
    .step 1 (.appendResponse 3 others ⟨1, true⟩) [],
    .step 1 (.sendAppend 2) [], .step 2 (.appendRequest commit) [],
    .step 2 .applySelect [], .step 2 .applyEntry [], .step 2 .applyCheckpoint [],
    .step 2 .applySelect [], .step 2 .applyEntry [], .step 2 .applyCheckpoint [],
    .step 2 .snapshotBegin [], .step 2 .snapshotSave [], .step 2 .snapshotPublish [],
    .step 1 (.sendAppend 2) [], .step 2 (.appendRequest commit) [],
    .step 1 (.appendResponse 2 commit ⟨1, false⟩) [],
    .step 1 (.sendAppend 2) [], .step 2 (.appendRequest earlier) [],
    .step 1 (.appendResponse 2 earlier ⟨1, false⟩) [],
    .step 1 (.sendInstall 2) [], .step 2 (.installRequest image) []]

/-- The response to that snapshot takes node 1's match index of node 2 from two
back to one. -/
theorem loweredRun_lowers :
    ∃ r d r' d', ((localCluster 1).run loweredRun).nodes 1 = .up r d ∧
      ((localCluster 1).run (loweredRun ++
        [.step 1 (.installResponse 2 ⟨1, 1, 1, 1, [1], [noopEntry 1 1]⟩ ⟨1⟩) []])).nodes 1 =
          .up r' d' ∧
      r.state = .leader ∧ r'.state = .leader ∧ r'.currentTerm = r.currentTerm ∧
      r.matchIndex 2 = some 2 ∧ r'.matchIndex 2 = some 1 :=
  ⟨_, _, _, _, rfl, rfl, rfl, rfl, rfl, rfl, rfl⟩

end Cluster

end DistributedKv
