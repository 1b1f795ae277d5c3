import DistributedKv.Cluster.Refinement
import DistributedKv.Raft.Leading

/-!
The cursors of a leader. In every run a leader has both cursors for each of its
peers, and the next index it would send is positive and at most one past the end
of its log. An acknowledgement never exceeds the log of its term, which is the
leader's own, so recording one keeps the bound; backing up stops at one.
-/

namespace DistributedKv

open Crash Prog
open Consensus (Inv)

variable {σ : Type} {env : Env σ} {i : Input} {r r' : Raft σ} {d d' : Disk}

/-- While it leads, a node has two cursors for each peer. -/
def Raft.CursorsOk (env : Env σ) (r : Raft σ) : Prop :=
  r.state = .leader → ∀ p ∈ env.peers, ∃ next m, r.nextIndex p = some next ∧
    r.matchIndex p = some m ∧ 1 ≤ next ∧ next ≤ r.history.length + 1

namespace Raft.CursorsOk

/-- A step after which a leader is one that led before, with the same cursors. -/
theorem keep (h : r.CursorsOk env) (hs : r'.state = .leader → r.state = .leader)
    (hl : r'.state = .leader → r.history.length ≤ r'.history.length)
    (hn : r'.nextIndex = r.nextIndex) (hm : r'.matchIndex = r.matchIndex) : r'.CursorsOk env := by
  intro hlead p hp
  obtain ⟨next, m, hnext, hmatch, hpos, hle⟩ := h (hs hlead) p hp
  have := hl hlead
  exact ⟨next, m, by rw [hn, hnext], by rw [hm, hmatch], hpos, by omega⟩

theorem follower (h : r.state ≠ .leader) : r.CursorsOk env := fun hl => absurd hl h

/-- Cursors move to places within the bounds. -/
theorem move (h : r.CursorsOk env) (hl : r.state = .leader) (hh : r'.history = r.history)
    (hn : ∀ p ∈ env.peers, r'.nextIndex p = r.nextIndex p ∨
      ∃ next, r'.nextIndex p = some next ∧ 1 ≤ next ∧ next ≤ r.history.length + 1)
    (hm : ∀ p, r'.matchIndex p = r.matchIndex p ∨ ∃ m, r'.matchIndex p = some m) :
    r'.CursorsOk env := by
  intro _ p hp
  obtain ⟨next, m, hnext, hmatch, hb⟩ := h hl p hp
  have hm' : ∃ m', r'.matchIndex p = some m' := (hm p).elim (fun heq => ⟨m, heq.trans hmatch⟩) id
  obtain ⟨m', hm'⟩ := hm'
  rw [hh]
  rcases hn p hp with heq | ⟨next', hnext', hb'⟩
  · exact ⟨next, m', heq.trans hnext, hm', hb⟩
  · exact ⟨next', m', hnext', hm', hb'⟩

end Raft.CursorsOk

/-! ## The three responses -/

theorem receiveVote_cursors (hshape : r.Shape) (h : r.CursorsOk env) (peer : Int) (term : Nat)
    (resp : RequestVoteResponse) :
    wp Any (fun _ => True) (receiveVote env peer term resp) (fun _ r' _ => r'.CursorsOk env) r d := by
  have hend : ∀ {r' : Raft σ}, r'.CursorsOk env → Raft.CursorsOk env { r' with election := none } :=
    fun h => h
  simp only [receiveVote, wp_bind, wp_read]
  cases r.election with
  | none => exact h
  | some e =>
    simp only [wp_bind, wp_ite, wp_pure, wp_modify]
    refine ⟨fun _ => h, fun _ => ⟨fun hterm => ?_, fun _ => ⟨fun _ => h, fun _ =>
      ⟨fun _ => ⟨fun _ => ?_, fun _ => h⟩, fun _ => h⟩⟩⟩⟩
    · refine wp_mono _ _ _ (becomeFollowerLocked_cases hterm unknownLeader) ?_ fun _ hd => hd
      rintro _ r' _ (⟨-, rfl⟩ | ⟨-, rfl⟩)
      · exact h
      · exact .follower (fun hl => by cases hl)
    · simp only [becomeLeaderLocked, wp_bind, wp_read, hshape.lastLogInfoLocked_eq]
      refine wp_store_of_keeps trivial (fun _ _ => trivial) (fun _ => trivial) fun res d' _ => ?_
      cases res with
      | error err => exact h
      | ok u =>
        simp only [wp_bind, wp_modify, wp_pure]
        intro _ p hp
        refine ⟨r.history.length + 1 + 1, 0, if_pos hp, if_pos hp, by omega, ?_⟩
        simp only [Raft.history, List.length_append, List.length_cons, List.length_nil]
        omega

theorem advanceCommitIndexLocked_cursors (h : r.CursorsOk env) :
    wp Any (fun _ => True) (advanceCommitIndexLocked env) (fun _ r' _ => r'.CursorsOk env) r d := by
  simp only [advanceCommitIndexLocked, saveStableValuesLocked, wp_bind, wp_read]
  cases r.commitCandidate env r.lastLogIndexLocked with
  | none => exact h
  | some index =>
    simp only [wp_bind]
    refine wp_store_of_keeps trivial (fun _ _ => trivial) (fun _ => trivial) fun res d' _ => ?_
    cases res with
    | error err => exact h
    | ok u => exact h

/-- What a leader takes from a response lies within its log. -/
theorem Raft.CursorsOk.recordMatch (h : r.CursorsOk env) (hl : r.state = .leader) {peer : Int}
    {matched : Nat} (hle : matched ≤ r.history.length)
    (hold : ∀ m, r.matchIndex peer = some m → m ≤ r.history.length) :
    (r.recordMatch peer matched).CursorsOk env := by
  have hold' : (r.matchIndex peer).getD 0 ≤ r.history.length := by
    cases hp : r.matchIndex peer with
    | none => exact Nat.zero_le _
    | some m => exact hold m hp
  refine h.move hl rfl (fun p _ => ?_) fun p => ?_
  · simp only [Raft.recordMatch]
    generalize hnew : (if matched > (r.matchIndex peer).getD 0 then matched
      else (r.matchIndex peer).getD 0) = newMatch
    have hbound : newMatch ≤ r.history.length := by
      rw [← hnew]
      split <;> assumption
    split
    · exact (setAt_cases _ _ _ p).imp_right fun heq => ⟨_, heq.2, by omega, by omega⟩
    · exact .inl rfl
  · simp only [Raft.recordMatch]
    split
    · exact (setAt_cases _ _ _ p).imp_right fun heq => ⟨_, heq.2⟩
    · exact .inl rfl

/-- Every match the leader has recorded lies within its log. -/
def Raft.MatchesOk (r : Raft σ) : Prop :=
  r.state = .leader → ∀ p m, r.matchIndex p = some m → m ≤ r.history.length

theorem handleAppendEntriesResponse_cursors (h : r.CursorsOk env) (hm : r.MatchesOk) {peer : Int}
    {req : AppendEntriesRequest} {resp : AppendEntriesResponse}
    (hack : r.state = .leader → req.term = r.currentTerm → resp.success = true →
      req.prevLogIndex + req.entries.length ≤ r.history.length) :
    wp Any (fun _ => True) (handleAppendEntriesResponse env peer req resp)
      (fun _ r' _ => r'.CursorsOk env) r d := by
  simp only [handleAppendEntriesResponse, wp_bind, wp_read, wp_ite, wp_pure, wp_modify]
  refine ⟨fun hterm => ?_, fun _ => ⟨fun _ => h, fun hlead => ?_⟩⟩
  · refine wp_mono _ _ _ (becomeFollowerLocked_cases hterm unknownLeader) ?_ fun _ hd => hd
    rintro _ r' _ (⟨-, rfl⟩ | ⟨-, rfl⟩)
    · exact h
    · exact .follower (fun hl => by cases hl)
  simp only [not_or, not_not] at hlead
  obtain ⟨hl, hreq, -⟩ := hlead
  refine ⟨fun _ => ⟨fun _ => h, fun hnext => ?_⟩, fun hok => ?_⟩
  · refine h.move hl rfl (fun p hp => (setAt_cases _ _ _ p).imp_right ?_) fun p => .inl rfl
    rintro ⟨rfl, heq⟩
    obtain ⟨next, m, hp', -, -, hle⟩ := h hl p hp
    rw [hp', Option.getD_some] at hnext
    refine ⟨_, heq, ?_, ?_⟩ <;> · rw [hp', Option.getD_some]; omega
  · exact advanceCommitIndexLocked_cursors
      (h.recordMatch hl (hack hl hreq (by simpa using hok)) (hm hl peer))

theorem handleInstallSnapshotResponse_cursors (h : r.CursorsOk env) {peer : Int}
    {req : InstallSnapshotRequest} {resp : InstallSnapshotResponse}
    (hack : r.state = .leader → req.term = r.currentTerm → resp.term = req.term →
      req.lastIncludedIndex ≤ r.history.length) :
    wp Any (fun _ => True) (handleInstallSnapshotResponse peer req resp)
      (fun _ r' _ => r'.CursorsOk env) r d := by
  simp only [handleInstallSnapshotResponse, wp_bind, wp_read, wp_ite, wp_pure, wp_modify]
  refine ⟨fun hterm => ?_, fun _ => ⟨fun _ => h, fun hlead => ?_⟩⟩
  · refine wp_mono _ _ _ (becomeFollowerLocked_cases hterm unknownLeader) ?_ fun _ hd => hd
    rintro _ r' _ (⟨-, rfl⟩ | ⟨-, rfl⟩)
    · exact h
    · exact .follower (fun hl => by cases hl)
  simp only [not_or, not_not] at hlead
  obtain ⟨hl, hreq, hresp⟩ := hlead
  have := hack hl hreq (hresp.trans hreq.symm)
  refine h.move hl rfl (fun p _ => ?_) fun p => ?_
  · exact (setAt_cases _ _ _ p).imp_right fun heq => ⟨_, heq.2, by omega, by omega⟩
  · exact (setAt_cases _ _ _ p).imp_right fun heq => ⟨_, heq.2⟩

/-! ## Any other input -/

/-- Only responses move cursors or make a leader. -/
def Input.IsResponse : Input → Prop
  | .voteResponse _ _ _ => True
  | .appendResponse _ _ _ => True
  | .installResponse _ _ _ => True
  | _ => False

theorem Effects.cursors (hi : ¬ i.IsResponse) (he : Effects env r i r') :
    (r'.state = .leader → r.state = .leader) ∧ r'.nextIndex = r.nextIndex ∧
      r'.matchIndex = r.matchIndex := by
  induction he with
  | refl => exact ⟨id, rfl, rfl⟩
  | @tail b _ _ he ih =>
    cases he with
    | raise => exact ⟨nofun, ih.2⟩
    | follow => exact ⟨nofun, ih.2⟩
    | stand => exact ⟨nofun, ih.2⟩
    | count => exact (hi trivial).elim
    | retire => exact (hi trivial).elim
    | lead => exact (hi trivial).elim
    | backUp => exact (hi trivial).elim
    | recordAppend => exact (hi trivial).elim
    | advance => exact (hi trivial).elim
    | recordInstall => exact (hi trivial).elim
    | checkpoint _ entry =>
      obtain ⟨_, _, -, -, heq⟩ := b.checkpointed_eq entry
      rw [heq]
      exact ih
    | stop _ err =>
      obtain ⟨_, _, _, -, -, heq⟩ := b.stopped_eq err
      rw [heq]
      exact ih
    | _ => exact ih

/-- A leader that keeps leading only appends. -/
theorem Peer.Steps.length_le {p p' : Peer} (hi : ¬ i.IsResponse) (hs : p.Steps env i p')
    (hl : p'.role = .leader) : p.history.length ≤ p'.history.length := by
  induction hs with
  | refl => exact le_rfl
  | tail _ hstep ih =>
    cases hstep with
    | raise => cases hl
    | follow => cases hl
    | crash => cases hl
    | stand => cases hl
    | win => exact (hi trivial).elim
    | truncate _ req m x e ht hf =>
      rw [show _ = State.leader from hl] at hf
      cases hf
    | append _ req m k ht hf =>
      rw [show _ = State.leader from hl] at hf
      cases hf
    | install _ req ht hf =>
      rw [show _ = State.leader from hl] at hf
      cases hf
    | propose => exact (ih hl).trans (by simp)
    | _ => exact ih hl

/-! ## Runs -/

namespace Cluster

variable {C : Cluster σ} {a : History} {w : World σ} {n : Int} {p : Peer}

/-- Nobody has acknowledged more than the leader has. -/
theorem PeerSim.ack_le_length (hi : Inv C.protocol a) (h : PeerSim a n p) (hl : p.role = .leader)
    (q : Int) : a.ack q p.term ≤ p.history.length := by
  rw [(h.own_log hi hl).1]
  exact hi.ack_le q _

theorem Sim.matchesOk (h : C.Sim w a) (hup : w.nodes n = .up r d) : r.MatchesOk := by
  obtain ⟨-, -, hpeer⟩ := h.up hup
  intro hl p m hm
  exact (hpeer.matched hl p m hm).trans (hpeer.ack_le_length h.inv hl p)

theorem Sim.cursors {F : C.machine.Freight} (hrest : F.Restores) (hw : Carries F w)
    (h : C.Sim w a) (hup : w.nodes n = .up r d) (hav : i.available w.net n = true) {answers : List Outcome} (hans : ∀ o ∈ answers, Atomic o)
    (hc : r.CursorsOk (C.env n)) {out : Output}
    (hstep : (react (C.env n) i).run answers r d = .done out r' d') : r'.CursorsOk (C.env n) := by
  obtain ⟨hn, hrun, hpeer⟩ := h.up hup
  have hin := h.input hav
  have hack := hpeer.ack_le_length h.inv
  -- a response is read off the handler, anything else off the effects of the step
  have hany : ∀ o ∈ answers, Any o := fun _ _ => trivial
  by_cases hi : i.IsResponse
  · cases i with
    | voteResponse peer term resp =>
      exact silent_done hstep rfl hany (receiveVote_cursors hrun.toShape hc _ _ _)
    | appendResponse peer req resp =>
      refine silent_done hstep rfl hany (handleAppendEntriesResponse_cursors hc (h.matchesOk hup) ?_)
      intro hl hterm hok
      have : req.prevLogIndex + req.entries.length ≤ a.ack peer req.term := hin _ rfl hok
      exact this.trans (hterm ▸ hack hl peer)
    | installResponse peer req resp =>
      refine silent_done hstep rfl hany (handleInstallSnapshotResponse_cursors hc ?_)
      intro hl hterm hok
      have : req.lastIncludedIndex ≤ a.ack peer req.term := hin _ rfl hok
      exact this.trans (hterm ▸ hack hl peer)
    | _ => exact hi.elim
  · have hahead : Ahead r d.stable := by
      rw [hrun.disk_stable]
      exact .inr ⟨rfl, .inr rfl⟩
    obtain ⟨hs, hnext, hmatch⟩ := (effects_of_done (majority_ne_one hn) hahead hstep).1.cursors hi
    have hok := h.inputOk hrest hw hup hav
    have hsteps := (react_done (cfg_ok hn) hrun hok hans hstep).1.steps
    exact hc.keep hs (hsteps.length_le hi) hnext hmatch

/-- The cursors of a leader in every run. -/
theorem Restoring.cursors_ok {F : C.machine.Freight} {actions : List Action}
    (h : Restoring F actions) {r : Raft σ} {d : Disk} (hup : (C.run actions).nodes n = .up r d) :
    r.CursorsOk (C.env n) := by
  obtain ⟨f, hf⟩ := h.exists_histories
  have hall : ∀ k n r d, (C.run (actions.take k)).nodes n = .up r d → r.CursorsOk (C.env n) := by
    intro k
    induction k with
    | zero => exact fun n r d hup => by cases hup
    | succ k ih =>
      cases hact : actions[k]? with
      | none => rwa [List.take_add_one, hact, Option.toList_none, List.append_nil]
      | some act =>
        intro n r d hup
        rw [C.run_take_succ hact] at hup
        rcases perform_up hup with hold | ⟨i, answers, r₀, d₀, out, rfl, hup₀, hn, hav, hrun⟩ |
          ⟨answers, d₀, st, rfl, -, -, hstart⟩
        · exact ih n r d hold
        · exact (hf.sim k).cursors h.restores (carries_run (h.take k).proposes) hup₀ hav
            (h.atomic _ (List.mem_of_getElem? hact)) (ih n r₀ d₀ hup₀) hrun
        · obtain ⟨-, hfresh, -⟩ := (start_done hstart).2 r rfl
          exact .follower (by rw [hfresh.state]; decide)
  refine hall actions.length n r d ?_
  rwa [List.take_length]

end Cluster

end DistributedKv
