import DistributedKv.Cluster.Leader
import DistributedKv.Raft.Leading

/-!
No commit is missed. A leader looks for an index to commit only when it has
recorded a successful AppendEntries, so every other change of its log or of its
match indexes must not create one. What a response records lies within the
request it answers, and the requests of a node in its current term lie within
its log and, for a snapshot, its commit index (`SentBy`): both only grow while
it leads.
-/

namespace DistributedKv

open Crash Prog

variable {σ : Type} {env : Env σ} {i : Input} {r₀ r r' : Raft σ} {d d' : Disk} {n : Int}
  {net : List Message}

/-- Who has sent a request, and as the leader of which term. -/
def Message.origin : Message → Option (Int × Nat)
  | .appendRequest _ req => some (req.leaderID, req.term)
  | .installRequest _ req => some (req.leaderID, req.term)
  | _ => none

/-- The request lies within the log, a snapshot also within the commit index. -/
def Raft.Holds (r : Raft σ) : Message → Prop
  | .appendRequest _ req => req.prevLogIndex + req.entries.length ≤ r.lastLogIndexLocked
  | .installRequest _ req =>
      req.lastIncludedIndex ≤ r.commitIndex ∧ req.lastIncludedIndex ≤ r.lastLogIndexLocked
  | _ => True

theorem Raft.Holds.grow {m : Message} (h : r.Holds m) (hg : r.Grows r') : r'.Holds m := by
  cases m with
  | appendRequest dst req => exact Nat.le_trans h hg.last
  | installRequest dst req => exact ⟨h.1.trans hg.commit, h.2.trans hg.last⟩
  | _ => trivial

/-- The requests of `n` in flight: none of a later term or of a term in which it
is still a candidate, and those of the term it leads are within its log. -/
structure SentBy (net : List Message) (n : Int) (r : Raft σ) : Prop where
  past : ∀ m ∈ net, ∀ term, m.origin = some (n, term) →
    term < r.currentTerm ∨ term = r.currentTerm ∧ r.state ≠ .candidate
  holds : r.state = .leader → ∀ m ∈ net, m.origin = some (n, r.currentTerm) → r.Holds m

namespace SentBy

theorem term_le (h : SentBy net n r) {m : Message} (hm : m ∈ net) {term : Nat}
    (ho : m.origin = some (n, term)) : term ≤ r.currentTerm := by
  rcases h.past m hm term ho with hlt | ⟨heq, -⟩
  · exact hlt.le
  · exact heq.le

theorem follower (hle : ∀ m ∈ net, ∀ term, m.origin = some (n, term) → term ≤ r.currentTerm)
    (hf : r.state = .follower) : SentBy net n r := by
  constructor
  · intro m hm term ho
    rw [hf]
    exact (Nat.lt_or_eq_of_le (hle m hm term ho)).imp_right fun heq => ⟨heq, nofun⟩
  · intro hl
    rw [hf] at hl
    cases hl

/-- A later term. -/
theorem raised (h : SentBy net n r) (hterm : r.currentTerm < r'.currentTerm)
    (hl : r'.state ≠ .leader) : SentBy net n r' :=
  ⟨fun _ hm _ ho => .inl ((h.term_le hm ho).trans_lt hterm), fun h => absurd h hl⟩

theorem grow (h : SentBy net n r) (hg : r.Grows r') (hterm : r'.currentTerm = r.currentTerm)
    (hstate : r'.state = r.state) : SentBy net n r' := by
  constructor
  · rw [hterm, hstate]
    exact h.past
  · rw [hterm, hstate]
    exact fun hl m hm ho => (h.holds hl m hm ho).grow hg

theorem effect (hi : ¬ i.IsRequest) (hwf : r.WellFormed) (he : Effect env r₀ i r r')
    (h : SentBy net n r) : SentBy net n r' := by
  have hgrows := he.grows hi hwf
  cases he with
  | raise _ _ _ _ hlt => exact h.raised hlt nofun
  | follow => exact .follower (fun m hm term ho => h.term_le hm ho) rfl
  | stand => exact h.raised (Nat.lt_succ_self _) nofun
  | lead _ _ _ _ _ _ hc =>
    -- a candidate has sent nothing in its term
    have hnone : ∀ m ∈ net, ∀ term, m.origin = some (n, term) → term < r.currentTerm := by
      intro m hm term ho
      rcases h.past m hm term ho with hlt | ⟨-, hno⟩
      · exact hlt
      · exact absurd hc hno
    exact ⟨fun m hm term ho => .inl (hnone m hm term ho),
      fun _ m hm ho => absurd (hnone m hm _ ho) (Nat.lt_irrefl _)⟩
  | checkpoint _ entry =>
    obtain ⟨_, _, -, -, heq⟩ := r.checkpointed_eq entry
    exact h.grow hgrows (by rw [heq]) (by rw [heq])
  | stop _ err =>
    obtain ⟨_, _, _, -, -, heq⟩ := r.stopped_eq err
    exact h.grow hgrows (by rw [heq]) (by rw [heq])
  | _ => exact h.grow hgrows rfl rfl

theorem effects (hi : ¬ i.IsRequest) (hwf : r.WellFormed) (he : Effects env r i r')
    (h : SentBy net n r) : SentBy net n r' := by
  induction he with
  | refl => exact h
  | tail hes he ih => exact ih.effect hi (Effects.wellFormed hes hwf) he

end SentBy

/-- A vote that can be stored. -/
theorem Effects.vote_ge (hid : noVote ≤ env.id)
    (hi : ∀ req, i = .voteRequest req → noVote ≤ req.candidateID) (he : Effects env r i r')
    (h : noVote ≤ r.votedFor) : noVote ≤ r'.votedFor := by
  induction he with
  | refl => exact h
  | @tail r₁ _ _ he ih =>
    cases he with
    | raise => exact le_rfl
    | stand => exact hid
    | vote _ req => exact hi req rfl
    | checkpoint _ entry =>
      obtain ⟨_, _, -, -, heq⟩ := r₁.checkpointed_eq entry
      rw [heq]
      exact ih
    | stop _ err =>
      obtain ⟨_, _, _, -, -, heq⟩ := r₁.stopped_eq err
      rw [heq]
      exact ih
    | _ => exact ih

namespace Cluster

variable {C : Cluster σ} {w : World σ}

/-- A node that has caught up with what it knows, and its requests in flight. -/
structure Leading (C : Cluster σ) (net : List Message) (n : Int) (r : Raft σ) : Prop where
  supplied : r.Supplied
  vote_ge : noVote ≤ r.votedFor
  sent : SentBy net n r
  caughtUp : r.CaughtUp (C.env n)

def ProcessLeading (C : Cluster σ) (net : List Message) (n : Int) : Process σ → Prop
  | .up r _ => C.Leading net n r
  | .down d => ∀ m ∈ net, ∀ term, m.origin = some (n, term) → term ≤ d.stable.currentTerm

/-- A response answers a request in flight, whose sender gets it. -/
structure Answered (net : List Message) : Prop where
  append : ∀ src dst req resp, .appendResponse src dst req resp ∈ net →
    dst = req.leaderID ∧ ∃ dst', .appendRequest dst' req ∈ net
  install : ∀ src dst req resp, .installResponse src dst req resp ∈ net →
    dst = req.leaderID ∧ ∃ dst', .installRequest dst' req ∈ net

/-- The invariant of the cluster, next to the one behind election safety. -/
structure Advancing (C : Cluster σ) (w : World σ) : Prop where
  ballots : C.Ballots w
  answered : Answered w.net
  process : ∀ n, C.ProcessLeading w.net n (w.nodes n)

theorem Advancing.down (h : C.Advancing w) (hdown : w.nodes n = .down d) {s : StableState}
    (hs : d.stable.SameBallot s) :
    ∀ m ∈ w.net, ∀ term, m.origin = some (n, term) → term ≤ s.currentTerm := by
  have hp := h.process n
  rw [hdown] at hp
  rw [hs.1]
  exact hp

/-! ## One step -/

section Step

variable (h : C.Advancing w) (hn : n ∈ C.members) (hup : w.nodes n = .up r d)
  (hav : i.available w.net n = true) {answers : List Outcome} {out : Output}
  (hrun : (react (C.env n) i).run answers r d = .done out r' d')

include h hup

theorem Advancing.up : C.Leading w.net n r ∧ Ahead r d.stable := by
  have hp := h.process n
  have hb := h.ballots.process n
  rw [hup] at hp hb
  exact ⟨hp, hb.2.2⟩

include hn hav hrun

theorem Advancing.caughtUp (hans : ∀ o ∈ answers, Atomic o) (heff : Effects (C.env n) r i r') :
    r'.CaughtUp (C.env n) := by
  obtain ⟨hl, -⟩ := h.up hup
  by_cases hreq : i.IsRequest
  · rcases request_follower hreq hrun with rfl | hf
    · exact hl.caughtUp
    · exact .follower (by rw [hf]; decide)
  by_cases hrep : i.IsReply
  · cases i with
    | appendResponse peer req resp =>
      refine silent_done hrun rfl hans (handleAppendEntriesResponse_caughtUp hl.supplied hl.vote_ge
        hl.caughtUp fun hlead hterm => ?_)
      obtain ⟨rfl, dst, hm⟩ := h.answered.append peer n req resp (by simpa [Input.available] using hav)
      exact hl.sent.holds hlead _ hm (by rw [hterm]; rfl)
    | installResponse peer req resp =>
      have hany : ∀ o ∈ answers, Any o := fun _ _ => trivial
      refine silent_done hrun rfl hany
        (handleInstallSnapshotResponse_caughtUp hl.caughtUp fun hlead hterm => ?_)
      obtain ⟨rfl, dst, hm⟩ := h.answered.install peer n req resp (by simpa [Input.available] using hav)
      exact hl.sent.holds hlead _ hm (by rw [hterm]; rfl)
    | _ => exact hrep.elim
  · have hmaj := Env.majority_gt_one (cfg_ok hn)
    exact heff.caughtUp hreq hrep hmaj hl.supplied.toWellFormed hl.caughtUp

theorem Advancing.leading (hans : ∀ o ∈ answers, Atomic o) : C.Leading w.net n r' := by
  obtain ⟨hl, hahead⟩ := h.up hup
  obtain ⟨heff, -, -⟩ := effects_of_done (majority_ne_one hn) hahead hrun
  refine ⟨heff.supplied hl.supplied, ?_, ?_, h.caughtUp hn hup hav hrun hans heff⟩
  · refine heff.vote_ge ?_ (fun req hi => ?_) hl.vote_ge
    · rw [env_id hn]
      exact (by decide : noVote ≤ 0).trans (nonneg hn)
    · subst hi
      have hm := (h.ballots.votes.request n req (by simpa [Input.available] using hav)).1
      exact (by decide : noVote ≤ 0).trans (nonneg hm)
  · by_cases hreq : i.IsRequest
    · rcases request_follower hreq hrun with rfl | hf
      · exact hl.sent
      · exact .follower (fun m hm term ho => (hl.sent.term_le hm ho).trans heff.term_le) hf
    · exact hl.sent.effects hreq hl.supplied.toWellFormed heff

/-- A request that is sent comes from a leader, in its term, and lies within its log. -/
theorem Advancing.sends_origin {m : Message} (hm : m ∈ C.sends n i out) {k : Int} {term : Nat}
    (ho : m.origin = some (k, term)) :
    k = n ∧ term = r'.currentTerm ∧ r'.state = .leader ∧ r'.Holds m := by
  obtain ⟨hl, -⟩ := h.up hup
  have hsends := react_sends hrun
  unfold sends at hm
  split at hm
  case h_3 dst req =>
    obtain rfl := List.mem_singleton.mp hm
    obtain ⟨rfl, rfl⟩ := Prod.mk.inj (Option.some.inj ho)
    cases i with
    | sendAppend peer =>
      obtain ⟨-, hlead, -, hterm, hid⟩ := hsends
      obtain ⟨rfl, hle⟩ := sendAppend_within hl.supplied.toWellFormed hrun
      exact ⟨hid.trans (env_id hn), hterm, hlead, hle⟩
    | _ => exact hsends.elim
  case h_5 dst req =>
    obtain rfl := List.mem_singleton.mp hm
    obtain ⟨rfl, rfl⟩ := Prod.mk.inj (Option.some.inj ho)
    cases i with
    | sendInstall peer =>
      obtain ⟨-, hlead, -, hterm, hid⟩ := hsends
      obtain ⟨rfl, hle⟩ := sendInstall_within hl.supplied hrun
      exact ⟨hid.trans (env_id hn), hterm, hlead, hle⟩
    | _ => exact hsends.elim
  case h_1 req =>
    obtain ⟨peer, -, rfl⟩ := List.mem_map.mp hm
    cases ho
  all_goals
    simp at hm
    try subst hm
    try cases ho

omit h hup hn hrun in
theorem Answered.send (ha : Answered w.net) : Answered (C.sends n i out ++ w.net) := by
  have hsub : w.net ⊆ C.sends n i out ++ w.net := List.subset_append_right _ _
  constructor
  · intro src dst req resp hm
    rcases List.mem_append.mp hm with hm | hm
    · unfold sends at hm
      split at hm
      case h_4 req' resp' =>
        obtain ⟨rfl, rfl, rfl, -⟩ := Message.appendResponse.inj (List.mem_singleton.mp hm)
        exact ⟨rfl, src, hsub (by simpa [Input.available] using hav)⟩
      all_goals simp at hm
    · obtain ⟨hdst, dst', hreq⟩ := ha.append src dst req resp hm
      exact ⟨hdst, dst', hsub hreq⟩
  · intro src dst req resp hm
    rcases List.mem_append.mp hm with hm | hm
    · unfold sends at hm
      split at hm
      case h_6 req' resp' =>
        obtain ⟨rfl, rfl, rfl, -⟩ := Message.installResponse.inj (List.mem_singleton.mp hm)
        exact ⟨rfl, src, hsub (by simpa [Input.available] using hav)⟩
      all_goals simp at hm
    · obtain ⟨hdst, dst', hreq⟩ := ha.install src dst req resp hm
      exact ⟨hdst, dst', hsub hreq⟩

end Step

/-! ## Runs -/

/-- One process changes and nothing is sent. -/
theorem Advancing.settle (h : C.Advancing w) {p : Process σ}
    (hb : C.Ballots { w with nodes := Function.update w.nodes n p })
    (hp : C.ProcessLeading w.net n p) :
    C.Advancing { w with nodes := Function.update w.nodes n p } where
  ballots := hb
  answered := h.answered
  process m := by
    dsimp only
    by_cases hm : m = n
    · subst hm
      rw [Function.update_self]
      exact hp
    · rw [Function.update_of_ne hm]
      exact h.process m

theorem Advancing.step (h : C.Advancing w) (hn : n ∈ C.members) (hup : w.nodes n = .up r d)
    (hav : i.available w.net n = true) {answers : List Outcome} (hans : ∀ o ∈ answers, Atomic o)
    {out : Output} (hrun : (react (C.env n) i).run answers r d = .done out r' d') :
    C.Advancing ⟨Function.update w.nodes n (.up r' d'), C.sends n i out ++ w.net⟩ where
  ballots := h.ballots.step hn hav hup hrun
  answered := h.answered.send hav
  process m := by
    dsimp only
    by_cases hm : m = n
    · subst hm
      rw [Function.update_self]
      have hl := h.leading hn hup hav hrun hans
      refine ⟨hl.supplied, hl.vote_ge, ⟨fun msg hmsg term ho => ?_, fun hlead msg hmsg ho => ?_⟩,
        hl.caughtUp⟩
      · rcases List.mem_append.mp hmsg with hmsg | hmsg
        · obtain ⟨-, hterm, hlead, -⟩ := h.sends_origin hn hup hav hrun hmsg ho
          exact .inr ⟨hterm, by rw [hlead]; decide⟩
        · exact hl.sent.past msg hmsg term ho
      · rcases List.mem_append.mp hmsg with hmsg | hmsg
        · exact (h.sends_origin hn hup hav hrun hmsg ho).2.2.2
        · exact hl.sent.holds hlead msg hmsg ho
    · -- nobody sends a request in the name of another node
      have hold : ∀ msg ∈ C.sends n i out ++ w.net, ∀ {term}, msg.origin = some (m, term) →
          msg ∈ w.net := by
        intro msg hmsg term ho
        rcases List.mem_append.mp hmsg with hmsg | hmsg
        · exact absurd (h.sends_origin hn hup hav hrun hmsg ho).1 hm
        · exact hmsg
      rw [Function.update_of_ne hm]
      have hp := h.process m
      cases hproc : w.nodes m with
      | down d₁ =>
        rw [hproc] at hp
        exact fun msg hmsg term ho => hp msg (hold msg hmsg ho) term ho
      | up r₁ d₁ =>
        rw [hproc] at hp
        exact ⟨hp.supplied, hp.vote_ge,
          ⟨fun msg hmsg term ho => hp.sent.past msg (hold msg hmsg ho) term ho,
            fun hlead msg hmsg ho => hp.sent.holds hlead msg (hold msg hmsg ho) ho⟩, hp.caughtUp⟩

theorem Advancing.perform (h : C.Advancing w) (a : Action) (hans : ∀ o ∈ a.answers, Atomic o) :
    C.Advancing (C.perform w a) := by
  have hb := h.ballots.perform a
  have hmoved := C.moved w a
  generalize C.perform w a = w' at hmoved hb ⊢
  cases hmoved with
  | idle => exact h
  | crash hup =>
    obtain ⟨hl, hahead⟩ := h.up hup
    exact h.settle hb fun m hm term ho => (hl.sent.term_le hm ho).trans hahead.term_le
  | died hup hn hav hrun =>
    obtain ⟨hl, hahead⟩ := h.up hup
    obtain ⟨r', heff, hahead'⟩ := effects_of_crashed (majority_ne_one hn) hahead hrun
    have hterm := heff.term_le.trans hahead'.term_le
    exact h.settle hb fun m hm term ho => (hl.sent.term_le hm ho).trans hterm
  | step hup hn hav hrun => exact h.step hn hup hav hans hrun
  | failed hdown hn hstart => exact h.settle hb (h.down hdown (start_failed hstart))
  | @started _ _ _ r _ _ hdown hn hstart =>
    have hstarts := start_done hstart
    obtain ⟨-, hfresh, -⟩ := hstarts.2 r rfl
    refine h.settle hb ⟨hstarts.supplied, hfresh.vote_ge, .follower (fun m hm term ho => ?_)
      hfresh.state, .follower (by rw [hfresh.state]; decide)⟩
    rw [hfresh.term]
    exact h.down hdown ⟨rfl, rfl⟩ m hm term ho

theorem Advancing.initial : C.Advancing .initial where
  ballots := .initial
  answered := ⟨nofun, nofun⟩
  process _ _ hm := by cases hm

/-- In every state that the cluster reaches without failing store calls, an
entry of a leader's own term above its commit index is on no majority that the
leader knows of. -/
theorem no_commit_missed {actions : List Action} (h : Permitted Atomic actions)
    (hup : (C.run actions).nodes n = .up r d) (hl : r.state = .leader) {index : Nat} {e : LogEntry}
    (he : r.entryAtLocked index = some e) (hterm : e.term = r.currentTerm)
    (hcommit : r.commitIndex < index) : r.matched (C.env n) index < (C.env n).majority := by
  have hrun : C.Advancing (C.run actions) :=
    Run.invariant (fun _ a hw hok => hw.perform a hok) .initial actions fun _ a ha =>
      h a (List.mem_of_getElem? ha)
  obtain ⟨hlead, -⟩ := hrun.up hup
  obtain ⟨hmem, rfl⟩ := hlead.supplied.toWellFormed.mem_of_entryAtLocked he
  exact hlead.caughtUp.covered hl e hmem hcommit hterm

/-- Node 1 leads, has committed its no-op with node 2 and taken a proposal. -/
def proposedRun : List Action :=
  let probe : AppendEntriesRequest := ⟨1, 1, 1, 1, [], 0⟩
  let entries : AppendEntriesRequest := ⟨1, 1, 0, 0, [noopEntry 1 1], 0⟩
  [.restart 1 [], .restart 2 [], .restart 3 [],
    .step 1 .electionTimeout [], .step 2 (.voteRequest ⟨1, 1, 0, 0⟩) [],
    .step 1 (.voteResponse 2 1 ⟨1, true⟩) [],
    .step 1 (.sendAppend 2) [], .step 2 (.appendRequest probe) [],
    .step 1 (.appendResponse 2 probe ⟨1, false⟩) [],
    .step 1 (.sendAppend 2) [], .step 2 (.appendRequest entries) [],
    .step 1 (.appendResponse 2 entries ⟨1, true⟩) [],
    .step 1 (.propose ⟨.set, [97], [98]⟩) []]

theorem no_commit_missed_proposedRun :
    ∃ r d, ((localCluster 1).run proposedRun).nodes 1 = .up r d ∧ r.commitIndex = 1 ∧
      r.lastLogIndexLocked = 2 ∧
      r.matched ((localCluster 1).env 1) 2 < ((localCluster 1).env 1).majority := by
  have hok : Permitted Atomic proposedRun := .of_nil (by decide)
  refine ⟨_, _, rfl, rfl, rfl, ?_⟩
  exact no_commit_missed hok rfl rfl
    (e := ⟨2, 1, .set, [97], [98]⟩) rfl rfl (by decide)

end Cluster

end DistributedKv
