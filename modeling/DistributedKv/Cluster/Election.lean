import DistributedKv.Cluster.Simulation
import DistributedKv.Lib.Run
import DistributedKv.Raft.WellFormed

/-!
Election safety: in a run in which the stores may fail, fail after writing, or
kill the process at every call, a term never has two leaders. The messages ever
sent record every vote (`Voted`), a member's ballot in memory or on disk never
contradicts the votes it gave (`Kept`), so that it votes once in a term, and a
leader was voted for by two members.
-/

namespace DistributedKv

open Crash

/-- `v` gave its vote of term `t` to `c`, in a response or as a candidate. -/
def Voted (net : List Message) (v : Int) (t : Nat) (c : Int) : Prop :=
  (∃ term resp, .voteResponse v c term resp ∈ net ∧ resp.voteGranted = true ∧ resp.term = t) ∨
    (c = v ∧ ∃ dst req, .voteRequest dst req ∈ net ∧ req.term = t ∧ req.candidateID = v)

/-- A ballot that does not contradict the votes of `n`. -/
def Kept (net : List Message) (n : Int) (term : Nat) (vote : Int) : Prop :=
  ∀ t c, Voted net n t c → t < term ∨ t = term ∧ vote = c

theorem Voted.mono {net net' : List Message} {v : Int} {t : Nat} {c : Int} (h : Voted net v t c)
    (hsub : net ⊆ net') : Voted net' v t c := by
  rcases h with ⟨term, resp, hm, h⟩ | ⟨hc, dst, req, hm, h⟩
  · exact .inl ⟨term, resp, hsub hm, h⟩
  · exact .inr ⟨hc, dst, req, hsub hm, h⟩

namespace Cluster

variable {σ : Type} {C : Cluster σ} {w : World σ} {n : Int}

/-- Two members voted for `n`. -/
def Elected (C : Cluster σ) (net : List Message) (n : Int) (t : Nat) : Prop :=
  C.protocol.Quorum {v | Voted net v t n}

theorem Elected.mono {net net' : List Message} {t : Nat} (h : C.Elected net n t)
    (hsub : net ⊆ net') : C.Elected net' n t := by
  obtain ⟨a, b, ha, hb, hab, hva, hvb⟩ := h
  exact ⟨a, b, ha, hb, hab, hva.mono hsub, hvb.mono hsub⟩

/-- Candidates are members, and nobody sends its vote to itself. -/
structure VotesOk (C : Cluster σ) (net : List Message) : Prop where
  request : ∀ dst req, .voteRequest dst req ∈ net →
    req.candidateID ∈ C.members ∧ dst ≠ req.candidateID
  response : ∀ src dst term resp, .voteResponse src dst term resp ∈ net →
    src ∈ C.members ∧ dst ∈ C.members ∧ src ≠ dst
  unique : ∀ v t c c', Voted net v t c → Voted net v t c' → c = c'

theorem VotesOk.mem {net : List Message} (h : C.VotesOk net) {v : Int} {t : Nat} {c : Int}
    (hv : Voted net v t c) : c ∈ C.members := by
  rcases hv with ⟨term, resp, hm, _⟩ | ⟨rfl, dst, req, hm, _, rfl⟩
  · exact (h.response _ _ _ _ hm).2.1
  · exact (h.request _ _ hm).1

/-- What the votes in flight say about a node in memory. -/
structure NodeOk (C : Cluster σ) (net : List Message) (n : Int) (r : Raft σ) : Prop where
  kept : Kept net n r.currentTerm r.votedFor
  election : ∀ e, r.election = some e → Voted net n e.term n
  leader : r.state = .leader → C.Elected net n r.currentTerm

def ProcessOk (C : Cluster σ) (net : List Message) (n : Int) : Process σ → Prop
  | .up r d => n ∈ C.members ∧ C.NodeOk net n r ∧ Ahead r d.stable
  | .down d => Kept net n d.stable.currentTerm d.stable.votedFor

/-- The invariant behind election safety. -/
structure Ballots (C : Cluster σ) (w : World σ) : Prop where
  votes : C.VotesOk w.net
  process : ∀ n, C.ProcessOk w.net n (w.nodes n)

theorem Ballots.up (h : C.Ballots w) {r : Raft σ} {d : Disk} (hup : w.nodes n = .up r d) :
    n ∈ C.members ∧ C.NodeOk w.net n r ∧ Ahead r d.stable := by
  have hp := h.process n
  rwa [hup] at hp

theorem Ballots.down (h : C.Ballots w) {d : Disk} (hdown : w.nodes n = .down d) {s : StableState}
    (hs : d.stable.SameBallot s) : Kept w.net n s.currentTerm s.votedFor := by
  have hp := h.process n
  rw [hdown] at hp
  rw [hs.1, hs.2]
  exact hp

/-- A stored ballot that is not behind one which keeps the votes keeps them too. -/
theorem VotesOk.kept_stable {net : List Message} (h : C.VotesOk net) {r : Raft σ} {s : StableState}
    (hk : Kept net n r.currentTerm r.votedFor) (ha : Ahead r s) :
    Kept net n s.currentTerm s.votedFor := by
  intro t c hv
  have hpos := nonneg (h.mem hv)
  rcases hk t c hv with hlt | ⟨heq, rfl⟩
  · rcases ha with ha | ⟨ha, _⟩
    · exact .inl (hlt.trans ha)
    · exact .inl (ha ▸ hlt)
  · rcases ha with ha | ⟨ha, hno | hvote⟩
    · exact .inl (heq ▸ ha)
    · simp only [noVote] at hno
      omega
    · exact .inr ⟨heq.trans ha.symm, hvote⟩

/-! ## One node -/

section Node

variable {net : List Message} {i : Input} {r₀ r r' : Raft σ} (hvotes : C.VotesOk net)

include hvotes

/-- An effect never makes the ballot contradict a vote. -/
theorem kept_effect (he : Effect (C.env n) r₀ i r r')
    (h : Kept net n r.currentTerm r.votedFor) : Kept net n r'.currentTerm r'.votedFor := by
  have hlater : ∀ {term vote}, r.currentTerm < term → Kept net n term vote := by
    intro term vote hlt t c hv
    rcases h t c hv with hold | ⟨rfl, _⟩
    · exact .inl (hold.trans hlt)
    · exact .inl hlt
  cases he with
  | raise _ _ term leaderID hlt => exact hlater hlt
  | stand => exact hlater (Nat.lt_succ_self _)
  | vote _ req ht hno =>
    intro t c hv
    have hpos := nonneg (hvotes.mem hv)
    rcases h t c hv with hlt | ⟨_, hvote⟩
    · exact .inl hlt
    · rw [hno] at hvote
      simp only [noVote] at hvote
      omega
  | checkpoint _ entry =>
    obtain ⟨_, _, -, -, heq⟩ := r.checkpointed_eq entry
    rw [heq]
    exact h
  | stop _ err =>
    obtain ⟨_, _, _, -, -, heq⟩ := r.stopped_eq err
    rw [heq]
    exact h
  | _ => exact h

theorem kept_effects (he : Effects (C.env n) r i r') (h : Kept net n r.currentTerm r.votedFor) :
    Kept net n r'.currentTerm r'.votedFor := by
  induction he with
  | refl => exact h
  | tail _ he ih => exact kept_effect hvotes he ih

/-- Everything but a stand for election keeps what the votes say. -/
theorem NodeOk.effect (hn : n ∈ C.members) (hin : i.available net n = true)
    (ht : i ≠ .electionTimeout) (h : C.NodeOk net n r) (he : Effect (C.env n) r₀ i r r') :
    C.NodeOk net n r' := by
  have hkept := kept_effect hvotes he h.kept
  cases he with
  | stand => exact absurd rfl ht
  | raise => exact ⟨hkept, h.election, nofun⟩
  | follow => exact ⟨hkept, h.election, nofun⟩
  | count _ peer resp e votes hel =>
    refine ⟨hkept, fun e' he' => ?_, h.leader⟩
    obtain rfl := Option.some.inj he'
    exact h.election e hel
  | retire => exact ⟨hkept, nofun, h.leader⟩
  | lead _ peer resp e hel hterm hc hresp =>
    refine ⟨hkept, h.election, fun _ => ?_⟩
    have hmsg : Message.voteResponse peer n e.term resp ∈ net := by
      simpa [Input.available] using hin
    obtain ⟨hpeer, -, hne⟩ := hvotes.response _ _ _ _ hmsg
    refine ⟨n, peer, hn, hpeer, hne.symm, ?_, ?_⟩
    · exact hterm ▸ h.election e hel
    · exact .inl ⟨e.term, resp, hmsg, hresp.2, hresp.1.trans hterm.symm⟩
  | checkpoint _ entry =>
    obtain ⟨_, _, -, -, heq⟩ := r.checkpointed_eq entry
    rw [heq]
    exact ⟨h.kept, h.election, h.leader⟩
  | stop _ err =>
    obtain ⟨_, _, _, -, -, heq⟩ := r.stopped_eq err
    rw [heq]
    exact ⟨h.kept, h.election, h.leader⟩
  | _ => exact ⟨hkept, h.election, h.leader⟩

theorem NodeOk.effects (hn : n ∈ C.members) (hin : i.available net n = true)
    (ht : i ≠ .electionTimeout) (h : C.NodeOk net n r) (he : Effects (C.env n) r i r') :
    C.NodeOk net n r' := by
  induction he with
  | refl => exact h
  | tail _ he ih => exact ih.effect hvotes hn hin ht he

end Node

/-! ## One action -/

/-- A process that stopped, or a node whose files changed, with nothing sent. -/
theorem Ballots.settle (h : C.Ballots w) {p : Process σ} (hp : C.ProcessOk w.net n p) :
    C.Ballots { w with nodes := Function.update w.nodes n p } where
  votes := h.votes
  process m := by
    dsimp only
    by_cases hm : m = n
    · subst hm
      rw [Function.update_self]
      exact hp
    · rw [Function.update_of_ne hm]
      exact h.process m

theorem ProcessOk.mono {net net' : List Message} {p : Process σ} (h : C.ProcessOk net n p)
    (hsub : net ⊆ net') (hold : ∀ t c, Voted net' n t c → Voted net n t c) :
    C.ProcessOk net' n p := by
  cases p with
  | down d => exact fun t c hv => h t c (hold t c hv)
  | up r d =>
    obtain ⟨hn, hr, ha⟩ := h
    refine ⟨hn, ⟨fun t c hv => hr.kept t c (hold t c hv), ?_, ?_⟩, ha⟩
    · exact fun e he => (hr.election e he).mono hsub
    · exact fun hl => (hr.leader hl).mono hsub

/-- A step of `n` that sent messages, at most one of them a new vote: the one
in its ballot. -/
theorem Ballots.send (h : C.Ballots w) {ms : List Message} {r : Raft σ} {d : Disk}
    (hn : n ∈ C.members) (hkept : Kept w.net n r.currentTerm r.votedFor) (ha : Ahead r d.stable)
    (hreq : ∀ dst req, .voteRequest dst req ∈ ms →
      req.candidateID ∈ C.members ∧ dst ≠ req.candidateID)
    (hresp : ∀ src dst term resp, .voteResponse src dst term resp ∈ ms →
      src ∈ C.members ∧ dst ∈ C.members ∧ src ≠ dst)
    (hnew : ∀ v t c, Voted ms v t c → v = n ∧ t = r.currentTerm ∧ c = r.votedFor)
    (hel : ∀ e, r.election = some e → Voted (ms ++ w.net) n e.term n)
    (hlead : r.state = .leader → C.Elected (ms ++ w.net) n r.currentTerm) :
    C.Ballots ⟨Function.update w.nodes n (.up r d), ms ++ w.net⟩ := by
  have hcases : ∀ {v t c}, Voted (ms ++ w.net) v t c → Voted ms v t c ∨ Voted w.net v t c := by
    rintro v t c (⟨term, resp, hm, hrest⟩ | ⟨hc, dst, req, hm, hrest⟩)
    · rcases List.mem_append.mp hm with hm | hm
      · exact .inl (.inl ⟨term, resp, hm, hrest⟩)
      · exact .inr (.inl ⟨term, resp, hm, hrest⟩)
    · rcases List.mem_append.mp hm with hm | hm
      · exact .inl (.inr ⟨hc, dst, req, hm, hrest⟩)
      · exact .inr (.inr ⟨hc, dst, req, hm, hrest⟩)
  -- a vote of `n` in its current term, old or new, is the one in its ballot
  have hcurrent : ∀ {t c}, Voted (ms ++ w.net) n t c →
      t < r.currentTerm ∨ t = r.currentTerm ∧ r.votedFor = c := by
    intro t c hv
    rcases hcases hv with hv | hv
    · obtain ⟨-, ht, hc⟩ := hnew _ _ _ hv
      exact .inr ⟨ht, hc.symm⟩
    · exact hkept t c hv
  refine ⟨⟨?_, ?_, ?_⟩, fun m => ?_⟩
  · intro dst req hm
    rcases List.mem_append.mp hm with hm | hm
    · exact hreq dst req hm
    · exact h.votes.request dst req hm
  · intro src dst term resp hm
    rcases List.mem_append.mp hm with hm | hm
    · exact hresp src dst term resp hm
    · exact h.votes.response src dst term resp hm
  · intro v t c c' hv hv'
    by_cases hvn : v = n ∧ t = r.currentTerm
    · obtain ⟨rfl, rfl⟩ := hvn
      rcases hcurrent hv with hlt | ⟨_, rfl⟩
      · exact absurd hlt (Nat.lt_irrefl _)
      · rcases hcurrent hv' with hlt | ⟨_, rfl⟩
        · exact absurd hlt (Nat.lt_irrefl _)
        · rfl
    · have hold : ∀ {x}, Voted (ms ++ w.net) v t x → Voted w.net v t x := by
        intro x hx
        rcases hcases hx with hx | hx
        · exact absurd ⟨(hnew _ _ _ hx).1, (hnew _ _ _ hx).2.1⟩ hvn
        · exact hx
      exact h.votes.unique v t c c' (hold hv) (hold hv')
  · dsimp only
    by_cases hm : m = n
    · subst hm
      rw [Function.update_self]
      exact ⟨hn, ⟨fun t c => hcurrent, hel, hlead⟩, ha⟩
    · rw [Function.update_of_ne hm]
      refine (h.process m).mono (List.subset_append_right _ _) fun t c hv => ?_
      rcases hcases hv with hv | hv
      · exact absurd (hnew _ _ _ hv).1 hm
      · exact hv

/-- Other than in an election timeout, only a vote request makes a node vote. -/
theorem voteRequest_not_sent {i : Input} {out : Output} {r r' : Raft σ}
    (hshow : Shows (C.env n) r r' i out) (ht : i ≠ .electionTimeout) {dst : Int}
    {req : RequestVoteRequest} : .voteRequest dst req ∉ C.sends n i out := by
  intro hm
  unfold sends at hm
  split at hm
  · cases i with
    | electionTimeout => exact ht rfl
    | _ => exact hshow
  all_goals simp at hm

theorem voteResponse_sent {i : Input} {out : Output} {r r' : Raft σ}
    (hshow : Shows (C.env n) r r' i out) {src dst : Int} {term : Nat} {resp : RequestVoteResponse}
    (hm : .voteResponse src dst term resp ∈ C.sends n i out) :
    ∃ req, i = .voteRequest req ∧ src = n ∧ dst = req.candidateID ∧
      (resp.voteGranted = true → resp.term = r'.currentTerm ∧ dst = r'.votedFor) := by
  unfold sends at hm
  split at hm
  case h_2 req resp' =>
    obtain ⟨rfl, rfl, -, rfl⟩ : src = n ∧ dst = req.candidateID ∧ term = req.term ∧ resp = resp' := by
      simpa using hm
    refine ⟨req, rfl, rfl, rfl, fun hg => ?_⟩
    obtain ⟨hterm, hresp, hvote⟩ := hshow hg
    exact ⟨hresp.trans hterm.symm, hvote.symm⟩
  all_goals simp at hm

theorem Ballots.step (h : C.Ballots w) (hn : n ∈ C.members) {i : Input}
    (hin : i.available w.net n = true) {answers : List Outcome} {r r' : Raft σ} {d d' : Disk}
    {out : Output} (hup : w.nodes n = .up r d)
    (hrun : (react (C.env n) i).run answers r d = .done out r' d') :
    C.Ballots ⟨Function.update w.nodes n (.up r' d'), C.sends n i out ++ w.net⟩ := by
  obtain ⟨-, hr, ha⟩ := h.up hup
  obtain ⟨heff, ha', hshow⟩ := effects_of_done (majority_ne_one hn) ha hrun
  have hkept := kept_effects h.votes heff hr.kept
  have hsub : w.net ⊆ C.sends n i out ++ w.net := List.subset_append_right _ _
  by_cases ht : i = .electionTimeout
  · subst ht
    cases out with
    | none =>
      obtain rfl : r' = r := hshow
      exact h.settle ⟨hn, hr, ha'⟩
    | voteRequest req =>
      obtain ⟨rfl, hcand, hterm, hid⟩ := hshow
      rw [env_id hn] at hid
      have hmem : ∀ {dst req'}, .voteRequest dst req' ∈ C.sends n .electionTimeout (.voteRequest req) →
          req' = req ∧ dst ∈ (C.env n).peers := by
        intro dst req' hm
        obtain ⟨peer, hpeer, heq⟩ := List.mem_map.mp hm
        obtain ⟨rfl, rfl⟩ := Message.voteRequest.inj heq
        exact ⟨rfl, hpeer⟩
      obtain ⟨peer, hpeer⟩ : ∃ peer, peer ∈ (C.env n).peers :=
        List.exists_mem_of_length_pos (by rw [Env.peers_length (cfg_ok hn)]; decide)
      refine h.send hn hkept ha' ?_ ?_ ?_ ?_ ?_
      · intro dst req' hm
        obtain ⟨rfl, hdst⟩ := hmem hm
        exact ⟨hid ▸ hn, hid ▸ ((mem_peers hn).mp hdst).2⟩
      · intro src dst term resp hm
        simp [sends] at hm
      · rintro v t c (⟨term, resp, hm, -⟩ | ⟨rfl, dst, req', hm, rfl, rfl⟩)
        · simp [sends] at hm
        · obtain ⟨rfl, -⟩ := hmem hm
          exact ⟨hid, hterm, hid.trans (env_id hn).symm⟩
      · intro e he
        obtain rfl := Option.some.inj he
        refine .inr ⟨rfl, peer, req, List.mem_append_left _ ?_, hterm, hid⟩
        exact List.mem_map.mpr ⟨peer, hpeer, rfl⟩
      · exact nofun
    | _ => exact hshow.elim
  · have hr' := hr.effects h.votes hn hin ht heff
    refine h.send hn hkept ha' ?_ ?_ ?_ ?_ ?_
    · exact fun dst req hm => absurd hm (voteRequest_not_sent hshow ht)
    · intro src dst term resp hm
      obtain ⟨req, rfl, rfl, rfl, -⟩ := voteResponse_sent hshow hm
      obtain ⟨hcand, hne⟩ := h.votes.request src req (by simpa [Input.available] using hin)
      exact ⟨hn, hcand, hne⟩
    · rintro v t c (⟨term, resp, hm, hg, rfl⟩ | ⟨-, dst, req, hm, -⟩)
      · obtain ⟨req, -, rfl, -, hvote⟩ := voteResponse_sent hshow hm
        exact ⟨rfl, hvote hg⟩
      · exact absurd hm (voteRequest_not_sent hshow ht)
    · exact fun e he => (hr'.election e he).mono hsub
    · exact fun hl => (hr'.leader hl).mono hsub

theorem NodeOk.fresh {r : Raft σ} {s : StableState} (h : r.Fresh s)
    (hk : Kept w.net n s.currentTerm s.votedFor) : C.NodeOk w.net n r := by
  refine ⟨?_, fun e he => ?_, fun hl => ?_⟩
  · rw [h.term, h.vote]
    exact hk
  · rw [h.election] at he
    cases he
  · rw [h.state] at hl
    cases hl

theorem Ballots.perform (h : C.Ballots w) (a : Action) : C.Ballots (C.perform w a) := by
  have hmoved := C.moved w a
  generalize C.perform w a = w' at hmoved ⊢
  cases hmoved with
  | idle => exact h
  | crash hup =>
    obtain ⟨-, hr, ha⟩ := h.up hup
    exact h.settle (p := .down _) (h.votes.kept_stable hr.kept ha)
  | died hup hn hav hrun =>
    obtain ⟨-, hr, ha⟩ := h.up hup
    obtain ⟨r', heff, ha'⟩ := effects_of_crashed (majority_ne_one hn) ha hrun
    exact h.settle (p := .down _) (h.votes.kept_stable (kept_effects h.votes heff hr.kept) ha')
  | step hup hn hav hrun => exact h.step hn hav hup hrun
  | failed hdown hn hstart => exact h.settle (p := .down _) (h.down hdown (start_failed hstart))
  | started hdown hn hstart =>
    obtain ⟨-, hfresh, -⟩ := (start_done hstart).2 _ rfl
    refine h.settle (p := .up _ _) ⟨hn, .fresh hfresh (h.down hdown ⟨rfl, rfl⟩), ?_⟩
    exact (start_done hstart).ahead

theorem Ballots.initial : C.Ballots .initial where
  votes := ⟨nofun, nofun, fun v t c c' hv => by simp [Voted, World.initial] at hv⟩
  process n t c hv := by simp [Voted, World.initial] at hv

theorem ballots (actions : List Action) : C.Ballots (C.run actions) :=
  Run.invariant (fun _ a h (_ : True) => h.perform a) .initial actions fun _ _ _ => trivial

theorem net_subset {actions : List Action} {j k : Nat} (h : j ≤ k) :
    (C.run (actions.take j)).net ⊆ (C.run (actions.take k)).net := by
  induction k, h using Nat.le_induction with
  | base => exact List.Subset.refl _
  | succ k _ ih =>
    cases hk : actions[k]? with
    | none => simpa [List.take_add_one, hk] using ih
    | some a =>
      rw [run_take_succ C hk]
      exact List.Subset.trans ih (net_subset_perform _ a)

theorem leader_elected {actions : List Action} {j : Nat} {r : Raft σ} {d : Disk}
    (hup : (C.run (actions.take j)).nodes n = .up r d) (hl : r.state = .leader) :
    C.Elected (C.run (actions.take j)).net n r.currentTerm := by
  exact ((ballots _).up hup).2.1.leader hl

/-- Two nodes that lead in one term, at any two moments of a run, are one node,
whatever the stores answered. -/
theorem election_safety {actions : List Action} {j k : Nat} {m : Int} {r r' : Raft σ} {d d' : Disk}
    (hn : (C.run (actions.take j)).nodes n = .up r d) (hl : r.state = .leader)
    (hm : (C.run (actions.take k)).nodes m = .up r' d') (hl' : r'.state = .leader)
    (hterm : r.currentTerm = r'.currentTerm) : n = m := by
  have hsub : ∀ {i}, i ≤ max j k →
      (C.run (actions.take i)).net ⊆ (C.run (actions.take (max j k))).net := net_subset
  have hvotes := (leader_elected hn hl).mono (hsub (Nat.le_max_left j k))
  have hvotes' := (leader_elected hm hl').mono (hsub (Nat.le_max_right j k))
  rw [← hterm] at hvotes'
  -- the two majorities share a voter, which voted once
  obtain ⟨v, hv, hv'⟩ := C.protocol.inter _ _ hvotes hvotes'
  exact (ballots _).votes.unique v _ _ _ hv hv'

/-- Node 1 wins the second term after a save that failed although it was
written, and node 2 the third after a crash and a save that failed. -/
def contestedRun : List Action :=
  [.restart 1 [], .restart 2 [], .restart 3 [],
    .step 1 .electionTimeout [.failWritten "sync"], .step 1 .electionTimeout [],
    .crash 1, .restart 1 [], .step 1 .electionTimeout [],
    .step 3 (.voteRequest ⟨2, 1, 0, 0⟩) [.fail "write"], .step 3 (.voteRequest ⟨2, 1, 0, 0⟩) [],
    .step 1 (.voteResponse 3 2 ⟨2, true⟩) [],
    .step 2 .electionTimeout [], .step 2 .electionTimeout [.crash 1], .restart 2 [],
    .step 2 .electionTimeout [], .step 3 (.voteRequest ⟨3, 2, 0, 0⟩) [],
    .step 2 (.voteResponse 3 3 ⟨3, true⟩) []]

theorem election_safety_contestedRun :
    ∃ n m r d r' d', ((localCluster 1).run (contestedRun.take 11)).nodes n = .up r d ∧
      ((localCluster 1).run (contestedRun.take 17)).nodes m = .up r' d' ∧
      r.state = .leader ∧ r'.state = .leader ∧ r.currentTerm = 2 ∧ r'.currentTerm = 2 ∧ n = m :=
  ⟨1, 1, _, _, _, _, rfl, rfl, rfl, rfl, rfl, rfl,
    @election_safety _ (localCluster 1) 1 contestedRun 11 17 1 _ _ _ _ rfl rfl rfl rfl rfl⟩

end Cluster

end DistributedKv
