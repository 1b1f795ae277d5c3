import DistributedKv.Cluster.Model
import DistributedKv.Lib.Consensus.Safety
import DistributedKv.Raft.Restart
import Mathlib.Data.List.Perm.Subperm

/-!
The cluster refines replicated logs with terms. `PeerSim` ties a peer to the
history, `MessageSim` says what a message in flight asserts about it, and
`stepSim` shows that every atomic change of a peer is a move of the history.
-/

namespace DistributedKv

open Consensus (Committed Extends Frame Grown Inv Moves)

namespace Cluster

variable {σ : Type} (C : Cluster σ)

/-! ## The protocol -/

section Members

variable {C} {n : Int} (hn : n ∈ C.members)

include hn

theorem cfg_ok : (C.env n).cfg.validate = .ok () := C.valid n hn

theorem env_id : (C.env n).id = n := C.id_eq n hn

theorem majority_ne_one : (C.env n).majority ≠ 1 := (Env.majority_gt_one (cfg_ok hn)).ne'

theorem members_length : C.members.length = 3 := by
  have := (C.members_perm n hn).length_eq
  rwa [List.length_cons, show (C.config n).peerIDs = (C.env n).peers from rfl,
    Env.peers_length (cfg_ok hn)] at this

theorem mem_peers {m : Int} : m ∈ (C.env n).peers ↔ m ∈ C.members ∧ m ≠ n := by
  have hperm := C.members_perm n hn
  have hnodup := Env.ids_nodup (cfg_ok hn)
  rw [env_id hn] at hnodup
  have hnot := (List.nodup_cons.mp hnodup).1
  rw [hperm.mem_iff, List.mem_cons]
  constructor
  · intro hm
    exact ⟨.inr hm, fun h => hnot (h ▸ hm)⟩
  · rintro ⟨rfl | hm, hne⟩
    · exact absurd rfl hne
    · exact hm

theorem nonneg : 0 ≤ n := by
  have := Env.id_nonneg (cfg_ok hn)
  rwa [env_id hn] at this

end Members

/-- Terms as the entries carry them, and two of the three members as a quorum. -/
def protocol : Consensus.Protocol Int LogEntry where
  termOf := LogEntry.term
  Quorum Q := ∃ a b, a ∈ C.members ∧ b ∈ C.members ∧ a ≠ b ∧ a ∈ Q ∧ b ∈ Q
  inter := by
    rintro Q Q' ⟨a, b, ha, hb, hab, haQ, hbQ⟩ ⟨c, d, hc, hd, hcd, hcQ, hdQ⟩
    have hlen := members_length ha
    by_contra hcon
    push Not at hcon
    have hnodup : [a, b, c, d].Nodup := by
      have h₁ : a ≠ c := fun h => hcon a haQ (h ▸ hcQ)
      have h₂ : a ≠ d := fun h => hcon a haQ (h ▸ hdQ)
      have h₃ : b ≠ c := fun h => hcon b hbQ (h ▸ hcQ)
      have h₄ : b ≠ d := fun h => hcon b hbQ (h ▸ hdQ)
      simp [hab, h₁, h₂, h₃, h₄, hcd]
    have hsub : [a, b, c, d] ⊆ C.members := by
      intro x hx
      simp only [List.mem_cons, List.not_mem_nil, or_false] at hx
      rcases hx with rfl | rfl | rfl | rfl <;> assumption
    have := (List.subperm_of_subset hnodup hsub).length_le
    simp [hlen] at this

/-- In a cluster, any state of the state machine will do as an image, and any
snapshot that can be sent. -/
def imaging (n : Int) : Imaging (C.env n) where
  Image _ _ := True
  Encodes _ data := data ≠ []
  initial := trivial
  noop _ _ := trivial
  apply _ _ _ _ := trivial
  snapshot _ _ _ hne := hne

abbrev History := Consensus.State Int LogEntry

/-! ## Peers and messages -/

/-- The peer `p` of the member `n` is what the history says. -/
structure PeerSim (a : History) (n : Int) (p : Peer) : Prop where
  term : a.term n = p.term
  vote : a.vote n p.term = if p.vote = noVote then none else some p.vote
  log : a.log n = p.history
  commit : a.commit n = p.commit
  candidate : p.role = .candidate → a.cand p.term n = some p.history ∧ a.lead p.term ≠ some n
  leader : p.role = .leader → a.lead p.term = some n
  election : ∀ e, p.election = some e → a.vote n e.term = some n
  matched : p.role = .leader → ∀ q m, p.matchIndex q = some m → m ≤ a.ack q p.term

/-- What an AppendEntries request asserts: it was cut out of a prefix `q` of its
term's log, and the leader's commit index covers a committed part of `q`. -/
structure AppendSim (a : History) (req : AppendEntriesRequest) (q : List LogEntry) : Prop where
  isPrefix : q <+: a.tlog req.term
  length : q.length = req.prevLogIndex + req.entries.length
  entries : q.drop req.prevLogIndex = req.entries
  prevTerm : termAt q req.prevLogIndex = some req.prevLogTerm
  commit_le : req.leaderCommit ≤ q.length
  committed : Committed C.protocol a req.term (q.take req.leaderCommit)

structure InstallSim (a : History) (req : InstallSnapshotRequest) : Prop where
  isPrefix : req.covers <+: a.tlog req.term
  length : req.covers.length = req.lastIncludedIndex
  term : req.lastIncludedTerm = lastTerm req.covers
  indexed : Indexed 0 req.covers
  valid : ∀ e ∈ req.covers, e.Valid
  data : req.data ≠ []
  committed : Committed C.protocol a req.term req.covers

/-- What a message in flight asserts about the history. -/
def MessageSim (a : History) : Message → Prop
  | .voteRequest dst req => req.candidateID ∈ C.members ∧ dst ≠ req.candidateID ∧
      ∃ l, a.cand req.term req.candidateID = some l ∧ req.lastLogIndex = l.length ∧
        req.lastLogTerm = lastTerm l
  | .voteResponse src dst _ resp => src ∈ C.members ∧ src ≠ dst ∧
      (resp.voteGranted = true → a.vote src resp.term = some dst)
  | .appendRequest _ req => ∃ q, C.AppendSim a req q
  | .appendResponse src _ req resp =>
      resp.success = true → req.prevLogIndex + req.entries.length ≤ a.ack src req.term
  | .installRequest _ req => C.InstallSim a req
  | .installResponse src _ req resp =>
      resp.term = req.term → req.lastIncludedIndex ≤ a.ack src req.term

/-- The message that an input of `n` delivers, if any. -/
def delivered (n : Int) : Input → Option Message
  | .voteRequest req => some (.voteRequest n req)
  | .voteResponse peer term resp => some (.voteResponse peer n term resp)
  | .appendRequest req => some (.appendRequest n req)
  | .appendResponse peer req resp => some (.appendResponse peer n req resp)
  | .installRequest req => some (.installRequest n req)
  | .installResponse peer req resp => some (.installResponse peer n req resp)
  | _ => none

def InputSim (a : History) (n : Int) (i : Input) : Prop :=
  ∀ m, delivered n i = some m → C.MessageSim a m

variable {C} {a a' : History} {n : Int}

theorem AppendSim.mono {req : AppendEntriesRequest} {q : List LogEntry} (h : C.AppendSim a req q)
    (hx : Extends a a') : C.AppendSim a' req q :=
  { h with
    isPrefix := h.isPrefix.trans (hx.tlog _)
    committed := h.committed.mono hx le_rfl }

theorem InstallSim.mono {req : InstallSnapshotRequest} (h : C.InstallSim a req)
    (hx : Extends a a') : C.InstallSim a' req :=
  { h with
    isPrefix := h.isPrefix.trans (hx.tlog _)
    committed := h.committed.mono hx le_rfl }

/-- What a message asserts stays true. -/
theorem MessageSim.mono {m : Message} (h : C.MessageSim a m) (hx : Extends a a') :
    C.MessageSim a' m := by
  cases m with
  | voteRequest dst req =>
    obtain ⟨hm, hne, l, hl, hi⟩ := h
    exact ⟨hm, hne, l, hx.cand hl, hi⟩
  | voteResponse src dst term resp => exact ⟨h.1, h.2.1, fun hg => hx.vote (h.2.2 hg)⟩
  | appendRequest dst req =>
    obtain ⟨q, hq⟩ := h
    exact ⟨q, hq.mono hx⟩
  | appendResponse src dst req resp => exact fun hs => (h hs).trans (hx.ack _ _)
  | installRequest dst req => exact InstallSim.mono h hx
  | installResponse src dst req resp => exact fun ht => (h ht).trans (hx.ack _ _)

theorem InputSim.mono {i : Input} (h : C.InputSim a n i) (hx : Extends a a') :
    C.InputSim a' n i := fun m hm => (h m hm).mono hx

/-- A move of another node does not concern this one. -/
theorem PeerSim.frame {m : Int} {p : Peer} (h : PeerSim a m p) (hne : m ≠ n)
    (hf : Frame n a a') (hx : Extends a a') : PeerSim a' m p where
  term := (hf.term m hne).trans h.term
  vote := by rw [hf.vote m hne]; exact h.vote
  log := (hf.log m hne).trans h.log
  commit := (hf.commit m hne).trans h.commit
  candidate hc := by
    rw [hf.cand m hne, Ne, hf.lead m hne]
    exact h.candidate hc
  leader hl := hx.lead (h.leader hl)
  election e he := hx.vote (h.election e he)
  matched hl q k hk := (h.matched hl q k hk).trans (hx.ack _ _)

/-! ## Logs and requests -/

/-- The request's previous entry is where both logs agree. -/
theorem take_eq_of_termAt {tlog : Nat → List LogEntry} {l q : List LogEntry} {k t : Nat}
    (hl : Grown C.protocol tlog l) (hq : Grown C.protocol tlog q) (h : termAt l k = some t)
    (h' : termAt q k = some t) : l.take k = q.take k := by
  cases k with
  | zero => rfl
  | succ k =>
    rw [termAt_succ, Option.map_eq_some_iff] at h h'
    obtain ⟨x, hx, hxt⟩ := h
    obtain ⟨y, hy, hyt⟩ := h'
    exact hl.matching hq hx hy (hxt.trans hyt.symm)

theorem AppendSim.getElem? {req : AppendEntriesRequest} {q : List LogEntry}
    (h : C.AppendSim a req q) (j : Nat) : q[req.prevLogIndex + j]? = req.entries[j]? := by
  rw [← h.entries, List.getElem?_drop]

theorem AppendSim.take_eq {req : AppendEntriesRequest} {q l : List LogEntry} {m : Nat}
    (h : C.AppendSim a req q) (hi : Inv C.protocol a) (hl : Grown C.protocol a.tlog l)
    (ha : Agrees l req m) : l.take (req.prevLogIndex + m) = q.take (req.prevLogIndex + m) := by
  have hq := (hi.tlog_grown _).of_isPrefix h.isPrefix
  have hprev := take_eq_of_termAt hl hq ha.1 h.prevTerm
  have hle := termAt_le_length ha.1
  apply List.ext_getElem?
  intro k
  rcases Nat.lt_or_ge k (req.prevLogIndex + m) with hk | hk
  · rw [List.getElem?_take_of_lt hk, List.getElem?_take_of_lt hk]
    rcases Nat.lt_or_ge k req.prevLogIndex with hkp | hkp
    · have := congrArg (fun x : List LogEntry => x[k]?) hprev
      simpa only [List.getElem?_take_of_lt hkp] using this
    · obtain ⟨j, rfl⟩ : ∃ j, k = req.prevLogIndex + j := ⟨k - req.prevLogIndex, by omega⟩
      obtain ⟨e, he, hle⟩ := ha.2 j (by omega)
      rw [hle, h.getElem?, he]
  · rw [List.getElem?_eq_none (by rw [List.length_take]; omega),
      List.getElem?_eq_none (by rw [List.length_take]; omega)]

/-- A log that agrees with the whole request contains the prefix it came from. -/
theorem AppendSim.isPrefix_of_agrees {req : AppendEntriesRequest} {q l : List LogEntry}
    (h : C.AppendSim a req q) (hi : Inv C.protocol a) (hl : Grown C.protocol a.tlog l)
    (ha : Agrees l req req.entries.length) : q <+: l := by
  have := h.take_eq hi hl ha
  rw [← h.length, List.take_length] at this
  rw [← this]
  exact List.take_prefix _ _

/-! ## Steps of a peer are moves of the history -/

/-- A change that the history does not record. -/
theorem PeerSim.volatile {p p' : Peer} (h : PeerSim a n p) (ht : p'.term = p.term)
    (hv : p'.vote = p.vote) (hh : p'.history = p.history) (hc : p'.commit = p.commit)
    (hr : p'.role = .follower ∨ p'.role = p.role)
    (he : ∀ e, p'.election = some e → ∃ e', p.election = some e' ∧ e.term = e'.term)
    (hm : p'.role = .leader → ∀ q m, p'.matchIndex q = some m → m ≤ a.ack q p.term) :
    PeerSim a n p' where
  term := h.term.trans ht.symm
  vote := by rw [ht, hv]; exact h.vote
  log := h.log.trans hh.symm
  commit := h.commit.trans hc.symm
  candidate hcand := by
    rcases hr with hr | hr
    · rw [hr] at hcand; cases hcand
    · rw [ht, hh]; exact h.candidate (hr ▸ hcand)
  leader hl := by
    rcases hr with hr | hr
    · rw [hr] at hl; cases hl
    · rw [ht]; exact h.leader (hr ▸ hl)
  election e hel := by
    obtain ⟨e', he', hterm⟩ := he e hel
    rw [hterm]
    exact h.election e' he'
  matched hl q m hq := by rw [ht]; exact hm hl q m hq

variable {p p' : Peer} (hi : Inv C.protocol a) (h : PeerSim a n p)

include hi h

theorem PeerSim.own_log (hl : p.role = .leader) :
    p.history = a.tlog p.term ∧ a.ack n p.term = p.history.length := by
  have := hi.own_log (n := n) (by rw [h.term]; exact h.leader hl)
  rw [h.term, h.log] at this
  exact ⟨this.1, this.1 ▸ this.2⟩

theorem raise_sim {t : Nat} (ht : p.term < t) :
    ∃ a', Moves C.protocol n a a' ∧
      PeerSim a' n { p with term := t, vote := noVote, role := .follower } := by
  rw [← h.term] at ht
  have hs : Consensus.Step C.protocol n a _ := .advance a t ht
  refine ⟨_, hs.moves hi, ?_⟩
  exact
    { term := by simp
      vote := by simpa using hi.vote_none ht
      log := h.log
      commit := h.commit
      candidate := fun hc => by cases hc
      leader := fun hl => by cases hl
      election := h.election
      matched := fun hl => by cases hl }

theorem stand_sim (hn : n ∈ C.members) :
    ∃ a', Moves C.protocol n a a' ∧
      PeerSim a' n { p with
        term := p.term + 1, vote := (C.env n).id, role := .candidate
        election := some ⟨p.term + 1, 1, []⟩ } := by
  have hs : Consensus.Step C.protocol n a _ := .stand a
  refine ⟨_, hs.moves hi, ?_⟩
  have hid : n ≠ noVote := by
    have := nonneg hn
    unfold noVote
    omega
  rw [env_id hn]
  exact
    { term := by simp [h.term]
      vote := by simp [Consensus.update₂_apply, h.term, hid]
      log := h.log
      commit := h.commit
      candidate := fun _ => by
        refine ⟨by simp [Consensus.update₂_apply, h.term, h.log], fun hl => ?_⟩
        obtain ⟨l, hl, _⟩ := hi.lead_cand hl
        have hle : p.term + 1 ≤ a.term n := hi.cand_le hl
        rw [h.term] at hle
        omega
      leader := fun hl => by cases hl
      election := fun e he => by
        rw [← Option.some.inj he]
        simp [Consensus.update₂_apply, h.term]
      matched := fun hl => by cases hl }

theorem vote_sim {req : RequestVoteRequest} (hin : C.InputSim a n (.voteRequest req))
    (ht : p.term = req.term) (hv : p.vote = noVote ∨ p.vote = req.candidateID)
    (hu : lastTerm p.history < req.lastLogTerm ∨
      req.lastLogTerm = lastTerm p.history ∧ p.history.length ≤ req.lastLogIndex) :
    ∃ a', Moves C.protocol n a a' ∧ PeerSim a' n { p with vote := req.candidateID } := by
  obtain ⟨hmem, hne, l, hl, hidx, hterm⟩ := hin _ rfl
  have hid : req.candidateID ≠ noVote := by
    have := nonneg hmem
    unfold noVote
    omega
  have hvote : a.vote n (a.term n) = none ∨ a.vote n (a.term n) = some req.candidateID := by
    rw [h.term, h.vote]
    rcases hv with hv | hv
    · exact .inl (if_pos hv)
    · exact .inr (by rw [if_neg (hv ▸ hid), hv])
  have hup : Consensus.UpToDate C.protocol l (a.log n) := by
    rw [h.log]
    rw [hterm, hidx] at hu
    exact hu
  rw [← ht, ← h.term] at hl
  have hs : Consensus.Step C.protocol n a _ := .grant a req.candidateID l hvote hl hup
  refine ⟨_, hs.moves hi, ?_⟩
  exact
    { h with
      vote := by simp [Consensus.update₂_apply, h.term, hid]
      election := fun e he => (hs.extends hi).vote (h.election e he) }

theorem win_sim (hn : n ∈ C.members) {peer : Int} {resp : RequestVoteResponse} {e : Election}
    (hin : C.InputSim a n (.voteResponse peer p.term resp)) (he : p.Awaits e peer p.term)
    (hc : p.role = .candidate) (hr : resp.voteGranted = true ∧ resp.term = p.term) :
    ∃ a', Moves C.protocol n a a' ∧ PeerSim a' n { p with
      history := p.history ++ [noopEntry (p.history.length + 1) p.term]
      role := .leader
      matchIndex := fun q => if q ∈ (C.env n).peers then some 0 else none
      election := none } := by
  obtain ⟨hmem, hne, hgranted⟩ := hin _ rfl
  have hpeer := hgranted hr.1
  rw [hr.2] at hpeer
  have hself := h.election e he.1
  rw [he.2.1] at hself
  obtain ⟨hcand, hlead⟩ := h.candidate hc
  have hquorum : C.protocol.Quorum {v | v = n ∨ v = peer} :=
    ⟨n, peer, hn, hmem, hne.symm, .inl rfl, .inr rfl⟩
  have hs : Consensus.Step C.protocol n a _ :=
    .elect a {v | v = n ∨ v = peer} (noopEntry (p.history.length + 1) p.term)
      (by rw [h.term, h.log]; exact hcand) (by rw [h.term]; exact hlead) hquorum
      (by rw [h.term]; rintro v (rfl | rfl); exacts [hself, hpeer]) (by rw [h.term]; rfl)
  refine ⟨_, hs.moves hi, ?_⟩
  exact
    { term := h.term
      vote := h.vote
      log := by simp [h.log]
      commit := h.commit
      candidate := fun hc => by cases hc
      leader := fun _ => by simp [h.term]
      election := fun e he => by cases he
      matched := fun _ q m hq => by
        dsimp only at hq
        split at hq
        · rw [← Option.some.inj hq]
          exact Nat.zero_le _
        · cases hq }

theorem propose_sim {command : Command} (hl : p.role = .leader) :
    ∃ a', Moves C.protocol n a a' ∧ PeerSim a' n { p with
      history := p.history ++ [proposedEntry (p.history.length + 1) p.term command] } := by
  have hs : Consensus.Step C.protocol n a _ :=
    .extend a (proposedEntry (p.history.length + 1) p.term command)
      (by rw [h.term]; exact h.leader hl) (by rw [h.term]; rfl)
  refine ⟨_, hs.moves hi, ?_⟩
  exact
    { h with
      log := by simp [h.log]
      candidate := fun hc => by rw [show p.role = .candidate from hc] at hl; cases hl
      matched := fun hl q m hq => (h.matched hl q m hq).trans ((hs.extends hi).ack _ _) }

omit hi in
/-- Changing the log of a follower. -/
theorem PeerSim.setLog (hf : p.role = .follower) (l : List LogEntry) :
    PeerSim { a with log := Function.update a.log n l } n { p with history := l } :=
  { h with
    log := by simp
    candidate := fun hc => by rw [show p.role = .candidate from hc] at hf; cases hf }

theorem truncate_sim {req : AppendEntriesRequest} {m : Nat} {x e : LogEntry}
    (hin : C.InputSim a n (.appendRequest req)) (ht : p.term = req.term)
    (hf : p.role = .follower) (ha : Agrees p.history req m)
    (hx : p.history[req.prevLogIndex + m]? = some x) (he : req.entries[m]? = some e)
    (hne : x.term ≠ e.term) :
    ∃ a', Moves C.protocol n a a' ∧
      PeerSim a' n { p with history := p.history.take (req.prevLogIndex + m) } := by
  obtain ⟨q, hq⟩ := hin _ rfl
  have htake := hq.take_eq hi (h.log ▸ hi.log_grown n) ha
  have hqe : q[req.prevLogIndex + m]? = some e := (hq.getElem? m).trans he
  have hte : (a.tlog (a.term n))[req.prevLogIndex + m]? = some e := by
    rw [h.term, ht]
    exact Consensus.getElem?_of_isPrefix hq.isPrefix hqe
  have hs : Consensus.Step C.protocol n a _ := .truncate a (req.prevLogIndex + m)
    (by rw [h.log]; exact (List.getElem?_eq_some_iff.mp hx).1)
    (List.getElem?_eq_some_iff.mp hte).1
    (by
      rw [h.log, htake, h.term, ht]
      exact (List.take_prefix _ _).trans hq.isPrefix)
    (by
      rw [h.log, hx, hte]
      intro hcon
      exact hne (congrArg LogEntry.term (Option.some.inj hcon)))
  refine ⟨_, hs.moves hi, ?_⟩
  rw [h.log]
  exact h.setLog hf _

theorem append_sim {req : AppendEntriesRequest} {m k : Nat}
    (hin : C.InputSim a n (.appendRequest req)) (ht : p.term = req.term)
    (hf : p.role = .follower) (ha : Agrees p.history req m)
    (hl : p.history.length = req.prevLogIndex + m) :
    ∃ a', Moves C.protocol n a a' ∧
      PeerSim a' n { p with history := p.history ++ (req.entries.drop m).take k } := by
  obtain ⟨q, hq⟩ := hin _ rfl
  have htake := hq.take_eq hi (h.log ▸ hi.log_grown n) ha
  rw [← hl, List.take_length] at htake
  have hjoin : p.history ++ req.entries.drop m = q := by
    have hdrop : req.entries.drop m = q.drop p.history.length := by
      rw [← hq.entries, List.drop_drop, hl]
    rw [hdrop]
    conv_lhs => rw [htake]
    rw [List.length_take, Nat.min_eq_left, List.take_append_drop]
    rw [hq.length, hl]
    have := ha.le_length
    omega
  have hpre : p.history ++ (req.entries.drop m).take k <+: q := by
    rw [← hjoin]
    exact List.prefix_append_right_inj _ |>.mpr (List.take_prefix _ _)
  have hs : Consensus.Step C.protocol n a _ :=
    .fill a (p.history ++ (req.entries.drop m).take k)
      (by rw [h.log]; exact List.prefix_append _ _)
      (by rw [h.term, ht]; exact hpre.trans hq.isPrefix)
  exact ⟨_, hs.moves hi, h.setLog hf _⟩

theorem commit_sim {k : Nat} (hk : k ≤ p.history.length)
    (hc : Committed C.protocol a p.term (p.history.take k)) :
    ∃ a', Moves C.protocol n a a' ∧ PeerSim a' n { p with commit := k } := by
  have hs : Consensus.Step C.protocol n a _ :=
    .commit a k (by rw [h.log]; exact hk) (by rw [h.term, h.log]; exact hc)
  refine ⟨_, hs.moves hi, ?_⟩
  exact { h with commit := by simp }

theorem followCommit_sim {req : AppendEntriesRequest} (hin : C.InputSim a n (.appendRequest req))
    (ht : p.term = req.term) (ha : Agrees p.history req req.entries.length) :
    ∃ a', Moves C.protocol n a a' ∧
      PeerSim a' n { p with commit := min req.leaderCommit p.history.length } := by
  obtain ⟨q, hq⟩ := hin _ rfl
  have hpre := hq.isPrefix_of_agrees hi (h.log ▸ hi.log_grown n) ha
  have hmin : min req.leaderCommit p.history.length = req.leaderCommit :=
    Nat.min_eq_left (hq.commit_le.trans hpre.length_le)
  rw [hmin]
  refine commit_sim hi h (hq.commit_le.trans hpre.length_le) ?_
  rw [ht, Consensus.take_of_isPrefix hpre hq.commit_le]
  exact hq.committed

theorem PeerSim.commit_le : p.commit ≤ p.history.length := by
  have := hi.commit_le n
  rwa [h.commit, h.log] at this

theorem PeerSim.committed : Committed C.protocol a p.term (p.history.take p.commit) := by
  have := hi.committed n
  rwa [h.commit, h.log, h.term] at this

theorem install_sim {req : InstallSnapshotRequest} (hin : C.InputSim a n (.installRequest req))
    (ht : p.term = req.term) (hf : p.role = .follower) :
    ∃ a', Moves C.protocol n a a' ∧ PeerSim a' n { p with
      history := installedLog p.history req
      commit := max p.commit req.lastIncludedIndex } := by
  have hreq : C.InstallSim a req := hin _ rfl
  have hcov : req.covers <+: a.tlog (a.term n) := by rw [h.term, ht]; exact hreq.isPrefix
  have hgrown : Grown C.protocol a.tlog p.history := h.log ▸ hi.log_grown n
  have hterm : termAt req.covers req.lastIncludedIndex = some req.lastIncludedTerm := by
    rw [← hreq.length, termAt_length, hreq.term]
  have hle := h.commit_le hi
  by_cases hm : termAt p.history req.lastIncludedIndex = some req.lastIncludedTerm
  · -- the boundary entry is there, so the log already starts with the snapshot's entries
    have htake := take_eq_of_termAt hgrown ((hi.tlog_grown _).of_isPrefix hcov) hm hterm
    rw [List.take_of_length_le hreq.length.le] at htake
    have hsame : installedLog p.history req = p.history := by
      rw [installedLog, if_pos hm, ← htake, List.take_append_drop]
    rw [hsame]
    refine commit_sim hi h (max_le hle (termAt_le_length hm)) ?_
    rcases Nat.le_total p.commit req.lastIncludedIndex with hc | hc
    · rw [max_eq_right hc, htake, ht]
      exact hreq.committed
    · rw [max_eq_left hc]
      exact h.committed hi
  · have hnot : ¬ req.covers <+: p.history := fun hp =>
      hm (by rw [termAt_of_isPrefix hp hreq.length.ge, hterm])
    have hnew : installedLog p.history req = req.covers := by
      rw [installedLog, if_neg hm, List.append_nil]
    have hcommit : p.commit ≤ req.lastIncludedIndex := by
      rcases hi.committed_comparable (h.committed hi) hreq.committed with hp | hp
      · have := hp.length_le
        rwa [List.length_take, Nat.min_eq_left hle, hreq.length] at this
      · exact absurd (hp.trans (List.take_prefix _ _)) hnot
    have hadopt := hi.adopt hcov (by rw [h.log]; exact hnot)
    have h₁ := h.setLog hf req.covers
    obtain ⟨a', hmoves, h₂⟩ := commit_sim (k := req.lastIncludedIndex) hadopt.inv h₁
      hreq.length.ge (by
        rw [List.take_of_length_le hreq.length.le]
        exact ht ▸ hreq.committed.mono hadopt.extends_ le_rfl)
    rw [hnew, max_eq_right hcommit]
    exact ⟨a', hadopt.trans hmoves, h₂⟩

omit hi in
theorem recordMatch_sim {peer : Int} {index : Nat}
    (hack : p.role = .leader → index ≤ a.ack peer p.term) :
    PeerSim a n (p.recordMatch peer index) := by
  refine h.volatile rfl rfl rfl rfl (.inr rfl) (fun e he => ⟨e, he, rfl⟩) fun hl q m hq => ?_
  simp only [Peer.recordMatch] at hq
  split at hq
  · unfold setAt at hq
    split at hq
    · rename_i hqp
      rw [hqp, ← Option.some.inj hq]
      exact hack hl
    · exact h.matched hl q m hq
  · exact h.matched hl q m hq

omit hi in
theorem setMatch_sim {peer : Int} {index : Nat}
    (hack : p.role = .leader → index ≤ a.ack peer p.term) :
    PeerSim a n { p with matchIndex := setAt p.matchIndex peer index } := by
  refine h.volatile rfl rfl rfl rfl (.inr rfl) (fun e he => ⟨e, he, rfl⟩) fun hl q m hq => ?_
  simp only [setAt] at hq
  split at hq
  · rename_i hqp
    rw [hqp, ← Option.some.inj hq]
    exact hack hl
  · exact h.matched hl q m hq

/-- A leader that counts a majority for an entry of its term has it chosen. -/
theorem PeerSim.chosen (hn : n ∈ C.members) {index : Nat} (hl : p.role = .leader)
    (hpos : 0 < index) (ht : termAt p.history index = some p.term)
    (hm : (C.env n).majority ≤ p.matched (C.env n) index) :
    Consensus.Chosen C.protocol a p.term index := by
  obtain ⟨hlog, hack⟩ := h.own_log hi hl
  obtain ⟨k, rfl⟩ : ∃ k, index = k + 1 := ⟨index - 1, by omega⟩
  have hle := termAt_le_length ht
  rw [termAt_succ, Option.map_eq_some_iff] at ht
  obtain ⟨e, he, hterm⟩ := ht
  refine ⟨⟨hpos, e, by rw [← hlog]; exact he, hterm⟩, ?_⟩
  rw [Env.majority_eq (cfg_ok hn), Peer.matched] at hm
  have hne : (C.env n).peers.filter (fun q => (p.matchIndex q).getD 0 ≥ k + 1) ≠ [] := by
    intro hnil
    rw [hnil] at hm
    simp at hm
  obtain ⟨q, hq⟩ := List.exists_mem_of_ne_nil _ hne
  rw [List.mem_filter, decide_eq_true_eq] at hq
  obtain ⟨hqp, hqm⟩ := hq
  obtain ⟨hqmem, hqn⟩ := (mem_peers hn).mp hqp
  refine ⟨{v | v = n ∨ v = q}, ⟨n, q, hn, hqmem, hqn.symm, .inl rfl, .inr rfl⟩, ?_⟩
  rintro v (rfl | rfl)
  · rw [hack]; exact hle
  · cases hmi : p.matchIndex v with
    | none => rw [hmi] at hqm; simp at hqm
    | some m =>
      rw [hmi] at hqm
      exact hqm.trans (h.matched hl v m hmi)

theorem advance_sim (hn : n ∈ C.members) {index : Nat} (hl : p.role = .leader)
    (hc : p.commit < index) (ht : termAt p.history index = some p.term)
    (hm : (C.env n).majority ≤ p.matched (C.env n) index) :
    ∃ a', Moves C.protocol n a a' ∧ PeerSim a' n { p with commit := index } := by
  have hchosen := h.chosen hi hn hl (by omega) ht hm
  refine commit_sim hi h (termAt_le_length ht) (.inr ⟨p.term, index, le_rfl, hchosen, ?_⟩)
  rw [(h.own_log hi hl).1]

/-- Every step of a peer is a move of the history. -/
theorem stepSim (hn : n ∈ C.members) {i : Input} (hin : C.InputSim a n i)
    (hs : p.Step (C.env n) i p') : ∃ a', Moves C.protocol n a a' ∧ PeerSim a' n p' := by
  cases hs with
  | raise _ _ t ht => exact raise_sim hi h ht
  | follow =>
    exact ⟨a, .refl hi, h.volatile rfl rfl rfl rfl (.inl rfl) (fun e he => ⟨e, he, rfl⟩)
      fun hl => by cases hl⟩
  | crash =>
    exact ⟨a, .refl hi, h.volatile rfl rfl rfl rfl (.inl rfl) (fun e he => by cases he)
      fun hl => by cases hl⟩
  | stand => exact stand_sim hi h hn
  | vote _ req ht hv hu => exact vote_sim hi h hin ht hv hu
  | count _ peer term resp e he =>
    refine ⟨a, .refl hi, h.volatile rfl rfl rfl rfl (.inr rfl) (fun e' he' => ?_) h.matched⟩
    exact ⟨e, he.1, by rw [← Option.some.inj he']⟩
  | lose _ peer term resp =>
    exact ⟨a, .refl hi, h.volatile rfl rfl rfl rfl (.inr rfl) (fun e he => by cases he)
      h.matched⟩
  | win _ peer resp e he hc hr hm => exact win_sim hi h hn hin he hc hr
  | truncate _ req m x e ht hf ha hx he hne hc => exact truncate_sim hi h hin ht hf ha hx he hne
  | append _ req m k ht hf ha hl => exact append_sim hi h hin ht hf ha hl
  | followCommit _ req ht ha hc => exact followCommit_sim hi h hin ht ha
  | install _ req ht hf => exact install_sim hi h hin ht hf
  | propose _ command hl => exact propose_sim hi h hl
  | recordAppend _ peer req resp hl ht hr hs =>
    exact ⟨a, .refl hi, recordMatch_sim h fun _ => ht ▸ hin _ rfl hs⟩
  | recordInstall _ peer req resp hl ht hr =>
    exact ⟨a, .refl hi, setMatch_sim h fun _ => ht ▸ hin _ rfl (hr.trans ht.symm)⟩
  | advance _ peer req resp index hl hc ht hm => exact advance_sim hi h hn hl hc ht hm

theorem stepsSim (hn : n ∈ C.members) {i : Input} (hin : C.InputSim a n i)
    (hs : p.Steps (C.env n) i p') : ∃ a', Moves C.protocol n a a' ∧ PeerSim a' n p' := by
  induction hs with
  | refl => exact ⟨a, .refl hi, h⟩
  | tail _ hstep ih =>
    obtain ⟨b, hmoves, hb⟩ := ih
    obtain ⟨a', hmoves', ha'⟩ := stepSim hmoves.inv hb hn (hin.mono hmoves.extends_) hstep
    exact ⟨a', hmoves.trans hmoves', ha'⟩

end Cluster

end DistributedKv
