import DistributedKv.Raft.Step
import Mathlib.Logic.Relation

/-!
What a node is to the rest of the cluster: its term and ballot, its log as if
nothing had ever been compacted, how much of it is committed, and its role with
the bookkeeping of an election or of a leader. `Raft.peer` reads it off a
running node and `Disk.peer` off the files of a stopped one. `Peer.Step` lists
the atomic changes that an input can make to it; compaction and the apply loop
are not among them.
-/

namespace DistributedKv

structure Peer where
  term : Nat
  vote : Int
  history : List LogEntry
  commit : Nat
  role : State
  election : Option Election
  matchIndex : Int → Option Nat

def lastTerm (l : List LogEntry) : Nat := (l.getLast?.map LogEntry.term).getD 0

/-- The term at an index of an uncompacted log; index zero has term zero. -/
def termAt (l : List LogEntry) (index : Nat) : Option Nat :=
  if index = 0 then some 0 else l[index - 1]?.map LogEntry.term

variable {σ : Type}

def Raft.history (r : Raft σ) : List LogEntry := r.covered ++ r.log

def Raft.peer (r : Raft σ) : Peer :=
  ⟨r.currentTerm, r.votedFor, r.history, r.commitIndex, r.state, r.election, r.matchIndex⟩

/-- What `recoverLogAfterSnapshot` leaves of a stored log. -/
def Snapshot.retained (s : Snapshot) (log : List LogEntry) : List LogEntry :=
  match log with
  | [] => []
  | first :: _ =>
      if first.index = s.lastIncludedIndex + 1 then log
      else if boundaryMatches log first.index s.metadata = true then
        log.drop (s.lastIncludedIndex + 1 - first.index)
      else []

namespace Disk

/-- The log that a restart recovers. -/
def recoveredLog (d : Disk) : List LogEntry :=
  match d.snapshot with
  | none => d.log
  | some s => s.retained d.log

/-- The entries that the stored snapshot stands for. -/
def covers (d : Disk) : List LogEntry := (d.snapshot.map Snapshot.covers).getD []

/-- The uncompacted log of a stopped node. -/
def history (d : Disk) : List LogEntry := d.covers ++ d.recoveredLog

/-- The snapshot boundary, zero when there is no snapshot. -/
def boundary (d : Disk) : Nat := (d.snapshot.map Snapshot.lastIncludedIndex).getD 0

def peer (d : Disk) : Peer :=
  ⟨d.stable.currentTerm, d.stable.votedFor, d.history, max d.stable.commitIndex d.boundary,
    .follower, none, fun _ => none⟩

end Disk

/-! ## What a message says about a log -/

/-- The log has the request's previous entry and the first `m` of its entries. -/
def Agrees (l : List LogEntry) (req : AppendEntriesRequest) (m : Nat) : Prop :=
  termAt l req.prevLogIndex = some req.prevLogTerm ∧
    ∀ j < m, ∃ e, req.entries[j]? = some e ∧ l[req.prevLogIndex + j]? = some e

/-- The log after installing a snapshot: the suffix is kept when the entry at
the boundary has the snapshot's term. -/
def installedLog (l : List LogEntry) (req : InstallSnapshotRequest) : List LogEntry :=
  req.covers ++
    if termAt l req.lastIncludedIndex = some req.lastIncludedTerm then l.drop req.lastIncludedIndex
    else []

namespace Peer

variable (env : Env σ)

/-- The leader and the peers known to hold the entry at `index`. -/
def matched (p : Peer) (index : Nat) : Nat :=
  1 + (env.peers.filter fun q => (p.matchIndex q).getD 0 ≥ index).length

def recordMatch (p : Peer) (peerID : Int) (index : Nat) : Peer :=
  { p with matchIndex :=
      if index > (p.matchIndex peerID).getD 0 then setAt p.matchIndex peerID index
      else p.matchIndex }

/-- The response is the first one of its peer to the running election. -/
def Awaits (p : Peer) (e : Election) (peer : Int) (term : Nat) : Prop :=
  p.election = some e ∧ e.term = term ∧ peer ∉ e.responded

/-- The atomic changes that an input makes. -/
inductive Step : Input → Peer → Peer → Prop
  | raise (i p) (term : Nat) (h : p.term < term) :
      Step i p { p with term := term, vote := noVote, role := .follower }
  | follow (i p) : Step i p { p with role := .follower }
  | crash (i p) : Step i p { p with role := .follower, election := none, matchIndex := fun _ => none }
  | stand (p) :
      Step .electionTimeout p { p with
        term := p.term + 1, vote := env.id, role := .candidate
        election := some ⟨p.term + 1, 1, []⟩ }
  | vote (p) (req : RequestVoteRequest) (ht : p.term = req.term)
      (hv : p.vote = noVote ∨ p.vote = req.candidateID)
      (hu : lastTerm p.history < req.lastLogTerm ∨
        req.lastLogTerm = lastTerm p.history ∧ p.history.length ≤ req.lastLogIndex) :
      Step (.voteRequest req) p { p with vote := req.candidateID }
  | count (p) (peer : Int) (term : Nat) (resp : RequestVoteResponse) (e : Election)
      (he : p.Awaits e peer term) :
      Step (.voteResponse peer term resp) p { p with
        election := some ⟨e.term,
          if resp.term = e.term ∧ resp.voteGranted = true then e.votes + 1 else e.votes,
          peer :: e.responded⟩ }
  | lose (p) (peer : Int) (term : Nat) (resp : RequestVoteResponse) :
      Step (.voteResponse peer term resp) p { p with election := none }
  | win (p) (peer : Int) (resp : RequestVoteResponse) (e : Election)
      (he : p.Awaits e peer p.term) (hc : p.role = .candidate)
      (hr : resp.voteGranted = true ∧ resp.term = p.term) (hm : env.majority ≤ e.votes + 1) :
      Step (.voteResponse peer p.term resp) p { p with
        history := p.history ++ [noopEntry (p.history.length + 1) p.term]
        role := .leader
        matchIndex := fun q => if q ∈ env.peers then some 0 else none
        election := none }
  | truncate (p) (req : AppendEntriesRequest) (m : Nat) (x e : LogEntry) (ht : p.term = req.term)
      (hf : p.role = .follower) (ha : Agrees p.history req m) (hx : p.history[req.prevLogIndex + m]? = some x)
      (he : req.entries[m]? = some e) (hne : x.term ≠ e.term)
      (hc : p.commit ≤ req.prevLogIndex + m) :
      Step (.appendRequest req) p { p with history := p.history.take (req.prevLogIndex + m) }
  | append (p) (req : AppendEntriesRequest) (m k : Nat) (ht : p.term = req.term)
      (hf : p.role = .follower) (ha : Agrees p.history req m) (hl : p.history.length = req.prevLogIndex + m) :
      Step (.appendRequest req) p { p with
        history := p.history ++ (req.entries.drop m).take k }
  | followCommit (p) (req : AppendEntriesRequest) (ht : p.term = req.term)
      (ha : Agrees p.history req req.entries.length)
      (hc : p.commit < min req.leaderCommit p.history.length) :
      Step (.appendRequest req) p { p with commit := min req.leaderCommit p.history.length }
  | install (p) (req : InstallSnapshotRequest) (ht : p.term = req.term)
      (hf : p.role = .follower) :
      Step (.installRequest req) p { p with
        history := installedLog p.history req
        commit := max p.commit req.lastIncludedIndex }
  | propose (p) (command : Command) (hl : p.role = .leader) :
      Step (.propose command) p { p with
        history := p.history ++ [proposedEntry (p.history.length + 1) p.term command] }
  | recordAppend (p) (peer : Int) (req : AppendEntriesRequest) (resp : AppendEntriesResponse)
      (hl : p.role = .leader) (ht : req.term = p.term) (hr : resp.term = p.term)
      (hs : resp.success = true) :
      Step (.appendResponse peer req resp) p
        (p.recordMatch peer (req.prevLogIndex + req.entries.length))
  | recordInstall (p) (peer : Int) (req : InstallSnapshotRequest) (resp : InstallSnapshotResponse)
      (hl : p.role = .leader) (ht : req.term = p.term) (hr : resp.term = p.term) :
      Step (.installResponse peer req resp) p { p with
        matchIndex := setAt p.matchIndex peer req.lastIncludedIndex }
  | advance (p) (peer : Int) (req : AppendEntriesRequest) (resp : AppendEntriesResponse)
      (index : Nat) (hl : p.role = .leader) (hc : p.commit < index)
      (ht : termAt p.history index = some p.term) (hm : env.majority ≤ p.matched env index) :
      Step (.appendResponse peer req resp) p { p with commit := index }

abbrev Steps (i : Input) : Peer → Peer → Prop := Relation.ReflTransGen (Step env i)

/-- What an output tells about the node that makes it. `Encodes` relates a
snapshot's entries to its data. -/
def Emits (Encodes : List LogEntry → Bytes → Prop) (p : Peer) : Input → Output → Prop
  | _, .none => True
  | .electionTimeout, .voteRequest req =>
      p.role = .candidate ∧ req = ⟨p.term, env.id, p.history.length, lastTerm p.history⟩
  | .voteRequest req, .voteResponse resp =>
      resp.voteGranted = true → p.term = req.term ∧ resp.term = req.term ∧ p.vote = req.candidateID
  | .appendRequest req, .appendResponse resp =>
      resp.success = true → p.term = req.term ∧ resp.term = req.term ∧
        Agrees p.history req req.entries.length
  | .installRequest req, .installResponse resp =>
      resp.term = req.term → p.term = req.term ∧ req.lastIncludedIndex ≤ p.commit
  | .sendAppend _, .appendRequest _ req =>
      p.role = .leader ∧ req.term = p.term ∧ req.leaderID = env.id ∧
        req.prevLogIndex ≤ p.history.length ∧
        termAt p.history req.prevLogIndex = some req.prevLogTerm ∧
        req.entries = p.history.drop req.prevLogIndex ∧ req.leaderCommit = p.commit
  | .sendInstall _, .installRequest _ req =>
      p.role = .leader ∧ req.term = p.term ∧ req.leaderID = env.id ∧
        req.lastIncludedIndex ≤ p.commit ∧ req.covers = p.history.take req.lastIncludedIndex ∧
        req.lastIncludedTerm = lastTerm req.covers ∧ Encodes req.covers req.data
  | .propose _, .proposed _ _ => True
  | .applyCheckpoint, .completed _ _ => True
  | _, _ => False

end Peer

end DistributedKv
