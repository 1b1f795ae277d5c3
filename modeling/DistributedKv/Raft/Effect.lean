import DistributedKv.Raft.Step
import Mathlib.Logic.Relation

/-!
Everything that a step can do to the memory of a node, whatever the stores
answer: `Effect` lists the changes with the conditions under which the code
makes them, and `react_effects` shows that a step is a sequence of them, no
matter which store calls fail, fail after writing, or kill the process. The only
thing said about the files is that the stored ballot is never behind the one in
memory (`Ahead`).
-/

namespace DistributedKv

open Crash Prog

variable {σ : Type}

/-- Every answer is permitted. -/
def Any : Outcome → Prop := fun _ => True

/-- The request names `leaderID` as the leader of `term`. -/
def Input.Claims : Input → Nat → Int → Prop
  | .appendRequest req, term, leaderID => req.term = term ∧ req.leaderID = leaderID
  | .installRequest req, term, leaderID => req.term = term ∧ req.leaderID = leaderID
  | _, _, _ => False

/-- What a leader sends to the other nodes. -/
def Input.IsRequest : Input → Prop
  | .appendRequest _ => True
  | .installRequest _ => True
  | _ => False

/-- A response to a replication request. -/
def Input.IsReply : Input → Prop
  | .appendResponse _ _ _ => True
  | .installResponse _ _ _ => True
  | _ => False

namespace Raft

/-- The log that is left after truncating from an index, zero for not at all. -/
def cutAt (r : Raft σ) (truncateFrom : Nat) : Option (List LogEntry) :=
  if truncateFrom = 0 then some r.log else (r.logOffsetLocked truncateFrom).map r.log.take

/-- The plan of a request that passes the checks of its term and of the entry
before its own. -/
def appendPlan (r : Raft σ) (req : AppendEntriesRequest) : Option (Nat × List LogEntry) :=
  if r.currentTerm ≤ req.term ∧ r.matchesPrefixLocked req.prevLogIndex req.prevLogTerm = true then
    (r.replicationPlanLocked req.prevLogIndex req.entries).toOption
  else none

/-- The request passes every check of the handler before it stores anything. -/
structure Accepts (r : Raft σ) (req : InstallSnapshotRequest) : Prop where
  term : r.currentTerm ≤ req.term
  metadata : SnapshotMetadata.validate ⟨req.lastIncludedIndex, req.lastIncludedTerm⟩ = .ok ()
  data : req.data ≠ []
  above : r.lastApplied < req.lastIncludedIndex
  free : r.apply.holdsSnapshotMu = false

/-- The leader has been recognized, and the request is about to be installed. -/
structure Installs (r : Raft σ) (req : InstallSnapshotRequest) : Prop where
  term : r.currentTerm = req.term
  metadata : SnapshotMetadata.validate ⟨req.lastIncludedIndex, req.lastIncludedTerm⟩ = .ok ()
  data : req.data ≠ []
  above : r.lastApplied < req.lastIncludedIndex
  free : r.apply.holdsSnapshotMu = false

/-- Nothing but ballot, role, election and state machine has changed. -/
structure Unmoved (r₀ r : Raft σ) : Prop where
  log : r.log = r₀.log
  snapshotMeta : r.snapshotMeta = r₀.snapshotMeta
  commitIndex : r.commitIndex = r₀.commitIndex
  lastApplied : r.lastApplied = r₀.lastApplied
  pendingResults : r.pendingResults = r₀.pendingResults
  apply : r.apply = r₀.apply

theorem Unmoved.refl (r : Raft σ) : r.Unmoved r := ⟨rfl, rfl, rfl, rfl, rfl, rfl⟩

/-- What is about to be installed was acceptable when the step began. -/
theorem Installs.accepts {r₀ r : Raft σ} {req : InstallSnapshotRequest} (hi : r.Installs req)
    (hu : r₀.Unmoved r) (hterm : r₀.currentTerm ≤ r.currentTerm) : r₀.Accepts req :=
  ⟨hi.term ▸ hterm, hi.metadata, hi.data, hu.lastApplied ▸ hi.above, hu.apply ▸ hi.free⟩

/-- A candidate of the next term, with its election running. -/
def stood (r : Raft σ) (id : Int) : Raft σ := { r with
  currentTerm := r.currentTerm + 1, votedFor := id, state := .candidate, leaderID := unknownLeader
  election := some ⟨r.currentTerm + 1, 1, []⟩ }

/-- The leader, with its no-op appended. -/
def led (r : Raft σ) (env : Env σ) : Raft σ := { r with
  log := r.log ++ [noopEntry (r.lastLogInfoLocked.1 + 1) r.currentTerm]
  state := .leader
  leaderID := env.id
  nextIndex := fun p => if p ∈ env.peers then some (r.lastLogInfoLocked.1 + 1 + 1) else none
  matchIndex := fun p => if p ∈ env.peers then some 0 else none }

/-- The entry that a proposal appends. -/
def nextEntry (r : Raft σ) (command : Command) : LogEntry :=
  proposedEntry (r.lastLogInfoLocked.1 + 1) r.currentTerm command

def proposed (r : Raft σ) (command : Command) : Raft σ := { r with
  log := r.log ++ [r.nextEntry command]
  channels := r.channels ++ [⟨[], false⟩]
  pendingResults := ((r.nextEntry command).index, r.channels.length) ::
    r.pendingResults.filter fun p => p.1 ≠ (r.nextEntry command).index }

def installed (r : Raft σ) (req : InstallSnapshotRequest) : Raft σ := { r with
  log := (r.retainedSuffix req.lastIncludedIndex req.lastIncludedTerm).getD []
  snapshotMeta := ⟨req.lastIncludedIndex, req.lastIncludedTerm⟩
  commitIndex := max r.commitIndex req.lastIncludedIndex
  lastApplied := max r.lastApplied req.lastIncludedIndex
  covered := req.covers }

/-- The entry just applied is checkpointed and its waiter told. -/
def checkpointed (r : Raft σ) (entry : LogEntry) : Raft σ :=
  Raft.notify { r with lastApplied := entry.index, apply := .idle } entry.index

theorem checkpointed_eq (r : Raft σ) (entry : LogEntry) :
    ∃ channels pending, channels.length = r.channels.length ∧ pending ⊆ r.pendingResults ∧
      r.checkpointed entry = { r with
        lastApplied := entry.index, apply := .idle, channels := channels
        pendingResults := pending } := by
  obtain ⟨channels, pending, hlen, hsub, heq⟩ :=
    Raft.notify_eq { r with lastApplied := entry.index, apply := .idle } entry.index
  exact ⟨channels, pending, hlen, hsub, heq⟩

/-- Every waiter is told about the failure, and the apply goroutine ends. -/
def stopped (r : Raft σ) (err : String) : Raft σ :=
  match r.applyErr with
  | some _ => { r with apply := .stopped }
  | none => { (r.pendingResults.foldl (fun r p => r.complete p.2 ⟨p.1, some err⟩) r) with
      applyErr := some err, pendingResults := [], apply := .stopped }

theorem stopped_eq (r : Raft σ) (err : String) :
    ∃ channels pending applyErr, channels.length = r.channels.length ∧
      pending ⊆ r.pendingResults ∧ r.stopped err = { r with
        channels := channels, pendingResults := pending, applyErr := applyErr
        apply := .stopped } := by
  unfold stopped
  split
  · exact ⟨r.channels, r.pendingResults, r.applyErr, rfl, List.Subset.refl _, rfl⟩
  · obtain ⟨channels, hlen, heq⟩ := Raft.complete_foldl r.pendingResults err r
    exact ⟨channels, [], some err, hlen, List.nil_subset _, by rw [heq]⟩

def compacted (r : Raft σ) (b : SnapshotMetadata) (suffix : List LogEntry) : Raft σ := { r with
  log := suffix
  snapshotMeta := b
  covered := r.covered ++ r.logThrough b.lastIncludedIndex
  apply := .idle }

end Raft

variable (env : Env σ) (r₀ : Raft σ)

/-- The changes that an input can make to the memory of a node, in a step that
began with `r₀`. -/
inductive Effect : Input → Raft σ → Raft σ → Prop
  | raise (i r) (term : Nat) (leaderID : Int) (h : r.currentTerm < term)
      (hl : leaderID = unknownLeader ∨ i.Claims term leaderID) :
      Effect i r { r with
        currentTerm := term, votedFor := noVote, state := .follower, leaderID := leaderID }
  | follow (i r) (leaderID : Int) (hl : i.Claims r.currentTerm leaderID) :
      Effect i r { r with state := .follower, leaderID := leaderID }
  | stand (r) (h : r.state ≠ .leader) : Effect .electionTimeout r (r.stood env.id)
  | vote (r) (req : RequestVoteRequest) (ht : r.currentTerm = req.term) (hv : r.votedFor = noVote) :
      Effect (.voteRequest req) r { r with votedFor := req.candidateID }
  | count (r) (peer : Int) (resp : RequestVoteResponse) (e : Election) (votes : Nat)
      (he : r.election = some e) :
      Effect (.voteResponse peer e.term resp) r
        { r with election := some ⟨e.term, votes, peer :: e.responded⟩ }
  | retire (r) (peer : Int) (term : Nat) (resp : RequestVoteResponse) :
      Effect (.voteResponse peer term resp) r { r with election := none }
  | lead (r) (peer : Int) (resp : RequestVoteResponse) (e : Election) (he : r.election = some e)
      (ht : r.currentTerm = e.term) (hc : r.state = .candidate)
      (hr : resp.term = e.term ∧ resp.voteGranted = true) :
      Effect (.voteResponse peer e.term resp) r (r.led env)
  | cut (r) (req : AppendEntriesRequest) (truncateFrom : Nat) (entries l : List LogEntry)
      (hu : r₀.Unmoved r)
      (hm : r.matchesPrefixLocked req.prevLogIndex req.prevLogTerm = true)
      (hplan : r.replicationPlanLocked req.prevLogIndex req.entries = .ok (truncateFrom, entries))
      (hl : r.cutAt truncateFrom = some l) (ht : r₀.currentTerm ≤ req.term) :
      Effect (.appendRequest req) r { r with log := l }
  | merge (r) (req : AppendEntriesRequest) (truncateFrom : Nat) (entries l : List LogEntry)
      (hu : r₀.Unmoved r)
      (hm : r.matchesPrefixLocked req.prevLogIndex req.prevLogTerm = true)
      (hplan : r.replicationPlanLocked req.prevLogIndex req.entries = .ok (truncateFrom, entries))
      (hl : r.cutAt truncateFrom = some l) (hes : Contiguous entries)
      (ht : r₀.currentTerm ≤ req.term) :
      Effect (.appendRequest req) r { r with log := l ++ entries }
  | followCommit (r) (req : AppendEntriesRequest)
      (h : r.commitIndex < min req.leaderCommit r.lastLogIndexLocked) :
      Effect (.appendRequest req) r
        { r with commitIndex := min req.leaderCommit r.lastLogIndexLocked }
  | restore (r) (req : InstallSnapshotRequest) (sn : Snapshotter σ) (st : σ)
      (hsn : env.snapshotter = some sn) (hst : sn.restore req.data = .ok st)
      (hi : r.Installs req) : Effect (.installRequest req) r { r with store := st }
  | install (r) (req : InstallSnapshotRequest) (hu : r₀.Unmoved r) (hi : r.Installs req) :
      Effect (.installRequest req) r (r.installed req)
  | propose (r) (command : Command) (hv : command.validate = .ok ()) (hl : r.state = .leader)
      (he : r.applyErr = none) : Effect (.propose command) r (r.proposed command)
  | backUp (r) (peer : Int) (req : AppendEntriesRequest) (resp : AppendEntriesResponse) :
      Effect (.appendResponse peer req resp) r
        { r with nextIndex := setAt r.nextIndex peer ((r.nextIndex peer).getD 0 - 1) }
  | recordAppend (r) (peer : Int) (req : AppendEntriesRequest) (resp : AppendEntriesResponse)
      (hl : r.state = .leader) (ht : req.term = r.currentTerm) (hr : resp.term = r.currentTerm)
      (hs : resp.success = true) :
      Effect (.appendResponse peer req resp) r
        (r.recordMatch peer (req.prevLogIndex + req.entries.length))
  | advance (r) (peer : Int) (req : AppendEntriesRequest) (resp : AppendEntriesResponse)
      (index : Nat) (hl : r.state = .leader)
      (h : r.commitCandidate env r.lastLogIndexLocked = some index) :
      Effect (.appendResponse peer req resp) r { r with commitIndex := index }
  | recordInstall (r) (peer : Int) (req : InstallSnapshotRequest) (resp : InstallSnapshotResponse)
      (hl : r.state = .leader) (ht : req.term = r.currentTerm) (hr : resp.term = r.currentTerm) :
      Effect (.installResponse peer req resp) r { r with
        matchIndex := setAt r.matchIndex peer req.lastIncludedIndex
        nextIndex := setAt r.nextIndex peer (req.lastIncludedIndex + 1) }
  | select (r) (entry : LogEntry) (hi : r.apply = .idle) (hlt : r.lastApplied < r.commitIndex)
      (he : r.entryAtLocked (r.lastApplied + 1) = some entry) :
      Effect .applySelect r { r with apply := .selected entry }
  | selectFailed (r) (err : String) (hi : r.apply = .idle) (hlt : r.lastApplied < r.commitIndex) :
      Effect .applySelect r { r with apply := .failed err }
  | applyNoop (r) (entry : LogEntry) (ha : r.apply = .selected entry)
      (ho : entry.operation = .noop) : Effect .applyEntry r { r with apply := .applied entry }
  | applyDone (r) (entry : LogEntry) (f : LogEntry → σ → Except String σ) (st : σ)
      (ha : r.apply = .selected entry) (ho : entry.operation ≠ .noop) (hf : env.applier = some f)
      (hst : f entry r.store = .ok st) :
      Effect .applyEntry r { r with store := st, apply := .applied entry }
  | applyFailed (r) (entry : LogEntry) (err : String) (ha : r.apply = .selected entry) :
      Effect .applyEntry r { r with apply := .failed err }
  | checkpoint (r) (entry : LogEntry) (ha : r.apply = .applied entry)
      (hi : r.lastApplied + 1 = entry.index) : Effect .applyCheckpoint r (r.checkpointed entry)
  | checkpointFailed (r) (entry : LogEntry) (err : String) (ha : r.apply = .applied entry) :
      Effect .applyCheckpoint r { r with apply := .failed err }
  | stop (r) (err : String) (ha : r.apply = .failed err) :
      Effect .recordApplyFailure r (r.stopped err)
  | begin (r) (term : Nat) (ha : r.apply = .idle) (ht : r.termAtLocked r.lastApplied = some term) :
      Effect .snapshotBegin r { r with apply := .snapshotting ⟨r.lastApplied, term⟩ }
  | save (r) (b : SnapshotMetadata) (ha : r.apply = .snapshotting b) :
      Effect .snapshotSave r { r with apply := .snapshotSaved b }
  | abandon (i r) (ha : r.apply.holdsSnapshotMu = true) : Effect i r { r with apply := .idle }
  | compact (r) (b : SnapshotMetadata) (suffix : List LogEntry) (ha : r.apply = .snapshotSaved b)
      (hb : r.lastApplied = b.lastIncludedIndex)
      (hs : r.entriesFromLocked (b.lastIncludedIndex + 1) = some suffix) :
      Effect .snapshotPublish r (r.compacted b suffix)

/-- What a step that began with `r₀` can have done so far. -/
abbrev Effects (i : Input) : Raft σ → Prop := Relation.ReflTransGen (Effect env r₀ i) r₀

/-- The stored ballot is the one in memory or a later one. -/
def Ahead {σ : Type} (r : Raft σ) (s : StableState) : Prop :=
  r.currentTerm < s.currentTerm ∨
    s.currentTerm = r.currentTerm ∧ (r.votedFor = noVote ∨ s.votedFor = r.votedFor)

theorem Ahead.term_le {σ : Type} {r : Raft σ} {s : StableState} (h : Ahead r s) :
    r.currentTerm ≤ s.currentTerm := by
  rcases h with hlt | ⟨heq, -⟩
  · exact hlt.le
  · exact heq.ge

/-- What a step shows about the memory it started from and the one it ends with. -/
def Shows {σ : Type} (env : Env σ) (r r' : Raft σ) : Input → Output → Prop
  | .electionTimeout, .none => r' = r
  | .electionTimeout, .voteRequest req => r' = r.stood env.id ∧ r.state ≠ .leader ∧
      req.term = r.currentTerm + 1 ∧ req.candidateID = env.id
  | .electionTimeout, _ => False
  | .voteRequest req, .voteResponse resp => resp.voteGranted = true →
      r'.currentTerm = req.term ∧ resp.term = req.term ∧ r'.votedFor = req.candidateID
  | .propose _, .none => r' = r
  | .propose command, .proposed index channel => r' = r.proposed command ∧
      index = (r.nextEntry command).index ∧ channel = r.channels.length
  | .propose _, _ => False
  | .applyCheckpoint, .none => r'.channels = r.channels
  | .applyCheckpoint, .completed channel entry => r' = r.checkpointed entry ∧
      r.apply = .applied entry ∧ r.lastApplied + 1 = entry.index ∧
      r.waiting entry.index = some channel
  | .applyCheckpoint, _ => False
  | _, .voteRequest _ => False
  | _, .voteResponse _ => False
  | _, .proposed _ _ => False
  | _, .completed _ _ => False
  | _, _ => True

section Monotone

variable {env : Env σ} {i : Input} {r₀ r r' : Raft σ}

/-- No step lowers the term. -/
theorem Effect.term_le (he : Effect env r₀ i r r') : r.currentTerm ≤ r'.currentTerm := by
  cases he with
  | raise _ _ _ _ hlt => exact hlt.le
  | stand => exact Nat.le_succ _
  | checkpoint _ entry =>
    obtain ⟨_, _, -, -, heq⟩ := r.checkpointed_eq entry
    rw [heq]
  | stop _ err =>
    obtain ⟨_, _, _, -, -, heq⟩ := r.stopped_eq err
    rw [heq]
  | _ => exact Nat.le_refl _

theorem Effects.term_le (he : Effects env r i r') : r.currentTerm ≤ r'.currentTerm := by
  induction he with
  | refl => exact Nat.le_refl _
  | tail _ he ih => exact ih.trans he.term_le

/-- No step lowers the index of the last applied entry. -/
theorem Effect.lastApplied_le (he : Effect env r₀ i r r') : r.lastApplied ≤ r'.lastApplied := by
  cases he with
  | install => exact Nat.le_max_left _ _
  | checkpoint _ entry _ hnext =>
    obtain ⟨_, _, -, -, heq⟩ := r.checkpointed_eq entry
    rw [heq]
    exact (Nat.le_succ _).trans hnext.le
  | stop _ err =>
    obtain ⟨_, _, _, -, -, heq⟩ := r.stopped_eq err
    rw [heq]
  | _ => exact Nat.le_refl _

end Monotone

end DistributedKv
