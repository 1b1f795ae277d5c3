import DistributedKv.Raft.Node

/-!
The operations of a running node (`internal/raft/raft.go`), each as a program
over the node's memory and its three files. An operation that holds `r.mu`
throughout is one program; the apply goroutine releases the lock between its
steps, so each of those is a program of its own (`applySelect`, `applyEntry`,
`applyCheckpoint` for `applyCommitted`; `snapshotBegin`, `snapshotSave`,
`snapshotPublish` for `maybeSnapshot`). Signals that only wake a goroutine are
left out.
-/

namespace DistributedKv

open Crash

/-- An operation of a running node. -/
abbrev Op (σ α : Type) := Prog (Raft σ) Disk α

variable {σ : Type} (env : Env σ)

/-! ## Stable state and roles -/

def saveStableValuesLocked (term : Nat) (votedFor : Int) (commitIndex lastApplied : Nat) :
    Op σ (Except String Unit) :=
  Prog.store (Disk.saveStable ⟨term, votedFor, commitIndex, lastApplied⟩)

def saveStableLocked (term : Nat) (votedFor : Int) : Op σ (Except String Unit) := do
  let r ← Prog.read
  saveStableValuesLocked term votedFor r.commitIndex r.lastApplied

def becomeFollowerLocked (term : Nat) (leaderID : Int) : Op σ (Except String Unit) := do
  let r ← Prog.read
  if term < r.currentTerm then
    return .ok ()
  else if term > r.currentTerm then
    match ← saveStableLocked term noVote with
    | .error err => return .error err
    | .ok () =>
        Prog.modify fun r => { r with
          currentTerm := term, votedFor := noVote, state := .follower, leaderID := leaderID }
        return .ok ()
  else
    Prog.modify fun r => { r with state := .follower, leaderID := leaderID }
    return .ok ()

/-- For a term below 2^64 - 1, from which the code would go on with term 0. -/
def becomeCandidateLocked : Op σ (Except String Nat) := do
  let r ← Prog.read
  let newTerm := r.currentTerm + 1
  match ← saveStableLocked newTerm env.id with
  | .error err => return .error err
  | .ok () =>
      Prog.modify fun r => { r with
        currentTerm := newTerm, votedFor := env.id, state := .candidate, leaderID := unknownLeader }
      return .ok newTerm

/-- The no-op a new leader appends. -/
def noopEntry (index term : Nat) : LogEntry := ⟨index, term, .noop, [], []⟩

def becomeLeaderLocked : Op σ (Except String Unit) := do
  let r ← Prog.read
  let noop := noopEntry (r.lastLogInfoLocked.1 + 1) r.currentTerm
  match ← Prog.store (Disk.appendLog [noop]) with
  | .error err => return .error s!"persist leader no-op at index {noop.index}: {err}"
  | .ok () =>
      Prog.modify fun r => { r with
        log := r.log ++ [noop]
        state := .leader
        leaderID := env.id
        nextIndex := fun p => if p ∈ env.peers then some (noop.index + 1) else none
        matchIndex := fun p => if p ∈ env.peers then some 0 else none }
      return .ok ()

/-! ## Elections -/

/-- `startElection` up to the requests it sends to every peer. -/
def startElection : Op σ (Option RequestVoteRequest) := do
  let elected ← becomeCandidateLocked env
  let r ← Prog.read
  let (lastLogIndex, lastLogTerm) := r.lastLogInfoLocked
  match elected with
  | .error _ => return none
  | .ok term =>
      if env.majority = 1 then
        let r ← Prog.read
        if r.state = .candidate ∧ r.currentTerm = term then
          let _ ← becomeLeaderLocked env
          return none
        else return none
      else
        Prog.modify fun r => { r with election := some ⟨term, 1, []⟩ }
        return some ⟨term, env.id, lastLogIndex, lastLogTerm⟩

/-- One turn of the loop of `startElection` that counts votes. A response that
does not belong to the running call, or a second one of a peer, never reaches
its channel. -/
def receiveVote (peer : Int) (term : Nat) (response : RequestVoteResponse) : Op σ Unit := do
  let r ← Prog.read
  match r.election with
  | none => return ()
  | some e =>
      if e.term ≠ term ∨ peer ∈ e.responded then return ()
      else if response.term > r.currentTerm then
        let _ ← becomeFollowerLocked response.term unknownLeader
        Prog.modify fun r => { r with election := none }
      else if r.state ≠ .candidate ∨ r.currentTerm ≠ e.term then
        Prog.modify fun r => { r with election := none }
      else if response.term = e.term ∧ response.voteGranted = true then
        if e.votes + 1 ≥ env.majority then
          let _ ← becomeLeaderLocked env
          Prog.modify fun r => { r with election := none }
        else
          Prog.modify fun r => { r with
            election := some ⟨e.term, e.votes + 1, peer :: e.responded⟩ }
      else
        Prog.modify fun r => { r with election := some ⟨e.term, e.votes, peer :: e.responded⟩ }

/-- `HandleRequestVote` once the node is in the term of the request. -/
def voteInTerm (req : RequestVoteRequest) : Op σ RequestVoteResponse := do
  let r ← Prog.read
  if r.votedFor ≠ noVote ∧ r.votedFor ≠ req.candidateID then
    return ⟨r.currentTerm, false⟩
  else if r.candidateLogIsUpToDateLocked req.lastLogIndex req.lastLogTerm = false then
    return ⟨r.currentTerm, false⟩
  else if r.votedFor ≠ req.candidateID then
    match ← saveStableLocked r.currentTerm req.candidateID with
    | .error _ => return ⟨r.currentTerm, false⟩
    | .ok () =>
        Prog.modify fun r => { r with votedFor := req.candidateID }
        return ⟨r.currentTerm, true⟩
  else return ⟨r.currentTerm, true⟩

def handleRequestVote (req : RequestVoteRequest) : Op σ RequestVoteResponse := do
  let r ← Prog.read
  if req.term < r.currentTerm then return ⟨r.currentTerm, false⟩
  else if req.term > r.currentTerm then
    match ← becomeFollowerLocked req.term unknownLeader with
    | .error _ => return ⟨r.currentTerm, false⟩
    | .ok () => voteInTerm req
  else voteInTerm req

/-! ## Replication, follower side -/

/-- The start of `HandleAppendEntries` and `HandleInstallSnapshot`: the sender
is the leader of a term that is not below the node's. -/
def recognizeLeader (term : Nat) (leaderID : Int) : Op σ (Except String Unit) := do
  let r ← Prog.read
  if term > r.currentTerm then becomeFollowerLocked term leaderID
  else
    Prog.modify fun r => { r with state := .follower, leaderID := leaderID }
    return .ok ()

/-- Carry out the first half of a replication plan; `false` is an early return. -/
def truncateLog (truncateFrom : Nat) : Op σ Bool :=
  if truncateFrom = 0 then return true
  else do
    match ← Prog.store (Disk.truncateFrom truncateFrom) with
    | .error _ => return false
    | .ok () =>
        let r ← Prog.read
        match r.logOffsetLocked truncateFrom with
        | none => return false
        | some offset =>
            Prog.modify fun r => { r with log := r.log.take offset }
            return true

/-- Carry out the second half of a replication plan. -/
def appendEntries (entries : List LogEntry) : Op σ Bool :=
  if entries = [] then return true
  else do
    match ← Prog.store (Disk.appendLog entries) with
    | .error _ => return false
    | .ok () =>
        Prog.modify fun r => { r with log := r.log ++ entries }
        return true

/-- Follow the leader's commit index as far as the local log reaches. -/
def followCommit (leaderCommit : Nat) : Op σ Bool := do
  let r ← Prog.read
  let newCommitIndex := min leaderCommit r.lastLogIndexLocked
  if newCommitIndex > r.commitIndex then
    match ← saveStableValuesLocked r.currentTerm r.votedFor newCommitIndex r.lastApplied with
    | .error _ => return false
    | .ok () =>
        Prog.modify fun r => { r with commitIndex := newCommitIndex }
        return true
  else return true

def handleAppendEntries (req : AppendEntriesRequest) : Op σ AppendEntriesResponse := do
  let r ← Prog.read
  if req.term < r.currentTerm then return ⟨r.currentTerm, false⟩
  else
    match ← recognizeLeader req.term req.leaderID with
    | .error _ => return ⟨r.currentTerm, false⟩
    | .ok () =>
        let r ← Prog.read
        if r.matchesPrefixLocked req.prevLogIndex req.prevLogTerm = false then
          return ⟨r.currentTerm, false⟩
        else
          match r.replicationPlanLocked req.prevLogIndex req.entries with
          | .error _ => return ⟨r.currentTerm, false⟩
          | .ok (truncateFrom, entriesToAppend) =>
              if (← truncateLog truncateFrom) = false then return ⟨r.currentTerm, false⟩
              else if (← appendEntries entriesToAppend) = false then
                return ⟨r.currentTerm, false⟩
              else if (← followCommit req.leaderCommit) = false then
                return ⟨r.currentTerm, false⟩
              else return ⟨r.currentTerm, true⟩

/-! ## Snapshot installation -/

/-- The suffix after a snapshot boundary, when the local entry there has the
snapshot's term. -/
def Raft.retainedSuffix (r : Raft σ) (index term : Nat) : Option (List LogEntry) :=
  match r.termAtLocked index with
  | none => none
  | some localTerm => if localTerm = term then r.entriesFromLocked (index + 1) else none

/-- Compact or discard the durable log under an installed snapshot. -/
def discardLog (suffix : Option (List LogEntry)) (index : Nat) : Op σ (Except String Unit) := do
  let r ← Prog.read
  match suffix with
  | some _ =>
      match ← Prog.store (Disk.compactThrough index) with
      | .error err =>
          return .error s!"compact retained log prefix through snapshot index {index}: {err}"
      | .ok () => return .ok ()
  | none =>
      if r.log ≠ [] then
        match ← Prog.store (Disk.truncateFrom r.firstLogIndexLocked) with
        | .error err =>
            return .error s!"discard conflicting log suffix for snapshot index {index}: {err}"
        | .ok () => return .ok ()
      else return .ok ()

def restoreStore (snapshotter : Snapshotter σ) (data : Bytes) : Op σ (Except String Unit) := do
  match ← Prog.attempt with
  | .error err => return .error err
  | .ok () =>
      match snapshotter.restore data with
      | .error err => return .error err
      | .ok store =>
          Prog.modify fun r => { r with store := store }
          return .ok ()

/-- `HandleInstallSnapshot` once the request is known to be needed. -/
def installSnapshot (snapshotter : Snapshotter σ) (req : InstallSnapshotRequest) :
    Op σ (Except String InstallSnapshotResponse) := do
  let r ← Prog.read
  let suffix := r.retainedSuffix req.lastIncludedIndex req.lastIncludedTerm
  match ← Prog.store (Disk.saveSnapshot
      ⟨req.lastIncludedIndex, req.lastIncludedTerm, req.data, req.covers⟩) with
  | .error err =>
      return .error s!"persist installed snapshot at index {req.lastIncludedIndex}: {err}"
  | .ok () =>
      match ← discardLog suffix req.lastIncludedIndex with
      | .error err => return .error err
      | .ok () =>
          match ← restoreStore snapshotter req.data with
          | .error err =>
              return .error s!"restore installed snapshot at index {req.lastIncludedIndex}: {err}"
          | .ok () =>
              let newCommitIndex := max r.commitIndex req.lastIncludedIndex
              let newLastApplied := max r.lastApplied req.lastIncludedIndex
              match ← saveStableValuesLocked r.currentTerm r.votedFor newCommitIndex
                  newLastApplied with
              | .error err => return .error s!"persist installed snapshot metadata: {err}"
              | .ok () =>
                  Prog.modify fun r => { r with
                    log := suffix.getD []
                    snapshotMeta := ⟨req.lastIncludedIndex, req.lastIncludedTerm⟩
                    commitIndex := newCommitIndex
                    lastApplied := newLastApplied
                    covered := req.covers }
                  return .ok ⟨r.currentTerm⟩

def handleInstallSnapshot (req : InstallSnapshotRequest) :
    Op σ (Except String InstallSnapshotResponse) := do
  let r ← Prog.read
  if req.term < r.currentTerm then return .ok ⟨r.currentTerm⟩
  else
    match ← recognizeLeader req.term req.leaderID with
    | .error err => return .error s!"persist higher term from InstallSnapshot: {err}"
    | .ok () =>
        let r ← Prog.read
        match env.snapshotter with
        | none => return .error "Raft node cannot install a snapshot without snapshot storage"
        | some snapshotter =>
            match SnapshotMetadata.validate ⟨req.lastIncludedIndex, req.lastIncludedTerm⟩ with
            | .error err => return .error s!"invalid InstallSnapshot metadata: {err}"
            | .ok () =>
                if req.data = [] then return .error "InstallSnapshot data cannot be empty"
                else if req.lastIncludedIndex ≤ r.lastApplied then return .ok ⟨r.currentTerm⟩
                else installSnapshot snapshotter req

/-! ## Proposals and replication, leader side -/

def proposedEntry (index term : Nat) (command : Command) : LogEntry :=
  ⟨index, term, command.operation, command.key, command.value⟩

/-- The index of the new entry and the channel its result will arrive on. -/
def propose (command : Command) : Op σ (Except String (Nat × Nat)) := do
  match command.validate with
  | .error err => return .error s!"invalid Raft command: {err}"
  | .ok () =>
      let r ← Prog.read
      if r.state ≠ .leader then return .error "Raft node is not the leader"
      else if env.applier.isNone then
        return .error "Raft node has no state-machine applier"
      else
        match r.applyErr with
        | some err => return .error s!"Raft state machine is unavailable: {err}"
        | none =>
            let entry := proposedEntry (r.lastLogInfoLocked.1 + 1) r.currentTerm command
            match ← Prog.store (Disk.appendLog [entry]) with
            | .error err => return .error s!"persist proposed log entry {entry.index}: {err}"
            | .ok () =>
                let channel := r.channels.length
                Prog.modify fun r => { r with
                  log := r.log ++ [entry]
                  channels := r.channels ++ [⟨[], false⟩]
                  pendingResults :=
                    (entry.index, channel) :: r.pendingResults.filter fun p => p.1 ≠ entry.index }
                return .ok (entry.index, channel)

/-- `none` is a send that is not needed; an error ends the replication attempt. -/
def buildInstallSnapshot (peerID : Int) : Op σ (Except String (Option InstallSnapshotRequest)) := do
  let r ← Prog.read
  if r.state ≠ .leader then return .ok none
  else
    match r.nextIndex peerID with
    | none => return .ok none
    | some next =>
        if next > r.snapshotMeta.lastIncludedIndex then return .ok none
        else if env.snapshotter.isNone then
          return .error "leader needs a snapshot but has no snapshot store"
        else
          let d ← Prog.disk
          match d.snapshot with
          | none =>
              return .error s!"leader needs a snapshot for follower {peerID} but none is durable"
          | some stored =>
              if stored.metadata ≠ r.snapshotMeta then
                return .error s!"durable snapshot boundary {stored.lastIncludedIndex}/{stored.lastIncludedTerm} differs from Raft boundary {r.snapshotMeta.lastIncludedIndex}/{r.snapshotMeta.lastIncludedTerm}"
              else
                return .ok (some ⟨r.currentTerm, env.id, stored.lastIncludedIndex,
                  stored.lastIncludedTerm, stored.data, stored.covers⟩)

def Raft.buildAppendEntries (r : Raft σ) (id peerID : Int) : Option AppendEntriesRequest :=
  if r.state ≠ .leader then none
  else
    match r.nextIndex peerID with
    | none => none
    | some next =>
        if next ≤ r.snapshotMeta.lastIncludedIndex ∨ next > r.lastLogIndexLocked + 1 then none
        else
          match r.termAtLocked (next - 1), r.entriesFromLocked next with
          | some previousTerm, some entries =>
              some ⟨r.currentTerm, id, next - 1, previousTerm, entries, r.commitIndex⟩
          | _, _ => none

/-- The leader and the peers known to hold the entry at `index`. -/
def Raft.matched (r : Raft σ) (index : Nat) : Nat :=
  1 + (env.peers.filter fun p => (r.matchIndex p).getD 0 ≥ index).length

/-- The loop of `advanceCommitIndexLocked` from `index` down: the greatest index
above `commitIndex` with an entry of the current term on a majority. -/
def Raft.commitCandidate (r : Raft σ) : Nat → Option Nat
  | 0 => none
  | index + 1 =>
      if index + 1 ≤ r.commitIndex then none
      else if r.termAtLocked (index + 1) ≠ some r.currentTerm then r.commitCandidate index
      else if r.matched env (index + 1) < env.majority then r.commitCandidate index
      else some (index + 1)

def advanceCommitIndexLocked : Op σ Bool := do
  let r ← Prog.read
  match r.commitCandidate env r.lastLogIndexLocked with
  | none => return false
  | some index =>
      match ← saveStableValuesLocked r.currentTerm r.votedFor index r.lastApplied with
      | .error _ => return false
      | .ok () =>
          Prog.modify fun r => { r with commitIndex := index }
          return true

/-- The effect of a successful response on the peer's two cursors. -/
def Raft.recordMatch (r : Raft σ) (peerID : Int) (matched : Nat) : Raft σ :=
  let oldMatch := (r.matchIndex peerID).getD 0
  let newMatch := if matched > oldMatch then matched else oldMatch
  let oldNext := (r.nextIndex peerID).getD 0
  { r with
    matchIndex := if matched > oldMatch then setAt r.matchIndex peerID matched else r.matchIndex
    nextIndex := if oldNext < newMatch + 1 then setAt r.nextIndex peerID (newMatch + 1)
      else r.nextIndex }

/-- `true` asks for another try with an earlier prefix. -/
def handleAppendEntriesResponse (peerID : Int) (request : AppendEntriesRequest)
    (response : AppendEntriesResponse) : Op σ Bool := do
  let r ← Prog.read
  if response.term > r.currentTerm then
    let _ ← becomeFollowerLocked response.term unknownLeader
    return false
  else if r.state ≠ .leader ∨ request.term ≠ r.currentTerm ∨ response.term ≠ r.currentTerm then
    return false
  else if response.success = false then
    if (r.nextIndex peerID).getD 0 ≤ 1 then return false
    else
      Prog.modify fun r => { r with
        nextIndex := setAt r.nextIndex peerID ((r.nextIndex peerID).getD 0 - 1) }
      return true
  else
    Prog.modify fun r => r.recordMatch peerID (request.prevLogIndex + request.entries.length)
    let _ ← advanceCommitIndexLocked env
    return false

def handleInstallSnapshotResponse (peerID : Int) (request : InstallSnapshotRequest)
    (response : InstallSnapshotResponse) : Op σ Bool := do
  let r ← Prog.read
  if response.term > r.currentTerm then
    let _ ← becomeFollowerLocked response.term unknownLeader
    return false
  else if r.state ≠ .leader ∨ request.term ≠ r.currentTerm ∨ response.term ≠ r.currentTerm then
    return false
  else
    Prog.modify fun r => { r with
      matchIndex := setAt r.matchIndex peerID request.lastIncludedIndex
      nextIndex := setAt r.nextIndex peerID (request.lastIncludedIndex + 1) }
    return true

/-! ## The apply goroutine -/

/-- The first critical section of `applyCommitted`. -/
def applySelect : Op σ Unit := do
  let r ← Prog.read
  if r.apply ≠ .idle ∨ r.lastApplied ≥ r.commitIndex then return ()
  else
    match r.entryAtLocked (r.lastApplied + 1) with
    | none =>
        Prog.modify fun r => { r with
          apply := .failed s!"committed log entry {r.lastApplied + 1} is absent" }
    | some entry =>
        if entry.operation ≠ .noop ∧ env.applier.isNone then
          Prog.modify fun r => { r with
            apply := .failed "Raft node has no state-machine applier" }
        else Prog.modify fun r => { r with apply := .selected entry }

/-- The state-machine call of `applyCommitted`, under `stateMachineMu`. -/
def applyEntry : Op σ Unit := do
  let r ← Prog.read
  match r.apply with
  | .selected entry =>
      if entry.operation = .noop then
        Prog.modify fun r => { r with apply := .applied entry }
      else
        match env.applier with
        | none => return ()
        | some apply =>
            match ← Prog.attempt with
            | .error err =>
                Prog.modify fun r => { r with
                  apply := .failed s!"apply committed log entry {entry.index}: {err}" }
            | .ok () =>
                match apply entry r.store with
                | .error err =>
                    Prog.modify fun r => { r with
                      apply := .failed s!"apply committed log entry {entry.index}: {err}" }
                | .ok store =>
                    Prog.modify fun r => { r with store := store, apply := .applied entry }
  | _ => return ()

/-- Send a result on a channel and close it. -/
def Raft.complete (r : Raft σ) (channel : Nat) (result : Result) : Raft σ :=
  { r with channels := r.channels.modify channel fun c => ⟨c.received ++ [result], true⟩ }

/-- The waiter of an index, if there is one. -/
def Raft.waiting (r : Raft σ) (index : Nat) : Option Nat := r.pendingResults.lookup index

/-- Tell the waiter of `index`, if any, that its entry was applied. -/
def Raft.notify (r : Raft σ) (index : Nat) : Raft σ :=
  match r.waiting index with
  | none => r
  | some channel =>
      { r.complete channel ⟨index, none⟩ with
        pendingResults := r.pendingResults.filter fun p => p.1 ≠ index }

theorem Raft.notify_eq (r : Raft σ) (index : Nat) :
    ∃ channels pending, channels.length = r.channels.length ∧ pending ⊆ r.pendingResults ∧
      r.notify index = { r with channels := channels, pendingResults := pending } := by
  unfold Raft.notify
  split
  · exact ⟨_, _, rfl, List.Subset.refl _, rfl⟩
  · exact ⟨_, _, List.length_modify _ _ _, List.filter_subset_self _, rfl⟩

/-- The last critical section of `applyCommitted`. The result is the channel it
sent a nil error on, with the entry just applied. -/
def applyCheckpoint : Op σ (Option (Nat × LogEntry)) := do
  let r ← Prog.read
  match r.apply with
  | .applied entry =>
      if r.lastApplied + 1 ≠ entry.index then
        Prog.modify fun r => { r with
          apply := .failed
            s!"apply order changed: last applied {r.lastApplied}, entry {entry.index}" }
        return none
      else
        match ← saveStableValuesLocked r.currentTerm r.votedFor r.commitIndex entry.index with
        | .error err =>
            Prog.modify fun r => { r with
              apply := .failed s!"persist last applied index {entry.index}: {err}" }
            return none
        | .ok () =>
            Prog.modify fun r =>
              Raft.notify { r with lastApplied := entry.index, apply := .idle } entry.index
            return (r.waiting entry.index).map fun channel => (channel, entry)
  | _ => return none

theorem Raft.complete_foldl (ps : List (Nat × Nat)) (err : String) (r : Raft σ) :
    ∃ channels, channels.length = r.channels.length ∧
      ps.foldl (fun r p => r.complete p.2 ⟨p.1, some err⟩) r =
        { r with channels := channels } := by
  induction ps generalizing r with
  | nil => exact ⟨r.channels, rfl, rfl⟩
  | cons q ps ih =>
    obtain ⟨channels, hlen, hc⟩ := ih (r.complete q.2 ⟨q.1, some err⟩)
    exact ⟨channels, hlen.trans (List.length_modify _ _ _), by rw [List.foldl_cons, hc]; rfl⟩

/-- The end of `applyLoop` after `applyCommitted` returned an error. -/
def recordApplyFailure : Op σ Unit := do
  let r ← Prog.read
  match r.apply with
  | .failed err =>
      match r.applyErr with
      | some _ => Prog.modify fun r => { r with apply := .stopped }
      | none =>
          Prog.modify fun r =>
            { (r.pendingResults.foldl (fun r p => r.complete p.2 ⟨p.1, some err⟩) r) with
              applyErr := some err, pendingResults := [], apply := .stopped }
  | _ => return ()

/-- The first critical section of `maybeSnapshot`. -/
def snapshotBegin : Op σ Unit := do
  let r ← Prog.read
  if r.apply ≠ .idle ∨ env.snapshotter.isNone ∨
      uint64Sub r.lastApplied r.snapshotMeta.lastIncludedIndex < env.snapshotThreshold then
    return ()
  else
    match r.termAtLocked r.lastApplied with
    | none => return ()
    | some term => Prog.modify fun r => { r with apply := .snapshotting ⟨r.lastApplied, term⟩ }

/-- The entries of the log through `index`. -/
def Raft.logThrough (r : Raft σ) (index : Nat) : List LogEntry :=
  r.log.takeWhile fun e => e.index ≤ index

/-- Serialize the state machine and make the snapshot durable. -/
def snapshotSave : Op σ Unit := do
  let r ← Prog.read
  match r.apply, env.snapshotter with
  | .snapshotting b, some snapshotter =>
      match ← Prog.attempt with
      | .error _ => Prog.modify fun r => { r with apply := .idle }
      | .ok () =>
          match snapshotter.snapshot r.store with
          | .error _ => Prog.modify fun r => { r with apply := .idle }
          | .ok data =>
              match ← Prog.store (Disk.saveSnapshot ⟨b.lastIncludedIndex, b.lastIncludedTerm, data,
                  r.covered ++ r.logThrough b.lastIncludedIndex⟩) with
              | .error _ => Prog.modify fun r => { r with apply := .idle }
              | .ok () => Prog.modify fun r => { r with apply := .snapshotSaved b }
  | _, _ => return ()

/-- The last critical section of `maybeSnapshot`. -/
def snapshotPublish : Op σ Unit := do
  let r ← Prog.read
  match r.apply with
  | .snapshotSaved b =>
      if r.lastApplied ≠ b.lastIncludedIndex ∨
          r.snapshotMeta.lastIncludedIndex ≥ b.lastIncludedIndex ∨
          r.commitIndex < b.lastIncludedIndex then
        Prog.modify fun r => { r with apply := .idle }
      else
        match r.entriesFromLocked (b.lastIncludedIndex + 1) with
        | none => Prog.modify fun r => { r with apply := .idle }
        | some suffix =>
            match ← Prog.store (Disk.compactThrough b.lastIncludedIndex) with
            | .error _ => Prog.modify fun r => { r with apply := .idle }
            | .ok () =>
                Prog.modify fun r => { r with
                  log := suffix
                  snapshotMeta := b
                  covered := r.covered ++ r.logThrough b.lastIncludedIndex
                  apply := .idle }
  | _ => return ()

end DistributedKv
