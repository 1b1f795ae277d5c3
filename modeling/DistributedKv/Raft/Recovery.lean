import DistributedKv.Raft.Handlers

/-!
Starting a node from its three files: `NewWithSnapshot`,
`newWithLogAndSnapshot` and `recoverLogAfterSnapshot` of
`internal/raft/raft.go`. While a node starts, its only memory is the state
machine that the snapshot and the replayed entries fill.
-/

namespace DistributedKv

open Crash

/-- A start-up in progress, over the state machine and the files. -/
abbrev Boot (σ α : Type) := Prog σ Disk α

variable {σ : Type} (env : Env σ)

/-- The checks of `FileStableStore.Load` on the state it decoded from the file. -/
def loadStable (path : String) (state : StableState) : Except String StableState :=
  if state.votedFor < noVote then
    .error s!"decode Raft state {repr path}: invalid voted_for {state.votedFor}"
  else if state.lastApplied > state.commitIndex then
    .error s!"decode Raft state {repr path}: last_applied exceeds commit_index"
  else .ok state

theorem StableState.accepted_of_load {path : String} {s persisted : StableState}
    (h : loadStable path s = .ok persisted) : s.Accepted := by
  unfold loadStable at h
  split at h
  · cases h
  split at h
  · cases h
  · exact ⟨by omega, by omega⟩

def validateLogSuffix (entries : List LogEntry) (snapshotMeta : SnapshotMetadata) :
    Except String Unit :=
  checkFrom (fun _ p i => s!"log entry index {i}, want {p + 1} after snapshot index {snapshotMeta.lastIncludedIndex}")
    0 (some snapshotMeta.lastIncludedIndex) entries

/-- Does the stored log hold an entry at the snapshot boundary with its term? -/
def boundaryMatches (entries : List LogEntry) (firstIndex : Nat) (snapshotMeta : SnapshotMetadata) :
    Bool :=
  match entries[snapshotMeta.lastIncludedIndex - firstIndex]? with
  | none => false
  | some e => e.index = snapshotMeta.lastIncludedIndex ∧ e.term = snapshotMeta.lastIncludedTerm

def recoverLogAfterSnapshot (entries : List LogEntry) (snapshotMeta : SnapshotMetadata) :
    Boot σ (Except String Unit) :=
  match entries with
  | [] => return .ok ()
  | first :: _ =>
      if first.index = snapshotMeta.lastIncludedIndex + 1 then return .ok ()
      else if first.index > snapshotMeta.lastIncludedIndex + 1 then
        return .error s!"log starts at {first.index}, leaving a gap after snapshot index {snapshotMeta.lastIncludedIndex}"
      else if boundaryMatches entries first.index snapshotMeta then
        Prog.store (Disk.compactThrough snapshotMeta.lastIncludedIndex)
      else Prog.store (Disk.truncateFrom first.index)

/-- The replay loop of `newWithLogAndSnapshot`, with `n` entries to go. -/
def replay (r : Raft σ) : Nat → Nat → Boot σ (Except String Unit)
  | 0, _ => return .ok ()
  | n + 1, lastApplied => do
      match r.entryAtLocked (lastApplied + 1) with
      | none => return .error s!"committed log entry {lastApplied + 1} is absent"
      | some entry =>
          if entry.operation ≠ .noop then
            match env.applier with
            | none =>
                return .error s!"committed log entry {entry.index} requires a state-machine applier"
            | some apply =>
                match ← Prog.attempt with
                | .error err => return .error s!"replay committed log entry {entry.index}: {err}"
                | .ok () =>
                    match apply entry (← Prog.read) with
                    | .error err =>
                        return .error s!"replay committed log entry {entry.index}: {err}"
                    | .ok store =>
                        Prog.modify fun _ => store
                        replay r n (lastApplied + 1)
          else replay r n (lastApplied + 1)

/-- The node that `newWithLogAndSnapshot` builds before it replays the log. -/
def Raft.recovered (persisted : StableState) (entries : List LogEntry)
    (snapshotMeta : SnapshotMetadata) (covers : List LogEntry) (store : σ) : Raft σ where
  state := .follower
  currentTerm := persisted.currentTerm
  votedFor := persisted.votedFor
  leaderID := unknownLeader
  log := entries
  snapshotMeta := snapshotMeta
  commitIndex := persisted.commitIndex
  lastApplied := snapshotMeta.lastIncludedIndex
  nextIndex := fun _ => none
  matchIndex := fun _ => none
  pendingResults := []
  channels := []
  applyErr := none
  apply := .idle
  election := none
  store := store
  covered := covers

/-- Replay the committed entries above the boundary and bring the durable
`lastApplied` in line. -/
def replayCommitted (persisted : StableState) (r : Raft σ) : Boot σ (Except String (Raft σ)) := do
  match ← replay env r (r.commitIndex - r.lastApplied) r.lastApplied with
  | .error err => return .error err
  | .ok () =>
      let r := { r with lastApplied := max r.lastApplied r.commitIndex, store := ← Prog.read }
      if persisted.lastApplied ≠ r.lastApplied then
        match ← Prog.store (Disk.saveStable
            ⟨r.currentTerm, r.votedFor, r.commitIndex, r.lastApplied⟩) with
        | .error err => return .error s!"persist recovered last applied index: {err}"
        | .ok () => return .ok r
      else return .ok r

def newWithLogAndSnapshot (snapshotMeta : SnapshotMetadata) (covers : List LogEntry) :
    Boot σ (Except String (Raft σ)) := do
  match env.cfg.validate with
  | .error err => return .error s!"invalid Raft configuration: {err}"
  | .ok () =>
  match snapshotMeta.validate with
  | .error err => return .error s!"invalid Raft snapshot metadata: {err}"
  | .ok () =>
  let d ← Prog.disk
  match loadStable env.cfg.raftStatePath d.stable with
  | .error err => return .error s!"load Raft stable state: {err}"
  | .ok persisted =>
  match LogStore.loadLocked d.log with
  | .error err => return .error s!"load Raft log: {err}"
  | .ok entries =>
  match validateLogSuffix entries snapshotMeta with
  | .error err => return .error s!"invalid durable Raft log: {err}"
  | .ok () =>
      let lastLogIndex := lastLogIndexFor entries snapshotMeta
      if persisted.commitIndex < snapshotMeta.lastIncludedIndex ∨
          persisted.commitIndex > lastLogIndex then
        return .error s!"commit index {persisted.commitIndex} is outside snapshot/log range {snapshotMeta.lastIncludedIndex}..{lastLogIndex}"
      else if persisted.lastApplied < snapshotMeta.lastIncludedIndex then
        return .error s!"last applied index {persisted.lastApplied} precedes snapshot index {snapshotMeta.lastIncludedIndex}"
      else
        replayCommitted env persisted
          (Raft.recovered persisted entries snapshotMeta covers (← Prog.read))

/-- The stable state with both indexes raised to the snapshot boundary. -/
def StableState.raisedTo (state : StableState) (index : Nat) : StableState :=
  { state with
    commitIndex := max state.commitIndex index
    lastApplied := max state.lastApplied index }

def newWithSnapshot : Boot σ (Except String (Raft σ)) := do
  match env.snapshotter with
  | none => return .error "Raft snapshotter cannot be nil"
  | some snapshotter =>
  let d ← Prog.disk
  match d.snapshot with
  | none => newWithLogAndSnapshot env .empty []
  | some stored =>
  match stored.metadata.validate with
  | .error err => return .error s!"invalid Raft snapshot metadata: {err}"
  | .ok () =>
  match loadStable env.cfg.raftStatePath d.stable with
  | .error err => return .error s!"load Raft stable state before snapshot recovery: {err}"
  | .ok persisted =>
  match LogStore.loadLocked d.log with
  | .error err => return .error s!"load Raft log before snapshot recovery: {err}"
  | .ok entries =>
  match ← recoverLogAfterSnapshot entries stored.metadata with
  | .error err => return .error s!"recover Raft log against snapshot: {err}"
  | .ok () =>
  match ← Prog.attempt with
  | .error err =>
      return .error s!"restore Raft snapshot at index {stored.lastIncludedIndex}: {err}"
  | .ok () =>
  match snapshotter.restore stored.data with
  | .error err =>
      return .error s!"restore Raft snapshot at index {stored.lastIncludedIndex}: {err}"
  | .ok store =>
      Prog.modify fun _ => store
      match ← Prog.store (Disk.saveStable (persisted.raisedTo stored.lastIncludedIndex)) with
      | .error err => return .error s!"persist recovered snapshot boundary: {err}"
      | .ok () => newWithLogAndSnapshot env stored.metadata stored.covers

end DistributedKv
