import DistributedKv.Config
import DistributedKv.Raft.Disk

/-!
The in-memory state of one node (`internal/raft/raft.go`): RPC messages, the
fields guarded by `r.mu`, and the functions that read the compacted log by
absolute index.
-/

namespace DistributedKv

inductive State where
  | follower
  | candidate
  | leader
  deriving DecidableEq, Repr

def unknownLeader : Int := -1

structure RequestVoteRequest where
  term : Nat
  candidateID : Int
  lastLogIndex : Nat
  lastLogTerm : Nat
  deriving DecidableEq, Repr

structure RequestVoteResponse where
  term : Nat
  voteGranted : Bool
  deriving DecidableEq, Repr

structure AppendEntriesRequest where
  term : Nat
  leaderID : Int
  prevLogIndex : Nat
  prevLogTerm : Nat
  entries : List LogEntry
  leaderCommit : Nat
  deriving DecidableEq, Repr

structure AppendEntriesResponse where
  term : Nat
  success : Bool
  deriving DecidableEq, Repr

/-- `covers` is the history variable of the snapshot that is sent. -/
structure InstallSnapshotRequest where
  term : Nat
  leaderID : Int
  lastIncludedIndex : Nat
  lastIncludedTerm : Nat
  data : Bytes
  covers : List LogEntry
  deriving DecidableEq, Repr

structure InstallSnapshotResponse where
  term : Nat
  deriving DecidableEq, Repr

structure Command where
  operation : Operation
  key : Bytes
  value : Bytes
  deriving DecidableEq, Repr

def Command.validate (c : Command) : Except String Unit :=
  if c.operation = .noop then .error "client command cannot be a Raft NOOP"
  else LogEntry.validate ⟨1, 0, c.operation, c.key, c.value⟩

structure Result where
  index : Nat
  err : Option String
  deriving DecidableEq, Repr

/-- A channel that `Propose` hands out: what was sent on it, and whether it was closed. -/
structure Channel where
  received : List Result
  closed : Bool
  deriving DecidableEq, Repr

/-- The state machine behind the `Snapshotter` interface. -/
structure Snapshotter (σ : Type) where
  snapshot : σ → Except String Bytes
  restore : Bytes → Except String σ

/-- What a node is started with: its configuration, the state machine as the
`Applier` and `Snapshotter` interfaces give it (`none` where Go has `nil`), and
the contents of a state machine nothing was applied to. -/
structure Env (σ : Type) where
  cfg : Config
  applier : Option (LogEntry → σ → Except String σ)
  snapshotter : Option (Snapshotter σ)
  initial : σ

namespace Env

variable {σ : Type} (env : Env σ)

def id : Int := env.cfg.self.id

def peers : List Int := env.cfg.peerIDs

def majority : Nat := (env.peers.length + 1) / 2 + 1

def snapshotThreshold : Nat :=
  if env.cfg.snapshotThreshold = 0 then Config.defaultSnapshotThreshold
  else env.cfg.snapshotThreshold

section Valid

variable {env} (h : env.cfg.validate = .ok ())

include h

theorem peers_length : env.peers.length = 2 := by
  rw [peers, Config.peerIDs, List.length_map]
  exact (Config.validate_ids h).1

theorem majority_eq : env.majority = 2 := by rw [majority, peers_length h]

theorem majority_gt_one : 1 < env.majority := by
  rw [majority_eq h]
  decide

theorem id_nonneg : 0 ≤ env.id := (Config.validate_ids h).2.2 _ (List.mem_cons_self)

theorem ids_nodup : (env.id :: env.peers).Nodup := (Config.validate_ids h).2.1

end Valid

end Env

/-- Where the apply goroutine stands between two of its lock-delimited steps. -/
inductive ApplyPhase where
  | idle
  | selected (entry : LogEntry)
  | applied (entry : LogEntry)
  | failed (err : String)
  | stopped
  | snapshotting (boundary : SnapshotMetadata)
  | snapshotSaved (boundary : SnapshotMetadata)
  deriving DecidableEq, Repr

/-- A running `startElection`: its term, the votes counted so far, and the peers
whose one response has been received. -/
structure Election where
  term : Nat
  votes : Nat
  responded : List Int
  deriving DecidableEq, Repr

/-- The volatile state. `store` is the state machine; `covered` is a history
variable, the entries `1..snapshotMeta.lastIncludedIndex` compacted away. -/
structure Raft (σ : Type) where
  state : State
  currentTerm : Nat
  votedFor : Int
  leaderID : Int
  log : List LogEntry
  snapshotMeta : SnapshotMetadata
  commitIndex : Nat
  lastApplied : Nat
  nextIndex : Int → Option Nat
  matchIndex : Int → Option Nat
  pendingResults : List (Nat × Nat)
  channels : List Channel
  applyErr : Option String
  apply : ApplyPhase
  election : Option Election
  store : σ
  covered : List LogEntry

/-- Assignment to a Go map. -/
def setAt (m : Int → Option Nat) (key : Int) (value : Nat) : Int → Option Nat :=
  fun x => if x = key then some value else m x

theorem setAt_self (key : Int) (value : Nat) (m : Int → Option Nat) :
    setAt m key value key = some value := if_pos rfl

theorem setAt_of_ne (key : Int) (value : Nat) (m : Int → Option Nat) {p : Int} (hne : p ≠ key) :
    setAt m key value p = m p := if_neg hne

theorem setAt_cases (m : Int → Option Nat) (key : Int) (value : Nat) (p : Int) :
    setAt m key value p = m p ∨ p = key ∧ setAt m key value p = some value := by
  unfold setAt
  split
  · exact .inr ⟨‹_›, rfl⟩
  · exact .inl rfl

/-- Subtraction of `uint64` values wraps around. -/
def uint64Sub (a b : Nat) : Nat := if b ≤ a then a - b else a + Nat.pow 2 64 - b

def lastLogIndexFor (entries : List LogEntry) (snapshotMeta : SnapshotMetadata) : Nat :=
  match entries.getLast? with
  | none => snapshotMeta.lastIncludedIndex
  | some e => e.index

namespace Raft

variable {σ : Type} (r : Raft σ)

def firstLogIndexLocked : Nat := r.snapshotMeta.lastIncludedIndex + 1

def lastLogIndexLocked : Nat := lastLogIndexFor r.log r.snapshotMeta

def logOffsetLocked (index : Nat) : Option Nat :=
  if index < r.firstLogIndexLocked ∨ index > r.lastLogIndexLocked then none
  else
    let offset := index - r.firstLogIndexLocked
    match r.log[offset]? with
    | none => none
    | some e => if e.index ≠ index then none else some offset

def entryAtLocked (index : Nat) : Option LogEntry :=
  match r.logOffsetLocked index with
  | none => none
  | some offset => r.log[offset]?

def termAtLocked (index : Nat) : Option Nat :=
  if index = r.snapshotMeta.lastIncludedIndex then some r.snapshotMeta.lastIncludedTerm
  else
    match r.entryAtLocked index with
    | none => none
    | some e => some e.term

def entriesFromLocked (index : Nat) : Option (List LogEntry) :=
  if index < r.firstLogIndexLocked ∨ index > r.lastLogIndexLocked + 1 then none
  else if index = r.lastLogIndexLocked + 1 then some []
  else
    match r.logOffsetLocked index with
    | none => none
    | some offset => some (r.log.drop offset)

/-- The index and term of the last entry; a term that is not found reads as zero. -/
def lastLogInfoLocked : Nat × Nat :=
  (r.lastLogIndexLocked, (r.termAtLocked r.lastLogIndexLocked).getD 0)

def candidateLogIsUpToDateLocked (candidateIndex candidateTerm : Nat) : Bool :=
  let (localIndex, localTerm) := r.lastLogInfoLocked
  if candidateTerm ≠ localTerm then candidateTerm > localTerm else candidateIndex ≥ localIndex

def matchesPrefixLocked (index term : Nat) : Bool :=
  match r.termAtLocked index with
  | none => false
  | some localTerm => localTerm = term

/-- The loop of `replicationPlanLocked` from the entry at `offset` on. The result
is the index to truncate from (zero for none) and the entries to append. -/
def replicationPlanFrom (prevLogIndex : Nat) :
    Nat → List LogEntry → Except String (Nat × List LogEntry)
  | _, [] => .ok (0, [])
  | offset, entry :: rest =>
      let expectedIndex := prevLogIndex + offset + 1
      match entry.validate with
      | .error err => .error err
      | .ok () =>
          if entry.index ≠ expectedIndex then
            .error s!"entry index {entry.index} does not follow previous index {expectedIndex - 1}"
          else if entry.index ≤ r.lastLogIndexLocked then
            match r.entryAtLocked entry.index with
            | none => .error s!"entry {entry.index} is compacted into the snapshot"
            | some existing =>
                if existing = entry then replicationPlanFrom prevLogIndex (offset + 1) rest
                else if existing.term = entry.term then
                  .error s!"entry {entry.index} has matching term but different command"
                else if entry.index ≤ r.commitIndex then
                  .error s!"cannot replace committed entry {entry.index}"
                else .ok (entry.index, entry :: rest)
          else if entry.index ≠ r.lastLogIndexLocked + 1 then
            .error s!"entry {entry.index} leaves a log gap"
          else .ok (0, entry :: rest)

/-- What the loop does with an entry that it does not refuse: the log has it and
the plan goes on behind it, it takes the place of an uncommitted entry of another
term, or it lies right behind the log. -/
inductive PlanStep (prevLogIndex offset : Nat) (entry : LogEntry) (rest : List LogEntry) :
    Nat → List LogEntry → Prop
  | present {truncateFrom : Nat} {new : List LogEntry} (hat : r.entryAtLocked entry.index = some entry)
      (hrest : r.replicationPlanFrom prevLogIndex (offset + 1) rest = .ok (truncateFrom, new)) :
      PlanStep prevLogIndex offset entry rest truncateFrom new
  | replace (existing : LogEntry) (hat : r.entryAtLocked entry.index = some existing)
      (hterm : existing.term ≠ entry.term) (hle : entry.index ≤ r.lastLogIndexLocked)
      (hcommit : r.commitIndex < entry.index) :
      PlanStep prevLogIndex offset entry rest entry.index (entry :: rest)
  | extend (hnext : entry.index = r.lastLogIndexLocked + 1) :
      PlanStep prevLogIndex offset entry rest 0 (entry :: rest)

theorem planStep_of_replicationPlanFrom {prevLogIndex offset truncateFrom : Nat} {entry : LogEntry}
    {rest new : List LogEntry}
    (h : r.replicationPlanFrom prevLogIndex offset (entry :: rest) = .ok (truncateFrom, new)) :
    entry.Valid ∧ entry.index = prevLogIndex + offset + 1 ∧
      r.PlanStep prevLogIndex offset entry rest truncateFrom new := by
  simp only [replicationPlanFrom] at h
  split at h
  · cases h
  rename_i hvalid
  split at h
  · cases h
  rename_i hindex
  refine ⟨hvalid, not_not.mp hindex, ?_⟩
  split at h
  · rename_i hle
    split at h
    · cases h
    rename_i existing hat
    split at h
    · rename_i heq
      subst heq
      exact .present hat h
    split at h
    · cases h
    rename_i hterm
    split at h
    · cases h
    rename_i hcommit
    obtain ⟨rfl, rfl⟩ := Prod.mk.inj (Except.ok.inj h)
    exact .replace existing hat hterm hle (Nat.lt_of_not_le hcommit)
  · split at h
    · cases h
    rename_i hnext
    obtain ⟨rfl, rfl⟩ := Prod.mk.inj (Except.ok.inj h)
    exact .extend (not_not.mp hnext)

def replicationPlanLocked (prevLogIndex : Nat) (entries : List LogEntry) :
    Except String (Nat × List LogEntry) :=
  r.replicationPlanFrom prevLogIndex 0 entries

end Raft

end DistributedKv
