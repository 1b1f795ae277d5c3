import DistributedKv.Raft.Log

/-!
The three files of a node: the stable state (`stable_state.go`), the log
(`log.go`) and the snapshot (`internal/snapshot/snapshot.go`), with the store
calls that rewrite them. Replacing a file is all or nothing; an append that is
cut short leaves a prefix of the batch.
-/

namespace DistributedKv

open Crash

def noVote : Int := -1

structure StableState where
  currentTerm : Nat
  votedFor : Int
  commitIndex : Nat
  lastApplied : Nat
  deriving DecidableEq, Repr

/-- What `FileStableStore.Load` returns when there is no file yet. -/
def StableState.initial : StableState := ⟨0, noVote, 0, 0⟩

/-- What `FileStableStore` checks when it saves and when it loads. -/
def StableState.Accepted (s : StableState) : Prop :=
  noVote ≤ s.votedFor ∧ s.lastApplied ≤ s.commitIndex

/-- A state-machine image and the log entry through which it is valid. `covers`
is a history variable: the entries `1..lastIncludedIndex` that the image stands
for. It is carried along and no function of the model reads it. -/
structure Snapshot where
  lastIncludedIndex : Nat
  lastIncludedTerm : Nat
  data : Bytes
  covers : List LogEntry
  deriving DecidableEq, Repr

def Snapshot.validate (s : Snapshot) : Except String Unit :=
  if s.lastIncludedIndex = 0 ∧ s.lastIncludedTerm ≠ 0 then
    .error s!"empty snapshot cannot have last included term {s.lastIncludedTerm}"
  else if s.data = [] then .error "snapshot data cannot be empty"
  else .ok ()

def Snapshot.metadata (s : Snapshot) : SnapshotMetadata :=
  ⟨s.lastIncludedIndex, s.lastIncludedTerm⟩

theorem Snapshot.validate_ok_iff (s : Snapshot) :
    s.validate = .ok () ↔ s.metadata.validate = .ok () ∧ s.data ≠ [] := by
  unfold validate SnapshotMetadata.validate metadata
  split
  · exact ⟨nofun, nofun⟩
  split
  · rename_i hnil
    exact ⟨nofun, fun h => absurd hnil h.2⟩
  · rename_i hdata
    exact ⟨fun _ => ⟨rfl, hdata⟩, fun _ => rfl⟩

/-- What survives a crash. A missing stable state reads as `StableState.initial`. -/
structure Disk where
  stable : StableState
  log : List LogEntry
  snapshot : Option Snapshot
  deriving DecidableEq, Repr

def Disk.empty : Disk := ⟨.initial, [], none⟩

namespace Disk

/-- A call that replaces a file: a crash leaves the old or the new contents. -/
def replace (run : Disk → Except String Disk) : Write Disk where
  run := run
  part n d :=
    match n, run d with
    | 0, _ => d
    | _, .ok d' => d'
    | _, .error _ => d

theorem replace_part (run : Disk → Except String Disk) (n : Nat) (d : Disk) :
    (replace run).part n d = d ∨ run d = .ok ((replace run).part n d) := by
  cases n with
  | zero => exact .inl rfl
  | succ n =>
    cases h : run d with
    | error err => exact .inl (by simp [replace, h])
    | ok d' => exact .inr (by simp [replace, h])

/-- `FileStableStore.Save` -/
def saveStable (state : StableState) : Write Disk :=
  replace fun d =>
    if state.votedFor < noVote then .error s!"invalid voted_for {state.votedFor}"
    else if state.lastApplied > state.commitIndex then
      .error "last_applied cannot exceed commit_index"
    else .ok { d with stable := state }

theorem saveStable_ok_iff {state : StableState} {d d' : Disk} :
    (saveStable state).run d = .ok d' ↔ state.Accepted ∧ d' = { d with stable := state } := by
  simp only [saveStable, replace]
  split
  · rename_i hvote
    exact ⟨nofun, fun h => absurd h.1.1 (Int.not_le.mpr hvote)⟩
  split
  · rename_i happlied
    exact ⟨nofun, fun h => absurd h.1.2 (Nat.not_le.mpr happlied)⟩
  · rename_i hvote happlied
    refine ⟨fun h => ⟨⟨Int.not_lt.mp hvote, Nat.not_lt.mp happlied⟩, (Except.ok.inj h).symm⟩, ?_⟩
    rintro ⟨-, rfl⟩
    rfl

/-- `FileStore.Save` of the snapshot package -/
def saveSnapshot (s : Snapshot) : Write Disk :=
  replace fun d =>
    match s.validate with
    | .error err => .error err
    | .ok () => .ok { d with snapshot := some s }

/-- `FileLogStore.Append`: the only call that a crash can leave half done. The
disk keeps the entries as they are given; what their JSON in the file reads back
as is `Disk.reloaded`. -/
def appendLog (es : List LogEntry) : Write Disk where
  run d :=
    match LogStore.append es d.log with
    | .error err => .error err
    | .ok l => .ok { d with log := l }
  part n d := { d with log := d.log ++ es.take n }

/-- `FileLogStore.TruncateFrom` -/
def truncateFrom (index : Nat) : Write Disk :=
  replace fun d =>
    match LogStore.truncateFrom index d.log with
    | .error err => .error err
    | .ok l => .ok { d with log := l }

/-- `FileLogStore.CompactThrough` -/
def compactThrough (index : Nat) : Write Disk :=
  replace fun d =>
    match LogStore.compactThrough index d.log with
    | .error err => .error err
    | .ok l => .ok { d with log := l }

end Disk

end DistributedKv
