import DistributedKv.Raft.Node
import Mathlib.Data.List.Nodup

/-!
Conversion of the RPC messages to protobuf and back
(`internal/transport/transport.go`). Node IDs are 64-bit in the program and
`int32` on the wire; everything else has the same range on both sides. So a
message survives the wire exactly when its ID is below 2³¹, and that is the
range in which the IDs of a configuration stay apart.
-/

namespace DistributedKv

/-! ## The messages of `raft.proto` -/

namespace Raftpb

/-- proto3 enumerations are open: any other number can arrive. -/
inductive Operation where
  | unspecified
  | set
  | delete
  | unrecognized (number : Int32)
  deriving DecidableEq, Repr

structure LogEntry where
  index : Nat
  term : Nat
  operation : Operation
  key : Bytes
  value : Bytes
  deriving DecidableEq, Repr

structure RequestVoteRequest where
  term : Nat
  candidateId : Int32
  lastLogIndex : Nat
  lastLogTerm : Nat
  deriving DecidableEq, Repr

structure RequestVoteResponse where
  term : Nat
  voteGranted : Bool
  deriving DecidableEq, Repr

structure AppendEntriesRequest where
  term : Nat
  leaderId : Int32
  prevLogIndex : Nat
  prevLogTerm : Nat
  entries : List LogEntry
  leaderCommit : Nat
  deriving DecidableEq, Repr

structure AppendEntriesResponse where
  term : Nat
  success : Bool
  deriving DecidableEq, Repr

/-- `covers` is the history variable of the request, which is not on the wire. -/
structure InstallSnapshotRequest where
  term : Nat
  leaderId : Int32
  lastIncludedIndex : Nat
  lastIncludedTerm : Nat
  data : Bytes
  covers : List DistributedKv.LogEntry
  deriving DecidableEq, Repr

structure InstallSnapshotResponse where
  term : Nat
  deriving DecidableEq, Repr

end Raftpb

/-! ## The conversions -/

/-- `int32(id)` keeps the low 32 bits. -/
def idToProto (id : Int) : Int32 := Int32.ofInt id

def idFromProto (id : Int32) : Int := id.toInt

def requestVoteToProto (request : RequestVoteRequest) : Raftpb.RequestVoteRequest :=
  ⟨request.term, idToProto request.candidateID, request.lastLogIndex, request.lastLogTerm⟩

def requestVoteFromProto (request : Raftpb.RequestVoteRequest) : RequestVoteRequest :=
  ⟨request.term, idFromProto request.candidateId, request.lastLogIndex, request.lastLogTerm⟩

def requestVoteResponseToProto (response : RequestVoteResponse) : Raftpb.RequestVoteResponse :=
  ⟨response.term, response.voteGranted⟩

def requestVoteResponseFromProto (response : Raftpb.RequestVoteResponse) : RequestVoteResponse :=
  ⟨response.term, response.voteGranted⟩

def operationToProto : Operation → Raftpb.Operation
  | .noop => .unspecified
  | .set => .set
  | .delete => .delete
  | .other _ => .unspecified

def operationFromProto : Raftpb.Operation → Operation
  | .unspecified => .noop
  | .set => .set
  | .delete => .delete
  | .unrecognized _ => .other "invalid"

def logEntryToProto (entry : LogEntry) : Raftpb.LogEntry :=
  ⟨entry.index, entry.term, operationToProto entry.operation, entry.key, entry.value⟩

def logEntryFromProto (entry : Raftpb.LogEntry) : LogEntry :=
  ⟨entry.index, entry.term, operationFromProto entry.operation, entry.key, entry.value⟩

def appendEntriesToProto (request : AppendEntriesRequest) : Raftpb.AppendEntriesRequest :=
  ⟨request.term, idToProto request.leaderID, request.prevLogIndex, request.prevLogTerm,
    request.entries.map logEntryToProto, request.leaderCommit⟩

def appendEntriesFromProto (request : Raftpb.AppendEntriesRequest) : AppendEntriesRequest :=
  ⟨request.term, idFromProto request.leaderId, request.prevLogIndex, request.prevLogTerm,
    request.entries.map logEntryFromProto, request.leaderCommit⟩

def appendEntriesResponseToProto (response : AppendEntriesResponse) :
    Raftpb.AppendEntriesResponse := ⟨response.term, response.success⟩

def appendEntriesResponseFromProto (response : Raftpb.AppendEntriesResponse) :
    AppendEntriesResponse := ⟨response.term, response.success⟩

def installSnapshotToProto (request : InstallSnapshotRequest) : Raftpb.InstallSnapshotRequest :=
  ⟨request.term, idToProto request.leaderID, request.lastIncludedIndex, request.lastIncludedTerm,
    request.data, request.covers⟩

def installSnapshotFromProto (request : Raftpb.InstallSnapshotRequest) : InstallSnapshotRequest :=
  ⟨request.term, idFromProto request.leaderId, request.lastIncludedIndex,
    request.lastIncludedTerm, request.data, request.covers⟩

def installSnapshotResponseToProto (response : InstallSnapshotResponse) :
    Raftpb.InstallSnapshotResponse := ⟨response.term⟩

def installSnapshotResponseFromProto (response : Raftpb.InstallSnapshotResponse) :
    InstallSnapshotResponse := ⟨response.term⟩

/-! ## Round trips -/

/-- The ID as the receiver of a message sees it. -/
def wireID (id : Int) : Int := idFromProto (idToProto id)

theorem wireID_eq_self_iff {id : Int} (h : 0 ≤ id) : wireID id = id ↔ id < 2147483648 := by
  have hbmod : wireID id = id.bmod 4294967296 := Int32.toInt_ofInt
  rw [hbmod, Int.bmod_def]
  split <;> omega

/-- The operation has a number in `raft.proto`. -/
def LogEntry.Numbered (e : LogEntry) : Prop := ∀ name, e.operation ≠ .other name

theorem LogEntry.numbered_of_takes {e : LogEntry} (h : e.operation.Takes e.key e.value) :
    e.Numbered := by
  intro name heq
  rw [heq] at h
  exact h

theorem logEntry_roundTrip {e : LogEntry} (h : e.Numbered) :
    logEntryFromProto (logEntryToProto e) = e := by
  obtain ⟨index, term, operation, key, value⟩ := e
  cases operation with
  | other name => exact absurd rfl (h name)
  | _ => rfl

theorem requestVote_roundTrip_iff (request : RequestVoteRequest) :
    requestVoteFromProto (requestVoteToProto request) = request ↔
      wireID request.candidateID = request.candidateID := by
  obtain ⟨term, candidateID, lastLogIndex, lastLogTerm⟩ := request
  simp [requestVoteFromProto, requestVoteToProto, wireID]

theorem appendEntries_roundTrip_iff {request : AppendEntriesRequest}
    (h : ∀ e ∈ request.entries, e.Numbered) :
    appendEntriesFromProto (appendEntriesToProto request) = request ↔
      wireID request.leaderID = request.leaderID := by
  obtain ⟨term, leaderID, prevLogIndex, prevLogTerm, entries, leaderCommit⟩ := request
  have hentries : (entries.map logEntryToProto).map logEntryFromProto = entries := by
    rw [List.map_map]
    exact (List.map_congr_left fun e he => logEntry_roundTrip (h e he)).trans (List.map_id entries)
  simp [appendEntriesFromProto, appendEntriesToProto, wireID, hentries]

theorem installSnapshot_roundTrip_iff (request : InstallSnapshotRequest) :
    installSnapshotFromProto (installSnapshotToProto request) = request ↔
      wireID request.leaderID = request.leaderID := by
  obtain ⟨term, leaderID, index, lastTerm, data, covers⟩ := request
  simp [installSnapshotFromProto, installSnapshotToProto, wireID]

namespace Config

def nodeIDs (c : Config) : List Int := c.self.id :: c.peerIDs

/-- The wire conversion loses nothing of the messages between these nodes. -/
structure WireFaithful (c : Config) : Prop where
  requestVote : ∀ request : RequestVoteRequest, request.candidateID ∈ c.nodeIDs →
    requestVoteFromProto (requestVoteToProto request) = request
  appendEntries : ∀ request : AppendEntriesRequest, request.leaderID ∈ c.nodeIDs →
    (∀ e ∈ request.entries, e.Valid) →
    appendEntriesFromProto (appendEntriesToProto request) = request
  installSnapshot : ∀ request : InstallSnapshotRequest, request.leaderID ∈ c.nodeIDs →
    installSnapshotFromProto (installSnapshotToProto request) = request
  requestVoteResponse : ∀ response,
    requestVoteResponseFromProto (requestVoteResponseToProto response) = response
  appendEntriesResponse : ∀ response,
    appendEntriesResponseFromProto (appendEntriesResponseToProto response) = response
  installSnapshotResponse : ∀ response,
    installSnapshotResponseFromProto (installSnapshotResponseToProto response) = response
  distinct : (c.nodeIDs.map idToProto).Nodup
  noneIsNoVote : ∀ id ∈ c.nodeIDs, wireID id ≠ noVote

/-- The nodes of a valid configuration understand each other if and only if all
their IDs are below 2³¹. -/
theorem wireFaithful_iff {c : Config} (h : c.validate = .ok ()) :
    c.WireFaithful ↔ ∀ id ∈ c.nodeIDs, id < 2147483648 := by
  obtain ⟨-, hnodup, hnonneg⟩ := validate_ids h
  constructor
  · intro hw id hid
    rw [← wireID_eq_self_iff (hnonneg id hid)]
    exact (requestVote_roundTrip_iff ⟨0, id, 0, 0⟩).mp (hw.requestVote _ hid)
  · intro hsmall
    have hwire : ∀ id ∈ c.nodeIDs, wireID id = id :=
      fun id hid => (wireID_eq_self_iff (hnonneg id hid)).mpr (hsmall id hid)
    refine ⟨fun r hr => ?_, fun r hr hv => ?_, fun r hr => ?_, fun _ => rfl, fun _ => rfl,
      fun _ => rfl, ?_, fun id hid => ?_⟩
    · exact (requestVote_roundTrip_iff r).mpr (hwire _ hr)
    · have hnumbered : ∀ e ∈ r.entries, e.Numbered := fun e he =>
        LogEntry.numbered_of_takes ((LogEntry.valid_iff e).mp (hv e he)).2
      exact (appendEntries_roundTrip_iff hnumbered).mpr (hwire _ hr)
    · exact (installSnapshot_roundTrip_iff r).mpr (hwire _ hr)
    · -- IDs that came back the same were different on the wire
      refine List.Nodup.map_on (fun a ha b hb hab => ?_) hnodup
      rw [← hwire a ha, ← hwire b hb]
      exact congrArg idFromProto hab
    · have := hnonneg id hid
      rw [hwire id hid, noVote]
      omega

/-- The members of the local three-node cluster with other IDs. -/
def withIDs (a b c : Int) : Config :=
  ⟨⟨a, "127.0.0.1:9001", "127.0.0.1:8001"⟩,
    [⟨b, "127.0.0.1:9002", "127.0.0.1:8002"⟩, ⟨c, "127.0.0.1:9003", "127.0.0.1:8003"⟩],
    "data", 300000000, 600000000, 50000000, 1000⟩

theorem wireFaithful_iff_local : (withIDs 1 2 3).WireFaithful :=
  (wireFaithful_iff (c := withIDs 1 2 3) (by decide)).mpr (by decide)

/-- The ID 2³² - 1 arrives as "no vote", and 2³² + 1 as the ID 1. -/
theorem wide_ids_collide :
    (withIDs 4294967295 1 4294967297).validate = .ok () ∧
    (requestVoteFromProto (requestVoteToProto ⟨1, 4294967295, 0, 0⟩)).candidateID = noVote ∧
    idToProto 4294967297 = idToProto 1 := by
  decide

end Config

end DistributedKv
