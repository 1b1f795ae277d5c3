import Mathlib.Data.List.Basic

/-!
Static cluster membership (`internal/config/config.go`). Durations are whole
nanoseconds.
-/

namespace DistributedKv

namespace Filepath

/-- One element of a path in `filepath.Clean`, over the elements kept so far,
the last one first. -/
def cleanElement (rooted : Bool) (kept : List String) (element : String) : List String :=
  if element = "" ∨ element = "." then kept
  else if element = ".." then
    match kept with
    | [] => if rooted then [] else [".."]
    | last :: rest => if last = ".." then ".." :: kept else rest
  else element :: kept

/-- `filepath.Join` of a directory that is not empty and a file's name. -/
def join (dir name : String) : String :=
  let rooted := dir.startsWith "/"
  (if rooted then "/" else "") ++ "/".intercalate
    (((dir ++ "/" ++ name).splitOn "/").foldl (cleanElement rooted) []).reverse

end Filepath

/-- One member of the cluster. -/
structure Node where
  id : Int
  raftAddr : String
  httpAddr : String
  deriving DecidableEq, Repr

structure Config where
  self : Node
  peers : List Node
  dataDir : String
  electionTimeoutMin : Int
  electionTimeoutMax : Int
  heartbeatInterval : Int
  snapshotThreshold : Nat
  deriving DecidableEq, Repr

namespace Config

def defaultSnapshotThreshold : Nat := 1000

def raftStatePath (c : Config) : String := Filepath.join c.dataDir "raft-state.json"

def clusterSize (c : Config) : Nat := c.peers.length + 1

def peerByID (c : Config) (id : Int) : Option Node := c.peers.find? (·.id = id)

/-- The loop of `Validate` over the peers, with the sets it has collected. -/
def validatePeers (ids : List Int) (raftAddrs httpAddrs : List String) :
    List Node → Except String Unit
  | [] => .ok ()
  | peer :: peers =>
      if peer.id < 0 ∨ peer.raftAddr = "" ∨ peer.httpAddr = "" then
        .error s!"peer {peer.id} must have a non-negative ID, Raft address, and HTTP address"
      else if peer.id ∈ ids then .error s!"duplicate node ID {peer.id}"
      else if peer.raftAddr ∈ raftAddrs then
        .error s!"duplicate Raft address {repr peer.raftAddr}"
      else if peer.httpAddr ∈ httpAddrs then
        .error s!"duplicate HTTP address {repr peer.httpAddr}"
      else validatePeers (peer.id :: ids) (peer.raftAddr :: raftAddrs)
        (peer.httpAddr :: httpAddrs) peers

def validate (c : Config) : Except String Unit :=
  if c.clusterSize ≠ 3 then
    .error s!"Phase 3 requires exactly 3 static cluster members, got {c.clusterSize}"
  else if c.self.id < 0 then .error "node ID must be non-negative"
  else if c.self.httpAddr = "" then .error "local HTTP address cannot be empty"
  else if c.dataDir = "" then .error "data directory cannot be empty"
  else if c.electionTimeoutMin ≤ 0 ∨ c.electionTimeoutMax ≤ 0 then
    .error "election timeouts must be positive"
  else if c.electionTimeoutMin ≥ c.electionTimeoutMax then
    .error "minimum election timeout must be smaller than maximum election timeout"
  else if c.heartbeatInterval ≤ 0 ∨ c.heartbeatInterval ≥ c.electionTimeoutMin then
    .error "heartbeat interval must be positive and smaller than the minimum election timeout"
  else validatePeers [c.self.id] (if c.self.raftAddr ≠ "" then [c.self.raftAddr] else [])
    [c.self.httpAddr] c.peers

def peerIDs (c : Config) : List Int := c.peers.map Node.id

theorem validatePeers_ids {ids : List Int} {raftAddrs httpAddrs : List String} {peers : List Node}
    (h : validatePeers ids raftAddrs httpAddrs peers = .ok ()) :
    (peers.map Node.id).Nodup ∧ (∀ n ∈ peers.map Node.id, 0 ≤ n ∧ n ∉ ids) := by
  induction peers generalizing ids raftAddrs httpAddrs with
  | nil => simp
  | cons peer peers ih =>
    unfold validatePeers at h
    split at h
    · simp at h
    split at h
    · simp at h
    split at h
    · simp at h
    split at h
    · simp at h
    rename_i hneg hid _ _
    obtain ⟨hnodup, hall⟩ := ih h
    have hnonneg : 0 ≤ peer.id := by
      by_contra hlt
      exact hneg (Or.inl (by omega))
    rw [List.map_cons, List.nodup_cons, List.forall_mem_cons]
    refine ⟨⟨fun hmem => (hall _ hmem).2 (by simp), hnodup⟩, ⟨hnonneg, hid⟩, fun n hn => ?_⟩
    obtain ⟨h0, hnot⟩ := hall n hn
    exact ⟨h0, fun hmem => hnot (by simp [hmem])⟩

theorem validatePeers_httpAddrs {ids : List Int} {raftAddrs httpAddrs : List String}
    {peers : List Node} (h : validatePeers ids raftAddrs httpAddrs peers = .ok ()) :
    ∀ peer ∈ peers, peer.httpAddr ∉ httpAddrs := by
  induction peers generalizing ids raftAddrs httpAddrs with
  | nil => simp
  | cons peer peers ih =>
    unfold validatePeers at h
    iterate 4
      split at h
      · cases h
    rename_i hnew
    rw [List.forall_mem_cons]
    exact ⟨hnew, fun p hp hmem => ih h p hp (List.mem_cons_of_mem _ hmem)⟩

/-- Nobody else is listed under the node's own HTTP address. -/
theorem validate_httpAddrs {c : Config} (h : c.validate = .ok ()) :
    ∀ peer ∈ c.peers, peer.httpAddr ≠ c.self.httpAddr := by
  unfold validate at h
  iterate 7
    split at h
    · cases h
  exact fun peer hp heq => validatePeers_httpAddrs h peer hp (heq ▸ List.mem_singleton_self _)

/-- A valid configuration lists three pairwise distinct, non-negative IDs. -/
theorem validate_ids {c : Config} (h : c.validate = .ok ()) :
    c.peers.length = 2 ∧ (c.self.id :: c.peerIDs).Nodup ∧
      ∀ n ∈ c.self.id :: c.peerIDs, 0 ≤ n := by
  unfold validate at h
  split at h
  · simp at h
  rename_i hsize
  split at h
  · simp at h
  rename_i hself
  iterate 5
    split at h
    · simp at h
  obtain ⟨hnodup, hall⟩ := validatePeers_ids h
  refine ⟨?_, ?_, ?_⟩
  · simp only [clusterSize, ne_eq, Decidable.not_not] at hsize
    omega
  · rw [List.nodup_cons]
    exact ⟨fun hmem => (hall _ hmem).2 (by simp), hnodup⟩
  · rw [List.forall_mem_cons]
    exact ⟨by omega, fun n hn => (hall n hn).1⟩

end Config

end DistributedKv
