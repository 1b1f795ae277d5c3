import DistributedKv.Goroutines.Refinement

/-!
What the map `replicating` gives a leader. However the goroutines interleave, and
however often leadership is lost and won meanwhile, at most one of them works for
a peer; so the response it handles finds the peer's cursor where its request was
built from, and moves it from there.
-/

namespace DistributedKv.Goroutines

open Crash Prog

variable {σ : Type} {C : Cluster σ} {events : List Event} {n : Int} {h : Host σ}

/-- A node that is up. -/
theorem hostOk_of_up (hup : (run C events).sites n = .up h) : ∃ net, HostOk (C.env n) net h := by
  obtain ⟨actions, hs, -⟩ := exists_sim C events
  exact ⟨_, hs.hosts n h hup⟩

/-- At every moment, `replicating` has an entry for a peer exactly when a goroutine
is between `beginReplication` and `endReplication` for it, and there is only one. -/
theorem one_exchange_per_peer (hup : (run C events).sites n = .up h) (peer : Int) :
    (h.routines.replicating peer = true ↔
      ∃ x ∈ h.routines.exchanges, x.slot = some peer) ∧
    ∀ (j k : Nat) (x y : Exchange), h.routines.exchanges[j]? = some x →
      h.routines.exchanges[k]? = some y → x.slot = some peer → y.slot = some peer → j = k := by
  obtain ⟨net, ho⟩ := hostOk_of_up hup
  exact ⟨ho.exclusive.taken_iff peer, fun _ _ _ _ hj hk hx hy => ho.exclusive.unique hj hk hx hy⟩

/-- Node 1 wins the first term and triggers replication twice; one goroutine for
node 2 begins its exchange, and the other one finds it busy. -/
def busyEvents : List Event :=
  [.restart 1 [], .restart 2 [], .move 1 .electionTimeout [],
    .move 2 (.handle (.voteRequest ⟨1, 1, 0, 0⟩)) [], .move 1 (.vote 2 1 ⟨1, true⟩) [],
    .move 1 .replicateAll [], .move 1 .replicateAll [], .move 1 (.exchange 0 none) [],
    .move 1 (.exchange 2 none) [], .move 1 (.exchange 0 none) [], .move 1 (.exchange 0 none) []]

/-- The first request of node 1 to node 2. -/
def firstRequest : AppendEntriesRequest := ⟨1, 1, 1, 1, [], 0⟩

theorem one_exchange_per_peer_busyEvents :
    ∃ h, (run (localCluster 1) busyEvents).sites 1 = .up h ∧
      h.routines.exchanges =
        [⟨2, .awaitAppend firstRequest⟩, ⟨3, .started⟩, ⟨2, .finished⟩, ⟨3, .started⟩] ∧
      (h.routines.replicating 2 = true ↔ ∃ x ∈ h.routines.exchanges, x.slot = some 2) := by
  refine ⟨_, rfl, rfl, ?_⟩
  exact (@one_exchange_per_peer _ (localCluster 1) busyEvents 1 _ rfl 2).1

/-! ## The cursor -/

section Cursor

variable {env : Env σ} {r : Raft σ} {d : Disk} {peer : Int}

theorem advanceCommitIndexLocked_keeps_cursors :
    wp Any (fun _ => True) (advanceCommitIndexLocked env)
      (fun _ r' _ => r'.nextIndex = r.nextIndex ∧ r'.matchIndex = r.matchIndex) r d := by
  simp only [advanceCommitIndexLocked, saveStableValuesLocked, wp_bind, wp_read]
  cases r.commitCandidate env r.lastLogIndexLocked with
  | none => exact ⟨rfl, rfl⟩
  | some index =>
    rw [wp_bind]
    refine wp_store_of_keeps trivial (fun _ _ => trivial) (fun _ => trivial) ?_
    rintro (_ | _) _ _
    · exact ⟨rfl, rfl⟩
    · exact ⟨rfl, rfl⟩

/-- A match from a cursor that stands at its predecessor puts the cursor right
behind what the peer is known to hold. -/
theorem recordMatch_cursor {previous matched : Nat} (hcursor : r.nextIndex peer = some (previous + 1))
    (hle : previous ≤ matched) :
    matched ≤ ((r.recordMatch peer matched).matchIndex peer).getD 0 ∧
      (r.recordMatch peer matched).nextIndex peer =
        some (((r.recordMatch peer matched).matchIndex peer).getD 0 + 1) := by
  simp only [Raft.recordMatch, hcursor, Option.getD_some]
  by_cases hnew : matched > (r.matchIndex peer).getD 0
  · simp only [if_pos hnew, setAt_self, Option.getD_some, le_refl, true_and]
    split
    · exact setAt_self _ _ _
    · rw [hcursor]
      congr 1
      omega
  · simp only [if_neg hnew]
    refine ⟨Nat.not_lt.mp hnew, ?_⟩
    split
    · exact setAt_self _ _ _
    · rw [hcursor]
      congr 1
      omega

/-- A response in the term of its request, to a leader of that term whose cursor
still stands where the request was built from. -/
theorem handleAppendEntriesResponse_moves {request : AppendEntriesRequest}
    {response : AppendEntriesResponse} (hleads : r.Leads request.term)
    (hcursor : r.nextIndex peer = some (request.prevLogIndex + 1))
    (hterm : response.term = request.term) :
    wp Any (fun _ => True) (handleAppendEntriesResponse env peer request response)
      (fun again r' _ =>
        (response.success = true → again = false ∧
          request.prevLogIndex + request.entries.length ≤ (r'.matchIndex peer).getD 0 ∧
          r'.nextIndex peer = some ((r'.matchIndex peer).getD 0 + 1)) ∧
        (response.success = false → (again = true ↔ request.prevLogIndex ≠ 0) ∧
          r'.matchIndex = r.matchIndex ∧
          r'.nextIndex peer = some (max 1 request.prevLogIndex))) r d := by
  obtain ⟨hl, hreq⟩ := hleads
  simp only [handleAppendEntriesResponse, wp_bind, wp_read]
  rw [if_neg (by omega), if_neg (current_response hl hreq.symm (by omega))]
  cases hsuccess : response.success with
  | false =>
    rw [if_pos rfl, hcursor]
    simp only [Option.getD_some, wp_ite, wp_bind, wp_modify, wp_pure]
    refine ⟨fun hle => ⟨fun ht => (by cases ht), fun _ => ⟨?_, trivial, ?_⟩⟩,
      fun hgt => ⟨fun ht => (by cases ht), fun _ => ⟨?_, trivial, ?_⟩⟩⟩
    · exact ⟨fun ht => (by cases ht), fun hne => absurd hle (by omega)⟩
    · rw [hcursor]
      congr 1
      omega
    · exact ⟨fun _ => by omega, fun _ => trivial⟩
    · rw [setAt_self, hcursor]
      simp only [Option.getD_some, Option.some.injEq]
      omega
  | true =>
    rw [if_neg (by simp)]
    simp only [wp_bind, wp_modify, wp_pure]
    refine wp_mono _ _ _ advanceCommitIndexLocked_keeps_cursors ?_ fun _ hd => hd
    rintro _ r' _ ⟨hnext, hmatch⟩
    refine ⟨fun _ => ⟨trivial, ?_⟩, fun ht => by cases ht⟩
    rw [hnext, hmatch]
    exact recordMatch_cursor hcursor (Nat.le_add_right _ _)

end Cursor

/-- A goroutine handles the response it waits for while its node still leads the
term of the request. The cursor then moves from where the request was built: a
refusal puts it one back, so that the loop goes on, and a success right behind
what the peer is known to hold, which includes everything that was sent. -/
theorem response_moves_cursor (hup : (run C events).sites n = .up h) {k : Nat} {peer : Int}
    {request : AppendEntriesRequest}
    (hk : h.routines.exchanges[k]? = some ⟨peer, .awaitAppend request⟩)
    (hleads : h.raft.Leads request.term) {response : AppendEntriesResponse}
    (hterm : response.term = request.term) {answers : List Outcome} {again : Bool} {r' : Raft σ}
    {d' : Disk} (hrun : (handleAppendEntriesResponse (C.env n) peer request response).run answers
      h.raft h.disk = .done again r' d') :
    h.raft.nextIndex peer = some (request.prevLogIndex + 1) ∧
    (response.success = true → again = false ∧
      request.prevLogIndex + request.entries.length ≤ (r'.matchIndex peer).getD 0 ∧
      r'.nextIndex peer = some ((r'.matchIndex peer).getD 0 + 1)) ∧
    (response.success = false → (again = true ↔ request.prevLogIndex ≠ 0) ∧
      r'.matchIndex = h.raft.matchIndex ∧
      r'.nextIndex peer = some (max 1 request.prevLogIndex)) := by
  obtain ⟨net, ho⟩ := hostOk_of_up hup
  obtain ⟨-, hcursor⟩ := ho.relies k _ hk
  have hmoves := wp_run (handleAppendEntriesResponse (C.env n) peer request response) _ answers
    h.raft h.disk (fun _ _ => trivial)
    (handleAppendEntriesResponse_moves hleads (hcursor hleads) hterm)
  rw [hrun] at hmoves
  exact ⟨hcursor hleads, hmoves⟩

/-- Node 2 has no entry yet and refuses; the next try starts at its first entry. -/
theorem response_moves_cursor_busyEvents :
    ∃ h r' d', (run (localCluster 1) busyEvents).sites 1 = .up h ∧
      (handleAppendEntriesResponse ((localCluster 1).env 1) 2 firstRequest ⟨1, false⟩).run []
        h.raft h.disk = .done true r' d' ∧ r'.nextIndex 2 = some 1 := by
  refine ⟨_, _, _, rfl, rfl, ?_⟩
  have hmoves := @response_moves_cursor _ (localCluster 1) busyEvents 1 _ rfl 0 2 firstRequest rfl
    ⟨rfl, rfl⟩ ⟨1, false⟩ rfl [] true _ _ rfl
  exact (hmoves.2.2 rfl).2.2

end DistributedKv.Goroutines
