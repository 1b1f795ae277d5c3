import DistributedKv.Cluster.Exchange
import DistributedKv.Cluster.Reload

/-!
When the loop of `replicateToPeer` brings a follower up to date. It does, unless
the follower has compacted its log beyond the leader's boundary and the leader
would have to back up below that place: the follower refuses every entry from
there, the leader's snapshot is too old to be installed, and the loop goes around
for ever. Besides, a snapshot that is needed has to be on disk and the follower
free to take it.
-/

namespace DistributedKv

open Crash Prog

variable {σ : Type}

/-- The loop gets to the point where a snapshot has to be sent: no entry that the
leader still has is accepted as the one before the rest. -/
def Pair.NeedsSnapshot (p : Pair σ) (next : Nat) : Prop :=
  next ≤ p.leader.snapshotMeta.lastIncludedIndex ∨
    ∀ prev, p.leader.snapshotMeta.lastIncludedIndex ≤ prev → prev < next → p.Matches prev = false

/-- The follower has not compacted beyond what the leader could send it, and a
snapshot that is needed can be installed. -/
structure Pair.Replicable (p : Pair σ) (next : Nat) : Prop where
  boundary : p.follower.snapshotMeta.lastIncludedIndex ≤ p.leader.snapshotMeta.lastIncludedIndex ∨
    p.follower.snapshotMeta.lastIncludedIndex < next
  snapshot : p.NeedsSnapshot next → p.Installable

theorem Pair.SameLogs.needsSnapshot_iff {p q : Pair σ} (h : p.SameLogs q) (next : Nat) :
    q.NeedsSnapshot next ↔ p.NeedsSnapshot next := by
  simp only [NeedsSnapshot, h.leader.snapshotMeta, h.matches_eq]

namespace Cluster

variable {C : Cluster σ} {F : C.machine.Freight} {l f : Int} {p q : Pair σ} {next : Nat}

/-- The loop ends, with a successful AppendEntries; then the follower has the
leader's whole log, and the leader knows it. -/
def Converges (C : Cluster σ) (l f : Int) (p : Pair σ) : Prop :=
  ∃ turns q, C.replicateToPeer l f turns p = .replicated q ∧
    q.leader.history <+: q.follower.history ∧
    q.leader.matchIndex f = some q.leader.lastLogIndexLocked

/-! ## The loop ends -/

/-- Entries from one after `prev` are not accepted, although everything before
is in order: then the loop can only have started above the follower's boundary. -/
theorem Coupled.replicable_pred (h : C.Coupled l f p)
    (hb : p.leader.snapshotMeta.lastIncludedIndex < next) (hno : p.Matches (next - 1) = false)
    (hle : next ≤ p.leader.history.length + 1) (hr : p.Replicable next) :
    1 < next ∧ p.Replicable (next - 1) := by
  -- the follower accepts what it has committed, unless that is compacted
  have hbeyond : ∀ {k}, p.leader.snapshotMeta.lastIncludedIndex ≤ k → k ≤ p.leader.history.length →
      k ≤ p.follower.commitIndex → p.follower.snapshotMeta.lastIncludedIndex ≤ k →
      p.Matches k = true := by
    intro k hkl hlen hkc hkf
    have hterm := lastTerm_take hlen
    rw [Pair.Matches, h.leader.termAtLocked_eq, if_pos hkl, hterm, Option.any_some,
      h.follower.matchesPrefixLocked_iff]
    exact ⟨hkf, (h.termAt_eq hkc).trans hterm⟩
  have hbf := h.follower.boundary_le.trans h.follower.applied_le
  have hne : p.follower.snapshotMeta.lastIncludedIndex < next →
      p.follower.snapshotMeta.lastIncludedIndex ≠ next - 1 := by
    intro hlt heq
    have := hbeyond (k := next - 1) (by omega) (by omega) (by omega) (by omega)
    rw [hno] at this
    cases this
  have hgt : 1 < next := by
    by_contra hcon
    have hone : next = 1 := by omega
    subst hone
    have := hbeyond (k := 0) (by omega) (Nat.zero_le _) (Nat.zero_le _)
      (by rcases hr.boundary with hlt | hlt <;> omega)
    rw [hno] at this
    cases this
  refine ⟨hgt, ⟨?_, fun hneeds => hr.snapshot ?_⟩⟩
  · rcases hr.boundary with hle | hlt
    · exact .inl hle
    · have := hne hlt
      exact .inr (by omega)
  · refine .inr fun prev hge hlt => ?_
    rcases Nat.lt_or_eq_of_le (Nat.le_sub_one_of_lt hlt) with hlt' | rfl
    · rcases hneeds with hle | hall
      · omega
      · exact hall prev hge hlt'
    · exact hno

theorem replicateTurns_replicated (h : Linked F l f p)
    (hnext : p.leader.nextIndex f = some next) (hr : p.Replicable next) :
    ∃ turns q, C.replicateTurns l f turns p = .replicated q ∧
      q.leader.history <+: q.follower.history ∧
      q.leader.matchIndex f = some q.leader.lastLogIndexLocked := by
  -- on the next index: it goes down until an entry is accepted or a snapshot is due
  induction next using Nat.strong_induction_on generalizing p with
  | _ next ih =>
    have hc := h.coupled
    obtain ⟨next', m, hnext', -, hpos, hle, -⟩ := hc.cursor
    obtain rfl := Option.some.inj (hnext'.symm.trans hnext)
    rcases Nat.lt_or_ge p.leader.snapshotMeta.lastIncludedIndex next' with hb | hb
    · cases hm : p.Matches (next' - 1) with
      | true =>
        obtain ⟨q, hturn, hq⟩ := h.accepted hnext hb hm
        exact ⟨1, q, by simp only [replicateTurns, hturn], hq⟩
      | false =>
        obtain ⟨hgt, hr'⟩ := hc.replicable_pred hb hm hle hr
        obtain ⟨q, hturn, hq, hsame, hqnext⟩ := (h.refused hnext hb hm).2 hgt
        have hqr : q.Replicable (next' - 1) := by
          refine ⟨?_, fun hneeds => ?_⟩
          · rw [hsame.follower.snapshotMeta, hsame.leader.snapshotMeta]
            exact hr'.boundary
          · rw [hsame.installable_iff]
            exact hr'.snapshot ((hsame.needsSnapshot_iff _).mp hneeds)
        obtain ⟨turns, q', hturns, hq'⟩ := ih (next' - 1) (by omega) hq hqnext hqr
        exact ⟨turns + 1, q', by simpa only [replicateTurns, hturn] using hturns, hq'⟩
    · -- after the snapshot, the boundary is accepted
      have hbf : p.follower.snapshotMeta.lastIncludedIndex ≤
          p.leader.snapshotMeta.lastIncludedIndex := by
        rcases hr.boundary with hlt | hlt <;> omega
      obtain ⟨q, hturn, hq, hqnext, hsame, -, hmatch⟩ :=
        h.snapshot_sent hnext hb (hr.snapshot (.inl hb))
      obtain ⟨q', hturn', hq'⟩ := hq.accepted hqnext
        (by rw [hsame.snapshotMeta]; exact Nat.lt_succ_self _)
        (by rw [Nat.add_sub_cancel]; exact hmatch hbf)
      exact ⟨2, q', by simp only [replicateTurns, hturn, hturn'], hq'⟩

/-! ## The loop does not end well -/

/-- The follower has compacted beyond the leader's boundary, and would have to
accept an entry from below; or a snapshot is needed that cannot be installed. -/
def Stuck (p : Pair σ) (next : Nat) : Prop :=
  (p.leader.snapshotMeta.lastIncludedIndex < p.follower.snapshotMeta.lastIncludedIndex ∧
    next ≤ p.follower.snapshotMeta.lastIncludedIndex) ∨
  p.NeedsSnapshot next ∧ ¬ p.Installable

theorem stuck_of_not_replicable (h : ¬ p.Replicable next) : Stuck p next := by
  by_contra hcon
  obtain ⟨hb, hs⟩ := not_or.mp hcon
  refine h ⟨?_, fun hneeds => by_contra fun hno => hs ⟨hneeds, hno⟩⟩
  omega

/-- A turn from a stuck pair gives up, or leaves a stuck pair. -/
theorem Linked.stuck_turn (h : Linked F l f p)
    (hnext : p.leader.nextIndex f = some next) (hs : Stuck p next) :
    C.replicateTurn l f p = .gaveUp ∨
      ∃ q next', C.replicateTurn l f p = .again q ∧ Linked F l f q ∧
        q.leader.nextIndex f = some next' ∧ Stuck q next' := by
  have hc := h.coupled
  have hbf := hc.follower.boundary_le
  rcases Nat.lt_or_ge p.leader.snapshotMeta.lastIncludedIndex next with hb | hb
  · have hno : p.Matches (next - 1) = false := by
      rcases hs with ⟨hlt, hle⟩ | ⟨hle | hall, -⟩
      · obtain ⟨t, -, hmatch, -⟩ := hc.turn_append h.lead hnext hb
        rw [hmatch, ← Bool.not_eq_true, hc.follower.matchesPrefixLocked_iff]
        exact fun hcon => by omega
      · omega
      · exact hall _ (by omega) (by omega)
    obtain ⟨hstop, hback⟩ := h.refused hnext hb hno
    rcases Nat.lt_or_ge 1 next with hgt | hle
    · obtain ⟨q, hturn, hq, hsame, hqnext⟩ := hback hgt
      refine .inr ⟨q, next - 1, hturn, hq, hqnext, ?_⟩
      rcases hs with ⟨hlt, hle⟩ | ⟨hle | hall, hnot⟩
      · refine .inl ?_
        rw [hsame.leader.snapshotMeta, hsame.follower.snapshotMeta]
        exact ⟨hlt, by omega⟩
      · omega
      · refine .inr ⟨(hsame.needsSnapshot_iff _).mpr ?_,
          fun hyes => hnot (hsame.installable_iff.mp hyes)⟩
        exact .inr fun prev hge hlt => hall prev hge (by omega)
    · exact .inl (hstop hle)
  · by_cases hyes : p.Installable
    · rcases hs with ⟨hlt, hle⟩ | ⟨-, hnot⟩
      · -- the follower has applied more than the snapshot covers, and ignores it
        obtain ⟨q, hturn, hq, hqnext, -, hignored, -⟩ := h.snapshot_sent hnext hb hyes
        have hsame := hignored (by omega)
        refine .inr ⟨q, _, hturn, hq, hqnext, .inl ?_⟩
        rw [hsame.leader.snapshotMeta, hsame.follower.snapshotMeta]
        exact ⟨hlt, hlt⟩
      · exact absurd hyes hnot
    · exact .inl (h.snapshot_refused hnext hb hyes)

theorem replicateTurns_of_stuck (turns : Nat) (h : Linked F l f p)
    (hnext : p.leader.nextIndex f = some next) (hs : Stuck p next) :
    C.replicateTurns l f turns p ≠ .replicated q := by
  induction turns generalizing p next with
  | zero => exact nofun
  | succ turns ih =>
    rcases h.stuck_turn hnext hs with hturn | ⟨p', next', hturn, hp', hnext', hs'⟩
    · simp only [replicateTurns, hturn]
      exact nofun
    · simp only [replicateTurns, hturn]
      exact ih hp' hnext' hs'

theorem not_converges_of_stuck (h : Linked F l f p)
    (hnext : p.leader.nextIndex f = some next) (hs : Stuck p next) : ¬ C.Converges l f p := by
  rintro ⟨turns, q, hq, -⟩
  rw [replicateToPeer] at hq
  split at hq
  · exact replicateTurns_of_stuck turns h hnext hs hq
  · cases hq

/-! ## When replication converges -/

/-- Two nodes of any reachable state of a cluster whose clients write text, one of
them leading and the other in no later term: if nothing fails from then on,
`replicateToPeer` ends with the follower up to date exactly if the follower is
`Replicable` from the leader's next index. -/
theorem replication_converges_iff {maxLength : Int} {json : Json} {C : Cluster (MemoryStore maxLength)}
    {actions : List Action} (h : C.WritesText json actions) {p : Pair (MemoryStore maxLength)}
    (hl : (C.runReloading actions).nodes l = .up p.leader p.leaderDisk)
    (hf : (C.runReloading actions).nodes f = .up p.follower p.followerDisk) (hne : l ≠ f)
    (hlead : p.leader.state = .leader) (hterm : p.follower.currentTerm ≤ p.leader.currentTerm) :
    ∃ next, p.leader.nextIndex f = some next ∧ (C.Converges l f p ↔ p.Replicable next) := by
  rw [h.run_eq] at hl hf
  have hlink : Linked h.freight l f p := ⟨⟨actions, h.restoring, hl, hf⟩, hne, hlead, hterm⟩
  have hc := hlink.coupled
  have hpeer : f ∈ (C.env l).peers := (mem_peers hc.leader_mem).mpr ⟨hc.follower_mem, hne.symm⟩
  obtain ⟨next, m, hnext, -⟩ := hc.cursor
  refine ⟨next, hnext, fun hconv => ?_, fun hr => ?_⟩
  · by_contra hno
    exact not_converges_of_stuck hlink hnext (stuck_of_not_replicable hno) hconv
  · obtain ⟨turns, q, hq, hdone⟩ := replicateTurns_replicated hlink hnext hr
    refine ⟨turns, q, ?_, hdone⟩
    rw [replicateToPeer, if_pos hpeer]
    exact hq

/-- Node 1 commits its no-op with node 3 and compacts its log, while node 2 has
heard nothing. -/
def laggingRun : List Action :=
  let probe : AppendEntriesRequest := ⟨1, 1, 1, 1, [], 0⟩
  let entries : AppendEntriesRequest := ⟨1, 1, 0, 0, [noopEntry 1 1], 0⟩
  [.restart 1 [], .restart 2 [], .restart 3 [],
    .step 1 .electionTimeout [], .step 2 (.voteRequest ⟨1, 1, 0, 0⟩) [],
    .step 1 (.voteResponse 2 1 ⟨1, true⟩) [],
    .step 1 (.sendAppend 3) [], .step 3 (.appendRequest probe) [],
    .step 1 (.appendResponse 3 probe ⟨1, false⟩) [],
    .step 1 (.sendAppend 3) [], .step 3 (.appendRequest entries) [],
    .step 1 (.appendResponse 3 entries ⟨1, true⟩) [],
    .step 1 .applySelect [], .step 1 .applyEntry [], .step 1 .applyCheckpoint [],
    .step 1 .snapshotBegin [], .step 1 .snapshotSave [], .step 1 .snapshotPublish []]

/-- Node 2 cannot be brought up to date without the snapshot. -/
theorem replication_converges_laggingRun :
    ∃ p : Pair (MemoryStore 8),
      ((localCluster 1).runReloading laggingRun).nodes 1 = .up p.leader p.leaderDisk ∧
      ((localCluster 1).runReloading laggingRun).nodes 2 = .up p.follower p.followerDisk ∧
      p.NeedsSnapshot 2 ∧ (localCluster 1).Converges 1 2 p := by
  have htext : (localCluster 1).WritesText .framed laggingRun :=
    localCluster_writesText 1 (by decide) (by decide)
  obtain ⟨next, hnext, hiff⟩ := @replication_converges_iff 1 2 8 .framed (localCluster 1) laggingRun
    htext ⟨_, _, _, _⟩ rfl rfl (by decide) rfl (by decide)
  obtain rfl := Option.some.inj hnext
  refine ⟨⟨_, _, _, _⟩, rfl, rfl, ?_, hiff.mpr ⟨.inl (by decide), fun _ => ⟨rfl, rfl⟩⟩⟩
  refine .inr fun prev hge hlt => ?_
  obtain rfl : prev = 1 := Nat.le_antisymm (Nat.le_of_lt_succ hlt) hge
  rfl

/-- Node 2 takes the snapshot and the next entry, and compacts beyond node 1's
boundary; its answers about that entry are lost. -/
def compactedRun : List Action :=
  let set : LogEntry := ⟨2, 1, .set, [97], [98]⟩
  let probe : AppendEntriesRequest := ⟨1, 1, 1, 1, [], 1⟩
  let image : InstallSnapshotRequest := ⟨1, 1, 1, 1, [1], [noopEntry 1 1]⟩
  let entries : AppendEntriesRequest := ⟨1, 1, 1, 1, [set], 1⟩
  let commit : AppendEntriesRequest := ⟨1, 1, 1, 1, [set], 2⟩
  laggingRun ++ [.step 1 (.sendAppend 2) [], .step 2 (.appendRequest probe) [],
    .step 1 (.appendResponse 2 probe ⟨1, false⟩) [],
    .step 1 (.sendInstall 2) [], .step 2 (.installRequest image) [],
    .step 1 (.installResponse 2 image ⟨1⟩) [],
    .step 1 (.propose ⟨.set, [97], [98]⟩) [],
    .step 1 (.sendAppend 2) [], .step 2 (.appendRequest entries) [],
    .step 1 (.sendAppend 3) [], .step 3 (.appendRequest entries) [],
    .step 1 (.appendResponse 3 entries ⟨1, true⟩) [],
    .step 1 (.sendAppend 2) [], .step 2 (.appendRequest commit) [],
    .step 2 .applySelect [], .step 2 .applyEntry [], .step 2 .applyCheckpoint [],
    .step 2 .snapshotBegin [], .step 2 .snapshotSave [], .step 2 .snapshotPublish []]

/-- From then on, node 1 sends node 2 its snapshot and is refused its entries,
over and over. -/
theorem compactedRun_diverges :
    (localCluster 1).WritesText .framed compactedRun ∧
    ∃ p : Pair (MemoryStore 8),
      ((localCluster 1).runReloading compactedRun).nodes 1 = .up p.leader p.leaderDisk ∧
      ((localCluster 1).runReloading compactedRun).nodes 2 = .up p.follower p.followerDisk ∧
      p.leader.state = .leader ∧ p.follower.currentTerm = p.leader.currentTerm ∧
      p.Installable ∧ ¬ (localCluster 1).Converges 1 2 p := by
  have htext : (localCluster 1).WritesText .framed compactedRun :=
    localCluster_writesText 1 (by decide) (by decide)
  refine ⟨htext, ⟨_, _, _, _⟩, rfl, rfl, rfl, rfl, ⟨rfl, rfl⟩, ?_⟩
  exact @not_converges_of_stuck _ (localCluster 1) htext.freight 1 2 ⟨_, _, _, _⟩ 2
    ⟨⟨compactedRun, htext.restoring, rfl, rfl⟩, by decide, rfl, by decide⟩ rfl
    (.inl ⟨by decide, by decide⟩)

end Cluster

end DistributedKv
