import DistributedKv.Raft.Supplied

/-!
A leader that misses no commit. While a node leads, every match index lies
within its log and no entry of its own term above the commit index is matched by
a majority (`Raft.CaughtUp`). Requests of another leader end the leadership,
whatever the stores answer, and everything else but the two responses cannot
create an index to commit: a new entry is beyond every match index.
-/

namespace DistributedKv

open Crash Prog

variable {σ : Type} {env : Env σ} {i : Input} {r₀ r r' : Raft σ} {d d' : Disk}

/-! ## Stepping down -/

section Follower

/-- A node in a later term, whose leader is known or not. -/
def Raft.steppedDown (r : Raft σ) (term : Nat) (leaderID : Int) : Raft σ := { r with
  currentTerm := term, votedFor := noVote, state := .follower, leaderID := leaderID }

/-- A node steps down unless its stable state cannot be written. -/
theorem becomeFollowerLocked_cases {term : Nat} (hterm : r.currentTerm < term) (leaderID : Int) :
    wp Any (fun _ => True) (becomeFollowerLocked term leaderID)
      (fun out r' _ => (∃ err, out = .error err) ∧ r' = r ∨
        out = .ok () ∧ r' = r.steppedDown term leaderID) r d := by
  simp only [becomeFollowerLocked, saveStableLocked, saveStableValuesLocked, wp_bind, wp_read,
    wp_ite, wp_pure]
  refine ⟨fun hlt => by omega, fun _ => ⟨fun _ => ?_, fun hge => by omega⟩⟩
  refine wp_store_of_keeps trivial (fun _ _ => trivial) (fun _ => trivial) fun res d' _ => ?_
  cases res with
  | error err => exact .inl ⟨⟨err, rfl⟩, rfl⟩
  | ok u => exact .inr ⟨rfl, rfl⟩

/-- An operation that leaves a follower a follower. -/
abbrev StaysFollower {α : Type} (p : Op σ α) : Prop :=
  Keeps Any (fun r => r.state = .follower) (fun _ => True) (fun _ => True) p

theorem keeps_store {V : Type} {I : V → Prop} (w : Write Disk) :
    Keeps Any I (fun _ => True) (fun _ => True) (store w) :=
  .store (fun _ _ => trivial) fun _ _ => trivial

theorem truncateLog_follower (index : Nat) : StaysFollower (truncateLog index : Op σ Bool) := by
  unfold truncateLog
  split
  · exact .pure trivial
  refine .bind (keeps_store _) fun out _ => ?_
  cases out with
  | error err => exact .pure trivial
  | ok u =>
    refine .bind .read fun r _ => ?_
    split
    · exact .pure trivial
    · exact .bind (.modify fun r hr => hr) fun _ _ => .pure trivial

theorem appendEntries_follower (entries : List LogEntry) :
    StaysFollower (appendEntries entries : Op σ Bool) := by
  unfold appendEntries
  split
  · exact .pure trivial
  refine .bind (keeps_store _) fun out _ => ?_
  cases out with
  | error err => exact .pure trivial
  | ok u => exact .bind (.modify fun r hr => hr) fun _ _ => .pure trivial

theorem followCommit_follower (leaderCommit : Nat) :
    StaysFollower (followCommit leaderCommit : Op σ Bool) := by
  refine .bind .read fun r _ => ?_
  dsimp only
  split
  · refine .bind (keeps_store _) fun out _ => ?_
    cases out with
    | error err => exact .pure trivial
    | ok u => exact .bind (.modify fun r hr => hr) fun _ _ => .pure trivial
  · exact .pure trivial

theorem discardLog_follower (suffix : Option (List LogEntry)) (index : Nat) :
    StaysFollower (discardLog suffix index : Op σ _) := by
  refine .bind .read fun r _ => ?_
  split
  · refine .bind (keeps_store _) fun out _ => ?_
    cases out <;> exact .pure trivial
  · split
    · refine .bind (keeps_store _) fun out _ => ?_
      cases out <;> exact .pure trivial
    · exact .pure trivial

theorem restoreStore_follower (sn : Snapshotter σ) (data : Bytes) :
    StaysFollower (restoreStore sn data) := by
  refine .bind .attempt fun out _ => ?_
  cases out with
  | error err => exact .pure trivial
  | ok u =>
    dsimp only
    split
    · exact .pure trivial
    · exact .bind (.modify fun r hr => hr) fun _ _ => .pure trivial

theorem installSnapshot_follower (sn : Snapshotter σ) (req : InstallSnapshotRequest) :
    StaysFollower (installSnapshot sn req) := by
  refine .bind .read fun r _ => ?_
  refine .bind (keeps_store _) fun out _ => ?_
  cases out with
  | error err => exact .pure trivial
  | ok u =>
  refine .bind (discardLog_follower _ _) fun out _ => ?_
  cases out with
  | error err => exact .pure trivial
  | ok u =>
  refine .bind (restoreStore_follower _ _) fun out _ => ?_
  cases out with
  | error err => exact .pure trivial
  | ok u =>
  refine .bind (keeps_store _) fun out _ => ?_
  cases out with
  | error err => exact .pure trivial
  | ok u => exact .bind (.modify fun r hr => hr) fun _ _ => .pure trivial

/-- The rest of a handler that has recognized the leader. -/
theorem recognizeLeader_follower {α : Type} {term : Nat} {leaderID : Int}
    {rest : Except String Unit → Op σ α} (herr : ∀ err, ∃ a, rest (.error err) = pure a)
    (hok : StaysFollower (rest (.ok ()))) :
    wp Any (fun _ => True) (do let out ← recognizeLeader term leaderID; rest out)
      (fun _ r' _ => r' = r ∨ r'.state = .follower) r d := by
  have hrest {r₁ : Raft σ} {d₁ : Disk} (h : r₁.state = .follower) :
      wp Any (fun _ => True) (rest (.ok ())) (fun _ r' _ => r' = r ∨ r'.state = .follower) r₁ d₁ :=
    wp_mono _ _ _ (hok r₁ d₁ h trivial) (fun _ _ _ h => .inr h.2.1) fun _ h => h
  simp only [recognizeLeader, wp_bind, wp_read, wp_ite, wp_pure, wp_modify]
  refine ⟨fun hgt => ?_, fun _ => hrest rfl⟩
  refine wp_mono _ _ _ (becomeFollowerLocked_cases hgt leaderID) ?_ fun _ hd => hd
  rintro _ r' d' (⟨⟨err, rfl⟩, rfl⟩ | ⟨rfl, rfl⟩)
  · obtain ⟨a, ha⟩ := herr err
    rw [ha]
    exact .inl rfl
  · exact hrest rfl

theorem handleAppendEntries_follower (req : AppendEntriesRequest) :
    wp Any (fun _ => True) (handleAppendEntries req)
      (fun _ r' _ => r' = r ∨ r'.state = .follower) r d := by
  unfold handleAppendEntries
  rw [wp_bind, wp_read, wp_ite]
  refine ⟨fun _ => .inl rfl, fun _ => recognizeLeader_follower (fun err => ⟨_, rfl⟩) ?_⟩
  refine .bind .read fun r _ => ?_
  split
  · exact .pure trivial
  split
  · exact .pure trivial
  refine .bind (truncateLog_follower _) fun out _ => ?_
  split
  · exact .pure trivial
  refine .bind (appendEntries_follower _) fun out _ => ?_
  split
  · exact .pure trivial
  refine .bind (followCommit_follower _) fun out _ => ?_
  split <;> exact .pure trivial

theorem handleInstallSnapshot_follower (req : InstallSnapshotRequest) :
    wp Any (fun _ => True) (handleInstallSnapshot env req)
      (fun _ r' _ => r' = r ∨ r'.state = .follower) r d := by
  unfold handleInstallSnapshot
  rw [wp_bind, wp_read, wp_ite]
  refine ⟨fun _ => .inl rfl, fun _ => recognizeLeader_follower (fun err => ⟨_, rfl⟩) ?_⟩
  refine .bind .read fun r _ => ?_
  split
  · exact .pure trivial
  split
  · exact .pure trivial
  split
  · exact .pure trivial
  split
  · exact .pure trivial
  · exact installSnapshot_follower _ _

/-- A request of another leader is ignored or makes the node a follower. -/
theorem request_follower (hi : i.IsRequest) {answers : List Outcome} {out : Output}
    (hrun : (react env i).run answers r d = .done out r' d') : r' = r ∨ r'.state = .follower := by
  have h : wp Any (fun _ => True) (react env i) (fun _ r' _ => r' = r ∨ r'.state = .follower)
      r d := by
    cases i with
    | appendRequest req =>
      simp only [react, wp_bind, wp_pure]
      exact handleAppendEntries_follower req
    | installRequest req =>
      simp only [react, wp_bind, wp_read, wp_ite, wp_pure]
      refine ⟨fun _ => .inl trivial, fun _ => ?_⟩
      refine wp_mono _ _ _ (handleInstallSnapshot_follower req) ?_ fun _ h => h
      rintro (err | resp) _ _ h <;> exact h
    | _ => exact hi.elim
  have := wp_run _ _ answers r d (fun _ _ => trivial) h
  rwa [hrun] at this

end Follower

/-! ## What cannot create an index to commit -/

/-- The log and the commit index only move forward. -/
structure Raft.Grows (r r' : Raft σ) : Prop where
  last : r.lastLogIndexLocked ≤ r'.lastLogIndexLocked
  commit : r.commitIndex ≤ r'.commitIndex

/-- A leader's matches lie within its log, and it has committed the entries of
its own term that it knows to be on a majority. -/
structure Raft.CaughtUp (env : Env σ) (r : Raft σ) : Prop where
  within : r.state = .leader → ∀ q, (r.matchIndex q).getD 0 ≤ r.lastLogIndexLocked
  covered : r.state = .leader → ∀ e ∈ r.log, r.commitIndex < e.index → e.term = r.currentTerm →
    r.matched env e.index < env.majority

namespace Raft

theorem CaughtUp.follower (h : r.state ≠ .leader) : r.CaughtUp env :=
  ⟨fun hl => absurd hl h, fun hl => absurd hl h⟩

/-- Only the matches that reach an index count for it. -/
theorem matched_le {index : Nat}
    (h : ∀ q, index ≤ (r'.matchIndex q).getD 0 → index ≤ (r.matchIndex q).getD 0) :
    r'.matched env index ≤ r.matched env index := by
  unfold matched
  rw [← List.countP_eq_length_filter, ← List.countP_eq_length_filter]
  refine Nat.add_le_add_left (List.countP_mono_left fun q _ hle => ?_) 1
  simpa using h q (by simpa using hle)

/-- An index beyond every match index has the leader only. -/
theorem matched_eq_one {index : Nat} (h : ∀ q, (r.matchIndex q).getD 0 < index) :
    r.matched env index = 1 := by
  unfold matched
  rw [List.filter_eq_nil_iff.mpr fun q _ => ?_]
  · rfl
  · have := h q
    simpa using this

/-- The node finds every entry of its log. -/
theorem WellFormed.entryAtLocked_of_mem (h : r.WellFormed) {e : LogEntry} (he : e ∈ r.log) :
    r.entryAtLocked e.index = some e := by
  obtain ⟨hlow, hhigh⟩ := h.indexed.mem he
  obtain ⟨e', he'⟩ := h.entryAtLocked_isSome hlow (by rw [h.lastLogIndexLocked_eq]; exact hhigh)
  obtain ⟨hmem', hidx⟩ := h.mem_of_entryAtLocked he'
  obtain ⟨j, hj, rfl⟩ := List.getElem_of_mem he
  obtain ⟨k, hk, rfl⟩ := List.getElem_of_mem hmem'
  have hjk : j = k := by
    have := h.indexed j _ (List.getElem?_eq_getElem hj)
    have := h.indexed k _ (List.getElem?_eq_getElem hk)
    omega
  subst hjk
  exact he'

end Raft

theorem Effect.grows (hi : ¬ i.IsRequest) (hwf : r.WellFormed) (he : Effect env r₀ i r r') :
    r.Grows r' := by
  have hlast := (he.wellFormed hwf).lastLogIndexLocked_eq
  have hold := hwf.lastLogIndexLocked_eq
  cases he with
  | cut | merge | followCommit | restore | install => exact absurd trivial hi
  | lead | propose =>
    refine ⟨?_, le_rfl⟩
    rw [hlast]
    simp only [Raft.led, Raft.proposed, List.length_append]
    omega
  | advance _ _ _ _ _ _ hc => exact ⟨le_rfl, (commitCandidate_some hc).1.le⟩
  | checkpoint _ entry =>
    obtain ⟨_, _, -, -, heq⟩ := r.checkpointed_eq entry
    rw [heq]
    exact ⟨le_rfl, le_rfl⟩
  | stop _ err =>
    obtain ⟨_, _, _, -, -, heq⟩ := r.stopped_eq err
    rw [heq]
    exact ⟨le_rfl, le_rfl⟩
  | compact _ b suffix _ _ hs =>
    refine ⟨?_, le_rfl⟩
    rw [hlast]
    exact (hwf.entriesFromLocked_length hs).ge
  | _ => exact ⟨le_rfl, le_rfl⟩

theorem Effect.caughtUp (hreq : ¬ i.IsRequest) (hreply : ¬ i.IsReply) (hmaj : 1 < env.majority)
    (hwf : r.WellFormed) (he : Effect env r₀ i r r') (h : r.CaughtUp env) : r'.CaughtUp env := by
  have hgrows := he.grows hreq hwf
  cases he with
  | cut | merge | followCommit | restore | install => exact absurd trivial hreq
  | backUp | recordAppend | advance | recordInstall => exact absurd trivial hreply
  | raise | follow | stand => exact .follower nofun
  | lead =>
    have hzero (q : Int) : ((if q ∈ env.peers then some 0 else none : Option Nat)).getD 0 = 0 := by
      split <;> rfl
    refine ⟨fun _ q => (hzero q).trans_le (Nat.zero_le _), fun _ e _ hlt _ => ?_⟩
    rw [Raft.matched_eq_one fun q => (hzero q).trans_lt (Nat.zero_lt_of_lt hlt)]
    exact hmaj
  | propose _ command _ hl =>
    refine ⟨fun hl q => (h.within hl q).trans hgrows.last, fun _ e he hlt hterm => ?_⟩
    rcases List.mem_append.mp he with he | he
    · exact h.covered hl e he hlt hterm
    · -- the new entry is beyond every match index
      obtain rfl := List.mem_singleton.mp he
      have hone : (r.proposed command).matched env (r.nextEntry command).index = 1 :=
        Raft.matched_eq_one fun q => Nat.lt_succ_of_le (h.within hl q)
      rw [hone]
      exact hmaj
  | checkpoint _ entry =>
    obtain ⟨_, _, -, -, heq⟩ := r.checkpointed_eq entry
    rw [heq]
    exact ⟨h.within, h.covered⟩
  | stop _ err =>
    obtain ⟨_, _, _, -, -, heq⟩ := r.stopped_eq err
    rw [heq]
    exact ⟨h.within, h.covered⟩
  | compact _ b suffix _ _ hs =>
    refine ⟨fun hl q => (h.within hl q).trans hgrows.last, fun hl e he => h.covered hl e ?_⟩
    exact (((hwf.entriesFromLocked_ok hs).2.2 e).mp he).1
  | _ => exact ⟨h.within, h.covered⟩

theorem Effects.caughtUp (hreq : ¬ i.IsRequest) (hreply : ¬ i.IsReply) (hmaj : 1 < env.majority)
    (hwf : r.WellFormed) (he : Effects env r i r') (h : r.CaughtUp env) : r'.CaughtUp env := by
  induction he with
  | refl => exact h
  | tail hes he ih => exact he.caughtUp hreq hreply hmaj (Effects.wellFormed hes hwf) ih

/-! ## The two responses -/

/-- After the search for an index to commit, none is left. -/
theorem Raft.CaughtUp.of_candidate (hwf : r.WellFormed) {index : Nat} (hindex : r.commitIndex ≤ index)
    (hboundary : r.snapshotMeta.lastIncludedIndex ≤ index)
    (hwithin : r.state = .leader → ∀ q, (r.matchIndex q).getD 0 ≤ r.lastLogIndexLocked)
    (habove : ∀ found, r.commitCandidate env r.lastLogIndexLocked = some found → found ≤ index) :
    Raft.CaughtUp env { r with commitIndex := index } := by
  refine ⟨hwithin, fun _ e he hlt hterm => ?_⟩
  change index < e.index at hlt
  refine matched_lt_of_commitCandidate (r := r) (hindex.trans_lt hlt)
    (fun found hfound => (habove found hfound).trans_lt hlt) ?_ ?_
  · rw [hwf.lastLogIndexLocked_eq]
    exact (hwf.indexed.mem he).2
  · rw [Raft.termAtLocked, if_neg (by omega), hwf.entryAtLocked_of_mem he]
    exact congrArg some hterm

theorem advanceCommitIndexLocked_caughtUp (h : r.Supplied) (hvote : noVote ≤ r.votedFor)
    (hwithin : r.state = .leader → ∀ q, (r.matchIndex q).getD 0 ≤ r.lastLogIndexLocked) :
    wp Atomic (fun _ => True) (advanceCommitIndexLocked env)
      (fun _ r' _ => r'.CaughtUp env) r d := by
  have hb := h.boundary_le.trans h.applied_le
  simp only [advanceCommitIndexLocked, saveStableValuesLocked, wp_bind, wp_read]
  cases hc : r.commitCandidate env r.lastLogIndexLocked with
  | none => exact .of_candidate h.toWellFormed le_rfl hb hwithin (by rw [hc]; exact nofun)
  | some index =>
    have hlt := (commitCandidate_some hc).1.le
    simp only [wp_bind]
    refine wp_saveStable hvote (h.applied_le.trans hlt) ?_ trivial trivial
    simp only [wp_bind, wp_modify, wp_pure]
    refine .of_candidate h.toWellFormed hlt (hb.trans hlt) hwithin fun found hfound => ?_
    exact (Option.some.inj (hfound.symm.trans hc)).le

theorem becomeFollowerLocked_caughtUp {term : Nat} (hterm : r.currentTerm < term) (leaderID : Int)
    (h : r.CaughtUp env) :
    wp Any (fun _ => True) (becomeFollowerLocked term leaderID)
      (fun _ r' _ => r'.CaughtUp env) r d := by
  refine wp_mono _ _ _ (becomeFollowerLocked_cases hterm leaderID) ?_ fun _ hd => hd
  rintro _ r' _ (⟨-, rfl⟩ | ⟨-, rfl⟩)
  · exact h
  · exact .follower (fun hl => by cases hl)

/-- A recorded match is the old one or the one of the response. -/
theorem Raft.recordMatch_le {peer : Int} {matched bound : Nat} (hm : matched ≤ bound)
    (h : ∀ q, (r.matchIndex q).getD 0 ≤ bound) (q : Int) :
    ((r.recordMatch peer matched).matchIndex q).getD 0 ≤ bound := by
  dsimp only [Raft.recordMatch]
  split
  · rcases setAt_cases r.matchIndex peer matched q with heq | ⟨-, heq⟩
    · rw [heq]
      exact h q
    · rw [heq]
      exact hm
  · exact h q

theorem handleAppendEntriesResponse_caughtUp (hs : r.Supplied) (hvote : noVote ≤ r.votedFor)
    (h : r.CaughtUp env) {peer : Int} {req : AppendEntriesRequest} {resp : AppendEntriesResponse}
    (hle : r.state = .leader → r.currentTerm = req.term →
      req.prevLogIndex + req.entries.length ≤ r.lastLogIndexLocked) :
    wp Atomic (fun _ => True) (handleAppendEntriesResponse env peer req resp)
      (fun _ r' _ => r'.CaughtUp env) r d := by
  simp only [handleAppendEntriesResponse, wp_bind, wp_read, wp_ite, wp_pure, wp_modify]
  refine ⟨fun hterm => ?_, fun _ => ⟨fun _ => h, fun hlead => ⟨fun _ => ⟨fun _ => h,
    fun _ => ⟨h.within, h.covered⟩⟩, fun _ => ?_⟩⟩⟩
  · exact wp_of_allow _ _ _ (fun _ _ => trivial) (becomeFollowerLocked_caughtUp hterm unknownLeader h)
  · simp only [not_or, not_not] at hlead
    obtain ⟨hl, hreq, -⟩ := hlead
    have hs' : (r.recordMatch peer (req.prevLogIndex + req.entries.length)).Supplied :=
      hs.relog ⟨hs.metadata, hs.indexed, hs.valid, hs.boundary⟩ rfl rfl rfl rfl fun _ _ h => h
    exact advanceCommitIndexLocked_caughtUp hs' hvote fun _ =>
      Raft.recordMatch_le (hle hl hreq.symm) (h.within hl)

theorem handleInstallSnapshotResponse_caughtUp (h : r.CaughtUp env) {peer : Int}
    {req : InstallSnapshotRequest} {resp : InstallSnapshotResponse}
    (hle : r.state = .leader → r.currentTerm = req.term → req.lastIncludedIndex ≤ r.commitIndex ∧
      req.lastIncludedIndex ≤ r.lastLogIndexLocked) :
    wp Any (fun _ => True) (handleInstallSnapshotResponse peer req resp)
      (fun _ r' _ => r'.CaughtUp env) r d := by
  simp only [handleInstallSnapshotResponse, wp_bind, wp_read, wp_ite, wp_pure, wp_modify]
  refine ⟨fun hterm => becomeFollowerLocked_caughtUp hterm unknownLeader h,
    fun _ => ⟨fun _ => h, fun hlead => ?_⟩⟩
  simp only [not_or, not_not] at hlead
  obtain ⟨hl, hreq, -⟩ := hlead
  obtain ⟨hcommit, hlast⟩ := hle hl hreq.symm
  refine ⟨fun _ q => ?_, fun _ e he hlt hterm => ?_⟩
  · rcases setAt_cases r.matchIndex peer req.lastIncludedIndex q with heq | ⟨-, heq⟩
    · exact (congrArg (Option.getD · 0) heq).trans_le (h.within hl q)
    · exact (congrArg (Option.getD · 0) heq).trans_le hlast
  · refine (Raft.matched_le (r := r) fun q hq => ?_).trans_lt (h.covered hl e he hlt hterm)
    -- the recorded match does not reach an uncommitted index
    change e.index ≤ (setAt r.matchIndex peer req.lastIncludedIndex q).getD 0 at hq
    change r.commitIndex < e.index at hlt
    rcases setAt_cases r.matchIndex peer req.lastIncludedIndex q with heq | ⟨-, heq⟩
    · rwa [heq] at hq
    · rw [heq, Option.getD_some] at hq
      omega

/-! ## What a leader sends -/

/-- A request carries the whole suffix of the log, and sending it changes nothing. -/
theorem sendAppend_within (hwf : r.WellFormed) {peer : Int} {answers : List Outcome} {dst : Int}
    {req : AppendEntriesRequest}
    (hrun : (react env (.sendAppend peer)).run answers r d = .done (.appendRequest dst req) r' d') :
    r' = r ∧ req.prevLogIndex + req.entries.length ≤ r.lastLogIndexLocked := by
  have h : wp Any (fun _ => True) (react env (.sendAppend peer)) (fun out r' _ =>
      ∀ dst req, out = .appendRequest dst req →
        r' = r ∧ req.prevLogIndex + req.entries.length ≤ r.lastLogIndexLocked) r d := by
    simp only [react, wp_bind, wp_read]
    cases hreq : r.buildAppendEntries env.id peer with
    | none => exact fun _ _ heq => by cases heq
    | some req =>
      rintro _ _ ⟨⟩
      refine ⟨rfl, ?_⟩
      unfold Raft.buildAppendEntries at hreq
      split at hreq
      · cases hreq
      split at hreq
      · cases hreq
      rename_i next hnext
      split at hreq
      · cases hreq
      rename_i hbounds
      split at hreq
      · rename_i term entries _ hentries
        obtain rfl := Option.some.inj hreq
        have hpos : next - 1 + 1 = next := by omega
        exact (hwf.entriesFromLocked_length (hpos ▸ hentries)).le
      · cases hreq
  have := wp_run _ _ answers r d (fun _ _ => trivial) h
  rw [hrun] at this
  exact this dst req rfl

/-- A snapshot that is sent ends at the boundary of the log. -/
theorem sendInstall_within (h : r.Supplied) {peer : Int} {answers : List Outcome} {dst : Int}
    {req : InstallSnapshotRequest}
    (hrun : (react env (.sendInstall peer)).run answers r d = .done (.installRequest dst req) r' d') :
    r' = r ∧ req.lastIncludedIndex ≤ r.commitIndex ∧
      req.lastIncludedIndex ≤ r.lastLogIndexLocked := by
  have hwp : wp Any (fun _ => True) (react env (.sendInstall peer)) (fun out r' _ =>
      ∀ dst req, out = .installRequest dst req →
        r' = r ∧ req.lastIncludedIndex = r.snapshotMeta.lastIncludedIndex) r d := by
    simp only [react, buildInstallSnapshot, wp_bind, wp_read, wp_ite, wp_pure]
    refine ⟨fun _ _ _ heq => (by cases heq), fun _ => ?_⟩
    cases r.nextIndex peer with
    | none => exact fun _ _ heq => by cases heq
    | some next =>
      simp only [wp_ite, wp_pure, wp_bind, wp_disk]
      refine ⟨fun _ _ _ heq => (by cases heq), fun _ => ⟨fun _ _ _ heq => (by cases heq),
        fun _ => ?_⟩⟩
      cases d.snapshot with
      | none => exact fun _ _ heq => by cases heq
      | some stored =>
        simp only [wp_ite, wp_pure]
        refine ⟨fun _ _ _ heq => (by cases heq), fun hsame => ?_⟩
        rintro _ _ ⟨⟩
        exact ⟨trivial, congrArg SnapshotMetadata.lastIncludedIndex (not_not.mp hsame)⟩
  have := wp_run _ _ answers r d (fun _ _ => trivial) hwp
  rw [hrun] at this
  obtain ⟨hsame, hindex⟩ := this dst req rfl
  refine ⟨hsame, ?_, ?_⟩
  · rw [hindex]
    exact h.boundary_le.trans h.applied_le
  · rw [hindex, h.lastLogIndexLocked_eq]
    exact Nat.le_add_right _ _

end DistributedKv
