import DistributedKv.Cluster.Cursors

/-!
The loop of `replicateToPeer` (`internal/raft/raft.go`) between a leader and one
follower, when every RPC is answered, no store call fails and nothing else
happens. A turn of the loop sends a snapshot or entries; `Linked` is what the two
nodes are in some reachable state of the cluster, and since a turn is three steps
of the cluster, it stays that (`Linked.exchange`).
-/

namespace DistributedKv

open Crash Prog
open Consensus (Inv)

variable {σ : Type}

/-! ## The loop -/

/-- A leader and a follower, each with its files. -/
structure Pair (σ : Type) where
  leader : Raft σ
  leaderDisk : Disk
  follower : Raft σ
  followerDisk : Disk

/-- How a turn of the loop ends: the loop goes on, or it returns, after a
successful AppendEntries or for any other reason. -/
inductive Turn (σ : Type) where
  | again (p : Pair σ)
  | replicated (p : Pair σ)
  | gaveUp

namespace Cluster

variable (C : Cluster σ) (l f : Int)

def sendSnapshot (p : Pair σ) (req : InstallSnapshotRequest) : Turn σ :=
  match (react (C.env f) (.installRequest req)).run [] p.follower p.followerDisk with
  | .done (.installResponse resp) follower followerDisk =>
      match (handleInstallSnapshotResponse f req resp).run [] p.leader p.leaderDisk with
      | .done true leader leaderDisk => .again ⟨leader, leaderDisk, follower, followerDisk⟩
      | _ => .gaveUp
  | _ => .gaveUp

def sendEntries (p : Pair σ) (req : AppendEntriesRequest) : Turn σ :=
  match (react (C.env f) (.appendRequest req)).run [] p.follower p.followerDisk with
  | .done (.appendResponse resp) follower followerDisk =>
      match (handleAppendEntriesResponse (C.env l) f req resp).run [] p.leader p.leaderDisk with
      | .done true leader leaderDisk => .again ⟨leader, leaderDisk, follower, followerDisk⟩
      | .done false leader leaderDisk =>
          if resp.success = true then .replicated ⟨leader, leaderDisk, follower, followerDisk⟩
          else .gaveUp
      | .crashed _ => .gaveUp
  | _ => .gaveUp

/-- One turn of the loop. -/
def replicateTurn (p : Pair σ) : Turn σ :=
  match (buildInstallSnapshot (C.env l) f).run [] p.leader p.leaderDisk with
  | .done (.ok (some req)) _ _ => C.sendSnapshot f p req
  | .done (.ok none) _ _ =>
      match p.leader.buildAppendEntries (C.env l).id f with
      | some req => C.sendEntries l f p req
      | none => .gaveUp
  | _ => .gaveUp

/-- At most so many turns of the loop. -/
def replicateTurns : Nat → Pair σ → Turn σ
  | 0, p => .again p
  | turns + 1, p =>
      match C.replicateTurn l f p with
      | .again q => replicateTurns turns q
      | .replicated q => .replicated q
      | .gaveUp => .gaveUp

/-- `replicateToPeer` with a bound on the turns of its loop. -/
def replicateToPeer (turns : Nat) (p : Pair σ) : Turn σ :=
  if f ∈ (C.env l).peers then C.replicateTurns l f turns p else .gaveUp

end Cluster

/-! ## What the two nodes know -/

namespace Pair

variable (p : Pair σ)

/-- The follower accepts the leader's entry at `prev` as the one before the rest. -/
def Matches (prev : Nat) : Bool :=
  (p.leader.termAtLocked prev).any (p.follower.matchesPrefixLocked prev)

/-- The leader's snapshot can be sent and installed: the file is the one that
the leader's boundary names, and the follower is not taking a snapshot itself. -/
def Installable : Prop :=
  p.leaderDisk.snapshot.map Snapshot.metadata = some p.leader.snapshotMeta ∧
    p.follower.apply.holdsSnapshotMu = false

/-- A turn has changed neither log. -/
structure SameLogs (p q : Pair σ) : Prop where
  leader : p.leader.SameLog q.leader
  leaderDisk : q.leaderDisk.snapshot = p.leaderDisk.snapshot
  follower : p.follower.SameLog q.follower

variable {p} {q : Pair σ}

theorem SameLogs.matches_eq (h : p.SameLogs q) (prev : Nat) : q.Matches prev = p.Matches prev := by
  rw [Matches, Matches, Raft.termAtLocked_congr h.leader.log h.leader.snapshotMeta,
    Raft.matchesPrefixLocked_congr h.follower.log h.follower.snapshotMeta]

theorem SameLogs.installable_iff (h : p.SameLogs q) : q.Installable ↔ p.Installable := by
  rw [Installable, Installable, h.leaderDisk, h.leader.snapshotMeta, h.follower.apply]

end Pair

namespace Cluster

/-- The leader and the follower are up in some reachable state of the cluster. -/
structure Linked {C : Cluster σ} (F : C.machine.Freight) (l f : Int) (p : Pair σ) : Prop where
  reachable : ∃ actions, Restoring F actions ∧
    (C.run actions).nodes l = .up p.leader p.leaderDisk ∧
    (C.run actions).nodes f = .up p.follower p.followerDisk
  ne : l ≠ f
  lead : p.leader.state = .leader
  term : p.follower.currentTerm ≤ p.leader.currentTerm

/-- What holds of two such nodes. -/
structure Coupled (C : Cluster σ) (l f : Int) (p : Pair σ) : Prop where
  leader_mem : l ∈ C.members
  follower_mem : f ∈ C.members
  leader : Running (C.imaging l) False p.leader p.leaderDisk
  follower : Running (C.imaging f) False p.follower p.followerDisk
  cursor : ∃ next m, p.leader.nextIndex f = some next ∧ p.leader.matchIndex f = some m ∧
    1 ≤ next ∧ next ≤ p.leader.history.length + 1 ∧ m ≤ p.leader.history.length
  committed : p.follower.history.take p.follower.commitIndex <+: p.leader.history
  matching : ∀ {k t}, termAt p.follower.history k = some t → termAt p.leader.history k = some t →
    p.follower.history.take k = p.leader.history.take k
  restores : ∀ s, p.leaderDisk.snapshot = some s →
    ∃ st, C.machine.snapshotter.restore s.data = .ok st
  installOk : ∀ {dst peer req}, p.leader.peer.Emits (C.env l) (C.imaging l).Encodes
    (.sendInstall dst) (.installRequest peer req) →
    (∃ st, C.machine.snapshotter.restore req.data = .ok st) →
    InstallOk (C.imaging f) p.follower.history p.follower.commitIndex req

variable {C : Cluster σ} {F : C.machine.Freight} {l f : Int} {p : Pair σ}

theorem Linked.coupled (h : Linked F l f p) : C.Coupled l f p := by
  obtain ⟨actions, hrest, hupl, hupf⟩ := h.reachable
  obtain ⟨a, hs⟩ := hrest.exists_history
  obtain ⟨hl, hrunl, hpeerl⟩ := hs.up hupl
  obtain ⟨hf, hrunf, hpeerf⟩ := hs.up hupf
  have hlog : p.leader.history = a.tlog p.leader.currentTerm := (hpeerl.own_log hs.inv h.lead).1
  have hlead : a.lead p.leader.currentTerm = some l := hpeerl.leader h.lead
  obtain ⟨next, m, hnext, hm, hpos, hle⟩ :=
    hrest.cursors_ok hupl h.lead f ((mem_peers hl).mpr ⟨hf, h.ne.symm⟩)
  refine
    { leader_mem := hl
      follower_mem := hf
      leader := hrunl
      follower := hrunf
      cursor := ⟨next, m, hnext, hm, hpos, hle, hs.matchesOk hupl h.lead f m hm⟩
      committed := ?_
      matching := ?_
      restores := fun s hs => hrest.restores (((carries_run hrest.proposes).up hupl).2.snapshot s hs)
      installOk := ?_ }
  · rw [hlog]
    exact hs.inv.committed_isPrefix_tlog (hpeerf.committed hs.inv) h.term hlead
  · intro k t hkf hkl
    have hgf := hs.inv.log_grown f
    have hgl := hs.inv.log_grown l
    rw [hpeerf.log] at hgf
    rw [hpeerl.log] at hgl
    exact take_eq_of_termAt hgf hgl hkf hkl
  · intro dst peer req hem hdata
    exact (installSim_of_emits hs.inv hpeerl hrunl.indexed hrunl.valid hem).installOk hdata hs.inv
      hpeerf

/-- A request, its answer and what the leader makes of it are steps of the cluster. -/
theorem Linked.exchange (h : Linked F l f p) {send req resp : Input}
    {o₁ o₂ o₃ : Output} {q : Pair σ}
    (hsend : (react (C.env l) send).run [] p.leader p.leaderDisk = .done o₁ p.leader p.leaderDisk)
    (hreq : (react (C.env f) req).run [] p.follower p.followerDisk =
      .done o₂ q.follower q.followerDisk)
    (hresp : (react (C.env l) resp).run [] p.leader p.leaderDisk =
      .done o₃ q.leader q.leaderDisk)
    (hav₁ : ∀ net, send.available net l = true)
    (hav₂ : ∀ net, req.available (C.sends l send o₁ ++ net) f = true)
    (hav₃ : ∀ net, resp.available (C.sends f req o₂ ++ net) l = true)
    (hprop : (∀ command, send ≠ .propose command) ∧ (∀ command, req ≠ .propose command) ∧
      ∀ command, resp ≠ .propose command)
    (hlead : q.leader.state = .leader) (hterm : q.follower.currentTerm ≤ q.leader.currentTerm) :
    Linked F l f q := by
  have hc := h.coupled
  obtain ⟨actions, hrest, hupl, hupf⟩ := h.reachable
  refine ⟨⟨actions ++ [.step l send []] ++ [.step f req []] ++ [.step l resp []], ?_, ?_⟩, h.ne,
    hlead, hterm⟩
  · exact ((hrest.snoc hprop.1).snoc hprop.2.1).snoc hprop.2.2
  · rw [run_append, run_append, run_append, perform_step hupl hc.leader_mem (hav₁ _) hsend,
      perform_step (r := p.follower) (d := p.followerDisk) ?_ hc.follower_mem (hav₂ _) hreq,
      perform_step (r := p.leader) (d := p.leaderDisk) ?_ hc.leader_mem (hav₃ _) hresp]
    · simp [h.ne.symm]
    · simp [h.ne]
    · simp [h.ne.symm, hupf]

theorem Coupled.build_install (h : C.Coupled l f p) (hlead : p.leader.state = .leader) {next : Nat}
    (hnext : p.leader.nextIndex f = some next) :
    ∃ out, (buildInstallSnapshot (C.env l) f).run [] p.leader p.leaderDisk =
        .done out p.leader p.leaderDisk ∧
      (p.leader.snapshotMeta.lastIncludedIndex < next → out = .ok none) ∧
      (next ≤ p.leader.snapshotMeta.lastIncludedIndex →
        (∃ s, p.leaderDisk.snapshot = some s ∧ s.metadata = p.leader.snapshotMeta ∧
          out = .ok (some ⟨p.leader.currentTerm, l, s.lastIncludedIndex, s.lastIncludedTerm, s.data,
            s.covers⟩)) ∨
        p.leaderDisk.snapshot.map Snapshot.metadata ≠ some p.leader.snapshotMeta ∧
          ∃ err, out = .error err) := by
  have hwp := @buildInstallSnapshot_out σ (C.env l) p.leader p.leaderDisk f Atomic (fun _ => True)
    next hlead hnext rfl
  rw [env_id h.leader_mem] at hwp
  obtain ⟨out, _, _, hrun, rfl, rfl, hout⟩ := wp_run_ok _ _ [] _ _ (fun x hx => by cases hx) hwp
  exact ⟨out, hrun, hout⟩

/-! ## Sending entries -/

theorem Linked.exchange_append (h : Linked F l f p)
    {req : AppendEntriesRequest} {resp : AppendEntriesResponse} {q : Pair σ} {again : Bool}
    (hbuild : p.leader.buildAppendEntries (C.env l).id f = some req) (hid : req.leaderID = l)
    (hreq : (react (C.env f) (.appendRequest req)).run [] p.follower p.followerDisk =
      .done (.appendResponse resp) q.follower q.followerDisk)
    (hresp : (handleAppendEntriesResponse (C.env l) f req resp).run [] p.leader p.leaderDisk =
      .done again q.leader q.leaderDisk)
    (hlead : q.leader.state = .leader) (hterm : q.follower.currentTerm ≤ q.leader.currentTerm) :
    Linked F l f q := by
  have hsend : (react (C.env l) (.sendAppend f)).run [] p.leader p.leaderDisk =
      .done (.appendRequest f req) p.leader p.leaderDisk := by
    refine @run_eq_of_wp _ _ _ Atomic (fun _ => True) _ _ _ _ _ _ ?_
    simp only [react, wp_bind, wp_read, hbuild, wp_pure]
    exact ⟨trivial, trivial, trivial⟩
  have hresp' : (react (C.env l) (.appendResponse f req resp)).run [] p.leader p.leaderDisk =
      .done .none q.leader q.leaderDisk := run_bind_nil _ _ hresp
  refine h.exchange hsend hreq hresp' (fun _ => rfl) (fun net => ?_) (fun net => ?_)
    ⟨by simp, by simp, by simp⟩ hlead hterm
  · simp [Input.available, sends]
  · simp [Input.available, sends, hid]

theorem Coupled.react_append (h : C.Coupled l f p) (req : AppendEntriesRequest) :
    ∃ resp r' d', (react (C.env f) (.appendRequest req)).run [] p.follower p.followerDisk =
      .done (.appendResponse resp) r' d' ∧ AppendAnswered req p.follower resp r' := by
  have hspec := handleAppendEntries_spec
    (.refl h.follower : Reaches (C.imaging f) False (.appendRequest req) _ _ _)
  obtain ⟨resp, r', d', hrun, -, hans⟩ := wp_run_ok _ _ [] _ _ (fun x hx => by cases hx) hspec
  exact ⟨resp, r', d', run_bind_nil _ _ hrun, hans⟩

/-- The entries that the leader sends, from one after `prev` on. -/
def entriesFrom (p : Pair σ) (l : Int) (prev t : Nat) : AppendEntriesRequest :=
  ⟨p.leader.currentTerm, l, prev, t, p.leader.history.drop prev, p.leader.commitIndex⟩

variable {next : Nat}

/-- A turn that sends entries. -/
theorem Coupled.turn_append (h : C.Coupled l f p) (hlead : p.leader.state = .leader)
    (hnext : p.leader.nextIndex f = some next)
    (hb : p.leader.snapshotMeta.lastIncludedIndex < next) :
    ∃ t, termAt p.leader.history (next - 1) = some t ∧
      p.Matches (next - 1) = p.follower.matchesPrefixLocked (next - 1) t ∧
      p.leader.buildAppendEntries (C.env l).id f = some (entriesFrom p l (next - 1) t) ∧
      C.replicateTurn l f p = C.sendEntries l f p (entriesFrom p l (next - 1) t) := by
  obtain ⟨next', m, hnext', -, -, hle, -⟩ := h.cursor
  obtain rfl := Option.some.inj (hnext'.symm.trans hnext)
  obtain ⟨t, ht, hlocked, hbuild⟩ :=
    buildAppendEntries_eq hlead h.leader.toShape hnext hb hle (C.env l).id
  rw [env_id h.leader_mem] at hbuild
  obtain ⟨out, hrun, hout, -⟩ := h.build_install hlead hnext
  rw [hout hb] at hrun
  refine ⟨t, ht, ?_, ?_, ?_⟩
  · rw [Pair.Matches, hlocked, Option.any_some]
  · rw [env_id h.leader_mem]
    exact hbuild
  · unfold replicateTurn
    rw [hrun, env_id h.leader_mem, hbuild]
    rfl

/-- The follower does not have the entry before the ones sent: the loop backs up. -/
theorem Linked.refused (h : Linked F l f p)
    (hnext : p.leader.nextIndex f = some next)
    (hb : p.leader.snapshotMeta.lastIncludedIndex < next) (hno : p.Matches (next - 1) = false) :
    (next ≤ 1 → C.replicateTurn l f p = .gaveUp) ∧
      (1 < next → ∃ q, C.replicateTurn l f p = .again q ∧ Linked F l f q ∧ p.SameLogs q ∧
        q.leader.nextIndex f = some (next - 1)) := by
  have hc := h.coupled
  obtain ⟨t, ht, hmatch, hbuild, hturn⟩ := hc.turn_append h.lead hnext hb
  obtain ⟨resp, r', d', hrun, hans⟩ := hc.react_append (entriesFrom p l (next - 1) t)
  obtain ⟨hterm, hterm'⟩ := hans.term h.term
  obtain ⟨hfail, hsame⟩ := hans.refuses h.term (hmatch.symm.trans hno)
  have hwp := @handleAppendEntriesResponse_refused σ (C.env l) p.leader p.leaderDisk f Atomic
    (fun _ => True) next h.lead (entriesFrom p l (next - 1) t) resp rfl hterm hfail hnext
  obtain ⟨out, leader, _, hleader, rfl, hstop, hback⟩ :=
    wp_run_ok _ _ [] _ _ (fun x hx => by cases hx) hwp
  rw [hturn]
  unfold sendEntries
  rw [hrun]
  dsimp only
  rw [hleader]
  refine ⟨fun hle => ?_, fun hgt => ?_⟩
  · rw [hstop hle]
    simp [hfail]
  · obtain ⟨rfl, rfl⟩ := hback hgt
    exact ⟨_, rfl, h.exchange_append hbuild rfl hrun hleader h.lead hterm'.le,
      ⟨⟨rfl, rfl, rfl, rfl, rfl, rfl, rfl⟩, rfl, hsame⟩, if_pos rfl⟩

/-- Entries with one index and term are one entry. -/
theorem Coupled.entry_eq (h : C.Coupled l f p) (k : Nat) (x y : LogEntry)
    (hx : p.follower.history[k]? = some x) (hy : p.leader.history[k]? = some y)
    (hterm : x.term = y.term) : x = y := by
  have htake := h.matching (k := k + 1) (t := x.term) (by rw [termAt_succ, hx]; rfl)
    (by rw [termAt_succ, hy, hterm]; rfl)
  have := congrArg (fun l : List LogEntry => l[k]?) htake
  simpa [List.getElem?_take_of_lt (Nat.lt_succ_self k), hx, hy] using this

/-- A log that agrees with all that the leader sent contains the leader's log. -/
theorem Coupled.isPrefix_of_agrees (h : C.Coupled l f p) {req : AppendEntriesRequest}
    (hterm : termAt p.leader.history req.prevLogIndex = some req.prevLogTerm)
    (hent : req.entries = p.leader.history.drop req.prevLogIndex)
    (ha : Agrees p.follower.history req req.entries.length) :
    p.leader.history <+: p.follower.history := by
  have htake := h.matching ha.1 hterm
  refine List.prefix_iff_getElem?.mpr fun k hk => ?_
  rcases Nat.lt_or_ge k req.prevLogIndex with hlt | hge
  · have := congrArg (fun l : List LogEntry => l[k]?) htake
    simpa [List.getElem?_take_of_lt hlt, hk] using this
  · obtain ⟨j, rfl⟩ : ∃ j, k = req.prevLogIndex + j := ⟨k - req.prevLogIndex, by omega⟩
    obtain ⟨e, he, hl⟩ := ha.2 j (by rw [hent, List.length_drop]; omega)
    rw [hent, List.getElem?_drop, List.getElem?_eq_getElem hk] at he
    rw [hl, he]

theorem recordMatch_matchIndex {r : Raft σ} {peer : Int} {matched m : Nat}
    (hm : r.matchIndex peer = some m) (hle : m ≤ matched) :
    (r.recordMatch peer matched).matchIndex peer = some matched := by
  simp only [Raft.recordMatch, hm, Option.getD_some]
  split
  · exact if_pos rfl
  · rw [hm]
    congr 1
    omega

/-- The follower has the entry before the ones sent: the loop ends, and both
nodes have what the other one needs to know. -/
theorem Linked.accepted (h : Linked F l f p)
    (hnext : p.leader.nextIndex f = some next)
    (hb : p.leader.snapshotMeta.lastIncludedIndex < next) (hyes : p.Matches (next - 1) = true) :
    ∃ q, C.replicateTurn l f p = .replicated q ∧ q.leader.history <+: q.follower.history ∧
      q.leader.matchIndex f = some q.leader.lastLogIndexLocked := by
  have hc := h.coupled
  obtain ⟨t, ht, hmatch, hbuild, hturn⟩ := hc.turn_append h.lead hnext hb
  rw [hyes, eq_comm] at hmatch
  obtain ⟨hbf, htf⟩ := (hc.follower.matchesPrefixLocked_iff _ _).mp hmatch
  have hplans : p.follower.Plans (entriesFrom p l (next - 1) t) := by
    refine ⟨Contiguous.drop ⟨hc.leader.valid, 0, hc.leader.indexed⟩ _, ?_⟩
    exact hc.follower.replicationPlanFrom_ok hc.leader.indexed hc.leader.valid hc.committed
      hc.follower.commit_le hc.entry_eq hbf _ rfl (termAt_le_length htf)
  obtain ⟨resp, r', d', hrun, hans⟩ := hc.react_append (entriesFrom p l (next - 1) t)
  have hok := hans.accepts h.term hmatch hplans
  obtain ⟨hterm', hterm, hagrees⟩ := hans.success hok
  have hwp := @handleAppendEntriesResponse_accepted σ (C.env l) p.leader p.leaderDisk f Atomic
    h.lead (entriesFrom p l (next - 1) t) resp rfl hterm hok
  obtain ⟨_, leader, leaderDisk, hleader, rfl, c, heq⟩ :=
    wp_run_ok _ _ [] _ _ (fun x hx => by cases hx) hwp
  have hhist : leader.history = p.leader.history := by rw [heq]; rfl
  have hstate : leader.state = .leader := by rw [heq]; exact h.lead
  have hcur : leader.currentTerm = p.leader.currentTerm := by rw [heq]; rfl
  let q : Pair σ := ⟨leader, leaderDisk, r', d'⟩
  have hq : C.Coupled l f q := (h.exchange_append hbuild rfl hrun hleader hstate
    (by rw [hcur]; exact hterm'.le)).coupled
  refine ⟨q, ?_, ?_, ?_⟩
  · rw [hturn]
    unfold sendEntries
    rw [hrun]
    dsimp only
    rw [hleader]
    exact if_pos hok
  · rw [← hhist] at ht
    exact hq.isPrefix_of_agrees ht (by rw [show q.leader.history = _ from hhist]; rfl) hagrees
  · obtain ⟨-, m, -, hm, -, -, hle⟩ := hc.cursor
    have hlast : (next - 1) + (p.leader.history.drop (next - 1)).length = leader.history.length := by
      have := termAt_le_length ht
      rw [List.length_drop, hhist]
      omega
    rw [← hhist, ← hlast] at hle
    rw [hq.leader.lastLogIndexLocked_eq]
    change leader.matchIndex f = some leader.history.length
    rw [← hlast, heq]
    exact recordMatch_matchIndex hm hle

/-! ## Sending a snapshot -/

theorem Linked.exchange_install (h : Linked F l f p)
    {req : InstallSnapshotRequest} {resp : InstallSnapshotResponse} {q : Pair σ} {again : Bool}
    (hbuild : (buildInstallSnapshot (C.env l) f).run [] p.leader p.leaderDisk =
      .done (.ok (some req)) p.leader p.leaderDisk) (hid : req.leaderID = l)
    (hreq : (react (C.env f) (.installRequest req)).run [] p.follower p.followerDisk =
      .done (.installResponse resp) q.follower q.followerDisk)
    (hresp : (handleInstallSnapshotResponse f req resp).run [] p.leader p.leaderDisk =
      .done again q.leader q.leaderDisk)
    (hlead : q.leader.state = .leader) (hterm : q.follower.currentTerm ≤ q.leader.currentTerm) :
    Linked F l f q := by
  have hsend : (react (C.env l) (.sendInstall f)).run [] p.leader p.leaderDisk =
      .done (.installRequest f req) p.leader p.leaderDisk := run_bind_nil _ _ hbuild
  have hresp' : (react (C.env l) (.installResponse f req resp)).run [] p.leader p.leaderDisk =
      .done .none q.leader q.leaderDisk := run_bind_nil _ _ hresp
  refine h.exchange hsend hreq hresp' (fun _ => rfl) (fun net => ?_) (fun net => ?_)
    ⟨by simp, by simp, by simp⟩ hlead hterm
  · simp [Input.available, sends]
  · simp [Input.available, sends, hid]

/-- The leader cannot send its snapshot, or the follower does not take it. -/
theorem Linked.snapshot_refused (h : Linked F l f p)
    (hnext : p.leader.nextIndex f = some next)
    (hle : next ≤ p.leader.snapshotMeta.lastIncludedIndex) (hno : ¬ p.Installable) :
    C.replicateTurn l f p = .gaveUp := by
  obtain ⟨out, hrun, -, hout⟩ := h.coupled.build_install h.lead hnext
  unfold replicateTurn
  rw [hrun]
  rcases hout hle with ⟨s, hs, hmeta, rfl⟩ | ⟨-, err, rfl⟩
  · have hmu : p.follower.apply.holdsSnapshotMu = true := by
      by_contra hfree
      exact hno ⟨by rw [hs, Option.map_some, hmeta], by simpa using hfree⟩
    have hbusy : ∀ req, (react (C.env f) (.installRequest req)).run [] p.follower p.followerDisk =
        .done .none p.follower p.followerDisk := by
      intro req
      refine @run_eq_of_wp _ _ _ Atomic (fun _ => True) _ _ _ _ _ _ ?_
      simp only [react, wp_bind, wp_read]
      rw [if_pos hmu]
      exact ⟨rfl, rfl, rfl⟩
    simp only [sendSnapshot, hbusy]
  · rfl

theorem Coupled.react_install (h : C.Coupled l f p) (hmu : p.follower.apply.holdsSnapshotMu = false)
    {req : InstallSnapshotRequest}
    (hok : InstallOk (C.imaging f) p.follower.history p.follower.commitIndex req)
    (hcan : CanInstall (C.env f) req) (hterm : p.follower.currentTerm ≤ req.term) :
    ∃ r' d', (react (C.env f) (.installRequest req)).run [] p.follower p.followerDisk =
      .done (.installResponse ⟨req.term⟩) r' d' ∧
      InstallAnswered (C.env f) req p.follower (.ok ⟨req.term⟩) r' := by
  have hspec := handleInstallSnapshot_spec
    (.refl h.follower : Reaches (C.imaging f) False (.installRequest req) _ _ _) hmu
    fun _ => ⟨hok, fun hf => hf.elim⟩
  have hwp : wp Atomic (Survives (C.imaging f) (.installRequest req) p.follower.peer)
      (react (C.env f) (.installRequest req)) (fun out r' _ => out = .installResponse ⟨req.term⟩ ∧
        InstallAnswered (C.env f) req p.follower (.ok ⟨req.term⟩) r') p.follower p.followerDisk := by
    simp only [react, wp_bind, wp_read]
    rw [if_neg (by simp [hmu])]
    simp only [wp_bind]
    refine wp_mono _ _ _ hspec ?_ fun _ hd => hd
    rintro out r' d' ⟨-, hans⟩
    obtain ⟨rfl, -⟩ := hans.answers hterm hcan
    exact ⟨rfl, hans⟩
  obtain ⟨_, r', d', hrun, rfl, hans⟩ := wp_run_ok _ _ [] _ _ (fun x hx => by cases hx) hwp
  exact ⟨r', d', hrun, hans⟩

/-- Up to the follower's commit index both logs have the same terms. -/
theorem Coupled.termAt_eq (h : C.Coupled l f p) {k : Nat} (hk : k ≤ p.follower.commitIndex) :
    termAt p.follower.history k = termAt p.leader.history k := by
  have hlen : k ≤ (p.follower.history.take p.follower.commitIndex).length := by
    rw [List.length_take, Nat.min_eq_left h.follower.commit_le]
    exact hk
  rw [termAt_of_isPrefix h.committed hlen, termAt_of_isPrefix (List.take_prefix _ _) hlen]

/-- The leader's snapshot is one that the follower can install. -/
theorem Coupled.snapshot_ok (h : C.Coupled l f p) {s : Snapshot} (hs : p.leaderDisk.snapshot = some s)
    (hpos : 0 < s.lastIncludedIndex) {req : InstallSnapshotRequest}
    (hreq : req = ⟨p.leader.currentTerm, l, s.lastIncludedIndex, s.lastIncludedTerm, s.data, s.covers⟩)
    (hrun : (buildInstallSnapshot (C.env l) f).run [] p.leader p.leaderDisk =
      .done (.ok (some req)) p.leader p.leaderDisk) :
    InstallOk (C.imaging f) p.follower.history p.follower.commitIndex req ∧
      CanInstall (C.env f) req := by
  constructor
  · have hspec : wp Atomic (fun _ => True) (buildInstallSnapshot (C.env l) f) _ p.leader
        p.leaderDisk := buildInstallSnapshot_spec h.leader _
    have hem := wp_run _ _ [] _ _ (fun x hx => by cases hx) hspec
    rw [hrun] at hem
    exact h.installOk (hem.2.2 req rfl) (hreq ▸ h.restores s hs)
  · subst hreq
    refine ⟨rfl, (Snapshot.validate_ok_iff _).mpr ⟨?_, (h.leader.disk_snapshot s hs).encodes⟩⟩
    refine (SnapshotMetadata.validate_ok_iff _).mpr fun hzero => ?_
    have : s.lastIncludedIndex = 0 := hzero
    omega

/-- Once the follower has answered, its log has the leader's term at the
leader's boundary: from the snapshot, or from before. -/
theorem Coupled.boundary_answered (h : C.Coupled l f p) {req : InstallSnapshotRequest}
    (hmu : p.follower.apply.holdsSnapshotMu = false) (hterm : p.follower.currentTerm ≤ req.term)
    (hok : InstallOk (C.imaging f) p.follower.history p.follower.commitIndex req)
    (hcan : CanInstall (C.env f) req) {r' : Raft σ}
    (hans : InstallAnswered (C.env f) req p.follower (.ok ⟨req.term⟩) r')
    (hindex : req.lastIncludedIndex = p.leader.snapshotMeta.lastIncludedIndex)
    (hsterm : req.lastIncludedTerm = p.leader.snapshotMeta.lastIncludedTerm)
    (hbf : p.follower.snapshotMeta.lastIncludedIndex ≤ p.leader.snapshotMeta.lastIncludedIndex) :
    r'.snapshotMeta.lastIncludedIndex ≤ p.leader.snapshotMeta.lastIncludedIndex ∧
      termAt r'.history p.leader.snapshotMeta.lastIncludedIndex =
        some p.leader.snapshotMeta.lastIncludedTerm := by
  by_cases hacc : p.follower.Accepts req
  · obtain ⟨hb', hhist⟩ := hans.installs hacc hcan
    refine ⟨(hb'.trans hindex).le, ?_⟩
    rw [hhist, ← hindex, ← hsterm, installedLog, termAt_append_left hok.length.ge, ← hok.length,
      termAt_length, hok.term]
  · have hignored := hans.ignored hacc
    have hlast : req.lastIncludedIndex ≤ p.follower.lastApplied := by
      by_contra hcon
      obtain ⟨hmeta, hdata⟩ := req.snapshot.validate_ok_iff.mp hcan.2
      exact hacc ⟨hterm, hmeta, hdata, Nat.lt_of_not_le hcon, hmu⟩
    refine ⟨hignored.snapshotMeta ▸ hbf, ?_⟩
    rw [hignored.history, h.termAt_eq (by have := h.follower.applied_le; omega)]
    have := h.leader.termAtLocked_eq p.leader.snapshotMeta.lastIncludedIndex
    rw [if_pos le_rfl] at this
    rw [← this]
    exact if_pos rfl

/-- The follower has a snapshot that goes as far as the leader's, or installs
that one. Either way it then has the leader's boundary, unless it has compacted
beyond it. -/
theorem Linked.snapshot_sent (h : Linked F l f p)
    (hnext : p.leader.nextIndex f = some next)
    (hle : next ≤ p.leader.snapshotMeta.lastIncludedIndex) (hyes : p.Installable) :
    ∃ q, C.replicateTurn l f p = .again q ∧ Linked F l f q ∧
      q.leader.nextIndex f = some (p.leader.snapshotMeta.lastIncludedIndex + 1) ∧
      p.leader.SameLog q.leader ∧
      (p.leader.snapshotMeta.lastIncludedIndex ≤ p.follower.lastApplied → p.SameLogs q) ∧
      (p.follower.snapshotMeta.lastIncludedIndex ≤ p.leader.snapshotMeta.lastIncludedIndex →
        q.Matches p.leader.snapshotMeta.lastIncludedIndex = true) := by
  have hc := h.coupled
  obtain ⟨next', m, hnext', -, hpos, -⟩ := hc.cursor
  obtain rfl := Option.some.inj (hnext'.symm.trans hnext)
  obtain ⟨out, hrun, -, hout⟩ := hc.build_install h.lead hnext
  rcases hout hle with ⟨s, hs, hmeta, rfl⟩ | ⟨hne, -⟩
  swap
  · exact absurd hyes.1 hne
  have hindex : s.lastIncludedIndex = p.leader.snapshotMeta.lastIncludedIndex := by rw [← hmeta]; rfl
  have hsterm : s.lastIncludedTerm = p.leader.snapshotMeta.lastIncludedTerm := by rw [← hmeta]; rfl
  let req : InstallSnapshotRequest := ⟨p.leader.currentTerm, l, s.lastIncludedIndex,
    s.lastIncludedTerm, s.data, s.covers⟩
  obtain ⟨hok, hcan⟩ : InstallOk (C.imaging f) p.follower.history p.follower.commitIndex req ∧
      CanInstall (C.env f) req := hc.snapshot_ok hs (by omega) rfl hrun
  obtain ⟨r', d', hreact, hans⟩ := hc.react_install hyes.2 hok hcan h.term
  have hterm' := (hans.answers h.term hcan).2
  have hwp := @handleInstallSnapshotResponse_accepted σ p.leader p.leaderDisk f Atomic
    (fun _ => True) h.lead req ⟨req.term⟩ rfl rfl
  obtain ⟨_, leader, _, hleader, rfl, rfl, heq⟩ :=
    wp_run_ok _ _ [] _ _ (fun x hx => by cases hx) hwp
  have hsame : p.leader.SameLog leader := by
    rw [heq]
    exact ⟨rfl, rfl, rfl, rfl, rfl, rfl, rfl⟩
  let q : Pair σ := ⟨leader, p.leaderDisk, r', d'⟩
  have hstate : leader.state = .leader := by rw [heq]; exact h.lead
  have hcur : leader.currentTerm = p.leader.currentTerm := by rw [heq]
  have hq : Linked F l f q := h.exchange_install hrun rfl hreact hleader hstate
    (hterm'.trans hcur.symm).le
  refine ⟨q, ?_, hq, ?_, hsame, fun hlast => ⟨hsame, rfl, hans.ignored fun hacc => ?_⟩,
    fun hbf => ?_⟩
  · unfold replicateTurn
    rw [hrun]
    dsimp only
    unfold sendSnapshot
    rw [hreact]
    dsimp only
    rw [hleader]
  · change leader.nextIndex f = _
    rw [heq, ← hindex]
    exact if_pos rfl
  · have : p.follower.lastApplied < s.lastIncludedIndex := hacc.above
    omega
  · have hqterm : q.leader.termAtLocked p.leader.snapshotMeta.lastIncludedIndex =
        some p.leader.snapshotMeta.lastIncludedTerm := by
      rw [Raft.termAtLocked_congr hsame.log hsame.snapshotMeta]
      exact if_pos rfl
    rw [Pair.Matches, hqterm, Option.any_some,
      hq.coupled.follower.matchesPrefixLocked_iff]
    exact hc.boundary_answered hyes.2 h.term hok hcan hans hindex hsterm hbf

end Cluster

end DistributedKv
