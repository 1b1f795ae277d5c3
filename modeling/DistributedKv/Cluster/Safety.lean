import DistributedKv.Cluster.Reload

/-!
Safety of the cluster over every run in which clients write text, with any loss,
duplication, delay and reordering of messages and a crash at any store call:

* `committed_entries_agree`: two nodes never commit different entries at one index;
* `log_matching`: equal terms at an index mean equal logs up to it, and terms do
  not decrease along a log;
* `leader_completeness`: a leader holds everything that a leader of an earlier
  term ever committed;
* `commit_quorum_durable`: what a leader commits is on disk at a majority.

None of them survives a key that is not UTF-8: in `invalidKeyRun` a follower
stores a DELETE of such a key, restarts, and reads back a DELETE of another key.
-/

namespace DistributedKv

open Crash
open Consensus (Committed Extends Grown Inv)

/-- The entry at an index, retained or compacted. -/
def Raft.entryOf {σ : Type} (r : Raft σ) : Nat → Option LogEntry
  | 0 => none
  | k + 1 => if k < r.snapshotMeta.lastIncludedIndex then r.covered[k]? else r.entryAtLocked (k + 1)

theorem Raft.Shape.entryOf_succ {σ : Type} {r : Raft σ} (h : r.Shape) (k : Nat) :
    r.entryOf (k + 1) = r.history[k]? := by
  rw [Raft.entryOf]
  rcases Nat.lt_or_ge k r.snapshotMeta.lastIncludedIndex with hk | hk
  · rw [if_pos hk, Raft.history, List.getElem?_append_left (by rw [h.covered_length]; exact hk)]
  · rw [if_neg (by omega), h.entryAtLocked_eq, if_pos (by omega), Nat.add_sub_cancel]

/-- Node 1 wins the first term and commits its no-op with node 2, which learns of
it; then node 2 wins the second term with the vote of node 3. -/
def sampleRun : List Action :=
  let first : AppendEntriesRequest := ⟨1, 1, 1, 1, [], 0⟩
  let second : AppendEntriesRequest := ⟨1, 1, 0, 0, [noopEntry 1 1], 0⟩
  let third : AppendEntriesRequest := ⟨1, 1, 1, 1, [], 1⟩
  [.restart 1 [], .restart 2 [], .restart 3 [],
    .step 1 .electionTimeout [], .step 2 (.voteRequest ⟨1, 1, 0, 0⟩) [],
    .step 1 (.voteResponse 2 1 ⟨1, true⟩) [],
    .step 1 (.sendAppend 2) [], .step 2 (.appendRequest first) [],
    .step 1 (.appendResponse 2 first ⟨1, false⟩) [],
    .step 1 (.sendAppend 2) [], .step 2 (.appendRequest second) [],
    .step 1 (.appendResponse 2 second ⟨1, true⟩) [],
    .step 1 (.sendAppend 2) [], .step 2 (.appendRequest third) [],
    .step 2 .electionTimeout [], .step 3 (.voteRequest ⟨2, 2, 1, 1⟩) [],
    .step 2 (.voteResponse 3 2 ⟨2, true⟩) []]

/-- Node 1 wins the first term and takes a DELETE whose key is not text. Node 2
stores it, crashes and restarts before node 1 hears of it and commits; a heartbeat
tells node 2 of the commit index, and then node 2 wins the second term. -/
def invalidKeyRun : List Action :=
  let entries := [noopEntry 1 1, ⟨2, 1, .delete, [0xFF], []⟩]
  let first : AppendEntriesRequest := ⟨1, 1, 1, 1, entries.drop 1, 0⟩
  let second : AppendEntriesRequest := ⟨1, 1, 0, 0, entries, 0⟩
  let third : AppendEntriesRequest := ⟨1, 1, 2, 1, [], 2⟩
  [.restart 1 [], .restart 2 [], .restart 3 [],
    .step 1 .electionTimeout [], .step 2 (.voteRequest ⟨1, 1, 0, 0⟩) [],
    .step 1 (.voteResponse 2 1 ⟨1, true⟩) [], .step 1 (.propose ⟨.delete, [0xFF], []⟩) [],
    .step 1 (.sendAppend 2) [], .step 2 (.appendRequest first) [],
    .step 1 (.appendResponse 2 first ⟨1, false⟩) [],
    .step 1 (.sendAppend 2) [], .step 2 (.appendRequest second) [],
    .crash 2, .restart 2 [],
    .step 1 (.appendResponse 2 second ⟨1, true⟩) [],
    .step 1 (.sendAppend 2) [], .step 2 (.appendRequest third) [],
    .step 2 .electionTimeout [], .step 3 (.voteRequest ⟨2, 2, 2, 1⟩) [],
    .step 2 (.voteResponse 3 2 ⟨2, true⟩) []]

namespace Cluster

variable {σ : Type} {C : Cluster σ} {actions : List Action} {f : Nat → History}

theorem sampleRun_text : (localCluster 1).WritesText .framed sampleRun :=
  localCluster_writesText 1 (by decide) (by decide)

/-! ## Agreement on committed entries -/

/-- Two nodes agree on what both have committed, at any two moments of a run. -/
theorem Traced.entryOf_eq (hf : C.Traced actions f) {j k : Nat} {a b : Int} {ra rb : Raft σ}
    {da db : Disk} (ha : (C.run (actions.take j)).nodes a = .up ra da)
    (hb : (C.run (actions.take k)).nodes b = .up rb db) {i : Nat} (hia : i ≤ ra.commitIndex)
    (hib : i ≤ rb.commitIndex) : ra.entryOf i = rb.entryOf i := by
  cases i with
  | zero => rfl
  | succ i =>
    have hsa := hf.sim j
    have hsb := hf.sim k
    obtain ⟨-, hruna, hsima⟩ := hsa.up ha
    obtain ⟨-, hrunb, hsimb⟩ := hsb.up hb
    have hlen : i < ra.history.length := hia.trans hruna.commit_le
    have hlen' : i < rb.history.length := hib.trans hrunb.commit_le
    -- compare the two at a moment that is not before either of them
    have hcoma := (hsima.committed hsa.inv).mono (hf.extends_ (Nat.le_max_left j k)) le_rfl
    have hcomb := (hsimb.committed hsb.inv).mono (hf.extends_ (Nat.le_max_right j k)) le_rfl
    rw [hruna.entryOf_succ, hrunb.entryOf_succ]
    rcases (hf.sim (max j k)).inv.committed_comparable hcoma hcomb with hp | hp
    · exact (Consensus.getElem?_eq_of_take_isPrefix (hp.trans (List.take_prefix _ _)) hia hlen).symm
    · exact Consensus.getElem?_eq_of_take_isPrefix (hp.trans (List.take_prefix _ _)) hib hlen'

/-- In every reachable state of a cluster whose clients write text, an index that
two running nodes have committed holds the same entry on both. -/
theorem committed_entries_agree {maxLength : Int} {json : Json} {C : Cluster (MemoryStore maxLength)}
    (h : C.WritesText json actions) {a b : Int} {ra rb : Raft (MemoryStore maxLength)} {da db : Disk}
    (ha : (C.runReloading actions).nodes a = .up ra da)
    (hb : (C.runReloading actions).nodes b = .up rb db) {i : Nat} (hpos : 0 < i)
    (hia : i ≤ ra.commitIndex) (hib : i ≤ rb.commitIndex) :
    ∃ e, ra.entryOf i = some e ∧ rb.entryOf i = some e := by
  obtain ⟨f, hf⟩ := h.exists_histories
  rw [← List.take_length (l := actions), h.run_take_eq] at ha hb
  obtain ⟨-, hruna, -⟩ := (hf.sim _).up ha
  obtain ⟨k, rfl⟩ : ∃ k, i = k + 1 := ⟨i - 1, by omega⟩
  have hlen : k < ra.history.length := hia.trans hruna.commit_le
  have hget : ra.entryOf (k + 1) = some ra.history[k] := by
    rw [hruna.entryOf_succ, List.getElem?_eq_getElem hlen]
  exact ⟨_, hget, (hf.entryOf_eq ha hb hia hib).symm.trans hget⟩

theorem committed_entries_agree_sampleRun :
    ∃ ra da rb db e, ((localCluster 1).runReloading sampleRun).nodes 1 = .up ra da ∧
      ((localCluster 1).runReloading sampleRun).nodes 2 = .up rb db ∧ ra.commitIndex = 1 ∧
      rb.commitIndex = 1 ∧ ra.entryOf 1 = some e ∧ rb.entryOf 1 = some e := by
  obtain ⟨e, hea, heb⟩ := committed_entries_agree (a := 1) (b := 2) (i := 1)
    sampleRun_text rfl rfl (by decide) (by decide) (by decide)
  exact ⟨_, _, _, _, e, rfl, rfl, rfl, rfl, hea, heb⟩

/-- No store call fails, and yet two nodes have committed different entries. -/
theorem invalidKeyRun_disagrees :
    Permitted Atomic invalidKeyRun ∧
    ∃ ra da rb db, ((localCluster 1).runReloading (invalidKeyRun.take 17)).nodes 1 = .up ra da ∧
      ((localCluster 1).runReloading (invalidKeyRun.take 17)).nodes 2 = .up rb db ∧
      ra.commitIndex = 2 ∧ rb.commitIndex = 2 ∧
      ra.entryOf 2 = some ⟨2, 1, .delete, [0xFF], []⟩ ∧
      rb.entryOf 2 = some ⟨2, 1, .delete, [0xEF, 0xBF, 0xBD], []⟩ :=
  ⟨.of_nil (by decide), _, _, _, _, rfl, rfl, rfl, rfl, rfl, rfl⟩

/-! ## Log matching -/

theorem PeerSim.grown {s : History} {n : Int} {p : Peer} (h : PeerSim s n p)
    (hi : Inv C.protocol s) : Grown C.protocol s.tlog p.history := h.log ▸ hi.log_grown n

/-- Below an index where two logs have the same term, they have the same terms. -/
theorem termAt_eq_of_take {l q : List LogEntry} {i j : Nat} (h : l.take i = q.take i)
    (hj : j ≤ i) : termAt l j = termAt q j := by
  cases j with
  | zero => rfl
  | succ j =>
    have := congrArg (fun x : List LogEntry => x[j]?) h
    simp only [List.getElem?_take_of_lt (show j < i from hj)] at this
    rw [termAt_succ, termAt_succ, this]

theorem termAt_mono {s : History} {l : List LogEntry} (hl : Grown C.protocol s.tlog l)
    {j k t t' : Nat} (hjk : j ≤ k) (ht : termAt l j = some t) (ht' : termAt l k = some t') :
    t ≤ t' := by
  cases j with
  | zero =>
    obtain rfl : 0 = t := Option.some.inj ht
    exact Nat.zero_le _
  | succ j =>
    obtain ⟨k, rfl⟩ : ∃ m, k = m + 1 := ⟨k - 1, by omega⟩
    rw [termAt_succ, Option.map_eq_some_iff] at ht ht'
    obtain ⟨x, hx, rfl⟩ := ht
    obtain ⟨y, hy, rfl⟩ := ht'
    exact hl.term_le hx hy (by omega)

theorem termAt_le_term {s : History} {n : Int} {p : Peer} (h : PeerSim s n p)
    (hi : Inv C.protocol s) {j t : Nat} (ht : termAt p.history j = some t) : t ≤ p.term := by
  cases j with
  | zero =>
    obtain rfl : 0 = t := Option.some.inj ht
    exact Nat.zero_le _
  | succ j =>
    rw [termAt_succ, Option.map_eq_some_iff] at ht
    obtain ⟨x, hx, rfl⟩ := ht
    have hle := hi.log_le n
    rw [h.log, h.term] at hle
    exact hle x (List.mem_of_getElem? hx)

/-- In every reachable state of a cluster whose clients write text: where two
running nodes know the same term at an index, the entries that both retain up to
it are identical and so are the terms that both know; on each node the known
terms do not decrease and never exceed its current term. -/
theorem log_matching {maxLength : Int} {json : Json} {C : Cluster (MemoryStore maxLength)}
    (h : C.WritesText json actions) :
    (∀ {a b : Int} {ra rb : Raft (MemoryStore maxLength)} {da db : Disk},
      (C.runReloading actions).nodes a = .up ra da →
      (C.runReloading actions).nodes b = .up rb db → ∀ {i t : Nat}, ra.termAtLocked i = some t →
      rb.termAtLocked i = some t →
        (∀ j ≤ i, ∀ x y, ra.entryAtLocked j = some x → rb.entryAtLocked j = some y → x = y) ∧
        (∀ j ≤ i, ∀ u v, ra.termAtLocked j = some u → rb.termAtLocked j = some v → u = v)) ∧
    (∀ {a : Int} {r : Raft (MemoryStore maxLength)} {d : Disk},
      (C.runReloading actions).nodes a = .up r d →
      (∀ {j k u v}, j ≤ k → r.termAtLocked j = some u → r.termAtLocked k = some v → u ≤ v) ∧
      (∀ {j u}, r.termAtLocked j = some u → u ≤ r.currentTerm)) := by
  obtain ⟨s, hs⟩ := h.exists_history
  rw [h.run_eq]
  refine ⟨fun {a b ra rb da db} ha hb {i t} hta htb => ?_, fun {a r d} ha => ?_⟩
  · obtain ⟨-, hruna, hsima⟩ := hs.up ha
    obtain ⟨-, hrunb, hsimb⟩ := hs.up hb
    have hta := (hruna.termAt_of_termAtLocked hta).2
    have htb := (hrunb.termAt_of_termAtLocked htb).2
    have htake := take_eq_of_termAt (hsima.grown hs.inv) (hsimb.grown hs.inv) hta htb
    refine ⟨fun j hj x y hx hy => ?_, fun j hj u v hu hv => ?_⟩
    · obtain ⟨hja, hx⟩ := hruna.getElem?_of_entryAtLocked hx
      obtain ⟨-, hy⟩ := hrunb.getElem?_of_entryAtLocked hy
      have hlt : j - 1 < i := by omega
      have := congrArg (fun l : List LogEntry => l[j - 1]?) htake
      simp only [List.getElem?_take_of_lt hlt] at this
      exact Option.some.inj (hx.symm.trans (this.trans hy))
    · have hu := (hruna.termAt_of_termAtLocked hu).2
      have hv := (hrunb.termAt_of_termAtLocked hv).2
      exact Option.some.inj (hu.symm.trans ((termAt_eq_of_take htake hj).trans hv))
  · obtain ⟨-, hrun, hsim⟩ := hs.up ha
    refine ⟨fun {j k u v} hjk hu hv => ?_, fun {j u} hu => ?_⟩
    · exact termAt_mono (hsim.grown hs.inv) hjk (hrun.termAt_of_termAtLocked hu).2
        (hrun.termAt_of_termAtLocked hv).2
    · exact termAt_le_term hsim hs.inv (hrun.termAt_of_termAtLocked hu).2

theorem log_matching_sampleRun :
    ∃ ra da rb db, ((localCluster 1).runReloading sampleRun).nodes 1 = .up ra da ∧
      ((localCluster 1).runReloading sampleRun).nodes 2 = .up rb db ∧
      ra.termAtLocked 1 = some 1 ∧ rb.termAtLocked 1 = some 1 ∧
      (∀ j ≤ 1, ∀ x y, ra.entryAtLocked j = some x → rb.entryAtLocked j = some y → x = y) ∧
      (∀ {j k u v}, j ≤ k → rb.termAtLocked j = some u → rb.termAtLocked k = some v → u ≤ v) := by
  obtain ⟨hmatch, hmono⟩ := log_matching sampleRun_text
  exact ⟨_, _, _, _, rfl, rfl, rfl, rfl, (@hmatch 1 2 _ _ _ _ rfl rfl 1 1 rfl rfl).1,
    (@hmono 2 _ _ rfl).1⟩

/-- No store call fails, and yet two nodes know the same term at an index and
retain different entries there. -/
theorem invalidKeyRun_mismatches :
    Permitted Atomic invalidKeyRun ∧
    ∃ ra da rb db, ((localCluster 1).runReloading (invalidKeyRun.take 14)).nodes 1 = .up ra da ∧
      ((localCluster 1).runReloading (invalidKeyRun.take 14)).nodes 2 = .up rb db ∧
      ra.termAtLocked 2 = some 1 ∧ rb.termAtLocked 2 = some 1 ∧
      ra.entryAtLocked 2 = some ⟨2, 1, .delete, [0xFF], []⟩ ∧
      rb.entryAtLocked 2 = some ⟨2, 1, .delete, [0xEF, 0xBF, 0xBD], []⟩ :=
  ⟨.of_nil (by decide), _, _, _, _, rfl, rfl, rfl, rfl, rfl, rfl⟩

/-! ## Leader completeness -/

/-- A leader's history continues the log it stood for election with. -/
theorem PeerSim.elected {s : History} {n : Int} {p : Peer} (h : PeerSim s n p)
    (hi : Inv C.protocol s) (hl : p.role = .leader) :
    ∃ l, s.cand p.term n = some l ∧ l <+: p.history := by
  obtain ⟨l, hc, hpre, -⟩ := hi.lead_cand (h.leader hl)
  exact ⟨l, hc, (h.own_log hi hl).1 ▸ hpre⟩

/-- Whatever a node of some term, its leader above all, has committed at some
moment of a run whose clients write text, every leader of a later term holds at
every moment of its leadership, the first one included; it does not matter which
of the two moments comes first. -/
theorem leader_completeness {maxLength : Int} {json : Json} {C : Cluster (MemoryStore maxLength)}
    (h : C.WritesText json actions) {j k : Nat} {a b : Int}
    {ra rb : Raft (MemoryStore maxLength)} {da db : Disk}
    (ha : (C.runReloading (actions.take j)).nodes a = .up ra da)
    (hb : (C.runReloading (actions.take k)).nodes b = .up rb db)
    (hlb : rb.state = .leader) (hterm : ra.currentTerm < rb.currentTerm) {i : Nat} {e : LogEntry}
    (hi : i ≤ ra.commitIndex) (he : ra.entryOf i = some e) :
    rb.entryAtLocked i = some e ∨
      i ≤ rb.snapshotMeta.lastIncludedIndex ∧ rb.covered[i - 1]? = some e := by
  obtain ⟨f, hf⟩ := h.exists_histories
  rw [h.run_take_eq] at ha hb
  have hsa := hf.sim j
  have hsb := hf.sim k
  obtain ⟨-, hruna, hsima⟩ := hsa.up ha
  obtain ⟨-, hrunb, hsimb⟩ := hsb.up hb
  obtain ⟨m, rfl⟩ : ∃ m, i = m + 1 := by
    cases i with
    | zero => cases he
    | succ m => exact ⟨m, rfl⟩
  -- compare the two at a moment that is not before either of them
  have hxa := hf.extends_ (Nat.le_max_left j k)
  have hxb := hf.extends_ (Nat.le_max_right j k)
  have hcom := (hsima.committed hsa.inv).mono hxa le_rfl
  obtain ⟨l, hcand, hpre⟩ := hsimb.elected hsb.inv hlb
  have hlead := hxb.lead (hsimb.leader hlb)
  have hsub := (hf.sim (max j k)).inv.committed_isPrefix_cand hcom hterm hlead (hxb.cand hcand)
  rw [hruna.entryOf_succ] at he
  have hlt : m < ra.history.length := (List.getElem?_eq_some_iff.mp he).1
  have hb : rb.history[m]? = some e :=
    (Consensus.getElem?_eq_of_take_isPrefix (hsub.trans hpre) hi hlt).trans he
  rw [← hrunb.entryOf_succ, Raft.entryOf] at hb
  split at hb
  · exact .inr ⟨‹_›, hb⟩
  · exact .inl hb

theorem leader_completeness_sampleRun :
    ∃ ra da rb db, ((localCluster 1).runReloading (sampleRun.take 12)).nodes 1 = .up ra da ∧
      ((localCluster 1).runReloading (sampleRun.take 17)).nodes 2 = .up rb db ∧
      ra.state = .leader ∧ ra.currentTerm = 1 ∧ ra.entryOf 1 = some (noopEntry 1 1) ∧
      rb.state = .leader ∧ rb.currentTerm = 2 ∧
      (rb.entryAtLocked 1 = some (noopEntry 1 1) ∨ 1 ≤ rb.snapshotMeta.lastIncludedIndex ∧
        rb.covered[0]? = some (noopEntry 1 1)) :=
  ⟨_, _, _, _, rfl, rfl, rfl, rfl, rfl, rfl, rfl,
    leader_completeness (j := 12) (k := 17) (a := 1) (b := 2) (i := 1)
      sampleRun_text rfl rfl rfl (by decide) (by decide) rfl⟩

/-- No store call fails, and yet the leader of the second term has another entry
where the leader of the first term has committed one. -/
theorem invalidKeyRun_incomplete :
    Permitted Atomic invalidKeyRun ∧
    ∃ ra da rb db, ((localCluster 1).runReloading (invalidKeyRun.take 15)).nodes 1 = .up ra da ∧
      ((localCluster 1).runReloading (invalidKeyRun.take 20)).nodes 2 = .up rb db ∧
      ra.state = .leader ∧ ra.currentTerm = 1 ∧ ra.commitIndex = 2 ∧
      ra.entryOf 2 = some ⟨2, 1, .delete, [0xFF], []⟩ ∧
      rb.state = .leader ∧ rb.currentTerm = 2 ∧ rb.snapshotMeta.lastIncludedIndex = 0 ∧
      rb.entryAtLocked 2 = some ⟨2, 1, .delete, [0xEF, 0xBF, 0xBD], []⟩ :=
  ⟨.of_nil (by decide), _, _, _, _, rfl, rfl, rfl, rfl, rfl, rfl, rfl, rfl, rfl, rfl⟩

/-! ## Durability -/

/-- What is left of the leader's commit rule at the end of a step. -/
theorem advanced_of_steps {env : Env σ} {p p' : Peer} {peer : Int} {req : AppendEntriesRequest}
    {resp : AppendEntriesResponse} (h : p.Steps env (.appendResponse peer req resp) p') :
    p'.commit = p.commit ∨ (p'.role = .leader →
      termAt p'.history p'.commit = some p'.term ∧ env.majority ≤ p'.matched env p'.commit) := by
  induction h with
  | refl => exact .inl rfl
  | tail _ hstep ih =>
    cases hstep with
    | raise _ _ t ht => exact .inr fun hl => by cases hl
    | follow => exact .inr fun hl => by cases hl
    | crash => exact .inr fun hl => by cases hl
    | recordAppend =>
      refine ih.imp_right fun hr hl => ⟨(hr hl).1, (hr hl).2.trans ?_⟩
      -- a recorded match only raises match indexes
      refine Nat.add_le_add_left (List.monotone_filter_right _ fun q hq => ?_).length_le 1
      have hq := of_decide_eq_true hq
      refine decide_eq_true ?_
      simp only [Peer.recordMatch]
      split
      · simp only [setAt]
        split
        · rename_i hlt heq
          subst heq
          exact hq.trans hlt.le
        · exact hq
      · exact hq
    | advance _ _ _ _ index hl hc ht hm => exact .inr fun _ => ⟨ht, hm⟩

/-- The changes that a step makes to a node that stays up. -/
theorem Sim.steps {F : C.machine.Freight} (hrest : F.Restores) {w : World σ} (hw : Carries F w)
    {s : History} (h : C.Sim w s) {n : Int} {r r' : Raft σ} {d d' : Disk}
    (hup : w.nodes n = .up r d) {i : Input} {answers : List Outcome}
    (hans : ∀ o ∈ answers, Atomic o)
    (hup' : (C.perform w (.step n i answers)).nodes n = .up r' d') :
    r.peer.Steps (C.env n) i r'.peer := by
  obtain ⟨hn, hrun, -⟩ := h.up hup
  rcases perform_up hup' with hold | ⟨_, _, r₁, d₁, out, heq, hup₁, -, hav, hstep⟩ |
    ⟨_, _, _, hcon, -⟩
  · obtain ⟨rfl, rfl⟩ := Process.up.inj (hup.symm.trans hold)
    exact .refl
  · obtain ⟨-, rfl, rfl⟩ := Action.step.inj heq
    obtain ⟨rfl, rfl⟩ := Process.up.inj (hup.symm.trans hup₁)
    exact (react_done (cfg_ok hn) hrun (h.inputOk hrest hw hup hav) hans hstep).1.steps
  · cases hcon

variable {s : History} {n : Int}

/-- The files of any process are those of its peer. -/
theorem ProcessSim.disk {proc : Process σ} (h : C.ProcessSim s n proc) :
    s.term n = proc.disk.stable.currentTerm ∧ s.log n = proc.disk.history := by
  cases proc with
  | up r d =>
    obtain ⟨-, hrun, hsim⟩ := h
    have hst : d.stable = r.stable := hrun.disk_stable
    refine ⟨?_, hsim.log.trans hrun.disk_history.symm⟩
    change _ = d.stable.currentTerm
    rw [hst]
    exact hsim.term
  | down d => exact ⟨h.2.term, h.2.log⟩

/-- A node that acknowledged `i` entries in its current term still has them. -/
theorem isPrefix_of_ack (hi : Inv C.protocol s) {t i : Nat} (ht : s.term n = t)
    (hle : i ≤ s.ack n t) : (s.tlog t).take i <+: s.log n := by
  subst ht
  exact (List.take_prefix_take_left hle).trans (hi.ack_log n)

/-- An acknowledgement stems from a moment at which its sender was in that term,
unless the sender led it. -/
theorem Traced.acknowledged {f : Nat → History} (hf : C.Traced actions f) {k t i : Nat}
    (hpos : 0 < i) (hle : i ≤ (f k).ack n t) :
    (f k).lead t = some n ∨ ∃ j ≤ k, (f j).term n = t ∧ i ≤ (f j).ack n t := by
  have h0 : (f 0).ack n t < i := by rw [hf.initial]; exact hpos
  obtain ⟨j, hj, hlt, hge⟩ := Run.exists_first (m := fun j => (f j).ack n t) h0 hle
  rcases (hf.follows j).ack n t (hlt.trans_le hge) with hlead | hterm
  · exact .inl ((hf.extends_ hj).lead hlead)
  · exact .inr ⟨j + 1, hj, hterm, hge⟩

/-- The files of a node hold `l` at moment `k`, or they are in a later term than
`t` and held `l` at an earlier moment, when they were in term `t`. -/
def Secured (files : Nat → Disk) (k t : Nat) (l : List LogEntry) : Prop :=
  l <+: (files k).history ∨
    t < (files k).stable.currentTerm ∧
      ∃ j < k, (files j).stable.currentTerm = t ∧ l <+: (files j).history

/-- What a node acknowledged to the leader of a term is secured. -/
theorem Traced.secured {f : Nat → History} (hf : C.Traced actions f) {k t i : Nat} {a : Int}
    (hpos : 0 < i) (hlead : (f k).lead t = some a) (hterm : (f k).term a = t)
    (hle : i ≤ (f k).ack n t) :
    Secured (fun j => ((C.run (actions.take j)).nodes n).disk) k t (((f k).tlog t).take i) := by
  have hi := (hf.sim k).inv
  obtain ⟨hnow, hlog⟩ := ((hf.sim k).node n).disk
  rcases Nat.lt_or_eq_of_le (hi.ack_term (hpos.trans_le hle)) with hlt | heq
  · refine .inr ⟨hnow ▸ hlt, ?_⟩
    rcases hf.acknowledged hpos hle with hown | ⟨j, hj, hjt, hjle⟩
    · -- the leader itself is still in its term
      obtain rfl := Option.some.inj (hlead.symm.trans hown)
      omega
    · have hne : j ≠ k := by rintro rfl; omega
      refine ⟨j, Nat.lt_of_le_of_ne hj hne, ?_⟩
      obtain ⟨hthen, hlog'⟩ := ((hf.sim j).node n).disk
      refine ⟨hthen ▸ hjt, ?_⟩
      have hlen := hjle.trans ((hf.sim j).inv.ack_le n t)
      rw [← hlog', Consensus.take_of_isPrefix ((hf.extends_ hj).tlog t) hlen]
      exact isPrefix_of_ack (hf.sim j).inv hjt hjle
  · refine .inl ?_
    rw [← hlog]
    exact isPrefix_of_ack hi heq.symm hle

/-- The leader and the peers that it counts for `index`. -/
def counted (C : Cluster σ) (a : Int) (p : Peer) (index : Nat) : List Int :=
  a :: (C.env a).peers.filter fun q => (p.matchIndex q).getD 0 ≥ index

theorem counted_length (a : Int) (p : Peer) (index : Nat) :
    (C.counted a p index).length = p.matched (C.env a) index := by
  rw [counted, List.length_cons, Peer.matched, Nat.add_comm]

theorem counted_nodup {a : Int} (ha : a ∈ C.members) (p : Peer) (index : Nat) :
    (C.counted a p index).Nodup := by
  have hnodup := Env.ids_nodup (cfg_ok ha)
  rw [env_id ha] at hnodup
  exact hnodup.sublist (List.filter_sublist.cons_cons a)

theorem ack_of_counted (hi : Inv C.protocol s) {a : Int} {p : Peer} (h : PeerSim s a p)
    (hl : p.role = .leader) {index : Nat} (hpos : 0 < index) (hlen : index ≤ p.history.length)
    {v : Int} (hv : v ∈ C.counted a p index) : index ≤ s.ack v p.term := by
  rcases List.mem_cons.mp hv with rfl | hv
  · rw [(h.own_log hi hl).2]
    exact hlen
  · have hge := of_decide_eq_true (List.mem_filter.mp hv).2
    cases hm : p.matchIndex v with
    | none => rw [hm] at hge; exact absurd hge (by simp; omega)
    | some m =>
      rw [hm] at hge
      exact le_trans hge (h.matched hl v m hm)

theorem mem_of_counted {a : Int} (ha : a ∈ C.members) {p : Peer} {index : Nat} {v : Int}
    (hv : v ∈ C.counted a p index) : v ∈ C.members := by
  rcases List.mem_cons.mp hv with rfl | hv
  · exact ha
  · exact ((mem_peers ha).mp (List.mem_filter.mp hv).1).1

/-- The files of a node at each moment of a run, as `Load` reads them. -/
def stored (C : Cluster σ) (actions : List Action) (n : Int) (k : Nat) : Disk :=
  ((C.runReloading (actions.take k)).nodes n).disk.reloaded

theorem WritesText.stored_eq {maxLength : Int} {json : Json} {C : Cluster (MemoryStore maxLength)}
    (h : C.WritesText json actions) (n : Int) (k : Nat) :
    C.stored actions n k = ((C.run (actions.take k)).nodes n).disk := by
  have hfiles := (carries_run (h.restoring.take k).proposes).files n
  rw [stored, h.run_take_eq, Disk.reloaded_of_text hfiles.log]

/-- In a cluster whose clients write text: when an AppendEntries response moves a
leader's commit index, the entry there is of the leader's term, and at least a
majority of the members, the leader among them, secured the leader's log up to it.
At every moment, what a leader knows a peer to match is on the disk of that peer
while it is in the leader's term. -/
theorem commit_quorum_durable {maxLength : Int} {json : Json} {C : Cluster (MemoryStore maxLength)}
    (h : C.WritesText json actions) :
    (∀ {k : Nat} {a peer : Int} {req : AppendEntriesRequest} {resp : AppendEntriesResponse}
        {answers : List Outcome} {r r' : Raft (MemoryStore maxLength)} {d d' : Disk},
      actions[k]? = some (.step a (.appendResponse peer req resp) answers) →
      (C.runReloading (actions.take k)).nodes a = .up r d →
      (C.runReloading (actions.take (k + 1))).nodes a = .up r' d' →
      r'.state = .leader → r.commitIndex < r'.commitIndex →
        r'.termAtLocked r'.commitIndex = some r'.currentTerm ∧
        ∃ holders : List Int, holders.Nodup ∧ (C.env a).majority ≤ holders.length ∧
          a ∈ holders ∧ ∀ v ∈ holders, v ∈ C.members ∧
            Secured (C.stored actions v) (k + 1) r'.currentTerm (r'.history.take r'.commitIndex)) ∧
    (∀ {k : Nat} {a peer : Int} {r : Raft (MemoryStore maxLength)} {d : Disk} {m : Nat},
      (C.runReloading (actions.take k)).nodes a = .up r d → r.state = .leader →
      r.matchIndex peer = some m →
      (C.stored actions peer k).stable.currentTerm = r.currentTerm →
      ∀ i, 0 < i → i ≤ m → ∃ e, r.entryOf i = some e ∧
        (C.stored actions peer k).history[i - 1]? = some e) := by
  obtain ⟨f, hf⟩ := h.exists_histories
  simp only [h.run_take_eq, h.stored_eq, funext (h.stored_eq _)]
  constructor
  · intro k a peer req resp answers r r' d d' hact hup hup' hl hlt
    have hans := h.atomic _ (List.mem_of_getElem? hact)
    have hs := hf.sim (k + 1)
    obtain ⟨ha, hrunning, hsim⟩ := hs.up hup'
    rw [C.run_take_succ hact] at hup'
    have hrest := h.restoring.take k
    have hsteps := (hf.sim k).steps hrest.restores (carries_run hrest.proposes) hup hans hup'
    have hpos : 0 < r'.commitIndex := by omega
    rcases advanced_of_steps hsteps with heq | hrule
    · exact absurd heq hlt.ne'
    obtain ⟨hterm, hmaj⟩ := hrule hl
    have hcle := hrunning.commit_le
    refine ⟨?_, C.counted a r'.peer r'.commitIndex, counted_nodup ha _ _, ?_, List.mem_cons_self,
      fun v hv => ⟨mem_of_counted ha hv, ?_⟩⟩
    · have hb := hrunning.boundary_le.trans hrunning.applied_le
      rw [hrunning.termAtLocked_eq, if_pos hb]
      exact hterm
    · rw [counted_length]
      exact hmaj
    · have hack := ack_of_counted hs.inv hsim hl hpos hcle hv
      have hhist : r'.history = (f (k + 1)).tlog r'.currentTerm := (hsim.own_log hs.inv hl).1
      rw [hhist]
      exact hf.secured hpos (hsim.leader hl) hsim.term hack
  · intro k a peer r d m hup hl hm hterm i hpos hi
    have hs := hf.sim k
    obtain ⟨-, hrunning, hsim⟩ := hs.up hup
    obtain ⟨hnow, hlog⟩ := (hs.node peer).disk
    have hack : i ≤ (f k).ack peer r.currentTerm := hi.trans (hsim.matched hl peer m hm)
    have hpre := isPrefix_of_ack hs.inv (hnow.trans hterm) hack
    have hhist : r.history = (f k).tlog r.currentTerm := (hsim.own_log hs.inv hl).1
    rw [← hhist, hlog] at hpre
    obtain ⟨j, rfl⟩ : ∃ j, i = j + 1 := ⟨i - 1, by omega⟩
    have hlen : j < r.history.length := by
      rw [hhist]
      exact lt_of_lt_of_le hack (hs.inv.ack_le peer _)
    refine ⟨r.history[j], ?_, ?_⟩
    · rw [hrunning.entryOf_succ, List.getElem?_eq_getElem hlen]
    · rw [Nat.add_sub_cancel, Consensus.getElem?_eq_of_take_isPrefix hpre (Nat.lt_succ_self j) hlen,
        List.getElem?_eq_getElem hlen]

theorem commit_quorum_durable_sampleRun :
    (∃ r' d', ((localCluster 1).runReloading (sampleRun.take 12)).nodes 1 = .up r' d' ∧
      r'.commitIndex = 1 ∧ r'.termAtLocked 1 = some 1 ∧
      ∃ holders : List Int, holders.Nodup ∧ 2 ≤ holders.length ∧ 1 ∈ holders ∧
        ∀ v ∈ holders, v ∈ [1, 2, 3] ∧
          Secured ((localCluster 1).stored sampleRun v) 12 1 [noopEntry 1 1]) ∧
    (∃ r d e, ((localCluster 1).runReloading (sampleRun.take 12)).nodes 1 = .up r d ∧
      r.matchIndex 2 = some 1 ∧ r.entryOf 1 = some e ∧
      ((localCluster 1).stored sampleRun 2 12).history[0]? = some e) := by
  obtain ⟨hcommit, hmatch⟩ := commit_quorum_durable sampleRun_text
  obtain ⟨hterm, hholders⟩ := @hcommit 11 1 _ _ _ _ _ _ _ _ rfl rfl rfl rfl (by decide)
  obtain ⟨e, he, hd⟩ := @hmatch 12 1 2 _ _ 1 rfl rfl rfl rfl 1 (by decide) (by decide)
  exact ⟨⟨_, _, rfl, rfl, hterm, hholders⟩, _, _, e, rfl, rfl, he, hd⟩

/-- No store call fails, and yet a leader commits what nobody has on disk: its
own file and that of the peer that it counts hold a DELETE of another key. -/
theorem invalidKeyRun_not_durable :
    Permitted Atomic invalidKeyRun ∧
    ∃ r d r' d', invalidKeyRun[14]? =
        some (.step 1 (.appendResponse 2 ⟨1, 1, 0, 0, [noopEntry 1 1, ⟨2, 1, .delete, [0xFF], []⟩], 0⟩
          ⟨1, true⟩) []) ∧
      ((localCluster 1).runReloading (invalidKeyRun.take 14)).nodes 1 = .up r d ∧
      ((localCluster 1).runReloading (invalidKeyRun.take 15)).nodes 1 = .up r' d' ∧
      r'.state = .leader ∧ r.commitIndex = 0 ∧ r'.commitIndex = 2 ∧ r'.currentTerm = 1 ∧
      (∀ v ∈ [1, 2, 3], ¬ Secured ((localCluster 1).stored invalidKeyRun v) 15 1
        (r'.history.take r'.commitIndex)) ∧
      r'.matchIndex 2 = some 2 ∧
      ((localCluster 1).stored invalidKeyRun 2 15).stable.currentTerm = 1 ∧
      r'.entryOf 2 = some ⟨2, 1, .delete, [0xFF], []⟩ ∧
      ((localCluster 1).stored invalidKeyRun 2 15).history[1]? =
        some ⟨2, 1, .delete, [0xEF, 0xBF, 0xBD], []⟩ := by
  refine ⟨.of_nil (by decide), _, _, _, _, rfl, rfl, rfl, rfl, rfl, rfl, rfl, ?_, rfl, rfl, rfl, rfl⟩
  simp only [List.forall_mem_cons]
  refine ⟨?_, ?_, ?_, by simp⟩
  all_goals
    rintro (hnow | ⟨hterm, -⟩)
    · exact absurd hnow (by decide)
    · exact absurd hterm (by decide)

end Cluster

end DistributedKv
