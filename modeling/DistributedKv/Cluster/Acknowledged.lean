import DistributedKv.Cluster.Lives
import DistributedKv.Cluster.Leader
import DistributedKv.Cluster.Safety
import DistributedKv.Raft.Pledges

/-!
What an acknowledged write is worth to its client. `applyCommitted` tells the
waiter of an index that its entry was applied, without looking at the term of
that entry. In every run of the cluster the entry applied is the proposed one
exactly if it carries the term of the proposal, which it does whenever the node
still leads that term; and whatever entry it is, no node ever commits another
one at that index, before or after, across any crash.
-/

namespace DistributedKv

open Crash Prog

variable {σ : Type}

theorem Raft.Shape.entryOf_index {r : Raft σ} (h : r.Shape) {e : LogEntry} (he : e ∈ r.log) :
    r.entryOf e.index = some e := by
  obtain ⟨k, hk⟩ := List.mem_iff_getElem?.mp he
  have hidx := h.log_indexed k e hk
  have hget := h.history_getElem? (k := r.snapshotMeta.lastIncludedIndex + k) (by omega)
  rw [Nat.add_sub_cancel_left, hk] at hget
  rw [show e.index = r.snapshotMeta.lastIncludedIndex + k + 1 by omega, h.entryOf_succ, hget]

/-- Only a leader takes a proposal. -/
theorem leader_of_proposed {env : Env σ} {r r' : Raft σ} {command : Command}
    {answers : List Outcome} {index channel : Nat} {d d' : Disk}
    (hrun : (react env (.propose command)).run answers r d = .done (.proposed index channel) r' d') :
    r.state = .leader := by
  by_contra hne
  have hwp : wp Any (fun _ => True) (react env (.propose command)) (fun out _ _ => out = .none)
      r d := by
    simp only [react, DistributedKv.propose, wp_bind]
    cases command.validate with
    | error err => rfl
    | ok u =>
      simp only [wp_bind, wp_read, wp_ite, wp_pure]
      exact ⟨fun _ => trivial, fun hl => absurd hne hl⟩
  have := wp_run _ _ answers r d (fun _ _ => trivial) hwp
  rw [hrun] at this
  cases this

namespace Cluster

variable {C : Cluster σ} {actions : List Action} {f : Nat → History}

/-- A proposal puts its entry into the log of the leader's term. -/
theorem Traced.proposed (hf : C.Traced actions f) {j : Nat} {n : Int} {r : Raft σ}
    {command : Command} {index channel : Nat}
    (hprop : C.Occurs C.run actions j n ⟨r, .propose command, .proposed index channel⟩) :
    0 < index ∧ ((f (j + 1)).tlog r.currentTerm)[index - 1]? =
      some (proposedEntry index r.currentTerm command) := by
  obtain ⟨answers, d, r', d', hact, hup, hav, hrun⟩ := hprop
  obtain ⟨hn, hrunning, -⟩ := (hf.sim j).up hup
  have hahead : Ahead r d.stable := by
    rw [hrunning.disk_stable]
    exact .inr ⟨rfl, .inr rfl⟩
  obtain ⟨-, -, rfl, rfl, rfl⟩ := effects_of_done (majority_ne_one hn) hahead hrun
  have hlead : r.state = .leader := leader_of_proposed hrun
  have hup' : (C.run (actions.take (j + 1))).nodes n = .up (r.proposed command) d' := by
    rw [C.run_take_succ hact, perform_step hup hn hav hrun]
    exact Function.update_self _ _ _
  obtain ⟨-, -, hsim⟩ := (hf.sim (j + 1)).up hup'
  have hlog : (r.proposed command).history = (f (j + 1)).tlog r.currentTerm :=
    (hsim.own_log (hf.sim (j + 1)).inv hlead).1
  have hindex : (r.nextEntry command).index = r.history.length + 1 := by
    change r.lastLogInfoLocked.1 + 1 = _
    rw [hrunning.lastLogInfoLocked_eq]
  have hhistory : (r.proposed command).history = r.history ++ [r.nextEntry command] :=
    (List.append_assoc _ _ _).symm
  refine ⟨by omega, ?_⟩
  rw [← hlog, hhistory, hindex, Nat.add_sub_cancel, List.getElem?_concat_length]
  rw [← hindex]
  rfl

/-- An entry that stands at the index of a proposal and carries its term is the
proposed one. -/
theorem Traced.eq_proposed (hf : C.Traced actions f) {j k : Nat} {n m : Int} {r rm : Raft σ}
    {dm : Disk} {command : Command} {index channel : Nat}
    (hprop : C.Occurs C.run actions j n ⟨r, .propose command, .proposed index channel⟩) (hjk : j < k)
    (hup : (C.run (actions.take k)).nodes m = .up rm dm) {e : LogEntry}
    (he : rm.entryOf index = some e) (hterm : e.term = r.currentTerm) :
    e = proposedEntry index r.currentTerm command := by
  obtain ⟨hpos, hget⟩ := hf.proposed hprop
  obtain ⟨i, rfl⟩ : ∃ i, index = i + 1 := ⟨index - 1, by omega⟩
  obtain ⟨-, hrunning, hsim⟩ := (hf.sim k).up hup
  have hi := (hf.sim k).inv
  rw [hrunning.entryOf_succ] at he
  have hpre := (hf.extends_ (show j + 1 ≤ k from hjk)).tlog r.currentTerm
  have hown := Consensus.getElem?_of_isPrefix hpre hget
  have htake := (hsim.grown hi).below i e he
  rw [show C.protocol.termOf e = r.currentTerm from hterm] at htake
  have hsame := Consensus.getElem?_of_isPrefix htake
    ((List.getElem?_take_of_lt (Nat.lt_succ_self i)).trans he)
  exact Option.some.inj (hsame.symm.trans hown)

/-- A node that leads in the term of a proposal has the proposed entry. -/
theorem Traced.leader_has_proposed (hf : C.Traced actions f) {j k : Nat} {n m : Int}
    {r rm : Raft σ} {dm : Disk} {command : Command} {index channel : Nat}
    (hprop : C.Occurs C.run actions j n ⟨r, .propose command, .proposed index channel⟩) (hjk : j < k)
    (hup : (C.run (actions.take k)).nodes m = .up rm dm) (hlead : rm.state = .leader)
    (hterm : rm.currentTerm = r.currentTerm) :
    rm.entryOf index = some (proposedEntry index r.currentTerm command) := by
  obtain ⟨hpos, hget⟩ := hf.proposed hprop
  obtain ⟨i, rfl⟩ : ∃ i, index = i + 1 := ⟨index - 1, by omega⟩
  obtain ⟨-, hrunning, hsim⟩ := (hf.sim k).up hup
  have hown := Consensus.getElem?_of_isPrefix
    ((hf.extends_ (show j + 1 ≤ k from hjk)).tlog r.currentTerm) hget
  have hlog : rm.history = (f k).tlog rm.currentTerm := (hsim.own_log (hf.sim k).inv hlead).1
  rw [hrunning.entryOf_succ, hlog, hterm]
  exact hown

variable {n : Int} {j k : Nat} {r r₂ : Raft σ} {command : Command} {index channel : Nat}
  {e : LogEntry}

/-- A waiter is told about an entry at the index of its proposal that the node
has committed. -/
theorem acknowledged_at_index
    (hprop : C.Occurs C.run actions j n ⟨r, .propose command, .proposed index channel⟩)
    (hack : C.Occurs C.run actions k n ⟨r₂, .applyCheckpoint, .completed channel e⟩) (hjk : j ≤ k)
    (halive : Alive C.run actions n j k) : j < k ∧ e.index = index ∧ r₂.HasApplied e := by
  have hlt : j < k := by
    refine Nat.lt_of_le_of_ne hjk fun heq => ?_
    subst heq
    obtain ⟨_, _, _, _, hact, -⟩ := hprop
    obtain ⟨_, _, _, _, hact', -⟩ := hack
    obtain ⟨-, hi, -⟩ := Action.step.inj (Option.some.inj (hact.symm.trans hact'))
    cases hi
  obtain ⟨r₃, d₃, hup⟩ := hack.up
  obtain ⟨s, l, hlife⟩ := exists_lifeAt hup
  have hs := hlife.start_le (halive.succ hup)
  obtain ⟨answers, d₀, r₀, v, d, steps, hstart, rfl⟩ := hlife.begun
  have hpledged := live_pledged hstart (hlife.process.trans hup)
  obtain ⟨happlied, e', ho, hindex⟩ := hpledged.acknowledged r₂ channel e
    (hlife.events k _ (hs.trans hjk) (Nat.lt_succ_self k) hack)
  have hown := hpledged.unique channel e' _ ho
    ⟨r, command, index, hlife.events j _ hs (by omega) hprop, rfl⟩
  exact ⟨hlt, by rw [← hindex, hown]; rfl, happlied⟩

/-- What a waiter that is told about `e` can rely on, if its proposal of `command`
returned `index` in the term of `r` and the node was `r₂` when it told it. -/
structure Lasting (C : Cluster σ) (actions : List Action) (r : Raft σ) (command : Command)
    (index : Nat) (r₂ : Raft σ) (e : LogEntry) : Prop where
  index_eq : e.index = index
  own_iff : e = proposedEntry index r.currentTerm command ↔ e.term = r.currentTerm
  own_of_leading : r₂.state = .leader → r₂.currentTerm = r.currentTerm → e.term = r.currentTerm
  lasts : ∀ t m rm dm, (C.run (actions.take t)).nodes m = .up rm dm → index ≤ rm.commitIndex →
    rm.entryOf index = some e

theorem Traced.lasting (hf : C.Traced actions f)
    (hprop : C.Occurs C.run actions j n ⟨r, .propose command, .proposed index channel⟩)
    (hack : C.Occurs C.run actions k n ⟨r₂, .applyCheckpoint, .completed channel e⟩) (hjk : j ≤ k)
    (halive : Alive C.run actions n j k) : C.Lasting actions r command index r₂ e := by
  obtain ⟨hlt, rfl, -, hmem, hcommit⟩ := acknowledged_at_index hprop hack hjk halive
  obtain ⟨-, d₂, -, -, -, hup, -, -⟩ := hack
  obtain ⟨-, hrunning, hsim⟩ := (hf.sim k).up hup
  have hentry : r₂.entryOf e.index = some e := hrunning.entryOf_index hmem
  refine ⟨rfl, ⟨fun heq => by rw [heq]; rfl, hf.eq_proposed hprop hlt hup hentry⟩, ?_, ?_⟩
  · intro hlead hterm
    have hown := hf.leader_has_proposed hprop hlt hup hlead hterm
    rw [Option.some.inj (hentry.symm.trans hown)]
    rfl
  · intro t m rm dm hm hle
    rw [hf.entryOf_eq hm hup hle hcommit]
    exact hentry

/-- In every run of a cluster whose clients write text, when the waiter of a
proposal is told that its entry was applied: the entry stands at the index that
the proposal returned; it is the proposed entry exactly if it carries the term of
the proposal, and so it is if the node leads in that term at that moment; and no
node that is up at any moment of the run has committed another entry there. -/
theorem acknowledged_write_lasts {maxLength : Int} {json : Json}
    {C : Cluster (MemoryStore maxLength)} (h : C.WritesText json actions)
    {r r₂ : Raft (MemoryStore maxLength)}
    (hprop : C.Occurs C.runReloading actions j n ⟨r, .propose command, .proposed index channel⟩)
    (hack : C.Occurs C.runReloading actions k n ⟨r₂, .applyCheckpoint, .completed channel e⟩)
    (hjk : j ≤ k) (halive : Alive C.runReloading actions n j k) :
    e.index = index ∧
    (e = proposedEntry index r.currentTerm command ↔ e.term = r.currentTerm) ∧
    (r₂.state = .leader → r₂.currentTerm = r.currentTerm → e.term = r.currentTerm) ∧
    ∀ t m rm dm, (C.runReloading (actions.take t)).nodes m = .up rm dm → index ≤ rm.commitIndex →
      rm.entryOf index = some e := by
  obtain ⟨f, hf⟩ := h.exists_histories
  simp only [Occurs, Alive, h.run_take_eq] at hprop hack halive ⊢
  obtain ⟨hindex, hown, hlead, hlasts⟩ := hf.lasting hprop hack hjk halive
  exact ⟨hindex, hown, hlead, hlasts⟩

/-- Node 1 leads, takes a write at index 2, commits it with node 2 and applies it;
node 2 hears of the commit index. -/
def storedRun : List Action :=
  let entries := [noopEntry 1 1, ⟨2, 1, .set, [107], [118]⟩]
  let first : AppendEntriesRequest := ⟨1, 1, 1, 1, entries.drop 1, 0⟩
  let second : AppendEntriesRequest := ⟨1, 1, 0, 0, entries, 0⟩
  let third : AppendEntriesRequest := ⟨1, 1, 2, 1, [], 2⟩
  [.restart 1 [], .restart 2 [], .step 1 .electionTimeout [],
    .step 2 (.voteRequest ⟨1, 1, 0, 0⟩) [], .step 1 (.voteResponse 2 1 ⟨1, true⟩) [],
    .step 1 (.propose ⟨.set, [107], [118]⟩) [],
    .step 1 (.sendAppend 2) [], .step 2 (.appendRequest first) [],
    .step 1 (.appendResponse 2 first ⟨1, false⟩) [],
    .step 1 (.sendAppend 2) [], .step 2 (.appendRequest second) [],
    .step 1 (.appendResponse 2 second ⟨1, true⟩) [],
    .step 1 .applySelect [], .step 1 .applyEntry [], .step 1 .applyCheckpoint [],
    .step 1 .applySelect [], .step 1 .applyEntry [], .step 1 .applyCheckpoint [],
    .step 1 (.sendAppend 2) [], .step 2 (.appendRequest third) []]

theorem storedRun_text : (localCluster 1).WritesText .framed storedRun :=
  localCluster_writesText 1 (by decide) (by decide)

theorem acknowledged_write_lasts_storedRun :
    ∃ r r₂ rm dm, (localCluster 1).Occurs (localCluster 1).runReloading storedRun 5 1
        ⟨r, .propose ⟨.set, [107], [118]⟩, .proposed 2 0⟩ ∧
      (localCluster 1).Occurs (localCluster 1).runReloading storedRun 17 1
        ⟨r₂, .applyCheckpoint, .completed 0 ⟨2, 1, .set, [107], [118]⟩⟩ ∧
      ((localCluster 1).runReloading (storedRun.take 20)).nodes 2 = .up rm dm ∧
      rm.commitIndex = 2 ∧ rm.entryOf 2 = some ⟨2, 1, .set, [107], [118]⟩ := by
  have hprop : (localCluster 1).Occurs (localCluster 1).runReloading storedRun 5 1
      ⟨_, .propose ⟨.set, [107], [118]⟩, .proposed 2 0⟩ := ⟨[], _, _, _, rfl, rfl, rfl, rfl⟩
  have hack : (localCluster 1).Occurs (localCluster 1).runReloading storedRun 17 1
      ⟨_, .applyCheckpoint, .completed 0 ⟨2, 1, .set, [107], [118]⟩⟩ :=
    ⟨[], _, _, _, rfl, rfl, rfl, rfl⟩
  have halive : Alive (localCluster 1).runReloading storedRun 1 5 17 := .of_all rfl
  exact ⟨_, _, _, _, hprop, hack, rfl, rfl,
    (acknowledged_write_lasts storedRun_text hprop hack (by decide) halive).2.2.2 20 2 _ _ rfl
      (by decide)⟩

end Cluster

end DistributedKv
