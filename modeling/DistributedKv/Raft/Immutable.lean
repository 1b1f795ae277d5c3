import DistributedKv.Cluster.Model
import DistributedKv.Lib.Run
import DistributedKv.Raft.Invariant
import DistributedKv.Raft.Reload

/-!
Committed history under arbitrary traffic. AppendEntries and RequestVote
requests with any contents, against stores whose calls may fail without effect,
never change an entry at or below the commit index, in memory or in the file:
a replication plan that truncates does so above the commit index, and the two
copies of the log are always cut and extended alike (`Carried`). The copy in the
file is the entry itself exactly if the entry is text.
-/

namespace DistributedKv

open Crash Prog

variable {σ : Type} {env : Env σ} {r₀ r : Raft σ} {d₀ d : Disk}

/-! ## Logs with consecutive indexes -/

theorem Raft.lastLogIndexLocked_of_indexed {b : SnapshotMetadata} (hb : r.snapshotMeta = b)
    (h : Indexed b.lastIncludedIndex r.log) :
    r.lastLogIndexLocked = b.lastIncludedIndex + r.log.length := by
  unfold lastLogIndexLocked lastLogIndexFor
  cases hlast : r.log.getLast? with
  | none => rw [List.getLast?_eq_none_iff.mp hlast, hb]; rfl
  | some e => exact h.getLast hlast

theorem Raft.logOffsetLocked_some {index offset : Nat}
    (h : r.logOffsetLocked index = some offset) :
    offset = index - r.snapshotMeta.lastIncludedIndex - 1 ∧
      r.snapshotMeta.lastIncludedIndex < index ∧ index ≤ r.lastLogIndexLocked := by
  unfold logOffsetLocked firstLogIndexLocked at h
  split at h
  · cases h
  · dsimp only at h
    split at h
    · cases h
    · split at h
      · cases h
      · have := Option.some.inj h
        omega

/-- Where a replication plan cuts, and how its entries go on. -/
theorem Raft.replicationPlanFrom_cases {prevLogIndex offset truncateFrom : Nat}
    {entries new : List LogEntry}
    (h : r.replicationPlanFrom prevLogIndex offset entries = .ok (truncateFrom, new)) :
    (truncateFrom = 0 ∧ ∀ e ∈ new.head?, e.index = r.lastLogIndexLocked + 1) ∨
      (r.commitIndex < truncateFrom ∧ (∃ k, r.logOffsetLocked truncateFrom = some k) ∧
        ∀ e ∈ new.head?, e.index = truncateFrom) := by
  induction entries generalizing offset with
  | nil =>
    obtain ⟨rfl, rfl⟩ := Prod.mk.inj (Except.ok.inj h)
    exact .inl ⟨rfl, by simp⟩
  | cons entry rest ih =>
    obtain ⟨-, -, hstep⟩ := r.planStep_of_replicationPlanFrom h
    cases hstep with
    | present _ hrest => exact ih hrest
    | replace existing hat _ _ hcommit =>
      refine .inr ⟨hcommit, ?_, by simp⟩
      unfold entryAtLocked at hat
      split at hat
      · cases hat
      · exact ⟨_, ‹_›⟩
    | extend hnext => exact .inl ⟨rfl, by simpa using hnext⟩

/-! ## What the traffic keeps -/

/-- From `r₀` with the files `d₀` on, the committed part of the log has stayed
in memory and in the file, which hold the same log. -/
structure Carried (r₀ : Raft σ) (d₀ : Disk) (r : Raft σ) (d : Disk) : Prop where
  snapshotMeta : r.snapshotMeta = r₀.snapshotMeta
  lastApplied : r.lastApplied = r₀.lastApplied
  apply : r.apply = r₀.apply
  term_le : r₀.currentTerm ≤ r.currentTerm
  commit_le : r₀.commitIndex ≤ r.commitIndex
  kept : r₀.log.take (r₀.commitIndex - r₀.snapshotMeta.lastIncludedIndex) <+: r.log
  indexed : Indexed r₀.snapshotMeta.lastIncludedIndex r.log
  log : d.log = r.log
  stable : d₀.stable = r₀.stable → d.stable = r.stable
  snapshot : d.snapshot = d₀.snapshot

namespace Carried

theorem refl (h : Indexed r.snapshotMeta.lastIncludedIndex r.log) (hd : d.log = r.log) :
    Carried r d r d :=
  ⟨rfl, rfl, rfl, le_rfl, le_rfl, List.take_prefix _ _, h, hd, id, rfl⟩

theorem trans {r₁ r₂ : Raft σ} {d₁ d₂ : Disk} (h : Carried r₀ d₀ r₁ d₁)
    (h' : Carried r₁ d₁ r₂ d₂) : Carried r₀ d₀ r₂ d₂ where
  snapshotMeta := h'.snapshotMeta.trans h.snapshotMeta
  lastApplied := h'.lastApplied.trans h.lastApplied
  apply := h'.apply.trans h.apply
  term_le := h.term_le.trans h'.term_le
  commit_le := h.commit_le.trans h'.commit_le
  kept := by
    refine .trans (List.prefix_take_iff.mpr ⟨h.kept, ?_⟩) h'.kept
    have := h.commit_le
    rw [List.length_take, h.snapshotMeta]
    omega
  indexed := h.snapshotMeta ▸ h'.indexed
  log := h'.log
  stable := fun hs => h'.stable (h.stable hs)
  snapshot := h'.snapshot.trans h.snapshot

/-- A change that leaves the log alone. -/
theorem update {r' : Raft σ} {d' : Disk} (h : Carried r₀ d₀ r d)
    (hmeta : r'.snapshotMeta = r.snapshotMeta) (happlied : r'.lastApplied = r.lastApplied)
    (happly : r'.apply = r.apply) (hlog : r'.log = r.log)
    (hterm : r.currentTerm ≤ r'.currentTerm) (hcommit : r.commitIndex ≤ r'.commitIndex)
    (hdlog : d'.log = d.log) (hsnapshot : d'.snapshot = d.snapshot)
    (hstable : d₀.stable = r₀.stable → d'.stable = r'.stable) : Carried r₀ d₀ r' d' where
  snapshotMeta := hmeta.trans h.snapshotMeta
  lastApplied := happlied.trans h.lastApplied
  apply := happly.trans h.apply
  term_le := h.term_le.trans hterm
  commit_le := h.commit_le.trans hcommit
  kept := hlog ▸ h.kept
  indexed := hlog ▸ h.indexed
  log := (hdlog.trans h.log).trans hlog.symm
  stable := hstable
  snapshot := hsnapshot.trans h.snapshot

end Carried

section Operations

variable {R : Disk → Prop}

theorem wp_saveStable_clean {V : Type} {v : V} {st : StableState}
    {Q : Except String Unit → V → Disk → Prop}
    (hok : st.Accepted → Q (.ok ()) v { d with stable := st })
    (herr : ∀ err, Q (.error err) v d) : wp Clean R (store (Disk.saveStable st)) Q v d := by
  refine wp_store_clean (fun d' hd' => ?_) herr
  obtain ⟨hst, rfl⟩ := Disk.saveStable_ok_iff.mp hd'
  exact hok hst

theorem becomeFollowerLocked_carried (h : Carried r₀ d₀ r d) (term : Nat) (leaderID : Int) :
    wp Clean R (becomeFollowerLocked term leaderID) (fun _ r' d' => Carried r₀ d₀ r' d') r d := by
  simp only [becomeFollowerLocked, saveStableLocked, saveStableValuesLocked, wp_bind, wp_read,
    wp_ite, wp_pure, wp_modify]
  refine ⟨fun _ => h, fun _ => ⟨fun hlt => ?_, fun _ => ?_⟩⟩
  · refine wp_saveStable_clean (fun _ => ?_) fun _ => h
    exact h.update rfl rfl rfl rfl hlt.le le_rfl rfl rfl fun _ => rfl
  · exact h.update rfl rfl rfl rfl le_rfl le_rfl rfl rfl h.stable

theorem voteInTerm_carried (h : Carried r₀ d₀ r d) (req : RequestVoteRequest) :
    wp Clean R (voteInTerm req) (fun _ r' d' => Carried r₀ d₀ r' d') r d := by
  simp only [voteInTerm, saveStableLocked, saveStableValuesLocked, wp_bind, wp_read, wp_ite,
    wp_pure]
  refine ⟨fun _ => h, fun _ => ⟨fun _ => h, fun _ => ⟨fun _ => ?_, fun _ => h⟩⟩⟩
  refine wp_saveStable_clean (fun _ => ?_) fun _ => h
  exact h.update rfl rfl rfl rfl le_rfl le_rfl rfl rfl fun _ => rfl

theorem handleRequestVote_carried (h : Carried r₀ d₀ r d) (req : RequestVoteRequest) :
    wp Clean R (handleRequestVote req) (fun _ r' d' => Carried r₀ d₀ r' d') r d := by
  simp only [handleRequestVote, wp_bind, wp_read, wp_ite, wp_pure]
  refine ⟨fun _ => h, fun _ => ⟨fun _ => ?_, fun _ => voteInTerm_carried h req⟩⟩
  refine wp_mono _ _ _ (becomeFollowerLocked_carried h _ _) ?_ fun _ hd => hd
  rintro (err | _) r₁ d₁ h₁
  · exact h₁
  · exact voteInTerm_carried h₁ req

theorem recognizeLeader_carried (h : Carried r₀ d₀ r d) (term : Nat) (leaderID : Int) :
    wp Clean R (recognizeLeader term leaderID) (fun _ r' d' => Carried r₀ d₀ r' d') r d := by
  simp only [recognizeLeader, wp_bind, wp_read, wp_ite, wp_pure, wp_modify]
  refine ⟨fun _ => becomeFollowerLocked_carried h _ _, fun _ => ?_⟩
  exact h.update rfl rfl rfl rfl le_rfl le_rfl rfl rfl h.stable

/-- Truncating above the commit index cuts both copies at the same place. -/
theorem truncateLog_carried (h : Carried r₀ d₀ r d) {truncateFrom : Nat}
    (hcommit : truncateFrom = 0 ∨ r.commitIndex < truncateFrom ∧
      ∃ k, r.logOffsetLocked truncateFrom = some k) :
    wp Clean R (truncateLog truncateFrom)
      (fun out r' d' => Carried r₀ d₀ r' d' ∧ (out = true →
        (truncateFrom = 0 ∧ r'.lastLogIndexLocked = r.lastLogIndexLocked) ∨
          r'.lastLogIndexLocked + 1 = truncateFrom)) r d := by
  unfold truncateLog
  by_cases h0 : truncateFrom = 0
  · simp only [if_pos h0, wp_pure]
    exact ⟨h, fun _ => .inl ⟨h0, trivial⟩⟩
  obtain ⟨hlt, k, hk⟩ := hcommit.resolve_left h0
  simp only [if_neg h0, wp_bind]
  refine wp_store_clean (fun d' hd' => ?_) fun _ => ⟨h, by simp⟩
  simp only [wp_bind, wp_read, hk]
  simp only [Disk.truncateFrom, Disk.replace] at hd'
  split at hd'
  · cases hd'
  rename_i l hl
  obtain rfl := Except.ok.inj hd'
  obtain ⟨rfl, hlow, hhigh⟩ := Raft.logOffsetLocked_some hk
  rw [h.snapshotMeta] at hlow
  have hcut : l = r.log.take (truncateFrom - r.snapshotMeta.lastIncludedIndex - 1) := by
    rw [LogStore.truncateFrom_eq hl, h.log, LogStore.takeWhile_indexed h.indexed, h.snapshotMeta]
  have hidx := h.indexed.take (truncateFrom - r.snapshotMeta.lastIncludedIndex - 1)
  have hlen := Raft.lastLogIndexLocked_of_indexed h.snapshotMeta h.indexed
  refine ⟨⟨h.snapshotMeta, h.lastApplied, h.apply, h.term_le, h.commit_le, ?_, hidx, hcut,
    h.stable, h.snapshot⟩, fun _ => .inr ?_⟩
  · refine List.prefix_take_iff.mpr ⟨h.kept, ?_⟩
    have := h.commit_le
    rw [List.length_take, h.snapshotMeta]
    omega
  · have hlast := @Raft.lastLogIndexLocked_of_indexed σ
      { r with log := r.log.take (truncateFrom - r.snapshotMeta.lastIncludedIndex - 1) } _
      h.snapshotMeta hidx
    refine (congrArg (· + 1) hlast).trans ?_
    rw [List.length_take, h.snapshotMeta]
    omega

/-- Entries that continue the log are added to both copies. -/
theorem appendEntries_carried (h : Carried r₀ d₀ r d) {entries : List LogEntry}
    (hfirst : ∀ e ∈ entries.head?, e.index = r.lastLogIndexLocked + 1) :
    wp Clean R (appendEntries entries) (fun _ r' d' => Carried r₀ d₀ r' d') r d := by
  unfold appendEntries
  by_cases hnil : entries = []
  · rw [if_pos hnil]
    exact h
  rw [if_neg hnil]
  simp only [wp_bind]
  refine wp_store_clean (fun d' hd' => ?_) fun _ => h
  simp only [Disk.appendLog] at hd'
  split at hd'
  · cases hd'
  rename_i l hl
  obtain rfl := Except.ok.inj hd'
  obtain ⟨⟨-, b, hb⟩, rfl⟩ := (LogStore.append_ok_iff _ _ _).mp hl
  have hlast := Raft.lastLogIndexLocked_of_indexed h.snapshotMeta h.indexed
  obtain ⟨e, es, rfl⟩ := List.exists_cons_of_ne_nil hnil
  have hstart : b = r₀.snapshotMeta.lastIncludedIndex + r.log.length := by
    have := (Indexed.cons.mp hb).1
    have := hfirst e rfl
    omega
  exact ⟨h.snapshotMeta, h.lastApplied, h.apply, h.term_le, h.commit_le,
    h.kept.trans (List.prefix_append _ _), Indexed.append.mpr ⟨h.indexed, hstart ▸ hb⟩,
    congrArg (· ++ e :: es) h.log, h.stable, h.snapshot⟩

theorem followCommit_carried (h : Carried r₀ d₀ r d) (leaderCommit : Nat) :
    wp Clean R (followCommit leaderCommit) (fun _ r' d' => Carried r₀ d₀ r' d') r d := by
  simp only [followCommit, saveStableValuesLocked, wp_bind, wp_read, wp_ite, wp_pure]
  refine ⟨fun hlt => ?_, fun _ => h⟩
  refine wp_saveStable_clean (fun _ => ?_) fun _ => h
  exact h.update rfl rfl rfl rfl le_rfl hlt.le rfl rfl fun _ => rfl

theorem handleAppendEntries_carried (h : Carried r₀ d₀ r d) (req : AppendEntriesRequest) :
    wp Clean R (handleAppendEntries req) (fun _ r' d' => Carried r₀ d₀ r' d') r d := by
  simp only [handleAppendEntries, wp_bind, wp_read, wp_ite, wp_pure]
  refine ⟨fun _ => h, fun _ => ?_⟩
  refine wp_mono _ _ _ (recognizeLeader_carried h _ _) ?_ fun _ hd => hd
  rintro (err | _) r₁ d₁ h₁
  · exact h₁
  simp only [wp_bind, wp_read, wp_ite, wp_pure]
  refine ⟨fun _ => h₁, fun _ => ?_⟩
  cases hplan : r₁.replicationPlanLocked req.prevLogIndex req.entries with
  | error err => exact h₁
  | ok plan =>
    obtain ⟨truncateFrom, entries⟩ := plan
    have hcases := Raft.replicationPlanFrom_cases hplan
    simp only [wp_bind]
    refine wp_mono _ _ _ (truncateLog_carried h₁ (hcases.imp (·.1) fun hc => ⟨hc.1, hc.2.1⟩)) ?_
      fun _ hd => hd
    rintro (_ | _) r₂ d₂ ⟨h₂, hlast⟩
    · exact h₂
    have hfirst : ∀ e ∈ entries.head?, e.index = r₂.lastLogIndexLocked + 1 := by
      intro e he
      rcases hcases with ⟨rfl, hnext⟩ | ⟨hlt, -, hnext⟩
      · rcases hlast rfl with ⟨-, heq⟩ | heq
        · rw [heq]
          exact hnext e he
        · exact absurd heq (Nat.succ_ne_zero _)
      · rcases hlast rfl with ⟨rfl, -⟩ | heq
        · exact absurd hlt (Nat.not_lt_zero _)
        · rw [heq]
          exact hnext e he
    simp only [Bool.true_eq_false, ↓reduceIte, wp_bind]
    refine wp_mono _ _ _ (appendEntries_carried h₂ hfirst) ?_ fun _ hd => hd
    rintro (_ | _) r₃ d₃ h₃
    · exact h₃
    simp only [Bool.true_eq_false, ↓reduceIte, wp_bind]
    refine wp_mono _ _ _ (followCommit_carried h₃ _) ?_ fun _ hd => hd
    rintro (_ | _) r₄ d₄ h₄
    · exact h₄
    · exact h₄

end Operations

/-! ## Sequences of requests -/

/-- An AppendEntries or a RequestVote request. -/
def Input.IsTraffic : Input → Prop
  | .appendRequest _ => True
  | .voteRequest _ => True
  | _ => False

theorem react_carried {i : Input} (hi : i.IsTraffic)
    (hidx : Indexed r.snapshotMeta.lastIncludedIndex r.log) (hlog : d.log = r.log) :
    wp Clean (fun _ => False) (react env i) (fun _ r' d' => Carried r d r' d') r d := by
  cases i with
  | appendRequest req =>
    simp only [react, wp_bind, wp_pure]
    exact handleAppendEntries_carried (.refl hidx hlog) req
  | voteRequest req =>
    simp only [react, wp_bind, wp_pure]
    exact handleRequestVote_carried (.refl hidx hlog) req
  | _ => exact hi.elim

/-- A sequence of requests never stops the node and carries its committed log on. -/
theorem foldl_carried {l : Life σ} {steps : List (Input × List Outcome)}
    (hs : ∀ a ∈ steps, a.1.IsTraffic ∧ ∀ o ∈ a.2, Clean o) (hup : l.process = .up r d)
    (hidx : Indexed r.snapshotMeta.lastIncludedIndex r.log) (hlog : d.log = r.log) :
    ∃ r' d', (steps.foldl (Life.step env) l).process = .up r' d' ∧ Carried r d r' d' := by
  have hstep {r₁ : Raft σ} {d₁ : Disk} {a : Input × List Outcome} (h₁ : Carried r d r₁ d₁)
      (ha : a.1.IsTraffic ∧ ∀ o ∈ a.2, Clean o) :
      ∃ out r₂ d₂, (react env a.1).run a.2 r₁ d₁ = .done out r₂ d₂ ∧ Carried r d r₂ d₂ := by
    have hrun := wp_run _ _ a.2 r₁ d₁ ha.2
      (@react_carried σ env _ _ _ ha.1 (h₁.snapshotMeta ▸ h₁.indexed) h₁.log)
    split at hrun
    · rename_i out r₂ d₂ heq
      exact ⟨out, r₂, d₂, heq, h₁.trans hrun⟩
    · exact hrun.elim
  exact foldl_up hstep hup (.refl hidx hlog) fun k a hk _ _ _ => hs a (List.mem_of_getElem? hk)

theorem Disk.reloaded_getElem? {p : Nat} {e : LogEntry} (h : d.log[p]? = some e) :
    d.reloaded.log[p]? = some e.repaired := by
  rw [Disk.reloaded, List.getElem?_map, h, Option.map_some]

/-- Under any sequence of AppendEntries and RequestVote requests, from a node
whose log continues its boundary and is the one given to its file: what is
committed after `j` requests stays where it is, in memory and in the file, and
neither term nor commit index ever falls. Memory and file have the same entry
there if and only if it is text. Any call may fail, so that a log which ends at
the largest index, where `TruncateFrom` refuses every call, is a case of this. -/
theorem committed_entries_immutable {steps : List (Input × List Outcome)}
    (hidx : Indexed r.snapshotMeta.lastIncludedIndex r.log) (hlog : d.log = r.log)
    (hs : ∀ a ∈ steps, a.1.IsTraffic ∧ ∀ o ∈ a.2, Clean o) {j k : Nat} (hjk : j ≤ k) :
    ∃ rj dj rk dk, (live env r d (steps.take j)).process = .up rj dj ∧
      (live env r d (steps.take k)).process = .up rk dk ∧
      rj.currentTerm ≤ rk.currentTerm ∧ rj.commitIndex ≤ rk.commitIndex ∧
      rk.snapshotMeta = rj.snapshotMeta ∧
      ∀ (p : Nat) (e : LogEntry), rj.log[p]? = some e → e.index ≤ rj.commitIndex →
        rk.log[p]? = some e ∧ dk.reloaded.log[p]? = dj.reloaded.log[p]? ∧
          (dk.reloaded.log[p]? = some e ↔ e.Text) := by
  obtain ⟨rest, hrest⟩ := List.take_prefix_take_left (l := steps) hjk
  have hsk : ∀ a ∈ steps.take k, a.1.IsTraffic ∧ ∀ o ∈ a.2, Clean o :=
    fun a ha => hs a (List.mem_of_mem_take ha)
  rw [← hrest] at hsk
  obtain ⟨rj, dj, hj, hfirst⟩ := @foldl_carried σ env r d ⟨.up r d, []⟩ (steps.take j)
    (fun a ha => hsk a (List.mem_append_left _ ha)) rfl hidx hlog
  have hidxj : Indexed rj.snapshotMeta.lastIncludedIndex rj.log :=
    hfirst.snapshotMeta ▸ hfirst.indexed
  obtain ⟨rk, dk, hk, h⟩ := @foldl_carried σ env rj dj _ rest
    (fun a ha => hsk a (List.mem_append_right _ ha)) hj hidxj hfirst.log
  rw [← List.foldl_append, hrest] at hk
  refine ⟨rj, dj, rk, dk, hj, hk, h.term_le, h.commit_le, h.snapshotMeta, fun p e he hle => ?_⟩
  -- a committed entry lies in the part that is carried on
  have hlt : p < rj.commitIndex - rj.snapshotMeta.lastIncludedIndex := by
    have := hidxj p e he
    omega
  have hkept : rk.log[p]? = some e := by
    obtain ⟨tail, htail⟩ := h.kept
    have hlen := (List.getElem?_eq_some_iff.mp he).1
    rw [← htail, List.getElem?_append_left (by rw [List.length_take]; omega),
      List.getElem?_take_of_lt hlt, he]
  have hfilej := Disk.reloaded_getElem? (hfirst.log ▸ he : dj.log[p]? = some e)
  have hfilek := Disk.reloaded_getElem? (h.log ▸ hkept : dk.log[p]? = some e)
  refine ⟨hkept, hfilek.trans hfilej.symm, ?_⟩
  rw [hfilek, Option.some_inj, LogEntry.text_iff]

/-- The second entry of a leader of term 1 is replaced by a leader of term 2, at
the second try; a third one asks to replace the committed first entry. -/
def trafficLife : List (Input × List Outcome) :=
  [(.appendRequest ⟨1, 2, 0, 0, [noopEntry 1 1, noopEntry 2 1], 1⟩, []),
    (.appendRequest ⟨2, 3, 1, 1, [noopEntry 2 2], 0⟩, [.ok, .fail "disk full"]),
    (.appendRequest ⟨2, 3, 1, 1, [noopEntry 2 2], 0⟩, []),
    (.appendRequest ⟨3, 2, 0, 0, [noopEntry 1 3], 9⟩, [])]

/-- A node that has never run. -/
def freshNode : Raft (MemoryStore 8) := .recovered .initial [] .empty [] (.new 8)

theorem committed_entries_immutable_trafficLife :
    ∃ r d, (live ((localCluster 1).env 1) freshNode .empty trafficLife).process = .up r d ∧
      r.log = [noopEntry 1 1, noopEntry 2 2] ∧ r.currentTerm = 3 ∧
      r.log[0]? = some (noopEntry 1 1) ∧ d.reloaded.log[0]? = some (noopEntry 1 1) := by
  have hs : ∀ a ∈ trafficLife, a.1.IsTraffic ∧ ∀ o ∈ a.2, Clean o := by
    simp only [trafficLife, List.forall_mem_cons]
    exact ⟨⟨trivial, by simp⟩, ⟨trivial, by simp [Clean]⟩, ⟨trivial, by simp⟩, ⟨trivial, by simp⟩,
      by simp⟩
  obtain ⟨rj, dj, rk, dk, hj, hk, -, -, -, hkept⟩ := @committed_entries_immutable _
    ((localCluster 1).env 1) freshNode .empty trafficLife (Indexed.nil 0) rfl hs 1 4 (by decide)
  cases hj
  cases hk
  obtain ⟨hmemory, -, hfile⟩ := hkept 0 _ rfl (by decide)
  exact ⟨_, _, rfl, rfl, rfl, hmemory, hfile.mpr (LogEntry.text_noop 1 1)⟩

/-- One request that brings and commits a DELETE of the key `FF`. -/
def invalidKeyLife : List (Input × List Outcome) :=
  [(.appendRequest ⟨1, 2, 0, 0, [⟨1, 1, .delete, [0xFF], []⟩], 1⟩, [])]

/-- The committed entry is in memory, and another one is in the file. -/
theorem committed_entry_not_in_file :
    ∃ r d, (live ((localCluster 1).env 1) freshNode .empty invalidKeyLife).process = .up r d ∧
      r.commitIndex = 1 ∧ r.log = [⟨1, 1, .delete, [0xFF], []⟩] ∧
      d.reloaded.log = [⟨1, 1, .delete, [0xEF, 0xBF, 0xBD], []⟩] :=
  ⟨_, _, rfl, rfl, rfl, rfl⟩

end DistributedKv
