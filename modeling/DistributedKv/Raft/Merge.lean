import DistributedKv.Raft.FileNode

/-!
What `HandleAppendEntries` leaves in memory and in the log file. A successful
request leaves the reference merge (`appendEntries_merges_iff`); a refused one
leaves everything as it was, unless its batch is only found to be bad when
entries have been cut off or written (`refused_leaves_log_iff`).
-/

namespace DistributedKv

open Framing (frames)

variable {σ : Type}

namespace FileNode

variable {json : EntryJson} {n n' : FileNode σ} {req : AppendEntriesRequest} {truncateFrom : Nat}
  {new : List LogEntry}

/-! ## The reference merge and the handler -/

/-- What a successful request should leave: the merged log in memory and in the
file, and the same again when it is delivered once more. -/
structure Merged (json : EntryJson) (req : AppendEntriesRequest) (n n' : FileNode σ) : Prop where
  log : n'.raft.log = mergeEntries n.raft.log req.entries
  durable : (n'.log.load json).1 = .ok (mergeEntries n.raft.log req.entries)
  kept : (∀ e ∈ req.entries, ∀ x ∈ n.raft.log, x.index = e.index → x = e) →
    n.raft.log <+: n'.raft.log
  commitIndex : n'.raft.commitIndex =
    max n.raft.commitIndex (min req.leaderCommit n'.raft.lastLogIndexLocked)
  again : n'.handleAppendEntries json req = (⟨n'.raft.currentTerm, true⟩, n')

/-- The leader is recognized, and the rest decides. -/
theorem handleAppendEntries_eq (h : n.Sound json) (hge : ¬ req.term < n.raft.currentTerm) :
    ∃ n₁, Heard req.term req.leaderID n n₁ ∧ n.handleAppendEntries json req =
      (⟨(n₁.storeEntries json req).2.raft.currentTerm, (n₁.storeEntries json req).1⟩,
        (n₁.storeEntries json req).2) := by
  obtain ⟨n₁, heq, hheard⟩ := recognizeLeader_heard h hge
  refine ⟨n₁, hheard, ?_⟩
  rw [handleAppendEntries, if_neg hge, heq]

/-- A node that has merged the request is not changed by it. -/
theorem handleAppendEntries_again {r : Raft σ} {stable : StableState} {log : FileLogStore}
    (hidx : Indexed r.snapshotMeta.lastIncludedIndex r.log) (hterm : r.currentTerm = req.term)
    (hstate : r.state = .follower) (hleader : r.leaderID = req.leaderID)
    (hmatch : r.matchesPrefixLocked req.prevLogIndex req.prevLogTerm = true)
    (hentries : Indexed req.prevLogIndex req.entries) (hvalid : ∀ e ∈ req.entries, e.Valid)
    (hmem : ∀ e ∈ req.entries, e ∈ r.log)
    (hcommit : min req.leaderCommit r.lastLogIndexLocked ≤ r.commitIndex) :
    handleAppendEntries json req ⟨r, stable, log⟩ = (⟨r.currentTerm, true⟩, ⟨r, stable, log⟩) := by
  have hself : { r with state := .follower, leaderID := req.leaderID } = r := by
    rw [← hstate, ← hleader]
  have hrecognize : recognizeLeader req.term req.leaderID ⟨r, stable, log⟩ =
      (.ok (), ⟨r, stable, log⟩) := by
    rw [recognizeLeader, if_neg (by dsimp only; omega)]
    dsimp only
    rw [hself]
  have hplan : r.replicationPlanLocked req.prevLogIndex req.entries = .ok (0, []) :=
    Raft.replicationPlanFrom_present hidx hentries hvalid hmem
  have hfollow : followCommit req.leaderCommit ⟨r, stable, log⟩ = (true, ⟨r, stable, log⟩) := by
    rw [followCommit, if_neg (by dsimp only; omega)]
  have hstore : storeEntries json req ⟨r, stable, log⟩ = (true, ⟨r, stable, log⟩) := by
    rw [storeEntries, if_neg (by simp [hmatch]), hplan]
    exact hfollow
  rw [handleAppendEntries, if_neg (by dsimp only; omega), hrecognize]
  dsimp only
  rw [hstore]

/-- For every node in order and every request that it answers with success: the
log in memory and in the file is the reference merge, and the request changes
nothing the second time, just when all entries that it brings are text. -/
theorem appendEntries_merges_iff (hjson : json.Repairs) (htext : json.DecodesText)
    (hs : n.Sound json) (hok : (n.handleAppendEntries json req).1.success = true) :
    Merged json req n (n.handleAppendEntries json req).2 ↔
      ∀ e ∈ req.entries.dropWhile (· ∈ n.raft.log), ValidUTF8 e.key ∧ ValidUTF8 e.value := by
  have hge : ¬ req.term < n.raft.currentTerm := by
    intro hlt
    rw [handleAppendEntries, if_pos hlt] at hok
    cases hok
  obtain ⟨n₁, hheard, heq⟩ := handleAppendEntries_eq hs hge
  rw [heq] at hok ⊢
  have hs₁ := hheard.sound hs
  obtain ⟨truncateFrom, new, hst⟩ := storable_of_storeEntries hjson htext hs₁ hok
  have hplanned := hst.planned hs₁
  obtain ⟨stable, log, rs, hstore, hreads⟩ := hst.storeEntries hjson htext hs₁
  have hmerge := hplanned.merge_eq hs₁.indexed
  have hload : (log.load json).1 = .ok (n₁.raft.kept truncateFrom ++ new.map LogEntry.repaired) :=
    congrArg Prod.fst hreads.loadLocked
  rw [hstore]
  rw [← hheard.raft_log, hplanned.new_eq]
  constructor
  · intro hmerged e he
    have hdurable := hmerged.durable
    rw [hload, ← hheard.raft_log, hmerge, Except.ok.injEq, List.append_cancel_left_eq] at hdurable
    rw [← LogEntry.repaired_eq_self_iff]
    exact List.map_inj_left.mp (hdurable.trans (List.map_id _).symm) e he
  · intro hutf
    refine ⟨?_, ?_, fun hno => ?_, ?_, ?_⟩
    · rw [← hheard.raft_log, hmerge]
    · rw [hload, FileLogStore.map_repaired_of_text hutf, ← hheard.raft_log, hmerge]
    · rw [← hheard.raft_log] at hno ⊢
      exact hplanned.isPrefix_merge hs₁.indexed hno
    · rw [← hheard.commitIndex]
      rfl
    · obtain ⟨hentries, hvalid⟩ := hplanned.request_indexed hst.stores.1
      refine handleAppendEntries_again (hplanned.merge_indexed hs₁.indexed hst.stores.1) ?_ ?_ ?_ ?_
        hentries hvalid (fun e he => hplanned.mem_merge hs₁.indexed (.inl he)) ?_
      · exact congrArg Raft.currentTerm hheard.raft
      · exact congrArg Raft.state hheard.raft
      · exact congrArg Raft.leaderID hheard.raft
      · exact hplanned.matchesPrefixLocked_merge hs₁.indexed hst.stores.1 rfl rfl hst.matching
      · exact Nat.le_max_right _ _

/-- A node in term 1 that has committed the first of these entries. -/
def holding (entries : List LogEntry) (commitIndex : Nat) : FileNode (MemoryStore 8) where
  raft := { freshNode with currentTerm := 1, log := entries, commitIndex := commitIndex }
  stable := ⟨1, noVote, commitIndex, 0⟩
  log := ((FileLogStore.newFileLogStore "log" []).append .textual entries none).2

theorem holding_sound {entries : List LogEntry} {commitIndex : Nat}
    (hidx : Indexed 0 entries) (hcommit : commitIndex ≤ entries.length)
    (hload : (holding entries commitIndex).log.load .textual =
      (.ok entries, (holding entries commitIndex).log)) :
    (holding entries commitIndex).Sound .textual where
  boundary_le := Nat.le_refl 0
  applied_le := Nat.zero_le _
  commit_le := by
    rw [Raft.lastLogIndexLocked_of_indexed rfl hidx]
    exact hcommit.trans (Nat.le_add_left _ _)
  indexed := hidx
  durable := FileLogStore.reads_of_load hload
  vote := Int.le_refl noVote

/-- A conflict at the second index. -/
theorem appendEntries_merges_conflict :
    ∃ n', (holding [noopEntry 1 1, noopEntry 2 1] 1).handleAppendEntries .textual
        ⟨2, 2, 1, 1, [noopEntry 2 2], 2⟩ = (⟨2, true⟩, n') ∧
      Merged .textual ⟨2, 2, 1, 1, [noopEntry 2 2], 2⟩
        (holding [noopEntry 1 1, noopEntry 2 1] 1) n' ∧
      n'.raft.log = [noopEntry 1 1, noopEntry 2 2] ∧ n'.raft.commitIndex = 2 := by
  have hs : (holding [noopEntry 1 1, noopEntry 2 1] 1).Sound .textual :=
    holding_sound (by simp [Indexed.cons, Indexed.nil, noopEntry]) (by decide) rfl
  refine ⟨_, rfl, ?_, rfl, rfl⟩
  refine (appendEntries_merges_iff EntryJson.textual_repairs EntryJson.textual_decodesText hs
    rfl).mpr fun e he => ?_
  obtain rfl : e = noopEntry 2 2 := by simpa using (List.dropWhile_sublist _).subset he
  exact ⟨(validUTF8_iff _).mpr (by decide), (validUTF8_iff _).mpr (by decide)⟩

/-- An entry with a key that is not text gets into the file as another entry. -/
theorem appendEntries_changes_bytes :
    EntryJson.textual.Repairs ∧ EntryJson.textual.DecodesText ∧
    (holding [] 0).Sound .textual ∧
    ∃ n', (holding [] 0).handleAppendEntries .textual ⟨1, 2, 0, 0, [⟨1, 1, .delete, [0xFF], []⟩], 0⟩ =
        (⟨1, true⟩, n') ∧
      n'.raft.log = [⟨1, 1, .delete, [0xFF], []⟩] ∧
      (n'.log.load .textual).1 = .ok [⟨1, 1, .delete, [0xEF, 0xBF, 0xBD], []⟩] ∧
      ¬ Merged .textual ⟨1, 2, 0, 0, [⟨1, 1, .delete, [0xFF], []⟩], 0⟩ (holding [] 0) n' := by
  refine ⟨EntryJson.textual_repairs, EntryJson.textual_decodesText,
    holding_sound (Indexed.nil 0) (by decide) rfl, _, rfl, rfl, rfl, fun hmerged => ?_⟩
  have hdurable := hmerged.durable
  exact absurd hdurable (by decide)

/-! ## Refused requests -/

/-- Both copies of the log, the boundary and the two indexes are as before. -/
structure Unchanged (json : EntryJson) (n n' : FileNode σ) : Prop where
  log : n'.raft.log = n.raft.log
  durable : (n'.log.load json).1 = (n.log.load json).1
  snapshotMeta : n'.raft.snapshotMeta = n.raft.snapshotMeta
  commitIndex : n'.raft.commitIndex = n.raft.commitIndex
  lastApplied : n'.raft.lastApplied = n.raft.lastApplied

theorem Heard.unchanged {term : Nat} {leaderID : Int} (h : Heard term leaderID n n') :
    Unchanged json n n' :=
  ⟨h.raft_log, by rw [h.log], h.snapshotMeta, h.commitIndex, h.lastApplied⟩

/-- The batch is only found to be bad after something that cannot be undone:
entries were cut off before, or the first records of the batch written before
one that is too long. -/
def Exposed (json : EntryJson) (req : AppendEntriesRequest) (n : FileNode σ) : Prop :=
  n.raft.currentTerm ≤ req.term ∧ ∃ truncateFrom new, Refused json req n.raft truncateFrom new ∧
    (truncateFrom ≠ 0 ∨ Contiguous new ∧ FileLogStore.fitting json new ≠ [])

theorem Heard.refused {term : Nat} {leaderID : Int} (h : Heard term leaderID n n') :
    Refused json req n'.raft truncateFrom new ↔ Refused json req n.raft truncateFrom new := by
  have hmatch := Raft.matchesPrefixLocked_congr h.raft_log h.snapshotMeta
  have hplan : n'.raft.replicationPlanLocked req.prevLogIndex req.entries =
      n.raft.replicationPlanLocked req.prevLogIndex req.entries :=
    Raft.replicationPlanFrom_congr h.raft_log h.snapshotMeta h.commitIndex _ _ _
  constructor
  · rintro ⟨hm, hp, ht, hst⟩
    rw [hmatch] at hm
    rw [hplan] at hp
    rw [h.raft_log] at ht
    exact ⟨hm, hp, ht, hst⟩
  · rintro ⟨hm, hp, ht, hst⟩
    rw [← hmatch] at hm
    rw [← hplan] at hp
    rw [← h.raft_log] at ht
    exact ⟨hm, hp, ht, hst⟩

/-- What was cut off or written shows. -/
theorem Refused.changed (hjson : json.Repairs) (htext : json.DecodesText) (hs : n.Sound json)
    (h : Refused json req n.raft truncateFrom new)
    (hwhy : truncateFrom ≠ 0 ∨ Contiguous new ∧ FileLogStore.fitting json new ≠ []) :
    (n.storeEntries json req).1 = false ∧ ¬ Unchanged json n (n.storeEntries json req).2 := by
  obtain ⟨log, hstore, -, hlong⟩ := h.storeEntries hjson htext hs
  rw [hstore]
  refine ⟨rfl, fun hun => ?_⟩
  have hplanned := Raft.replicationPlanFrom_planned hs.indexed h.plan
  by_cases hzero : truncateFrom = 0
  · obtain ⟨hc, hfit⟩ := hwhy.resolve_left fun hcon => hcon hzero
    obtain ⟨rs, hrs⟩ := hs.durable
    have hpre : FileLogStore.fitting json new <+: new := List.takeWhile_prefix _
    have hfollows : Follows n.raft.log (FileLogStore.fitting json new) := by
      have hf := hplanned.follows hs.indexed
      rw [Raft.kept, if_pos hzero] at hf
      intro last hlast first hfirst
      refine hf last hlast first ?_
      obtain ⟨rest, hrest⟩ := hpre
      rw [← hrest, List.head?_append, hfirst]
      rfl
    have hreads := hrs.grow hjson (hc.isInfix hpre.isInfix)
      (fun e he => by simpa using List.mem_takeWhile_imp he) hfollows
    have hdurable := hun.durable
    change (log.load json).1 = _ at hdurable
    rw [hlong hzero hc] at hdurable
    rw [FileLogStore.load, FileLogStore.load, hreads.loadLocked, hrs.loadLocked, Except.ok.injEq]
      at hdurable
    have := congrArg List.length hdurable
    rw [List.length_append, List.length_map] at this
    exact hfit (List.eq_nil_of_length_eq_zero (by omega))
  · have hlog : n.raft.kept truncateFrom = n.raft.log := hun.log
    obtain ⟨hle, hlt⟩ := hplanned.truncates hzero
    rw [Raft.lastLogIndexLocked_of_indexed rfl hs.indexed] at hle
    rw [Raft.kept, if_neg hzero, LogStore.takeWhile_indexed hs.indexed] at hlog
    have := congrArg List.length hlog
    rw [List.length_take] at this
    omega

/-- For every node in order and every request: a refusal leaves both copies of the
log, the boundary and the indexes as they were, just when the batch is not found
to be bad after the first entries were cut off or written. -/
theorem refused_leaves_log_iff (hjson : json.Repairs) (htext : json.DecodesText)
    (hs : n.Sound json) (req : AppendEntriesRequest) :
    ((n.handleAppendEntries json req).1.success = false →
      Unchanged json n (n.handleAppendEntries json req).2) ↔ ¬ Exposed json req n := by
  by_cases hlt : req.term < n.raft.currentTerm
  · rw [handleAppendEntries, if_pos hlt]
    refine ⟨fun _ hexp => ?_, fun _ _ => ⟨rfl, rfl, rfl, rfl, rfl⟩⟩
    have := hexp.1
    omega
  obtain ⟨n₁, hheard, heq⟩ := handleAppendEntries_eq hs hlt
  have hs₁ := hheard.sound hs
  have hback : ∀ {m : FileNode σ}, Unchanged json n m → Unchanged json n₁ m := by
    intro m hm
    exact ⟨hm.log.trans hheard.raft_log.symm, by rw [hm.durable, hheard.log],
      hm.snapshotMeta.trans hheard.snapshotMeta.symm, hm.commitIndex.trans hheard.commitIndex.symm,
      hm.lastApplied.trans hheard.lastApplied.symm⟩
  rw [heq]
  constructor
  · rintro hun ⟨-, truncateFrom, new, href, hwhy⟩
    obtain ⟨hfalse, hchanged⟩ := (hheard.refused.mpr href).changed hjson htext hs₁ hwhy
    exact hchanged (hback (hun hfalse))
  · intro hexp hfalse
    rcases storeEntries_false hjson htext hs₁ hfalse with hsame | ⟨truncateFrom, new, href⟩
    · rw [hsame]
      exact hheard.unchanged
    -- the plan only appends, and nothing was written
    have hnot : ¬ (truncateFrom ≠ 0 ∨ Contiguous new ∧ FileLogStore.fitting json new ≠ []) :=
      fun hwhy => hexp ⟨by omega, truncateFrom, new, hheard.refused.mp href, hwhy⟩
    obtain ⟨hzero, hfit⟩ := not_or.mp hnot
    have hzero : truncateFrom = 0 := not_not.mp hzero
    obtain ⟨log, hstore, hbad, hlong⟩ := href.storeEntries hjson htext hs₁
    have hlog : log = n₁.log := by
      by_cases hc : Contiguous new
      · have hnil : FileLogStore.fitting json new = [] := by
          by_contra hne
          exact hfit ⟨hc, hne⟩
        rw [hlong hzero hc, hnil]
        simp [FileLogStore.grow]
      · exact hbad hzero hc
    rw [hstore, hlog, Raft.kept, if_pos hzero, withLog_self]
    exact hheard.unchanged


/-- A batch with a gap, behind the log: nothing has been cut off. -/
theorem refused_leaves_log_gap :
    ((holding [noopEntry 1 1] 1).handleAppendEntries .textual
        ⟨1, 2, 1, 1, [noopEntry 2 1, noopEntry 5 1], 0⟩).1 = ⟨1, false⟩ ∧
      Unchanged .textual (holding [noopEntry 1 1] 1)
        ((holding [noopEntry 1 1] 1).handleAppendEntries .textual
          ⟨1, 2, 1, 1, [noopEntry 2 1, noopEntry 5 1], 0⟩).2 := by
  have hs : (holding [noopEntry 1 1] 1).Sound .textual :=
    holding_sound (by simp [Indexed.cons, Indexed.nil, noopEntry]) (by decide) rfl
  refine ⟨rfl, (refused_leaves_log_iff EntryJson.textual_repairs EntryJson.textual_decodesText hs
    ⟨1, 2, 1, 1, [noopEntry 2 1, noopEntry 5 1], 0⟩).mpr ?_ rfl⟩
  rintro ⟨-, truncateFrom, new, href, hwhy⟩
  obtain ⟨rfl, rfl⟩ := Prod.mk.inj (Except.ok.inj href.plan.symm)
  rcases hwhy with hzero | ⟨hc, -⟩
  · exact hzero rfl
  · cases (checkEntries_ok_iff (fun _ _ _ => "") _).mpr hc

/-- The same gap behind a conflict: the batch is refused after the uncommitted
entry has been cut off. -/
theorem refused_batch_truncates :
    EntryJson.textual.Repairs ∧ EntryJson.textual.DecodesText ∧
    (holding [noopEntry 1 1, noopEntry 2 1] 1).Sound .textual ∧
    ∃ n', (holding [noopEntry 1 1, noopEntry 2 1] 1).handleAppendEntries .textual
        ⟨2, 2, 1, 1, [noopEntry 2 2, noopEntry 5 2], 0⟩ = (⟨2, false⟩, n') ∧
      n'.raft.log = [noopEntry 1 1] ∧ (n'.log.load .textual).1 = .ok [noopEntry 1 1] ∧
      ¬ Unchanged .textual (holding [noopEntry 1 1, noopEntry 2 1] 1) n' := by
  refine ⟨EntryJson.textual_repairs, EntryJson.textual_decodesText,
    holding_sound (by simp [Indexed.cons, Indexed.nil, noopEntry]) (by decide) rfl,
    _, rfl, rfl, rfl, fun hun => ?_⟩
  exact absurd hun.log (by decide)

end FileNode

end DistributedKv
