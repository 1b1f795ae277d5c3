import DistributedKv.Raft.Faults
import DistributedKv.Raft.Replication

/-!
Two facts that need nothing from the stores or from the requests. The log in
memory always continues its snapshot boundary with valid entries
(`Raft.WellFormed`), because every function that changes it checks what it
writes. And a node that starts takes term and vote from its stable state, whatever
its stores do meanwhile (`start_done`).
-/

namespace DistributedKv

open Crash Prog

variable {σ : Type} {env : Env σ} {i : Input} {r₀ r r' : Raft σ} {d d' : Disk}

/-! ## The log in memory -/

/-- The boundary of a snapshot that is being taken. -/
def ApplyPhase.boundary : ApplyPhase → Option SnapshotMetadata
  | .snapshotting b => some b
  | .snapshotSaved b => some b
  | _ => none

/-- The log continues the boundary with valid entries. -/
structure Raft.WellFormed (r : Raft σ) : Prop where
  metadata : r.snapshotMeta.validate = .ok ()
  indexed : Indexed r.snapshotMeta.lastIncludedIndex r.log
  valid : ∀ e ∈ r.log, e.Valid
  boundary : ∀ b, r.apply.boundary = some b → b.validate = .ok ()

/-- The boundary, the two indexes and the end of the log, in this order. -/
structure Raft.Ordered (r : Raft σ) : Prop where
  boundary_le : r.snapshotMeta.lastIncludedIndex ≤ r.lastApplied
  applied_le : r.lastApplied ≤ r.commitIndex
  commit_le : r.commitIndex ≤ r.lastLogIndexLocked

/-- Some entries that a snapshot could stand for. -/
def SnapshotMetadata.filler (b : SnapshotMetadata) : List LogEntry :=
  (List.range b.lastIncludedIndex).map fun k => ⟨k + 1, b.lastIncludedTerm, .noop, [], []⟩

theorem SnapshotMetadata.filler_length (b : SnapshotMetadata) :
    b.filler.length = b.lastIncludedIndex := by simp [filler]

theorem SnapshotMetadata.filler_indexed (b : SnapshotMetadata) : Indexed 0 b.filler := by
  intro k e he
  simp only [filler, List.getElem?_map, Option.map_eq_some_iff] at he
  obtain ⟨j, hj, rfl⟩ := he
  obtain ⟨_, rfl⟩ := List.getElem?_eq_some_iff.mp hj
  simp

theorem SnapshotMetadata.filler_valid (b : SnapshotMetadata) : ∀ e ∈ b.filler, e.Valid := by
  intro e he
  obtain ⟨k, _, rfl⟩ := List.mem_map.mp he
  exact (LogEntry.valid_iff _).mpr ⟨Nat.succ_pos k, rfl, rfl⟩

theorem SnapshotMetadata.lastTerm_filler {b : SnapshotMetadata} (h : b.validate = .ok ()) :
    lastTerm b.filler = b.lastIncludedTerm := by
  rw [validate_ok_iff] at h
  unfold lastTerm filler
  cases hi : b.lastIncludedIndex with
  | zero => simp [h hi]
  | succ k => simp [List.range_succ]

theorem Raft.entriesFrom_of_retainedSuffix {index term : Nat} {es : List LogEntry}
    (h : r.retainedSuffix index term = some es) : r.entriesFromLocked (index + 1) = some es := by
  unfold retainedSuffix at h
  split at h
  · cases h
  · split at h
    · exact h
    · cases h

namespace Raft.WellFormed

/-- Whatever was compacted, the node reads its log as if it had been the filler. -/
def padded (r : Raft σ) : Raft σ := { r with covered := r.snapshotMeta.filler }

variable (h : r.WellFormed)

include h

theorem shape : (padded r).Shape where
  covered_length := r.snapshotMeta.filler_length
  boundary_term := (SnapshotMetadata.lastTerm_filler h.metadata).symm
  indexed := by
    refine Indexed.append.mpr ⟨r.snapshotMeta.filler_indexed, ?_⟩
    rw [Nat.zero_add]
    exact r.snapshotMeta.filler_length ▸ h.indexed
  valid e he := by
    rcases List.mem_append.mp he with he | he
    · exact r.snapshotMeta.filler_valid e he
    · exact h.valid e he

theorem lastLogIndexLocked_eq :
    r.lastLogIndexLocked = r.snapshotMeta.lastIncludedIndex + r.log.length :=
  h.shape.lastLogIndexLocked_eq.trans h.shape.history_length

/-- The entry that the node finds at an index. -/
theorem mem_of_entryAtLocked {index : Nat} {e : LogEntry} (he : r.entryAtLocked index = some e) :
    e ∈ r.log ∧ e.index = index := by
  obtain ⟨hb, hget⟩ := h.shape.getElem?_of_entryAtLocked (r := padded r) he
  rw [h.shape.history_getElem? (Nat.le_sub_one_of_lt hb)] at hget
  have hidx := h.indexed _ _ hget
  have hb' : r.snapshotMeta.lastIncludedIndex < index := hb
  exact ⟨List.mem_of_getElem? hget, by simp only [padded] at hidx; omega⟩

/-- The suffix from an index on. -/
theorem entriesFromLocked_ok {index : Nat} {es : List LogEntry}
    (hes : r.entriesFromLocked index = some es) :
    r.snapshotMeta.lastIncludedIndex < index ∧ Indexed (index - 1) es ∧
      ∀ e, e ∈ es ↔ e ∈ r.log ∧ index ≤ e.index := by
  have heq := h.shape.entriesFromLocked_eq index
  rw [show (padded r).entriesFromLocked index = some es from hes] at heq
  split at heq
  swap
  · cases heq
  rename_i hin
  have hb : r.snapshotMeta.lastIncludedIndex < index := hin.1
  obtain rfl := Option.some.inj heq
  have hlen := h.shape.history_length
  refine ⟨hb, ?_, fun e => ?_⟩
  · have := h.shape.indexed.drop (k := index - 1) (by omega)
    rwa [Nat.zero_add] at this
  rw [h.shape.history_drop (Nat.le_sub_one_of_lt hb)]
  change e ∈ r.log.drop (index - 1 - r.snapshotMeta.lastIncludedIndex) ↔ _
  simp only [List.mem_iff_getElem?, List.getElem?_drop]
  constructor
  · rintro ⟨k, hk⟩
    have := h.indexed _ _ hk
    exact ⟨⟨_, hk⟩, by omega⟩
  · rintro ⟨⟨k, hk⟩, hle⟩
    have := h.indexed _ _ hk
    refine ⟨k - (index - 1 - r.snapshotMeta.lastIncludedIndex), ?_⟩
    rwa [show index - 1 - r.snapshotMeta.lastIncludedIndex +
      (k - (index - 1 - r.snapshotMeta.lastIncludedIndex)) = k by omega]

/-- Two entries of the log at one index are one entry. -/
theorem eq_of_index {e e' : LogEntry} (he : e ∈ r.log) (he' : e' ∈ r.log)
    (hi : e.index = e'.index) : e = e' := by
  obtain ⟨k, hk, rfl⟩ := List.mem_iff_getElem.mp he
  obtain ⟨j, hj, rfl⟩ := List.mem_iff_getElem.mp he'
  have hik := h.indexed _ _ (List.getElem?_eq_getElem hk)
  have hij := h.indexed _ _ (List.getElem?_eq_getElem hj)
  congr 1
  omega

/-- Following a replication plan drops entries from the conflict on, none of
them committed, and the new ones continue what is left. -/
theorem cutAt_ok {req : AppendEntriesRequest} {truncateFrom : Nat} {entries l : List LogEntry}
    (hm : r.matchesPrefixLocked req.prevLogIndex req.prevLogTerm = true)
    (hplan : r.replicationPlanLocked req.prevLogIndex req.entries = .ok (truncateFrom, entries))
    (hl : r.cutAt truncateFrom = some l) :
    l <+: r.log ∧ (∀ e ∈ r.log, (truncateFrom ≠ 0 → e.index < truncateFrom) → e ∈ l) ∧
      (∀ e ∈ r.log, e.index ≤ r.commitIndex → e ∈ l) ∧
      (Contiguous entries → Indexed (r.snapshotMeta.lastIncludedIndex + l.length) entries) := by
  have hagree : Agrees (padded r).history req 0 :=
    ⟨((h.shape.matchesPrefixLocked_iff _ _).mp hm).2, fun j hj => absurd hj (Nat.not_lt_zero j)⟩
  have hplan' : (padded r).replicationPlanFrom req.prevLogIndex 0 req.entries =
      .ok (truncateFrom, entries) := by
    rw [← hplan, replicationPlanLocked]
    apply replicationPlanFrom_congr <;> rfl
  obtain ⟨m, hp⟩ := h.shape.replicationPlanFrom_plan req.entries rfl hagree hplan'
  -- the first new entry says where the new entries start
  have hentries : Contiguous entries → entries ≠ [] → Indexed (req.prevLogIndex + m) entries := by
    rintro ⟨_, b, hb⟩ hne
    obtain ⟨e, es, rfl⟩ := List.exists_cons_of_ne_nil hne
    have hfirst := hp.first e (by rw [← List.head?_drop, ← hp.rest]; rfl)
    have := (Indexed.cons.mp hb).1
    rwa [show req.prevLogIndex + m = b by omega]
  have hlen : (padded r).history.length = r.snapshotMeta.lastIncludedIndex + r.log.length :=
    h.shape.history_length
  unfold Raft.cutAt at hl
  rcases hp.cut with ⟨rfl, hrest⟩ | ⟨rfl, hcommit, hb, x, _, hx, _⟩
  · obtain rfl := Option.some.inj hl
    refine ⟨List.prefix_rfl, fun e he _ => he, fun e he _ => he, fun hc => ?_⟩
    by_cases hne : entries = []
    · exact hne ▸ Indexed.nil _
    · have := hentries hc hne
      rwa [← hrest.resolve_left hne, hlen] at this
  · have hxlen := (List.getElem?_eq_some_iff.mp hx).1
    have hoff := h.shape.logOffsetLocked_eq (req.prevLogIndex + m + 1)
    have hb' : r.snapshotMeta.lastIncludedIndex ≤ req.prevLogIndex + m := hb
    rw [if_pos ⟨Nat.lt_succ_of_le hb, hxlen⟩] at hoff
    rw [if_neg (Nat.succ_ne_zero _)] at hl
    obtain rfl : r.log.take (req.prevLogIndex + m - r.snapshotMeta.lastIncludedIndex) = l := by
      have hoff' : r.logOffsetLocked (req.prevLogIndex + m + 1) = some _ := hoff
      rw [hoff', Option.map_some, Option.some.injEq] at hl
      rw [← hl]
      congr 1
      simp only [padded]
      omega
    have hmem : ∀ e ∈ r.log, e.index < req.prevLogIndex + m + 1 →
        e ∈ r.log.take (req.prevLogIndex + m - r.snapshotMeta.lastIncludedIndex) := by
      intro e he hlt
      obtain ⟨k, hk⟩ := List.mem_iff_getElem?.mp he
      have := h.indexed _ _ hk
      refine List.mem_iff_getElem?.mpr ⟨k, ?_⟩
      rwa [List.getElem?_take_of_lt (by omega)]
    refine ⟨List.take_prefix _ _, fun e he hlt => hmem e he (hlt (Nat.succ_ne_zero _)),
      fun e he hle => hmem e he ?_, fun hc => ?_⟩
    · have : r.commitIndex ≤ req.prevLogIndex + m := hcommit
      omega
    · by_cases hne : entries = []
      · exact hne ▸ Indexed.nil _
      · have := hentries hc hne
        rwa [List.length_take, Nat.min_eq_left (by omega), Nat.add_sub_cancel' hb']

end Raft.WellFormed

/-- Appending one valid entry with the next index. -/
theorem Raft.WellFormed.append (h : r.WellFormed) {e : LogEntry}
    (hi : e.index = r.lastLogIndexLocked + 1) (hv : e.Valid) :
    Indexed r.snapshotMeta.lastIncludedIndex (r.log ++ [e]) ∧ ∀ x ∈ r.log ++ [e], x.Valid := by
  rw [h.lastLogIndexLocked_eq] at hi
  refine ⟨Indexed.append.mpr ⟨h.indexed, Indexed.cons.mpr ⟨hi, Indexed.nil _⟩⟩, fun x hx => ?_⟩
  rcases List.mem_append.mp hx with hx | hx
  · exact h.valid x hx
  · exact List.mem_singleton.mp hx ▸ hv

theorem Effect.wellFormed (he : Effect env r₀ i r r') (h : r.WellFormed) : r'.WellFormed := by
  cases he with
  | raise | follow | stand | vote | count | retire | followCommit | restore | backUp
  | recordAppend | advance | recordInstall =>
    exact ⟨h.metadata, h.indexed, h.valid, h.boundary⟩
  | select | selectFailed | applyNoop | applyDone | applyFailed | checkpointFailed | abandon =>
    exact ⟨h.metadata, h.indexed, h.valid, nofun⟩
  | lead =>
    obtain ⟨hidx, hval⟩ := h.append (e := noopEntry (r.lastLogInfoLocked.1 + 1) r.currentTerm) rfl
      ((LogEntry.valid_iff _).mpr ⟨Nat.succ_pos _, rfl, rfl⟩)
    exact ⟨h.metadata, hidx, hval, h.boundary⟩
  | propose _ command hv =>
    obtain ⟨hidx, hval⟩ := h.append (e := r.nextEntry command) rfl (proposedEntry_valid hv _ _)
    exact ⟨h.metadata, hidx, hval, h.boundary⟩
  | cut _ req truncateFrom entries l _ hm hplan hl =>
    have hpre := (h.cutAt_ok hm hplan hl).1
    exact ⟨h.metadata, h.indexed.of_isPrefix hpre, fun e he => h.valid e (hpre.subset he),
      h.boundary⟩
  | merge _ req truncateFrom entries l _ hm hplan hl hes =>
    obtain ⟨hpre, -, -, hidx⟩ := h.cutAt_ok hm hplan hl
    refine ⟨h.metadata, Indexed.append.mpr ⟨h.indexed.of_isPrefix hpre, hidx hes⟩,
      fun e he => ?_, h.boundary⟩
    rcases List.mem_append.mp he with he | he
    · exact h.valid e (hpre.subset he)
    · exact hes.1 e he
  | install _ req _ hi =>
    cases hes : r.retainedSuffix req.lastIncludedIndex req.lastIncludedTerm with
    | none =>
      refine ⟨hi.metadata, ?_, ?_, h.boundary⟩
      · simp only [Raft.installed, hes, Option.getD_none]
        exact Indexed.nil _
      · simp [Raft.installed, hes]
    | some es =>
      obtain ⟨-, hidx, hmem⟩ := h.entriesFromLocked_ok (Raft.entriesFrom_of_retainedSuffix hes)
      refine ⟨hi.metadata, ?_, ?_, h.boundary⟩
      · simp only [Raft.installed, hes, Option.getD_some]
        exact hidx
      · simp only [Raft.installed, hes, Option.getD_some]
        exact fun e he => h.valid e ((hmem e).mp he).1
  | checkpoint _ entry =>
    obtain ⟨_, _, -, -, heq⟩ := r.checkpointed_eq entry
    rw [heq]
    exact ⟨h.metadata, h.indexed, h.valid, nofun⟩
  | stop _ err =>
    obtain ⟨_, _, _, -, -, heq⟩ := r.stopped_eq err
    rw [heq]
    exact ⟨h.metadata, h.indexed, h.valid, nofun⟩
  | begin _ term ha ht =>
    refine ⟨h.metadata, h.indexed, h.valid, fun b hb => ?_⟩
    obtain rfl := Option.some.inj hb
    refine (SnapshotMetadata.validate_ok_iff _).mpr fun h0 => ?_
    obtain ⟨_, hterm⟩ := h.shape.termAt_of_termAtLocked ht
    have h0' : r.lastApplied = 0 := h0
    rw [h0', termAt_zero] at hterm
    exact (Option.some.inj hterm).symm
  | save _ b ha =>
    refine ⟨h.metadata, h.indexed, h.valid, fun b' hb' => h.boundary b' ?_⟩
    rw [ha]
    exact hb'
  | compact _ b suffix ha hb hs =>
    obtain ⟨-, hidx, hmem⟩ := h.entriesFromLocked_ok hs
    exact ⟨h.boundary b (by rw [ha]; rfl), hidx, fun e he => h.valid e ((hmem e).mp he).1, nofun⟩

theorem Effects.wellFormed (he : Effects env r i r') (h : r.WellFormed) : r'.WellFormed := by
  induction he with
  | refl => exact h
  | tail _ he ih => exact he.wellFormed ih

/-! ## Starting -/

/-- What a starting node takes from the stable state, and what is new. -/
structure Raft.Fresh (r : Raft σ) (s : StableState) : Prop where
  term : r.currentTerm = s.currentTerm
  vote : r.votedFor = s.votedFor
  vote_ge : noVote ≤ r.votedFor
  state : r.state = .follower
  leaderID : r.leaderID = unknownLeader
  nextIndex : r.nextIndex = fun _ => none
  election : r.election = none
  pendingResults : r.pendingResults = []
  channels : r.channels = []
  applyErr : r.applyErr = none
  apply : r.apply = .idle

def StableState.SameBallot (s s' : StableState) : Prop :=
  s'.currentTerm = s.currentTerm ∧ s'.votedFor = s.votedFor

section Start

variable {s : StableState} {v : σ}

/-- The result of a start-up that has kept the ballot on disk. -/
def Starts (env : Env σ) (s : StableState) (out : Except String (Raft σ)) (d : Disk) : Prop :=
  s.SameBallot d.stable ∧
    ∀ r, out = .ok r → env.cfg.validate = .ok () ∧ r.Fresh s ∧ r.WellFormed ∧ r.Ordered

theorem Starts.error {err : String} (hd : s.SameBallot d.stable) :
    Starts env s (.error err) d := ⟨hd, fun _ h => by cases h⟩

theorem wp_store_sameBallot {run : Disk → Except String Disk}
    {Q : Except String Unit → σ → Disk → Prop} (hd : s.SameBallot d.stable)
    (hrun : ∀ d', run d = .ok d' → s.SameBallot d'.stable)
    (hQ : ∀ res d', s.SameBallot d'.stable → Q res v d') :
    wp Any (fun d => s.SameBallot d.stable) (store (Disk.replace run)) Q v d := by
  refine wp_store_of_keeps hd hrun (fun n => ?_) hQ
  rcases Disk.replace_part run n d with hpart | hpart
  · rw [hpart]
    exact hd
  · exact hrun _ hpart

theorem wp_save_sameBallot {st : StableState} {Q : Except String Unit → σ → Disk → Prop}
    (hd : s.SameBallot d.stable) (hst : s.SameBallot st)
    (hQ : ∀ res d', s.SameBallot d'.stable → Q res v d') :
    wp Any (fun d => s.SameBallot d.stable) (store (Disk.saveStable st)) Q v d := by
  refine wp_store_sameBallot hd (fun d' hd' => ?_) hQ
  obtain ⟨-, rfl⟩ := Disk.saveStable_ok_iff.mp hd'
  exact hst

theorem recoverLog_sameBallot {entries : List LogEntry} {b : SnapshotMetadata}
    (hd : s.SameBallot d.stable) :
    wp Any (fun d => s.SameBallot d.stable) (recoverLogAfterSnapshot entries b : Boot σ _)
      (fun _ _ d' => s.SameBallot d'.stable) v d := by
  unfold recoverLogAfterSnapshot
  cases entries with
  | nil => exact hd
  | cons first rest =>
    simp only [wp_ite, wp_pure]
    refine ⟨fun _ => hd, fun _ => ⟨fun _ => hd, fun _ => ⟨fun _ => ?_, fun _ => ?_⟩⟩⟩
    · refine wp_store_sameBallot hd (fun d' hd' => ?_) fun _ _ h => h
      split at hd'
      · cases hd'
      · exact Except.ok.inj hd' ▸ hd
    · refine wp_store_sameBallot hd (fun d' hd' => ?_) fun _ _ h => h
      split at hd'
      · cases hd'
      · exact Except.ok.inj hd' ▸ hd

/-- Replaying the log only reads it. -/
theorem replay_unchanged {allow : Outcome → Prop} {R : Disk → Prop} (n lastApplied : Nat)
    (hR : R d) : wp allow R (replay env r n lastApplied) (fun _ _ d' => d = d') v d := by
  induction n generalizing lastApplied v with
  | zero => exact rfl
  | succ n ih =>
    unfold replay
    cases r.entryAtLocked (lastApplied + 1) with
    | none => exact rfl
    | some entry =>
      simp only [wp_ite]
      refine ⟨fun _ => ?_, fun _ => ih _⟩
      cases env.applier with
      | none => exact rfl
      | some apply =>
        simp only [wp_bind, wp_attempt]
        refine ⟨?_, fun _ _ => rfl, fun _ _ => rfl, fun _ _ => hR⟩
        simp only [wp_read]
        cases apply entry v with
        | error err => exact rfl
        | ok store => exact ih _

theorem replayCommitted_fresh {persisted : StableState} (hcfg : env.cfg.validate = .ok ())
    (hd : s.SameBallot d.stable) (hr : r.Fresh s) (hwf : r.WellFormed) (hord : r.Ordered) :
    wp Any (fun d => s.SameBallot d.stable) (replayCommitted env persisted r)
      (fun out _ d' => Starts env s out d') v d := by
  simp only [replayCommitted, wp_bind]
  refine wp_mono _ _ _ (replay_unchanged _ _ hd) ?_ fun _ h => h
  rintro (err | _) v' _ rfl
  · exact .error hd
  have hok : ∀ {d' : Disk} {store : σ}, s.SameBallot d'.stable →
      Starts env s (.ok { r with lastApplied := max r.lastApplied r.commitIndex, store := store })
        d' := by
    intro d' store hd'
    refine ⟨hd', fun r' hr' => ?_⟩
    obtain rfl := Except.ok.inj hr'
    refine ⟨hcfg, ⟨hr.term, hr.vote, hr.vote_ge, hr.state, hr.leaderID, hr.nextIndex, hr.election,
      hr.pendingResults, hr.channels, hr.applyErr, hr.apply⟩,
      ⟨hwf.metadata, hwf.indexed, hwf.valid, hwf.boundary⟩, ?_⟩
    exact ⟨hord.boundary_le.trans (Nat.le_max_left _ _), Nat.max_le.mpr ⟨hord.applied_le, le_rfl⟩,
      hord.commit_le⟩
  simp only [wp_bind, wp_read, wp_ite, wp_pure]
  refine ⟨fun _ => ?_, fun _ => hok hd⟩
  refine wp_save_sameBallot hd ⟨hr.term, hr.vote⟩ ?_
  rintro (err | _) d₂ hd₂
  · exact .error hd₂
  · exact hok hd₂

theorem loadStable_eq {path : String} {persisted : StableState}
    (h : loadStable path s = .ok persisted) : s = persisted := by
  unfold loadStable at h
  split at h
  · cases h
  · split at h
    · cases h
    · exact Except.ok.inj h

theorem newWithLogAndSnapshot_fresh {b : SnapshotMetadata} {covers : List LogEntry}
    (hd : s.SameBallot d.stable) :
    wp Any (fun d => s.SameBallot d.stable) (newWithLogAndSnapshot env b covers)
      (fun out _ d' => Starts env s out d') v d := by
  unfold newWithLogAndSnapshot
  split
  · exact .error hd
  rename_i hcfg
  split
  · exact .error hd
  rename_i hmeta
  simp only [wp_bind, wp_disk]
  cases hstable : loadStable env.cfg.raftStatePath d.stable with
  | error err => exact .error hd
  | ok persisted =>
  cases hlog : LogStore.loadLocked d.log with
  | error err => exact .error hd
  | ok entries =>
  dsimp only
  cases hsuffix : validateLogSuffix entries b with
  | error err => exact .error hd
  | ok _ =>
  simp only [wp_ite, wp_pure]
  refine ⟨fun _ => .error hd, fun hrange => ⟨fun _ => .error hd, fun _ => ?_⟩⟩
  obtain ⟨hlow, hhigh⟩ := not_or.mp hrange
  obtain ⟨hvalid, hidx⟩ := (checkFrom_some_ok_iff _ _ _ _).mp hsuffix
  have hpersisted : s.SameBallot persisted := by
    rw [← loadStable_eq hstable]
    exact hd
  have hvote : noVote ≤ persisted.votedFor := by
    rw [← loadStable_eq hstable]
    exact (StableState.accepted_of_load hstable).1
  simp only [wp_bind, wp_read]
  exact replayCommitted_fresh hcfg hd
    ⟨hpersisted.1, hpersisted.2, hvote, rfl, rfl, rfl, rfl, rfl, rfl, rfl, rfl⟩
    ⟨hmeta, hidx, hvalid, fun _ h => (by cases h)⟩
    ⟨le_rfl, Nat.le_of_not_lt hlow, Nat.le_of_not_lt hhigh⟩

theorem newWithSnapshot_fresh (hd : s.SameBallot d.stable) :
    wp Any (fun d => s.SameBallot d.stable) (newWithSnapshot env)
      (fun out _ d' => Starts env s out d') v d := by
  unfold newWithSnapshot
  cases env.snapshotter with
  | none => exact .error hd
  | some snapshotter =>
  simp only [wp_bind, wp_disk]
  cases d.snapshot with
  | none => exact newWithLogAndSnapshot_fresh hd
  | some stored =>
  dsimp only
  cases stored.metadata.validate with
  | error err => exact .error hd
  | ok _ =>
  cases hstable : loadStable env.cfg.raftStatePath d.stable with
  | error err => exact .error hd
  | ok persisted =>
  cases LogStore.loadLocked d.log with
  | error err => exact .error hd
  | ok entries =>
  have hpersisted : s.SameBallot persisted := by
    rw [← loadStable_eq hstable]
    exact hd
  simp only [wp_bind]
  refine wp_mono _ _ _ (recoverLog_sameBallot hd) ?_ fun _ h => h
  rintro (err | _) v₁ d₁ hd₁
  · exact .error hd₁
  simp only [wp_bind, wp_attempt]
  refine ⟨?_, fun _ _ => .error hd₁, fun _ _ => .error hd₁, fun _ _ => hd₁⟩
  cases snapshotter.restore stored.data with
  | error err => exact .error hd₁
  | ok store =>
    simp only [wp_bind, wp_modify]
    refine wp_save_sameBallot hd₁ hpersisted ?_
    rintro (err | _) d₂ hd₂
    · exact .error hd₂
    · exact newWithLogAndSnapshot_fresh hd₂

/-- A start that returns, whatever the stores answer. -/
theorem start_done {answers : List Outcome} {out : Except String (Raft σ)}
    (h : start env answers d = .done out v d') : Starts env d.stable out d' := by
  have := wp_run (newWithSnapshot env) _ answers env.initial d (fun _ _ => trivial)
    (newWithSnapshot_fresh (s := d.stable) ⟨rfl, rfl⟩)
  rwa [show (newWithSnapshot env).run answers env.initial d = _ from h] at this

/-- A start during which the process dies. -/
theorem start_crashed {answers : List Outcome} (h : start env answers d = .crashed d') :
    d.stable.SameBallot d'.stable := by
  have := wp_run (newWithSnapshot env) _ answers env.initial d (fun _ _ => trivial)
    (newWithSnapshot_fresh (s := d.stable) ⟨rfl, rfl⟩)
  rwa [show (newWithSnapshot env).run answers env.initial d = _ from h] at this

/-- A start after which no process is up. -/
theorem start_failed {answers : List Outcome} (h : start env answers d = .crashed d' ∨
    ∃ err v, start env answers d = .done (.error err) v d') : d.stable.SameBallot d'.stable := by
  rcases h with h | ⟨err, v, h⟩
  · exact start_crashed h
  · exact (start_done h).1

/-- A node that has just started. -/
theorem Starts.ahead (h : Starts env s (.ok r) d) :
    Ahead r d.stable := by
  obtain ⟨hsame, hok⟩ := h
  obtain ⟨-, hfresh, -⟩ := hok r rfl
  exact .inr ⟨hsame.1.trans hfresh.term.symm, .inr (hsame.2.trans hfresh.vote.symm)⟩

end Start

end DistributedKv
