import DistributedKv.Raft.Ordered
import DistributedKv.Raft.Payload

/-!
The part of the representation invariant that holds whatever snapshots arrive:
an installed snapshot can leave the log behind the commit index, but never
behind what has been applied.
-/

namespace DistributedKv

open Crash

variable {σ : Type} {env : Env σ} {i : Input} {r₀ r r' : Raft σ}

/-- The log reaches beyond everything applied or being applied. -/
structure Raft.Supplied (r : Raft σ) : Prop extends r.WellFormed where
  boundary_le : r.snapshotMeta.lastIncludedIndex ≤ r.lastApplied
  applied_le : r.lastApplied ≤ r.commitIndex
  logged : r.lastApplied ≤ r.lastLogIndexLocked
  phase : ∀ e, r.apply.inHand = some e →
    e.index ≤ r.commitIndex ∧ e.index ≤ r.lastLogIndexLocked ∧ e.index ≤ r.lastApplied + 1

/-- A change of the log that keeps what is committed. -/
theorem Raft.Supplied.relog (h : r.Supplied) (hwf : r'.WellFormed)
    (hmeta : r'.snapshotMeta = r.snapshotMeta) (happlied : r'.lastApplied = r.lastApplied)
    (hcommit : r'.commitIndex = r.commitIndex)
    (happly : r'.apply = r.apply)
    (hlast : ∀ index, index ≤ r.commitIndex → index ≤ r.lastLogIndexLocked →
      index ≤ r'.lastLogIndexLocked) : r'.Supplied where
  toWellFormed := hwf
  boundary_le := by rw [hmeta, happlied]; exact h.boundary_le
  applied_le := by rw [happlied, hcommit]; exact h.applied_le
  logged := by rw [happlied]; exact hlast _ h.applied_le h.logged
  phase e he := by
    obtain ⟨hc, hl, hn⟩ := h.phase e (happly ▸ he)
    rw [happlied, hcommit]
    exact ⟨hc, hlast _ hc hl, hn⟩

/-- A larger commit index. -/
theorem Raft.Supplied.commit (h : r.Supplied) {index : Nat} (hle : r.commitIndex ≤ index)
    (hwf : { r with commitIndex := index }.WellFormed) :
    { r with commitIndex := index }.Supplied where
  toWellFormed := hwf
  boundary_le := h.boundary_le
  applied_le := h.applied_le.trans hle
  logged := h.logged
  phase e he := by
    obtain ⟨hc, hrest⟩ := h.phase e he
    exact ⟨hc.trans hle, hrest⟩

theorem Effect.supplied (he : Effect env r₀ i r r') (h : r.Supplied) : r'.Supplied := by
  have hwf := he.wellFormed h.toWellFormed
  have hlast := hwf.lastLogIndexLocked_eq
  have hold := h.toWellFormed.lastLogIndexLocked_eq
  cases he with
  | raise | follow | stand | vote | count | retire | restore | backUp | recordAppend
  | recordInstall =>
    exact ⟨hwf, h.boundary_le, h.applied_le, h.logged, h.phase⟩
  | selectFailed | applyFailed | checkpointFailed | abandon | begin | save =>
    exact ⟨hwf, h.boundary_le, h.applied_le, h.logged, fun _ he => by cases he⟩
  | applyNoop _ entry hsel | applyDone _ entry _ _ hsel =>
    refine ⟨hwf, h.boundary_le, h.applied_le, h.logged, ?_⟩
    rintro _ ⟨⟩
    exact h.phase entry (by rw [hsel]; rfl)
  | lead | propose =>
    refine h.relog hwf rfl rfl rfl rfl fun index _ hle => ?_
    rw [hlast]
    simp only [Raft.led, Raft.proposed, List.length_append]
    omega
  | cut _ req truncateFrom entries l _ hm hplan hl =>
    refine h.relog hwf rfl rfl rfl rfl fun index hc hle => ?_
    rw [hlast]
    exact h.toWellFormed.le_cut hm hplan hl hc hle
  | merge _ req truncateFrom entries l _ hm hplan hl =>
    refine h.relog hwf rfl rfl rfl rfl fun index hc hle => ?_
    have := h.toWellFormed.le_cut hm hplan hl hc hle
    rw [hlast]
    simp only [List.length_append]
    omega
  | followCommit _ req hlt => exact h.commit hlt.le hwf
  | advance _ peer req resp index _ hc => exact h.commit (commitCandidate_some hc).1.le hwf
  | install _ req hu hi =>
    have habove := hi.above
    have hreach : req.lastIncludedIndex ≤ (r.installed req).lastLogIndexLocked := by
      rw [hlast]
      exact Nat.le_add_right _ _
    refine ⟨hwf, le_max_right _ _,
      max_le (h.applied_le.trans (le_max_left _ _)) (le_max_right _ _), ?_, fun e he => ?_⟩
    · exact max_le (habove.le.trans hreach) hreach
    · obtain ⟨hc, -, hn⟩ := h.phase e he
      have hle : e.index ≤ req.lastIncludedIndex := by omega
      exact ⟨hc.trans (le_max_left _ _), hle.trans hreach,
        (hle.trans (le_max_right _ _)).trans (Nat.le_succ _)⟩
  | select _ entry _ hlt hentry =>
    refine ⟨hwf, h.boundary_le, h.applied_le, h.logged, ?_⟩
    rintro _ ⟨⟩
    obtain ⟨hmem, hidx⟩ := h.toWellFormed.mem_of_entryAtLocked hentry
    have := (h.indexed.mem hmem).2
    change entry.index ≤ r.commitIndex ∧ entry.index ≤ r.lastLogIndexLocked ∧
      entry.index ≤ r.lastApplied + 1
    omega
  | checkpoint _ entry happlied hnext =>
    obtain ⟨hc, hl, -⟩ := h.phase entry (by rw [happlied]; rfl)
    obtain ⟨_, _, -, -, heq⟩ := r.checkpointed_eq entry
    rw [heq] at hwf ⊢
    have hb := h.boundary_le
    exact ⟨hwf, hb.trans (by change r.lastApplied ≤ entry.index; omega), hc, hl,
      fun _ he => by cases he⟩
  | stop _ err =>
    obtain ⟨_, _, _, -, -, heq⟩ := r.stopped_eq err
    rw [heq] at hwf ⊢
    exact ⟨hwf, h.boundary_le, h.applied_le, h.logged, fun _ he => by cases he⟩
  | compact _ b suffix _ hb hs =>
    refine ⟨hwf, hb.ge, h.applied_le, ?_, fun _ he => (by cases he)⟩
    have hlen := h.toWellFormed.entriesFromLocked_length hs
    have := h.logged
    rw [hlast]
    change r.lastApplied ≤ b.lastIncludedIndex + suffix.length
    omega

theorem Effects.supplied (he : Effects env r i r') (h : r.Supplied) : r'.Supplied := by
  induction he with
  | refl => exact h
  | tail _ he ih => exact he.supplied ih

theorem Starts.supplied {s : StableState} {d : Disk} (h : Starts env s (.ok r) d) :
    r.Supplied := by
  obtain ⟨-, hfresh, hwf, hord⟩ := h.2 r rfl
  refine ⟨hwf, hord.boundary_le, hord.applied_le, hord.applied_le.trans hord.commit_le, ?_⟩
  intro e he
  rw [hfresh.apply] at he
  cases he

end DistributedKv
