import DistributedKv.Cluster.Model
import DistributedKv.Lib.Run
import DistributedKv.Raft.WellFormed

/-!
The representation invariant of a running node: the snapshot boundary, the two
indexes and the end of the log stay in this order, whatever the stores answer
and whatever votes, entries and responses arrive. Only an installed snapshot has
to agree with the local log where that is already committed.
-/

namespace DistributedKv

open Crash

variable {σ : Type} {env : Env σ} {i : Input} {r₀ r r' : Raft σ}

/-- Below the commit index, an installed snapshot has the term of the local entry. -/
def Raft.Agreeing (r : Raft σ) : Input → Prop
  | .installRequest req => req.lastIncludedIndex ≤ r.commitIndex →
      ∀ term, r.termAtLocked req.lastIncludedIndex = some term → term = req.lastIncludedTerm
  | _ => True

/-- The entry in the hands of the apply goroutine is committed. -/
def ApplyPhase.Within (commitIndex : Nat) : ApplyPhase → Prop
  | .selected entry => entry.index ≤ commitIndex
  | .applied entry => entry.index ≤ commitIndex
  | _ => True

theorem ApplyPhase.Within.mono {c c' : Nat} {phase : ApplyPhase} (h : phase.Within c)
    (hle : c ≤ c') : phase.Within c' := by
  cases phase with
  | selected entry => exact Nat.le_trans h hle
  | applied entry => exact Nat.le_trans h hle
  | _ => trivial

/-- What every step keeps. -/
structure Raft.Sound (r : Raft σ) : Prop extends r.WellFormed, r.Ordered where
  phase : r.apply.Within r.commitIndex

namespace Raft

theorem WellFormed.entryAtLocked_isSome (h : r.WellFormed) {index : Nat}
    (hb : r.snapshotMeta.lastIncludedIndex < index) (hl : index ≤ r.lastLogIndexLocked) :
    ∃ e, r.entryAtLocked index = some e := by
  have heq := h.shape.entryAtLocked_eq index
  have hlen : r.lastLogIndexLocked = (WellFormed.padded r).history.length :=
    h.shape.lastLogIndexLocked_eq
  rw [if_pos (show (WellFormed.padded r).snapshotMeta.lastIncludedIndex < index from hb),
    List.getElem?_eq_getElem (show index - 1 < _ by omega)] at heq
  exact ⟨_, heq⟩

theorem WellFormed.termAtLocked_isSome (h : r.WellFormed) {index : Nat}
    (hb : r.snapshotMeta.lastIncludedIndex ≤ index) (hl : index ≤ r.lastLogIndexLocked) :
    ∃ term, r.termAtLocked index = some term := by
  unfold termAtLocked
  split
  · exact ⟨_, rfl⟩
  · obtain ⟨e, he⟩ := h.entryAtLocked_isSome (Nat.lt_of_le_of_ne hb (Ne.symm ‹_›)) hl
    rw [he]
    exact ⟨_, rfl⟩

/-- The suffix above an index of the log reaches as far as the log. -/
theorem WellFormed.entriesFromLocked_length (h : r.WellFormed) {index : Nat}
    {es : List LogEntry} (hes : r.entriesFromLocked (index + 1) = some es) :
    index + es.length = r.lastLogIndexLocked := by
  have heq := h.shape.entriesFromLocked_eq (index + 1)
  have hlen : r.lastLogIndexLocked = (WellFormed.padded r).history.length :=
    h.shape.lastLogIndexLocked_eq
  rw [show (WellFormed.padded r).entriesFromLocked (index + 1) = some es from hes] at heq
  split at heq
  · obtain rfl := Option.some.inj heq
    rw [List.length_drop]
    omega
  · cases heq

theorem WellFormed.entriesFromLocked_isSome (h : r.WellFormed) {index : Nat}
    (hb : r.snapshotMeta.lastIncludedIndex ≤ index) (hl : index ≤ r.lastLogIndexLocked) :
    ∃ es, r.entriesFromLocked (index + 1) = some es := by
  have hlen : r.lastLogIndexLocked = (WellFormed.padded r).history.length :=
    h.shape.lastLogIndexLocked_eq
  have heq := h.shape.entriesFromLocked_eq (index + 1)
  rw [if_pos ⟨Nat.lt_succ_of_le hb, by omega⟩] at heq
  exact ⟨_, heq⟩

/-- What a replication plan leaves of the log reaches as far as both the log and
the commit index did. -/
theorem WellFormed.le_cut (h : r.WellFormed) {req : AppendEntriesRequest} {truncateFrom : Nat}
    {entries l : List LogEntry}
    (hm : r.matchesPrefixLocked req.prevLogIndex req.prevLogTerm = true)
    (hplan : r.replicationPlanLocked req.prevLogIndex req.entries = .ok (truncateFrom, entries))
    (hl : r.cutAt truncateFrom = some l) {index : Nat} (hcommit : index ≤ r.commitIndex)
    (hlast : index ≤ r.lastLogIndexLocked) :
    index ≤ r.snapshotMeta.lastIncludedIndex + l.length := by
  obtain ⟨hpre, -, hkeep, -⟩ := h.cutAt_ok hm hplan hl
  rcases Nat.lt_or_ge r.snapshotMeta.lastIncludedIndex index with hlt | hge
  · obtain ⟨e, he⟩ := h.entryAtLocked_isSome hlt hlast
    obtain ⟨hmem, hidx⟩ := h.mem_of_entryAtLocked he
    have hin := hkeep e hmem (hidx.trans_le hcommit)
    have := ((h.indexed.of_isPrefix hpre).mem hin).2
    omega
  · omega

/-- An installed snapshot covers what is committed, or keeps the log above it. -/
theorem Sound.installed_commit_le (h : r.Sound) {req : InstallSnapshotRequest}
    (hi : r.Installs req) (ha : r.Agreeing (.installRequest req))
    (hwf : (r.installed req).WellFormed) :
    max r.commitIndex req.lastIncludedIndex ≤ (r.installed req).lastLogIndexLocked := by
  have hlast := hwf.lastLogIndexLocked_eq
  change _ = req.lastIncludedIndex + _ at hlast
  rcases Nat.lt_or_ge r.commitIndex req.lastIncludedIndex with hlt | hge
  · omega
  have hlow : r.snapshotMeta.lastIncludedIndex ≤ req.lastIncludedIndex :=
    h.boundary_le.trans hi.above.le
  have hhigh : req.lastIncludedIndex ≤ r.lastLogIndexLocked := hge.trans h.commit_le
  obtain ⟨term, hterm⟩ := h.toWellFormed.termAtLocked_isSome hlow hhigh
  obtain ⟨es, hes⟩ := h.toWellFormed.entriesFromLocked_isSome hlow hhigh
  have hretained : r.retainedSuffix req.lastIncludedIndex req.lastIncludedTerm = some es := by
    unfold retainedSuffix
    rw [hterm]
    dsimp only
    rw [if_pos (ha hge term hterm), hes]
  have hlen := h.toWellFormed.entriesFromLocked_length hes
  have hlog : (r.installed req).log = es := by rw [installed, hretained, Option.getD_some]
  rw [hlog] at hlast
  have := h.commit_le
  omega

end Raft

theorem Raft.Agreeing.congr {req : InstallSnapshotRequest} (h : r₀.Agreeing (.installRequest req))
    (hu : r₀.Unmoved r) : r.Agreeing (.installRequest req) := by
  intro hle term hterm
  refine h (hu.commitIndex ▸ hle) term ?_
  rw [← hterm]
  unfold termAtLocked
  rw [entryAtLocked_congr hu.log hu.snapshotMeta, hu.snapshotMeta]

theorem Effect.sound (he : Effect env r₀ i r r') (ha : r₀.Agreeing i) (h : r.Sound) :
    r'.Sound := by
  have hwf := he.wellFormed h.toWellFormed
  have hlast := hwf.lastLogIndexLocked_eq
  have hold := h.toWellFormed.lastLogIndexLocked_eq
  have hcommit := h.commit_le
  cases he with
  | raise | follow | stand | vote | count | retire | restore | backUp | recordAppend
  | recordInstall =>
    exact ⟨hwf, ⟨h.boundary_le, h.applied_le, h.commit_le⟩, h.phase⟩
  | selectFailed | applyFailed | checkpointFailed | abandon | begin | save =>
    exact ⟨hwf, ⟨h.boundary_le, h.applied_le, h.commit_le⟩, trivial⟩
  | applyNoop _ entry hsel | applyDone _ entry _ _ hsel =>
    have hphase := h.phase
    rw [hsel] at hphase
    exact ⟨hwf, ⟨h.boundary_le, h.applied_le, h.commit_le⟩, hphase⟩
  | lead | propose =>
    refine ⟨hwf, ⟨h.boundary_le, h.applied_le, ?_⟩, h.phase⟩
    rw [hlast]
    simp only [Raft.led, Raft.proposed, List.length_append]
    omega
  | cut _ req truncateFrom entries l _ hm hplan hl =>
    refine ⟨hwf, ⟨h.boundary_le, h.applied_le, ?_⟩, h.phase⟩
    rw [hlast]
    exact h.toWellFormed.le_cut hm hplan hl le_rfl h.commit_le
  | merge _ req truncateFrom entries l _ hm hplan hl =>
    refine ⟨hwf, ⟨h.boundary_le, h.applied_le, ?_⟩, h.phase⟩
    have := h.toWellFormed.le_cut hm hplan hl le_rfl h.commit_le
    rw [hlast]
    simp only [List.length_append]
    omega
  | followCommit _ req hlt =>
    exact ⟨hwf, ⟨h.boundary_le, h.applied_le.trans hlt.le, Nat.min_le_right _ _⟩,
      h.phase.mono hlt.le⟩
  | advance _ peer req resp index _ hc =>
    obtain ⟨hlt, hle, -⟩ := commitCandidate_some hc
    exact ⟨hwf, ⟨h.boundary_le, h.applied_le.trans hlt.le, hle⟩, h.phase.mono hlt.le⟩
  | install _ req hu hi =>
    refine ⟨hwf, ⟨Nat.le_max_right _ _, ?_, h.installed_commit_le hi (ha.congr hu) hwf⟩,
      h.phase.mono (Nat.le_max_left _ _)⟩
    exact Nat.max_le.mpr ⟨h.applied_le.trans (Nat.le_max_left _ _), Nat.le_max_right _ _⟩
  | select _ entry _ hlt hentry =>
    refine ⟨hwf, ⟨h.boundary_le, h.applied_le, h.commit_le⟩, ?_⟩
    have := (h.toWellFormed.mem_of_entryAtLocked hentry).2
    change entry.index ≤ r.commitIndex
    omega
  | checkpoint _ entry happlied hnext =>
    have hphase := h.phase
    rw [happlied] at hphase
    obtain ⟨_, _, -, -, heq⟩ := r.checkpointed_eq entry
    rw [heq] at hwf ⊢
    exact ⟨hwf, ⟨h.boundary_le.trans (by change _ ≤ entry.index; omega), hphase, h.commit_le⟩,
      trivial⟩
  | stop _ err =>
    obtain ⟨_, _, _, -, -, heq⟩ := r.stopped_eq err
    rw [heq] at hwf ⊢
    exact ⟨hwf, ⟨h.boundary_le, h.applied_le, h.commit_le⟩, trivial⟩
  | compact _ b suffix _ hb hs =>
    refine ⟨hwf, ⟨hb.ge, h.applied_le, ?_⟩, trivial⟩
    have := h.toWellFormed.entriesFromLocked_length hs
    rw [hlast]
    change r.commitIndex ≤ b.lastIncludedIndex + suffix.length
    omega

theorem Effects.sound (he : Effects env r i r') (ha : r.Agreeing i) (h : r.Sound) :
    r'.Sound := by
  induction he with
  | refl => exact h
  | tail _ he ih => exact he.sound ha ih

/-! ## The life of a node -/

/-- What the effects of permitted inputs keep holds as long as the node lives. -/
theorem live_invariant {P : Raft σ → Prop} {ok : Raft σ → Input → Prop} {r : Raft σ} {d : Disk}
    (hmaj : env.majority ≠ 1) (ha : Ahead r d.stable) (hr : P r)
    (hP : ∀ {r r' i}, Effects env r i r' → ok r i → P r → P r')
    {steps : List (Input × List Outcome)}
    (hok : ∀ k a, steps[k]? = some a → ∀ r' d', (live env r d (steps.take k)).process = .up r' d' →
      ok r' a.1) {r' : Raft σ} {d' : Disk} (hup : (live env r d steps).process = .up r' d') :
    Ahead r' d'.stable ∧ P r' := by
  refine live_induction (fun _ r d => Ahead r d.stable ∧ P r) (fun r _ a => ok r a.1) ⟨ha, hr⟩ ?_
    hok hup
  rintro _ r d a _ r' d' ⟨hahead, hP₁⟩ hoka hrun
  obtain ⟨heff, hahead', -⟩ := effects_of_done hmaj hahead hrun
  exact ⟨hahead', hP heff hoka hP₁⟩

/-- As long as a node lives, its boundary, its indexes and its log fit together,
so that every index it looks up is found and the distance from its boundary to
the last applied entry is no wrapped number. -/
theorem node_representation {answers : List Outcome} {d₀ d : Disk} {v : σ} {r : Raft σ}
    (hstart : start env answers d₀ = .done (.ok r) v d) {steps : List (Input × List Outcome)}
    (hagree : ∀ k a, steps[k]? = some a → ∀ r' d',
      (live env r d (steps.take k)).process = .up r' d' → r'.Agreeing a.1)
    {r' : Raft σ} {d' : Disk} (hup : (live env r d steps).process = .up r' d') :
    (r'.snapshotMeta.lastIncludedIndex ≤ r'.lastApplied ∧ r'.lastApplied ≤ r'.commitIndex ∧
      r'.commitIndex ≤ r'.lastLogIndexLocked) ∧
    (∀ e ∈ r'.log, e.Valid) ∧ Indexed r'.snapshotMeta.lastIncludedIndex r'.log ∧
    (∀ index, r'.snapshotMeta.lastIncludedIndex < index → index ≤ r'.lastLogIndexLocked →
      ∃ e, r'.entryAtLocked index = some e ∧ e.index = index) ∧
    (∀ index, r'.snapshotMeta.lastIncludedIndex ≤ index → index ≤ r'.lastLogIndexLocked →
      ∃ term, r'.termAtLocked index = some term) ∧
    uint64Sub r'.lastApplied r'.snapshotMeta.lastIncludedIndex =
      r'.lastApplied - r'.snapshotMeta.lastIncludedIndex := by
  have hstarts := start_done hstart
  obtain ⟨hcfg, hfresh, hwf, hord⟩ := hstarts.2 r rfl
  have hfirst : r.Sound := ⟨hwf, hord, by rw [hfresh.apply]; trivial⟩
  obtain ⟨-, h⟩ := live_invariant (Env.majority_gt_one hcfg).ne' hstarts.ahead hfirst
    (fun heff ha h => heff.sound ha h) hagree hup
  refine ⟨⟨h.boundary_le, h.applied_le, h.commit_le⟩, h.valid, h.indexed, fun index hb hl => ?_,
    fun index hb hl => h.toWellFormed.termAtLocked_isSome hb hl, if_pos h.boundary_le⟩
  obtain ⟨e, he⟩ := h.toWellFormed.entryAtLocked_isSome hb hl
  exact ⟨e, he, (h.toWellFormed.mem_of_entryAtLocked he).2⟩

/-- A follower gets two committed entries, applies the first, fails to store its
progress, and installs a snapshot through the first of them. -/
def snapshotLife : List (Input × List Outcome) :=
  [(.appendRequest ⟨1, 2, 0, 0, [noopEntry 1 1, noopEntry 2 1], 2⟩, []), (.applySelect, []),
    (.applyEntry, []), (.applyCheckpoint, [.fail "disk full"]),
    (.installRequest ⟨1, 2, 1, 1, Json.framed.marshal (some .empty), [noopEntry 1 1]⟩, [])]

theorem node_representation_snapshotLife :
    ∃ r d, start ((localCluster 1).env 1) [] Disk.empty = .done (.ok r) (.new 8) d ∧
      ∃ r' d', (live ((localCluster 1).env 1) r d snapshotLife).process = .up r' d' ∧
        r'.snapshotMeta = ⟨1, 1⟩ ∧ r'.snapshotMeta.lastIncludedIndex ≤ r'.lastApplied ∧
        r'.lastApplied ≤ r'.commitIndex ∧ r'.commitIndex ≤ r'.lastLogIndexLocked := by
  refine ⟨_, _, rfl, _, _, rfl, rfl, ?_⟩
  refine (@node_representation _ ((localCluster 1).env 1) [] Disk.empty _ _ _ rfl snapshotLife ?_
    _ _ rfl).1
  refine live_each ⟨fun _ _ _ => trivial, fun _ _ _ => trivial, fun _ _ _ => trivial,
    fun _ _ _ => trivial, ?_, trivial⟩
  rintro _ _ ⟨⟩ _ term hterm
  exact (Option.some.inj hterm).symm

end DistributedKv
