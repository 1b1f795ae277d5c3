import DistributedKv.Raft.Peer
import Mathlib.Order.Nat

/-!
Reading the compacted log is reading the uncompacted one: what
`lastLogIndexLocked`, `entryAtLocked`, `termAtLocked`, `entriesFromLocked` and
the checks built on them compute, in terms of `Raft.history`.
-/

namespace DistributedKv

/-! ## Uncompacted logs -/

@[simp] theorem termAt_zero (l : List LogEntry) : termAt l 0 = some 0 := rfl

theorem termAt_succ (l : List LogEntry) (k : Nat) :
    termAt l (k + 1) = l[k]?.map LogEntry.term := by simp [termAt]

theorem termAt_le_length {l : List LogEntry} {i t : Nat} (h : termAt l i = some t) :
    i ≤ l.length := by
  cases i with
  | zero => exact Nat.zero_le _
  | succ k =>
    rw [termAt_succ, Option.map_eq_some_iff] at h
    obtain ⟨e, he, _⟩ := h
    exact (List.getElem?_eq_some_iff.mp he).1

theorem termAt_length (l : List LogEntry) : termAt l l.length = some (lastTerm l) := by
  unfold lastTerm
  cases h : l.length with
  | zero => rw [List.length_eq_zero_iff] at h; subst h; rfl
  | succ k =>
    rw [termAt_succ, List.getLast?_eq_getElem?, h, Nat.add_sub_cancel]
    rw [List.getElem?_eq_getElem (by omega)]
    rfl

theorem termAt_append_left {l m : List LogEntry} {i : Nat} (h : i ≤ l.length) :
    termAt (l ++ m) i = termAt l i := by
  cases i with
  | zero => rfl
  | succ k => rw [termAt_succ, termAt_succ, List.getElem?_append_left (by omega)]

theorem termAt_of_isPrefix {l q : List LogEntry} (h : l <+: q) {i : Nat} (hi : i ≤ l.length) :
    termAt q i = termAt l i := by
  obtain ⟨m, rfl⟩ := h
  exact termAt_append_left hi

theorem lastTerm_take {l : List LogEntry} {i : Nat} (h : i ≤ l.length) :
    termAt l i = some (lastTerm (l.take i)) := by
  have hlen : (l.take i).length = i := by simp [h]
  have := termAt_length (l.take i)
  rwa [hlen, ← termAt_of_isPrefix (List.take_prefix i l) hlen.ge] at this

variable {σ : Type}

/-! ## What a node reads depends on its log, the boundary and the commit index -/

section Congr

variable {r r' : Raft σ} (hlog : r'.log = r.log) (hmeta : r'.snapshotMeta = r.snapshotMeta)

include hlog hmeta

theorem Raft.entryAtLocked_congr : r'.entryAtLocked = r.entryAtLocked := by
  funext index
  unfold entryAtLocked logOffsetLocked firstLogIndexLocked lastLogIndexLocked
  rw [hmeta, hlog]

theorem Raft.termAtLocked_congr : r'.termAtLocked = r.termAtLocked := by
  funext index
  unfold termAtLocked
  rw [entryAtLocked_congr hlog hmeta, hmeta]

theorem Raft.matchesPrefixLocked_congr : r'.matchesPrefixLocked = r.matchesPrefixLocked := by
  funext index term
  unfold matchesPrefixLocked
  rw [termAtLocked_congr hlog hmeta]

theorem Raft.retainedSuffix_congr (index term : Nat) :
    r'.retainedSuffix index term = r.retainedSuffix index term := by
  unfold retainedSuffix entriesFromLocked logOffsetLocked firstLogIndexLocked lastLogIndexLocked
  rw [termAtLocked_congr hlog hmeta, hmeta, hlog]

theorem Raft.replicationPlanFrom_congr (hcommit : r'.commitIndex = r.commitIndex)
    (prevLogIndex offset : Nat) (entries : List LogEntry) :
    r'.replicationPlanFrom prevLogIndex offset entries =
      r.replicationPlanFrom prevLogIndex offset entries := by
  have hlast : r'.lastLogIndexLocked = r.lastLogIndexLocked := by
    rw [lastLogIndexLocked, lastLogIndexLocked, hlog, hmeta]
  have hat := entryAtLocked_congr hlog hmeta
  induction entries generalizing offset with
  | nil => rfl
  | cons entry rest ih => simp only [replicationPlanFrom, hlast, hat, hcommit, ih]

end Congr

/-! ## The compacted log of a node -/

/-- The log continues the compacted prefix, and the boundary remembers the last
compacted entry. -/
structure Raft.Shape (r : Raft σ) : Prop where
  covered_length : r.covered.length = r.snapshotMeta.lastIncludedIndex
  boundary_term : r.snapshotMeta.lastIncludedTerm = lastTerm r.covered
  indexed : Indexed 0 r.history
  valid : ∀ e ∈ r.history, e.Valid

namespace Raft.Shape

variable {r : Raft σ} (h : r.Shape)

include h

theorem log_indexed : Indexed r.snapshotMeta.lastIncludedIndex r.log := by
  have := (Indexed.append.mp h.indexed).2
  rwa [Nat.zero_add, h.covered_length] at this

theorem log_valid : ∀ e ∈ r.log, e.Valid := fun e he => h.valid e (List.mem_append_right _ he)

theorem history_length : r.history.length = r.snapshotMeta.lastIncludedIndex + r.log.length := by
  rw [Raft.history, List.length_append, h.covered_length]

theorem lastLogIndexLocked_eq : r.lastLogIndexLocked = r.history.length := by
  rw [h.history_length, Raft.lastLogIndexLocked, lastLogIndexFor]
  cases hl : r.log.getLast? with
  | none => rw [List.getLast?_eq_none_iff.mp hl]; rfl
  | some e => exact h.log_indexed.getLast hl

theorem history_getElem? {k : Nat} (hk : r.snapshotMeta.lastIncludedIndex ≤ k) :
    r.history[k]? = r.log[k - r.snapshotMeta.lastIncludedIndex]? := by
  rw [Raft.history, List.getElem?_append_right (by rw [h.covered_length]; exact hk),
    h.covered_length]

theorem history_take {k : Nat} (hk : r.snapshotMeta.lastIncludedIndex ≤ k) :
    r.history.take k = r.covered ++ r.log.take (k - r.snapshotMeta.lastIncludedIndex) := by
  have hcov : r.covered.take k = r.covered :=
    List.take_of_length_le (by rw [h.covered_length]; exact hk)
  rw [Raft.history, List.take_append, h.covered_length, hcov]

theorem history_drop {k : Nat} (hk : r.snapshotMeta.lastIncludedIndex ≤ k) :
    r.history.drop k = r.log.drop (k - r.snapshotMeta.lastIncludedIndex) := by
  have hcov : r.covered.drop k = [] :=
    List.drop_eq_nil_of_le (by rw [h.covered_length]; exact hk)
  rw [Raft.history, List.drop_append, h.covered_length, hcov, List.nil_append]

theorem logOffsetLocked_eq (index : Nat) :
    r.logOffsetLocked index =
      if r.snapshotMeta.lastIncludedIndex < index ∧ index ≤ r.history.length then
        some (index - (r.snapshotMeta.lastIncludedIndex + 1))
      else none := by
  unfold Raft.logOffsetLocked Raft.firstLogIndexLocked
  rw [h.lastLogIndexLocked_eq]
  by_cases hr : r.snapshotMeta.lastIncludedIndex < index ∧ index ≤ r.history.length
  · have hout : ¬ (index < r.snapshotMeta.lastIncludedIndex + 1 ∨ index > r.history.length) := by
      omega
    have hlt : index - (r.snapshotMeta.lastIncludedIndex + 1) < r.log.length := by
      have := h.history_length
      omega
    have hidx := h.log_indexed _ _ (List.getElem?_eq_getElem hlt)
    have heq : r.log[index - (r.snapshotMeta.lastIncludedIndex + 1)].index = index := by omega
    simp only [hout, ↓reduceIte, hr, and_self, List.getElem?_eq_getElem hlt, ne_eq, heq,
      not_true_eq_false]
  · have hout : index < r.snapshotMeta.lastIncludedIndex + 1 ∨ index > r.history.length := by omega
    rw [if_pos hout, if_neg hr]

theorem entryAtLocked_eq (index : Nat) :
    r.entryAtLocked index =
      if r.snapshotMeta.lastIncludedIndex < index then r.history[index - 1]? else none := by
  unfold Raft.entryAtLocked
  rw [h.logOffsetLocked_eq]
  by_cases hb : r.snapshotMeta.lastIncludedIndex < index
  · rw [if_pos hb, h.history_getElem? (by omega)]
    by_cases hl : index ≤ r.history.length
    · simp only [hb, hl, and_self, ↓reduceIte]
      congr 1
      omega
    · simp only [hl, and_false, ↓reduceIte]
      have := h.history_length
      rw [List.getElem?_eq_none (by omega)]
  · rw [if_neg hb, if_neg (fun hc => hb hc.1)]

theorem getElem?_of_entryAtLocked {index : Nat} {e : LogEntry} (he : r.entryAtLocked index = some e) :
    r.snapshotMeta.lastIncludedIndex < index ∧ r.history[index - 1]? = some e := by
  rw [h.entryAtLocked_eq] at he
  split at he
  · exact ⟨‹_›, he⟩
  · cases he

theorem termAtLocked_eq (index : Nat) :
    r.termAtLocked index =
      if r.snapshotMeta.lastIncludedIndex ≤ index then termAt r.history index else none := by
  unfold Raft.termAtLocked
  rw [h.entryAtLocked_eq]
  by_cases heq : index = r.snapshotMeta.lastIncludedIndex
  · subst heq
    rw [if_pos rfl, if_pos le_rfl, h.boundary_term, Raft.history,
      termAt_append_left h.covered_length.ge, ← h.covered_length, termAt_length]
  · rw [if_neg heq]
    by_cases hb : r.snapshotMeta.lastIncludedIndex < index
    · obtain ⟨k, rfl⟩ : ∃ k, index = k + 1 := ⟨index - 1, by omega⟩
      rw [if_pos hb, if_pos hb.le, termAt_succ, Nat.add_sub_cancel]
      cases r.history[k]? <;> rfl
    · rw [if_neg hb, if_neg (by omega)]

theorem termAt_of_termAtLocked {index t : Nat} (ht : r.termAtLocked index = some t) :
    r.snapshotMeta.lastIncludedIndex ≤ index ∧ termAt r.history index = some t := by
  rw [h.termAtLocked_eq] at ht
  split at ht
  · exact ⟨‹_›, ht⟩
  · cases ht

theorem entriesFromLocked_eq (index : Nat) :
    r.entriesFromLocked index =
      if r.snapshotMeta.lastIncludedIndex < index ∧ index ≤ r.history.length + 1 then
        some (r.history.drop (index - 1))
      else none := by
  unfold Raft.entriesFromLocked Raft.firstLogIndexLocked
  rw [h.lastLogIndexLocked_eq, h.logOffsetLocked_eq]
  have hlen := h.history_length
  by_cases hr : r.snapshotMeta.lastIncludedIndex < index ∧ index ≤ r.history.length + 1
  · have hout : ¬ (index < r.snapshotMeta.lastIncludedIndex + 1 ∨
        index > r.history.length + 1) := by omega
    rw [if_neg hout, if_pos hr]
    by_cases hlast : index = r.history.length + 1
    · rw [if_pos hlast, hlast, Nat.add_sub_cancel, List.drop_length]
    · rw [if_neg hlast]
      have hin : r.snapshotMeta.lastIncludedIndex < index ∧ index ≤ r.history.length := by omega
      simp only [hin, and_self, ↓reduceIte, Option.some.injEq]
      rw [h.history_drop (by omega)]
      congr 1
      omega
  · rw [if_neg hr, if_pos (by omega)]

theorem lastLogInfoLocked_eq :
    r.lastLogInfoLocked = (r.history.length, lastTerm r.history) := by
  unfold Raft.lastLogInfoLocked
  rw [h.lastLogIndexLocked_eq, h.termAtLocked_eq, if_pos (by have := h.history_length; omega),
    termAt_length]
  rfl

theorem matchesPrefixLocked_iff (index term : Nat) :
    r.matchesPrefixLocked index term = true ↔
      r.snapshotMeta.lastIncludedIndex ≤ index ∧ termAt r.history index = some term := by
  unfold Raft.matchesPrefixLocked
  rw [h.termAtLocked_eq]
  by_cases hb : r.snapshotMeta.lastIncludedIndex ≤ index
  · rw [if_pos hb]
    cases termAt r.history index <;> simp [hb]
  · simp [hb]

theorem candidateLogIsUpToDateLocked_iff (index term : Nat) :
    r.candidateLogIsUpToDateLocked index term = true ↔
      lastTerm r.history < term ∨ term = lastTerm r.history ∧ r.history.length ≤ index := by
  unfold Raft.candidateLogIsUpToDateLocked
  rw [h.lastLogInfoLocked_eq]
  by_cases ht : term = lastTerm r.history
  · simp [ht]
  · simp [ht]

end Raft.Shape

end DistributedKv
