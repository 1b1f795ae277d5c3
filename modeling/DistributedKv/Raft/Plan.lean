import DistributedKv.Raft.FileLog
import DistributedKv.Raft.Immutable

/-!
Replication plans (`replicationPlanLocked` of `internal/raft/raft.go`) against a
reference merge of the old log and the request: whatever the plan, what it keeps
of the log followed by what it appends is the merge (`Planned.merge_eq`).
-/

namespace DistributedKv

variable {σ : Type}

/-! ## The reference merge -/

/-- The log if it has every entry; otherwise the log cut before the first entry
that it does not have, and the entries from there on. -/
def mergeEntries (log entries : List LogEntry) : List LogEntry :=
  match entries.dropWhile (· ∈ log) with
  | [] => log
  | e :: rest => log.takeWhile (fun x => x.index < e.index) ++ e :: rest

theorem Indexed.eq_of_mem {b : Nat} {l : List LogEntry} (h : Indexed b l) {x y : LogEntry}
    (hx : x ∈ l) (hy : y ∈ l) (heq : x.index = y.index) : x = y := by
  obtain ⟨j, hj, rfl⟩ := List.getElem_of_mem hx
  obtain ⟨k, hk, rfl⟩ := List.getElem_of_mem hy
  have hx := h j _ (List.getElem?_eq_getElem hj)
  have hy := h k _ (List.getElem?_eq_getElem hk)
  obtain rfl : j = k := by omega
  rfl

/-- Cutting and extending in the order of the indexes. -/
theorem Indexed.splice {b : Nat} {l es : List LogEntry} (h : Indexed b l) {index : Nat}
    (hb : b < index) (hle : index ≤ b + l.length + 1) (hes : Indexed (index - 1) es) :
    Indexed b (l.takeWhile (fun x => x.index < index) ++ es) := by
  rw [LogStore.takeWhile_indexed h, Indexed.append]
  refine ⟨h.take _, ?_⟩
  rw [List.length_take, Nat.min_eq_left (by omega)]
  have : b + (index - b - 1) = index - 1 := by omega
  rwa [this]

namespace Raft

variable {r : Raft σ} {b : Nat}

/-- What is found at an index is the entry of the log that carries it. -/
theorem entryAtLocked_mem (h : Indexed r.snapshotMeta.lastIncludedIndex r.log) {index : Nat}
    {e : LogEntry} : r.entryAtLocked index = some e ↔ e ∈ r.log ∧ e.index = index := by
  have hlast := r.lastLogIndexLocked_of_indexed rfl h
  constructor
  · intro hat
    unfold entryAtLocked at hat
    split at hat
    · cases hat
    · rename_i offset hoffset
      obtain ⟨rfl, hlt, -⟩ := logOffsetLocked_some hoffset
      have := h _ _ hat
      exact ⟨List.mem_of_getElem? hat, by omega⟩
  · rintro ⟨he, rfl⟩
    obtain ⟨k, hk, rfl⟩ := List.getElem_of_mem he
    have hget := List.getElem?_eq_getElem hk
    have hindex := h k _ hget
    have hout : ¬ (r.log[k].index < r.snapshotMeta.lastIncludedIndex + 1 ∨
        r.log[k].index > r.snapshotMeta.lastIncludedIndex + r.log.length) := by omega
    have hk' : r.log[k].index - (r.snapshotMeta.lastIncludedIndex + 1) = k := by omega
    simp only [entryAtLocked, logOffsetLocked, firstLogIndexLocked, hlast, if_neg hout, hk', hget,
      ne_eq, not_true_eq_false, ↓reduceIte]

theorem entryAtLocked_none (h : Indexed r.snapshotMeta.lastIncludedIndex r.log) {index : Nat}
    (hlt : r.snapshotMeta.lastIncludedIndex < index) (hle : index ≤ r.lastLogIndexLocked) :
    r.entryAtLocked index ≠ none := by
  rw [r.lastLogIndexLocked_of_indexed rfl h] at hle
  have hk : index - r.snapshotMeta.lastIncludedIndex - 1 < r.log.length := by omega
  have hindex := h _ _ (List.getElem?_eq_getElem hk)
  have hat := (entryAtLocked_mem h).mpr ⟨List.getElem_mem hk, rfl⟩
  rw [show index = r.log[index - r.snapshotMeta.lastIncludedIndex - 1].index by omega, hat]
  simp

theorem logOffsetLocked_eq (h : Indexed r.snapshotMeta.lastIncludedIndex r.log) {index : Nat}
    (hlt : r.snapshotMeta.lastIncludedIndex < index) (hle : index ≤ r.lastLogIndexLocked) :
    r.logOffsetLocked index = some (index - r.snapshotMeta.lastIncludedIndex - 1) := by
  cases hcase : r.logOffsetLocked index with
  | none =>
    have hfound := entryAtLocked_none h hlt hle
    rw [entryAtLocked, hcase] at hfound
    exact absurd rfl hfound
  | some offset => rw [(logOffsetLocked_some hcase).1]

/-- What a plan says about the entries of a request after `first`: those that the
log has are passed over, and the first new one lies behind the log or in the
place of an uncommitted entry. -/
structure Planned (r : Raft σ) (first : Nat) (entries : List LogEntry) (truncateFrom : Nat)
    (new : List LogEntry) : Prop where
  new_eq : entries.dropWhile (· ∈ r.log) = new
  indexed : Indexed first (entries.takeWhile (· ∈ r.log))
  valid : ∀ e ∈ entries.takeWhile (· ∈ r.log), e.Valid
  next : ∀ e ∈ new.head?, e.index = first + (entries.takeWhile (· ∈ r.log)).length + 1 ∧
    (truncateFrom = 0 ∧ e.index = r.lastLogIndexLocked + 1 ∨
      truncateFrom = e.index ∧ r.commitIndex < e.index ∧ e.index ≤ r.lastLogIndexLocked ∧
        r.snapshotMeta.lastIncludedIndex < e.index)
  done : new = [] → truncateFrom = 0

/-- What a plan cuts off lies in the log, above its boundary. -/
theorem Planned.truncates {first truncateFrom : Nat} {entries new : List LogEntry}
    (h : r.Planned first entries truncateFrom new) (hzero : truncateFrom ≠ 0) :
    truncateFrom ≤ r.lastLogIndexLocked ∧ r.snapshotMeta.lastIncludedIndex < truncateFrom := by
  obtain ⟨e, rest, rfl⟩ := List.exists_cons_of_ne_nil fun hnil => hzero (h.done hnil)
  obtain ⟨-, ⟨hcon, -⟩ | ⟨rfl, -, hrange⟩⟩ := h.next e rfl
  · exact absurd hcon hzero
  · exact hrange

/-- An entry that the log does not have ends the plan. -/
theorem Planned.stop {first truncateFrom : Nat} {entry : LogEntry} {rest : List LogEntry}
    (hmem : entry ∉ r.log) (hindex : entry.index = first + 1)
    (hcase : truncateFrom = 0 ∧ entry.index = r.lastLogIndexLocked + 1 ∨
      truncateFrom = entry.index ∧ r.commitIndex < entry.index ∧
        entry.index ≤ r.lastLogIndexLocked ∧ r.snapshotMeta.lastIncludedIndex < entry.index) :
    r.Planned first (entry :: rest) truncateFrom (entry :: rest) := by
  have htake : (entry :: rest).takeWhile (· ∈ r.log) = [] :=
    List.takeWhile_cons_of_neg (by simpa using hmem)
  refine ⟨List.dropWhile_cons_of_neg (by simpa using hmem), ?_, ?_, ?_, fun hnil => by cases hnil⟩
  · rw [htake]
    exact Indexed.nil _
  · rw [htake]
    simp
  · rw [htake]
    intro e he
    obtain rfl := Option.some.inj he
    exact ⟨hindex, hcase⟩

/-- An entry that the log has is passed over. -/
theorem Planned.pass {first truncateFrom : Nat} {entry : LogEntry} {rest new : List LogEntry}
    (hmem : entry ∈ r.log) (hvalid : entry.Valid) (hindex : entry.index = first + 1)
    (h : r.Planned (first + 1) rest truncateFrom new) :
    r.Planned first (entry :: rest) truncateFrom new := by
  have htake : (entry :: rest).takeWhile (· ∈ r.log) = entry :: rest.takeWhile (· ∈ r.log) :=
    List.takeWhile_cons_of_pos (by simpa using hmem)
  obtain ⟨hnew, hidx, hval, hnext, hdone⟩ := h
  refine ⟨?_, ?_, ?_, fun e he => ?_, hdone⟩
  · rw [List.dropWhile_cons_of_pos (by simpa using hmem)]
    exact hnew
  · rw [htake, Indexed.cons]
    exact ⟨hindex, hidx⟩
  · rw [htake, List.forall_mem_cons]
    exact ⟨hvalid, hval⟩
  · rw [htake, List.length_cons]
    obtain ⟨hplace, hcase⟩ := hnext e he
    exact ⟨by omega, hcase⟩

theorem replicationPlanFrom_planned (h : Indexed r.snapshotMeta.lastIncludedIndex r.log)
    {prevLogIndex offset truncateFrom : Nat} {entries new : List LogEntry}
    (hplan : r.replicationPlanFrom prevLogIndex offset entries = .ok (truncateFrom, new)) :
    r.Planned (prevLogIndex + offset) entries truncateFrom new := by
  induction entries generalizing offset with
  | nil =>
    obtain ⟨rfl, rfl⟩ := Prod.mk.inj (Except.ok.inj hplan)
    exact ⟨rfl, Indexed.nil _, by simp, by simp, fun _ => rfl⟩
  | cons entry rest ih =>
    obtain ⟨hvalid, hindex, hstep⟩ := r.planStep_of_replicationPlanFrom hplan
    cases hstep with
    | present hat hrest =>
      exact .pass ((entryAtLocked_mem h).mp hat).1 hvalid hindex (ih hrest)
    | replace existing hat hterm hle hcommit =>
      obtain ⟨hmem, hat'⟩ := (entryAtLocked_mem h).mp hat
      have hin := h.mem hmem
      refine .stop (fun hcon => hterm ?_) hindex (.inr ⟨rfl, by omega⟩)
      rw [h.eq_of_mem hmem hcon hat']
    | extend hnext =>
      refine .stop (fun hcon => ?_) hindex (.inl ⟨rfl, hnext⟩)
      have hin := h.mem hcon
      rw [r.lastLogIndexLocked_of_indexed rfl h] at hnext
      omega

/-- A request that the log has already leaves nothing to do. -/
theorem replicationPlanFrom_present (h : Indexed r.snapshotMeta.lastIncludedIndex r.log)
    {prevLogIndex offset : Nat} {entries : List LogEntry}
    (hidx : Indexed (prevLogIndex + offset) entries) (hvalid : ∀ e ∈ entries, e.Valid) (hmem : ∀ e ∈ entries, e ∈ r.log) :
    r.replicationPlanFrom prevLogIndex offset entries = .ok (0, []) := by
  induction entries generalizing offset with
  | nil => rfl
  | cons entry rest ih =>
    rw [List.forall_mem_cons] at hvalid hmem
    obtain ⟨hindex, hrest⟩ := Indexed.cons.mp hidx
    have hle : entry.index ≤ r.lastLogIndexLocked := by
      rw [r.lastLogIndexLocked_of_indexed rfl h]
      exact (h.mem hmem.1).2
    have hat : r.entryAtLocked entry.index = some entry := (entryAtLocked_mem h).mpr ⟨hmem.1, rfl⟩
    have hval : entry.validate = .ok () := hvalid.1
    simp only [replicationPlanFrom, hval, ne_eq, hindex, not_true_eq_false, ↓reduceIte]
    rw [hindex] at hle hat
    simp only [hle, hat, ↓reduceIte]
    exact ih hrest hvalid.2 hmem.2

end Raft

/-! ## What a plan leaves -/

theorem Indexed.mem_takeWhile {b : Nat} {l : List LogEntry} (h : Indexed b l) {index : Nat}
    {e : LogEntry} (he : e ∈ l) (hlt : e.index < index) :
    e ∈ l.takeWhile fun x => x.index < index := by
  obtain ⟨k, hk, rfl⟩ := List.getElem_of_mem he
  have hget := List.getElem?_eq_getElem hk
  have hindex := h k _ hget
  rw [LogStore.takeWhile_indexed h]
  exact List.mem_of_getElem? ((List.getElem?_take_of_lt (by omega)).trans hget)

/-- The part of the log that a plan keeps. -/
def Raft.kept (r : Raft σ) (truncateFrom : Nat) : List LogEntry :=
  if truncateFrom = 0 then r.log else r.log.takeWhile fun e => e.index < truncateFrom

theorem Raft.kept_indexed {r : Raft σ} (h : Indexed r.snapshotMeta.lastIncludedIndex r.log)
    (truncateFrom : Nat) : Indexed r.snapshotMeta.lastIncludedIndex (r.kept truncateFrom) := by
  unfold kept
  split
  · exact h
  · exact h.of_isPrefix (List.takeWhile_prefix _)

namespace Raft.Planned

variable {r : Raft σ} {first truncateFrom : Nat} {entries new : List LogEntry}
  (hidx : Indexed r.snapshotMeta.lastIncludedIndex r.log)
  (h : r.Planned first entries truncateFrom new)

include hidx h

/-- Where the first new entry goes, the kept part ends. -/
theorem kept_eq {e : LogEntry} (he : e ∈ new.head?) :
    r.kept truncateFrom = r.log.takeWhile (fun x => x.index < e.index) ∧
      r.snapshotMeta.lastIncludedIndex < e.index ∧
      e.index ≤ r.snapshotMeta.lastIncludedIndex + r.log.length + 1 := by
  have hlast := r.lastLogIndexLocked_of_indexed rfl hidx
  obtain ⟨-, ⟨rfl, hnext⟩ | ⟨rfl, -, hle, hlt⟩⟩ := h.next e he
  · refine ⟨?_, by omega, by omega⟩
    rw [kept, if_pos rfl, LogStore.takeWhile_indexed hidx, List.take_of_length_le (by omega)]
  · refine ⟨?_, hlt, by omega⟩
    rw [kept, if_neg (by omega)]

theorem merge_eq : mergeEntries r.log entries = r.kept truncateFrom ++ new := by
  rw [mergeEntries, h.new_eq]
  cases new with
  | nil => rw [h.done rfl, kept, if_pos rfl, List.append_nil]
  | cons e rest => rw [(h.kept_eq hidx rfl).1]

theorem follows : Follows (r.kept truncateFrom) new := by
  intro last hlast e he
  obtain ⟨hkept, hlt, hle⟩ := h.kept_eq hidx he
  have hindex := (kept_indexed hidx truncateFrom).getLast hlast
  rw [hkept, LogStore.takeWhile_indexed hidx, List.length_take] at hindex
  omega

omit hidx in
theorem new_indexed (hnew : Contiguous new) :
    Indexed (first + (entries.takeWhile (· ∈ r.log)).length) new := by
  cases new with
  | nil => exact Indexed.nil _
  | cons e rest =>
    obtain ⟨b, hb⟩ := hnew.2
    have hplace := (h.next e rfl).1
    have hfirst := (Indexed.cons.mp hb).1
    obtain rfl : b = first + (entries.takeWhile (· ∈ r.log)).length := by omega
    exact hb

omit hidx in
/-- The entries of the request are consecutive. -/
theorem request_indexed (hnew : Contiguous new) : Indexed first entries ∧ ∀ e ∈ entries, e.Valid := by
  have hsplit : entries = entries.takeWhile (· ∈ r.log) ++ new := by
    rw [← h.new_eq, List.takeWhile_append_dropWhile]
  rw [hsplit, Indexed.append]
  refine ⟨⟨h.indexed, h.new_indexed hnew⟩, fun e he => ?_⟩
  rcases List.mem_append.mp he with he | he
  · exact h.valid e he
  · exact hnew.1 e he

/-- After the merge, the log has every entry of the request, and what comes
before it. -/
theorem mem_merge {e : LogEntry}
    (he : e ∈ entries ∨ e ∈ r.log ∧ e.index ≤ first) : e ∈ r.kept truncateFrom ++ new := by
  have hsplit : entries = entries.takeWhile (· ∈ r.log) ++ new := by
    rw [← h.new_eq, List.takeWhile_append_dropWhile]
  have hold : e ∈ r.log → e.index ≤ first + (entries.takeWhile (· ∈ r.log)).length →
      e ∈ r.kept truncateFrom := by
    intro hmem hle
    cases hcase : new with
    | nil =>
      rw [h.done hcase, kept, if_pos rfl]
      exact hmem
    | cons x rest =>
      have hx : x ∈ new.head? := by rw [hcase]; rfl
      rw [(h.kept_eq hidx hx).1]
      have := (h.next x hx).1
      exact hidx.mem_takeWhile hmem (by omega)
  rcases he with he | ⟨hmem, hle⟩
  · rw [hsplit] at he
    rcases List.mem_append.mp he with hsame | hnew
    · have hmem : e ∈ r.log := by simpa using List.mem_takeWhile_imp hsame
      exact List.mem_append_left _ (hold hmem (h.indexed.mem hsame).2)
    · exact List.mem_append_right _ hnew
  · exact List.mem_append_left _ (hold hmem (by omega))

theorem merge_indexed (hnew : Contiguous new) :
    Indexed r.snapshotMeta.lastIncludedIndex (r.kept truncateFrom ++ new) := by
  cases hcase : new with
  | nil =>
    rw [List.append_nil]
    exact kept_indexed hidx truncateFrom
  | cons e rest =>
    have he : e ∈ new.head? := by rw [hcase]; rfl
    obtain ⟨hkept, hlt, hle⟩ := h.kept_eq hidx he
    have hplace := (h.next e he).1
    rw [hkept, ← hcase]
    refine hidx.splice hlt hle ?_
    rw [hplace, Nat.add_sub_cancel]
    exact h.new_indexed hnew

/-- Without a conflict the merge only appends. -/
theorem isPrefix_merge (hno : ∀ e ∈ entries, ∀ x ∈ r.log, x.index = e.index → x = e) :
    r.log <+: r.kept truncateFrom ++ new := by
  have hzero : truncateFrom = 0 := by
    cases hcase : new with
    | nil => exact h.done hcase
    | cons e rest =>
      have he : e ∈ new.head? := by rw [hcase]; rfl
      obtain ⟨-, ⟨hzero, -⟩ | ⟨-, -, hle, hlt⟩⟩ := h.next e he
      · exact hzero
      have hdrop : entries.dropWhile (· ∈ r.log) = e :: rest := h.new_eq.trans hcase
      have hmem : e ∈ entries :=
        (List.dropWhile_sublist _).subset (hdrop ▸ List.mem_cons_self)
      -- the entry in its place would be the same one
      obtain ⟨x, hx⟩ := Option.ne_none_iff_exists'.mp (entryAtLocked_none hidx hlt hle)
      obtain ⟨hxmem, hxindex⟩ := (entryAtLocked_mem hidx).mp hx
      obtain rfl := hno e hmem x hxmem hxindex
      have hhead := List.head?_dropWhile_not (fun y => decide (y ∈ r.log)) entries
      rw [hdrop] at hhead
      exact absurd hxmem (by simpa using hhead)
  rw [kept, if_pos hzero]
  exact List.prefix_append _ _

/-- The merge does not touch what the request builds on. -/
theorem matchesPrefixLocked_merge (hnew : Contiguous new) {term : Nat} {r' : Raft σ}
    (hlog : r'.log = r.kept truncateFrom ++ new) (hmeta : r'.snapshotMeta = r.snapshotMeta)
    (hmatch : r.matchesPrefixLocked first term = true) :
    r'.matchesPrefixLocked first term = true := by
  have hidx' : Indexed r'.snapshotMeta.lastIncludedIndex r'.log := by
    rw [hlog, hmeta]
    exact h.merge_indexed hidx hnew
  unfold matchesPrefixLocked termAtLocked at hmatch ⊢
  rw [hmeta]
  split at hmatch
  · cases hmatch
  rename_i localTerm hterm
  split at hterm
  · rename_i heq
    rw [if_pos heq]
    obtain rfl := Option.some.inj hterm
    exact hmatch
  rename_i hne
  rw [if_neg hne]
  split at hterm
  · cases hterm
  rename_i e hat
  obtain ⟨hmem, hindex⟩ := (entryAtLocked_mem hidx).mp hat
  have hat' : r'.entryAtLocked first = some e := by
    rw [entryAtLocked_mem hidx', hlog]
    exact ⟨h.mem_merge hidx (.inr ⟨hmem, hindex.le⟩), hindex⟩
  rw [hat']
  obtain rfl := Option.some.inj hterm
  exact hmatch

end Raft.Planned

end DistributedKv
