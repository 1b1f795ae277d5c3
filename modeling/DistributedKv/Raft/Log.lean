import DistributedKv.Lib.Crash
import Mathlib.Data.List.Basic

/-!
The Raft log: entries, the snapshot boundary, and the log store as a list of
decoded entries (`internal/raft/log.go`). The store checks every batch and every
stored log for valid entries with consecutive indexes; `checkEntries` is that
check and `checkEntries_ok_iff` says what it accepts.
-/

namespace DistributedKv

/-- Go strings are byte strings. -/
abbrev Bytes := List UInt8

/-- `other` is any operation string besides the three constants of the source. -/
inductive Operation where
  | noop
  | set
  | delete
  | other (name : String)
  deriving DecidableEq, Repr

structure LogEntry where
  index : Nat
  term : Nat
  operation : Operation
  key : Bytes
  value : Bytes
  deriving DecidableEq, Repr

def LogEntry.validate (e : LogEntry) : Except String Unit :=
  if e.index = 0 then .error "log entry index must be positive"
  else match e.operation with
    | .noop =>
        if e.key ≠ [] ∨ e.value ≠ [] then
          .error s!"NOOP entry {e.index} cannot contain a key or value"
        else .ok ()
    | .set => if e.key = [] then .error s!"SET entry {e.index} key cannot be empty" else .ok ()
    | .delete =>
        if e.key = [] then .error s!"DELETE entry {e.index} key cannot be empty"
        else if e.value ≠ [] then .error s!"DELETE entry {e.index} cannot contain a value"
        else .ok ()
    | .other name => .error s!"log entry {e.index} has unknown operation {repr name}"

/-- The entry passes `validate`. -/
def LogEntry.Valid (e : LogEntry) : Prop := e.validate = .ok ()

instance (e : LogEntry) : Decidable e.Valid :=
  inferInstanceAs (Decidable (e.validate = .ok ()))

/-- The key and value that an operation takes. -/
def Operation.Takes : Operation → Bytes → Bytes → Prop
  | .noop, key, value => key = [] ∧ value = []
  | .set, key, _ => key ≠ []
  | .delete, key, value => key ≠ [] ∧ value = []
  | .other _, _, _ => False

theorem LogEntry.valid_iff (e : LogEntry) :
    e.Valid ↔ 0 < e.index ∧ e.operation.Takes e.key e.value := by
  unfold LogEntry.Valid validate Operation.Takes
  by_cases hi : e.index = 0
  · simp [hi]
  · rw [if_neg hi]
    have hpos : 0 < e.index := by omega
    cases e.operation with
    | noop => by_cases hk : e.key = [] <;> by_cases hv : e.value = [] <;> simp [hpos, hk, hv]
    | set => by_cases hk : e.key = [] <;> simp [hpos, hk]
    | delete => by_cases hk : e.key = [] <;> by_cases hv : e.value = [] <;> simp [hpos, hk, hv]
    | other name => simp

theorem LogEntry.Valid.index_pos {e : LogEntry} (h : e.Valid) : 0 < e.index :=
  (e.valid_iff.mp h).1

/-- The compacted prefix of a log: its last index and that entry's term. -/
structure SnapshotMetadata where
  lastIncludedIndex : Nat
  lastIncludedTerm : Nat
  deriving DecidableEq, Repr

def SnapshotMetadata.empty : SnapshotMetadata := ⟨0, 0⟩

def SnapshotMetadata.validate (m : SnapshotMetadata) : Except String Unit :=
  if m.lastIncludedIndex = 0 ∧ m.lastIncludedTerm ≠ 0 then
    .error s!"empty snapshot cannot have last included term {m.lastIncludedTerm}"
  else .ok ()

theorem SnapshotMetadata.validate_ok_iff (b : SnapshotMetadata) :
    b.validate = .ok () ↔ (b.lastIncludedIndex = 0 → b.lastIncludedTerm = 0) := by
  unfold SnapshotMetadata.validate
  split
  · rename_i h
    simpa using h
  · rename_i h
    simpa using h

/-! ## Consecutive indexes -/

/-- The entries carry the indexes `b + 1`, `b + 2`, and so on. -/
def Indexed (b : Nat) (l : List LogEntry) : Prop :=
  ∀ k e, l[k]? = some e → e.index = b + k + 1

theorem Indexed.nil (b : Nat) : Indexed b [] := by intro k e h; simp at h

theorem Indexed.cons {b : Nat} {e : LogEntry} {l : List LogEntry} :
    Indexed b (e :: l) ↔ e.index = b + 1 ∧ Indexed (b + 1) l := by
  constructor
  · intro h
    refine ⟨h 0 e rfl, fun k x hx => ?_⟩
    have := h (k + 1) x (by simpa using hx)
    omega
  · rintro ⟨he, hl⟩ k x hx
    cases k with
    | zero => simp at hx; subst x; exact he
    | succ k =>
      have := hl k x (by simpa using hx)
      omega

theorem Indexed.append {b : Nat} {l m : List LogEntry} :
    Indexed b (l ++ m) ↔ Indexed b l ∧ Indexed (b + l.length) m := by
  induction l generalizing b with
  | nil => simp [Indexed.nil]
  | cons e l ih =>
    rw [List.cons_append, Indexed.cons, Indexed.cons, ih, List.length_cons, and_assoc,
      show b + 1 + l.length = b + (l.length + 1) by omega]

theorem Indexed.take {b : Nat} {l : List LogEntry} (h : Indexed b l) (k : Nat) :
    Indexed b (l.take k) := by
  rw [← List.take_append_drop k l, Indexed.append] at h
  exact h.1

theorem Indexed.drop {b : Nat} {l : List LogEntry} (h : Indexed b l) {k : Nat}
    (hk : k ≤ l.length) : Indexed (b + k) (l.drop k) := by
  rw [← List.take_append_drop k l, Indexed.append, List.length_take, Nat.min_eq_left hk] at h
  exact h.2

theorem Indexed.of_isPrefix {b : Nat} {l m : List LogEntry} (h : Indexed b m) (hl : l <+: m) :
    Indexed b l := by
  obtain ⟨t, rfl⟩ := hl
  exact (Indexed.append.mp h).1

theorem Indexed.getLast {b : Nat} {l : List LogEntry} (h : Indexed b l) {e : LogEntry}
    (he : l.getLast? = some e) : e.index = b + l.length := by
  rw [List.getLast?_eq_getElem?] at he
  have := h _ _ he
  have hpos : l.length ≠ 0 := by
    intro h0
    rw [List.eq_nil_of_length_eq_zero h0] at he
    simp at he
  omega

theorem Indexed.mem {b : Nat} {l : List LogEntry} (h : Indexed b l) {e : LogEntry}
    (he : e ∈ l) : b < e.index ∧ e.index ≤ b + l.length := by
  obtain ⟨k, hk, rfl⟩ := List.getElem_of_mem he
  have := h k l[k] (List.getElem?_eq_getElem hk)
  omega

/-! ## The store's check -/

/-- Validate each entry and compare its index with the one before it. `gap`
makes the error text from the position, the earlier and the later index. -/
def checkFrom (gap : Nat → Nat → Nat → String) :
    Nat → Option Nat → List LogEntry → Except String Unit
  | _, _, [] => .ok ()
  | position, previous, e :: es =>
      match e.validate with
      | .error err => .error err
      | .ok () =>
          match previous with
          | none => checkFrom gap (position + 1) (some e.index) es
          | some p =>
              if e.index ≠ p + 1 then .error (gap position p e.index)
              else checkFrom gap (position + 1) (some e.index) es

def checkEntries (gap : Nat → Nat → Nat → String) (es : List LogEntry) : Except String Unit :=
  checkFrom gap 0 none es

/-- What `checkEntries` accepts: valid entries with consecutive indexes. -/
def Contiguous (es : List LogEntry) : Prop :=
  (∀ e ∈ es, e.Valid) ∧ ∃ b, Indexed b es

theorem Contiguous.nil : Contiguous [] := ⟨by simp, 0, Indexed.nil 0⟩

theorem Contiguous.drop {es : List LogEntry} (h : Contiguous es) (k : Nat) :
    Contiguous (es.drop k) := by
  obtain ⟨hvalid, b, hb⟩ := h
  refine ⟨fun e he => hvalid e (List.mem_of_mem_drop he), ?_⟩
  rcases Nat.le_total k es.length with hk | hk
  · exact ⟨b + k, hb.drop hk⟩
  · rw [List.drop_eq_nil_of_le hk]
    exact ⟨0, Indexed.nil 0⟩

theorem checkFrom_some_ok_iff (gap : Nat → Nat → Nat → String) (position p : Nat)
    (es : List LogEntry) :
    checkFrom gap position (some p) es = .ok () ↔ (∀ e ∈ es, e.Valid) ∧ Indexed p es := by
  induction es generalizing position p with
  | nil => simp [checkFrom, Indexed.nil]
  | cons e es ih =>
    rw [Indexed.cons, List.forall_mem_cons]
    unfold checkFrom
    cases hv : e.validate with
    | error err => simp [LogEntry.Valid, hv]
    | ok u =>
      by_cases hi : e.index = p + 1
      · simp [hi, ih, LogEntry.Valid, hv]
      · simp [hi, LogEntry.Valid, hv]

theorem checkFrom_none_ok_iff (gap : Nat → Nat → Nat → String) (position : Nat)
    (es : List LogEntry) :
    checkFrom gap position none es = .ok () ↔ Contiguous es := by
  unfold Contiguous
  cases es with
  | nil => simp [checkFrom]; exact ⟨0, Indexed.nil 0⟩
  | cons e es =>
    rw [List.forall_mem_cons]
    unfold checkFrom
    cases hv : e.validate with
    | error err => simp [LogEntry.Valid, hv]
    | ok u =>
      simp only [checkFrom_some_ok_iff]
      constructor
      · rintro ⟨hval, hidx⟩
        have hpos := LogEntry.Valid.index_pos hv
        refine ⟨⟨hv, hval⟩, e.index - 1, Indexed.cons.mpr ⟨by omega, ?_⟩⟩
        rwa [show e.index - 1 + 1 = e.index by omega]
      · rintro ⟨⟨_, hval⟩, b, hidx⟩
        rw [Indexed.cons] at hidx
        exact ⟨hval, hidx.1 ▸ hidx.2⟩

theorem checkEntries_ok_iff (gap : Nat → Nat → Nat → String) (es : List LogEntry) :
    checkEntries gap es = .ok () ↔ Contiguous es := checkFrom_none_ok_iff gap 0 es

/-! ## The log store -/

namespace LogStore

def encodeEntries (es : List LogEntry) : Except String Unit :=
  checkEntries (fun _ p i => s!"entry index {i} does not follow index {p}") es

def loadLocked (stored : List LogEntry) : Except String (List LogEntry) :=
  match checkEntries (fun position p i =>
      s!"log entry index {i} at record {position + 1} is not contiguous after index {p}") stored with
  | .error err => .error err
  | .ok () => .ok stored

def replaceLocked (es : List LogEntry) : Except String (List LogEntry) :=
  match checkEntries (fun position p i =>
      s!"replacement entry index {i} at position {position + 1} is not contiguous after index {p}")
      es with
  | .error err => .error err
  | .ok () => .ok es

def append (es stored : List LogEntry) : Except String (List LogEntry) :=
  if es = [] then .ok stored
  else match encodeEntries es with
    | .error err => .error err
    | .ok () => .ok (stored ++ es)

/-- For a last index below 2^64 - 1. The code adds one to it in 64 bits, so that
it refuses every call for a log that ends at the largest index. -/
def truncateFrom (index : Nat) (stored : List LogEntry) : Except String (List LogEntry) :=
  if index = 0 then .error "truncate index must be positive"
  else match loadLocked stored with
    | .error err => .error err
    | .ok es =>
        match es.getLast? with
        | none => replaceLocked []
        | some last =>
            if index > last.index + 1 then
              .error s!"truncate index {index} exceeds last log index {last.index}"
            else replaceLocked (es.takeWhile fun e => e.index < index)

def compactThrough (index : Nat) (stored : List LogEntry) : Except String (List LogEntry) :=
  match loadLocked stored with
  | .error err => .error err
  | .ok es => replaceLocked (es.dropWhile fun e => e.index ≤ index)

theorem loadLocked_ok {stored : List LogEntry} (h : Contiguous stored) :
    loadLocked stored = .ok stored := by
  unfold loadLocked
  rw [(checkEntries_ok_iff _ _).mpr h]

theorem replaceLocked_ok {es : List LogEntry} (h : Contiguous es) :
    replaceLocked es = .ok es := by
  unfold replaceLocked
  rw [(checkEntries_ok_iff _ _).mpr h]

theorem loadLocked_eq {stored es : List LogEntry} (h : loadLocked stored = .ok es) :
    es = stored := by
  unfold loadLocked at h
  split at h
  · cases h
  · exact (Except.ok.inj h).symm

theorem replaceLocked_eq {es l : List LogEntry} (h : replaceLocked es = .ok l) : l = es := by
  unfold replaceLocked at h
  split at h
  · cases h
  · exact (Except.ok.inj h).symm

theorem truncateFrom_eq {index : Nat} {stored l : List LogEntry}
    (h : truncateFrom index stored = .ok l) : l = stored.takeWhile fun e => e.index < index := by
  unfold truncateFrom at h
  split at h
  · cases h
  split at h
  · cases h
  rename_i es hload
  obtain rfl := loadLocked_eq hload
  split at h
  · rename_i hlast
    rw [List.getLast?_eq_none_iff.mp hlast]
    exact replaceLocked_eq h
  split at h
  · cases h
  · exact replaceLocked_eq h

theorem compactThrough_eq {index : Nat} {stored l : List LogEntry}
    (h : compactThrough index stored = .ok l) :
    l = stored.dropWhile fun e => e.index ≤ index := by
  unfold compactThrough at h
  split at h
  · cases h
  rename_i es hload
  obtain rfl := loadLocked_eq hload
  exact replaceLocked_eq h

theorem append_ok_iff (es stored l : List LogEntry) :
    append es stored = .ok l ↔ Contiguous es ∧ l = stored ++ es := by
  unfold append
  by_cases he : es = []
  · subst es
    simp [Contiguous.nil, eq_comm]
  · rw [if_neg he]
    cases hc : encodeEntries es with
    | error err =>
      have : ¬ Contiguous es := by
        intro h
        rw [encodeEntries, (checkEntries_ok_iff _ _).mpr h] at hc
        simp at hc
      simp [this]
    | ok u => simp [(checkEntries_ok_iff _ _).mp hc, eq_comm]

/-- In a list with consecutive indexes, the entries below `index` are a prefix. -/
theorem takeWhile_indexed {b : Nat} {l : List LogEntry} (h : Indexed b l) (index : Nat) :
    (l.takeWhile fun e => e.index < index) = l.take (index - b - 1) := by
  induction l generalizing b with
  | nil => simp
  | cons e l ih =>
    obtain ⟨he, hl⟩ := Indexed.cons.mp h
    by_cases hlt : e.index < index
    · rw [List.takeWhile_cons, if_pos (by simpa using hlt), ih hl,
        show index - b - 1 = (index - (b + 1) - 1) + 1 by omega, List.take_succ_cons]
    · rw [List.takeWhile_cons, if_neg (by simpa using hlt),
        show index - b - 1 = 0 by omega, List.take_zero]

theorem dropWhile_indexed {b : Nat} {l : List LogEntry} (h : Indexed b l) (index : Nat) :
    (l.dropWhile fun e => e.index ≤ index) = l.drop (index - b) := by
  induction l generalizing b with
  | nil => simp
  | cons e l ih =>
    obtain ⟨he, hl⟩ := Indexed.cons.mp h
    by_cases hle : e.index ≤ index
    · rw [List.dropWhile_cons, if_pos (by simpa using hle), ih hl,
        show index - b = (index - (b + 1)) + 1 by omega, List.drop_succ_cons]
    · rw [List.dropWhile_cons, if_neg (by simpa using hle),
        show index - b = 0 by omega, List.drop_zero]

theorem filter_indexed {b : Nat} {l : List LogEntry} (h : Indexed b l) (index : Nat) :
    (l.filter fun e => index < e.index) = l.drop (index - b) := by
  induction l generalizing b with
  | nil => simp
  | cons e l ih =>
    obtain ⟨he, hl⟩ := Indexed.cons.mp h
    by_cases hlt : index < e.index
    · have hb : index - b = 0 := by omega
      rw [List.filter_cons_of_pos (by simpa using hlt), ih hl, hb, List.drop_zero,
        Nat.sub_eq_zero_of_le (by omega), List.drop_zero]
    · obtain ⟨m, hm⟩ : ∃ m, index - b = m + 1 := ⟨index - b - 1, by omega⟩
      rw [List.filter_cons_of_neg (by simpa using hlt), ih hl, hm, List.drop_succ_cons]
      congr 1
      omega

theorem truncateFrom_ok {b : Nat} {l : List LogEntry} (hv : ∀ e ∈ l, e.Valid) (h : Indexed b l)
    {index : Nat} (hpos : 0 < index) (hle : index ≤ b + l.length + 1) :
    truncateFrom index l = .ok (l.take (index - b - 1)) := by
  have hi : index ≠ 0 := by omega
  simp only [truncateFrom, hi, ↓reduceIte, loadLocked_ok ⟨hv, b, h⟩]
  cases hlast : l.getLast? with
  | none =>
    rw [List.getLast?_eq_none_iff] at hlast
    subst l
    simpa using replaceLocked_ok Contiguous.nil
  | some last =>
    have hl := h.getLast hlast
    have hgt : ¬ index > last.index + 1 := by omega
    simp only [hgt, ↓reduceIte, takeWhile_indexed h]
    exact replaceLocked_ok ⟨fun e he => hv e (List.mem_of_mem_take he), b, h.take _⟩

theorem compactThrough_ok {b : Nat} {l : List LogEntry} (hv : ∀ e ∈ l, e.Valid)
    (h : Indexed b l) (index : Nat) :
    compactThrough index l = .ok (l.drop (index - b)) := by
  simp only [compactThrough, loadLocked_ok ⟨hv, b, h⟩, dropWhile_indexed h]
  apply replaceLocked_ok
  by_cases hle : index - b ≤ l.length
  · exact ⟨fun e he => hv e (List.mem_of_mem_drop he), _, h.drop hle⟩
  · rw [List.drop_eq_nil_of_le (by omega)]
    exact Contiguous.nil

end LogStore

end DistributedKv
