import DistributedKv.Raft.Handlers
import DistributedKv.Store.Memory
import DistributedKv.Store.Wal

/-!
The file log store (`FileLogStore` of `internal/raft/log.go`) over the bytes of
its WAL, and the in-memory one of `memory_log.go`. The JSON codec of an entry is
a parameter. An entry that it decodes to itself behaves alike in both stores
(`results_eq`); an entry whose key or value is not UTF-8 does not come back as
it was (`load_append_iff`).
-/

namespace DistributedKv

open Framing (frames)

/-- `encoding/json` on log entries. -/
structure EntryJson where
  marshal : LogEntry → Bytes
  unmarshal : Bytes → Except String LogEntry

/-- `n+1` on `uint64` -/
def uint64Succ (n : Nat) : Nat := (n + 1) % Nat.pow 2 64

structure FileLogStore where
  wal : Wal.Handle
  deriving DecidableEq, Repr

namespace FileLogStore

variable (json : EntryJson)

/-- `NewFileLogStore` on a path whose file holds these bytes. -/
def newFileLogStore (path : String) (file : Bytes) : FileLogStore := ⟨Wal.newWAL path file⟩

def encodeEntries (entries : List LogEntry) : Except String (List Bytes) :=
  match LogStore.encodeEntries entries with
  | .error err => .error err
  | .ok () => .ok (entries.map json.marshal)

/-- `room` says how many bytes the file takes, as for `Wal.appendBatch`. -/
def append (entries : List LogEntry) (room : Option Nat) (s : FileLogStore) :
    Except String Unit × FileLogStore :=
  if entries = [] then (.ok (), s)
  else
    match encodeEntries json entries with
    | .error err => (.error err, s)
    | .ok records =>
        match s.wal.appendBatch records room with
        | (.error err, wal) => (.error s!"append Raft log entries: {err}", ⟨wal⟩)
        | (.ok (), wal) => (.ok (), ⟨wal⟩)

/-- The loop of `loadLocked`: `position` records were read before, the last of
them with the index `previous`. -/
def decodeEntries : Nat → Option Nat → List Bytes → Except String (List LogEntry)
  | _, _, [] => .ok []
  | position, previous, record :: records =>
      match json.unmarshal record with
      | .error err => .error s!"decode log entry at record {position + 1}: {err}"
      | .ok entry =>
          match entry.validate with
          | .error err => .error err
          | .ok () =>
              match previous with
              | some p =>
                  if entry.index ≠ p + 1 then
                    .error s!"log entry index {entry.index} at record {position + 1} is not contiguous after index {p}"
                  else (decodeEntries (position + 1) (some entry.index) records).map (entry :: ·)
              | none => (decodeEntries (position + 1) (some entry.index) records).map (entry :: ·)

def loadLocked (s : FileLogStore) : Except String (List LogEntry) × FileLogStore :=
  match s.wal.replay with
  | (.error err, wal) => (.error err, ⟨wal⟩)
  | (.ok records, wal) => (decodeEntries json 0 none records, ⟨wal⟩)

def load (s : FileLogStore) : Except String (List LogEntry) × FileLogStore := loadLocked json s

def replaceLocked (entries : List LogEntry) (s : FileLogStore) :
    Except String Unit × FileLogStore :=
  match LogStore.replaceLocked entries with
  | .error err => (.error err, s)
  | .ok entries =>
      match s.wal.replace (entries.map json.marshal) with
      | (.error err, wal) => (.error s!"replace Raft log: {err}", ⟨wal⟩)
      | (.ok (), wal) => (.ok (), ⟨wal⟩)

def truncateFrom (index : Nat) (s : FileLogStore) : Except String Unit × FileLogStore :=
  if index = 0 then (.error "truncate index must be positive", s)
  else
    match loadLocked json s with
    | (.error err, s) => (.error err, s)
    | (.ok entries, s) =>
        match entries.getLast? with
        | none => replaceLocked json [] s
        | some last =>
            if index > uint64Succ last.index then
              (.error s!"truncate index {index} exceeds last log index {last.index}", s)
            else replaceLocked json (entries.takeWhile fun e => e.index < index) s

def compactThrough (index : Nat) (s : FileLogStore) : Except String Unit × FileLogStore :=
  match loadLocked json s with
  | (.error err, s) => (.error err, s)
  | (.ok entries, s) => replaceLocked json (entries.dropWhile fun e => e.index ≤ index) s

def close (s : FileLogStore) : FileLogStore := ⟨s.wal.close⟩

/-- `Close`, then `NewFileLogStore` on the same path. -/
def reopen (s : FileLogStore) : FileLogStore := newFileLogStore s.close.wal.path s.close.wal.file

end FileLogStore

structure MemoryLogStore where
  entries : List LogEntry
  deriving DecidableEq, Repr

namespace MemoryLogStore

def newMemoryLogStore : MemoryLogStore := ⟨[]⟩

def load (s : MemoryLogStore) : Except String (List LogEntry) := .ok s.entries

def append (entries : List LogEntry) (s : MemoryLogStore) : MemoryLogStore :=
  ⟨s.entries ++ entries⟩

def truncateFrom (index : Nat) (s : MemoryLogStore) : Except String Unit × MemoryLogStore :=
  if index = 0 then (.error s!"invalid truncate index {index}", s)
  else
    match s.entries.getLast? with
    | none => (.ok (), s)
    | some last =>
        if index > uint64Succ last.index then
          (.error s!"invalid truncate index {index} after last index {last.index}", s)
        else (.ok (), ⟨s.entries.takeWhile fun e => e.index < index⟩)

def compactThrough (index : Nat) (s : MemoryLogStore) : MemoryLogStore :=
  ⟨s.entries.dropWhile fun e => e.index ≤ index⟩

end MemoryLogStore

/-! ## A codec with the assumed properties -/

/-- The entry with U+FFFD for each byte of its key and value that is not text. -/
def LogEntry.repaired (e : LogEntry) : LogEntry :=
  { e with key := Utf8.repair e.key, value := Utf8.repair e.value }

/-- What is assumed of `encoding/json`: text comes back, and each invalid byte
of a string is encoded as U+FFFD. -/
def EntryJson.Repairs (json : EntryJson) : Prop :=
  ∀ e : LogEntry, e.Valid → json.unmarshal (json.marshal e) = .ok e.repaired

namespace EntryJson

def operationBytes : Operation → Bytes
  | .noop => []
  | .set => [1]
  | .delete => [2]
  | .other _ => [3]

def operationOf : Bytes → Except String Operation
  | [] => .ok .noop
  | [1] => .ok .set
  | [2] => .ok .delete
  | _ => .error "unknown operation"

/-- The five fields in frames, the numbers as strings of that length. -/
def framed : EntryJson where
  marshal e :=
    Json.frame (List.replicate e.index 0) ++ (Json.frame (List.replicate e.term 0) ++
      (Json.frame (operationBytes e.operation) ++ (Json.frame (Utf8.repair e.key) ++
        (Json.frame (Utf8.repair e.value) ++ []))))
  unmarshal record :=
    match Json.unframe [] record with
    | [index, term, operation, key, value] =>
        (operationOf operation).map fun op => ⟨index.length, term.length, op, key, value⟩
    | _ => .error "invalid record"

theorem framed_repairs : framed.Repairs := by
  rintro ⟨index, term, operation, key, value⟩ hv
  have hop : operationOf (operationBytes operation) = .ok operation := by
    cases operation with
    | other name => exact absurd ((LogEntry.valid_iff _).mp hv).2 id
    | _ => rfl
  simp only [framed, Json.unframe_frame, List.nil_append, Json.unframe, hop, List.length_replicate]
  rfl

end EntryJson

/-! ## What the file holds -/

/-- The codec decodes the entry to itself, and its record fits into a frame. -/
structure EntryJson.Keeps (json : EntryJson) (e : LogEntry) : Prop where
  decodes : json.unmarshal (json.marshal e) = .ok e
  fits : Wal.Admissible (json.marshal e)

/-- The open file consists of these records, which decode to a log. -/
structure FileLogStore.Reads (json : EntryJson) (s : FileLogStore) (rs : List Bytes)
    (l : List LogEntry) : Prop where
  isOpen : s.wal.isOpen = true
  file : s.wal.file = frames rs
  fits : ∀ r ∈ rs, Wal.Admissible r
  decodes : FileLogStore.decodeEntries json 0 none rs = .ok l

/-- The open file consists of the frames of a valid log. -/
structure FileLogStore.Holds (json : EntryJson) (s : FileLogStore) (l : List LogEntry) : Prop where
  isOpen : s.wal.isOpen = true
  file : s.wal.file = frames (l.map json.marshal)
  log : Contiguous l
  keeps : ∀ e ∈ l, json.Keeps e

namespace FileLogStore

variable {json : EntryJson} {s : FileLogStore} {l : List LogEntry}

theorem Reads.loadLocked {rs : List Bytes} (h : Reads json s rs l) :
    loadLocked json s = (.ok l, s) := by
  have hreplay : s.wal.replay = (.ok rs, s.wal) := by
    rw [Wal.Handle.replay, if_neg (by simp [h.isOpen]), h.file, Wal.replay_whole h.fits, ← h.file]
  rw [FileLogStore.loadLocked, hreplay]
  exact congrArg (·, s) h.decodes

/-- A store that `Load` leaves as it is consists of the records it was read from. -/
theorem reads_of_load (h : load json s = (.ok l, s)) : ∃ rs, Reads json s rs l := by
  unfold load FileLogStore.loadLocked Wal.Handle.replay at h
  by_cases hopen : s.wal.isOpen = false
  · rw [if_pos hopen] at h
    cases (Prod.mk.inj h).1
  rw [if_neg hopen] at h
  cases hreplay : Wal.replay s.wal.path s.wal.file with
  | mk res file =>
    rw [hreplay] at h
    cases res with
    | error err => cases (Prod.mk.inj h).1
    | ok rs =>
      obtain ⟨hdecode, hs⟩ := Prod.mk.inj h
      obtain ⟨hframes, -, hfits⟩ := Wal.replay_sound hreplay
      have hfile : s.wal.file = file := congrArg (·.wal.file) hs.symm
      exact ⟨rs, by simpa using hopen, hfile.trans hframes, hfits, hdecode⟩

/-- Decoding records finds the entries that the codec makes of them, if those
are a valid log. -/
theorem decodeEntries_map {f : LogEntry → LogEntry} {es : List LogEntry}
    (h : ∀ e ∈ es, json.unmarshal (json.marshal e) = .ok (f e)) (position : Nat)
    {previous : Option Nat} {gap : Nat → Nat → Nat → String}
    (hc : checkFrom gap position previous (es.map f) = .ok ()) :
    decodeEntries json position previous (es.map json.marshal) = .ok (es.map f) := by
  induction es generalizing position previous with
  | nil => rfl
  | cons e es ih =>
    rw [List.forall_mem_cons] at h
    rw [List.map_cons] at hc
    unfold checkFrom at hc
    rw [List.map_cons, List.map_cons]
    unfold decodeEntries
    rw [h.1]
    cases hv : (f e).validate with
    | error err =>
      rw [hv] at hc
      cases hc
    | ok u =>
      rw [hv] at hc
      cases previous with
      | none =>
        dsimp only at hc ⊢
        rw [hv]
        dsimp only
        rw [ih h.2 _ hc]
        rfl
      | some p =>
        dsimp only at hc ⊢
        rw [hv]
        dsimp only
        by_cases hi : (f e).index = p + 1
        · rw [if_neg (not_not.mpr hi)] at hc ⊢
          rw [ih h.2 _ hc]
          rfl
        · rw [if_pos hi] at hc
          cases hc

theorem decodeEntries_contiguous {f : LogEntry → LogEntry} {es : List LogEntry}
    (h : ∀ e ∈ es, json.unmarshal (json.marshal e) = .ok (f e)) (hc : Contiguous (es.map f)) :
    decodeEntries json 0 none (es.map json.marshal) = .ok (es.map f) :=
  decodeEntries_map h 0 ((checkEntries_ok_iff (fun _ _ _ => "") _).mpr hc)

/-- The records of entries that the codec keeps fit into frames. -/
theorem fits_of_keeps {es : List LogEntry} (h : ∀ e ∈ es, json.Keeps e) :
    ∀ r ∈ es.map json.marshal, Wal.Admissible r :=
  List.forall_mem_map.mpr fun e he => (h e he).fits

theorem Holds.fits (h : Holds json s l) : ∀ r ∈ l.map json.marshal, Wal.Admissible r :=
  fits_of_keeps h.keeps

theorem Holds.reads (h : Holds json s l) : Reads json s (l.map json.marshal) l := by
  have hdecode := @decodeEntries_contiguous json id l (fun e he => (h.keeps e he).decodes)
    (by simpa using h.log)
  rw [List.map_id] at hdecode
  exact ⟨h.isOpen, h.file, h.fits, hdecode⟩

theorem Holds.loadLocked (h : Holds json s l) : loadLocked json s = (.ok l, s) :=
  h.reads.loadLocked

theorem Holds.append {es : List LogEntry} (h : Holds json s l) (hk : ∀ e ∈ es, json.Keeps e)
    (hes : Contiguous es) (hc : Contiguous (l ++ es)) :
    ∃ s', append json es none s = (.ok (), s') ∧ Holds json s' (l ++ es) := by
  unfold FileLogStore.append
  split
  · rename_i hnil
    subst es
    exact ⟨s, rfl, by rwa [List.append_nil]⟩
  rename_i hne
  have hwal : s.wal.appendBatch (es.map json.marshal) none =
      (.ok (), { s.wal with file := s.wal.file ++ frames (es.map json.marshal) }) := by
    rw [Wal.Handle.appendBatch, if_neg (by simpa using hne), if_neg (by simp [h.isOpen]),
      Wal.appendBatch_ok (fits_of_keeps hk)]
  have hencode : encodeEntries json es = .ok (es.map json.marshal) := by
    rw [encodeEntries, LogStore.encodeEntries, (checkEntries_ok_iff _ _).mpr hes]
  rw [hencode]
  dsimp only
  rw [hwal]
  refine ⟨_, rfl, h.isOpen, ?_, hc, fun e he => ?_⟩
  · dsimp only
    rw [h.file, List.map_append, Framing.frames_append]
  · exact (List.mem_append.mp he).elim (h.keeps e) (hk e)

/-- The store after some more bytes got into its file. -/
def grow (bytes : Bytes) (s : FileLogStore) : FileLogStore :=
  ⟨{ s.wal with file := s.wal.file ++ bytes }⟩

/-- An append of which only some bytes get into the file: the whole records
among them are loaded, the torn one is cut off. -/
theorem Holds.load_torn {es : List LogEntry} (h : Holds json s l) (hk : ∀ e ∈ es, json.Keeps e)
    (hc : Contiguous (l ++ es)) (bytes : Nat) :
    ∃ m, (load json (s.grow ((frames (es.map json.marshal)).take bytes))).1 =
      .ok (l ++ es.take m) := by
  obtain ⟨m, -, hm, -⟩ := Framing.complete_eq_take bytes (es.map json.marshal)
  refine ⟨m, ?_⟩
  have hcont : Contiguous (l ++ es.take m) := by
    obtain ⟨hvalid, b, hidx⟩ := hc
    refine ⟨fun e he => hvalid e ?_, b, ?_⟩
    · exact (List.append_sublist_append_left l).mpr (List.take_sublist m es) |>.subset he
    · rw [Indexed.append] at hidx ⊢
      exact ⟨hidx.1, hidx.2.take m⟩
  have hdecode := @decodeEntries_contiguous json id (l ++ es.take m) (fun e he => by
    rcases List.mem_append.mp he with he | he
    · exact (h.keeps e he).decodes
    · exact (hk e (List.mem_of_mem_take he)).decodes) (by simpa using hcont)
  rw [List.map_id] at hdecode
  let torn := s.grow ((frames (es.map json.marshal)).take bytes)
  have hopen : torn.wal.isOpen = true := h.isOpen
  have hfile : torn.wal.file =
      frames (l.map json.marshal) ++ (frames (es.map json.marshal)).take bytes :=
    congrArg (· ++ _) h.file
  change (load json torn).1 = _
  rw [load, FileLogStore.loadLocked, Wal.Handle.replay, if_neg (by simp [hopen]), hfile,
    Wal.replay_take h.fits (fits_of_keeps hk), hm, ← List.map_take, ← List.map_append]
  exact hdecode

/-- Replacing the file by a part of what it holds. -/
theorem Holds.replaceLocked {kept : List LogEntry} (h : Holds json s l) (hsub : kept ⊆ l)
    (hc : Contiguous kept) :
    ∃ s', replaceLocked json kept s = (.ok (), s') ∧ Holds json s' kept := by
  have hkeeps : ∀ e ∈ kept, json.Keeps e := fun e he => h.keeps e (hsub he)
  rw [FileLogStore.replaceLocked, LogStore.replaceLocked_ok hc]
  dsimp only
  rw [Wal.Handle.replace, if_neg (by simp [h.isOpen]), Wal.replace_ok (fits_of_keeps hkeeps)]
  exact ⟨_, rfl, h.isOpen, rfl, hc, hkeeps⟩

theorem Holds.reopen (h : Holds json s l) : Holds json s.reopen l :=
  ⟨rfl, h.file, h.log, h.keeps⟩

end FileLogStore

theorem Contiguous.isInfix {kept l : List LogEntry} (h : Contiguous l) (hk : kept <:+: l) :
    Contiguous kept := by
  obtain ⟨before, after, rfl⟩ := hk
  obtain ⟨hv, b, hi⟩ := h
  refine ⟨fun e he => hv e (by simp [he]), b + before.length, ?_⟩
  exact (Indexed.append.mp (Indexed.append.mp hi).1).2

/-- The first entry of a batch has the index after the last one of the log. -/
def Follows (l es : List LogEntry) : Prop :=
  ∀ last ∈ l.getLast?, ∀ first ∈ es.head?, first.index = last.index + 1

instance (l es : List LogEntry) : Decidable (Follows l es) :=
  inferInstanceAs (Decidable (∀ last ∈ l.getLast?, ∀ first ∈ es.head?, _))

theorem Follows.indexed {b c : Nat} {l es : List LogEntry} (h : Follows l es) (hl : Indexed b l)
    (hes : Indexed c es) (hne : l ≠ []) (hne' : es ≠ []) : c = b + l.length := by
  have hlast := hl.getLast (List.getLast?_eq_some_getLast hne)
  obtain ⟨first, rest, rfl⟩ := List.exists_cons_of_ne_nil hne'
  have hfirst := (Indexed.cons.mp hes).1
  have := h _ (List.getLast?_eq_some_getLast hne) first rfl
  omega

theorem Contiguous.append {l es : List LogEntry} (hl : Contiguous l) (hes : Contiguous es)
    (h : Follows l es) : Contiguous (l ++ es) := by
  by_cases hne : l = []
  · rwa [hne, List.nil_append]
  by_cases hne' : es = []
  · rwa [hne', List.append_nil]
  obtain ⟨hv, b, hi⟩ := hl
  obtain ⟨hv', c, hi'⟩ := hes
  obtain rfl := h.indexed hi hi' hne hne'
  exact ⟨fun e he => (List.mem_append.mp he).elim (hv e) (hv' e), b, Indexed.append.mpr ⟨hi, hi'⟩⟩

/-! ## The two stores side by side -/

inductive LogOp where
  | append (entries : List LogEntry)
  | truncateFrom (index : Nat)
  | compactThrough (index : Nat)
  | load
  | reopen
  deriving DecidableEq, Repr

/-- What a caller sees of an operation, up to the text of an error. -/
inductive LogResult where
  | failed
  | done
  | loaded (entries : List LogEntry)
  deriving DecidableEq, Repr

def LogResult.ofUnit : Except String Unit → LogResult
  | .error _ => failed
  | .ok () => done

def LogResult.ofLoad : Except String (List LogEntry) → LogResult
  | .error _ => failed
  | .ok entries => loaded entries

def FileLogStore.step (json : EntryJson) (s : FileLogStore) : LogOp → LogResult × FileLogStore
  | .append entries => (append json entries none s).map .ofUnit id
  | .truncateFrom index => (truncateFrom json index s).map .ofUnit id
  | .compactThrough index => (compactThrough json index s).map .ofUnit id
  | .load => (load json s).map .ofLoad id
  | .reopen => (.done, s.reopen)

/-- `Close` does nothing to the in-memory store. -/
def MemoryLogStore.step (s : MemoryLogStore) : LogOp → LogResult × MemoryLogStore
  | .append entries => (.done, s.append entries)
  | .truncateFrom index => (s.truncateFrom index).map .ofUnit id
  | .compactThrough index => (.done, s.compactThrough index)
  | .load => (.ofLoad s.load, s)
  | .reopen => (.done, s)

/-- The results of a sequence of operations. -/
def results {S : Type} (step : S → LogOp → LogResult × S) : S → List LogOp → List LogResult
  | _, [] => []
  | s, op :: ops => (step s op).1 :: results step (step s op).2 ops

/-- A batch that continues the log: valid, contiguous, of records that fit. -/
structure BatchOk (json : EntryJson) (l es : List LogEntry) : Prop where
  contiguous : Contiguous es
  keeps : ∀ e ∈ es, json.Keeps e
  follows : Follows l es

def OpOk (json : EntryJson) (s : MemoryLogStore) : LogOp → Prop
  | .append entries => BatchOk json s.entries entries
  | _ => True

/-- Every batch continues the log that it finds. -/
def OpsOk (json : EntryJson) : MemoryLogStore → List LogOp → Prop
  | _, [] => True
  | s, op :: ops => OpOk json s op ∧ OpsOk json (s.step op).2 ops

section

variable {json : EntryJson} {s : FileLogStore} {m : MemoryLogStore}

theorem FileLogStore.Holds.truncateFrom (h : Holds json s m.entries) (index : Nat) :
    ∃ s', s.step json (.truncateFrom index) = ((m.step (.truncateFrom index)).1, s') ∧
      Holds json s' (m.step (.truncateFrom index)).2.entries := by
  simp only [FileLogStore.step, MemoryLogStore.step, FileLogStore.truncateFrom,
    MemoryLogStore.truncateFrom]
  by_cases hzero : index = 0
  · simp only [if_pos hzero]
    exact ⟨s, rfl, h⟩
  simp only [if_neg hzero, h.loadLocked]
  cases hlast : m.entries.getLast? with
  | none =>
    rw [List.getLast?_eq_none_iff] at hlast
    obtain ⟨s', heq, hs'⟩ := h.replaceLocked (List.nil_subset _) Contiguous.nil
    dsimp only
    rw [heq]
    exact ⟨s', rfl, by simpa [hlast] using hs'⟩
  | some last =>
    dsimp only
    split
    · exact ⟨s, rfl, h⟩
    · obtain ⟨s', heq, hs'⟩ := h.replaceLocked (List.takeWhile_subset _)
        (h.log.isInfix (List.takeWhile_prefix fun e => decide (e.index < index)).isInfix)
      rw [heq]
      exact ⟨s', rfl, hs'⟩

/-- One operation on a file that holds the memory store's entries. -/
theorem FileLogStore.Holds.step (h : Holds json s m.entries) {op : LogOp} (hop : OpOk json m op) :
    ∃ s', s.step json op = ((m.step op).1, s') ∧ Holds json s' (m.step op).2.entries := by
  cases op with
  | append entries =>
    obtain ⟨s', heq, hs'⟩ := h.append hop.keeps hop.contiguous
      (h.log.append hop.contiguous hop.follows)
    exact ⟨s', by rw [FileLogStore.step, heq]; rfl, hs'⟩
  | truncateFrom index => exact h.truncateFrom index
  | compactThrough index =>
    obtain ⟨s', heq, hs'⟩ := h.replaceLocked (List.dropWhile_suffix _).subset
      (h.log.isInfix (List.dropWhile_suffix fun e => decide (e.index ≤ index)).isInfix)
    refine ⟨s', ?_, hs'⟩
    rw [FileLogStore.step, FileLogStore.compactThrough, h.loadLocked]
    dsimp only
    rw [heq]
    rfl
  | load => exact ⟨s, by rw [FileLogStore.step, FileLogStore.load, h.loadLocked]; rfl, h⟩
  | reopen => exact ⟨s.reopen, rfl, h.reopen⟩

theorem FileLogStore.Holds.results_eq (h : Holds json s m.entries) {ops : List LogOp}
    (hops : OpsOk json m ops) :
    results (FileLogStore.step json) s ops = results MemoryLogStore.step m ops := by
  induction ops generalizing s m with
  | nil => rfl
  | cons op ops ih =>
    obtain ⟨s', heq, hs'⟩ := h.step hops.1
    rw [results, results, heq, ih hs' hops.2]

end

/-- From empty stores, the file log store and the in-memory one return the same
results, whatever the indexes to truncate from or to compact through. -/
theorem fileLogStore_refines_memoryLogStore (json : EntryJson) (path : String) {ops : List LogOp}
    (h : OpsOk json .newMemoryLogStore ops) :
    results (FileLogStore.step json) (.newFileLogStore path []) ops =
      results MemoryLogStore.step .newMemoryLogStore ops := by
  have hempty : FileLogStore.Holds json (.newFileLogStore path [])
      MemoryLogStore.newMemoryLogStore.entries := ⟨rfl, rfl, Contiguous.nil, by intro e he; cases he⟩
  exact hempty.results_eq h

/-- A log that starts at index 5, cut at both ends and opened again. -/
def exampleOps : List LogOp :=
  [.append [⟨5, 1, .noop, [], []⟩, ⟨6, 1, .set, [107], [118]⟩], .truncateFrom 8, .truncateFrom 6,
    .append [⟨6, 2, .delete, [107], []⟩], .compactThrough 5, .reopen, .load, .truncateFrom 0]

theorem fileLogStore_refines_memoryLogStore_exampleOps :
    results (FileLogStore.step .framed) (.newFileLogStore "log" []) exampleOps =
      [.done, .failed, .done, .done, .done, .done, .loaded [⟨6, 2, .delete, [107], []⟩],
        .failed] := by
  have hkeeps : ∀ e : LogEntry, e.Valid → e.repaired = e → Wal.Admissible (EntryJson.framed.marshal e) →
      EntryJson.framed.Keeps e := by
    intro e hv hrep hfits
    exact ⟨by rw [EntryJson.framed_repairs e hv, hrep], hfits⟩
  have hops : OpsOk .framed .newMemoryLogStore exampleOps := by
    refine ⟨⟨⟨by decide, 4, ?_⟩, ?_, by decide⟩, trivial, trivial, ⟨⟨by decide, 5, ?_⟩, ?_, by decide⟩,
      trivial, trivial, trivial, trivial, trivial⟩
    · simp [Indexed.cons, Indexed.nil]
    · simp only [List.forall_mem_cons]
      exact ⟨hkeeps _ (by decide) (by decide) (by decide), hkeeps _ (by decide) (by decide) (by decide),
        by simp⟩
    · simp [Indexed.cons, Indexed.nil]
    · simp only [List.forall_mem_cons]
      exact ⟨hkeeps _ (by decide) (by decide) (by decide), by simp⟩
  rw [fileLogStore_refines_memoryLogStore .framed "log" hops]
  rfl

/-! ## Keys and values that are not UTF-8 -/

theorem LogEntry.repaired_eq_self_iff (e : LogEntry) :
    e.repaired = e ↔ ValidUTF8 e.key ∧ ValidUTF8 e.value := by
  rw [validUTF8_iff, validUTF8_iff]
  obtain ⟨index, term, operation, key, value⟩ := e
  simp [LogEntry.repaired]

theorem LogEntry.Valid.repaired {e : LogEntry} (h : e.Valid) : e.repaired.Valid := by
  rw [LogEntry.valid_iff] at h ⊢
  refine ⟨h.1, ?_⟩
  obtain ⟨index, term, operation, key, value⟩ := e
  cases operation <;>
    simpa [LogEntry.repaired, Operation.Takes, Utf8.repair_eq_nil_iff] using h.2

theorem Indexed.map_repaired {b : Nat} {l : List LogEntry} (h : Indexed b l) :
    Indexed b (l.map LogEntry.repaired) := by
  intro k e he
  rw [List.getElem?_map] at he
  obtain ⟨e', he', rfl⟩ := Option.map_eq_some_iff.mp he
  exact h k e' he'

namespace FileLogStore

variable {json : EntryJson} {s s' : FileLogStore} {l es : List LogEntry}

/-- The index that the next record is compared with. -/
def lastIndex (previous : Option Nat) (l : List LogEntry) : Option Nat :=
  l.foldl (fun _ e => some e.index) previous

theorem decodeEntries_append {rs rs' : List Bytes} {position : Nat} {previous : Option Nat}
    {l l' : List LogEntry} (h : decodeEntries json position previous rs = .ok l)
    (h' : decodeEntries json (position + rs.length) (lastIndex previous l) rs' = .ok l') :
    decodeEntries json position previous (rs ++ rs') = .ok (l ++ l') := by
  induction rs generalizing position previous l with
  | nil =>
    obtain rfl := Except.ok.inj h
    exact h'
  | cons r rs ih =>
    have hstep : ∀ {e : LogEntry}, (decodeEntries json (position + 1) (some e.index) rs).map
        (e :: ·) = .ok l → (decodeEntries json (position + 1) (some e.index) (rs ++ rs')).map
        (e :: ·) = .ok (l ++ l') := by
      intro e he
      cases hrest : decodeEntries json (position + 1) (some e.index) rs with
      | error err =>
        rw [hrest] at he
        cases he
      | ok l₁ =>
        rw [hrest] at he
        obtain rfl := Except.ok.inj he
        rw [List.length_cons, Nat.add_comm rs.length 1, ← Nat.add_assoc] at h'
        rw [ih hrest h']
        rfl
    rw [List.cons_append]
    unfold decodeEntries at h ⊢
    split at h
    · cases h
    · split at h
      · cases h
      · split at h
        · split at h
          · cases h
          · rename_i hi
            rw [if_neg hi]
            exact hstep h
        · exact hstep h

theorem lastIndex_concat (previous : Option Nat) (l : List LogEntry) (e : LogEntry) :
    lastIndex previous (l ++ [e]) = some e.index := by
  rw [lastIndex, List.foldl_append]
  rfl

/-- A valid batch that follows the log passes the check of `loadLocked`. -/
theorem checkFrom_repaired {gap : Nat → Nat → Nat → String} (hes : Contiguous es)
    (h : Follows l es) (position : Nat) :
    checkFrom gap position (lastIndex none l) (es.map LogEntry.repaired) = .ok () := by
  have hvalid : ∀ e ∈ es.map LogEntry.repaired, e.Valid := by
    intro e he
    obtain ⟨e', he', rfl⟩ := List.mem_map.mp he
    exact (hes.1 e' he').repaired
  obtain ⟨b, hb⟩ := hes.2
  rcases List.eq_nil_or_concat l with rfl | ⟨before, last, rfl⟩
  · exact (checkFrom_none_ok_iff gap position _).mpr ⟨hvalid, b, hb.map_repaired⟩
  · rw [List.concat_eq_append, lastIndex_concat, checkFrom_some_ok_iff]
    refine ⟨hvalid, Indexed.map_repaired ?_⟩
    cases es with
    | nil => exact Indexed.nil _
    | cons e es =>
      have hfirst : e.index = last.index + 1 := h last (by simp) e rfl
      have := (Indexed.cons.mp hb).1
      obtain rfl : b = last.index := by omega
      exact hb

theorem reopen_eq_self (h : s.wal.isOpen = true) : s.reopen = s := by
  obtain ⟨path, file, isOpen⟩ := s
  obtain rfl : isOpen = true := h
  rfl

/-- The file with the records of a batch that goes on with the log. -/
theorem Reads.grow {rs : List Bytes} (hrs : Reads json s rs l) (hjson : json.Repairs)
    (hes : Contiguous es) (hfits : ∀ e ∈ es, Wal.Admissible (json.marshal e)) (h : Follows l es) :
    Reads json (s.grow (frames (es.map json.marshal))) (rs ++ es.map json.marshal)
      (l ++ es.map LogEntry.repaired) := by
  refine ⟨hrs.isOpen, ?_, fun r hr => ?_, ?_⟩
  · rw [Framing.frames_append, ← hrs.file]
    rfl
  · rcases List.mem_append.mp hr with hr | hr
    · exact hrs.fits r hr
    · obtain ⟨e, he, rfl⟩ := List.mem_map.mp hr
      exact hfits e he
  · have hcheck := @checkFrom_repaired l es (fun _ _ _ => "") hes h (0 + rs.length)
    refine decodeEntries_append hrs.decodes (decodeEntries_map ?_ _ hcheck)
    exact fun e he => hjson e (hes.1 e he)

/-- What a successful `Append` leaves in the file. -/
theorem Reads.append {rs : List Bytes} {room : Option Nat} (hrs : Reads json s rs l)
    (hjson : json.Repairs) (happend : append json es room s = (.ok (), s')) (h : Follows l es) :
    Reads json s' (rs ++ es.map json.marshal) (l ++ es.map LogEntry.repaired) := by
  unfold FileLogStore.append at happend
  split at happend
  · rename_i hnil
    obtain ⟨-, rfl⟩ := Prod.mk.inj happend
    rw [hnil, List.map_nil, List.map_nil, List.append_nil, List.append_nil]
    exact hrs
  rename_i hne
  cases hcheck : LogStore.encodeEntries es with
  | error err =>
    rw [encodeEntries, hcheck] at happend
    cases (Prod.mk.inj happend).1
  | ok u =>
    have hes : Contiguous es := (checkEntries_ok_iff _ _).mp hcheck
    rw [encodeEntries, hcheck] at happend
    dsimp only at happend
    rw [Wal.Handle.appendBatch, if_neg (by simpa using hne), if_neg (by simp [hrs.isOpen])]
      at happend
    cases hwal : Wal.appendBatch s.wal.path (es.map json.marshal) s.wal.file room with
    | mk res file =>
      rw [hwal] at happend
      rcases Wal.appendBatch_stores hwal with ⟨rfl, hfits, rfl⟩ | ⟨⟨err, rfl⟩, -⟩
      · obtain ⟨-, rfl⟩ := Prod.mk.inj happend
        exact hrs.grow hjson hes (fun e he => hfits _ (List.mem_map_of_mem he)) h
      · cases (Prod.mk.inj happend).1

/-- After a successful `Append`, also once the file was closed and opened again,
`Load` returns the appended entries if and only if their keys and values are
UTF-8. -/
theorem load_append_iff (hjson : json.Repairs) {room : Option Nat}
    (hload : load json s = (.ok l, s)) (happend : append json es room s = (.ok (), s'))
    (h : Follows l es) :
    ((load json s').1 = .ok (l ++ es) ∧ (load json s'.reopen).1 = .ok (l ++ es)) ↔
      ∀ e ∈ es, ValidUTF8 e.key ∧ ValidUTF8 e.value := by
  obtain ⟨rs, hrs⟩ := reads_of_load hload
  have hreads := hrs.append hjson happend h
  have hloaded : load json s' = (.ok (l ++ es.map LogEntry.repaired), s') := hreads.loadLocked
  rw [reopen_eq_self hreads.isOpen, and_self, hloaded, Except.ok.injEq, List.append_cancel_left_eq]
  constructor
  · intro heq e he
    rw [← LogEntry.repaired_eq_self_iff]
    have := List.map_inj_left.mp (heq.trans (List.map_id _).symm) e he
    exact this
  · intro hutf
    refine (List.map_congr_left fun e he => ?_).trans (List.map_id es)
    exact e.repaired_eq_self_iff.mpr (hutf e he)

/-- A SET and a DELETE of texts behind the no-op of a log that starts at index 5. -/
theorem load_append_iff_set :
    let s := newFileLogStore "log" (frames [EntryJson.framed.marshal ⟨5, 1, .noop, [], []⟩])
    let es := [⟨6, 1, .set, [0xC3, 0xA9], [118]⟩, ⟨7, 2, .delete, [107], []⟩]
    load .framed s = (.ok [⟨5, 1, .noop, [], []⟩], s) ∧
    ∃ s', append .framed es none s = (.ok (), s') ∧
      (load .framed s').1 = .ok (⟨5, 1, .noop, [], []⟩ :: es) ∧
      (load .framed s'.reopen).1 = .ok (⟨5, 1, .noop, [], []⟩ :: es) := by
  intro s es
  have hutf : ∀ e ∈ es, ValidUTF8 e.key ∧ ValidUTF8 e.value := by
    simp only [es, List.forall_mem_cons, validUTF8_iff]
    exact ⟨⟨by decide, by decide⟩, ⟨by decide, by decide⟩, by simp⟩
  exact ⟨rfl, _, rfl, (@load_append_iff .framed s _ [⟨5, 1, .noop, [], []⟩] es
    EntryJson.framed_repairs none rfl rfl (by decide)).mpr hutf⟩

/-- A DELETE whose key is a byte that is not text, as a URL query can carry it:
`Load` returns a DELETE of another key. -/
theorem invalid_key_changes :
    let command : Command := ⟨.delete, [0xFF], []⟩
    EntryJson.framed.Repairs ∧ command.validate = .ok () ∧
    ∃ s', append .framed [proposedEntry 1 1 command] none (newFileLogStore "log" []) =
        (.ok (), s') ∧
      (load .framed s').1 = .ok [⟨1, 1, .delete, [0xEF, 0xBF, 0xBD], []⟩] ∧
      (load .framed s'.reopen).1 = .ok [⟨1, 1, .delete, [0xEF, 0xBF, 0xBD], []⟩] :=
  ⟨EntryJson.framed_repairs, rfl, _, rfl, rfl, rfl⟩

end FileLogStore

end DistributedKv
