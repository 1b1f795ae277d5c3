import DistributedKv.Lib.Framing
import DistributedKv.Raft.Log
import Mathlib.Data.List.TakeWhile

/-!
The append-only record file (`internal/wal/wal.go`), down to its bytes. A call
of `AppendBatch` may be refused half way, or the file may store only some of the
bytes that it writes; nothing is rewound then. `Replay` keeps the whole frames
and cuts off the beginning of one more.
-/

namespace DistributedKv

open Framing (frame frames)

def maxRecordSize : Nat := 16777216

namespace Wal

variable (path : String)

/-- Append bytes to the file. With `some n` the file takes `n` more bytes before
it returns an error; `none` stands for a file that takes them all. -/
def write (chunk : Bytes) (file : Bytes) (room : Option Nat) :
    Except String Unit × Bytes × Option Nat :=
  match room with
  | none => (.ok (), file ++ chunk, none)
  | some n =>
      if chunk.length ≤ n then (.ok (), file ++ chunk, some (n - chunk.length))
      else (.error "short write", file ++ chunk.take n, some 0)

def writeRecord (record : Bytes) (file : Bytes) (room : Option Nat) :
    Except String Unit × Bytes × Option Nat :=
  if record.length = 0 ∨ record.length > maxRecordSize then
    (.error s!"WAL record size {record.length} is invalid", file, room)
  else
    match write (Framing.header record.length) file room with
    | (.error err, file, room) => (.error err, file, room)
    | (.ok (), file, room) => write record file room

/-- The loop over the records in `AppendBatch` and in `Replace`. -/
def writeRecords : List Bytes → Bytes → Option Nat → Except String Unit × Bytes × Option Nat
  | [], file, room => (.ok (), file, room)
  | record :: records, file, room =>
      match writeRecord record file room with
      | (.error err, file, room) => (.error err, file, room)
      | (.ok (), file, room) => writeRecords records file room

/-- `AppendBatch` on an open file. A file without room for everything also fails
to sync. -/
def appendBatch (records : List Bytes) (file : Bytes) (room : Option Nat) :
    Except String Unit × Bytes :=
  if records = [] then (.ok (), file)
  else
    match writeRecords records file room with
    | (.error err, file, _) => (.error s!"write WAL record {repr path}: {err}", file)
    | (.ok (), file, some _) => (.error s!"sync WAL {repr path}: no room", file)
    | (.ok (), file, none) => (.ok (), file)

/-- The loop of `Replay`: `rest` is what follows the first `validBytes` bytes.
The result is the records and where the file must be truncated, if at all. Every
round reads at least one byte, so that the fuel cannot run out. -/
def replayLoop : Nat → Nat → List Bytes → Bytes → Except String (List Bytes × Option Nat)
  | 0, _, _, _ => .error "unreachable"
  | fuel + 1, validBytes, records, rest =>
      match rest with
      | [] => .ok (records, none)
      | a :: b :: c :: d :: rest =>
          let size := Framing.size a b c d
          if size = 0 ∨ size > maxRecordSize then
            .error s!"WAL {repr path} has invalid record size {size} at byte {validBytes}"
          else if rest.length < size then .ok (records, some validBytes)
          else replayLoop fuel (validBytes + (4 + size)) (records ++ [rest.take size])
            (rest.drop size)
      | _ => .ok (records, some validBytes)

def truncateLocked (size : Nat) (file : Bytes) : Bytes := file.take size

/-- `Replay` on an open file: the records, and the file it leaves. -/
def replay (file : Bytes) : Except String (List Bytes) × Bytes :=
  match replayLoop path (file.length + 1) 0 [] file with
  | .error err => (.error err, file)
  | .ok (records, none) => (.ok records, file)
  | .ok (records, some validBytes) => (.ok records, truncateLocked validBytes file)

/-- `Replace` on an open file: the new contents take the place of the old ones
only when every record could be written. -/
def replace (records : List Bytes) (file : Bytes) : Except String Unit × Bytes :=
  match writeRecords records [] none with
  | (.error err, _, _) => (.error s!"write WAL replacement {repr path}: {err}", file)
  | (.ok (), file', _) => (.ok (), file')

/-! ## Records of admissible size -/

/-- What `writeRecord` accepts. -/
def Admissible (record : Bytes) : Prop := 0 < record.length ∧ record.length ≤ maxRecordSize

instance (record : Bytes) : Decidable (Admissible record) :=
  inferInstanceAs (Decidable (_ ∧ _))

variable {path}

theorem Admissible.size_ok {record : Bytes} (h : Admissible record) :
    ¬ (record.length = 0 ∨ record.length > maxRecordSize) := by
  obtain ⟨hpos, hle⟩ := h
  omega

theorem writeRecord_ok {record : Bytes} (h : Admissible record) (file : Bytes) :
    writeRecord record file none = (.ok (), file ++ frame record, none) := by
  simp only [writeRecord, if_neg h.size_ok, write, frame, List.append_assoc]

theorem writeRecords_ok {records : List Bytes} (h : ∀ r ∈ records, Admissible r) (file : Bytes) :
    writeRecords records file none = (.ok (), file ++ frames records, none) := by
  induction records generalizing file with
  | nil => simp [writeRecords]
  | cons r rs ih =>
    rw [List.forall_mem_cons] at h
    simp only [writeRecords, writeRecord_ok h.1, ih h.2, Framing.frames_cons, List.append_assoc]

theorem appendBatch_ok {records : List Bytes} (h : ∀ r ∈ records, Admissible r) (file : Bytes) :
    appendBatch path records file none = (.ok (), file ++ frames records) := by
  unfold appendBatch
  split
  · rename_i hnil
    simp [hnil]
  · rw [writeRecords_ok h]

theorem replace_ok {records : List Bytes} (h : ∀ r ∈ records, Admissible r) (file : Bytes) :
    replace path records file = (.ok (), frames records) := by
  simp [replace, writeRecords_ok h]

/-! ## Replay -/

theorem Admissible.size_header {record : Bytes} (h : Admissible record) :
    Framing.size (UInt8.ofNat (record.length / 256 / 256 / 256))
      (UInt8.ofNat (record.length / 256 / 256)) (UInt8.ofNat (record.length / 256))
      (UInt8.ofNat record.length) = record.length := by
  have hle : record.length ≤ 16777216 := h.2
  exact Framing.size_header (by omega)

theorem replayLoop_frame {record : Bytes} (h : Admissible record) (fuel validBytes : Nat)
    (records : List Bytes) (rest : Bytes) :
    replayLoop path (fuel + 1) validBytes records (frame record ++ rest) =
      replayLoop path fuel (validBytes + (frame record).length) (records ++ [record]) rest := by
  have hlen : ¬ (record ++ rest).length < record.length := by
    rw [List.length_append]
    omega
  rw [Framing.frame_length]
  simp only [frame, Framing.header, List.cons_append, List.nil_append, replayLoop, h.size_header,
    if_neg h.size_ok, if_neg hlen, List.take_left, List.drop_left]

/-- The beginning of a frame is not read as a record. -/
theorem replayLoop_torn {tail : Bytes} (h : Framing.Torn Admissible tail) (hne : tail ≠ [])
    (fuel validBytes : Nat) (records : List Bytes) :
    replayLoop path (fuel + 1) validBytes records tail = .ok (records, some validBytes) := by
  obtain ⟨r, hr, n, hn, rfl⟩ := h
  rw [Framing.frame_length] at hn
  -- no byte, part of the header, or the header and part of the payload
  match n with
  | 0 => exact absurd rfl hne
  | 1 => rfl
  | 2 => rfl
  | 3 => rfl
  | k + 4 =>
    have hlt : (r.take k).length < r.length := by
      rw [List.length_take]
      omega
    simp only [frame, Framing.header, List.cons_append, List.nil_append, List.take_succ_cons,
      replayLoop, hr.size_header, if_neg hr.size_ok, if_pos hlt]

/-- Whole frames are read one after the other, whatever follows them. -/
theorem replayLoop_append {rs : List Bytes} (h : ∀ r ∈ rs, Admissible r) {fuel : Nat}
    (hfuel : rs.length ≤ fuel) (validBytes : Nat) (records : List Bytes) (rest : Bytes) :
    replayLoop path fuel validBytes records (frames rs ++ rest) =
      replayLoop path (fuel - rs.length) (validBytes + (frames rs).length) (records ++ rs) rest := by
  induction rs generalizing fuel validBytes records with
  | nil => simp
  | cons r rs ih =>
    rw [List.forall_mem_cons] at h
    obtain ⟨fuel, rfl⟩ : ∃ k, fuel = k + 1 := ⟨fuel - 1, by simp at hfuel; omega⟩
    rw [List.length_cons] at hfuel
    rw [Framing.frames_cons, List.append_assoc, replayLoop_frame h.1, ih h.2 (by omega),
      List.append_assoc, List.length_append, Nat.add_assoc, List.length_cons,
      Nat.add_sub_add_right]
    rfl

theorem replayLoop_frames {rs : List Bytes} (h : ∀ r ∈ rs, Admissible r) {tail : Bytes}
    (ht : tail = [] ∨ Framing.Torn Admissible tail) {fuel : Nat} (hfuel : rs.length < fuel)
    (validBytes : Nat) (records : List Bytes) :
    replayLoop path fuel validBytes records (frames rs ++ tail) =
      .ok (records ++ rs, if tail = [] then none else some (validBytes + (frames rs).length)) := by
  obtain ⟨k, hk⟩ : ∃ k, fuel - rs.length = k + 1 := ⟨fuel - rs.length - 1, by omega⟩
  rw [replayLoop_append h hfuel.le, hk]
  by_cases hnil : tail = []
  · rw [hnil]
    rfl
  · rw [if_neg hnil, replayLoop_torn (ht.resolve_left hnil) hnil]

theorem length_le_frames (rs : List Bytes) : rs.length ≤ (frames rs).length := by
  induction rs with
  | nil => exact Nat.zero_le _
  | cons r rs ih =>
    rw [Framing.frames_cons, List.length_append, Framing.frame_length, List.length_cons]
    omega

/-- Whole frames and the beginning of one more: the file is cut back to the
whole frames. -/
theorem replay_frames {rs : List Bytes} (h : ∀ r ∈ rs, Admissible r) {tail : Bytes}
    (ht : tail = [] ∨ Framing.Torn Admissible tail) :
    replay path (frames rs ++ tail) = (.ok rs, frames rs) := by
  have hfuel : rs.length < (frames rs ++ tail).length + 1 := by
    have := length_le_frames rs
    rw [List.length_append]
    omega
  unfold replay
  rw [replayLoop_frames h ht hfuel]
  by_cases hnil : tail = []
  · simp [hnil]
  · simp [hnil, truncateLocked]

theorem replay_whole {rs : List Bytes} (h : ∀ r ∈ rs, Admissible r) :
    replay path (frames rs) = (.ok rs, frames rs) := by
  have := @replay_frames path rs h [] (.inl rfl)
  rwa [List.append_nil] at this

/-- Too short for a header, or the beginning of a frame. -/
def Unfinished (tail : Bytes) : Prop := tail.length < 4 ∨ Framing.Torn Admissible tail

/-- Conversely, what is read is a run of whole frames, and the file is cut right
behind them if anything follows. -/
theorem replayLoop_sound {fuel validBytes : Nat} {records rs : List Bytes} {cut : Option Nat}
    {rest : Bytes} (h : replayLoop path fuel validBytes records rest = .ok (rs, cut)) :
    ∃ new tail, rs = records ++ new ∧ rest = frames new ++ tail ∧ (∀ r ∈ new, Admissible r) ∧
      Unfinished tail ∧
      (cut = none ∧ tail = [] ∨ cut = some (validBytes + (frames new).length)) := by
  induction fuel generalizing validBytes records rest with
  | zero => cases h
  | succ fuel ih =>
    unfold replayLoop at h
    split at h
    · obtain ⟨rfl, rfl⟩ := Prod.mk.inj (Except.ok.inj h)
      exact ⟨[], [], (List.append_nil _).symm, rfl, by simp, .inl (by simp), .inl ⟨rfl, rfl⟩⟩
    · rename_i a b c d rest
      have hheader := Framing.header_size a b c d
      dsimp only at h
      generalize Framing.size a b c d = n at h hheader
      split at h
      · cases h
      rename_i hsize
      split at h
      · rename_i hlen
        obtain ⟨rfl, rfl⟩ := Prod.mk.inj (Except.ok.inj h)
        refine ⟨[], _, (List.append_nil _).symm, rfl, by simp, .inr ?_, .inr rfl⟩
        -- fill the record up to the size that its header announces
        refine ⟨rest ++ List.replicate (n - rest.length) 0, ⟨?_, ?_⟩, 4 + rest.length, ?_, ?_⟩
        · rw [List.length_append, List.length_replicate]
          omega
        · rw [List.length_append, List.length_replicate]
          omega
        · rw [Framing.frame_length, List.length_append, List.length_replicate]
          omega
        · have hfill : (rest ++ List.replicate (n - rest.length) 0).length = n := by
            rw [List.length_append, List.length_replicate]
            omega
          rw [frame, hfill, hheader, Nat.add_comm]
          simp
      rename_i hlen
      obtain ⟨new, tail, rfl, hrest, hnew, htail, hcut⟩ := ih h
      have htake : (rest.take n).length = n := by
        rw [List.length_take]
        omega
      have hframe : frame (rest.take n) = a :: b :: c :: d :: rest.take n := by
        rw [frame, htake, hheader]
        rfl
      refine ⟨rest.take n :: new, tail, by simp, ?_, ?_, htail, ?_⟩
      · rw [Framing.frames_cons, hframe, List.append_assoc, ← hrest]
        simp
      · rw [List.forall_mem_cons]
        exact ⟨⟨by omega, by omega⟩, hnew⟩
      · rw [Framing.frames_cons, List.length_append, Framing.frame_length, htake, ← Nat.add_assoc]
        exact hcut
    · rename_i hnil hfour
      obtain ⟨rfl, rfl⟩ := Prod.mk.inj (Except.ok.inj h)
      refine ⟨[], rest, (List.append_nil _).symm, rfl, by simp, .inl ?_, .inr rfl⟩
      rcases rest with _ | ⟨a, _ | ⟨b, _ | ⟨c, _ | ⟨d, rest⟩⟩⟩⟩
      · exact absurd rfl hnil
      · simp
      · simp
      · simp
      · exact absurd rfl (hfour a b c d rest)

theorem replay_sound {file file' : Bytes} {rs : List Bytes}
    (h : replay path file = (.ok rs, file')) :
    file' = frames rs ∧ (∃ tail, file = file' ++ tail ∧ Unfinished tail) ∧
      ∀ r ∈ rs, Admissible r := by
  unfold replay at h
  split at h
  · cases (Prod.mk.inj h).1
  · rename_i hloop
    obtain ⟨hrs, rfl⟩ := Prod.mk.inj h
    obtain rfl := Except.ok.inj hrs
    obtain ⟨new, tail, rfl, hfile, hnew, htail, ⟨-, rfl⟩ | hcut⟩ := replayLoop_sound hloop
    · rw [List.append_nil] at hfile
      exact ⟨hfile, ⟨[], (List.append_nil _).symm, htail⟩, hnew⟩
    · cases hcut
  · rename_i hloop
    obtain ⟨hrs, rfl⟩ := Prod.mk.inj h
    obtain rfl := Except.ok.inj hrs
    obtain ⟨new, tail, rfl, hfile, hnew, htail, ⟨hcut, -⟩ | hcut⟩ := replayLoop_sound hloop
    · cases hcut
    · rw [Nat.zero_add, Option.some.injEq] at hcut
      rw [truncateLocked, hcut, hfile, List.take_left]
      exact ⟨rfl, ⟨tail, rfl, htail⟩, hnew⟩

/-! ## The grammar of the file -/

/-- Behind whole frames there is a header with a size that no record has. -/
def Corrupt (file : Bytes) : Prop :=
  ∃ rs a b c d rest, (∀ r ∈ rs, Admissible r) ∧ file = frames rs ++ a :: b :: c :: d :: rest ∧
    (Framing.size a b c d = 0 ∨ Framing.size a b c d > maxRecordSize)

theorem replayLoop_corrupt {fuel validBytes : Nat} {records : List Bytes} {rest : Bytes}
    {err : String} (hfuel : rest.length < fuel)
    (h : replayLoop path fuel validBytes records rest = .error err) : Corrupt rest := by
  induction fuel generalizing validBytes records rest with
  | zero => exact absurd hfuel (Nat.not_lt_zero _)
  | succ fuel ih =>
    unfold replayLoop at h
    split at h
    · cases h
    · rename_i a b c d rest
      have hheader := Framing.header_size a b c d
      dsimp only at h
      generalize hn : Framing.size a b c d = n at h hheader
      split at h
      · rename_i hsize
        exact ⟨[], a, b, c, d, rest, by simp, rfl, hn ▸ hsize⟩
      rename_i hsize
      split at h
      · cases h
      rename_i hlen
      have hshort : (rest.drop n).length < fuel := by
        simp only [List.length_cons] at hfuel
        rw [List.length_drop]
        omega
      obtain ⟨rs, a', b', c', d', rest', hrs, hrest, hbad⟩ := ih hshort h
      have htake : (rest.take n).length = n := by
        rw [List.length_take]
        omega
      refine ⟨rest.take n :: rs, a', b', c', d', rest', ?_, ?_, hbad⟩
      · rw [List.forall_mem_cons]
        exact ⟨⟨by omega, by omega⟩, hrs⟩
      · rw [Framing.frames_cons, frame, htake, hheader, List.append_assoc, List.append_assoc, ← hrest,
          List.take_append_drop]
        rfl
    · cases h

/-- A bad header is never passed. -/
theorem Corrupt.replay_error {file : Bytes} (h : Corrupt file) :
    ∃ err, replay path file = (.error err, file) := by
  obtain ⟨rs, a, b, c, d, rest, hrs, rfl, hbad⟩ := h
  have hlen := length_le_frames rs
  have hfuel : rs.length ≤ (frames rs ++ a :: b :: c :: d :: rest).length + 1 := by
    rw [List.length_append]
    omega
  obtain ⟨k, hk⟩ : ∃ k, (frames rs ++ a :: b :: c :: d :: rest).length + 1 - rs.length = k + 1 :=
    ⟨(frames rs ++ a :: b :: c :: d :: rest).length - rs.length, by
      rw [List.length_append]
      omega⟩
  rw [replay, replayLoop_append hrs hfuel, hk]
  simp only [replayLoop, if_pos hbad]
  exact ⟨_, rfl⟩

theorem replay_cases (path : String) (file : Bytes) :
    Corrupt file ∨ ∃ rs, replay path file = (.ok rs, frames rs) := by
  cases hreplay : replay path file with
  | mk res file' =>
    cases res with
    | ok rs =>
      obtain ⟨rfl, -⟩ := replay_sound hreplay
      exact .inr ⟨rs, rfl⟩
    | error err =>
      unfold replay at hreplay
      split at hreplay
      · rename_i hloop
        exact .inl (replayLoop_corrupt (Nat.lt_succ_self _) hloop)
      · cases (Prod.mk.inj hreplay).1
      · cases (Prod.mk.inj hreplay).1

/-- Every run of whole frames at the start of the file is read. -/
theorem replay_longest {file : Bytes} {rs new : List Bytes} (h : (replay path file).1 = .ok rs)
    (hnew : ∀ r ∈ new, Admissible r) (hpre : frames new <+: file) : new <+: rs := by
  obtain ⟨rest, rfl⟩ := hpre
  have hfuel : new.length ≤ (frames new ++ rest).length + 1 := by
    have := length_le_frames new
    rw [List.length_append]
    omega
  rw [replay, replayLoop_append hnew hfuel, List.nil_append] at h
  -- what the loop has collected by then stays in front
  have hkeep : ∀ {res cut}, replayLoop path ((frames new ++ rest).length + 1 - new.length)
      (0 + (frames new).length) new rest = .ok (res, cut) → new <+: res := by
    intro res cut hloop
    obtain ⟨more, -, rfl, -⟩ := replayLoop_sound hloop
    exact List.prefix_append _ _
  split at h
  · cases h
  · rename_i hloop
    obtain rfl := Except.ok.inj h
    exact hkeep hloop
  · rename_i hloop
    obtain rfl := Except.ok.inj h
    exact hkeep hloop

/-- `Replay` accepts exactly the files of whole frames with something unfinished
behind, which it cuts off; it fails on a bad header, and leaves the file then. -/
theorem replay_grammar (path : String) (file : Bytes) :
    ((∃ err, (replay path file).1 = .error err) ↔ Corrupt file) ∧
    (Corrupt file → (replay path file).2 = file) ∧
    (¬ Corrupt file → ∃ rs tail, replay path file = (.ok rs, frames rs) ∧
      file = frames rs ++ tail ∧ Unfinished tail ∧ (∀ r ∈ rs, Admissible r) ∧
      (∀ new, (∀ r ∈ new, Admissible r) → frames new <+: file → new <+: rs) ∧
      replace path rs [] = (.ok (), frames rs) ∧
      replay path (frames rs) = (.ok rs, frames rs)) := by
  refine ⟨⟨?_, ?_⟩, ?_, ?_⟩
  · rintro ⟨err, herr⟩
    rcases replay_cases path file with hbad | ⟨rs, hrs⟩
    · exact hbad
    · rw [hrs] at herr
      cases herr
  · intro hbad
    obtain ⟨err, herr⟩ := @Corrupt.replay_error path file hbad
    exact ⟨err, by rw [herr]⟩
  · intro hbad
    obtain ⟨err, herr⟩ := @Corrupt.replay_error path file hbad
    rw [herr]
  · intro hgood
    obtain ⟨rs, hrs⟩ := (replay_cases path file).resolve_left hgood
    obtain ⟨-, ⟨tail, hfile, htail⟩, hok⟩ := replay_sound hrs
    refine ⟨rs, tail, hrs, hfile, htail, hok, fun new hnew hpre => ?_, replace_ok hok [],
      replay_whole hok⟩
    exact replay_longest (by rw [hrs]) hnew hpre

/-- One byte that no header of an admissible record starts with is cut off. -/
theorem replay_cuts_illegal_header :
    replay "log" [5] = (.ok [], []) ∧ ¬ Framing.Torn Admissible [5] := by
  refine ⟨rfl, ?_⟩
  rintro ⟨r, hr, n, -, hcut⟩
  have hsize : r.length ≤ 16777216 := hr.2
  cases n with
  | zero => cases hcut
  | succ n =>
    rw [frame, Framing.header, List.cons_append, List.take_succ_cons] at hcut
    have hbyte := congrArg UInt8.toNat (List.cons.inj hcut).1
    rw [UInt8.toNat_ofNat'] at hbyte
    change 5 = _ at hbyte
    omega

/-! ## Torn tails -/

/-- The file after a sequence of successful calls. -/
def written (path : String) (batches : List (List Bytes)) : Bytes :=
  batches.foldl (fun file batch => (appendBatch path batch file none).2) []

theorem written_eq {batches : List (List Bytes)} (h : ∀ b ∈ batches, ∀ r ∈ b, Admissible r) :
    written path batches = frames batches.flatten := by
  have hfold : ∀ file, batches.foldl (fun file batch => (appendBatch path batch file none).2) file =
      file ++ frames batches.flatten := by
    induction batches with
    | nil => simp
    | cons b bs ih =>
      rw [List.forall_mem_cons] at h
      intro file
      rw [List.foldl_cons, ih h.2, appendBatch_ok h.1, List.flatten_cons, Framing.frames_append,
        List.append_assoc]
  rw [written, hfold, List.nil_append]

/-- What a call stores is a piece of the frames of its admissible records. -/
theorem write_stores {chunk file file' : Bytes} {room room' : Option Nat}
    {res : Except String Unit} (h : write chunk file room = (res, file', room')) :
    (res = .ok () ∧ file' = file ++ chunk ∧ (room' = none ↔ room = none)) ∨
      ((∃ err, res = .error err) ∧ room ≠ none ∧ ∃ k, file' = file ++ chunk.take k) := by
  unfold write at h
  cases room with
  | none =>
    obtain ⟨rfl, rfl, rfl⟩ := h
    exact .inl ⟨rfl, rfl, Iff.rfl⟩
  | some n =>
    dsimp only at h
    split at h
    · obtain ⟨rfl, rfl, rfl⟩ := h
      exact .inl ⟨rfl, rfl, by simp⟩
    · obtain ⟨rfl, rfl, rfl⟩ := h
      exact .inr ⟨⟨_, rfl⟩, by simp, n, rfl⟩

theorem writeRecord_stores {record file file' : Bytes} {room room' : Option Nat}
    {res : Except String Unit} (h : writeRecord record file room = (res, file', room')) :
    (res = .ok () ∧ Admissible record ∧ file' = file ++ frame record ∧
        (room' = none ↔ room = none)) ∨
      ((∃ err, res = .error err) ∧ ((¬ Admissible record ∧ file' = file) ∨
        (Admissible record ∧ room ≠ none ∧ ∃ k, file' = file ++ (frame record).take k))) := by
  unfold writeRecord at h
  split at h
  · rename_i hsize
    obtain ⟨rfl, rfl, rfl⟩ := h
    exact .inr ⟨⟨_, rfl⟩, .inl ⟨fun hok => hok.size_ok hsize, rfl⟩⟩
  rename_i hsize
  have hok : Admissible record := ⟨by omega, by omega⟩
  cases hhead : write (Framing.header record.length) file room with
  | mk res₁ rest =>
    obtain ⟨file₁, room₁⟩ := rest
    rw [hhead] at h
    rcases write_stores hhead with ⟨rfl, rfl, hroom⟩ | ⟨⟨err, rfl⟩, hroom, k, rfl⟩
    · dsimp only at h
      rcases write_stores h with ⟨rfl, rfl, hroom'⟩ | ⟨herr, hroom', k, rfl⟩
      · exact .inl ⟨rfl, hok, List.append_assoc _ _ _, hroom'.trans hroom⟩
      · refine .inr ⟨herr, .inr ⟨hok, fun hnone => hroom' (hroom.mpr hnone), 4 + k, ?_⟩⟩
        rw [List.append_assoc]
        exact congrArg (file ++ ·) (List.take_length_add_append k).symm
    · obtain ⟨rfl, rfl, rfl⟩ := h
      refine .inr ⟨⟨err, rfl⟩, .inr ⟨hok, hroom, min k 4, ?_⟩⟩
      rw [frame, List.take_append_of_le_length (by rw [Framing.header_length]; omega)]
      congr 1
      rw [← Framing.header_length record.length, ← List.take_eq_take_min]

/-- The records of a batch before the first that is refused. -/
def accepted (batch : List Bytes) : List Bytes := batch.takeWhile fun r => Admissible r

theorem accepted_cons {r : Bytes} (h : Admissible r) (rs : List Bytes) :
    accepted (r :: rs) = r :: accepted rs := List.takeWhile_cons_of_pos (decide_eq_true h)

theorem writeRecords_stores {records : List Bytes} {file file' : Bytes} {room room' : Option Nat}
    {res : Except String Unit} (h : writeRecords records file room = (res, file', room')) :
    (res = .ok () ∧ (∀ r ∈ records, Admissible r) ∧ file' = file ++ frames records ∧
        (room' = none ↔ room = none)) ∨
      ((∃ err, res = .error err) ∧ ((∃ r ∈ records, ¬ Admissible r) ∨ room ≠ none) ∧
        ∃ k, file' = file ++ (frames (accepted records)).take k) := by
  induction records generalizing file room with
  | nil =>
    obtain ⟨rfl, rfl, rfl⟩ := h
    exact .inl ⟨rfl, by simp, by simp, Iff.rfl⟩
  | cons r rs ih =>
    unfold writeRecords at h
    cases hrec : writeRecord r file room with
    | mk res₁ rest =>
      obtain ⟨file₁, room₁⟩ := rest
      rw [hrec] at h
      rcases writeRecord_stores hrec with ⟨rfl, hok, rfl, hroom⟩ | ⟨⟨err, rfl⟩, hcase⟩
      · rcases ih h with ⟨rfl, hall, rfl, hroom'⟩ | ⟨herr, hwhy, k, rfl⟩
        · refine .inl ⟨rfl, List.forall_mem_cons.mpr ⟨hok, hall⟩, ?_, hroom'.trans hroom⟩
          rw [Framing.frames_cons, List.append_assoc]
        · refine .inr ⟨herr, ?_, (frame r).length + k, ?_⟩
          · rcases hwhy with ⟨x, hx, hbad⟩ | hroom'
            · exact .inl ⟨x, List.mem_cons_of_mem r hx, hbad⟩
            · exact .inr fun hnone => hroom' (hroom.mpr hnone)
          · rw [accepted_cons hok, Framing.frames_cons, List.append_assoc,
              List.take_length_add_append]
      · obtain ⟨rfl, rfl, rfl⟩ := h
        rcases hcase with ⟨hbad, rfl⟩ | ⟨hok, hroom, k, rfl⟩
        · exact .inr ⟨⟨_, rfl⟩, .inl ⟨r, List.mem_cons_self, hbad⟩, 0, by simp⟩
        · refine .inr ⟨⟨_, rfl⟩, .inr hroom, min k (frame r).length, ?_⟩
          rw [accepted_cons hok, Framing.frames_cons,
            List.take_append_of_le_length (Nat.min_le_right _ _), ← List.take_eq_take_min]

/-- On a file with room, the records before the first that is refused are stored. -/
theorem writeRecords_refused {records : List Bytes} (h : ¬ ∀ r ∈ records, Admissible r)
    (file : Bytes) :
    ∃ err, writeRecords records file none =
      (.error err, file ++ frames (accepted records), none) := by
  induction records generalizing file with
  | nil => exact absurd (by simp) h
  | cons r rs ih =>
    by_cases hr : Admissible r
    · have hrs : ¬ ∀ r ∈ rs, Admissible r := fun hall => h (List.forall_mem_cons.mpr ⟨hr, hall⟩)
      obtain ⟨err, herr⟩ := ih hrs (file ++ frame r)
      refine ⟨err, ?_⟩
      simp only [writeRecords, writeRecord_ok hr, herr, accepted_cons hr, Framing.frames_cons,
        List.append_assoc]
    · have hnil : accepted (r :: rs) = [] := List.takeWhile_cons_of_neg (by simpa using hr)
      have hsize : r.length = 0 ∨ r.length > maxRecordSize := by
        by_contra hcon
        exact hr ⟨by omega, by omega⟩
      simp only [writeRecords, writeRecord, if_pos hsize, hnil, Framing.frames_nil,
        List.append_nil]
      exact ⟨_, rfl⟩

theorem appendBatch_refused {records : List Bytes} (h : ¬ ∀ r ∈ records, Admissible r)
    (file : Bytes) :
    ∃ err, appendBatch path records file none =
      (.error err, file ++ frames (accepted records)) := by
  obtain ⟨err, herr⟩ := writeRecords_refused h file
  have hne : records ≠ [] := by
    rintro rfl
    exact h (by simp)
  rw [appendBatch, if_neg hne, herr]
  exact ⟨_, rfl⟩

theorem replace_refused {records : List Bytes} (h : ¬ ∀ r ∈ records, Admissible r)
    (file : Bytes) : ∃ err, replace path records file = (.error err, file) := by
  obtain ⟨err, herr⟩ := writeRecords_refused h []
  rw [replace, herr]
  exact ⟨_, rfl⟩

theorem appendBatch_stores {records : List Bytes} {file file' : Bytes} {room : Option Nat}
    {res : Except String Unit} (h : appendBatch path records file room = (res, file')) :
    (res = .ok () ∧ (∀ r ∈ records, Admissible r) ∧ file' = file ++ frames records) ∨
      ((∃ err, res = .error err) ∧ ∃ k, file' = file ++ (frames (accepted records)).take k) := by
  unfold appendBatch at h
  split at h
  · rename_i hnil
    obtain ⟨rfl, rfl⟩ := Prod.mk.inj h
    exact .inl ⟨rfl, by simp [hnil], by simp [hnil]⟩
  cases hw : writeRecords records file room with
  | mk res₁ rest =>
    obtain ⟨file₁, room₁⟩ := rest
    rw [hw] at h
    rcases writeRecords_stores hw with ⟨rfl, hall, rfl, -⟩ | ⟨⟨err, rfl⟩, -, k, rfl⟩
    · have hacc : accepted records = records :=
        List.takeWhile_eq_self_iff.mpr fun r hr => decide_eq_true (hall r hr)
      cases room₁ with
      | none =>
        obtain ⟨rfl, rfl⟩ := Prod.mk.inj h
        exact .inl ⟨rfl, hall, rfl⟩
      | some n =>
        obtain ⟨rfl, rfl⟩ := Prod.mk.inj h
        refine .inr ⟨⟨_, rfl⟩, (frames records).length, ?_⟩
        rw [hacc, List.take_length]
    · obtain ⟨rfl, rfl⟩ := Prod.mk.inj h
      exact .inr ⟨⟨_, rfl⟩, k, rfl⟩

theorem accepted_admissible (batch : List Bytes) : ∀ r ∈ accepted batch, Admissible r :=
  fun _ hr => of_decide_eq_true (List.mem_takeWhile_imp (p := fun r => Admissible r) hr)

/-- Whole frames, then a piece of the frames of some more records. -/
theorem replay_take {rs new : List Bytes} (h : ∀ r ∈ rs, Admissible r)
    (hnew : ∀ r ∈ new, Admissible r) (k : Nat) :
    replay path (frames rs ++ (frames new).take k) =
      (.ok (rs ++ Framing.complete k new), frames (rs ++ Framing.complete k new)) := by
  obtain ⟨tail, heq, htail⟩ := Framing.take_frames hnew k
  rw [heq, ← List.append_assoc, ← Framing.frames_append]
  refine replay_frames (fun r hr => ?_) htail
  rcases List.mem_append.mp hr with hr | hr
  · exact h r hr
  · exact hnew r ((Framing.complete_isPrefix k new).subset hr)

/-- Cut a file of records anywhere: `Replay` returns the records whose frames lie
wholly before the cut, leaves exactly those frames, and the next batch lands
right behind them. -/
theorem replay_torn_tail {batches : List (List Bytes)}
    (h : ∀ b ∈ batches, ∀ r ∈ b, Admissible r) (k : Nat) :
    ∃ m ≤ batches.flatten.length, (frames (batches.flatten.take m)).length ≤ k ∧
      (m < batches.flatten.length → k < (frames (batches.flatten.take (m + 1))).length) ∧
      replay path ((written path batches).take k) =
        (.ok (batches.flatten.take m), frames (batches.flatten.take m)) ∧
      ∀ new room file, appendBatch path new (frames (batches.flatten.take m)) room = (.ok (), file) →
        replay path file = (.ok (batches.flatten.take m ++ new), file) := by
  have hall : ∀ r ∈ batches.flatten, Admissible r := by
    intro r hr
    obtain ⟨b, hb, hrb⟩ := List.mem_flatten.mp hr
    exact h b hb r hrb
  obtain ⟨m, hm, hcomplete, hle, hlt⟩ := Framing.complete_eq_take k batches.flatten
  have hkept : ∀ r ∈ batches.flatten.take m, Admissible r :=
    fun r hr => hall r (List.mem_of_mem_take hr)
  refine ⟨m, hm, hle, hlt, ?_, fun new room file happend => ?_⟩
  · have := @replay_take path [] _ (by simp) hall k
    rwa [hcomplete, Framing.frames_nil, List.nil_append, List.nil_append, ← written_eq h] at this
  · rcases appendBatch_stores happend with ⟨-, hnew, rfl⟩ | ⟨⟨err, herr⟩, -⟩
    · rw [← Framing.frames_append]
      refine replay_whole fun r hr => ?_
      rcases List.mem_append.mp hr with hr | hr
      · exact hkept r hr
      · exact hnew r hr
    · cases herr

/-- Three records in two calls, cut inside the payload of the third. -/
theorem replay_torn_tail_three :
    ∃ m, replay "log" ((written "log" [[[7], [8, 8]], [[9, 9, 9]]]).take 16) =
        (.ok (([[7], [8, 8], [9, 9, 9]] : List Bytes).take m),
          frames (([[7], [8, 8], [9, 9, 9]] : List Bytes).take m)) ∧ m = 2 := by
  obtain ⟨m, hm, hle, hlt, hreplay, -⟩ :=
    @replay_torn_tail "log" [[[7], [8, 8]], [[9, 9, 9]]] (by decide) 16
  refine ⟨m, hreplay, ?_⟩
  have hcases : m = 0 ∨ m = 1 ∨ m = 2 ∨ m = 3 := by
    change m ≤ 3 at hm
    omega
  rcases hcases with rfl | rfl | rfl | rfl
  · exact absurd (hlt (by decide)) (by decide)
  · exact absurd (hlt (by decide)) (by decide)
  · rfl
  · exact absurd hle (by decide)

/-! ## Failed calls -/

/-- A call of `AppendBatch`, and how many bytes the file takes before it fails. -/
structure Call where
  batch : List Bytes
  room : Option Nat
  deriving DecidableEq, Repr

/-- The file after a sequence of calls, and what each of them returned. -/
def appendCalls (path : String) : List Call → Bytes → Bytes × List (Except String Unit)
  | [], file => (file, [])
  | c :: cs, file =>
      let (res, file) := appendBatch path c.batch file c.room
      let (file, results) := appendCalls path cs file
      (file, res :: results)

/-- The records of the successful calls, in order. -/
def acknowledged : List Call → List (Except String Unit) → List Bytes
  | c :: cs, .ok () :: results => c.batch ++ acknowledged cs results
  | _ :: cs, .error _ :: results => acknowledged cs results
  | _, _ => []

/-- Nothing goes wrong in the call. One without records does not touch the file. -/
def Call.Whole (c : Call) : Prop :=
  c.batch = [] ∨ c.room = none ∧ ∀ r ∈ c.batch, Admissible r

/-- The call fails before it stores its first byte: its first record is refused,
or the file takes nothing. -/
def Call.Inert (c : Call) : Prop :=
  ∃ r rs, c.batch = r :: rs ∧ (¬ Admissible r ∨ c.room = some 0)

/-- A call in which something goes wrong later is followed by inert calls only. -/
def Contained : List Call → Prop
  | [] => True
  | c :: cs => (c.Whole ∨ c.Inert) ∧ Contained cs ∨ ∀ d ∈ cs, d.Inert

/-- The records are a prefix of one failed batch, and no later call succeeded. -/
def OnlyAtEnd (calls : List Call) (results : List (Except String Unit)) (extra : List Bytes) :
    Prop :=
  extra = [] ∨ ∃ (k : Nat) (c : Call) (err : String), calls[k]? = some c ∧ extra <+: c.batch ∧
    results[k]? = some (Except.error err) ∧ ∀ j > k, results[j]? ≠ some (Except.ok ())

theorem OnlyAtEnd.cons {calls : List Call} {results : List (Except String Unit)}
    {extra : List Bytes} (h : OnlyAtEnd calls results extra) (c : Call)
    (res : Except String Unit) : OnlyAtEnd (c :: calls) (res :: results) extra := by
  rcases h with rfl | ⟨k, d, err, hk, hpre, hres, hlater⟩
  · exact Or.inl rfl
  · refine Or.inr ⟨k + 1, d, err, hk, hpre, hres, fun j hj => ?_⟩
    obtain ⟨j, rfl⟩ : ∃ i, j = i + 1 := ⟨j - 1, by omega⟩
    exact hlater j (by omega)

theorem Call.Inert.append {c : Call} (h : c.Inert) (file : Bytes) :
    ∃ err, appendBatch path c.batch file c.room = (.error err, file) := by
  obtain ⟨r, rs, hbatch, hwhy⟩ := h
  have hfirst : ∃ err room, writeRecord r file c.room = (.error err, file, room) := by
    unfold writeRecord
    split
    · exact ⟨_, _, rfl⟩
    · rename_i hsize
      have hroom : c.room = some 0 := hwhy.resolve_left fun hbad => hbad ⟨by omega, by omega⟩
      rw [hroom]
      exact ⟨"short write", some 0, by simp [write, Framing.header]⟩
  obtain ⟨err, room, hfirst⟩ := hfirst
  simp only [appendBatch, hbatch, reduceCtorEq, ↓reduceIte, writeRecords, hfirst]
  exact ⟨_, rfl⟩

theorem Call.Whole.append {c : Call} (h : c.Whole) (file : Bytes) :
    appendBatch path c.batch file c.room = (.ok (), file ++ frames c.batch) := by
  rcases h with hnil | ⟨hroom, hfits⟩
  · rw [hnil, appendBatch, if_pos rfl, Framing.frames_nil, List.append_nil]
  · rw [hroom]
    exact appendBatch_ok hfits file

theorem Call.Whole.fits {c : Call} (h : c.Whole) : ∀ r ∈ c.batch, Admissible r := by
  rcases h with hnil | ⟨-, hfits⟩
  · simp [hnil]
  · exact hfits

/-- Calls without records and inert calls leave no trace. -/
theorem appendCalls_idle {calls : List Call} (h : ∀ c ∈ calls, c.batch = [] ∨ c.Inert)
    (file : Bytes) : (appendCalls path calls file).1 = file ∧
      acknowledged calls (appendCalls path calls file).2 = [] := by
  induction calls with
  | nil => exact ⟨rfl, rfl⟩
  | cons c cs ih =>
    rw [List.forall_mem_cons] at h
    obtain ⟨hfile, hack⟩ := ih h.2
    rcases h.1 with hnil | hinert
    · have happend : appendBatch path c.batch file c.room = (.ok (), file) := if_pos hnil
      simp only [appendCalls, happend, acknowledged]
      rw [hnil, List.nil_append]
      exact ⟨hfile, hack⟩
    · obtain ⟨err, herr⟩ := @Call.Inert.append path c hinert file
      simp only [appendCalls, herr, acknowledged]
      exact ⟨hfile, hack⟩

/-- No inert call succeeds. -/
theorem appendCalls_inert {calls : List Call} (h : ∀ c ∈ calls, c.Inert) (file : Bytes) :
    ∀ res ∈ (appendCalls path calls file).2, res ≠ .ok () := by
  induction calls generalizing file with
  | nil => simp [appendCalls]
  | cons c cs ih =>
    rw [List.forall_mem_cons] at h
    obtain ⟨err, herr⟩ := @Call.Inert.append path c h.1 file
    simp only [appendCalls, herr, List.forall_mem_cons]
    exact ⟨by simp, ih h.2 file⟩

theorem replay_contained {file : Bytes} {rs : List Bytes} (hrs : ∀ r ∈ rs, Admissible r)
    (hfile : file = frames rs) {calls : List Call} (hc : Contained calls) :
    ∃ extra file', replay path (appendCalls path calls file).1 =
        (.ok (rs ++ acknowledged calls (appendCalls path calls file).2 ++ extra), file') ∧
      OnlyAtEnd calls (appendCalls path calls file).2 extra := by
  induction calls generalizing rs file with
  | nil =>
    refine ⟨[], file, ?_, Or.inl rfl⟩
    change replay path file = (.ok (rs ++ [] ++ []), file)
    rw [hfile, replay_whole hrs, List.append_nil, List.append_nil]
  | cons c cs ih =>
    have happend_rs : ∀ {new}, (∀ r ∈ new, Admissible r) → ∀ r ∈ rs ++ new, Admissible r := by
      intro new hnew r hr
      rcases List.mem_append.mp hr with hr | hr
      · exact hrs r hr
      · exact hnew r hr
    rcases hc with ⟨hwhole | hinert, hcs⟩ | hlast
    · -- the whole batch is stored, and the file consists of whole frames again
      have happend := @Call.Whole.append path c hwhole file
      obtain ⟨extra, file', hreplay, hextra⟩ := ih (happend_rs hwhole.fits)
        (show file ++ frames c.batch = _ by rw [Framing.frames_append, hfile]) hcs
      simp only [appendCalls, happend, acknowledged]
      exact ⟨extra, file', by rw [hreplay, List.append_assoc rs c.batch], hextra.cons c _⟩
    · obtain ⟨err, herr⟩ := @Call.Inert.append path c hinert file
      obtain ⟨extra, file', hreplay, hextra⟩ := ih hrs hfile hcs
      simp only [appendCalls, herr, acknowledged]
      exact ⟨extra, file', hreplay, hextra.cons c _⟩
    · cases happend : appendBatch path c.batch file c.room with
      | mk res file₁ =>
        have hlater := @appendCalls_inert path cs hlast file₁
        obtain ⟨hfile₁, hack⟩ := @appendCalls_idle path cs (fun d hd => .inr (hlast d hd)) file₁
        rcases appendBatch_stores happend with ⟨rfl, hall, rfl⟩ | ⟨⟨err, rfl⟩, k, rfl⟩
        · simp only [appendCalls, happend, acknowledged, hfile₁, hack]
          refine ⟨[], frames (rs ++ c.batch), ?_, Or.inl rfl⟩
          rw [hfile, ← Framing.frames_append, List.append_nil, List.append_nil]
          exact replay_whole (happend_rs hall)
        · simp only [appendCalls, happend, acknowledged, hfile₁, hack, List.append_nil]
          refine ⟨Framing.complete k (accepted c.batch),
            frames (rs ++ Framing.complete k (accepted c.batch)), ?_,
            Or.inr ⟨0, c, err, rfl, ?_, rfl, ?_⟩⟩
          · rw [hfile]
            exact replay_take hrs (accepted_admissible c.batch) k
          · exact (Framing.complete_isPrefix _ _).trans (List.takeWhile_prefix _)
          · intro j hj
            obtain ⟨j, rfl⟩ : ∃ i, j = i + 1 := ⟨j - 1, by omega⟩
            exact fun hok => hlater _ (List.mem_of_getElem? hok) rfl

/-- In a run of calls on a file of whole frames, whose failures are contained,
every successful batch can be read back behind the records that were there, and
of a failed batch at most a prefix, at the very end, when no later call
succeeded. A file with a torn tail only stands calls that leave it alone. -/
theorem replay_appendCalls {file file' : Bytes} {rs : List Bytes}
    (h : replay path file = (.ok rs, file')) {calls : List Call}
    (hc : file' = file ∧ Contained calls ∨ ∀ c ∈ calls, c.batch = [] ∨ c.Inert) :
    ∃ extra file'', replay path (appendCalls path calls file).1 =
        (.ok (rs ++ acknowledged calls (appendCalls path calls file).2 ++ extra), file'') ∧
      OnlyAtEnd calls (appendCalls path calls file).2 extra := by
  rcases hc with ⟨rfl, hc⟩ | hidle
  · obtain ⟨hframes, -, hrs⟩ := replay_sound h
    exact replay_contained hrs hframes hc
  · obtain ⟨hfile, hack⟩ := @appendCalls_idle path calls hidle file
    refine ⟨[], file', ?_, Or.inl rfl⟩
    rw [hfile, hack, h]
    simp

/-- A call that cannot store its second record, after one that went through. -/
theorem replay_appendCalls_last :
    ∃ extra file', replay "log" (appendCalls "log" [⟨[[7]], none⟩, ⟨[[8], [9]], some 5⟩] []).1 =
        (.ok ([] ++ [[7]] ++ extra), file') ∧
      OnlyAtEnd [⟨[[7]], none⟩, ⟨[[8], [9]], some 5⟩]
        (appendCalls "log" [⟨[[7]], none⟩, ⟨[[8], [9]], some 5⟩] []).2 extra := by
  have hc : Contained [⟨[[7]], none⟩, ⟨[[8], [9]], some 5⟩] :=
    .inl ⟨.inl (.inr ⟨rfl, by decide⟩), .inr (by simp)⟩
  exact @replay_appendCalls "log" [] [] [] rfl _ (.inl ⟨rfl, hc⟩)

/-- A header cut in half makes the file unreadable once a later batch succeeds,
and the stored first record of a refused batch is read back in the middle. -/
theorem failed_append_damages :
    (∃ err err', (appendCalls "log" [⟨[[7]], some 2⟩, ⟨[[8]], none⟩] []).2 =
        [.error err, .ok ()] ∧
      (replay "log" (appendCalls "log" [⟨[[7]], some 2⟩, ⟨[[8]], none⟩] []).1).1 = .error err') ∧
    (∃ err, (appendCalls "log" [⟨[[7], []], none⟩, ⟨[[8]], none⟩] []).2 = [.error err, .ok ()] ∧
      (replay "log" (appendCalls "log" [⟨[[7], []], none⟩, ⟨[[8]], none⟩] []).1).1 =
        .ok [[7], [8]]) :=
  ⟨⟨_, _, rfl, rfl⟩, _, rfl, rfl⟩

/-! ## The open file -/

/-- A `WAL` object. Closing it keeps the file. -/
structure Handle where
  path : String
  file : Bytes
  isOpen : Bool
  deriving DecidableEq, Repr

/-- `NewWAL` on a path whose file holds these bytes. -/
def newWAL (path : String) (file : Bytes) : Handle := ⟨path, file, true⟩

namespace Handle

def appendBatch (records : List Bytes) (room : Option Nat) (w : Handle) :
    Except String Unit × Handle :=
  if records = [] then (.ok (), w)
  else if w.isOpen = false then (.error "append to closed WAL", w)
  else
    let (res, file) := Wal.appendBatch w.path records w.file room
    (res, { w with file })

def replay (w : Handle) : Except String (List Bytes) × Handle :=
  if w.isOpen = false then (.error "replay closed WAL", w)
  else
    let (res, file) := Wal.replay w.path w.file
    (res, { w with file })

def replace (records : List Bytes) (w : Handle) : Except String Unit × Handle :=
  if w.isOpen = false then (.error "replace closed WAL", w)
  else
    let (res, file) := Wal.replace w.path records w.file
    (res, { w with file })

def close (w : Handle) : Handle := { w with isOpen := false }

end Handle

end Wal

end DistributedKv
