import DistributedKv.Lib.Slot
import DistributedKv.Raft.Disk
import DistributedKv.Store.Memory

/-!
The stable state (`internal/raft/stable_state.go`) and the snapshot
(`internal/snapshot/snapshot.go`) in their files, down to the system calls.
`encoding/json` is a parameter.

Whatever calls fail and wherever processes die, a `Load` after a power failure
succeeds and gives what the last acknowledged `Save` was given or what a later one
was (`FileStableStore.load_last_saved`, `FileStore.load_last_snapshot`).
-/

namespace DistributedKv

open Crash Prog Volume

/-- What a second `Decode` finds behind the first value. -/
inductive Trailing where
  | eof
  | value
  | invalid (err : String)
  deriving DecidableEq, Repr

/-- `json.Encoder` and `json.Decoder` on the values of one type; `decode` also
returns what follows the value. -/
structure JsonFile (α : Type) where
  encode : α → Bytes
  decode : Bytes → Except String (α × Bytes)
  trailing : Bytes → Trailing

namespace JsonFile

variable {α : Type} (json : JsonFile α)

/-- The value comes back, with nothing behind it. -/
def Keeps (a : α) : Prop :=
  ∃ rest, json.decode (json.encode a) = .ok (a, rest) ∧ json.trailing rest = .eof

/-- The part that the two `Load` functions share: exactly one value in the file. -/
def decodeOnly (what path : String) (content : Bytes) : Except String α :=
  match json.decode content with
  | .error err => .error s!"decode {what} {repr path}: {err}"
  | .ok (a, rest) =>
      match json.trailing rest with
      | .eof => .ok a
      | .value => .error s!"decode {what} {repr path}: contains multiple JSON values"
      | .invalid err => .error s!"decode {what} {repr path}: {err}"

theorem Keeps.decodeOnly {json : JsonFile α} {a : α} (h : json.Keeps a) (what path : String) :
    json.decodeOnly what path (json.encode a) = .ok a := by
  obtain ⟨rest, hdecode, heof⟩ := h
  simp only [JsonFile.decodeOnly, hdecode, heof]

/-- Open and read the file: `none` if there is none. -/
def loadFile {V : Type} (what path : String) : Prog V Vol (Except String (Option α)) := do
  match ← attempt with
  | .error err => return .error s!"open {what} {repr path}: {err}"
  | .ok () =>
  let v ← disk
  match v.read (.path path) with
  | none => return .ok none
  | some content =>
      match ← attempt with
      | .error err => return .error s!"decode {what} {repr path}: {err}"
      | .ok () => return (json.decodeOnly what path content).map some

/-- What `loadFile` finds when no call fails. -/
def found (what path : String) (v : Vol) : Except String (Option α) :=
  match v.read (.path path) with
  | none => .ok none
  | some content => (json.decodeOnly what path content).map some

end JsonFile

/-- The texts of the errors of a `Save`; `dir` is the directory of the file. -/
def saveMessages (what path dir write : String) : Messages where
  create err := s!"create temporary {what}: {err}"
  write err := s!"{write}: {err}"
  sync err := s!"sync temporary {what}: {err}"
  close err := s!"close temporary {what}: {err}"
  rename err := s!"replace {what} {repr path}: {err}"
  openDir err := s!"open {what} directory {repr dir}: {err}"
  syncDir err := s!"sync {what} directory {repr dir}: {err}"

/-! ## The stable state -/

namespace FileStableStore

variable (json : JsonFile StableState) (path dir : String)

def check (state : StableState) : Except String Unit :=
  if state.votedFor < noVote then .error s!"invalid voted_for {state.votedFor}"
  else if state.lastApplied > state.commitIndex then
    .error "last_applied cannot exceed commit_index"
  else .ok ()

def slot : Slot StableState where
  file := path
  messages := saveMessages "Raft state" path dir "encode Raft state"
  mkdir err := s!"create Raft state directory {repr dir}: {err}"
  check := check
  encode := json.encode

def save {V : Type} (state : StableState) : Prog V Vol (Except String Unit) :=
  (slot json path dir).save state

/-- What `Load` makes of what it reads. -/
def accept : Option StableState → Except String StableState
  | none => .ok .initial
  | some state =>
      if state.votedFor < noVote then
        .error s!"decode Raft state {repr path}: invalid voted_for {state.votedFor}"
      else if state.lastApplied > state.commitIndex then
        .error s!"decode Raft state {repr path}: last_applied exceeds commit_index"
      else .ok state

def load {V : Type} : Prog V Vol (Except String StableState) := do
  match ← json.loadFile "Raft state" path with
  | .error err => return .error err
  | .ok found => return accept path found

end FileStableStore

/-! ## The snapshot -/

def formatVersion : Nat := 1

structure DiskSnapshot where
  version : Nat
  lastIncludedIndex : Nat
  lastIncludedTerm : Nat
  data : Bytes
  checksum : Bytes
  deriving DecidableEq, Repr

structure ChecksumPayload where
  version : Nat
  lastIncludedIndex : Nat
  lastIncludedTerm : Nat
  data : Bytes

namespace FileStore

variable (json : JsonFile DiskSnapshot) (sum : ChecksumPayload → Bytes) (path dir : String)

/-- `sum` is the digest of the JSON of the payload, in hexadecimal. -/
def checksumFor (s : Snapshot) : Bytes :=
  sum ⟨formatVersion, s.lastIncludedIndex, s.lastIncludedTerm, s.data⟩

def diskSnapshot (s : Snapshot) : DiskSnapshot :=
  ⟨formatVersion, s.lastIncludedIndex, s.lastIncludedTerm, s.data, checksumFor sum s⟩

def slot : Slot Snapshot where
  file := path
  messages := saveMessages "snapshot" path dir "write temporary snapshot"
  mkdir err := s!"create snapshot directory {repr dir}: {err}"
  check := Snapshot.validate
  encode s := json.encode (diskSnapshot sum s)

def save {V : Type} (s : Snapshot) : Prog V Vol (Except String Unit) :=
  (slot json sum path dir).save s

/-- What `Load` makes of what it reads. The file does not say which entries the
image stands for. -/
def accept : Option DiskSnapshot → Except String (Option Snapshot)
  | none => .ok none
  | some disk =>
      if disk.version ≠ formatVersion then
        .error s!"snapshot {repr path} has unsupported format version {disk.version}"
      else
        let result : Snapshot := ⟨disk.lastIncludedIndex, disk.lastIncludedTerm, disk.data, []⟩
        match result.validate with
        | .error err => .error s!"invalid snapshot {repr path}: {err}"
        | .ok () =>
            if disk.checksum ≠ checksumFor sum result then
              .error s!"snapshot {repr path} checksum mismatch"
            else .ok (some result)

def load {V : Type} : Prog V Vol (Except String (Option Snapshot)) := do
  match ← json.loadFile "snapshot" path with
  | .error err => return .error err
  | .ok found => return accept sum path found

end FileStore

/-! ## What is loaded -/

def intBytes : Int → Bytes
  | .ofNat n => 0 :: List.replicate n 0
  | .negSucc n => 1 :: List.replicate n 0

def intOf : Bytes → Except String Int
  | 0 :: rest => .ok (.ofNat rest.length)
  | 1 :: rest => .ok (.negSucc rest.length)
  | _ => .error "invalid number"

theorem intOf_intBytes (n : Int) : intOf (intBytes n) = .ok n := by
  cases n <;> simp [intBytes, intOf]

section Loading

variable {α : Type} {json : JsonFile α} {v : Vol} {what path : String}

theorem possible_empty (name : Name) (o : Option Bytes) (h : Vol.empty.Possible name o) :
    o = none := by
  cases o with
  | none => rfl
  | some b =>
    obtain ⟨i, f, hi, -⟩ := h
    cases List.mem_singleton.mp hi

theorem wp_loadFile {V : Type} {allow : Outcome → Prop} {R : Vol → Prop} {s : V}
    {Q : Except String (Option α) → V → Vol → Prop} (hR : R v) (hok : Q (json.found what path v) s v)
    (herr : Faulty allow → ∀ err, Q (.error err) s v) :
    wp allow R (json.loadFile what path) Q s v := by
  rw [JsonFile.loadFile, wp_bind]
  refine wp_trial hR ?_ fun hf err => herr hf _
  rw [wp_bind, wp_disk]
  unfold JsonFile.found at hok
  cases hread : v.read (.path path) with
  | none =>
    rw [hread] at hok
    exact hok
  | some content =>
    rw [hread] at hok
    rw [wp_bind]
    exact wp_trial hR hok fun hf err => herr hf _

theorem run_loadFile {V : Type} (json : JsonFile α) (what path : String) (s : V) (v : Vol) :
    (json.loadFile what path).run [] s v = .done (json.found what path v) s v := by
  refine @run_eq_of_wp _ _ _ (fun _ => False) (fun _ => True) _ _ _ _ _ _ ?_
  refine wp_loadFile trivial ⟨rfl, rfl, rfl⟩ ?_
  rintro ⟨_, hf | hf⟩ <;> exact hf.elim

theorem JsonFile.found_none (h : v.read (.path path) = none) : json.found what path v = .ok none := by
  rw [JsonFile.found, h]

theorem JsonFile.Keeps.found {a : α} (hk : json.Keeps a)
    (h : v.read (.path path) = some (json.encode a)) : json.found what path v = .ok (some a) := by
  rw [JsonFile.found, h]
  simp only [hk.decodeOnly, Except.map]

end Loading

namespace FileStableStore

variable {json : JsonFile StableState} {path dir : String} {state : StableState} {v v' : Vol}

theorem check_ok_iff : check state = .ok () ↔ state.Accepted := by
  unfold check StableState.Accepted
  split
  · rename_i hvote
    exact ⟨fun h => (by cases h), fun h => absurd h.1 (Int.not_le.mpr hvote)⟩
  split
  · rename_i happlied
    exact ⟨fun h => (by cases h), fun h => absurd h.2 (Nat.not_le.mpr happlied)⟩
  · rename_i hvote happlied
    exact ⟨fun _ => ⟨Int.not_lt.mp hvote, Nat.not_lt.mp happlied⟩, fun _ => rfl⟩

theorem accept_some (h : state.Accepted) : accept path (some state) = .ok state := by
  simp only [accept, if_neg (Int.not_lt.mpr h.1), if_neg (Nat.not_lt.mpr h.2)]

theorem run_load {V : Type} {s : V} {found : Option StableState}
    (h : json.found "Raft state" path v = .ok found) :
    (load json path).run [] s v = .done (accept path found) s v := by
  rw [load, run_bind_nil _ _ (run_loadFile json _ path s v), h]
  rfl

theorem wp_load {V : Type} {allow : Outcome → Prop} {R : Vol → Prop} {s : V}
    {Q : Except String StableState → V → Vol → Prop} (hR : R v)
    (hok : Q (json.found "Raft state" path v >>= accept path) s v)
    (herr : Faulty allow → ∀ err, Q (.error err) s v) :
    wp allow R (load json path) Q s v := by
  rw [load, wp_bind]
  refine wp_loadFile hR ?_ herr
  cases hfound : json.found "Raft state" path v with
  | error err =>
    rw [hfound] at hok
    exact hok
  | ok found =>
    rw [hfound] at hok
    exact hok

/-- On a path that was free at first, `Load` finds the state of the last
acknowledged `Save` or of a later one, and the initial state only if no `Save` was
acknowledged at all. -/
theorem load_last_saved {events : List (Slot.Event StableState)}
    {results : List (Option (Except String Unit))}
    (hjson : ∀ state : StableState, state.Accepted → json.Keeps state)
    (hnew : ∀ o, v.Possible (.path path) o → o = none)
    (h : (slot json path dir).Session events results v v') :
    ∃ state, (load json path).run [] () v' = .done (.ok state) () v' ∧ state.Accepted ∧
      ((state = .initial ∧ ∀ r ∈ results, r ≠ some (.ok ())) ∨
        ∃ (k : Nat) (answers : List Outcome), events[k]? = some (.save state answers) ∧
          ∀ j : Nat, k < j → results[j]? ≠ some (some (.ok ()))) := by
  cases h.explained (v'.possible_read (.path path)) with
  | start hposs hno =>
    have hread : v'.read (.path path) = none := hnew _ hposs
    exact ⟨.initial, run_load (JsonFile.found_none hread), ⟨Int.le_refl _, Nat.le_refl _⟩,
      .inl ⟨rfl, hno⟩⟩
  | saved k state answers hk hcheck ho hno =>
    have haccepted := check_ok_iff.mp hcheck
    have hread : v'.read (.path path) = some (json.encode state) := ho
    refine ⟨state, ?_, haccepted, .inr ⟨k, answers, hk, hno⟩⟩
    rw [run_load ((hjson state haccepted).found hread), accept_some haccepted]

/-- The four fields in frames, the numbers as strings of that length. -/
def framed : JsonFile StableState where
  encode s :=
    Json.frame (List.replicate s.currentTerm 0) ++ (Json.frame (intBytes s.votedFor) ++
      (Json.frame (List.replicate s.commitIndex 0) ++
        (Json.frame (List.replicate s.lastApplied 0) ++ [])))
  decode content :=
    match Json.unframe [] content with
    | [term, vote, commit, applied] =>
        (intOf vote).map fun votedFor =>
          (⟨term.length, votedFor, commit.length, applied.length⟩, [])
    | _ => .error "invalid record"
  trailing rest := if rest = [] then .eof else .value

theorem framed_keeps (state : StableState) : framed.Keeps state := by
  refine ⟨[], ?_, rfl⟩
  simp only [framed, Json.unframe_frame, List.nil_append, Json.unframe, intOf_intBytes,
    List.length_replicate]
  rfl

/-- A vote is saved; the directory cannot be synced when the next term is, and
then the power fails. -/
def lostTerm : List (Slot.Event StableState) :=
  [.save ⟨1, 2, 0, 0⟩ [], .save ⟨2, noVote, 0, 0⟩ (List.replicate 16 .ok ++ [.fail "EIO"]),
    .powerFailure ⟨fun _ => 0, fun _ => 1⟩]

theorem load_last_saved_lostTerm :
    ∃ (err : String) (v : Vol) (state : StableState),
      (slot framed "raft-state.json" ".").Session lostTerm
        [some (.ok ()), some (.error err), none] .empty v ∧
      (load framed "raft-state.json").run [] () v = .done (.ok state) () v ∧
      (state = ⟨1, 2, 0, 0⟩ ∨ state = ⟨2, noVote, 0, 0⟩) := by
  have hsession : (slot framed "raft-state.json" ".").Session lostTerm
      [some (.ok ()), some (.error _), none] .empty _ :=
    .event rfl (.event rfl (.event rfl (.nil _)))
  obtain ⟨state, hload, -, hstate⟩ :=
    load_last_saved (fun s _ => framed_keeps s) (possible_empty _) hsession
  refine ⟨_, _, state, hsession, hload, ?_⟩
  rcases hstate with ⟨-, hno⟩ | ⟨k, answers, hk, hno⟩
  · exact absurd rfl (hno _ List.mem_cons_self)
  · have hmem : Slot.Event.save state answers ∈ lostTerm := List.mem_of_getElem? hk
    simp only [lostTerm, List.mem_cons, Slot.Event.save.injEq, reduceCtorEq, List.not_mem_nil,
      or_false] at hmem
    exact hmem.imp And.left And.left

end FileStableStore

namespace FileStore

variable {json : JsonFile DiskSnapshot} {sum : ChecksumPayload → Bytes} {path dir : String}
  {s : Snapshot} {v v' : Vol}

theorem accept_diskSnapshot (h : s.validate = .ok ()) :
    accept sum path (some (diskSnapshot sum s)) = .ok (some { s with covers := [] }) := by
  have hvalid : ({ s with covers := [] } : Snapshot).validate = .ok () := h
  simp only [accept, diskSnapshot, ne_eq, not_true_eq_false, if_false, hvalid]
  simp only [checksumFor, not_true_eq_false, if_false]

theorem run_load {V : Type} (t : V) (v : Vol) :
    (load json sum path).run [] t v =
      .done (json.found "snapshot" path v >>= accept sum path) t v := by
  rw [load, run_bind_nil _ _ (run_loadFile json _ path t v)]
  cases json.found "snapshot" path v <;> rfl

theorem wp_load {V : Type} {allow : Outcome → Prop} {R : Vol → Prop} {t : V}
    {Q : Except String (Option Snapshot) → V → Vol → Prop} (hR : R v)
    (hok : Q (json.found "snapshot" path v >>= accept sum path) t v)
    (herr : Faulty allow → ∀ err, Q (.error err) t v) :
    wp allow R (load json sum path) Q t v := by
  rw [load, wp_bind]
  refine wp_loadFile hR ?_ herr
  cases hfound : json.found "snapshot" path v with
  | error err =>
    rw [hfound] at hok
    exact hok
  | ok found =>
    rw [hfound] at hok
    exact hok

/-- On a path that was free at first, `Load` finds the snapshot of the last
acknowledged `Save` or of a later one, and none only if no `Save` was acknowledged
at all. -/
theorem load_last_snapshot {events : List (Slot.Event Snapshot)}
    {results : List (Option (Except String Unit))}
    (hjson : ∀ s : Snapshot, s.validate = .ok () → json.Keeps (diskSnapshot sum s))
    (hnew : ∀ o, v.Possible (.path path) o → o = none)
    (h : (slot json sum path dir).Session events results v v') :
    ((load json sum path).run [] () v' = .done (.ok none) () v' ∧
        ∀ r ∈ results, r ≠ some (.ok ())) ∨
      ∃ (k : Nat) (s : Snapshot) (answers : List Outcome), events[k]? = some (.save s answers) ∧
        s.validate = .ok () ∧
        (load json sum path).run [] () v' = .done (.ok (some { s with covers := [] })) () v' ∧
        ∀ j : Nat, k < j → results[j]? ≠ some (some (.ok ())) := by
  cases h.explained (v'.possible_read (.path path)) with
  | start hposs hno =>
    have hread : v'.read (.path path) = none := hnew _ hposs
    refine .inl ⟨?_, hno⟩
    rw [run_load, JsonFile.found_none hread]
    rfl
  | saved k s answers hk hcheck ho hno =>
    have hread : v'.read (.path path) = some (json.encode (diskSnapshot sum s)) := ho
    refine .inr ⟨k, s, answers, hk, hcheck, ?_, hno⟩
    rw [run_load, (hjson s hcheck).found hread]
    exact congrArg (Exit.done · () v') (accept_diskSnapshot hcheck)

/-- The five fields in frames, the numbers as strings of that length. -/
def framed : JsonFile DiskSnapshot where
  encode s :=
    Json.frame (List.replicate s.version 0) ++ (Json.frame (List.replicate s.lastIncludedIndex 0) ++
      (Json.frame (List.replicate s.lastIncludedTerm 0) ++ (Json.frame s.data ++
        (Json.frame s.checksum ++ []))))
  decode content :=
    match Json.unframe [] content with
    | [version, index, term, data, checksum] =>
        .ok (⟨version.length, index.length, term.length, data, checksum⟩, [])
    | _ => .error "invalid record"
  trailing rest := if rest = [] then .eof else .value

theorem framed_keeps (disk : DiskSnapshot) : framed.Keeps disk := by
  refine ⟨[], ?_, rfl⟩
  simp only [framed, Json.unframe_frame, List.nil_append, Json.unframe, List.length_replicate]

/-- The process dies while it writes its second snapshot, and the power fails. -/
def lostSnapshot : List (Slot.Event Snapshot) :=
  [.save ⟨1, 1, [7], []⟩ [], .save ⟨2, 1, [8], []⟩ (List.replicate 9 .ok ++ [.crash 1]),
    .powerFailure ⟨fun _ => 0, fun _ => 0⟩]

theorem load_last_snapshot_lostSnapshot :
    ∃ (v : Vol) (s : Snapshot),
      (slot framed (fun payload => payload.data) "raft-snapshot.json" ".").Session lostSnapshot
        [some (.ok ()), none, none] .empty v ∧
      (load framed (fun payload => payload.data) "raft-snapshot.json").run [] () v =
        .done (.ok (some s)) () v ∧
      (s = ⟨1, 1, [7], []⟩ ∨ s = ⟨2, 1, [8], []⟩) := by
  have hsession : (slot framed (fun payload => payload.data) "raft-snapshot.json" ".").Session
      lostSnapshot [some (.ok ()), none, none] .empty _ :=
    .event rfl (.event rfl (.event rfl (.nil _)))
  rcases load_last_snapshot (fun s _ => framed_keeps _) (possible_empty _) hsession with
    ⟨-, hno⟩ | ⟨k, s, answers, hk, -, hload, -⟩
  · exact absurd rfl (hno _ List.mem_cons_self)
  · have hmem : Slot.Event.save s answers ∈ lostSnapshot := List.mem_of_getElem? hk
    refine ⟨_, _, hsession, hload, ?_⟩
    simp only [lostSnapshot, List.mem_cons, Slot.Event.save.injEq, reduceCtorEq, List.not_mem_nil,
      or_false] at hmem
    rcases hmem with ⟨rfl, -⟩ | ⟨rfl, -⟩
    · exact .inl rfl
    · exact .inr rfl

end FileStore

end DistributedKv
