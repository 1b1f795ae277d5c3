import DistributedKv.Raft.FileLog
import DistributedKv.Raft.Refinement
import DistributedKv.Raft.SavedFiles
import DistributedKv.Store.WalDurable

/-!
The three files of a node in one directory, and the store calls of a node down to
their system calls. The process may die in any of them, and after that the power
fails.

`session_refines`: from the outside this is the `Disk` of the node. Every life of
the process finds in its files what the calls before it left, where a call that
returned has been carried out and one in which the process died has been carried
out in part, as `Disk` says.
-/

namespace DistributedKv

open Crash Prog Volume
open Framing (frames)

/-- Where the files are and how their contents are encoded. -/
structure Files where
  dir : String
  statePath : String
  logPath : String
  snapshotPath : String
  distinct : [statePath, logPath, snapshotPath].Nodup
  stateJson : JsonFile StableState
  snapshotJson : JsonFile DiskSnapshot
  sum : ChecksumPayload → Bytes
  entryJson : EntryJson

/-- The store calls of a node. -/
inductive DiskCall where
  | saveStable (state : StableState)
  | saveSnapshot (s : Snapshot)
  | append (entries : List LogEntry)
  | truncateFrom (index : Nat)
  | compactThrough (index : Nat)
  deriving DecidableEq, Repr

/-- What the call is to the node. -/
def DiskCall.write : DiskCall → Write Disk
  | .saveStable state => Disk.saveStable state
  | .saveSnapshot s => Disk.saveSnapshot s
  | .append entries => Disk.appendLog entries
  | .truncateFrom index => Disk.truncateFrom index
  | .compactThrough index => Disk.compactThrough index

namespace Files

variable (F : Files)

/-! ## The log store over its file -/

def append (entries : List LogEntry) : Prog Descriptor Vol (Except String Unit) :=
  if entries = [] then return .ok ()
  else
    match FileLogStore.encodeEntries F.entryJson entries with
    | .error err => return .error err
    | .ok records => do
        match ← WalFile.appendBatch F.logPath records with
        | .error err => return .error s!"append Raft log entries: {err}"
        | .ok () => return .ok ()

def loadLocked : Prog Descriptor Vol (Except String (List LogEntry)) := do
  match ← WalFile.replay F.logPath with
  | .error err => return .error err
  | .ok records => return FileLogStore.decodeEntries F.entryJson 0 none records

def replaceLocked (entries : List LogEntry) : Prog Descriptor Vol (Except String Unit) :=
  match LogStore.replaceLocked entries with
  | .error err => return .error err
  | .ok entries => do
      match ← WalFile.replace F.logPath F.dir (entries.map F.entryJson.marshal) with
      | .error err => return .error s!"replace Raft log: {err}"
      | .ok () => return .ok ()

def truncateFrom (index : Nat) : Prog Descriptor Vol (Except String Unit) :=
  if index = 0 then return .error "truncate index must be positive"
  else do
    match ← F.loadLocked with
    | .error err => return .error err
    | .ok entries =>
        match entries.getLast? with
        | none => F.replaceLocked []
        | some last =>
            if index > uint64Succ last.index then
              return .error s!"truncate index {index} exceeds last log index {last.index}"
            else F.replaceLocked (entries.takeWhile fun e => e.index < index)

def compactThrough (index : Nat) : Prog Descriptor Vol (Except String Unit) := do
  match ← F.loadLocked with
  | .error err => return .error err
  | .ok entries => F.replaceLocked (entries.dropWhile fun e => e.index ≤ index)

/-- A store call, down to its system calls. -/
def exec : DiskCall → Prog Descriptor Vol (Except String Unit)
  | .saveStable state => FileStableStore.save F.stateJson F.statePath F.dir state
  | .saveSnapshot s => FileStore.save F.snapshotJson F.sum F.snapshotPath F.dir s
  | .append entries => F.append entries
  | .truncateFrom index => F.truncateFrom index
  | .compactThrough index => F.compactThrough index

/-- What a starting process loads. -/
structure Loaded where
  stable : StableState
  log : List LogEntry
  snapshot : Option Snapshot
  deriving DecidableEq, Repr

/-- Open the WAL, then load the three files. -/
def boot : Prog Descriptor Vol (Except String Loaded) := do
  match ← WalFile.newWAL F.logPath with
  | .error err => return .error err
  | .ok () =>
  match ← FileStore.load F.snapshotJson F.sum F.snapshotPath with
  | .error err => return .error err
  | .ok snapshot =>
  match ← FileStableStore.load F.stateJson F.statePath with
  | .error err => return .error err
  | .ok stable =>
  match ← F.loadLocked with
  | .error err => return .error err
  | .ok log => return .ok ⟨stable, log, snapshot⟩

/-! ## What the directory stands for -/

def HoldsState (o : Option Bytes) (state : StableState) : Prop :=
  state.Accepted ∧ (o = none ∧ state = .initial ∨ o = some (F.stateJson.encode state))

def HoldsSnapshot (o : Option Bytes) (snapshot : Option Snapshot) : Prop :=
  o = snapshot.map (fun s => F.snapshotJson.encode (FileStore.diskSnapshot F.sum s)) ∧
    ∀ s, snapshot = some s → s.validate = .ok ()

/-- What is asked of the entries of a log. -/
structure Storable (l : List LogEntry) : Prop where
  contiguous : Contiguous l
  keeps : ∀ e ∈ l, F.entryJson.Keeps e
  small : ∀ e ∈ l, e.index + 1 < Nat.pow 2 64

def records (l : List LogEntry) : List Bytes := l.map F.entryJson.marshal

/-- A power failure would leave the files of `d`; the process has the log open. -/
structure Holds (v : Vol) (i : Nat) (d : Disk) : Prop where
  separate : v.Separate
  state : ∀ o, v.Possible (.path F.statePath) o → F.HoldsState o d.stable
  snapshot : ∀ o, v.Possible (.path F.snapshotPath) o → F.HoldsSnapshot o d.snapshot
  log : WalFile.Attached F.logPath v i (F.records d.log)
  durable : WalFile.Durable F.logPath v i
  storable : F.Storable d.log

/-- A power failure has left the files of `d`. -/
structure Rest (v : Vol) (d : Disk) : Prop where
  state : ∀ o, v.Possible (.path F.statePath) o → F.HoldsState o d.stable
  snapshot : ∀ o, v.Possible (.path F.snapshotPath) o → F.HoldsSnapshot o d.snapshot
  log : WalFile.AtRest F.logPath v (F.records d.log)
  found : v.dir (.path F.logPath) ≠ none
  storable : F.Storable d.log

variable {F} {v v' : Vol} {i : Nat} {d d' : Disk}

theorem state_ne_log : F.statePath ≠ F.logPath := by
  have := F.distinct
  simp only [List.nodup_cons, List.mem_cons, not_or] at this
  exact this.1.1

theorem snapshot_ne_log : F.snapshotPath ≠ F.logPath := by
  have := F.distinct
  simp only [List.nodup_cons, List.mem_cons, not_or] at this
  exact Ne.symm this.2.1.1

theorem state_ne_snapshot : F.statePath ≠ F.snapshotPath := by
  have := F.distinct
  simp only [List.nodup_cons, List.mem_cons, not_or] at this
  exact this.1.2.1

theorem Storable.fits {l : List LogEntry} (h : F.Storable l) :
    ∀ r ∈ F.records l, Wal.Admissible r := by
  intro r hr
  obtain ⟨e, he, rfl⟩ := List.mem_map.mp hr
  exact (h.keeps e he).fits

theorem Storable.isInfix {kept l : List LogEntry} (h : F.Storable l) (hk : kept <:+: l) :
    F.Storable kept where
  contiguous := h.contiguous.isInfix hk
  keeps := fun e he => h.keeps e (hk.subset he)
  small := fun e he => h.small e (hk.subset he)

theorem Storable.decodes {l : List LogEntry} (h : F.Storable l) :
    FileLogStore.decodeEntries F.entryJson 0 none (F.records l) = .ok l := by
  have := @FileLogStore.decodeEntries_contiguous F.entryJson id l
    (fun e he => (h.keeps e he).decodes) (by simpa using h.contiguous)
  rwa [List.map_id] at this

/-- A power failure finds the files of `d`. -/
theorem rest_recover {c : Vol.Choice} (hsep : v.Separate)
    (hstate : F.HoldsState ((v.recover c).read (.path F.statePath)) d.stable)
    (hsnapshot : F.HoldsSnapshot ((v.recover c).read (.path F.snapshotPath)) d.snapshot)
    (hlog : Wal.Leaves ((v.recover c).read (.path F.logPath)) (F.records d.log))
    (hfound : none ∉ v.past (.path F.logPath)) (hstor : F.Storable d.log) :
    F.Rest (v.recover c) d where
  state := fun o ho => Vol.eq_read_of_possible_recover c ho ▸ hstate
  snapshot := fun o ho => Vol.eq_read_of_possible_recover c ho ▸ hsnapshot
  log := WalFile.atRest_recover c hsep hlog hstor.fits
  found := by
    intro hnone
    have hmem := Vol.pickName_mem c v (.path F.logPath)
    have hpick : Vol.pickName c v (.path F.logPath) = none := hnone
    rw [hpick] at hmem
    exact hfound hmem
  storable := hstor

variable (F) in
/-- What the directory holds besides the records of the log. -/
structure Around (v : Vol) (d : Disk) : Prop where
  separate : v.Separate
  state : ∀ o, v.Possible (.path F.statePath) o → F.HoldsState o d.stable
  snapshot : ∀ o, v.Possible (.path F.snapshotPath) o → F.HoldsSnapshot o d.snapshot
  found : none ∉ v.past (.path F.logPath)

theorem Holds.around (h : F.Holds v i d) : F.Around v d :=
  ⟨h.separate, h.state, h.snapshot, fun hnone => by cases h.durable none hnone⟩

/-- A call on the log leaves the other two files alone. -/
theorem Around.of_apart (h : F.Around v d) (hapart : v.Apart v' F.logPath)
    (hfound : none ∉ v'.past (.path F.logPath)) : F.Around v' d where
  separate := hapart.separate
  state := fun o ho => h.state o ((hapart.same _ state_ne_log).possible ho)
  snapshot := fun o ho => h.snapshot o ((hapart.same _ snapshot_ne_log).possible ho)
  found := hfound

/-- What the volume may be found to hold. -/
theorem possible_of_recover (c : Vol.Choice) (name : Name) :
    v.Possible name ((v.recover c).read name) :=
  Vol.possible_recover c (Vol.possible_read _ name)

theorem Holds.rest (h : F.Holds v i d) (c : Vol.Choice) : F.Rest (v.recover c) d :=
  rest_recover h.separate (h.state _ (possible_of_recover c _))
    (h.snapshot _ (possible_of_recover c _)) (h.log.possible (possible_of_recover c _))
    h.around.found h.storable

theorem possible_update {o : Option Bytes} {p : String} (ho : v.Possible (.path p) o) (q : String) :
    v.Possible (.path q) (Function.update (fun p => v.read (.path p)) p o q) := by
  by_cases hq : q = p
  · subst hq
    rw [Function.update_self]
    exact ho
  · rw [Function.update_of_ne hq]
    exact v.possible_read _

/-! ## Single calls -/

variable (F) in
/-- The process died in the call. -/
def Crashed (call : DiskCall) (d : Disk) (v : Vol) : Prop :=
  ∀ c, ∃ n, F.Rest (v.recover c) (call.write.part n d)

variable (F) in
/-- The call returned. -/
inductive Ends (call : DiskCall) (d : Disk) : Except String Unit → Descriptor → Vol → Prop where
  | done {d' : Disk} {j : Nat} {v : Vol} (hrun : call.write.run d = .ok d') (h : F.Holds v j d') :
      Ends call d (.ok ()) (.file j) v
  | refused {err : String} {j : Nat} {v : Vol} (hrun : call.write.run d = .error err)
      (h : F.Holds v j d) : Ends call d (.error err) (.file j) v

theorem not_faulty_atomic : ¬ Faulty Atomic := by
  rintro ⟨_, hf | hf⟩ <;> exact hf

theorem replace_part_one {run : Disk → Except String Disk} (h : run d = .ok d') :
    (Disk.replace run).part 1 d = d' := by
  simp only [Disk.replace, h]

/-- A call that replaces another file leaves the log alone. -/
theorem Holds.log_of_apart {p : String} (h : F.Holds v i d) (hp : F.logPath ≠ p)
    (hapart : v.Apart v' p) :
    WalFile.Attached F.logPath v' i (F.records d.log) ∧ WalFile.Durable F.logPath v' i :=
  ⟨h.log.of_same (hapart.same _ hp), fun t ht => h.durable t ((hapart.same _ hp).past ht)⟩

/-- Replacing the file of a value: `d'` is the disk with the new value. What the
two files of values hold is known when the file holds the new one. -/
theorem wp_slot {α : Type} {slot : Slot α} {a : α} {call : DiskCall}
    {run : Disk → Except String Disk} (h : F.Holds v i d) (hwrite : call.write = Disk.replace run)
    (hrun : run d = (slot.check a).map fun _ => d') (hlog : d'.log = d.log)
    (hfile : F.logPath ≠ slot.file)
    (hnew : slot.check a = .ok () → ∀ f : String → Option Bytes,
      f slot.file = some (slot.encode a) → (∀ p, p ≠ slot.file → v.Possible (.path p) (f p)) →
      F.HoldsState (f F.statePath) d'.stable ∧ F.HoldsSnapshot (f F.snapshotPath) d'.snapshot) :
    wp Atomic (F.Crashed call d) (slot.save a) (F.Ends call d) (.file i) v := by
  have hrest : ∀ {w : Vol}, v.Apart w slot.file → ∀ f : String → Option Bytes,
      (∀ p, w.Possible (.path p) (f p)) → ∀ p, p ≠ slot.file → v.Possible (.path p) (f p) :=
    fun hapart f hf p hp => (hapart.same p hp).possible (hf p)
  refine wp_mono _ _ _ Slot.wp_save ?_ ?_
  · rintro out fd v' ⟨rfl, -, hok, herr⟩
    cases out with
    | error err =>
      rcases herr err rfl with hf | ⟨hcheck, rfl⟩
      · exact absurd hf not_faulty_atomic
      · refine .refused ?_ h
        rw [hwrite]
        exact hrun.trans (by rw [hcheck]; rfl)
    | ok u =>
      obtain ⟨hcheck, hrep⟩ := hok rfl
      obtain ⟨j, hren, -⟩ := hrep.renamed
      have hapart := hren.apart h.separate
      obtain ⟨hattached, hdur⟩ := h.log_of_apart hfile hapart
      have hdone : call.write.run d = .ok d' := by
        rw [hwrite]
        exact hrun.trans (by rw [hcheck]; rfl)
      have hsaved : ∀ f : String → Option Bytes, (∀ p, v'.Possible (.path p) (f p)) →
          F.HoldsState (f F.statePath) d'.stable ∧ F.HoldsSnapshot (f F.snapshotPath) d'.snapshot :=
        fun f hf => hnew hcheck f (hrep.possible (hf _)) (hrest hapart f hf)
      refine .done hdone ⟨hapart.separate, ?_, ?_, hlog ▸ hattached, hdur, hlog ▸ h.storable⟩
      · intro o ho
        have := (hsaved (Function.update (fun p => v'.read (.path p)) F.statePath o) ?_).1
        · rwa [Function.update_self] at this
        · exact possible_update ho
      · intro o ho
        have := (hsaved (Function.update (fun p => v'.read (.path p)) F.snapshotPath o) ?_).2
        · rwa [Function.update_self] at this
        · exact possible_update ho
  · intro v' hatt c
    cases hatt with
    | untouched =>
      refine ⟨0, ?_⟩
      rw [hwrite]
      exact h.rest c
    | tried hcheck htried =>
      have hapart := htried.apart h.separate
      obtain ⟨hattached, hdur⟩ := h.log_of_apart hfile hapart
      have hfound : none ∉ v'.past (.path F.logPath) := fun hnone => by cases hdur none hnone
      have hposs := @possible_of_recover v' c
      have hleaves := hattached.possible (hposs (.path F.logPath))
      have hne : Name.temp v.temps ≠ .path slot.file := fun heq => by cases heq
      have hothers := hrest hapart (fun p => (v'.recover c).read (.path p)) fun p => hposs _
      rcases htried.possible hne (hposs (.path slot.file)) with hold | hval
      · have hall : ∀ p, v.Possible (.path p) ((v'.recover c).read (.path p)) := by
          intro p
          by_cases hp : p = slot.file
          · rw [hp]
            exact hold
          · exact hothers p hp
        refine ⟨0, ?_⟩
        rw [hwrite]
        exact rest_recover hapart.separate (h.state _ (hall _)) (h.snapshot _ (hall _)) hleaves
          hfound h.storable
      · obtain ⟨hstate, hsnap⟩ := hnew hcheck _ hval hothers
        refine ⟨1, ?_⟩
        have hpart : call.write.part 1 d = d' := by
          rw [hwrite]
          exact replace_part_one (hrun.trans (by rw [hcheck]; rfl))
        rw [hpart]
        exact rest_recover hapart.separate hstate hsnap (hlog ▸ hleaves) hfound (hlog ▸ h.storable)

theorem exec_saveStable (h : F.Holds v i d) (state : StableState) :
    wp Atomic (F.Crashed (.saveStable state) d) (F.exec (.saveStable state))
      (F.Ends (.saveStable state) d) (.file i) v := by
  have hne : F.snapshotPath ≠ (FileStableStore.slot F.stateJson F.statePath F.dir).file :=
    state_ne_snapshot.symm
  refine @wp_slot F v i d { d with stable := state } _
    (FileStableStore.slot F.stateJson F.statePath F.dir) state _ _ h rfl ?_ rfl state_ne_log.symm ?_
  · simp only [FileStableStore.slot, FileStableStore.check]
    split
    · rfl
    · split <;> rfl
  · intro hcheck f hval hothers
    exact ⟨⟨FileStableStore.check_ok_iff.mp hcheck, .inr hval⟩, h.snapshot _ (hothers _ hne)⟩

theorem exec_saveSnapshot (h : F.Holds v i d) (s : Snapshot) :
    wp Atomic (F.Crashed (.saveSnapshot s) d) (F.exec (.saveSnapshot s))
      (F.Ends (.saveSnapshot s) d) (.file i) v := by
  have hne : F.statePath ≠ (FileStore.slot F.snapshotJson F.sum F.snapshotPath F.dir).file :=
    state_ne_snapshot
  refine @wp_slot F v i d { d with snapshot := some s } _
    (FileStore.slot F.snapshotJson F.sum F.snapshotPath F.dir) s _ _ h rfl ?_ rfl
    snapshot_ne_log.symm ?_
  · simp only [FileStore.slot]
    cases s.validate <;> rfl
  · intro hcheck f hval hothers
    refine ⟨h.state _ (hothers _ hne), hval, fun s' hs' => ?_⟩
    rw [← Option.some.inj hs']
    exact hcheck

/-! ## Calls on the log -/

theorem Around.holds (h : F.Around v d) (hapart : v.Apart v' F.logPath)
    (hlog : WalFile.Attached F.logPath v' i (F.records d'.log))
    (hdur : WalFile.Durable F.logPath v' i) (hstor : F.Storable d'.log)
    (hstate : d'.stable = d.stable) (hsnap : d'.snapshot = d.snapshot) : F.Holds v' i d' := by
  have hnone : none ∉ v'.past (.path F.logPath) := fun hnone => by cases hdur none hnone
  have haround := h.of_apart hapart hnone
  exact ⟨hapart.separate, hstate ▸ haround.state, hsnap ▸ haround.snapshot, hlog, hdur, hstor⟩

/-- The process died in a call on the log. -/
theorem Around.rest {P : Option Bytes → Prop} {c : Vol.Choice} {l : List LogEntry}
    (h : F.Around v d) (hreach : WalFile.Reach F.logPath v P v')
    (hleaves : Wal.Leaves ((v'.recover c).read (.path F.logPath)) (F.records l))
    (hstor : F.Storable l) : F.Rest (v'.recover c) { d with log := l } := by
  have haround := h.of_apart hreach.toApart fun hnone => h.found (hreach.kept hnone)
  exact rest_recover haround.separate (haround.state _ (possible_of_recover c _))
    (haround.snapshot _ (possible_of_recover c _)) hleaves haround.found hstor

variable (F) in
/-- What is asked of a call when the log is `l`: a batch that passes the checks
continues it. -/
def Fits (l : List LogEntry) : DiskCall → Prop
  | .append entries => Contiguous entries → F.Storable (l ++ entries)
  | _ => True

theorem exec_append {entries : List LogEntry} (h : F.Holds v i d)
    (hfits : F.Fits d.log (.append entries)) :
    wp Atomic (F.Crashed (.append entries) d) (F.exec (.append entries))
      (F.Ends (.append entries) d) (.file i) v := by
  have hrun : ∀ {l}, LogStore.append entries d.log = l →
      (DiskCall.append entries).write.run d = l.map fun l => { d with log := l } := by
    rintro l rfl
    simp only [DiskCall.write, Disk.appendLog]
    cases LogStore.append entries d.log <;> rfl
  simp only [exec, append]
  rw [wp_ite]
  constructor
  · rintro rfl
    exact .done (hrun rfl) h
  · intro hne
    cases hencode : LogStore.encodeEntries entries with
    | error err =>
      simp only [FileLogStore.encodeEntries, hencode]
      refine .refused ?_ h
      rw [hrun rfl, LogStore.append, if_neg hne, hencode]
      rfl
    | ok u =>
      simp only [FileLogStore.encodeEntries, hencode]
      have hcont : Contiguous entries := (checkEntries_ok_iff _ _).mp hencode
      have hstor : F.Storable (d.log ++ entries) := hfits hcont
      have hrecords : ∀ r ∈ F.records entries, Wal.Admissible r :=
        (hstor.isInfix (List.suffix_append d.log entries).isInfix).fits
      have hsplit : ∀ n, F.records d.log ++ (entries.map F.entryJson.marshal).take n =
          F.records (d.log ++ entries.take n) := by
        intro n
        simp only [records, List.map_append, List.map_take]
      rw [wp_bind]
      refine wp_mono _ _ _ (WalFile.wp_appendBatch h.log h.separate h.durable hrecords) ?_ ?_
      · rintro out fd v' ⟨rfl, hok, herr⟩
        cases out with
        | error err => exact absurd (herr err rfl) not_faulty_atomic
        | ok u =>
          obtain ⟨hapart, hattached, hdur⟩ := hok rfl
          refine @Ends.done F _ d { d with log := d.log ++ entries } i v' ?_
            (h.around.holds hapart ?_ hdur hstor rfl rfl)
          · rw [hrun rfl, (LogStore.append_ok_iff _ _ _).mpr ⟨hcont, rfl⟩]
            rfl
          · rwa [records, List.map_append]
      · intro v' hreach c
        obtain ⟨n, hleaves⟩ := hreach.possible _ (possible_of_recover c _)
        rw [hsplit] at hleaves
        refine ⟨n, h.around.rest hreach hleaves (hstor.isInfix ?_)⟩
        exact ((List.prefix_append_right_inj d.log).mpr (List.take_prefix n entries)).isInfix

/-- Loading the log cuts a torn record off. -/
theorem wp_loadLocked {tail : Bytes} (h : F.Around v d)
    (hlog : WalFile.Found F.logPath v i (F.records d.log) tail)
    (hdur : WalFile.Durable F.logPath v i) (hstor : F.Storable d.log) :
    wp Atomic (fun v' => ∀ c, F.Rest (v'.recover c) d) F.loadLocked
      (fun out fd v' => fd = .file i ∧ out = .ok d.log ∧ F.Holds v' i d) (.file i) v := by
  rw [loadLocked, wp_bind]
  refine wp_mono _ _ _ (WalFile.wp_replay hlog h.separate) ?_ ?_
  · rintro out fd v' ⟨rfl, hok, herr⟩
    cases out with
    | error err => exact absurd (herr err rfl) not_faulty_atomic
    | ok got =>
      obtain ⟨rfl, hapart, hattached, hpast⟩ := hok got rfl
      refine ⟨rfl, hstor.decodes, h.holds hapart hattached ?_ hstor rfl rfl⟩
      intro t ht
      rw [hpast] at ht
      exact hdur t ht
  · intro v' hreach c
    exact h.rest hreach (hreach.possible _ (possible_of_recover c _)) hstor

theorem wp_replaceLocked {call : DiskCall} {run : Disk → Except String Disk} {kept : List LogEntry}
    (h : F.Holds v i d) (hkept : kept <:+: d.log) (hwrite : call.write = Disk.replace run)
    (hrun : run d = .ok { d with log := kept }) :
    wp Atomic (F.Crashed call d) (F.replaceLocked kept) (F.Ends call d) (.file i) v := by
  have hstor := h.storable.isInfix hkept
  rw [replaceLocked, LogStore.replaceLocked_ok hstor.contiguous]
  dsimp only
  rw [wp_bind]
  refine wp_mono _ _ _ WalFile.wp_replace ?_ ?_
  · intro out fd v' hsw
    cases out with
    | error err =>
      rcases (hsw.error err rfl).1 with hf | hunfit
      · exact absurd hf not_faulty_atomic
      · exact absurd hstor.fits hunfit
    | ok u =>
      obtain ⟨j, rfl, hren, hpast⟩ := hsw.ok rfl
      obtain ⟨hattached, hdur⟩ := WalFile.attached_of_renamed hren hpast hstor.fits
      refine @Ends.done F _ d { d with log := kept } j v' ?_
        (h.around.holds (hren.apart h.separate) hattached hdur hstor rfl rfl)
      rw [hwrite]
      exact hrun
  · intro v' htried c
    have hreach := h.log.reach_tried h.separate htried
    rcases hreach.possible _ (possible_of_recover c _) with hold | hnew
    · refine ⟨0, ?_⟩
      rw [hwrite]
      exact h.around.rest hreach hold h.storable
    · refine ⟨1, ?_⟩
      rw [hwrite, replace_part_one hrun]
      exact h.around.rest hreach hnew hstor

/-- A call that loads the log first and then goes on from there. -/
theorem wp_loaded {call : DiskCall} {next : List LogEntry → Prog Descriptor Vol (Except String Unit)}
    {run : Disk → Except String Disk} (h : F.Holds v i d) (hwrite : call.write = Disk.replace run)
    (hnext : ∀ {w}, F.Holds w i d →
      wp Atomic (F.Crashed call d) (next d.log) (F.Ends call d) (.file i) w) :
    wp Atomic (F.Crashed call d) (do
      match ← F.loadLocked with
      | .error err => return .error err
      | .ok entries => next entries) (F.Ends call d) (.file i) v := by
  rw [wp_bind]
  refine wp_mono _ _ _ (wp_loadLocked h.around h.log.found h.durable h.storable) ?_ ?_
  · rintro out fd w ⟨rfl, rfl, hw⟩
    exact hnext hw
  · intro w hw c
    refine ⟨0, ?_⟩
    rw [hwrite]
    exact hw c

theorem exec_compactThrough (h : F.Holds v i d) (index : Nat) :
    wp Atomic (F.Crashed (.compactThrough index) d) (F.exec (.compactThrough index))
      (F.Ends (.compactThrough index) d) (.file i) v := by
  have hkept : (d.log.dropWhile fun e => e.index ≤ index) <:+: d.log :=
    (List.dropWhile_suffix _).isInfix
  refine wp_loaded h rfl fun hw => wp_replaceLocked hw hkept rfl ?_
  simp only [LogStore.compactThrough, LogStore.loadLocked_ok h.storable.contiguous,
    LogStore.replaceLocked_ok (h.storable.contiguous.isInfix hkept)]

theorem exec_truncateFrom (h : F.Holds v i d) (index : Nat) :
    wp Atomic (F.Crashed (.truncateFrom index) d) (F.exec (.truncateFrom index))
      (F.Ends (.truncateFrom index) d) (.file i) v := by
  have hcont := h.storable.contiguous
  simp only [exec, truncateFrom]
  rw [wp_ite]
  constructor
  · rintro rfl
    exact .refused rfl h
  · intro hindex
    refine wp_loaded h rfl fun hw => ?_
    cases hlast : d.log.getLast? with
    | none =>
      have hnil := List.getLast?_eq_none_iff.mp hlast
      refine wp_replaceLocked hw (List.nil_infix) rfl ?_
      simp only [LogStore.truncateFrom, if_neg hindex, LogStore.loadLocked_ok hcont, hlast,
        LogStore.replaceLocked_ok Contiguous.nil]
    | some last =>
      have hsmall := h.storable.small last (List.mem_of_getLast? hlast)
      have hsucc : uint64Succ last.index = last.index + 1 := Nat.mod_eq_of_lt hsmall
      have hkept : (d.log.takeWhile fun e => e.index < index) <:+: d.log :=
        (List.takeWhile_prefix _).isInfix
      dsimp only
      rw [hsucc, wp_ite]
      constructor
      · intro hbig
        refine .refused ?_ hw
        simp only [DiskCall.write, Disk.truncateFrom, Disk.replace, LogStore.truncateFrom,
          if_neg hindex, LogStore.loadLocked_ok hcont, hlast, if_pos hbig]
      · intro hbig
        refine wp_replaceLocked hw hkept rfl ?_
        simp only [LogStore.truncateFrom, if_neg hindex, LogStore.loadLocked_ok hcont, hlast,
          if_neg hbig, LogStore.replaceLocked_ok (hcont.isInfix hkept)]

/-- Every store call is to the directory what `Disk` says it is to the disk. -/
theorem exec_refines {call : DiskCall} (h : F.Holds v i d) (hfits : F.Fits d.log call) :
    wp Atomic (F.Crashed call d) (F.exec call) (F.Ends call d) (.file i) v := by
  cases call with
  | saveStable state => exact exec_saveStable h state
  | saveSnapshot s => exact exec_saveSnapshot h s
  | append entries => exact exec_append h hfits
  | truncateFrom index => exact exec_truncateFrom h index
  | compactThrough index => exact exec_compactThrough h index

/-! ## Starting -/

variable (F) in
/-- What is asked of the codecs of the two values. -/
structure Faithful : Prop where
  state : ∀ state : StableState, state.Accepted → F.stateJson.Keeps state
  snapshot : ∀ s : Snapshot, s.validate = .ok () →
    F.snapshotJson.Keeps (FileStore.diskSnapshot F.sum s)

/-- What the files say of the disk: all but which entries the snapshot stands for. -/
def loaded (d : Disk) : Loaded :=
  ⟨d.stable, d.log, d.snapshot.map fun s => { s with covers := [] }⟩

theorem Faithful.load_state (hF : F.Faithful) {state : StableState}
    (h : F.HoldsState (v.read (.path F.statePath)) state) :
    (F.stateJson.found "Raft state" F.statePath v >>= FileStableStore.accept F.statePath) =
      .ok state := by
  rcases h with ⟨haccepted, ⟨hread, rfl⟩ | hread⟩
  · rw [JsonFile.found_none hread]
    rfl
  · rw [(hF.state state haccepted).found hread]
    exact FileStableStore.accept_some haccepted

theorem Faithful.load_snapshot (hF : F.Faithful) {snapshot : Option Snapshot}
    (h : F.HoldsSnapshot (v.read (.path F.snapshotPath)) snapshot) :
    (F.snapshotJson.found "snapshot" F.snapshotPath v >>= FileStore.accept F.sum F.snapshotPath) =
      .ok (snapshot.map fun s => { s with covers := [] }) := by
  obtain ⟨hread, hvalid⟩ := h
  cases snapshot with
  | none =>
    rw [JsonFile.found_none hread]
    rfl
  | some s =>
    rw [(hF.snapshot s (hvalid s rfl)).found hread]
    exact FileStore.accept_diskSnapshot (hvalid s rfl)

/-- A process that starts loads the disk that a power failure left. -/
theorem wp_boot (hF : F.Faithful) (h : F.Rest v d) {fd : Descriptor} :
    wp Atomic (fun v' => ∀ c, F.Rest (v'.recover c) d) F.boot
      (fun out fd v' => ∃ i, fd = .file i ∧ out = .ok (loaded d) ∧ F.Holds v' i d) fd v := by
  have hnone : none ∉ v.past (.path F.logPath) := fun hmem =>
    h.found (h.log.links none hmem).symm
  have haround : F.Around v d := ⟨h.log.separate, h.state, h.snapshot, hnone⟩
  rw [boot, wp_bind]
  refine wp_mono _ _ _ (WalFile.wp_newWAL h.log) ?_ ?_
  · intro out fd v' hnew
    cases out with
    | error err => exact absurd (hnew.2 err rfl) not_faulty_atomic
    | ok u =>
      obtain ⟨i, tail, rfl, hapart, hfound, hdurable⟩ := hnew.1 rfl
      have hdur := hdurable h.found
      have haround' := haround.of_apart hapart fun hmem => by cases hdur none hmem
      have hrest : ∀ c, F.Rest (v'.recover c) d := by
        intro c
        have hself := @WalFile.Found.reach F.logPath v' i _ tail _ id hfound haround'.separate rfl
          fun b hb => .inr (List.mem_singleton.mp hb)
        rw [v'.modify_id i] at hself
        exact haround'.rest hself (hself.possible _ (possible_of_recover c _)) h.storable
      rw [wp_bind]
      refine FileStore.wp_load hrest ?_ fun hf => absurd hf not_faulty_atomic
      rw [hF.load_snapshot (haround'.snapshot _ (v'.possible_read _))]
      dsimp only
      rw [wp_bind]
      refine FileStableStore.wp_load hrest ?_ fun hf => absurd hf not_faulty_atomic
      rw [hF.load_state (haround'.state _ (v'.possible_read _))]
      dsimp only
      rw [wp_bind]
      refine wp_mono _ _ _ (wp_loadLocked haround' hfound hdur h.storable) ?_ fun _ h => h
      rintro out fd w ⟨rfl, rfl, hw⟩
      exact ⟨i, rfl, rfl, hw⟩
  · intro v' hreach c
    exact haround.rest hreach (hreach.possible _ (possible_of_recover c _)) h.storable

/-! ## Lives -/

/-- A process that starts, makes calls and ends in a power failure. -/
structure Life where
  bootAnswers : List Outcome
  calls : List (DiskCall × List Outcome)
  failure : Vol.Choice

/-- The calls that a process made, with what they returned; nothing for the one in
which it died. -/
abbrev Record := List (DiskCall × Option (Except String Unit))

variable (F) in
def runCalls : List (DiskCall × List Outcome) → Descriptor → Vol → Record × Vol
  | [], _, v => ([], v)
  | (op, answers) :: calls, fd, v =>
      match (F.exec op).run answers fd v with
      | .crashed v' => ([(op, none)], v')
      | .done out fd' v' =>
          let (log, v'') := runCalls calls fd' v'
          ((op, some out) :: log, v'')

variable (F) in
/-- What the process loaded, if it lived to see it, and the record of its calls. -/
def live (life : Life) (v : Vol) : Option (Loaded × Record) × Vol :=
  match F.boot.run life.bootAnswers .nil v with
  | .crashed v' => (none, v'.recover life.failure)
  | .done (.error _) _ v' => (none, v'.recover life.failure)
  | .done (.ok loaded) fd v' =>
      let (log, v'') := F.runCalls life.calls fd v'
      (some (loaded, log), v''.recover life.failure)

variable (F) in
def session : List Life → Vol → List (Option (Loaded × Record)) × Vol
  | [], v => ([], v)
  | life :: lives, v =>
      let (seen, v') := F.live life v
      let (rest, v'') := session lives v'
      (seen :: rest, v'')

end Files

/-- What a process sees that makes these calls on a disk, and the disk it leaves. -/
inductive DiskCalls : Disk → Files.Record → Disk → Prop where
  | nil (d : Disk) : DiskCalls d [] d
  | done {call : DiskCall} {log : Files.Record} {d d₁ d₂ : Disk} (h : call.write.run d = .ok d₁)
      (hrest : DiskCalls d₁ log d₂) : DiskCalls d ((call, some (.ok ())) :: log) d₂
  | refused {call : DiskCall} {log : Files.Record} {err : String} {d d₂ : Disk}
      (h : call.write.run d = .error err) (hrest : DiskCalls d log d₂) :
      DiskCalls d ((call, some (.error err)) :: log) d₂
  | died (call : DiskCall) (d : Disk) (n : Nat) : DiskCalls d [(call, none)] (call.write.part n d)

/-- What processes see that run one after the other on a disk. -/
inductive DiskLives : Disk → List (Option (Files.Loaded × Files.Record)) → Disk → Prop where
  | nil (d : Disk) : DiskLives d [] d
  | failed {seen : List (Option (Files.Loaded × Files.Record))} {d d' : Disk}
      (hrest : DiskLives d seen d') : DiskLives d (none :: seen) d'
  | life {seen : List (Option (Files.Loaded × Files.Record))} {log : Files.Record} {d d₁ d₂ : Disk}
      (h : DiskCalls d log d₁) (hrest : DiskLives d₁ seen d₂) :
      DiskLives d (some (Files.loaded d, log) :: seen) d₂

/-- The log after the call. -/
def DiskCall.after (l : List LogEntry) : DiskCall → List LogEntry
  | .append entries => l ++ entries
  | .truncateFrom index => l.takeWhile fun e => e.index < index
  | .compactThrough index => l.dropWhile fun e => e.index ≤ index
  | _ => l

theorem DiskCall.after_eq {op : DiskCall} {d d' : Disk} (h : op.write.run d = .ok d') :
    d'.log = op.after d.log := by
  cases op with
  | saveStable state =>
    obtain ⟨-, rfl⟩ := Disk.saveStable_ok_iff.mp h
    rfl
  | saveSnapshot s =>
    simp only [write, Disk.saveSnapshot, Disk.replace] at h
    split at h
    · cases h
    · obtain rfl := Except.ok.inj h
      rfl
  | append entries =>
    simp only [write, Disk.appendLog] at h
    split at h
    · cases h
    · rename_i l hl
      obtain rfl := Except.ok.inj h
      exact ((LogStore.append_ok_iff _ _ _).mp hl).2
  | truncateFrom index =>
    simp only [write, Disk.truncateFrom, Disk.replace] at h
    split at h
    · cases h
    · rename_i l hl
      obtain rfl := Except.ok.inj h
      exact LogStore.truncateFrom_eq hl
  | compactThrough index =>
    simp only [write, Disk.compactThrough, Disk.replace] at h
    split at h
    · cases h
    · rename_i l hl
      obtain rfl := Except.ok.inj h
      exact LogStore.compactThrough_eq hl

namespace Files

variable {F : Files} {v v' : Vol} {i : Nat} {d : Disk}

variable (F) in
/-- Every batch continues the log that it finds. -/
def FitsAll (l : List LogEntry) : Record → Prop
  | [] => True
  | (op, some (.ok ())) :: log => F.Fits l op ∧ FitsAll (op.after l) log
  | (op, _) :: log => F.Fits l op ∧ FitsAll l log

theorem runCalls_refines {calls : List (DiskCall × List Outcome)} {log : Record}
    (ha : ∀ op ∈ calls, ∀ a ∈ op.2, Atomic a) (h : F.Holds v i d)
    (hrun : F.runCalls calls (.file i) v = (log, v')) (hfits : F.FitsAll d.log log) :
    ∀ c, ∃ d', DiskCalls d log d' ∧ F.Rest (v'.recover c) d' := by
  induction calls generalizing v i d log with
  | nil =>
    intro c
    obtain ⟨rfl, rfl⟩ := Prod.mk.inj hrun
    exact ⟨d, .nil d, h.rest c⟩
  | cons first calls ih =>
    obtain ⟨op, answers⟩ := first
    rw [List.forall_mem_cons] at ha
    simp only [runCalls] at hrun
    cases hexit : (F.exec op).run answers (.file i) v with
    | crashed v₁ =>
      rw [hexit] at hrun
      obtain ⟨rfl, rfl⟩ := Prod.mk.inj hrun
      have hwp := wp_run (F.exec op) _ answers (.file i) v ha.1 (exec_refines h hfits.1)
      rw [hexit] at hwp
      intro c
      obtain ⟨n, hn⟩ := hwp c
      exact ⟨_, .died op d n, hn⟩
    | done out fd v₁ =>
      rw [hexit] at hrun
      obtain ⟨rest, v₂, hrest⟩ : ∃ rest v₂, F.runCalls calls fd v₁ = (rest, v₂) := ⟨_, _, rfl⟩
      simp only [hrest] at hrun
      obtain ⟨rfl, rfl⟩ := Prod.mk.inj hrun
      have hop : F.Fits d.log op := by
        cases out with
        | error err => exact hfits.1
        | ok u => exact hfits.1
      have hwp := wp_run (F.exec op) _ answers (.file i) v ha.1 (exec_refines h hop)
      rw [hexit] at hwp
      intro c
      cases hwp with
      | done hwrite hd =>
        have hfits' : F.FitsAll (op.after d.log) rest := hfits.2
        rw [← DiskCall.after_eq hwrite] at hfits'
        obtain ⟨d', hcalls, hd'⟩ := ih ha.2 hd hrest hfits' c
        exact ⟨d', .done hwrite hcalls, hd'⟩
      | refused hwrite hd =>
        obtain ⟨d', hcalls, hd'⟩ := ih ha.2 hd hrest hfits.2 c
        exact ⟨d', .refused hwrite hcalls, hd'⟩

/-- From the outside the three files are the disk of the node. -/
theorem session_refines (hF : F.Faithful) {lives : List Life}
    {seen : List (Option (Loaded × Record))} (h : F.Rest v d)
    (ha : ∀ life ∈ lives, (∀ a ∈ life.bootAnswers, Atomic a) ∧
      ∀ op ∈ life.calls, ∀ a ∈ op.2, Atomic a)
    (hrun : F.session lives v = (seen, v'))
    (hfits : ∀ found log, some (found, log) ∈ seen → F.FitsAll found.log log) :
    ∃ d', DiskLives d seen d' ∧ F.Rest v' d' := by
  induction lives generalizing v d seen with
  | nil =>
    obtain ⟨rfl, rfl⟩ := Prod.mk.inj hrun
    exact ⟨d, .nil d, h⟩
  | cons life lives ih =>
    rw [List.forall_mem_cons] at ha
    obtain ⟨⟨hboot, hcalls⟩, ha⟩ := ha
    obtain ⟨now, v₁, hlive⟩ : ∃ now v₁, F.live life v = (now, v₁) := ⟨_, _, rfl⟩
    obtain ⟨later, v₂, hlater⟩ : ∃ later v₂, F.session lives v₁ = (later, v₂) := ⟨_, _, rfl⟩
    simp only [session, hlive, hlater] at hrun
    obtain ⟨rfl, rfl⟩ := Prod.mk.inj hrun
    have hfits' : ∀ found log, some (found, log) ∈ later → F.FitsAll found.log log :=
      fun found log hmem => hfits found log (List.mem_cons_of_mem _ hmem)
    have hwp := wp_run _ _ life.bootAnswers Descriptor.nil v hboot (wp_boot hF h)
    simp only [live] at hlive
    cases hexit : F.boot.run life.bootAnswers .nil v with
    | crashed w =>
      rw [hexit] at hlive hwp
      obtain ⟨rfl, rfl⟩ := Prod.mk.inj hlive
      obtain ⟨d', hlives, hd'⟩ := ih (hwp life.failure) ha hlater hfits'
      exact ⟨d', .failed hlives, hd'⟩
    | done out fd w =>
      rw [hexit] at hlive hwp
      obtain ⟨i, rfl, rfl, hholds⟩ := hwp
      obtain ⟨log, w', hlog⟩ : ∃ log w', F.runCalls life.calls (.file i) w = (log, w') :=
        ⟨_, _, rfl⟩
      simp only [hlog] at hlive
      obtain ⟨rfl, rfl⟩ := Prod.mk.inj hlive
      obtain ⟨d₁, hd₁, hrest⟩ := runCalls_refines hcalls hholds hlog
        (hfits (loaded d) log List.mem_cons_self) life.failure
      obtain ⟨d', hlives, hd'⟩ := ih hrest ha hlater hfits'
      exact ⟨d', .life hd₁ hlives, hd'⟩

/-- The files of `localCluster`, with codecs that keep everything. -/
def localFiles : Files where
  dir := "."
  statePath := "raft-state.json"
  logPath := "raft-log.wal"
  snapshotPath := "raft-snapshot.json"
  distinct := by decide
  stateJson := FileStableStore.framed
  snapshotJson := FileStore.framed
  sum payload := payload.data
  entryJson := .framed

theorem localFiles_faithful : localFiles.Faithful :=
  ⟨fun state _ => FileStableStore.framed_keeps state, fun _ _ => FileStore.framed_keeps _⟩

/-- An empty log, whose name is safe. -/
def newLog : Vol := (Vol.empty.newFile (.path "raft-log.wal")).syncNames

theorem rest_newLog : localFiles.Rest newLog .empty := by
  have hother : ∀ p, p ≠ "raft-log.wal" → ∀ o, newLog.Possible (.path p) o → o = none := by
    intro p hp o ho
    have hnew := (Vol.same_newFile fun heq => hp (Name.path.inj heq)).possible
      ((Vol.same_syncNames _ _).possible ho)
    exact possible_empty _ o hnew
  have hempty : Vol.empty.Separate := by
    intro p q i hp
    cases List.mem_singleton.mp hp
  refine ⟨?_, ?_, ⟨?_, ?_, ?_, ?_, ?_⟩, ?_, ⟨Contiguous.nil, ?_, ?_⟩⟩
  · intro o ho
    exact ⟨⟨Int.le_refl _, Nat.le_refl _⟩, .inl ⟨hother _ (by decide) o ho, rfl⟩⟩
  · intro o ho
    exact ⟨hother _ (by decide) o ho, fun s hs => by cases hs⟩
  · exact (Vol.apart_newFile hempty).separate.of_subset fun p => (Vol.same_syncNames _ _).past
  · intro t ht
    exact List.mem_singleton.mp ht
  · intro i hi
    obtain rfl : 0 = i := Option.some.inj hi
    exact ⟨[], rfl⟩
  · exact Wal.leaves_frames []
  · simp [records, Disk.empty]
  · exact Option.some_ne_none 0
  · simp [Disk.empty]
  · simp [Disk.empty]

/-- The process dies in its second append, after seven bytes of the record. -/
def tornLives : List Life :=
  [⟨[], [(.saveStable ⟨1, 1, 0, 0⟩, []), (.append [⟨1, 1, .noop, [], []⟩], []),
      (.append [⟨2, 1, .set, [107], [118]⟩], List.replicate 7 .ok ++ [.crash 1])],
    ⟨fun _ => 0, fun _ => 0⟩⟩,
    ⟨[], [], ⟨fun _ => 0, fun _ => 0⟩⟩]

/-- What the two processes see: the second one finds the first entry. -/
def tornSeen : List (Option (Loaded × Record)) :=
  [some (⟨.initial, [], none⟩, [(.saveStable ⟨1, 1, 0, 0⟩, some (.ok ())),
      (.append [⟨1, 1, .noop, [], []⟩], some (.ok ())),
      (.append [⟨2, 1, .set, [107], [118]⟩], none)]),
    some (⟨⟨1, 1, 0, 0⟩, [⟨1, 1, .noop, [], []⟩], none⟩, [])]

theorem session_refines_tornLives :
    ∃ (v : Vol) (d : Disk), localFiles.session tornLives newLog = (tornSeen, v) ∧
      DiskLives .empty tornSeen d ∧ localFiles.Rest v d := by
  have hkeeps : ∀ e : LogEntry, e.Valid → e.repaired = e →
      Wal.Admissible (EntryJson.framed.marshal e) → localFiles.entryJson.Keeps e := by
    intro e hv hrep hfits
    exact ⟨by rw [localFiles, EntryJson.framed_repairs e hv, hrep], hfits⟩
  have hfirst : localFiles.Storable [⟨1, 1, .noop, [], []⟩] := by
    refine ⟨⟨by decide, 0, by simp [Indexed.cons, Indexed.nil]⟩, ?_, ?_⟩
    · simp only [List.forall_mem_cons]
      exact ⟨hkeeps _ (by decide) (by decide) (by decide), by simp⟩
    · decide
  have hboth : localFiles.Storable [⟨1, 1, .noop, [], []⟩, ⟨2, 1, .set, [107], [118]⟩] := by
    refine ⟨⟨by decide, 0, by simp [Indexed.cons, Indexed.nil]⟩, ?_, ?_⟩
    · simp only [List.forall_mem_cons]
      exact ⟨hkeeps _ (by decide) (by decide) (by decide),
        hkeeps _ (by decide) (by decide) (by decide), by simp⟩
    · decide
  have hatomic : ∀ life ∈ tornLives, (∀ a ∈ life.bootAnswers, Atomic a) ∧
      ∀ op ∈ life.calls, ∀ a ∈ op.2, Atomic a := by
    simp only [tornLives, List.forall_mem_cons, List.replicate, List.cons_append, List.nil_append]
    simp [Atomic]
  have hfits : ∀ found log, some (found, log) ∈ tornSeen → localFiles.FitsAll found.log log := by
    intro found log hmem
    simp only [tornSeen, List.mem_cons, Option.some.injEq, Prod.mk.injEq, List.not_mem_nil,
      or_false] at hmem
    rcases hmem with ⟨rfl, rfl⟩ | ⟨rfl, rfl⟩
    · exact ⟨trivial, fun _ => hfirst, fun _ => hboth, trivial⟩
    · trivial
  have hrun : localFiles.session tornLives newLog = (tornSeen, _) := rfl
  obtain ⟨d, hlives, hrest⟩ := session_refines localFiles_faithful rest_newLog hatomic hrun hfits
  exact ⟨_, d, hrun, hlives, hrest⟩

/-- `NewWAL` does not sync the directory: on a new path an acknowledged entry can be
lost as long as no other call has synced it. So `Rest` asks for a log file, which
after a power failure is one whose name is safe. -/
theorem new_path_loses_append : (localFiles.session
    [⟨[], [(.append [⟨1, 1, .noop, [], []⟩], [])], ⟨fun _ => 0, fun _ => 1⟩⟩,
      ⟨[], [], ⟨fun _ => 0, fun _ => 0⟩⟩] .empty).1 =
    [some (⟨.initial, [], none⟩, [(.append [⟨1, 1, .noop, [], []⟩], some (.ok ()))]),
      some (⟨.initial, [], none⟩, [])] := rfl

end Files

end DistributedKv
