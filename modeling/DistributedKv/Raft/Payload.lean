import DistributedKv.Raft.Effect

/-!
What a node carries around: the entries in its memory and on its disk, the state
of its state machine, and the snapshot image. `Payload` is a property of each
that the state machine keeps; `react_keeps` and `newWithSnapshot_keeps` show
that a node keeps it in every step and every start, whatever the stores answer,
as long as requests and client commands have it. If the state machine can apply
every such entry in every such state, then no start-up fails in `Apply`.
-/

namespace DistributedKv

open Crash Prog

variable {σ : Type}

structure Payload (env : Env σ) where
  Entry : LogEntry → Prop
  Store : σ → Prop
  Image : Bytes → Prop
  noop : ∀ index term, Entry (noopEntry index term)
  initial : Store env.initial
  apply : ∀ {f e st st'}, env.applier = some f → Entry e → Store st → f e st = .ok st' → Store st'
  snapshot : ∀ {sn st data}, env.snapshotter = some sn → Store st → sn.snapshot st = .ok data →
    Image data
  restore : ∀ {sn data st}, env.snapshotter = some sn → Image data → sn.restore data = .ok st →
    Store st

/-- The entry that the apply goroutine is working on. -/
def ApplyPhase.inHand : ApplyPhase → Option LogEntry
  | .selected e => some e
  | .applied e => some e
  | _ => none

variable {env : Env σ}

namespace Payload

structure Memory (P : Payload env) (r : Raft σ) : Prop where
  log : ∀ e ∈ r.log, P.Entry e
  phase : ∀ e, r.apply.inHand = some e → P.Entry e
  store : P.Store r.store

structure Files (P : Payload env) (d : Disk) : Prop where
  log : ∀ e ∈ d.log, P.Entry e
  snapshot : ∀ s, d.snapshot = some s → P.Image s.data
  stable : d.stable.Accepted

/-- What requests and client commands bring in. -/
def InputOk (P : Payload env) : Input → Prop
  | .appendRequest req => ∀ e ∈ req.entries, P.Entry e
  | .installRequest req => P.Image req.data
  | .propose command => command.validate = .ok () →
      ∀ index term, P.Entry (proposedEntry index term command)
  | _ => True

/-- What requests to other nodes carry out. -/
def OutputOk (P : Payload env) : Output → Prop
  | .appendRequest _ req => ∀ e ∈ req.entries, P.Entry e
  | .installRequest _ req => P.Image req.data
  | _ => True

variable {P : Payload env} {r r' : Raft σ} {d d' : Disk} {allow : Outcome → Prop}

/-! ## Memory -/

/-- Entries may go and new ones of the kind may come; the rest stays. -/
theorem Memory.setLog (h : P.Memory r) (hlog : ∀ e ∈ r'.log, e ∈ r.log ∨ P.Entry e)
    (ha : r'.apply = r.apply) (hs : r'.store = r.store) : P.Memory r' where
  log e he := (hlog e he).elim (h.log e) id
  phase := by rw [ha]; exact h.phase
  store := by rw [hs]; exact h.store

theorem Memory.same (h : P.Memory r) (hlog : r'.log = r.log) (ha : r'.apply = r.apply)
    (hs : r'.store = r.store) : P.Memory r' :=
  h.setLog (fun _ he => .inl (hlog ▸ he)) ha hs

theorem Memory.setPhase (h : P.Memory r) {phase : ApplyPhase}
    (hp : ∀ e, phase.inHand = some e → P.Entry e) : P.Memory { r with apply := phase } :=
  ⟨h.log, hp, h.store⟩

theorem Memory.entryAtLocked (h : P.Memory r) {index : Nat} {e : LogEntry}
    (he : r.entryAtLocked index = some e) : P.Entry e := by
  unfold Raft.entryAtLocked at he
  split at he
  · cases he
  · exact h.log e (List.mem_of_getElem? he)

theorem Memory.entriesFromLocked (h : P.Memory r) {index : Nat} {es : List LogEntry}
    (hes : r.entriesFromLocked index = some es) : ∀ e ∈ es, P.Entry e := by
  unfold Raft.entriesFromLocked at hes
  split at hes
  · cases hes
  split at hes
  · obtain rfl := Option.some.inj hes
    simp
  split at hes
  · cases hes
  · obtain rfl := Option.some.inj hes
    exact fun e he => h.log e (List.mem_of_mem_drop he)

theorem Memory.retainedSuffix (h : P.Memory r) (index term : Nat) :
    ∀ e ∈ (r.retainedSuffix index term).getD [], P.Entry e := by
  cases hs : r.retainedSuffix index term with
  | none => simp
  | some es =>
    unfold Raft.retainedSuffix at hs
    split at hs
    · cases hs
    split at hs
    · exact h.entriesFromLocked hs
    · cases hs

/-! ## Store calls -/

section Stores

/-- The invariant of an operation that a node carries out. -/
abbrev Kept (P : Payload env) {α : Type} (p : Op σ α) : Prop :=
  Keeps Any P.Memory P.Files (fun _ => True) p

variable {V : Type} {I : V → Prop}

theorem keeps_replace {run : Disk → Except String Disk}
    (h : ∀ {d d'}, P.Files d → run d = .ok d' → P.Files d') :
    Keeps allow I P.Files (fun _ => True) (store (Disk.replace run)) := by
  refine .store h fun {d} n hd => ?_
  rcases Disk.replace_part run n d with hpart | hpart
  · rw [hpart]
    exact hd
  · exact h hd hpart

theorem keeps_saveStable (st : StableState) :
    Keeps allow I P.Files (fun _ => True) (store (Disk.saveStable st)) := by
  refine keeps_replace fun {d d'} hd hrun => ?_
  split at hrun
  · cases hrun
  rename_i hvote
  split at hrun
  · cases hrun
  rename_i happlied
  obtain rfl := Except.ok.inj hrun
  exact ⟨hd.log, hd.snapshot, Int.not_lt.mp hvote, Nat.le_of_not_lt happlied⟩

theorem keeps_saveSnapshot {s : Snapshot} (h : P.Image s.data) :
    Keeps allow I P.Files (fun _ => True) (store (Disk.saveSnapshot s)) := by
  refine keeps_replace fun {d d'} hd hrun => ?_
  split at hrun
  · cases hrun
  · obtain rfl := Except.ok.inj hrun
    exact ⟨hd.log, fun s' hs => Option.some.inj hs ▸ h, hd.stable⟩

theorem keeps_appendLog {es : List LogEntry} (h : ∀ e ∈ es, P.Entry e) :
    Keeps allow I P.Files (fun _ => True) (store (Disk.appendLog es)) := by
  refine .store (fun {d d'} hd hrun => ?_) fun {d} n hd => ?_
  · simp only [Disk.appendLog] at hrun
    split at hrun
    · cases hrun
    rename_i l hl
    obtain rfl := Except.ok.inj hrun
    obtain ⟨-, rfl⟩ := (LogStore.append_ok_iff _ _ _).mp hl
    exact ⟨fun e he => (List.mem_append.mp he).elim (hd.log e) (h e), hd.snapshot,
      hd.stable⟩
  · exact ⟨fun e he => (List.mem_append.mp he).elim (hd.log e) fun he =>
      h e (List.mem_of_mem_take he), hd.snapshot, hd.stable⟩

theorem keeps_truncateFrom (index : Nat) :
    Keeps allow I P.Files (fun _ => True) (store (Disk.truncateFrom index)) := by
  refine keeps_replace fun {d d'} hd hrun => ?_
  split at hrun
  · cases hrun
  rename_i l hl
  obtain rfl := Except.ok.inj hrun
  obtain rfl := LogStore.truncateFrom_eq hl
  exact ⟨fun e he => hd.log e (List.takeWhile_subset _ he), hd.snapshot, hd.stable⟩

theorem keeps_compactThrough (index : Nat) :
    Keeps allow I P.Files (fun _ => True) (store (Disk.compactThrough index)) := by
  refine keeps_replace fun {d d'} hd hrun => ?_
  split at hrun
  · cases hrun
  rename_i l hl
  obtain rfl := Except.ok.inj hrun
  obtain rfl := LogStore.compactThrough_eq hl
  exact ⟨fun e he => hd.log e ((List.dropWhile_suffix _).subset he), hd.snapshot, hd.stable⟩

end Stores

/-! ## Roles and votes -/

theorem saveStableLocked_keeps (term : Nat) (votedFor : Int) :
    P.Kept (saveStableLocked term votedFor) :=
  .bind .read fun _ _ => keeps_saveStable _

theorem becomeFollowerLocked_keeps (term : Nat) (leaderID : Int) :
    P.Kept (becomeFollowerLocked term leaderID) := by
  refine .bind .read fun r _ => ?_
  split
  · exact .pure trivial
  split
  · refine .bind (saveStableLocked_keeps _ _) fun out _ => ?_
    cases out with
    | error err => exact .pure trivial
    | ok u => exact .bind (.modify fun r hr => hr.same rfl rfl rfl) fun _ _ => .pure trivial
  · exact .bind (.modify fun r hr => hr.same rfl rfl rfl) fun _ _ => .pure trivial

theorem becomeLeaderLocked_keeps : P.Kept (becomeLeaderLocked env) := by
  refine .bind .read fun r _ => ?_
  have hnoop : ∀ e ∈ [noopEntry (r.lastLogInfoLocked.1 + 1) r.currentTerm], P.Entry e := by
    simpa using P.noop _ _
  refine .bind (keeps_appendLog hnoop) fun out _ => ?_
  cases out with
  | error err => exact .pure trivial
  | ok u =>
    refine .bind (.modify fun r' hr => hr.setLog (fun e he => ?_) rfl rfl) fun _ _ => .pure trivial
    exact (List.mem_append.mp he).imp_right (hnoop e)

theorem startElection_keeps : P.Kept (startElection env) := by
  refine .bind (P := fun _ => True) ?_ fun elected _ => ?_
  · refine .bind .read fun r _ => .bind (saveStableLocked_keeps _ _) fun out _ => ?_
    cases out with
    | error err => exact .pure trivial
    | ok u => exact .bind (.modify fun r hr => hr.same rfl rfl rfl) fun _ _ => .pure trivial
  refine .bind .read fun r _ => ?_
  cases elected with
  | error err => exact .pure trivial
  | ok term =>
    dsimp only
    split
    · refine .bind .read fun r _ => ?_
      split
      · exact .bind becomeLeaderLocked_keeps fun _ _ => .pure trivial
      · exact .pure trivial
    · exact .bind (.modify fun r hr => hr.same rfl rfl rfl) fun _ _ => .pure trivial

theorem receiveVote_keeps (peer : Int) (term : Nat) (resp : RequestVoteResponse) :
    P.Kept (receiveVote env peer term resp) := by
  refine .bind .read fun r _ => ?_
  split
  · exact .pure trivial
  split
  · exact .pure trivial
  split
  · exact .bind (becomeFollowerLocked_keeps _ _) fun _ _ => .modify fun r hr => hr.same rfl rfl rfl
  split
  · exact .modify fun r hr => hr.same rfl rfl rfl
  split
  · split
    · exact .bind becomeLeaderLocked_keeps fun _ _ => .modify fun r hr => hr.same rfl rfl rfl
    · exact .modify fun r hr => hr.same rfl rfl rfl
  · exact .modify fun r hr => hr.same rfl rfl rfl

theorem voteInTerm_keeps (req : RequestVoteRequest) : P.Kept (voteInTerm req) := by
  refine .bind .read fun r _ => ?_
  split
  · exact .pure trivial
  split
  · exact .pure trivial
  split
  · refine .bind (saveStableLocked_keeps _ _) fun out _ => ?_
    cases out with
    | error err => exact .pure trivial
    | ok u => exact .bind (.modify fun r hr => hr.same rfl rfl rfl) fun _ _ => .pure trivial
  · exact .pure trivial

theorem handleRequestVote_keeps (req : RequestVoteRequest) : P.Kept (handleRequestVote req) := by
  refine .bind .read fun r _ => ?_
  split
  · exact .pure trivial
  split
  · refine .bind (becomeFollowerLocked_keeps _ _) fun out _ => ?_
    cases out with
    | error err => exact .pure trivial
    | ok u => exact voteInTerm_keeps req
  · exact voteInTerm_keeps req

/-! ## Replication -/

theorem recognizeLeader_keeps (term : Nat) (leaderID : Int) :
    P.Kept (recognizeLeader term leaderID) := by
  refine .bind .read fun r _ => ?_
  split
  · exact becomeFollowerLocked_keeps _ _
  · exact .bind (.modify fun r hr => hr.same rfl rfl rfl) fun _ _ => .pure trivial

theorem truncateLog_keeps (truncateFrom : Nat) : P.Kept (truncateLog truncateFrom) := by
  unfold truncateLog
  split
  · exact .pure trivial
  refine .bind (keeps_truncateFrom _) fun out _ => ?_
  cases out with
  | error err => exact .pure trivial
  | ok u =>
    refine .bind .read fun r _ => ?_
    split
    · exact .pure trivial
    · refine .bind (.modify fun r hr => ?_) fun _ _ => .pure trivial
      exact hr.setLog (fun e he => .inl (List.mem_of_mem_take he)) rfl rfl

theorem appendEntries_keeps {es : List LogEntry} (h : ∀ e ∈ es, P.Entry e) :
    P.Kept (appendEntries es) := by
  unfold appendEntries
  split
  · exact .pure trivial
  refine .bind (keeps_appendLog h) fun out _ => ?_
  cases out with
  | error err => exact .pure trivial
  | ok u =>
    refine .bind (.modify fun r hr => ?_) fun _ _ => .pure trivial
    exact hr.setLog (fun e he => (List.mem_append.mp he).imp_right (h e)) rfl rfl

theorem followCommit_keeps (leaderCommit : Nat) : P.Kept (followCommit leaderCommit) := by
  refine .bind .read fun r _ => ?_
  dsimp only
  split
  · refine .bind (keeps_saveStable _) fun out _ => ?_
    cases out with
    | error err => exact .pure trivial
    | ok u => exact .bind (.modify fun r hr => hr.same rfl rfl rfl) fun _ _ => .pure trivial
  · exact .pure trivial

/-- A replication plan appends entries of the request only. -/
theorem replicationPlanFrom_subset {prevLogIndex offset truncateFrom : Nat}
    {entries new : List LogEntry}
    (h : r.replicationPlanFrom prevLogIndex offset entries = .ok (truncateFrom, new)) :
    new ⊆ entries := by
  induction entries generalizing offset with
  | nil =>
    obtain ⟨-, rfl⟩ := Prod.mk.inj (Except.ok.inj h)
    exact List.Subset.refl _
  | cons entry rest ih =>
    obtain ⟨-, -, hstep⟩ := r.planStep_of_replicationPlanFrom h
    cases hstep with
    | present _ hrest => exact List.subset_cons_of_subset _ (ih hrest)
    | replace => exact List.Subset.refl _
    | extend => exact List.Subset.refl _

theorem handleAppendEntries_keeps {req : AppendEntriesRequest} (h : ∀ e ∈ req.entries, P.Entry e) :
    P.Kept (handleAppendEntries req) := by
  refine .bind .read fun r _ => ?_
  split
  · exact .pure trivial
  refine .bind (recognizeLeader_keeps _ _) fun out _ => ?_
  cases out with
  | error err => exact .pure trivial
  | ok u =>
    refine .bind .read fun r _ => ?_
    split
    · exact .pure trivial
    split
    · exact .pure trivial
    rename_i truncateFrom entries hplan
    have hentries : ∀ e ∈ entries, P.Entry e := fun e he =>
      h e (replicationPlanFrom_subset hplan he)
    refine .bind (truncateLog_keeps _) fun out _ => ?_
    split
    · exact .pure trivial
    refine .bind (appendEntries_keeps hentries) fun out _ => ?_
    split
    · exact .pure trivial
    refine .bind (followCommit_keeps _) fun out _ => ?_
    split <;> exact .pure trivial

theorem propose_keeps {command : Command}
    (h : command.validate = .ok () → ∀ index term, P.Entry (proposedEntry index term command)) :
    P.Kept (propose env command) := by
  unfold propose
  split
  · exact .pure trivial
  rename_i hvalid
  refine .bind .read fun r _ => ?_
  split
  · exact .pure trivial
  split
  · exact .pure trivial
  split
  · exact .pure trivial
  have hnew : ∀ e ∈ [proposedEntry (r.lastLogInfoLocked.1 + 1) r.currentTerm command],
      P.Entry e := by simpa using h hvalid _ _
  refine .bind (keeps_appendLog hnew) fun out _ => ?_
  cases out with
  | error err => exact .pure trivial
  | ok u =>
    refine .bind (.modify fun r' hr => hr.setLog (fun e he => ?_) rfl rfl) fun _ _ => .pure trivial
    exact (List.mem_append.mp he).imp_right (hnew e)

theorem buildAppendEntries_entries {id peer : Int} {req : AppendEntriesRequest} (h : P.Memory r)
    (hreq : r.buildAppendEntries id peer = some req) : ∀ e ∈ req.entries, P.Entry e := by
  unfold Raft.buildAppendEntries at hreq
  split at hreq
  · cases hreq
  split at hreq
  · cases hreq
  split at hreq
  · cases hreq
  split at hreq
  · rename_i hes
    obtain rfl := Option.some.inj hreq
    exact h.entriesFromLocked hes
  · cases hreq

theorem buildInstallSnapshot_keeps (peer : Int) :
    Keeps allow P.Memory P.Files (fun out => ∀ req, out = .ok (some req) → P.Image req.data)
      (buildInstallSnapshot env peer) := by
  refine .bind .read fun r _ => ?_
  split
  · exact .pure fun _ h => by cases h
  split
  · exact .pure fun _ h => by cases h
  split
  · exact .pure fun _ h => by cases h
  split
  · exact .pure fun _ h => by cases h
  refine .bind .disk fun d hd => ?_
  split
  · exact .pure fun _ h => by cases h
  rename_i stored hs
  split
  · exact .pure fun _ h => by cases h
  · refine .pure fun req h => ?_
    obtain rfl := Option.some.inj (Except.ok.inj h)
    exact hd.snapshot stored hs

theorem handleAppendEntriesResponse_keeps (peer : Int) (req : AppendEntriesRequest)
    (resp : AppendEntriesResponse) : P.Kept (handleAppendEntriesResponse env peer req resp) := by
  refine .bind .read fun r _ => ?_
  split
  · exact .bind (becomeFollowerLocked_keeps _ _) fun _ _ => .pure trivial
  split
  · exact .pure trivial
  split
  · split
    · exact .pure trivial
    · exact .bind (.modify fun r hr => hr.same rfl rfl rfl) fun _ _ => .pure trivial
  refine .bind (.modify fun r hr => hr.same rfl rfl rfl) fun _ _ => ?_
  refine .bind (P := fun _ => True) ?_ fun _ _ => .pure trivial
  refine .bind .read fun r _ => ?_
  split
  · exact .pure trivial
  refine .bind (keeps_saveStable _) fun out _ => ?_
  cases out with
  | error err => exact .pure trivial
  | ok u => exact .bind (.modify fun r hr => hr.same rfl rfl rfl) fun _ _ => .pure trivial

theorem handleInstallSnapshotResponse_keeps (peer : Int) (req : InstallSnapshotRequest)
    (resp : InstallSnapshotResponse) :
    P.Kept (handleInstallSnapshotResponse peer req resp) := by
  refine .bind .read fun r _ => ?_
  split
  · exact .bind (becomeFollowerLocked_keeps _ _) fun _ _ => .pure trivial
  split
  · exact .pure trivial
  · exact .bind (.modify fun r hr => hr.same rfl rfl rfl) fun _ _ => .pure trivial

/-! ## Snapshots -/

theorem discardLog_keeps (suffix : Option (List LogEntry)) (index : Nat) :
    P.Kept (discardLog suffix index) := by
  refine .bind .read fun r _ => ?_
  split
  · refine .bind (keeps_compactThrough _) fun out _ => ?_
    cases out <;> exact .pure trivial
  · split
    · refine .bind (keeps_truncateFrom _) fun out _ => ?_
      cases out <;> exact .pure trivial
    · exact .pure trivial

theorem restoreStore_keeps {sn : Snapshotter σ} (hsn : env.snapshotter = some sn) {data : Bytes}
    (h : P.Image data) : P.Kept (restoreStore sn data) := by
  refine .bind .attempt fun out _ => ?_
  cases out with
  | error err => exact .pure trivial
  | ok u =>
    dsimp only
    split
    · exact .pure trivial
    · rename_i st hst
      refine .bind (.modify fun r hr => ?_) fun _ _ => .pure trivial
      exact ⟨hr.log, hr.phase, P.restore hsn h hst⟩

theorem installSnapshot_keeps {sn : Snapshotter σ} (hsn : env.snapshotter = some sn)
    {req : InstallSnapshotRequest} (h : P.Image req.data) : P.Kept (installSnapshot sn req) := by
  refine .bind .read fun r hr => ?_
  refine .bind (keeps_saveSnapshot h) fun out _ => ?_
  cases out with
  | error err => exact .pure trivial
  | ok u =>
  refine .bind (discardLog_keeps _ _) fun out _ => ?_
  cases out with
  | error err => exact .pure trivial
  | ok u =>
  refine .bind (restoreStore_keeps hsn h) fun out _ => ?_
  cases out with
  | error err => exact .pure trivial
  | ok u =>
  refine .bind (keeps_saveStable _) fun out _ => ?_
  cases out with
  | error err => exact .pure trivial
  | ok u =>
    refine .bind (.modify fun r' hr' => ?_) fun _ _ => .pure trivial
    exact hr'.setLog (fun e he => .inr (hr.retainedSuffix _ _ e he)) rfl rfl

theorem handleInstallSnapshot_keeps {req : InstallSnapshotRequest} (h : P.Image req.data) :
    P.Kept (handleInstallSnapshot env req) := by
  refine .bind .read fun r _ => ?_
  split
  · exact .pure trivial
  refine .bind (recognizeLeader_keeps _ _) fun out _ => ?_
  cases out with
  | error err => exact .pure trivial
  | ok u =>
    refine .bind .read fun r _ => ?_
    split
    · exact .pure trivial
    rename_i sn hsn
    split
    · exact .pure trivial
    split
    · exact .pure trivial
    split
    · exact .pure trivial
    · exact installSnapshot_keeps hsn h

/-! ## The apply goroutine -/

theorem applySelect_keeps : P.Kept (applySelect env) := by
  refine .bind .read fun r hr => ?_
  split
  · exact .pure trivial
  split
  · exact .modify fun r hr => hr.setPhase fun e he => by cases he
  rename_i entry hentry
  split
  · exact .modify fun r hr => hr.setPhase fun e he => by cases he
  · refine .modify fun r' hr' => hr'.setPhase fun e he => ?_
    obtain rfl := Option.some.inj he
    exact hr.entryAtLocked hentry

theorem applyEntry_keeps : P.Kept (applyEntry env) := by
  refine .bind .read fun r hr => ?_
  split
  swap
  · exact .pure trivial
  rename_i entry hphase
  have hentry : P.Entry entry := hr.phase entry (by rw [hphase]; rfl)
  have happlied : ∀ e, (ApplyPhase.applied entry).inHand = some e → P.Entry e := fun e he =>
    Option.some.inj he ▸ hentry
  split
  · exact .modify fun r hr => hr.setPhase happlied
  split
  · exact .pure trivial
  rename_i f hf
  refine .bind .attempt fun out _ => ?_
  cases out with
  | error err => exact .modify fun r hr => hr.setPhase fun e he => by cases he
  | ok u =>
    dsimp only
    split
    · exact .modify fun r hr => hr.setPhase fun e he => by cases he
    · rename_i st hst
      exact .modify fun r' hr' => ⟨hr'.log, happlied, P.apply hf hentry hr.store hst⟩

theorem applyCheckpoint_keeps : P.Kept applyCheckpoint := by
  refine .bind .read fun r _ => ?_
  split
  swap
  · exact .pure trivial
  rename_i entry _
  split
  · exact .bind (.modify fun r hr => hr.setPhase fun e he => by cases he) fun _ _ => .pure trivial
  refine .bind (keeps_saveStable _) fun out _ => ?_
  cases out with
  | error err =>
    exact .bind (.modify fun r hr => hr.setPhase fun e he => by cases he) fun _ _ => .pure trivial
  | ok u =>
    refine .bind (.modify fun r' hr => ?_) fun _ _ => .pure trivial
    obtain ⟨channels, pending, -, -, heq⟩ :=
      Raft.notify_eq { r' with lastApplied := entry.index, apply := .idle } entry.index
    rw [heq]
    exact ⟨hr.log, fun e he => (by cases he), hr.store⟩

theorem recordApplyFailure_keeps : P.Kept recordApplyFailure := by
  refine .bind .read fun r _ => ?_
  split
  swap
  · exact .pure trivial
  rename_i err _
  split
  · exact .modify fun r hr => hr.setPhase fun e he => by cases he
  · refine .modify fun r' hr => ?_
    obtain ⟨channels, -, heq⟩ := Raft.complete_foldl r'.pendingResults err r'
    rw [heq]
    exact ⟨hr.log, fun e he => (by cases he), hr.store⟩

theorem snapshotBegin_keeps : P.Kept (snapshotBegin env) := by
  refine .bind .read fun r _ => ?_
  split
  · exact .pure trivial
  split
  · exact .pure trivial
  · exact .modify fun r hr => hr.setPhase fun e he => by cases he

theorem snapshotSave_keeps : P.Kept (snapshotSave env) := by
  have hidle : P.Kept (modify fun r => { r with apply := .idle } : Op σ Unit) :=
    .modify fun r hr => hr.setPhase fun e he => by cases he
  refine .bind .read fun r hr => ?_
  split
  swap
  · exact .pure trivial
  rename_i b sn _ hsn
  refine .bind .attempt fun out _ => ?_
  cases out with
  | error err => exact hidle
  | ok u =>
    dsimp only
    split
    · exact hidle
    rename_i data hdata
    refine .bind (keeps_saveSnapshot (P.snapshot hsn hr.store hdata)) fun out _ => ?_
    cases out with
    | error err => exact hidle
    | ok u => exact .modify fun r hr => hr.setPhase fun e he => by cases he

theorem snapshotPublish_keeps : P.Kept snapshotPublish := by
  have hidle : P.Kept (modify fun r => { r with apply := .idle } : Op σ Unit) :=
    .modify fun r hr => hr.setPhase fun e he => by cases he
  refine .bind .read fun r hr => ?_
  split
  swap
  · exact .pure trivial
  split
  · exact hidle
  split
  · exact hidle
  rename_i suffix hsuffix
  refine .bind (keeps_compactThrough _) fun out _ => ?_
  cases out with
  | error err => exact hidle
  | ok u =>
    refine .modify fun r' hr' => ⟨fun e he => ?_, fun e he => (by cases he), hr'.store⟩
    exact hr.entriesFromLocked hsuffix e he

/-! ## Steps and starts -/

theorem react_keeps {i : Input} (h : P.InputOk i) :
    Keeps Any P.Memory P.Files P.OutputOk (react env i) := by
  have hquiet : ∀ {α : Type} {op : Op σ α} {f : α → Output}, P.Kept op →
      (∀ a, P.OutputOk (f a)) → Keeps Any P.Memory P.Files P.OutputOk (do let a ← op; return f a) :=
    fun hop hf => .bind hop fun a _ => .pure (hf a)
  cases i with
  | electionTimeout =>
    refine .bind .read fun r _ => ?_
    split
    · exact .pure trivial
    · refine .bind startElection_keeps fun out _ => ?_
      cases out <;> exact .pure trivial
  | voteRequest req => exact hquiet (handleRequestVote_keeps req) fun _ => trivial
  | voteResponse peer term resp =>
    exact hquiet (receiveVote_keeps peer term resp) fun _ => trivial
  | appendRequest req => exact hquiet (handleAppendEntries_keeps h) fun _ => trivial
  | appendResponse peer req resp =>
    exact hquiet (handleAppendEntriesResponse_keeps peer req resp) fun _ => trivial
  | installRequest req =>
    refine .bind .read fun r _ => ?_
    split
    · exact .pure trivial
    · refine .bind (handleInstallSnapshot_keeps h) fun out _ => ?_
      cases out <;> exact .pure trivial
  | installResponse peer req resp =>
    exact hquiet (handleInstallSnapshotResponse_keeps peer req resp) fun _ => trivial
  | propose command =>
    refine .bind (propose_keeps h) fun out _ => ?_
    cases out <;> exact .pure trivial
  | sendAppend peer =>
    refine .bind .read fun r hr => ?_
    split
    · exact .pure trivial
    · rename_i req hreq
      exact .pure (buildAppendEntries_entries hr hreq)
  | sendInstall peer =>
    refine .bind (buildInstallSnapshot_keeps peer) fun out hout => ?_
    rcases out with _ | (_ | req)
    · exact .pure trivial
    · exact .pure trivial
    · exact .pure (hout req rfl)
  | applySelect => exact hquiet applySelect_keeps fun _ => trivial
  | applyEntry => exact hquiet applyEntry_keeps fun _ => trivial
  | applyCheckpoint =>
    refine .bind applyCheckpoint_keeps fun out _ => ?_
    cases out <;> exact .pure trivial
  | recordApplyFailure => exact hquiet recordApplyFailure_keeps fun _ => trivial
  | snapshotBegin => exact hquiet snapshotBegin_keeps fun _ => trivial
  | snapshotSave => exact hquiet snapshotSave_keeps fun _ => trivial
  | snapshotPublish => exact hquiet snapshotPublish_keeps fun _ => trivial

theorem recoverLogAfterSnapshot_keeps (entries : List LogEntry) (snapshotMeta : SnapshotMetadata) :
    Keeps allow P.Store P.Files (fun _ => True) (recoverLogAfterSnapshot entries snapshotMeta) := by
  unfold recoverLogAfterSnapshot
  split
  · exact .pure trivial
  split
  · exact .pure trivial
  split
  · exact .pure trivial
  split
  · exact keeps_compactThrough _
  · exact keeps_truncateFrom _

/-- `NewWithSnapshot` returned the error of a failed `Apply`. -/
def FailedInApply {α : Type} (out : Except String α) : Prop :=
  ∃ (index : Nat) (err : String), out = .error s!"replay committed log entry {index}: {err}"

theorem not_failedInApply {α : Type} {text : String} (h : text.toList.take 3 ≠ ['r', 'e', 'p']) :
    ¬ FailedInApply (.error text : Except String α) := by
  rintro ⟨index, err, heq⟩
  apply h
  rw [Except.error.inj heq]
  simp [toString]

/-- The state machine applies every entry of the kind in every state of the kind. -/
def Total (P : Payload env) : Prop :=
  ∀ {f e st}, env.applier = some f → P.Entry e → P.Store st → ∃ st', f e st = .ok st'

/-- No answer is a failure. -/
def Unfailing (allow : Outcome → Prop) : Prop :=
  ∀ err, ¬ allow (.fail err) ∧ ¬ allow (.failWritten err)

theorem replay_keeps (h : P.Memory r) (n lastApplied : Nat) :
    Keeps allow P.Store P.Files
      (fun out => P.Total → Unfailing allow → ¬ FailedInApply out)
      (replay env r n lastApplied) := by
  induction n generalizing lastApplied with
  | zero => exact .pure fun _ _ ⟨_, _, h⟩ => by cases h
  | succ n ih =>
    unfold replay
    split
    · exact .pure fun _ _ => not_failedInApply (by simp [toString])
    rename_i entry hentry
    split
    swap
    · exact ih _
    split
    · exact .pure fun _ _ => not_failedInApply (by simp [toString])
    rename_i f hf
    refine .bind .attempt fun out hout => ?_
    cases out with
    | error err =>
      refine .pure fun _ hallow => ?_
      rcases hout err rfl with ha | ha
      · exact absurd ha (hallow err).1
      · exact absurd ha (hallow err).2
    | ok u =>
      refine .bind .read fun st hst => ?_
      split
      · rename_i err herr
        refine .pure fun htotal _ => ?_
        obtain ⟨st', hst'⟩ := htotal hf (h.entryAtLocked hentry) hst
        rw [hst'] at herr
        cases herr
      · rename_i st' hst'
        refine .bind (.modify fun _ _ => ?_) fun _ _ => ih _
        exact P.apply hf (h.entryAtLocked hentry) hst hst'

/-- What a start-up promises of its result. -/
structure Started (P : Payload env) (allow : Outcome → Prop) (out : Except String (Raft σ)) :
    Prop where
  memory : ∀ r, out = .ok r → P.Memory r
  applies : P.Total → Unfailing allow → ¬ FailedInApply out

theorem Started.error {text : String} (h : text.toList.take 3 ≠ ['r', 'e', 'p']) :
    P.Started allow (.error text) := ⟨fun _ h => (by cases h), fun _ _ => not_failedInApply h⟩

theorem replayCommitted_keeps (persisted : StableState) (h : P.Memory r) :
    Keeps allow P.Store P.Files (P.Started allow) (replayCommitted env persisted r) := by
  refine .bind (replay_keeps h _ _) fun out hout => ?_
  cases out with
  | error err =>
    refine .pure ⟨fun _ h => (by cases h), fun htotal hallow => ?_⟩
    rintro ⟨index, err', heq⟩
    exact hout htotal hallow ⟨index, err', congrArg _ (Except.error.inj heq)⟩
  | ok u =>
    refine .bind .read fun st hst => ?_
    have hr : P.Memory { r with lastApplied := max r.lastApplied r.commitIndex, store := st } :=
      ⟨h.log, h.phase, hst⟩
    have hstarted : P.Started allow
        (.ok { r with lastApplied := max r.lastApplied r.commitIndex, store := st }) :=
      ⟨fun _ h => Except.ok.inj h ▸ hr, fun _ _ ⟨_, _, h⟩ => by cases h⟩
    dsimp only
    split
    · refine .bind (keeps_saveStable _) fun out _ => ?_
      cases out with
      | error err => exact .pure (Started.error (by simp [toString]))
      | ok u => exact .pure hstarted
    · exact .pure hstarted

theorem newWithLogAndSnapshot_keeps (snapshotMeta : SnapshotMetadata) (covers : List LogEntry) :
    Keeps allow P.Store P.Files (P.Started allow)
      (newWithLogAndSnapshot env snapshotMeta covers) := by
  unfold newWithLogAndSnapshot
  split
  · exact .pure (Started.error (by simp [toString]))
  split
  · exact .pure (Started.error (by simp [toString]))
  refine .bind .disk fun d hd => ?_
  split
  · exact .pure (Started.error (by simp [toString]))
  split
  · exact .pure (Started.error (by simp [toString]))
  rename_i entries hload
  obtain rfl := LogStore.loadLocked_eq hload
  split
  · exact .pure (Started.error (by simp [toString]))
  dsimp only
  split
  · exact .pure (Started.error (by simp [toString]))
  split
  · exact .pure (Started.error (by simp [toString]))
  refine .bind .read fun st hst => replayCommitted_keeps _ ?_
  exact ⟨hd.log, fun e he => (by cases he), hst⟩

theorem newWithSnapshot_keeps :
    Keeps allow P.Store P.Files (P.Started allow) (newWithSnapshot env) := by
  unfold newWithSnapshot
  split
  · exact .pure (Started.error (by simp))
  rename_i sn hsn
  refine .bind .disk fun d hd => ?_
  split
  · exact newWithLogAndSnapshot_keeps _ _
  rename_i stored hstored
  split
  · exact .pure (Started.error (by simp [toString]))
  split
  · exact .pure (Started.error (by simp [toString]))
  split
  · exact .pure (Started.error (by simp [toString]))
  refine .bind (recoverLogAfterSnapshot_keeps _ _) fun out _ => ?_
  cases out with
  | error err => exact .pure (Started.error (by simp [toString]))
  | ok u =>
  refine .bind .attempt fun out _ => ?_
  cases out with
  | error err => exact .pure (Started.error (by simp [toString]))
  | ok u =>
  dsimp only
  split
  · exact .pure (Started.error (by simp [toString]))
  rename_i st hst
  refine .bind (.modify fun _ _ => P.restore hsn (hd.snapshot stored hstored) hst) fun _ _ => ?_
  refine .bind (keeps_saveStable _) fun out _ => ?_
  cases out with
  | error err => exact .pure (Started.error (by simp [toString]))
  | ok u => exact newWithLogAndSnapshot_keeps _ _

end Payload

end DistributedKv
