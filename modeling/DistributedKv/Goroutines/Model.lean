import DistributedKv.Cluster.Model

/-!
The goroutines of a running node (`internal/raft/raft.go`): the `run` loop with
the election it waits for, the apply loop that sleeps until `applyNow` wakes it,
one `replicateToPeer` goroutine for every exchange with a peer, and the handlers
that gRPC and HTTP call. A step here is what happens while a goroutine holds
`r.mu` (or `stateMachineMu`), or between two such sections; so the goroutines
interleave as they do in the program. In `Cluster.Model` they are invisible: a
node there takes any step at any time, and builds a snapshot request at once
where `buildInstallSnapshot` reads its file without a lock.

Time is left out: timers fire when they like, so `resetElection` and
`replicateNow`, which only make them fire earlier or later, carry nothing.
-/

namespace DistributedKv.Goroutines

open Crash

/-- Where a `replicateToPeer` goroutine stands. -/
inductive Stage where
  /-- before `beginReplication` -/
  | started
  /-- at the top of the loop -/
  | building
  /-- in `buildInstallSnapshot`, about to load the file -/
  | loading (term : Nat) (metadata : SnapshotMetadata)
  /-- in `buildInstallSnapshot`, about to lock again -/
  | loaded (term : Nat) (metadata : SnapshotMetadata) (stored : Snapshot)
  /-- about to call `buildAppendEntries` -/
  | appending
  | awaitInstall (request : InstallSnapshotRequest)
  | awaitAppend (request : AppendEntriesRequest)
  /-- at the end of the loop, about to look at its context -/
  | retrying
  /-- before the deferred `endReplication` -/
  | returning
  | finished
  deriving DecidableEq, Repr

structure Exchange where
  peer : Int
  stage : Stage
  deriving DecidableEq, Repr

/-- The peer whose entry of `replicating` the goroutine has set. -/
def Exchange.slot (x : Exchange) : Option Int :=
  match x.stage with
  | .started => none
  | .finished => none
  | _ => some x.peer

/-- Where the apply loop stands: in its `select`, in `applyCommitted`, in
`maybeSnapshot`, or after its return. -/
inductive ApplyLoop where
  | waiting
  | applying
  | snapshotting
  | ended
  deriving DecidableEq, Repr

/-- The goroutines of a node. `applyNow` is the buffer of the channel. `electing`
says that the `run` loop is inside `startElection`; `signalling` that a
`HandleInstallSnapshot` has released `r.mu`, but not yet `snapshotMu`, and will
signal the apply loop. -/
structure Routines where
  replicating : Int → Bool
  exchanges : List Exchange
  applyNow : Bool
  applyLoop : ApplyLoop
  electing : Bool
  signalling : Bool

/-- The goroutines after `Start`. -/
def Routines.initial : Routines := ⟨fun _ => false, [], false, .waiting, false, false⟩

/-- A process that is up. -/
structure Host (σ : Type) where
  raft : Raft σ
  disk : Disk
  routines : Routines

/-- How a step ends. -/
inductive Turn (σ : Type) where
  | died (d : Disk)
  | ran (h : Host σ) (sent : List Message)

/-- What a call that a goroutine waits for comes back with. -/
inductive Reply where
  | error
  | install (response : InstallSnapshotResponse)
  | append (response : AppendEntriesResponse)
  deriving DecidableEq, Repr

variable {σ : Type} (env : Env σ)

/-! ## Replication -/

/-- The first critical section of `buildInstallSnapshot`. -/
def needsSnapshot (r : Raft σ) (peerID : Int) : Stage :=
  if r.state ≠ .leader then .appending
  else
    match r.nextIndex peerID with
    | none => .appending
    | some next =>
        if next > r.snapshotMeta.lastIncludedIndex then .appending
        else if env.snapshotter.isNone then .returning
        else .loading r.currentTerm r.snapshotMeta

/-- `store.Load` and the comparison with the boundary, without a lock. -/
def loadSnapshot (d : Disk) (term : Nat) (metadata : SnapshotMetadata) : Stage :=
  match d.snapshot with
  | none => .returning
  | some stored => if stored.metadata ≠ metadata then .returning else .loaded term metadata stored

def snapshotRequest (term : Nat) (metadata : SnapshotMetadata) (stored : Snapshot) :
    InstallSnapshotRequest :=
  ⟨term, env.id, metadata.lastIncludedIndex, metadata.lastIncludedTerm, stored.data, stored.covers⟩

/-- The second critical section of `buildInstallSnapshot`: the snapshot is sent
only if the node still leads the term in which it looked, with that boundary. -/
def stillNeeded (r : Raft σ) (peerID : Int) (term : Nat) (metadata : SnapshotMetadata) : Bool :=
  r.state = .leader ∧ r.currentTerm = term ∧ r.snapshotMeta = metadata ∧
    (r.nextIndex peerID).getD 0 ≤ metadata.lastIncludedIndex

def Host.setStage (h : Host σ) (k : Nat) (x : Exchange) (stage : Stage) : Host σ :=
  { h with routines :=
      { h.routines with exchanges := h.routines.exchanges.set k { x with stage := stage } } }

/-- `delete` and assignment on the map `replicating`. -/
def Host.setReplicating (h : Host σ) (peerID : Int) (busy : Bool) : Host σ :=
  { h with routines :=
      { h.routines with replicating := Function.update h.routines.replicating peerID busy } }

/-- `signalApply` is called exactly where `commitIndex` is raised. -/
def Host.committed (h : Host σ) (before : Raft σ) : Host σ :=
  { h with routines :=
      { h.routines with
        applyNow := h.routines.applyNow || decide (before.commitIndex < h.raft.commitIndex) } }

/-- One step of the `replicateToPeer` goroutine number `k` of node `n`. A reply
that does not answer the call it waits for changes nothing. -/
def exchange (net : List Message) (n : Int) (h : Host σ) (k : Nat) (reply : Option Reply)
    (answers : List Outcome) : Turn σ :=
  match h.routines.exchanges[k]? with
  | none => .ran h []
  | some x =>
      match x.stage with
      | .started =>
          if h.raft.state ≠ .leader ∨ h.routines.replicating x.peer = true then
            .ran (h.setStage k x .finished) []
          else .ran ((h.setReplicating x.peer true).setStage k x .building) []
      | .building => .ran (h.setStage k x (needsSnapshot env h.raft x.peer)) []
      | .loading term metadata =>
          if reply = some .error then .ran (h.setStage k x .returning) []
          else .ran (h.setStage k x (loadSnapshot h.disk term metadata)) []
      | .loaded term metadata stored =>
          if stillNeeded h.raft x.peer term metadata = true then
            .ran (h.setStage k x (.awaitInstall (snapshotRequest env term metadata stored)))
              [.installRequest x.peer (snapshotRequest env term metadata stored)]
          else .ran (h.setStage k x .appending) []
      | .appending =>
          match h.raft.buildAppendEntries env.id x.peer with
          | none => .ran (h.setStage k x .returning) []
          | some request =>
              .ran (h.setStage k x (.awaitAppend request)) [.appendRequest x.peer request]
      | .awaitInstall request =>
          match reply with
          | some .error => .ran (h.setStage k x .returning) []
          | some (.install response) =>
              if .installResponse x.peer n request response ∈ net then
                match (handleInstallSnapshotResponse x.peer request response).run answers
                    h.raft h.disk with
                | .crashed d' => .died d'
                | .done again r' d' =>
                    .ran (Host.setStage ⟨r', d', h.routines⟩ k x
                      (if again = true then .building else .returning)) []
              else .ran h []
          | _ => .ran h []
      | .awaitAppend request =>
          match reply with
          | some .error => .ran (h.setStage k x .returning) []
          | some (.append response) =>
              if .appendResponse x.peer n request response ∈ net then
                match (handleAppendEntriesResponse env x.peer request response).run answers
                    h.raft h.disk with
                | .crashed d' => .died d'
                | .done again r' d' =>
                    .ran ((Host.committed ⟨r', d', h.routines⟩ h.raft).setStage k x
                      (if again = true then .retrying else .returning)) []
              else .ran h []
          | _ => .ran h []
      | .retrying =>
          if reply = some .error then .ran (h.setStage k x .returning) []
          else .ran (h.setStage k x .building) []
      | .returning => .ran ((h.setReplicating x.peer false).setStage k x .finished) []
      | .finished => .ran h []

/-! ## The other goroutines -/

/-- What gRPC and HTTP call. -/
def isCall : Input → Bool
  | .voteRequest _ => true
  | .appendRequest _ => true
  | .installRequest _ => true
  | .propose _ => true
  | _ => false

/-- `HandleInstallSnapshot` waits for `snapshotMu`. -/
def isInstall : Input → Bool
  | .installRequest _ => true
  | _ => false

/-- `HandleInstallSnapshot` has installed its snapshot, and there is more to apply. -/
def needsApply (before r : Raft σ) : Bool :=
  before.snapshotMeta ≠ r.snapshotMeta ∧ r.lastApplied < r.commitIndex

/-- The signals of a handler that took the node from `before` to the memory of `h`. -/
def Host.handled (h : Host σ) (before : Raft σ) : Input → Host σ
  | .appendRequest _ => h.committed before
  | .installRequest _ =>
      { h with routines := { h.routines with signalling := needsApply before h.raft } }
  | _ => h

/-- The next step of the apply loop, when it is neither asleep nor gone. -/
def nextApply : ApplyLoop → ApplyPhase → Option Input
  | .applying, .idle => some .applySelect
  | .applying, .selected _ => some .applyEntry
  | .applying, .applied _ => some .applyCheckpoint
  | .applying, .failed _ => some .recordApplyFailure
  | .snapshotting, .idle => some .snapshotBegin
  | .snapshotting, .snapshotting _ => some .snapshotSave
  | .snapshotting, .snapshotSaved _ => some .snapshotPublish
  | _, _ => none

/-- Where the loop goes: from `applyCommitted` when there was nothing to select
or an error was recorded, from `maybeSnapshot` when it returns. -/
def afterApply (loop : ApplyLoop) (i : Input) (phase : ApplyPhase) : ApplyLoop :=
  match loop with
  | .applying =>
      if i = .recordApplyFailure then .ended
      else if i = .applySelect ∧ phase = .idle then .snapshotting
      else .applying
  | .snapshotting => if phase = .idle then .waiting else .snapshotting
  | loop => loop

/-- The vote-counting loop of `startElection` goes on until it returned or every
peer has responded. -/
def stillElecting (r : Raft σ) : Bool :=
  match r.election with
  | none => false
  | some e => decide (e.responded.length < env.peers.length)

/-- What the goroutines of a running node do. -/
inductive Move where
  | handle (i : Input)
  | signal
  | electionTimeout
  | vote (peer : Int) (term : Nat) (response : RequestVoteResponse)
  | giveUp
  | replicateAll
  | wake
  | apply
  | exchange (k : Nat) (reply : Option Reply)
  deriving DecidableEq, Repr

/-- A step of the node below, and what it makes of the goroutines. -/
def stepNode (C : Cluster σ) (n : Int) (h : Host σ) (i : Input) (answers : List Outcome)
    (next : Output → Raft σ → Disk → Host σ) : Turn σ :=
  match (react (C.env n) i).run answers h.raft h.disk with
  | .crashed d' => .died d'
  | .done out r' d' => .ran (next out r' d') (C.sends n i out)

/-- One step of a goroutine of node `n`. A step that is not possible changes nothing. -/
def move (C : Cluster σ) (net : List Message) (n : Int) (h : Host σ) (answers : List Outcome) :
    Move → Turn σ
  | .handle i =>
      if isCall i = true ∧ i.available net n = true ∧
          (isInstall i = true → h.routines.signalling = false) then
        stepNode C n h i answers fun _ r' d' => Host.handled ⟨r', d', h.routines⟩ h.raft i
      else .ran h []
  | .signal =>
      if h.routines.signalling = true then
        .ran { h with routines := { h.routines with applyNow := true, signalling := false } } []
      else .ran h []
  | .electionTimeout =>
      if h.routines.electing = true then .ran h []
      else
        stepNode C n h .electionTimeout answers fun out r' d' =>
          ⟨r', d', { h.routines with electing := decide (out ≠ .none) }⟩
  | .vote peer term response =>
      if h.routines.electing = true ∧
          (Input.voteResponse peer term response).available net n = true then
        stepNode C n h (.voteResponse peer term response) answers fun _ r' d' =>
          ⟨r', d', { h.routines with electing := stillElecting (C.env n) r' }⟩
      else .ran h []
  | .giveUp => .ran { h with routines := { h.routines with electing := false } } []
  | .replicateAll =>
      if h.routines.electing = false ∧ h.raft.state = .leader then
        .ran { h with routines := { h.routines with
          exchanges := h.routines.exchanges ++ (C.env n).peers.map fun p => ⟨p, .started⟩ } } []
      else .ran h []
  | .wake =>
      if h.routines.applyLoop = .waiting ∧ h.routines.applyNow = true then
        .ran { h with routines := { h.routines with applyNow := false, applyLoop := .applying } } []
      else .ran h []
  | .apply =>
      match nextApply h.routines.applyLoop h.raft.apply with
      | none => .ran h []
      | some i =>
          -- `maybeSnapshot` waits for `snapshotMu`
          if i = .snapshotBegin ∧ h.routines.signalling = true then .ran h []
          else
            stepNode C n h i answers fun _ r' d' =>
              ⟨r', d', { h.routines with
                applyLoop := afterApply h.routines.applyLoop i r'.apply }⟩
  | .exchange k reply => exchange (C.env n) net n h k reply answers

/-! ## The cluster -/

inductive Site (σ : Type) where
  | up (h : Host σ)
  | down (d : Disk)

/-- A site without its goroutines. -/
def Site.process : Site σ → Process σ
  | .up h => .up h.raft h.disk
  | .down d => .down d

/-- What the nodes of a cluster are doing, goroutine by goroutine, and every
message ever sent. -/
structure System (σ : Type) where
  sites : Int → Site σ
  net : List Message

def System.initial : System σ := ⟨fun _ => .down Disk.empty, []⟩

/-- The system after a step of node `n`. -/
def System.after (s : System σ) (n : Int) : Turn σ → System σ
  | .died d' => { s with sites := Function.update s.sites n (.down d') }
  | .ran h' sent => ⟨Function.update s.sites n (.up h'), sent ++ s.net⟩

inductive Event where
  | move (n : Int) (m : Move) (answers : List Outcome)
  | crash (n : Int)
  | restart (n : Int) (answers : List Outcome)
  deriving DecidableEq, Repr

def Event.answers : Event → List Outcome
  | .move _ _ answers => answers
  | .crash _ => []
  | .restart _ answers => answers

def perform (C : Cluster σ) (s : System σ) : Event → System σ
  | .move n m answers =>
      match s.sites n with
      | .down _ => s
      | .up h =>
          if n ∈ C.members then s.after n (move C s.net n h answers m) else s
  | .crash n =>
      match s.sites n with
      | .down _ => s
      | .up h => { s with sites := Function.update s.sites n (.down h.disk) }
  | .restart n answers =>
      match s.sites n with
      | .up _ => s
      | .down d =>
          if n ∈ C.members then
            match start (C.env n) answers d with
            | .crashed d' => { s with sites := Function.update s.sites n (.down d') }
            | .done (.error _) _ d' => { s with sites := Function.update s.sites n (.down d') }
            | .done (.ok r) _ d' =>
                { s with sites := Function.update s.sites n (.up ⟨r, d', .initial⟩) }
          else s

/-- The system after a sequence of events. -/
def run (C : Cluster σ) (events : List Event) : System σ := events.foldl (perform C) .initial

theorem run_append (C : Cluster σ) (events : List Event) (e : Event) :
    run C (events ++ [e]) = perform C (run C events) e := by
  simp [run]

/-- A process that goes down leaves the others as they are. -/
theorem up_of_update_down {s : System σ} {m n : Int} {d : Disk} {h : Host σ}
    (hup : Function.update s.sites m (.down d) n = .up h) : s.sites n = .up h := by
  rcases Cluster.update_cases hup with hold | ⟨-, hsite⟩
  · exact hold
  · cases hsite

/-- A process that is up after an event was up before, or one of its goroutines
took a step, or it has started. -/
theorem perform_up {C : Cluster σ} {s : System σ} {e : Event} {n : Int} {h' : Host σ}
    (hup : (perform C s e).sites n = .up h') :
    s.sites n = .up h' ∨
      (∃ m answers h sent, e = .move n m answers ∧ s.sites n = .up h ∧
        move C s.net n h answers m = .ran h' sent) ∨
      ∃ answers d r v d', e = .restart n answers ∧ s.sites n = .down d ∧
        start (C.env n) answers d = .done (.ok r) v d' ∧ h' = ⟨r, d', .initial⟩ := by
  cases e with
  | move m step answers =>
    simp only [perform] at hup
    split at hup
    · exact .inl hup
    rename_i h hm
    split at hup
    swap
    · exact .inl hup
    cases hturn : move C s.net m h answers step with
    | died d' =>
      rw [hturn] at hup
      exact .inl (up_of_update_down hup)
    | ran h₁ sent =>
      rw [hturn] at hup
      rcases Cluster.update_cases hup with hold | ⟨rfl, hsite⟩
      · exact .inl hold
      · obtain rfl := Site.up.inj hsite
        exact .inr (.inl ⟨step, answers, h, sent, rfl, hm, hturn⟩)
  | crash m =>
    simp only [perform] at hup
    split at hup
    · exact .inl hup
    · exact .inl (up_of_update_down hup)
  | restart m answers =>
    simp only [perform] at hup
    split at hup
    · exact .inl hup
    rename_i d hm
    split at hup
    swap
    · exact .inl hup
    split at hup
    · exact .inl (up_of_update_down hup)
    · exact .inl (up_of_update_down hup)
    · rename_i r v d' hstart
      rcases Cluster.update_cases hup with hold | ⟨rfl, hsite⟩
      · exact .inl hold
      · exact .inr (.inr ⟨answers, d, r, v, d', rfl, hm, hstart, (Site.up.inj hsite).symm⟩)

end DistributedKv.Goroutines
