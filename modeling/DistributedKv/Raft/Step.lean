import DistributedKv.Lib.Run
import DistributedKv.Raft.Recovery

/-!
A running node as a system that reacts to inputs: timers, requests, responses,
client calls, and the next step of its own apply goroutine.
-/

namespace DistributedKv

open Crash

/-- Everything that makes a node take a step. A response comes with what its
sender knows about the call it answers. -/
inductive Input where
  | electionTimeout
  | voteRequest (req : RequestVoteRequest)
  | voteResponse (peer : Int) (term : Nat) (resp : RequestVoteResponse)
  | appendRequest (req : AppendEntriesRequest)
  | appendResponse (peer : Int) (req : AppendEntriesRequest) (resp : AppendEntriesResponse)
  | installRequest (req : InstallSnapshotRequest)
  | installResponse (peer : Int) (req : InstallSnapshotRequest) (resp : InstallSnapshotResponse)
  | propose (command : Command)
  | sendAppend (peer : Int)
  | sendInstall (peer : Int)
  | applySelect
  | applyEntry
  | applyCheckpoint
  | recordApplyFailure
  | snapshotBegin
  | snapshotSave
  | snapshotPublish
  deriving DecidableEq, Repr

/-- What a step shows to the outside. -/
inductive Output where
  | none
  | voteRequest (req : RequestVoteRequest)
  | voteResponse (resp : RequestVoteResponse)
  | appendRequest (peer : Int) (req : AppendEntriesRequest)
  | appendResponse (resp : AppendEntriesResponse)
  | installRequest (peer : Int) (req : InstallSnapshotRequest)
  | installResponse (resp : InstallSnapshotResponse)
  | proposed (index channel : Nat)
  | completed (channel : Nat) (entry : LogEntry)
  deriving DecidableEq, Repr

/-- `maybeSnapshot` holds `snapshotMu` from its first step to its last. -/
def ApplyPhase.holdsSnapshotMu : ApplyPhase → Bool
  | .snapshotting _ => true
  | .snapshotSaved _ => true
  | _ => false

variable {σ : Type} (env : Env σ)

/-- One step of a running node. `HandleInstallSnapshot` waits for `snapshotMu`:
while it is held, the request is not taken. -/
def react : Input → Op σ Output
  | .electionTimeout => do
      let r ← Prog.read
      if r.state = .leader then return .none
      else
        match ← startElection env with
        | none => return .none
        | some req => return .voteRequest req
  | .voteRequest req => do return .voteResponse (← handleRequestVote req)
  | .voteResponse peer term resp => do
      receiveVote env peer term resp
      return .none
  | .appendRequest req => do return .appendResponse (← handleAppendEntries req)
  | .appendResponse peer req resp => do
      let _ ← handleAppendEntriesResponse env peer req resp
      return .none
  | .installRequest req => do
      let r ← Prog.read
      if r.apply.holdsSnapshotMu = true then return .none
      else
        match ← handleInstallSnapshot env req with
        | .error _ => return .none
        | .ok resp => return .installResponse resp
  | .installResponse peer req resp => do
      let _ ← handleInstallSnapshotResponse peer req resp
      return .none
  | .propose command => do
      match ← propose env command with
      | .error _ => return .none
      | .ok (index, channel) => return .proposed index channel
  | .sendAppend peer => do
      let r ← Prog.read
      match r.buildAppendEntries env.id peer with
      | none => return .none
      | some req => return .appendRequest peer req
  | .sendInstall peer => do
      match ← buildInstallSnapshot env peer with
      | .ok (some req) => return .installRequest peer req
      | _ => return .none
  | .applySelect => do
      applySelect env
      return .none
  | .applyEntry => do
      applyEntry env
      return .none
  | .applyCheckpoint => do
      match ← applyCheckpoint with
      | none => return .none
      | some (channel, entry) => return .completed channel entry
  | .recordApplyFailure => do
      recordApplyFailure
      return .none
  | .snapshotBegin => do
      snapshotBegin env
      return .none
  | .snapshotSave => do
      snapshotSave env
      return .none
  | .snapshotPublish => do
      snapshotPublish
      return .none

/-- `NewWithSnapshot` on the files `d`, with a fresh state machine. -/
def start (answers : List Outcome) (d : Disk) : Exit σ Disk (Except String (Raft σ)) :=
  (newWithSnapshot env).run answers env.initial d

/-! ## The life of a process -/

/-- A process with its files, or the files that a stopped process left. -/
inductive Process (σ : Type) where
  | up (r : Raft σ) (d : Disk)
  | down (d : Disk)

/-- The files of a process. -/
def Process.disk {σ : Type} : Process σ → Disk
  | .up _ d => d
  | .down d => d

/-- A step that ran to its end: the memory it started from, what made the node
take it, and what it showed. -/
structure Event (σ : Type) where
  before : Raft σ
  input : Input
  output : Output

/-- A process and everything that it has done since it started. -/
structure Life (σ : Type) where
  process : Process σ
  events : List (Event σ)

/-- One more step, against the answers of the stores. -/
def Life.step (l : Life σ) (a : Input × List Outcome) : Life σ :=
  match l.process with
  | .down _ => l
  | .up r d =>
      match (react env a.1).run a.2 r d with
      | .crashed d' => { l with process := .down d' }
      | .done out r' d' => ⟨.up r' d', l.events ++ [⟨r, a.1, out⟩]⟩

/-- The life of a node that started with `r` and the files `d`. -/
def live (r : Raft σ) (d : Disk) (steps : List (Input × List Outcome)) : Life σ :=
  steps.foldl (Life.step env) ⟨.up r d, []⟩

variable {env} {r r' : Raft σ} {d d' : Disk}

/-- A process that is up after a step was up before it. -/
theorem Life.step_up {l : Life σ} {a : Input × List Outcome}
    (hup : (l.step env a).process = .up r' d') :
    ∃ r d out, l.process = .up r d ∧ (react env a.1).run a.2 r d = .done out r' d' ∧
      (l.step env a).events = l.events ++ [⟨r, a.1, out⟩] := by
  unfold Life.step at hup ⊢
  split at hup
  · rename_i d₁ hdown
    rw [hdown] at hup
    cases hup
  · rename_i r₁ d₁ hup₁
    split at hup
    · cases hup
    · rename_i out r₂ d₂ hrun
      obtain ⟨rfl, rfl⟩ := Process.up.inj hup
      exact ⟨r₁, d₁, out, hup₁, hrun, rfl⟩

/-- What every permitted step that runs to its end preserves holds as long as
the process lives. -/
theorem live_induction (inv : List (Event σ) → Raft σ → Disk → Prop)
    (ok : Raft σ → Disk → Input × List Outcome → Prop) (hfirst : inv [] r d)
    (hstep : ∀ {events r d a out r' d'}, inv events r d → ok r d a →
      (react env a.1).run a.2 r d = .done out r' d' → inv (events ++ [⟨r, a.1, out⟩]) r' d')
    {steps : List (Input × List Outcome)}
    (hok : ∀ k a, steps[k]? = some a → ∀ r' d',
      (live env r d (steps.take k)).process = .up r' d' → ok r' d' a)
    (hup : (live env r d steps).process = .up r' d') : inv (live env r d steps).events r' d' := by
  let holds (l : Life σ) : Prop := ∀ r' d', l.process = .up r' d' → inv l.events r' d'
  have hbegin : holds ⟨.up r d, []⟩ := by
    rintro _ _ ⟨⟩
    exact hfirst
  have hkeeps (l : Life σ) (a : Input × List Outcome) (hl : holds l)
      (ha : ∀ r' d', l.process = .up r' d' → ok r' d' a) : holds (l.step env a) := by
    intro r₂ d₂ hup₂
    obtain ⟨r₁, d₁, out, hup₁, hrun, hevents⟩ := Life.step_up hup₂
    rw [hevents]
    exact hstep (hl r₁ d₁ hup₁) (ha r₁ d₁ hup₁) hrun
  exact Run.invariant hkeeps hbegin steps hok r' d' hup

/-- If every permitted step runs to its end and preserves the invariant, the
process stays up. -/
theorem foldl_up {inv : Raft σ → Disk → Prop} {ok : Raft σ → Disk → Input × List Outcome → Prop}
    (hstep : ∀ {r d a}, inv r d → ok r d a →
      ∃ out r' d', (react env a.1).run a.2 r d = .done out r' d' ∧ inv r' d')
    {l : Life σ} (hup : l.process = .up r d) (hfirst : inv r d)
    {steps : List (Input × List Outcome)}
    (hok : ∀ k a, steps[k]? = some a → ∀ r' d',
      ((steps.take k).foldl (Life.step env) l).process = .up r' d' → ok r' d' a) :
    ∃ r' d', (steps.foldl (Life.step env) l).process = .up r' d' ∧ inv r' d' := by
  let holds (l : Life σ) : Prop := ∃ r' d', l.process = .up r' d' ∧ inv r' d'
  have hkeeps (l : Life σ) (a : Input × List Outcome) (hl : holds l)
      (ha : ∀ r' d', l.process = .up r' d' → ok r' d' a) : holds (l.step env a) := by
    obtain ⟨r₁, d₁, hup₁, h₁⟩ := hl
    obtain ⟨out, r₂, d₂, hrun, h₂⟩ := hstep h₁ (ha r₁ d₁ hup₁)
    refine ⟨r₂, d₂, ?_, h₂⟩
    simp only [Life.step, hup₁, hrun]
  exact Run.invariant hkeeps ⟨r, d, hup, hfirst⟩ steps hok

/-- What the operation behind a silent input establishes holds after the step. -/
theorem silent_done {allow : Outcome → Prop} {α : Type} {op : Op σ α} {i : Input}
    {answers : List Outcome} {out : Output} {Q : Raft σ → Prop}
    (hrun : (react env i).run answers r d = .done out r' d')
    (hop : react env i = (do let _ ← op; return .none)) (hans : ∀ o ∈ answers, allow o)
    (hwp : Prog.wp allow (fun _ => True) op (fun _ r' _ => Q r') r d) : Q r' := by
  have hstep : Prog.wp allow (fun _ => True) (react env i) (fun _ r' _ => Q r') r d := by
    rw [hop]
    simpa only [Prog.wp_bind, Prog.wp_pure] using hwp
  have hdone := Prog.wp_run _ _ answers r d hans hstep
  rwa [hrun] at hdone

/-- A life whose steps are given one after the other. -/
theorem live_each {ok : Raft σ → Disk → Input × List Outcome → Prop}
    {steps : List (Input × List Outcome)}
    (h : Run.Each (Life.step env) (fun l a => ∀ r' d', l.process = .up r' d' → ok r' d' a)
      ⟨.up r d, []⟩ steps) :
    ∀ k a, steps[k]? = some a → ∀ r' d',
      (live env r d (steps.take k)).process = .up r' d' → ok r' d' a :=
  h.getElem?

end DistributedKv
