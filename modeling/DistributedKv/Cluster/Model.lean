import DistributedKv.Raft.Step
import DistributedKv.Store.Memory
import Mathlib.Logic.Function.Basic

/-!
The three-node cluster. Its state is what each process is doing and every
message ever sent: a message can be delivered any number of times, at any later
point and in any order, or never. An action is a step of one node against the
answers its stores give, a crash, or a restart; a crash can also strike inside a
step or a restart, through those answers.
-/

namespace DistributedKv

open Crash

/-- The state machine that every node runs. -/
structure Machine (σ : Type) where
  apply : LogEntry → σ → Except String σ
  snapshotter : Snapshotter σ
  initial : σ

/-- The key-value store as a state machine. -/
def MemoryStore.machine (json : Json) (maxLength : Int) : Machine (MemoryStore maxLength) where
  apply := MemoryStore.apply
  snapshotter := MemoryStore.snapshotter json maxLength
  initial := .new maxLength

/-- A cluster: each member has a valid configuration that lists the others. -/
structure Cluster (σ : Type) where
  machine : Machine σ
  members : List Int
  config : Int → Config
  valid : ∀ n ∈ members, (config n).validate = .ok ()
  id_eq : ∀ n ∈ members, (config n).self.id = n
  members_perm : ∀ n ∈ members, members.Perm (n :: (config n).peerIDs)

/-- Three members with the IDs one to three, each with its own addresses. -/
def localNode (id : Int) : Node := ⟨id, s!"127.0.0.1:700{id}", s!"127.0.0.1:800{id}"⟩

def localConfig (snapshotThreshold : Nat) (id : Int) : Config where
  self := localNode id
  peers := ([1, 2, 3].filter (· ≠ id)).map localNode
  dataDir := "data"
  electionTimeoutMin := 150
  electionTimeoutMax := 300
  heartbeatInterval := 50
  snapshotThreshold := snapshotThreshold

/-- A cluster of key-value stores on one machine. -/
def localCluster (snapshotThreshold : Nat) : Cluster (MemoryStore 8) where
  machine := MemoryStore.machine .framed 8
  members := [1, 2, 3]
  config := localConfig snapshotThreshold
  valid := by
    simp only [List.forall_mem_cons, List.not_mem_nil, false_implies, implies_true, and_true]
    exact ⟨rfl, rfl, rfl⟩
  id_eq := by simp [localConfig, localNode]
  members_perm := by
    simp only [List.forall_mem_cons, List.not_mem_nil, false_implies, implies_true, and_true]
    change [1, 2, 3].Perm [1, 2, 3] ∧ [1, 2, 3].Perm [2, 1, 3] ∧ [1, 2, 3].Perm [3, 1, 2]
    decide

inductive Message where
  | voteRequest (dst : Int) (req : RequestVoteRequest)
  | voteResponse (src dst : Int) (term : Nat) (resp : RequestVoteResponse)
  | appendRequest (dst : Int) (req : AppendEntriesRequest)
  | appendResponse (src dst : Int) (req : AppendEntriesRequest) (resp : AppendEntriesResponse)
  | installRequest (dst : Int) (req : InstallSnapshotRequest)
  | installResponse (src dst : Int) (req : InstallSnapshotRequest) (resp : InstallSnapshotResponse)
  deriving DecidableEq, Repr

structure World (σ : Type) where
  nodes : Int → Process σ
  net : List Message

/-- No process is running and nothing is stored. -/
def World.initial {σ : Type} : World σ := ⟨fun _ => .down Disk.empty, []⟩

inductive Action where
  | step (n : Int) (i : Input) (answers : List Outcome)
  | crash (n : Int)
  | restart (n : Int) (answers : List Outcome)
  deriving DecidableEq, Repr

/-- Requests and responses must have been sent to the node; anything else can
happen at any time. -/
def Input.available (net : List Message) (n : Int) : Input → Bool
  | .voteRequest req => .voteRequest n req ∈ net
  | .voteResponse peer term resp => .voteResponse peer n term resp ∈ net
  | .appendRequest req => .appendRequest n req ∈ net
  | .appendResponse peer req resp => .appendResponse peer n req resp ∈ net
  | .installRequest req => .installRequest n req ∈ net
  | .installResponse peer req resp => .installResponse peer n req resp ∈ net
  | _ => true

namespace Cluster

variable {σ : Type} (C : Cluster σ)

def env (n : Int) : Env σ :=
  ⟨C.config n, some C.machine.apply, some C.machine.snapshotter, C.machine.initial⟩

/-- The messages that a step of `n` sends. A response goes to the sender that
its request names. -/
def sends (n : Int) : Input → Output → List Message
  | _, .voteRequest req => (C.env n).peers.map fun peer => .voteRequest peer req
  | .voteRequest req, .voteResponse resp => [.voteResponse n req.candidateID req.term resp]
  | _, .appendRequest peer req => [.appendRequest peer req]
  | .appendRequest req, .appendResponse resp => [.appendResponse n req.leaderID req resp]
  | _, .installRequest peer req => [.installRequest peer req]
  | .installRequest req, .installResponse resp => [.installResponse n req.leaderID req resp]
  | _, _ => []

/-- An action that is not possible changes nothing. -/
def perform (w : World σ) : Action → World σ
  | .step n i answers =>
      match w.nodes n with
      | .down _ => w
      | .up r d =>
          if n ∈ C.members ∧ i.available w.net n = true then
            match (react (C.env n) i).run answers r d with
            | .crashed d' => { w with nodes := Function.update w.nodes n (.down d') }
            | .done out r' d' =>
                ⟨Function.update w.nodes n (.up r' d'), C.sends n i out ++ w.net⟩
          else w
  | .crash n =>
      match w.nodes n with
      | .down _ => w
      | .up _ d => { w with nodes := Function.update w.nodes n (.down d) }
  | .restart n answers =>
      match w.nodes n with
      | .up _ _ => w
      | .down d =>
          if n ∈ C.members then
            match start (C.env n) answers d with
            | .crashed d' => { w with nodes := Function.update w.nodes n (.down d') }
            | .done (.error _) _ d' => { w with nodes := Function.update w.nodes n (.down d') }
            | .done (.ok r) _ d' => { w with nodes := Function.update w.nodes n (.up r d') }
          else w

variable {C} in
/-- A step that runs to its end. -/
theorem perform_step {w : World σ} {n : Int} {i : Input} {answers : List Outcome} {r r' : Raft σ}
    {d d' : Disk} {out : Output} (hup : w.nodes n = .up r d) (hn : n ∈ C.members)
    (hav : i.available w.net n = true)
    (hrun : (react (C.env n) i).run answers r d = .done out r' d') :
    C.perform w (.step n i answers) =
      ⟨Function.update w.nodes n (.up r' d'), C.sends n i out ++ w.net⟩ := by
  simp only [perform, hup, hn, hav, hrun, and_self, ↓reduceIte]

/-- What an action can do: the worlds that `perform` leads to, with the reason
why the action was possible. -/
inductive Moved (w : World σ) : Action → World σ → Prop
  | idle (a : Action) : Moved w a w
  | crash {n r d} (hup : w.nodes n = .up r d) :
      Moved w (.crash n) { w with nodes := Function.update w.nodes n (.down d) }
  | died {n i answers r d d'} (hup : w.nodes n = .up r d) (hn : n ∈ C.members)
      (hav : i.available w.net n = true)
      (hrun : (react (C.env n) i).run answers r d = .crashed d') :
      Moved w (.step n i answers) { w with nodes := Function.update w.nodes n (.down d') }
  | step {n i answers r d out r' d'} (hup : w.nodes n = .up r d) (hn : n ∈ C.members)
      (hav : i.available w.net n = true)
      (hrun : (react (C.env n) i).run answers r d = .done out r' d') :
      Moved w (.step n i answers)
        ⟨Function.update w.nodes n (.up r' d'), C.sends n i out ++ w.net⟩
  | failed {n answers d d'} (hdown : w.nodes n = .down d) (hn : n ∈ C.members)
      (hstart : start (C.env n) answers d = .crashed d' ∨
        ∃ err v, start (C.env n) answers d = .done (.error err) v d') :
      Moved w (.restart n answers) { w with nodes := Function.update w.nodes n (.down d') }
  | started {n answers d r v d'} (hdown : w.nodes n = .down d) (hn : n ∈ C.members)
      (hstart : start (C.env n) answers d = .done (.ok r) v d') :
      Moved w (.restart n answers) { w with nodes := Function.update w.nodes n (.up r d') }

theorem moved (w : World σ) (a : Action) : C.Moved w a (C.perform w a) := by
  cases a with
  | crash n =>
    simp only [perform]
    split
    · exact .idle _
    · rename_i r d hup
      exact .crash hup
  | step n i answers =>
    simp only [perform]
    split
    · exact .idle _
    rename_i r d hup
    split
    swap
    · exact .idle _
    rename_i hcan
    split
    · rename_i d' hrun
      exact .died hup hcan.1 hcan.2 hrun
    · rename_i out r' d' hrun
      exact .step hup hcan.1 hcan.2 hrun
  | restart n answers =>
    simp only [perform]
    split
    · exact .idle _
    rename_i d hdown
    split
    swap
    · exact .idle _
    rename_i hn
    split
    · rename_i d' hstart
      exact .failed hdown hn (.inl hstart)
    · rename_i err v d' hstart
      exact .failed hdown hn (.inr ⟨err, v, hstart⟩)
    · rename_i r v d' hstart
      exact .started hdown hn hstart

section Moved

variable {C} {w w' : World σ} {a : Action} {n : Int}

/-- What stands for node `n` is the old one, or what node `m` was given. -/
theorem update_cases {α : Type} {nodes : Int → α} {m : Int} {p q : α}
    (h : Function.update nodes m p n = q) : nodes n = q ∨ m = n ∧ p = q := by
  by_cases hm : n = m
  · subst hm
    rw [Function.update_self] at h
    exact .inr ⟨rfl, h⟩
  · rw [Function.update_of_ne hm] at h
    exact .inl h

/-- A process that is up after an action was up before, or took a step, or started. -/
theorem perform_up {r' : Raft σ} {d' : Disk} (h : (C.perform w a).nodes n = .up r' d') :
    w.nodes n = .up r' d' ∨
      (∃ i answers r d out, a = .step n i answers ∧ w.nodes n = .up r d ∧ n ∈ C.members ∧
        i.available w.net n = true ∧ (react (C.env n) i).run answers r d = .done out r' d') ∨
      ∃ answers d st, a = .restart n answers ∧ w.nodes n = .down d ∧ n ∈ C.members ∧
        start (C.env n) answers d = .done (.ok r') st d' := by
  generalize hw : C.perform w a = w' at h
  have hmoved := C.moved w a
  rw [hw] at hmoved
  cases hmoved with
  | idle => exact .inl h
  | crash | died | failed =>
    rcases update_cases h with hold | ⟨-, hproc⟩
    · exact .inl hold
    · cases hproc
  | step hup hn hav hrun =>
    rcases update_cases h with hold | ⟨rfl, hproc⟩
    · exact .inl hold
    · obtain ⟨rfl, rfl⟩ := Process.up.inj hproc
      exact .inr (.inl ⟨_, _, _, _, _, rfl, hup, hn, hav, hrun⟩)
  | started hdown hn hstart =>
    rcases update_cases h with hold | ⟨rfl, hproc⟩
    · exact .inl hold
    · obtain ⟨rfl, rfl⟩ := Process.up.inj hproc
      exact .inr (.inr ⟨_, _, _, rfl, hdown, hn, hstart⟩)

/-- Messages are never forgotten. -/
theorem Moved.net_subset (h : C.Moved w a w') : w.net ⊆ w'.net := by
  cases h with
  | step => exact List.subset_append_right _ _
  | _ => exact List.Subset.refl _

theorem net_subset_perform (w : World σ) (a : Action) : w.net ⊆ (C.perform w a).net :=
  (C.moved w a).net_subset

end Moved

/-- The world after a sequence of actions. -/
def run (actions : List Action) : World σ := actions.foldl C.perform .initial

theorem run_append (actions : List Action) (a : Action) :
    C.run (actions ++ [a]) = C.perform (C.run actions) a := by
  simp [run]

/-- The world after one more action. -/
theorem run_take_succ {actions : List Action} {k : Nat} {a : Action} (h : actions[k]? = some a) :
    C.run (actions.take (k + 1)) = C.perform (C.run (actions.take k)) a := by
  rw [List.take_add_one, h]
  exact C.run_append _ a

end Cluster

/-- The stores' answers in an action. -/
def Action.answers : Action → List Outcome
  | .step _ _ answers => answers
  | .crash _ => []
  | .restart _ answers => answers

/-- A sequence of actions in which the stores only give permitted answers. -/
def Permitted (allow : Outcome → Prop) (actions : List Action) : Prop :=
  ∀ a ∈ actions, ∀ o ∈ a.answers, allow o

/-- Stores that always succeed give permitted answers. -/
theorem Permitted.of_nil {allow : Outcome → Prop} {actions : List Action}
    (h : ∀ a ∈ actions, a.answers = []) : Permitted allow actions := by
  intro a ha o ho
  rw [h a ha] at ho
  cases ho

end DistributedKv
