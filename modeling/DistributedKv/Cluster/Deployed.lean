import DistributedKv.Cluster.Freight
import DistributedKv.Cluster.Guard
import DistributedKv.Cluster.Leader
import DistributedKv.Server.Admission
import DistributedKv.Transport.Proto

/-!
The cluster as it is deployed: every RPC is converted to protobuf and back on its
way (`internal/transport/grpc.go`), and every start-up reads the log through its
JSON codec. As long as the IDs fit into 32 bits and clients write text, nothing
of this can be seen: every run is the run of the plain cluster.
-/

namespace DistributedKv

open Crash

variable {σ : Type}

/-- What arrives at the other end of an RPC. The caller keeps its own request. -/
def Input.overWire : Input → Input
  | .voteRequest req => .voteRequest (requestVoteFromProto (requestVoteToProto req))
  | .voteResponse peer term resp =>
      .voteResponse peer term (requestVoteResponseFromProto (requestVoteResponseToProto resp))
  | .appendRequest req => .appendRequest (appendEntriesFromProto (appendEntriesToProto req))
  | .appendResponse peer req resp =>
      .appendResponse peer req (appendEntriesResponseFromProto (appendEntriesResponseToProto resp))
  | .installRequest req => .installRequest (installSnapshotFromProto (installSnapshotToProto req))
  | .installResponse peer req resp => .installResponse peer req
      (installSnapshotResponseFromProto (installSnapshotResponseToProto resp))
  | i => i

namespace Cluster

variable (C : Cluster σ)

def performDeployed (w : World σ) : Action → World σ
  | .step n i answers =>
      match w.nodes n with
      | .down _ => w
      | .up r d =>
          if n ∈ C.members ∧ i.available w.net n = true then
            match (react (C.env n) i.overWire).run answers r d with
            | .crashed d' => { w with nodes := Function.update w.nodes n (.down d') }
            | .done out r' d' =>
                ⟨Function.update w.nodes n (.up r' d'), C.sends n i out ++ w.net⟩
          else w
  | .crash n => C.perform w (.crash n)
  | .restart n answers => C.perform (reload w n) (.restart n answers)

/-- The world after a sequence of actions of the deployed cluster. -/
def runDeployed (actions : List Action) : World σ := actions.foldl C.performDeployed .initial

variable {C} {actions : List Action} {w : World σ} {n : Int}

/-- The freight of a cluster whose clients write text. -/
def textFreight (C : Cluster σ) : C.machine.Freight :=
  C.machine.entryFreight (fun e => e.Text ∧ e.Numbered) fun index term =>
    ⟨LogEntry.text_noop index term, fun name h => by cases h⟩

/-- What `Validate` accepts has one of the known operations. -/
theorem Proposes.numbered (h : Proposes LogEntry.Text actions) :
    Proposes C.textFreight.Entry actions := by
  intro n command answers hm hvalid index term
  have hentry : (proposedEntry 1 term command).Valid := proposedEntry_valid hvalid 0 term
  exact ⟨h n command answers hm hvalid index term,
    LogEntry.numbered_of_takes ((LogEntry.valid_iff _).mp hentry).2⟩

/-- Requests in flight come from members. -/
structure FromMembers (C : Cluster σ) (net : List Message) : Prop where
  vote : ∀ dst req, .voteRequest dst req ∈ net → req.candidateID ∈ C.members
  append : ∀ dst req, .appendRequest dst req ∈ net → req.leaderID ∈ C.members
  install : ∀ dst req, .installRequest dst req ∈ net → req.leaderID ∈ C.members

theorem Led.mem {t : Nat} (h : C.Led actions n t) : n ∈ C.members := by
  obtain ⟨k, -, r, d, hup, -⟩ := h
  exact (up_ballot hup).1

theorem fromMembers (actions : List Action) : C.FromMembers (C.run actions).net where
  vote dst req hm := ((ballots actions).votes.request dst req hm).1
  append dst req hm := ((adverts actions).requests.append dst req hm).2.mem
  install dst req hm := ((adverts actions).requests.install dst req hm).2.mem

section Wire

variable (hids : ∀ n ∈ C.members, n < 2147483648)

include hids

theorem wireID_of_mem (hn : n ∈ C.members) : wireID n = n :=
  (wireID_eq_self_iff (nonneg hn)).mpr (hids n hn)

/-- An RPC arrives as it was sent. -/
theorem overWire_eq (hnet : C.FromMembers w.net) (hcarries : Carries C.textFreight w) {i : Input}
    (hav : i.available w.net n = true) : i.overWire = i := by
  cases i with
  | voteRequest req =>
    have hmem := hnet.vote n req (by simpa [Input.available] using hav)
    simp only [Input.overWire, (requestVote_roundTrip_iff req).mpr (wireID_of_mem hids hmem)]
  | appendRequest req =>
    have hin : .appendRequest n req ∈ w.net := by simpa [Input.available] using hav
    have hwire := wireID_of_mem hids (hnet.append n req hin)
    have hentries : ∀ e ∈ req.entries, e.Numbered := fun e he => (hcarries.append n req hin e he).2
    simp only [Input.overWire, (appendEntries_roundTrip_iff hentries).mpr hwire]
  | installRequest req =>
    have hmem := hnet.install n req (by simpa [Input.available] using hav)
    simp only [Input.overWire, (installSnapshot_roundTrip_iff req).mpr (wireID_of_mem hids hmem)]
  | _ => rfl

theorem performDeployed_eq (hnet : C.FromMembers w.net) (hcarries : Carries C.textFreight w)
    (a : Action) : C.performDeployed w a = C.perform w a := by
  cases a with
  | crash n => rfl
  | step n i answers =>
    simp only [performDeployed, perform]
    cases w.nodes n with
    | down d => rfl
    | up r d =>
      by_cases hcan : n ∈ C.members ∧ i.available w.net n = true
      · have hwire := overWire_eq hids hnet hcarries hcan.2
        simp only [if_pos hcan]
        generalize i.overWire = j at hwire ⊢
        subst hwire
        rfl
      · simp only [if_neg hcan]
  | restart n answers =>
    rw [performDeployed, reload_of_text hcarries fun _ he => he.1]

end Wire

/-- In a cluster whose IDs fit into 32 bits and whose clients write text, the
conversion of every RPC to protobuf and back and the reading of the log through
JSON at every start change nothing: each run, with whatever answers of the
stores, ends in the same world as that of the plain cluster. -/
theorem deployed_run_is_ideal (hids : ∀ n ∈ C.members, n < 2147483648)
    (htext : Proposes LogEntry.Text actions) : C.runDeployed actions = C.run actions := by
  apply Run.foldl_congr
  intro k a _
  have hcarries : Carries C.textFreight (C.run (actions.take k)) := carries_run (htext.numbered.take k)
  exact performDeployed_eq hids (fromMembers _) hcarries a

theorem deployed_run_is_ideal_recoveredRun :
    (∀ n ∈ (localCluster 1).members, n < 2147483648) ∧
      (localCluster 1).runDeployed recoveredRun = (localCluster 1).run recoveredRun :=
  ⟨by decide, deployed_run_is_ideal (by decide) recoveredRun_text.proposes⟩

end Cluster

end DistributedKv
