import DistributedKv.Cluster.Leader
import DistributedKv.Cluster.Safety

/-!
What an AppendEntries request lets its receiver commit. The handler bounds the
new commit index by the receiver's own last index, which may lie far beyond the
request; `commit_within_request` shows that the entries of the request bound it
nevertheless, because a leader sends its whole suffix together with a commit
index inside its own log.
-/

namespace DistributedKv

open Crash
open Consensus (Inv)

/-! ## Commits of one step -/

theorem Agrees.of_isPrefix {l l' : List LogEntry} {req : AppendEntriesRequest} {m : Nat}
    (h : Agrees l req m) (hp : l <+: l') : Agrees l' req m := by
  refine ⟨?_, fun j hj => ?_⟩
  · rw [termAt_of_isPrefix hp (termAt_le_length h.1)]
    exact h.1
  · obtain ⟨e, he, hle⟩ := h.2 j hj
    exact ⟨e, he, Consensus.getElem?_of_isPrefix hp hle⟩

/-- The receiver's commit index is the old one, or it lies in the part of the log
that agrees with the request. The second case survives a truncation because that
never cuts below the commit index. -/
theorem Peer.commit_of_steps {σ : Type} {env : Env σ} {p p' : Peer} {req : AppendEntriesRequest}
    (hle : req.leaderCommit ≤ req.prevLogIndex + req.entries.length)
    (h : p.Steps env (.appendRequest req) p') :
    p'.commit = p.commit ∨
      ∃ m, Agrees p'.history req m ∧ p'.commit ≤ req.prevLogIndex + m := by
  induction h with
  | refl => exact .inl rfl
  | tail _ hstep ih =>
    cases hstep with
    | raise => exact ih
    | follow => exact ih
    | crash => exact ih
    | truncate _ _ m x e ht hf ha hx he hne hc =>
      exact .inr ⟨m, ha.take (List.getElem?_eq_some_iff.mp hx).1.le, hc⟩
    | append _ _ m k ht hf ha hl =>
      refine ih.imp_right fun ⟨m', ha', hc⟩ => ⟨m', ?_, hc⟩
      exact ha'.of_isPrefix (List.prefix_append _ _)
    | followCommit _ _ ht ha hc =>
      exact .inr ⟨_, ha, (min_le_left _ _).trans hle⟩

namespace Cluster

variable {σ : Type} {C : Cluster σ} {actions : List Action}

/-! ## Where a message comes from -/

theorem perform_of_not_available {w : World σ} {n : Int} {i : Input} {answers : List Outcome}
    (h : ¬ i.available w.net n = true) : C.perform w (.step n i answers) = w := by
  simp only [perform]
  split
  · rfl
  · exact if_neg fun hen => h hen.2

/-- At moment `j` the node `n`, which is up as `r`, sends `m`. -/
structure SentAt (C : Cluster σ) (actions : List Action) (m : Message) (j : Nat) (n : Int)
    (i : Input) (r : Raft σ) (d : Disk) : Prop where
  up : (C.run (actions.take j)).nodes n = .up r d
  sent : ∃ answers out r' d', actions[j]? = some (.step n i answers) ∧
    (react (C.env n) i).run answers r d = .done out r' d' ∧ m ∈ C.sends n i out

theorem SentAt.later {m : Message} {j : Nat} {n : Int} {i : Input} {r : Raft σ} {d : Disk}
    (h : C.SentAt actions m j n i r d) (act : Action) :
    C.SentAt (actions ++ [act]) m j n i r d := by
  obtain ⟨hup, answers, out, r', d', hact, hrun, hm⟩ := h
  have hlt : j < actions.length := (List.getElem?_eq_some_iff.mp hact).1
  refine ⟨?_, answers, out, r', d', ?_, hrun, hm⟩
  · rwa [List.take_append_of_le_length hlt.le]
  · rwa [List.getElem?_append_left hlt]

/-- Every message in flight was sent by a step of a node that was up. -/
theorem exists_sentAt {m : Message} (h : m ∈ (C.run actions).net) :
    ∃ j n i r d, C.SentAt actions m j n i r d := by
  induction actions using List.reverseRecOn with
  | nil => cases h
  | append_singleton actions act ih =>
    have hold : m ∈ (C.run actions).net → ∃ j n i r d, C.SentAt (actions ++ [act]) m j n i r d := by
      intro hm
      obtain ⟨j, n, i, r, d, hs⟩ := ih hm
      exact ⟨j, n, i, r, d, hs.later act⟩
    rw [C.run_append] at h
    have hmoved := C.moved (C.run actions) act
    generalize C.perform (C.run actions) act = w' at hmoved h
    cases hmoved with
    | step hup hn hav hrun =>
      rcases List.mem_append.mp h with hm | hm
      · refine ⟨actions.length, _, _, _, _, ?_, _, _, _, _, ?_, hrun, hm⟩
        · rwa [List.take_left]
        · rw [List.getElem?_append_right le_rfl, Nat.sub_self]
          rfl
      · exact hold hm
    | _ => exact hold h

/-- The node `a`, which is up as `r`, builds `req` for a peer. -/
def Builds (C : Cluster σ) (w : World σ) (req : AppendEntriesRequest) (a peer : Int) (r : Raft σ) :
    Prop :=
  (∃ d, w.nodes a = .up r d) ∧ r.buildAppendEntries (C.env a).id peer = some req

theorem SentAt.builds {req : AppendEntriesRequest} {b : Int} {j : Nat} {a : Int} {i : Input}
    {r : Raft σ} {d : Disk} (h : C.SentAt actions (.appendRequest b req) j a i r d) :
    C.Builds (C.run (actions.take j)) req a b r := by
  obtain ⟨hup, answers, out, r', d', -, hrun, hm⟩ := h
  refine ⟨⟨d, hup⟩, ?_⟩
  have hsends := react_sends hrun
  have hout : out = .appendRequest b req := by
    cases out <;> cases i <;> simp_all [sends]
  subst hout
  cases i <;> try exact hsends.elim
  obtain rfl := hsends.1
  simp only [react, Prog.run, bind, Prog.bind, Prog.read] at hrun
  cases hreq : r.buildAppendEntries (C.env a).id b with
  | none => simp [hreq, pure, Prog.run] at hrun
  | some req' => simp_all [pure, Prog.run]

/-- A request that a node can be given was built at an earlier moment. -/
theorem exists_builds {req : AppendEntriesRequest} {b : Int} {k : Nat}
    (h : .appendRequest b req ∈ (C.run (actions.take k)).net) :
    ∃ j < k, ∃ a r, C.Builds (C.run (actions.take j)) req a b r := by
  obtain ⟨j, a, i, r, d, hs⟩ := exists_sentAt h
  obtain ⟨⟨d, hup⟩, hreq⟩ := hs.builds
  obtain ⟨-, answers, out, r', d', hact, -⟩ := hs
  have hlt : j < k := by
    have := (List.getElem?_eq_some_iff.mp hact).1
    rw [List.length_take] at this
    omega
  rw [List.take_take, Nat.min_eq_left hlt.le] at hup
  exact ⟨j, hlt, a, r, ⟨d, hup⟩, hreq⟩

/-! ## Commits of a run -/

/-- A request built by a leader is cut out of the leader's log of that moment. -/
theorem Builds.appendSim {w : World σ} {s : History} (hs : C.Sim w s) {req : AppendEntriesRequest}
    {a peer : Int} {r : Raft σ} (h : C.Builds w req a peer r) : C.AppendSim s req r.history := by
  obtain ⟨⟨d, hup⟩, hreq⟩ := h
  obtain ⟨hn, hrun, hsim⟩ := hs.up hup
  exact appendSim_of_emits hs.inv hsim (buildAppendEntries_emits (M := C.imaging a) hrun.toShape hreq)

/-- Whenever, in a cluster whose clients write text, handling an AppendEntries
request raises the commit index of a node, some leader built the request at an
earlier moment, and for every leader and moment at which it was built: the new
commit index is covered by the request, and everything committed is what stood in
that leader's log at that moment. -/
theorem commit_within_request {maxLength : Int} {json : Json} {C : Cluster (MemoryStore maxLength)}
    (h : C.WritesText json actions) {k : Nat} {b : Int} {req : AppendEntriesRequest}
    {answers : List Outcome} {r r' : Raft (MemoryStore maxLength)} {d d' : Disk}
    (hact : actions[k]? = some (.step b (.appendRequest req) answers))
    (hup : (C.runReloading (actions.take k)).nodes b = .up r d)
    (hup' : (C.runReloading (actions.take (k + 1))).nodes b = .up r' d')
    (hlt : r.commitIndex < r'.commitIndex) :
    (∃ j < k, ∃ a ra, C.Builds (C.runReloading (actions.take j)) req a b ra) ∧
    ∀ {j : Nat} {a peer : Int} {ra : Raft (MemoryStore maxLength)}, j ≤ k →
      C.Builds (C.runReloading (actions.take j)) req a peer ra →
      ra.state = .leader ∧ r'.commitIndex ≤ req.prevLogIndex + req.entries.length ∧
        ∀ i, 0 < i → i ≤ r'.commitIndex → ∃ e, r'.entryOf i = some e ∧ ra.entryOf i = some e := by
  obtain ⟨f, hf⟩ := h.exists_histories
  simp only [h.run_take_eq] at hup hup' ⊢
  rw [C.run_take_succ hact] at hup'
  have hrest := h.restoring.take k
  have hsteps := (hf.sim k).steps hrest.restores (carries_run hrest.proposes) hup
    (h.atomic _ (List.mem_of_getElem? hact)) hup'
  rw [← C.run_take_succ hact] at hup'
  obtain ⟨-, hrun, hsim⟩ := (hf.sim (k + 1)).up hup'
  refine ⟨?_, fun {j a peer ra} hj hbuilt => ?_⟩
  · refine exists_builds ?_
    by_contra hnot
    rw [C.run_take_succ hact, perform_of_not_available (by simpa [Input.available] using hnot),
      hup] at hup'
    obtain ⟨rfl, -⟩ := Process.up.inj hup'
    exact hlt.ne rfl
  · have hq := (hbuilt.appendSim (hf.sim j)).mono (hf.extends_ (hj.trans k.le_succ))
    refine ⟨(Raft.buildAppendEntries_some hbuilt.2).1, ?_⟩
    obtain ⟨m, ha, hm⟩ := (Peer.commit_of_steps (hq.length ▸ hq.commit_le) hsteps).resolve_left hlt.ne'
    refine ⟨hm.trans (Nat.add_le_add_left ha.le_length _), fun i hpos hi => ?_⟩
    obtain ⟨i, rfl⟩ : ∃ k, i = k + 1 := ⟨i - 1, by omega⟩
    obtain ⟨da, hupa⟩ := hbuilt.1
    obtain ⟨-, hruna, -⟩ := (hf.sim j).up hupa
    rw [hrun.entryOf_succ, hruna.entryOf_succ]
    have hlen : i < r'.history.length := hi.trans hrun.commit_le
    have htake := hq.take_eq (hf.sim (k + 1)).inv (hsim.grown (hf.sim (k + 1)).inv) ha
    have hget := congrArg (fun l : List LogEntry => l[i]?) htake
    simp only [List.getElem?_take_of_lt (show i < req.prevLogIndex + m from hi.trans hm)] at hget
    exact ⟨_, List.getElem?_eq_getElem hlen, hget.symm.trans (List.getElem?_eq_getElem hlen)⟩

theorem commit_within_request_sampleRun :
    ∃ ra r' d' e, (localCluster 1).Builds ((localCluster 1).runReloading (sampleRun.take 12))
        ⟨1, 1, 1, 1, [], 1⟩ 1 2 ra ∧
      ((localCluster 1).runReloading (sampleRun.take 14)).nodes 2 = .up r' d' ∧
      r'.commitIndex = 1 ∧ r'.entryOf 1 = some e ∧ ra.entryOf 1 = some e := by
  have hbuilt : (localCluster 1).Builds ((localCluster 1).runReloading (sampleRun.take 12))
      ⟨1, 1, 1, 1, [], 1⟩ 1 2 _ := ⟨⟨_, rfl⟩, rfl⟩
  obtain ⟨-, hall⟩ := commit_within_request (k := 13) sampleRun_text rfl rfl rfl (by decide)
  obtain ⟨-, -, hsame⟩ := hall (by decide) hbuilt
  obtain ⟨e, he, hea⟩ := hsame 1 (by decide) (by decide)
  exact ⟨_, _, _, e, hbuilt, rfl, rfl, he, hea⟩

/-- No store call fails, and yet a heartbeat makes a node commit another entry
than the one that the leader had when it built the request. -/
theorem invalidKeyRun_commits_other :
    Permitted Atomic invalidKeyRun ∧
    ∃ ra r d r' d', (localCluster 1).Builds
        ((localCluster 1).runReloading (invalidKeyRun.take 15)) ⟨1, 1, 2, 1, [], 2⟩ 1 2 ra ∧
      invalidKeyRun[16]? = some (.step 2 (.appendRequest ⟨1, 1, 2, 1, [], 2⟩) []) ∧
      ((localCluster 1).runReloading (invalidKeyRun.take 16)).nodes 2 = .up r d ∧
      ((localCluster 1).runReloading (invalidKeyRun.take 17)).nodes 2 = .up r' d' ∧
      r.commitIndex = 0 ∧ r'.commitIndex = 2 ∧
      ra.entryOf 2 = some ⟨2, 1, .delete, [0xFF], []⟩ ∧
      r'.entryOf 2 = some ⟨2, 1, .delete, [0xEF, 0xBF, 0xBD], []⟩ :=
  ⟨.of_nil (by decide), _, _, _, _, _, ⟨⟨_, rfl⟩, rfl⟩, rfl, rfl, rfl, rfl, rfl, rfl, rfl⟩

end Cluster

end DistributedKv
