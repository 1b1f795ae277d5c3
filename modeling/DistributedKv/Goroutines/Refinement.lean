import DistributedKv.Cluster.Leader
import DistributedKv.Goroutines.Cursor

/-!
The goroutines refine the cluster of `Cluster.Model`: every run of them is a run
of that cluster with the same memory and files on every node, in which every
message was sent that they send. A step of a goroutine is a step of its node, or
none; the one step that comes at another time is a snapshot, which counts as sent
when it is loaded, although the goroutine sends it after one more look at the node.
-/

namespace DistributedKv.Goroutines

open Crash Prog

variable {σ : Type} {C : Cluster σ} {s : System σ} {w : World σ} {actions : List Action} {n : Int}
  {h h' : Host σ} {answers : List Outcome} {i : Input} {r' : Raft σ} {d' : Disk} {out : Output}

/-- The cluster below does what the goroutines do. -/
structure Sim (C : Cluster σ) (s : System σ) (w : World σ) : Prop where
  process : ∀ n, w.nodes n = (s.sites n).process
  net : s.net ⊆ w.net
  hosts : ∀ n h, s.sites n = .up h → HostOk (C.env n) w.net h

theorem available_mono {net net' : List Message} (hnet : net ⊆ net') :
    i.available net n = true → i.available net' n = true := by
  cases i with
  | voteRequest | voteResponse | appendRequest | appendResponse | installRequest
  | installResponse =>
    simp only [Input.available, decide_eq_true_eq]
    exact fun hmem => hnet hmem
  | _ => exact id

/-- The cluster can follow a step of node `n` with at most one action of its own,
and with no other answers of the stores. -/
def Follows (C : Cluster σ) (actions : List Action) (s : System σ) (n : Int)
    (answers : List Outcome) (t : Turn σ) : Prop :=
  ∃ new : List Action, (∀ a ∈ new, ∀ o ∈ a.answers, o ∈ answers) ∧
    Sim C (s.after n t) (C.run (actions ++ new))

namespace Sim

/-- The site of one node is replaced. -/
theorem replace (hs : Sim C s w) {site : Site σ} {net' : List Message} {w' : World σ}
    (hnodes : w'.nodes = Function.update w.nodes n site.process) (hold : w.net ⊆ w'.net)
    (hnet : net' ⊆ w'.net) (hhost : ∀ h, site = .up h → HostOk (C.env n) w'.net h) :
    Sim C ⟨Function.update s.sites n site, net'⟩ w' := by
  refine ⟨fun m => ?_, hnet, fun m h hm => ?_⟩
  · rw [hnodes]
    by_cases hmn : m = n
    · subst hmn
      simp only [Function.update_self]
    · simp only [Function.update_of_ne hmn]
      exact hs.process m
  · by_cases hmn : m = n
    · subst hmn
      exact hhost h (by simpa only [Function.update_self] using hm)
    · simp only [Function.update_of_ne hmn] at hm
      exact (hs.hosts m h hm).mono hold

variable (hs : Sim C s (C.run actions)) (hup : s.sites n = .up h)

include hs hup

theorem node : (C.run actions).nodes n = .up h.raft h.disk := by
  rw [hs.process n, hup]
  rfl

/-- A step that the node below does not notice. -/
theorem quiet (h' : Host σ) (hraft : h'.raft = h.raft) (hdisk : h'.disk = h.disk)
    (hhost : HostOk (C.env n) (C.run actions).net h') {sent : List Message}
    (hsent : sent ⊆ (C.run actions).net) : Follows C actions s n answers (.ran h' sent) := by
  refine ⟨[], fun a ha => (by cases ha), ?_⟩
  rw [List.append_nil]
  refine hs.replace ?_ (List.Subset.refl _) (List.append_subset.mpr ⟨hsent, hs.net⟩)
    fun h₁ h₁up => by obtain rfl := Site.up.inj h₁up; exact hhost
  have hsame : (Site.up h').process = (C.run actions).nodes n := by
    rw [hs.node hup]
    simp only [Site.process, hraft, hdisk]
  rw [hsame, Function.update_eq_self]

theorem unchanged : Follows C actions s n answers (.ran h []) :=
  hs.quiet hup h rfl rfl (hs.hosts n h hup) (List.nil_subset _)

/-- A step of goroutines that hold no lock: only signals have changed. -/
theorem signals {q : Routines} (hrep : q.replicating = h.routines.replicating)
    (hex : q.exchanges = h.routines.exchanges) :
    Follows C actions s n answers (.ran { h with routines := q } []) :=
  hs.quiet hup { h with routines := q } rfl rfl ((hs.hosts n h hup).same rfl hrep hex)
    (List.nil_subset _)

variable (hav : i.available (C.run actions).net n = true)

include hav

/-- A step of the node below. -/
theorem stepped (h' : Host σ) {given : List Outcome} (hgiven : ∀ o ∈ given, o ∈ answers)
    (hrun : (react (C.env n) i).run given h.raft h.disk = .done out r' d') (hraft : h'.raft = r')
    (hdisk : h'.disk = d') (hhost : HostOk (C.env n) (C.sends n i out ++ (C.run actions).net) h')
    {sent : List Message} (hsent : sent ⊆ C.sends n i out ++ (C.run actions).net) :
    Follows C actions s n answers (.ran h' sent) := by
  have hmember := (Cluster.up_ballot (hs.node hup)).1
  have hperform := Cluster.perform_step (hs.node hup) hmember hav hrun
  have hold : (C.run actions).net ⊆ C.sends n i out ++ (C.run actions).net :=
    List.subset_append_right _ _
  refine ⟨[.step n i given], ?_, ?_⟩
  · intro a ha o ho
    obtain rfl := List.mem_singleton.mp ha
    exact hgiven o ho
  · rw [Cluster.run_append, hperform]
    refine hs.replace ?_ hold (List.append_subset.mpr ⟨hsent, fun m hm => hold (hs.net hm)⟩)
      fun h₁ h₁up => by obtain rfl := Site.up.inj h₁up; exact hhost
    simp only [Site.process, hraft, hdisk]

/-- A step of the node below at which the process dies. -/
theorem died (hrun : (react (C.env n) i).run answers h.raft h.disk = .crashed d') :
    Follows C actions s n answers (.died d') := by
  have hmember := (Cluster.up_ballot (hs.node hup)).1
  refine ⟨[.step n i answers], ?_, ?_⟩
  · intro a ha o ho
    obtain rfl := List.mem_singleton.mp ha
    exact ho
  · rw [Cluster.run_append]
    simp only [Cluster.perform, hs.node hup, hmember, hav, hrun, and_self, ↓reduceIte]
    exact hs.replace rfl (List.Subset.refl _) hs.net fun h₁ h₁up => by cases h₁up

omit hav in
/-- What a step of the node below does to its memory. -/
theorem effects {given : List Outcome}
    (hrun : (react (C.env n) i).run given h.raft h.disk = .done out r' d') :
    Effects (C.env n) h.raft i r' ∧ h.raft.Raises r' := by
  obtain ⟨hmember, hahead⟩ := Cluster.up_ballot (hs.node hup)
  have hmaj : (C.env n).majority ≠ 1 := (Env.majority_gt_one (C.valid n hmember)).ne'
  exact ⟨(effects_of_done hmaj hahead hrun).1,
    react_raises hmaj hahead (hs.hosts n h hup).boundary_le hrun⟩

/-- A step of a handler, the `run` loop or the apply loop. -/
theorem stepNode (hi : ∀ peer, ¬ i.RepliesFrom peer) {next : Output → Raft σ → Disk → Host σ}
    (hraft : ∀ out r' d', (next out r' d').raft = r') (hdisk : ∀ out r' d', (next out r' d').disk = d')
    (hrep : ∀ out r' d', (next out r' d').routines.replicating = h.routines.replicating)
    (hex : ∀ out r' d', (next out r' d').routines.exchanges = h.routines.exchanges) :
    Follows C actions s n answers (Goroutines.stepNode C n h i answers next) := by
  unfold Goroutines.stepNode
  cases hrun : (react (C.env n) i).run answers h.raft h.disk with
  | crashed d' => exact hs.died hup hav hrun
  | done out r' d' =>
    obtain ⟨heff, hraises⟩ := hs.effects hup hrun
    have hhost : HostOk (C.env n) (C.sends n i out ++ (C.run actions).net) (next out r' d') := by
      refine ((hs.hosts n h hup).mono (List.subset_append_right _ _)).step ?_ ?_ hi
        (hrep out r' d') (hex out r' d')
      · rw [hraft]
        exact heff
      · rw [hraft]
        exact hraises
    exact hs.stepped hup hav _ (fun _ ho => ho) hrun (hraft out r' d') (hdisk out r' d') hhost
      (List.subset_append_left _ _)

end Sim

/-! ## The replication goroutines -/

section Reads

variable {env : Env σ} {r : Raft σ} {d : Disk} {peer : Int} {net : List Message}

theorem run_sendAppend {request : AppendEntriesRequest}
    (hbuild : r.buildAppendEntries env.id peer = some request) :
    (react env (.sendAppend peer)).run [] r d = .done (.appendRequest peer request) r d := by
  have hwp : wp Any (fun _ => True) (react env (.sendAppend peer))
      (fun out r' d' => out = .appendRequest peer request ∧ r' = r ∧ d' = d) r d := by
    simp only [react, wp_bind, wp_read, hbuild]
    exact ⟨rfl, rfl, rfl⟩
  exact run_eq_of_wp hwp

/-- A leader with its snapshot at hand can send it at once. -/
theorem run_sendInstall {stored : Snapshot} (hl : r.state = .leader)
    (hbehind : r.Behind peer r.snapshotMeta.lastIncludedIndex)
    (hsn : env.snapshotter.isSome = true) (hstored : d.snapshot = some stored)
    (hmeta : stored.metadata = r.snapshotMeta) :
    (react env (.sendInstall peer)).run [] r d =
      .done (.installRequest peer (snapshotRequest env r.currentTerm r.snapshotMeta stored)) r d := by
  obtain ⟨next, hnext, hle⟩ := hbehind
  have hwp : wp Any (fun _ => True) (react env (.sendInstall peer))
      (fun out r' d' => out = .installRequest peer
        (snapshotRequest env r.currentTerm r.snapshotMeta stored) ∧ r' = r ∧ d' = d) r d := by
    simp only [react, wp_bind]
    refine wp_mono _ _ _ (buildInstallSnapshot_out hl hnext hsn) ?_ fun _ hd => hd
    rintro out r' d' ⟨rfl, rfl, -, hout⟩
    rcases hout hle with ⟨s, hs, -, rfl⟩ | ⟨hne, -⟩
    · obtain rfl := Option.some.inj (hs.symm.trans hstored)
      refine ⟨?_, rfl, rfl⟩
      simp only [snapshotRequest, ← hmeta, Snapshot.metadata]
    · rw [hstored] at hne
      exact absurd (congrArg some hmeta) hne
  exact run_eq_of_wp hwp

theorem run_appendResponse (request : AppendEntriesRequest) (response : AppendEntriesResponse) :
    (react env (.appendResponse peer request response)).run answers r d =
      ((handleAppendEntriesResponse env peer request response).run answers r d).map
        fun _ => .none :=
  run_map (handleAppendEntriesResponse env peer request response) (fun _ => Output.none)
    answers r d

theorem run_installResponse (request : InstallSnapshotRequest)
    (response : InstallSnapshotResponse) :
    (react env (.installResponse peer request response)).run answers r d =
      ((handleInstallSnapshotResponse peer request response).run answers r d).map
        fun _ => .none :=
  run_map (handleInstallSnapshotResponse peer request response) (fun _ => Output.none)
    answers r d

/-- What the first look of `buildInstallSnapshot` leaves to rely on. -/
theorem needsSnapshot_ok (env : Env σ) (net : List Message) (r : Raft σ) (peer : Int) :
    (⟨peer, needsSnapshot env r peer⟩ : Exchange).slot = some peer ∧
      (⟨peer, needsSnapshot env r peer⟩ : Exchange).Ok env net r := by
  unfold needsSnapshot
  split
  · exact ⟨rfl, trivial⟩
  rename_i hl
  split
  · exact ⟨rfl, trivial⟩
  rename_i next hnext
  split
  · exact ⟨rfl, trivial⟩
  rename_i hle
  split
  · exact ⟨rfl, trivial⟩
  · have hleads : r.Leads r.currentTerm := ⟨not_not.mp hl, rfl⟩
    exact ⟨rfl, hleads.past, .inl rfl, fun _ => ⟨next, hnext, Nat.not_lt.mp hle⟩⟩

/-- A request for entries starts at the cursor. -/
theorem cursor_of_buildAppendEntries {request : AppendEntriesRequest}
    (hbuild : r.buildAppendEntries env.id peer = some request) :
    r.Leads request.term ∧ r.nextIndex peer = some (request.prevLogIndex + 1) := by
  obtain ⟨hl, -, hterm, -⟩ := Raft.buildAppendEntries_some hbuild
  refine ⟨⟨hl, hterm.symm⟩, ?_⟩
  unfold Raft.buildAppendEntries at hbuild
  rw [if_neg (not_not.mpr hl)] at hbuild
  split at hbuild
  · cases hbuild
  rename_i next hnext
  split at hbuild
  · cases hbuild
  rename_i hrange
  split at hbuild
  · obtain rfl := Option.some.inj hbuild
    rw [hnext]
    change some next = some (next - 1 + 1)
    congr 1
    omega
  · cases hbuild

end Reads

namespace Sim

variable {k : Nat} {reply : Option Reply} {peer : Int} (hs : Sim C s (C.run actions))
  (hup : s.sites n = .up h)

include hs hup

/-- The goroutine moves on, and the node does not notice. -/
theorem moved {x : Exchange} (hk : h.routines.exchanges[k]? = some x) (stage : Stage)
    (hslot : ({ x with stage := stage } : Exchange).slot = x.slot)
    (hok : ({ x with stage := stage } : Exchange).Ok (C.env n) (C.run actions).net h.raft)
    {sent : List Message} (hsent : sent ⊆ (C.run actions).net) :
    Follows C actions s n answers (.ran (h.setStage k x stage) sent) :=
  hs.quiet hup (h.setStage k x stage) rfl rfl ((hs.hosts n h hup).setStage hk hslot hok) hsent

/-- `store.Load`. If the node still leads with that boundary, the cluster below
sends the snapshot now. -/
theorem loads {term : Nat} {metadata : SnapshotMetadata}
    (hk : h.routines.exchanges[k]? = some ⟨peer, .loading term metadata⟩) :
    Follows C actions s n answers
      (.ran (h.setStage k ⟨peer, .loading term metadata⟩ (loadSnapshot h.disk term metadata)) []) := by
  obtain ⟨hpast, hsince, hbehind⟩ := (hs.hosts n h hup).relies k _ hk
  unfold loadSnapshot
  split
  · exact hs.moved hup hk .returning rfl trivial (List.nil_subset _)
  rename_i stored hstored
  split
  · exact hs.moved hup hk .returning rfl trivial (List.nil_subset _)
  rename_i hmeta
  by_cases hnow : h.raft.Leads term ∧ h.raft.snapshotMeta = metadata
  · obtain ⟨hleads, hboundary⟩ := hnow
    subst hboundary
    obtain rfl := hleads.2
    have hsn : (C.env n).snapshotter.isSome = true := rfl
    have hrun := run_sendInstall hleads.1 (hbehind hleads) hsn hstored (not_not.mp hmeta)
    refine hs.stepped hup rfl (h.setStage k ⟨peer, .loading _ _⟩ (.loaded _ _ stored)) (fun o ho => by cases ho) hrun rfl rfl ?_ (List.nil_subset _)
    refine ((hs.hosts n h hup).mono (List.subset_append_right _ _)).setStage hk rfl ?_
    exact ⟨hpast, hsince, hbehind, fun _ _ => List.mem_cons_self⟩
  · refine hs.moved hup hk (.loaded term metadata stored) rfl ⟨hpast, hsince, hbehind, fun hl hm => ?_⟩ (List.nil_subset _)
    exact absurd ⟨hl, hm⟩ hnow

/-- A response of the peer that the goroutine waits for. -/
theorem replies (h' : Host σ) {x : Exchange} (hk : h.routines.exchanges[k]? = some x)
    (hslot : x.slot = some x.peer) (hav : i.available (C.run actions).net n = true)
    (hi : ∀ peer, i.RepliesFrom peer → peer = x.peer)
    (hrun : (react (C.env n) i).run answers h.raft h.disk = .done out r' d') (stage : Stage)
    (hnew : ({ x with stage := stage } : Exchange).slot = some x.peer)
    (hok : ∀ net, ({ x with stage := stage } : Exchange).Ok (C.env n) net r')
    (hraft : h'.raft = r') (hdisk : h'.disk = d')
    (hrep : h'.routines.replicating = h.routines.replicating)
    (hex : h'.routines.exchanges = h.routines.exchanges.set k { x with stage := stage }) :
    Follows C actions s n answers (.ran h' []) := by
  obtain ⟨heff, hraises⟩ := hs.effects hup hrun
  subst hraft
  refine hs.stepped hup hav _ (fun _ ho => ho) hrun rfl hdisk ?_ (List.nil_subset _)
  exact ((hs.hosts n h hup).mono (List.subset_append_right _ _)).reply hk hslot heff hraises hi hnew
    (hok _) hrep hex

theorem awaitInstall {request : InstallSnapshotRequest} {response : InstallSnapshotResponse}
    (hk : h.routines.exchanges[k]? = some ⟨peer, .awaitInstall request⟩)
    (hmem : .installResponse peer n request response ∈ s.net) :
    Follows C actions s n answers
      (match (handleInstallSnapshotResponse peer request response).run answers h.raft h.disk with
        | .crashed d' => .died d'
        | .done again r' d' => .ran (Host.setStage ⟨r', d', h.routines⟩ k
            ⟨peer, .awaitInstall request⟩ (if again = true then .building else .returning)) []) := by
  have hav : (Input.installResponse peer request response).available (C.run actions).net n = true :=
    decide_eq_true (hs.net hmem)
  have hrun : (react (C.env n) (.installResponse peer request response)).run answers
      h.raft h.disk = _ := run_installResponse request response
  cases hop : (handleInstallSnapshotResponse peer request response).run answers h.raft h.disk with
  | crashed d' =>
    rw [hop] at hrun
    exact hs.died hup hav hrun
  | done again r' d' =>
    rw [hop] at hrun
    cases again with
    | true =>
      exact hs.replies hup _ hk rfl hav (fun _ hp => hp.symm) hrun .building rfl (fun _ => trivial) rfl rfl
        rfl rfl
    | false =>
      exact hs.replies hup _ hk rfl hav (fun _ hp => hp.symm) hrun .returning rfl (fun _ => trivial) rfl rfl
        rfl rfl

theorem awaitAppend {request : AppendEntriesRequest} {response : AppendEntriesResponse}
    (hk : h.routines.exchanges[k]? = some ⟨peer, .awaitAppend request⟩)
    (hmem : .appendResponse peer n request response ∈ s.net) :
    Follows C actions s n answers
      (match (handleAppendEntriesResponse (C.env n) peer request response).run answers
          h.raft h.disk with
        | .crashed d' => .died d'
        | .done again r' d' => .ran ((Host.committed ⟨r', d', h.routines⟩ h.raft).setStage k
            ⟨peer, .awaitAppend request⟩ (if again = true then .retrying else .returning)) []) := by
  have hav : (Input.appendResponse peer request response).available (C.run actions).net n = true :=
    decide_eq_true (hs.net hmem)
  have hrun : (react (C.env n) (.appendResponse peer request response)).run answers
      h.raft h.disk = _ := run_appendResponse request response
  cases hop : (handleAppendEntriesResponse (C.env n) peer request response).run answers
      h.raft h.disk with
  | crashed d' =>
    rw [hop] at hrun
    exact hs.died hup hav hrun
  | done again r' d' =>
    rw [hop] at hrun
    cases again with
    | true =>
      exact hs.replies hup _ hk rfl hav (fun _ hp => hp.symm) hrun .retrying rfl (fun _ => trivial) rfl rfl
        rfl rfl
    | false =>
      exact hs.replies hup _ hk rfl hav (fun _ hp => hp.symm) hrun .returning rfl (fun _ => trivial) rfl rfl
        rfl rfl

theorem exchange :
    Follows C actions s n answers (Goroutines.exchange (C.env n) s.net n h k reply answers) := by
  have ho := hs.hosts n h hup
  have hsame : Follows C actions s n answers (.ran h []) := hs.unchanged hup
  unfold Goroutines.exchange
  cases hk : h.routines.exchanges[k]? with
  | none => exact hsame
  | some x =>
    have hok := ho.relies k x hk
    obtain ⟨peer, stage⟩ := x
    cases stage with
    | started =>
      dsimp only
      split
      · exact hs.moved hup hk .finished rfl trivial (List.nil_subset _)
      · rename_i hfree
        obtain ⟨-, hbusy⟩ := not_or.mp hfree
        exact hs.quiet hup ((h.setReplicating peer true).setStage k ⟨peer, .started⟩ .building) rfl rfl
          (ho.acquire hk rfl (Bool.not_eq_true _ ▸ hbusy)) (List.nil_subset _)
    | building =>
      obtain ⟨hslot, hneeds⟩ := needsSnapshot_ok (C.env n) (C.run actions).net h.raft peer
      exact hs.moved hup hk (needsSnapshot (C.env n) h.raft peer) hslot hneeds (List.nil_subset _)
    | loading term metadata =>
      dsimp only
      split
      · exact hs.moved hup hk .returning rfl trivial (List.nil_subset _)
      · exact hs.loads hup hk
    | loaded term metadata stored =>
      obtain ⟨hpast, -, hbehind, hsent⟩ := hok
      dsimp only
      split
      · rename_i hstill
        simp only [stillNeeded, decide_eq_true_eq] at hstill
        obtain ⟨hl, hterm, hmeta, -⟩ := hstill
        refine hs.moved hup hk (.awaitInstall (snapshotRequest (C.env n) term metadata stored)) rfl
          ⟨hpast, hbehind⟩ ?_
        intro m hm
        obtain rfl := List.mem_singleton.mp hm
        exact hsent ⟨hl, hterm⟩ hmeta
      · exact hs.moved hup hk .appending rfl trivial (List.nil_subset _)
    | appending =>
      dsimp only
      cases hbuild : h.raft.buildAppendEntries (C.env n).id peer with
      | none => exact hs.moved hup hk .returning rfl trivial (List.nil_subset _)
      | some request =>
        obtain ⟨hleads, hcursor⟩ := cursor_of_buildAppendEntries hbuild
        refine hs.stepped hup rfl (h.setStage k ⟨peer, .appending⟩ (.awaitAppend request))
          (fun o ho => by cases ho) (run_sendAppend hbuild) rfl rfl ?_ (List.subset_append_left _ _)
        exact (ho.mono (List.subset_append_right _ _)).setStage hk rfl
          ⟨hleads.past, fun _ => hcursor⟩
    | awaitInstall request =>
      dsimp only
      split
      · exact hs.moved hup hk .returning rfl trivial (List.nil_subset _)
      · split
        · rename_i hmem
          exact hs.awaitInstall hup hk hmem
        · exact hsame
      · exact hsame
    | awaitAppend request =>
      dsimp only
      split
      · exact hs.moved hup hk .returning rfl trivial (List.nil_subset _)
      · split
        · rename_i hmem
          exact hs.awaitAppend hup hk hmem
        · exact hsame
      · exact hsame
    | retrying =>
      dsimp only
      split
      · exact hs.moved hup hk .returning rfl trivial (List.nil_subset _)
      · exact hs.moved hup hk .building rfl trivial (List.nil_subset _)
    | returning =>
      exact hs.quiet hup ((h.setReplicating peer false).setStage k ⟨peer, .returning⟩ .finished) rfl rfl
        (ho.release hk rfl) (List.nil_subset _)
    | finished => exact hsame

end Sim

/-! ## The whole system -/

theorem Host.handled_raft (h : Host σ) (before : Raft σ) (i : Input) :
    (h.handled before i).raft = h.raft := by
  cases i <;> rfl

theorem Host.handled_disk (h : Host σ) (before : Raft σ) (i : Input) :
    (h.handled before i).disk = h.disk := by
  cases i <;> rfl

theorem Host.handled_replicating (h : Host σ) (before : Raft σ) (i : Input) :
    (h.handled before i).routines.replicating = h.routines.replicating := by
  cases i <;> rfl

theorem Host.handled_exchanges (h : Host σ) (before : Raft σ) (i : Input) :
    (h.handled before i).routines.exchanges = h.routines.exchanges := by
  cases i <;> rfl

theorem not_repliesFrom_of_isCall (hi : isCall i = true) (peer : Int) : ¬ i.RepliesFrom peer := by
  cases i with
  | appendResponse => cases hi
  | installResponse => cases hi
  | _ => exact id

/-- The steps of the apply loop. -/
theorem nextApply_some {loop : ApplyLoop} {phase : ApplyPhase} (hi : nextApply loop phase = some i) :
    loop = .applying ∧ (phase = .idle ∧ i = .applySelect ∨
      (∃ e, phase = .selected e) ∧ i = .applyEntry ∨
      (∃ e, phase = .applied e) ∧ i = .applyCheckpoint ∨
      (∃ err, phase = .failed err) ∧ i = .recordApplyFailure) ∨
    loop = .snapshotting ∧ (phase = .idle ∧ i = .snapshotBegin ∨
      (∃ b, phase = .snapshotting b) ∧ i = .snapshotSave ∨
      (∃ b, phase = .snapshotSaved b) ∧ i = .snapshotPublish) := by
  cases loop with
  | waiting => cases hi
  | ended => cases hi
  | applying => cases phase <;> simp_all [nextApply]
  | snapshotting => cases phase <;> simp_all [nextApply]

theorem nextApply_local {loop : ApplyLoop} {phase : ApplyPhase} (hi : nextApply loop phase = some i) :
    (∀ net n, i.available net n = true) ∧ ∀ peer, ¬ i.RepliesFrom peer := by
  rcases nextApply_some hi with
    ⟨-, ⟨-, rfl⟩ | ⟨-, rfl⟩ | ⟨-, rfl⟩ | ⟨-, rfl⟩⟩ | ⟨-, ⟨-, rfl⟩ | ⟨-, rfl⟩ | ⟨-, rfl⟩⟩
  all_goals exact ⟨fun _ _ => rfl, fun _ h => h⟩

namespace Sim

theorem move (hs : Sim C s (C.run actions)) (hup : s.sites n = .up h) (m : Move) :
    Follows C actions s n answers (Goroutines.move C s.net n h answers m) := by
  have ho := hs.hosts n h hup
  have hsame : Follows C actions s n answers (.ran h []) := hs.unchanged hup
  cases m with
  | handle i =>
    simp only [Goroutines.move]
    split
    · rename_i hcan
      obtain ⟨hcall, hav, -⟩ := hcan
      exact hs.stepNode hup (available_mono hs.net hav) (not_repliesFrom_of_isCall hcall)
        (fun _ _ _ => Host.handled_raft _ _ _) (fun _ _ _ => Host.handled_disk _ _ _)
        (fun _ _ _ => Host.handled_replicating _ _ _) fun _ _ _ => Host.handled_exchanges _ _ _
    · exact hsame
  | signal =>
    simp only [Goroutines.move]
    split
    · refine hs.signals hup ?_ ?_ <;> rfl
    · exact hsame
  | electionTimeout =>
    simp only [Goroutines.move]
    split
    · exact hsame
    · have hreply (peer : Int) : ¬ Input.electionTimeout.RepliesFrom peer := fun hp => hp
      exact hs.stepNode hup rfl hreply (fun _ _ _ => rfl) (fun _ _ _ => rfl) (fun _ _ _ => rfl)
        fun _ _ _ => rfl
  | vote peer term response =>
    simp only [Goroutines.move]
    split
    · rename_i hcan
      exact hs.stepNode hup (available_mono hs.net hcan.2) (fun _ hp => hp) (fun _ _ _ => rfl)
        (fun _ _ _ => rfl) (fun _ _ _ => rfl) fun _ _ _ => rfl
    · exact hsame
  | giveUp => refine hs.signals hup ?_ ?_ <;> rfl
  | replicateAll =>
    simp only [Goroutines.move]
    split
    · have hnew : ∀ x ∈ (C.env n).peers.map fun p => (⟨p, .started⟩ : Exchange), x.slot = none := by
        intro x hx
        obtain ⟨p, -, rfl⟩ := List.mem_map.mp hx
        rfl
      refine hs.quiet hup _ ?_ ?_ (ho.spawn hnew ?_ ?_ ?_) (List.nil_subset _) <;> rfl
    · exact hsame
  | wake =>
    simp only [Goroutines.move]
    split
    · refine hs.signals hup ?_ ?_ <;> rfl
    · exact hsame
  | apply =>
    simp only [Goroutines.move]
    split
    · exact hsame
    rename_i i hi
    obtain ⟨hav, hreply⟩ := nextApply_local hi
    split
    · exact hsame
    · exact hs.stepNode hup (hav _ _) hreply (fun _ _ _ => rfl) (fun _ _ _ => rfl)
        (fun _ _ _ => rfl) fun _ _ _ => rfl
  | exchange k reply => exact hs.exchange hup

theorem perform (hs : Sim C s (C.run actions)) (e : Event) :
    ∃ new : List Action, (∀ a ∈ new, ∀ o ∈ a.answers, o ∈ e.answers) ∧
      Sim C (Goroutines.perform C s e) (C.run (actions ++ new)) := by
  have hidle : ∃ new : List Action, (∀ a ∈ new, ∀ o ∈ a.answers, o ∈ e.answers) ∧
      Sim C s (C.run (actions ++ new)) :=
    ⟨[], fun a ha => (by cases ha), by rwa [List.append_nil]⟩
  cases e with
  | move n m answers =>
    simp only [Goroutines.perform]
    split
    · exact hidle
    rename_i h hup
    split
    · exact hs.move hup m
    · exact hidle
  | crash n =>
    simp only [Goroutines.perform]
    split
    · exact hidle
    rename_i h hup
    refine ⟨[.crash n], ?_, ?_⟩
    · intro a ha o ho
      obtain rfl := List.mem_singleton.mp ha
      cases ho
    · rw [Cluster.run_append]
      simp only [Cluster.perform, hs.node hup]
      exact hs.replace rfl (List.Subset.refl _) hs.net fun h₁ h₁up => by cases h₁up
  | restart n answers =>
    simp only [Goroutines.perform]
    split
    · exact hidle
    rename_i d hdown
    have hnode : (C.run actions).nodes n = .down d := by
      rw [hs.process n, hdown]
      rfl
    split
    swap
    · exact hidle
    rename_i hn
    refine ⟨[.restart n answers], ?_, ?_⟩
    · intro a ha o ho
      obtain rfl := List.mem_singleton.mp ha
      exact ho
    rw [Cluster.run_append]
    simp only [Cluster.perform, hnode, if_pos hn]
    cases hstart : start (C.env n) answers d with
    | crashed d' => exact hs.replace rfl (List.Subset.refl _) hs.net fun h₁ h₁up => by cases h₁up
    | done res v d' =>
      cases res with
      | error err => exact hs.replace rfl (List.Subset.refl _) hs.net fun h₁ h₁up => by cases h₁up
      | ok r =>
        refine hs.replace rfl (List.Subset.refl _) hs.net fun h₁ h₁up => ?_
        obtain rfl := Site.up.inj h₁up
        obtain ⟨-, -, -, hord⟩ := (start_done hstart).2 r rfl
        exact ⟨hord.boundary_le, .nil fun _ => rfl, fun k x hx => by cases hx⟩

end Sim

/-- The cluster below follows every run, against the answers that were given. -/
theorem exists_sim (C : Cluster σ) (events : List Event) :
    ∃ actions, Sim C (run C events) (C.run actions) ∧
      ∀ a ∈ actions, ∀ o ∈ a.answers, ∃ e ∈ events, o ∈ e.answers := by
  induction events using List.reverseRecOn with
  | nil =>
    refine ⟨[], ⟨fun _ => rfl, List.Subset.refl _, fun n h hup => ?_⟩, fun a ha => by cases ha⟩
    cases hup
  | append_singleton events e ih =>
    obtain ⟨actions, hs, hans⟩ := ih
    obtain ⟨new, hnew, hs'⟩ := hs.perform e
    refine ⟨actions ++ new, by rwa [run_append], fun a ha o ho => ?_⟩
    rcases List.mem_append.mp ha with hmem | hmem
    · obtain ⟨e', he', ho'⟩ := hans a hmem o ho
      exact ⟨e', List.mem_append_left _ he', ho'⟩
    · exact ⟨e, List.mem_append_right _ List.mem_cons_self, hnew a hmem o ho⟩

/-- Whatever the goroutines of the nodes do, and however they interleave, the
cluster of `Cluster.Model` can do it: there is a run of it, against no other
answers of the stores, in which every node has the same memory and files, and
every message was sent. -/
theorem goroutines_refine (C : Cluster σ) (events : List Event) :
    ∃ actions, (∀ n, (C.run actions).nodes n = ((run C events).sites n).process) ∧
      (run C events).net ⊆ (C.run actions).net ∧
      ∀ allow : Outcome → Prop, (∀ e ∈ events, ∀ o ∈ e.answers, allow o) →
        Permitted allow actions := by
  obtain ⟨actions, hs, hans⟩ := exists_sim C events
  refine ⟨actions, hs.process, hs.net, fun allow hallow a ha o ho => ?_⟩
  obtain ⟨e, he, ho'⟩ := hans a ha o ho
  exact hallow e he o ho'

end DistributedKv.Goroutines
