import DistributedKv.Cluster.Election

/-!
The leader that a node advertises to clients. In every run, whatever the stores
answer, a node names itself exactly while it leads, and another node only if
that node has led in the term it is in. Requests in flight name leaders of their
term (`RequestsOk`), and no node is sent a request of its own.
-/

namespace DistributedKv

open Crash Prog

variable {σ : Type}

/-- `LeaderHTTPAddr` of `internal/node/node.go`. -/
def leaderHTTPAddr (cfg : Config) (leaderID : Int) : Option String :=
  if leaderID = unknownLeader then none
  else if leaderID = cfg.self.id then some cfg.self.httpAddr
  else (cfg.peerByID leaderID).map Node.httpAddr

/-! ## Requests that a step sends -/

/-- A request to a follower comes from a leader with a cursor for it. -/
def Sends (env : Env σ) (r : Raft σ) : Input → Output → Prop
  | .sendAppend peer, .appendRequest peer' req => peer' = peer ∧ r.state = .leader ∧
      (r.nextIndex peer).isSome = true ∧ req.term = r.currentTerm ∧ req.leaderID = env.id
  | .sendInstall peer, .installRequest peer' req => peer' = peer ∧ r.state = .leader ∧
      (r.nextIndex peer).isSome = true ∧ req.term = r.currentTerm ∧ req.leaderID = env.id
  | _, .appendRequest _ _ => False
  | _, .installRequest _ _ => False
  | _, _ => True

theorem Raft.buildAppendEntries_some {r : Raft σ} {id peer : Int} {req : AppendEntriesRequest}
    (h : r.buildAppendEntries id peer = some req) :
    r.state = .leader ∧ (r.nextIndex peer).isSome = true ∧ req.term = r.currentTerm ∧
      req.leaderID = id := by
  unfold buildAppendEntries at h
  split at h
  · cases h
  rename_i hl
  split at h
  · cases h
  rename_i next hnext
  split at h
  · cases h
  split at h
  · obtain rfl := Option.some.inj h
    exact ⟨not_not.mp hl, by rw [hnext]; rfl, rfl, rfl⟩
  · cases h

/-- An operation whose result is not looked at. -/
theorem wp_any {α : Type} (p : Op σ α) (r : Raft σ) (d : Disk) :
    wp Any (fun _ => True) p (fun _ _ _ => True) r d := by
  induction p generalizing r d with
  | pure a => trivial
  | get k ih => exact ih r r d
  | set v k ih => exact ih v d
  | load k ih => exact ih d r d
  | call w k ih =>
    unfold wp
    split
    · exact ih _ r d
    · exact ⟨ih _ r _, fun _ _ => ih _ r d, fun _ _ => ih _ r _, fun _ _ => trivial⟩

theorem react_sends {env : Env σ} {i : Input} {answers : List Outcome} {r r' : Raft σ}
    {d d' : Disk} {out : Output} (hrun : (react env i).run answers r d = .done out r' d') :
    Sends env r i out := by
  have hquiet : ∀ {α : Type} {op : Op σ α} {f : α → Output}, (∀ a, Sends env r i (f a)) →
      wp Any (fun _ => True) (do let a ← op; return f a) (fun o _ _ => Sends env r i o) r d := by
    intro α op f hf
    simp only [wp_bind, wp_pure]
    exact wp_mono _ _ _ (wp_any op r d) (fun a _ _ _ => hf a) fun _ h => h
  suffices h : wp Any (fun _ => True) (react env i) (fun o _ _ => Sends env r i o) r d by
    have := wp_run _ _ answers r d (fun _ _ => trivial) h
    rwa [hrun] at this
  cases i with
  | electionTimeout =>
    simp only [react, wp_bind, wp_read, wp_ite, wp_pure]
    refine ⟨fun _ => trivial, fun _ => wp_mono _ _ _ (wp_any _ r d) ?_ fun _ h => h⟩
    rintro (_ | req) _ _ _ <;> trivial
  | installRequest req =>
    simp only [react, wp_bind, wp_read, wp_ite, wp_pure]
    refine ⟨fun _ => trivial, fun _ => wp_mono _ _ _ (wp_any _ r d) ?_ fun _ h => h⟩
    rintro (_ | resp) _ _ _ <;> trivial
  | propose command =>
    simp only [react, wp_bind]
    refine wp_mono _ _ _ (wp_any _ r d) ?_ fun _ h => h
    rintro (_ | ⟨index, channel⟩) _ _ _ <;> trivial
  | applyCheckpoint =>
    simp only [react, wp_bind]
    refine wp_mono _ _ _ (wp_any _ r d) ?_ fun _ h => h
    rintro (_ | ⟨channel, entry⟩) _ _ _ <;> trivial
  | sendAppend peer =>
    simp only [react, wp_bind, wp_read]
    cases hreq : r.buildAppendEntries env.id peer with
    | none => trivial
    | some req => exact ⟨rfl, Raft.buildAppendEntries_some hreq⟩
  | sendInstall peer =>
    simp only [react, buildInstallSnapshot, wp_bind, wp_read, wp_ite, wp_pure]
    refine ⟨fun _ => trivial, fun hl => ?_⟩
    cases hnext : r.nextIndex peer with
    | none => trivial
    | some next =>
      simp only [wp_ite, wp_pure, wp_bind, wp_disk]
      refine ⟨fun _ => trivial, fun _ => ⟨fun _ => trivial, fun _ => ?_⟩⟩
      cases d.snapshot with
      | none => trivial
      | some stored =>
        simp only [wp_ite, wp_pure]
        refine ⟨fun _ => trivial, fun _ => ⟨rfl, not_not.mp hl, ?_, rfl, rfl⟩⟩
        rw [hnext]
        rfl
  | _ => exact hquiet fun _ => trivial

namespace Cluster

variable {C : Cluster σ} {actions : List Action} {n : Int}

/-! ## Who has led -/

/-- At some moment of the run, `n` was up and led in term `t`. -/
def Led (C : Cluster σ) (actions : List Action) (n : Int) (t : Nat) : Prop :=
  ∃ k ≤ actions.length, ∃ r d, (C.run (actions.take k)).nodes n = .up r d ∧
    r.state = .leader ∧ r.currentTerm = t

theorem Led.now {r : Raft σ} {d : Disk} (hup : (C.run actions).nodes n = .up r d)
    (hl : r.state = .leader) : C.Led actions n r.currentTerm :=
  ⟨actions.length, le_rfl, r, d, by rwa [List.take_length], hl, rfl⟩

theorem Led.later {t : Nat} (h : C.Led actions n t) (a : Action) : C.Led (actions ++ [a]) n t := by
  obtain ⟨k, hk, r, d, hup, hl⟩ := h
  refine ⟨k, ?_, r, d, ?_, hl⟩
  · rw [List.length_append]
    omega
  · rwa [List.take_append_of_le_length hk]

/-- A process that is up is a member, and its stored ballot is not behind. -/
theorem up_ballot {r : Raft σ} {d : Disk} (hup : (C.run actions).nodes n = .up r d) :
    n ∈ C.members ∧ Ahead r d.stable := by
  obtain ⟨hn, -, ha⟩ := (ballots actions).up hup
  exact ⟨hn, ha⟩

/-! ## One node -/

/-- What a node advertises, if the leaders so far are those of `led`. -/
structure AdvertOk (led : Int → Nat → Prop) (n : Int) (r : Raft σ) : Prop where
  leader_iff : r.leaderID = n ↔ r.state = .leader
  other : r.leaderID ≠ unknownLeader → r.leaderID ≠ n → led r.leaderID r.currentTerm
  cursors : ∀ p, (r.nextIndex p).isSome = true → p ≠ n

/-- What an input says about leaders, and from whom a response comes. -/
structure InputTrue (led : Int → Nat → Prop) (n : Int) (i : Input) : Prop where
  claims : ∀ term leaderID, i.Claims term leaderID → leaderID ≠ n ∧ led leaderID term
  appendResponse : ∀ peer req resp, i = .appendResponse peer req resp → peer ≠ n
  installResponse : ∀ peer req resp, i = .installResponse peer req resp → peer ≠ n

theorem AdvertOk.follower {led : Int → Nat → Prop} {r r' : Raft σ} (h : AdvertOk led n r)
    (hs : r'.state ≠ .leader) (hid : r'.leaderID ≠ n) (hnext : r'.nextIndex = r.nextIndex)
    (hled : r'.leaderID ≠ unknownLeader → led r'.leaderID r'.currentTerm) : AdvertOk led n r' where
  leader_iff := ⟨fun heq => absurd heq hid, fun hl => absurd hl hs⟩
  other := fun hne _ => hled hne
  cursors := by
    rw [hnext]
    exact h.cursors

theorem setAt_isSome {m : Int → Option Nat} {key p : Int} {value : Nat}
    (h : (setAt m key value p).isSome = true) : p = key ∨ (m p).isSome = true := by
  unfold setAt at h
  split at h
  · exact .inl ‹_›
  · exact .inr h

theorem recordMatch_isSome {r : Raft σ} {peer p : Int} {matched : Nat}
    (h : ((r.recordMatch peer matched).nextIndex p).isSome = true) :
    p = peer ∨ (r.nextIndex p).isSome = true := by
  dsimp only [Raft.recordMatch] at h
  generalize (if matched > (r.matchIndex peer).getD 0 then matched
    else (r.matchIndex peer).getD 0) = newMatch at h
  split at h
  · exact setAt_isSome h
  · exact .inr h

theorem AdvertOk.effect (hn : n ∈ C.members) {led : Int → Nat → Prop} {i : Input}
    (hi : InputTrue led n i) {r₀ r r' : Raft σ} (he : Effect (C.env n) r₀ i r r')
    (h : AdvertOk led n r) : AdvertOk led n r' := by
  have hunknown : unknownLeader ≠ n := by
    have := nonneg hn
    simp only [unknownLeader]
    omega
  cases he with
  | raise _ _ term leaderID _ hl =>
    refine h.follower (fun hs => by cases hs) ?_ rfl fun hne => ?_
    · rcases hl with rfl | hl
      · exact hunknown
      · exact (hi.claims _ _ hl).1
    · exact (hi.claims _ _ (hl.resolve_left hne)).2
  | follow _ _ leaderID hl =>
    exact h.follower (fun hs => by cases hs) (hi.claims _ _ hl).1 rfl fun _ => (hi.claims _ _ hl).2
  | stand => exact h.follower (fun hs => by cases hs) hunknown rfl fun hne => absurd rfl hne
  | lead =>
    refine ⟨⟨fun _ => rfl, fun _ => env_id hn⟩, fun _ hne => absurd (env_id hn) hne, fun p hp => ?_⟩
    by_cases hmem : p ∈ (C.env n).peers
    · exact ((mem_peers hn).mp hmem).2
    · simp only [Raft.led, if_neg hmem] at hp
      cases hp
  | backUp _ peer req resp =>
    refine ⟨h.leader_iff, h.other, fun p hp => ?_⟩
    rcases setAt_isSome hp with rfl | hp
    · exact hi.appendResponse _ _ _ rfl
    · exact h.cursors p hp
  | recordAppend _ peer req resp =>
    refine ⟨h.leader_iff, h.other, fun p hp => ?_⟩
    rcases recordMatch_isSome hp with rfl | hp
    · exact hi.appendResponse _ _ _ rfl
    · exact h.cursors p hp
  | recordInstall _ peer req resp =>
    refine ⟨h.leader_iff, h.other, fun p hp => ?_⟩
    rcases setAt_isSome hp with rfl | hp
    · exact hi.installResponse _ _ _ rfl
    · exact h.cursors p hp
  | checkpoint _ entry =>
    obtain ⟨_, _, -, -, heq⟩ := r.checkpointed_eq entry
    rw [heq]
    exact ⟨h.leader_iff, h.other, h.cursors⟩
  | stop _ err =>
    obtain ⟨_, _, _, -, -, heq⟩ := r.stopped_eq err
    rw [heq]
    exact ⟨h.leader_iff, h.other, h.cursors⟩
  | _ => exact ⟨h.leader_iff, h.other, h.cursors⟩

theorem AdvertOk.effects (hn : n ∈ C.members) {led : Int → Nat → Prop} {i : Input}
    (hi : InputTrue led n i) {r r' : Raft σ} (he : Effects (C.env n) r i r')
    (h : AdvertOk led n r) : AdvertOk led n r' := by
  induction he with
  | refl => exact h
  | tail _ he ih => exact ih.effect hn hi he

theorem AdvertOk.mono {led led' : Int → Nat → Prop} {r : Raft σ} (h : AdvertOk led n r)
    (hsub : ∀ n t, led n t → led' n t) : AdvertOk led' n r :=
  ⟨h.leader_iff, fun hne hne' => hsub _ _ (h.other hne hne'), h.cursors⟩

/-! ## The run -/

/-- Requests name leaders of their term, and nobody is its own peer. -/
structure RequestsOk (led : Int → Nat → Prop) (net : List Message) : Prop where
  append : ∀ dst req, .appendRequest dst req ∈ net → req.leaderID ≠ dst ∧ led req.leaderID req.term
  install : ∀ dst req, .installRequest dst req ∈ net →
    req.leaderID ≠ dst ∧ led req.leaderID req.term
  appendResponse : ∀ src dst req resp, .appendResponse src dst req resp ∈ net → src ≠ dst
  installResponse : ∀ src dst req resp, .installResponse src dst req resp ∈ net → src ≠ dst

structure Adverts (C : Cluster σ) (actions : List Action) : Prop where
  requests : RequestsOk (C.Led actions) (C.run actions).net
  node : ∀ n r d, (C.run actions).nodes n = .up r d → AdvertOk (C.Led actions) n r

theorem RequestsOk.mono {led led' : Int → Nat → Prop} {net : List Message}
    (h : RequestsOk led net) (hsub : ∀ n t, led n t → led' n t) : RequestsOk led' net :=
  ⟨fun dst req hm => ⟨(h.append dst req hm).1, hsub _ _ (h.append dst req hm).2⟩,
    fun dst req hm => ⟨(h.install dst req hm).1, hsub _ _ (h.install dst req hm).2⟩,
    h.appendResponse, h.installResponse⟩

theorem RequestsOk.inputTrue {led : Int → Nat → Prop} {net : List Message}
    (h : RequestsOk led net) {i : Input} (hin : i.available net n = true) : InputTrue led n i where
  claims term leaderID hc := by
    cases i with
    | appendRequest req =>
      obtain ⟨rfl, rfl⟩ := hc
      exact h.append n req (by simpa [Input.available] using hin)
    | installRequest req =>
      obtain ⟨rfl, rfl⟩ := hc
      exact h.install n req (by simpa [Input.available] using hin)
    | _ => exact hc.elim
  appendResponse peer req resp hi := by
    subst hi
    exact h.appendResponse peer n req resp (by simpa [Input.available] using hin)
  installResponse peer req resp hi := by
    subst hi
    exact h.installResponse peer n req resp (by simpa [Input.available] using hin)

/-- What a step of `n` sends is true again. -/
theorem RequestsOk.send {led : Int → Nat → Prop} {net : List Message} (h : RequestsOk led net)
    (hn : n ∈ C.members) {i : Input} (hin : i.available net n = true) {r : Raft σ} {out : Output}
    (hr : AdvertOk led n r) (hnow : r.state = .leader → led n r.currentTerm)
    (hsends : Sends (C.env n) r i out) : RequestsOk led (C.sends n i out ++ net) := by
  have hin' := h.inputTrue hin
  refine ⟨fun dst req hm => ?_, fun dst req hm => ?_, fun src dst req resp hm => ?_,
    fun src dst req resp hm => ?_⟩
  · rcases List.mem_append.mp hm with hm | hm
    swap
    · exact h.append dst req hm
    unfold sends at hm
    split at hm
    case h_3 peer req' =>
      obtain ⟨rfl, rfl⟩ := Message.appendRequest.inj (List.mem_singleton.mp hm)
      cases i with
      | sendAppend peer =>
        obtain ⟨rfl, hl, hcursor, hterm, hid⟩ := hsends
        rw [hid, env_id hn, hterm]
        exact ⟨(hr.cursors _ hcursor).symm, hnow hl⟩
      | _ => exact hsends.elim
    all_goals simp at hm
  · rcases List.mem_append.mp hm with hm | hm
    swap
    · exact h.install dst req hm
    unfold sends at hm
    split at hm
    case h_5 peer req' =>
      obtain ⟨rfl, rfl⟩ := Message.installRequest.inj (List.mem_singleton.mp hm)
      cases i with
      | sendInstall peer =>
        obtain ⟨rfl, hl, hcursor, hterm, hid⟩ := hsends
        rw [hid, env_id hn, hterm]
        exact ⟨(hr.cursors _ hcursor).symm, hnow hl⟩
      | _ => exact hsends.elim
    all_goals simp at hm
  · rcases List.mem_append.mp hm with hm | hm
    swap
    · exact h.appendResponse src dst req resp hm
    unfold sends at hm
    split at hm
    case h_4 req' resp' =>
      obtain ⟨rfl, rfl, -, -⟩ := Message.appendResponse.inj (List.mem_singleton.mp hm)
      exact (hin'.claims _ _ ⟨rfl, rfl⟩).1.symm
    all_goals simp at hm
  · rcases List.mem_append.mp hm with hm | hm
    swap
    · exact h.installResponse src dst req resp hm
    unfold sends at hm
    split at hm
    case h_6 req' resp' =>
      obtain ⟨rfl, rfl, -, -⟩ := Message.installResponse.inj (List.mem_singleton.mp hm)
      exact (hin'.claims _ _ ⟨rfl, rfl⟩).1.symm
    all_goals simp at hm

theorem AdvertOk.fresh (hn : n ∈ C.members) {led : Int → Nat → Prop} {r : Raft σ}
    {s : StableState} (h : r.Fresh s) : AdvertOk led n r := by
  refine ⟨?_, fun hne => absurd h.leaderID hne, ?_⟩
  · have := nonneg hn
    rw [h.leaderID, h.state]
    simp only [unknownLeader, reduceCtorEq, iff_false]
    omega
  · intro p hp
    rw [h.nextIndex] at hp
    cases hp

theorem Adverts.perform (h : C.Adverts actions) (a : Action) : C.Adverts (actions ++ [a]) := by
  have hlater : ∀ n t, C.Led actions n t → C.Led (actions ++ [a]) n t := fun _ _ hl => hl.later a
  have hrun := C.run_append actions a
  have hmoved := C.moved (C.run actions) a
  rw [← hrun] at hmoved
  refine ⟨?_, fun m r' d' hup' => ?_⟩
  · -- only a step that ends sends something
    generalize C.run (actions ++ [a]) = w' at hmoved ⊢
    cases hmoved with
    | step hup hn hav hstep =>
      exact (h.requests.send hn hav (h.node _ _ _ hup) (fun hl => .now hup hl)
        (react_sends hstep)).mono hlater
    | _ => exact h.requests.mono hlater
  · rw [hrun] at hup'
    rcases perform_up hup' with hold | ⟨i, answers, r, d, out, rfl, hup, hn, hav, hstep⟩ |
      ⟨answers, d, st, rfl, -, hn, hstart⟩
    · exact (h.node m r' d' hold).mono hlater
    · obtain ⟨heff, -, -⟩ := effects_of_done (majority_ne_one hn) (up_ballot hup).2 hstep
      exact ((h.node m r d hup).effects hn (h.requests.inputTrue hav) heff).mono hlater
    · obtain ⟨-, hfresh, -⟩ := (start_done hstart).2 r' rfl
      exact .fresh hn hfresh

theorem adverts (actions : List Action) : C.Adverts actions := by
  induction actions using List.reverseRecOn with
  | nil =>
    refine ⟨⟨?_, ?_, ?_, ?_⟩, fun n r d hup => ?_⟩
    iterate 4 simp [run, World.initial]
    cases hup
  | append_singleton actions a ih => exact ih.perform a

/-- In every reachable state, whatever the stores answered: a node names itself
as the leader exactly while it leads; a leader that it names was leader in the
term the node is in; and the address it redirects a write to is that node's,
never its own unless it leads. -/
theorem advertised_leader {actions : List Action} {n : Int} {r : Raft σ} {d : Disk}
    (hup : (C.run actions).nodes n = .up r d) :
    (r.leaderID = n ↔ r.state = .leader) ∧
    (r.leaderID ≠ unknownLeader → C.Led actions r.leaderID r.currentTerm) ∧
    ∀ addr, leaderHTTPAddr (C.config n) r.leaderID = some addr →
      (∃ node ∈ (C.config n).self :: (C.config n).peers, node.id = r.leaderID ∧
        node.httpAddr = addr ∧ C.Led actions node.id r.currentTerm) ∧
      (r.state ≠ .leader → addr ≠ (C.config n).self.httpAddr) := by
  have hr := (adverts actions).node n r d hup
  have hn := (up_ballot hup).1
  have hled : r.leaderID ≠ unknownLeader → C.Led actions r.leaderID r.currentTerm := by
    intro hne
    by_cases hself : r.leaderID = n
    · rw [hself]
      exact .now hup (hr.leader_iff.mp hself)
    · exact hr.other hne hself
  refine ⟨hr.leader_iff, hled, fun addr haddr => ?_⟩
  unfold leaderHTTPAddr at haddr
  split at haddr
  · cases haddr
  rename_i hknown
  split at haddr
  · rename_i hself
    obtain rfl := Option.some.inj haddr
    refine ⟨⟨_, List.mem_cons_self, hself.symm, rfl, hself ▸ hled hknown⟩, fun hl => ?_⟩
    rw [C.id_eq n hn] at hself
    exact absurd (hr.leader_iff.mp hself) hl
  · obtain ⟨node, hfind, rfl⟩ := Option.map_eq_some_iff.mp haddr
    have hmem := List.mem_of_find?_eq_some hfind
    have hid : node.id = r.leaderID := by simpa using List.find?_some hfind
    exact ⟨⟨node, List.mem_cons_of_mem _ hmem, hid, rfl, hid ▸ hled hknown⟩,
      fun _ => Config.validate_httpAddrs (C.valid n hn) node hmem⟩

/-- Node 1 wins the second term; node 3 hears of it and points clients there. -/
theorem advertised_leader_heard :
    ∃ r d, ((localCluster 1).run (contestedRun.take 11 ++ [.step 1 (.sendAppend 3) [],
        .step 3 (.appendRequest ⟨2, 1, 1, 2, [], 0⟩) []])).nodes 3 = .up r d ∧
      r.leaderID = 1 ∧ r.state ≠ .leader ∧
      leaderHTTPAddr (localConfig 1 3) r.leaderID = some "127.0.0.1:8001" ∧
      "127.0.0.1:8001" ≠ (localConfig 1 3).self.httpAddr := by
  refine ⟨_, _, rfl, rfl, by decide, by decide, ?_⟩
  exact ((@advertised_leader _ (localCluster 1) (contestedRun.take 11 ++ [.step 1 (.sendAppend 3) [],
    .step 3 (.appendRequest ⟨2, 1, 1, 2, [], 0⟩) []]) 3 _ _ rfl).2.2 _ rfl).2 (by decide)

end Cluster

end DistributedKv
