import DistributedKv.Cluster.Deployed

/-!
The service that clients see. The abstract service is one list of writes for the
whole cluster; a node serves the state after some of them. In every run of the
deployed cluster whose clients write text through the handlers, each read is
answered from a prefix of that list which never gets shorter at a node, and a
write that was answered with success is an entry of the list, inside the prefix
of its node from then on.
-/

namespace DistributedKv

open Crash

variable {maxLength : Int}

/-! ## The last write of a key -/

/-- The value of `key` after an entry, if it was `v` before. -/
def LogEntry.writes (e : LogEntry) (key : Bytes) (v : Option Bytes) : Option Bytes :=
  match e.operation with
  | .set => if e.key = key then some e.value else v
  | .delete => if e.key = key then none else v
  | _ => v

/-- The value that a list of entries leaves for `key`. -/
def lastWrite (key : Bytes) (l : List LogEntry) : Option Bytes :=
  l.foldl (fun v e => e.writes key v) none

namespace MemoryStore

theorem apply_get {e : LogEntry} {s s' : MemoryStore maxLength} {m : Contents}
    (hs : s.data = some m) (h : apply e s = .ok s') :
    ∃ m', s'.data = some m' ∧ ∀ key, m'.get key = e.writes key (m.get key) := by
  obtain ⟨index, term, operation, key, value⟩ := e
  cases operation with
  | noop =>
    obtain rfl := Except.ok.inj h
    exact ⟨m, hs, fun _ => rfl⟩
  | set =>
    have hkey : key ≠ [] := by
      intro hnil
      simp [apply, set, hnil] at h
    have hval : (value.length : Int) ≤ maxLength := by
      by_contra hlong
      simp [apply, set, hkey, Int.not_le.mp hlong] at h
    obtain ⟨s₁, heq, hdata⟩ := set_ok (s := s) hkey hval (by simp [hs])
    obtain rfl := Except.ok.inj (heq.symm.trans h)
    refine ⟨m.set key value, by rw [hdata, hs]; rfl, ?_⟩
    intro key'
    exact m.get_set key value key'
  | delete =>
    obtain rfl := Except.ok.inj h
    refine ⟨m.delete key, ?_, ?_⟩
    · change s.data.map _ = _
      rw [hs]
      rfl
    · intro key'
      exact m.get_delete key key'
  | other name => cases h

theorem foldlM_get {json : Json} {l : List LogEntry} {s s' : MemoryStore maxLength} {m : Contents}
    (hs : s.data = some m)
    (h : l.foldlM (fun st e => if e.operation = .noop then .ok st
      else (machine json maxLength).apply e st) s = .ok s') :
    ∃ m', s'.data = some m' ∧ ∀ key, m'.get key = l.foldl (fun v e => e.writes key v) (m.get key) := by
  induction l generalizing s m with
  | nil =>
    obtain rfl := Except.ok.inj h
    exact ⟨m, hs, fun _ => rfl⟩
  | cons e l ih =>
    rw [List.foldlM_cons] at h
    by_cases hop : e.operation = .noop
    · rw [if_pos hop] at h
      obtain ⟨m', hm', hget⟩ := ih hs h
      refine ⟨m', hm', ?_⟩
      intro key
      rw [hget, List.foldl_cons]
      simp only [LogEntry.writes, hop]
    · rw [if_neg hop] at h
      cases happly : apply e s with
      | error err =>
        rw [show (machine json maxLength).apply e s = .error err from happly] at h
        cases h
      | ok s₁ =>
        rw [show (machine json maxLength).apply e s = .ok s₁ from happly] at h
        obtain ⟨m₁, hm₁, hget₁⟩ := apply_get hs happly
        obtain ⟨m', hm', hget⟩ := ih hm₁ h
        refine ⟨m', hm', ?_⟩
        intro key
        rw [hget, hget₁, List.foldl_cons]

/-- What the store holds for a key is the last write of it. -/
theorem get_replay {json : Json} {l : List LogEntry} {s : MemoryStore maxLength}
    (h : (machine json maxLength).replay l = .ok s) (key : Bytes) :
    s.data.bind (·.get key) = lastWrite key l := by
  obtain ⟨m, hm, hget⟩ := foldlM_get (s := new maxLength) rfl h
  rw [hm]
  exact hget key

end MemoryStore

/-- The answer to a read of `key` with this value. -/
def readAnswer (key : Bytes) : Option Bytes → Except HTTPResponse Bytes
  | none => .error (.error s!"key {Utf8.quote key} not found" 404)
  | some value => .ok value

theorem getHandler_eq {s : MemoryStore maxLength} {req : HTTPRequest} {key : Bytes}
    (hmethod : req.method = "GET") (hkey : URL.queryGet req.rawQuery [107, 101, 121] = key)
    (hne : key ≠ []) : getHandler s.get req = readAnswer key (s.data.bind (·.get key)) := by
  subst hkey
  simp only [getHandler, hmethod, ne_eq, not_true_eq_false, ↓reduceIte, hne, MemoryStore.get]
  cases s.data.bind (·.get (URL.queryGet req.rawQuery [107, 101, 121])) with
  | none => rfl
  | some value => rfl

/-! ## Waiting for a write -/

/-- The error of a result as `Node.propose` returns it. -/
def Result.outcome (result : Result) : Except WriteError Unit :=
  match result.err with
  | none => .ok ()
  | some text => .error (.other text)

/-- How the `select` of `Node.propose` can end on a channel: the context can be
done at any time, and otherwise it takes what the channel has. -/
inductive ProposeReturns (c : Channel) : Except WriteError Unit → Prop
  | deadline : ProposeReturns c (.error .deadlineExceeded)
  | canceled : ProposeReturns c (.error .canceled)
  | received (result : Result) (rest : List Result) (h : c.received = result :: rest) :
      ProposeReturns c result.outcome
  | closed (h : c.received = []) (hc : c.closed = true) :
      ProposeReturns c (.error (.other "Raft proposal completed without a result"))

theorem ProposeReturns.received_of_ok {c : Channel} (h : ProposeReturns c (.ok ())) :
    ∃ index, ⟨index, none⟩ ∈ c.received := by
  generalize hout : Except.ok () = out at h
  cases h with
  | deadline => cases hout
  | canceled => cases hout
  | closed => cases hout
  | received result rest hc =>
    obtain ⟨index, err⟩ := result
    cases err with
    | none => exact ⟨index, hc ▸ List.mem_cons_self⟩
    | some text => cases hout

theorem redirectToLeader_status (writes : Coordinator) (r : HTTPRequest) :
    300 ≤ (redirectToLeader writes r).status := by
  unfold redirectToLeader
  cases writes.leaderHTTPAddr with
  | none => exact (by decide : 300 ≤ 503)
  | some address => exact (by decide : 300 ≤ 307)

/-- Success is only answered to a write that was confirmed. -/
theorem answerWrite_success {status : Nat} {r : HTTPRequest} {writes : Coordinator}
    {result : Except WriteError Unit} (h : (answerWrite status r writes result).status < 300) :
    result = .ok () := by
  cases result with
  | ok u => rfl
  | error err =>
    have hle : 300 ≤ (writeFailure writes r err).status := by
      unfold writeFailure
      split
      · exact redirectToLeader_status writes r
      split
      · exact (by decide : 300 ≤ 503)
      · exact (by decide : 300 ≤ 503)
    exact absurd h (Nat.not_lt.mpr hle)

theorem setHandler_finish {decode : Bytes → Except String SetRequest} {writes : Option Coordinator}
    {r : HTTPRequest} {command : Command}
    {finish : Coordinator → Except WriteError Unit → HTTPResponse}
    (h : setHandler decode maxLength writes r = .propose command finish) :
    finish = answerWrite 200 r := by
  unfold setHandler at h
  split at h
  · cases h
  split at h
  · cases h
  split at h
  · cases h
  split at h
  · cases h
  split at h
  · cases h
  · exact (Handling.propose.inj h).2.symm

theorem deleteHandler_finish {writes : Option Coordinator} {r : HTTPRequest} {command : Command}
    {finish : Coordinator → Except WriteError Unit → HTTPResponse}
    (h : deleteHandler writes r = .propose command finish) : finish = answerWrite 204 r := by
  unfold deleteHandler at h
  split at h
  · cases h
  split at h
  · cases h
  dsimp only at h
  split at h
  · cases h
  · exact (Handling.propose.inj h).2.symm

/-! ## Clusters that serve clients -/

theorem Admitted.text {decode : Bytes → Except String SetRequest} (hdecode : DecodesText decode)
    {command : Command} (h : Admitted decode maxLength command) (hkey : ValidUTF8 command.key)
    (index term : Nat) : (proposedEntry index term command).Text := by
  obtain ⟨writes, r, finish, h | h⟩ := h
  · obtain ⟨-, -, hk, hv, -⟩ := setHandler_propose hdecode h
    exact ⟨hk, hv⟩
  · obtain ⟨-, -, hval⟩ := deleteHandler_propose h
    refine ⟨hkey, ?_⟩
    change ValidUTF8 command.value
    rw [hval]
    exact (validUTF8_iff []).mpr (by decide)

namespace Cluster

/-- A run of key-value stores that are written through the handlers with text
keys, by nodes with 32-bit IDs, in which a crash may interrupt any store call but
none returns an error, and no snapshot is installed while a selected command waits
to be applied. -/
structure Serves (C : Cluster (MemoryStore maxLength)) (json : Json)
    (decode : Bytes → Except String SetRequest) (actions : List Action) : Prop where
  machine : C.machine = MemoryStore.machine json maxLength
  faithful : json.Faithful
  decodes : DecodesText decode
  ids : ∀ n ∈ C.members, n < 2147483648
  admitted : ProposesAdmitted decode maxLength actions
  keys : ∀ n command answers, Action.step n (.propose command) answers ∈ actions →
    ValidUTF8 command.key
  atomic : Permitted Atomic actions
  first : AppliesFirst C.runDeployed actions

variable {C : Cluster (MemoryStore maxLength)} {json : Json}
  {decode : Bytes → Except String SetRequest} {actions : List Action} {n : Int}

section Serves

variable (h : C.Serves json decode actions)

include h

theorem Serves.writesText : C.WritesText json actions where
  machine := h.machine
  faithful := h.faithful
  proposes n command answers hm _ :=
    (h.admitted n command answers hm).text h.decodes (h.keys n command answers hm)
  atomic := h.atomic

theorem Serves.run_eq (k : Nat) : C.runDeployed (actions.take k) = C.run (actions.take k) := by
  refine Run.foldl_congr (actions.take k) fun j a _ => ?_
  have hcarries : Carries C.textFreight (C.run ((actions.take k).take j)) :=
    carries_run ((h.writesText.proposes.numbered.take k).take j)
  exact performDeployed_eq h.ids (fromMembers _) hcarries a

theorem Serves.exists_oneLog : ∃ l, C.OneLog actions l := by
  have hfirst := h.first
  simp only [AppliesFirst, h.run_eq] at hfirst
  exact h.writesText.recoverable.exists_oneLog h.atomic hfirst

end Serves

/-- One list of writes explains what the clients of a run see. -/
structure Sequential (C : Cluster (MemoryStore maxLength))
    (decode : Bytes → Except String SetRequest) (actions : List Action) (l : List LogEntry) :
    Prop where
  /-- A read is answered with the last write among the entries that the node shows. -/
  read : ∀ {k n r d req key}, (C.runDeployed (actions.take k)).nodes n = .up r d →
    req.method = "GET" → URL.queryGet req.rawQuery [107, 101, 121] = key → key ≠ [] →
    r.shown ≤ l.length ∧ getHandler r.store.get req = readAnswer key (lastWrite key (l.take r.shown))
  /-- A node never goes back. -/
  mono : ∀ {j k n r d r' d'}, j ≤ k → (C.runDeployed (actions.take j)).nodes n = .up r d →
    (C.runDeployed (actions.take k)).nodes n = .up r' d' → r.shown ≤ r'.shown
  /-- A write that is answered with success is in the list, where its proposal put
  it, and its node shows it. It is the client's own write if it has the term of the
  proposal, as it does while the node leads in that term. -/
  write : ∀ {j k n r r' d' writes req command finish index channel c result writes'},
    (setHandler decode maxLength writes req = .propose command finish ∨
      deleteHandler writes req = .propose command finish) →
    C.Occurs C.runDeployed actions j n ⟨r, .propose command, .proposed index channel⟩ → j < k →
    Alive C.runDeployed actions n j k → (C.runDeployed (actions.take k)).nodes n = .up r' d' →
    r'.channels[channel]? = some c → ProposeReturns c result →
    (finish writes' result).status < 300 →
    index ≤ r'.shown ∧ 0 < index ∧ ∃ e, l[index - 1]? = some e ∧ e.index = index ∧
      (e = proposedEntry index r.currentTerm command ↔ e.term = r.currentTerm) ∧
      (r'.state = .leader → r'.currentTerm = r.currentTerm → e.term = r.currentTerm)

/-- A result that a waiter finds was sent when its entry had been applied. -/
theorem exists_completed {σ : Type} {C : Cluster σ} {j k : Nat} {r r' : Raft σ} {d' : Disk}
    {command : Command} {index channel : Nat} {c : Channel}
    (hprop : C.Occurs C.run actions j n ⟨r, .propose command, .proposed index channel⟩) (hjk : j < k)
    (halive : Alive C.run actions n j k) (hup : (C.run (actions.take k)).nodes n = .up r' d')
    (hc : r'.channels[channel]? = some c) (hok : ProposeReturns c (.ok ())) :
    ∃ t r₂ e, j ≤ t ∧ t < k ∧ C.Occurs C.run actions t n ⟨r₂, .applyCheckpoint, .completed channel e⟩ := by
  obtain ⟨i, hi⟩ := hok.received_of_ok
  obtain ⟨s, l, hlife⟩ := exists_lifeAt hup
  have hs := hlife.start_le halive
  obtain ⟨answers, d₀, r₀, v, d, steps, hstart, rfl⟩ := hlife.begun
  have hpledged := live_pledged hstart (hlife.process.trans hup)
  obtain ⟨r₂, e, hm, -⟩ := hpledged.received channel i ⟨c, hc, hi⟩
  obtain ⟨t, hst, htk, ho⟩ := hlife.occurs _ hm
  refine ⟨t, r₂, e, ?_, htk, ho⟩
  by_contra hlt
  -- before the proposal its channel did not exist
  obtain ⟨answers', d₁, r₁, d₂, -, hupj, -, hrun⟩ := hprop
  obtain ⟨s', l', hlife'⟩ := exists_lifeAt hupj
  have hs' : s' ≤ s := hlife'.start_le fun i hi hij => hlife.alive i hi (by omega)
  have hm' := hlife'.events t _ (hs'.trans hst) (by omega) ho
  obtain ⟨_, _, _, _, _, _, hstart', rfl⟩ := hlife'.begun
  have hpledged' := live_pledged hstart' (hlife'.process.trans hupj)
  obtain ⟨-, e', horig, -⟩ := hpledged'.acknowledged r₂ channel e hm'
  have hold := hpledged'.channels channel e' horig
  obtain ⟨-, -, -, -, hnew⟩ := effects_of_done (majority_ne_one hlife.mem) hpledged'.ahead hrun
  exact absurd hold (Nat.not_lt.mpr hnew.ge)

/-- A checkpoint that told a waiter leaves its entry applied. -/
theorem shown_after_completed {σ : Type} {C : Cluster σ} {t : Nat} {r₂ r' : Raft σ} {d' : Disk}
    {channel : Nat} {e : LogEntry}
    (ho : C.Occurs C.run actions t n ⟨r₂, .applyCheckpoint, .completed channel e⟩)
    (hup : (C.run (actions.take (t + 1))).nodes n = .up r' d') : e.index ≤ r'.shown := by
  obtain ⟨answers, d, r₃, d₃, hact, hupt, hav, hrun⟩ := ho
  obtain ⟨hn, hahead⟩ := up_ballot hupt
  obtain ⟨-, -, rfl, -⟩ := effects_of_done (majority_ne_one hn) hahead hrun
  have hnext : (C.run (actions.take (t + 1))).nodes n = .up (r₂.checkpointed e) d₃ := by
    rw [C.run_take_succ hact, perform_step hupt hn hav hrun]
    exact Function.update_self _ _ _
  obtain ⟨rfl, -⟩ := Process.up.inj (hup.symm.trans hnext)
  have hlast : (r₂.checkpointed e).lastApplied = e.index := by
    obtain ⟨_, _, -, -, heq⟩ := r₂.checkpointed_eq e
    rw [heq]
  rw [← hlast]
  exact Raft.lastApplied_le_shown _

/-- In every run of the deployed cluster that serves clients there is one list of
writes that explains all answers: see `Sequential`. -/
theorem service_is_sequential (h : C.Serves json decode actions) :
    ∃ l, C.Sequential decode actions l := by
  obtain ⟨l, hl⟩ := h.exists_oneLog
  obtain ⟨f, hf⟩ := h.writesText.exists_histories
  refine ⟨l, ?_, ?_, ?_⟩
  · intro k n r d req key hup hmethod hkey hne
    rw [h.run_eq] at hup
    have hstore := hl.store hup
    rw [h.machine] at hstore
    refine ⟨(hl.shown_le hup).trans (hl.committed hup).length_le, ?_⟩
    rw [getHandler_eq hmethod hkey hne, MemoryStore.get_replay hstore]
  · intro j k n r d r' d' hjk hup hup'
    rw [h.run_eq] at hup hup'
    exact hl.mono hjk hup hup'
  · intro j k n r r' d' writes req command finish index channel c result writes' hhandler hprop hjk
      halive hup hc hreturns hstatus
    simp only [Occurs, Alive, h.run_eq] at hprop halive hup
    obtain rfl : result = .ok () := by
      rcases hhandler with hset | hdelete
      · rw [setHandler_finish hset] at hstatus
        exact answerWrite_success hstatus
      · rw [deleteHandler_finish hdelete] at hstatus
        exact answerWrite_success hstatus
    obtain ⟨t, r₂, e, hjt, htk, hack⟩ := exists_completed hprop hjk halive hup hc hreturns
    have halive' : Alive C.run actions n j t := fun i hi hit => halive i hi (by omega)
    have hlasting := hf.lasting hprop hack hjt halive'
    obtain ⟨r₃, d₃, hup₃⟩ := hack.up
    have hshown : index ≤ r'.shown := by
      rw [← hlasting.index_eq]
      exact (shown_after_completed hack hup₃).trans (hl.mono htk hup₃ hup)
    have hlen := hl.shown_le hup
    have hcommit : index ≤ r'.commitIndex := by
      rw [List.length_take] at hlen
      omega
    have hentry := hlasting.lasts k n r' d' hup hcommit
    obtain ⟨hpos, -⟩ := hf.proposed hprop
    obtain ⟨i, rfl⟩ : ∃ i, index = i + 1 := ⟨index - 1, by omega⟩
    refine ⟨hshown, hpos, e, ?_, hlasting.index_eq, hlasting.own_iff, ?_⟩
    · obtain ⟨-, hrunning, -⟩ := (hf.sim k).up hup
      rw [hrunning.entryOf_succ] at hentry
      exact Consensus.getElem?_of_isPrefix (hl.committed hup)
        ((List.getElem?_take_of_lt (by omega)).trans hentry)
    · intro hlead hterm
      have hown := hf.leader_has_proposed hprop hjk hup hlead hterm
      rw [Option.some.inj (hentry.symm.trans hown)]
      rfl

theorem recoveredRun_serves : (localCluster 1).Serves .framed framedSetRequest recoveredRun := by
  have hcommand : ∀ n command answers, Action.step n (.propose command) answers ∈ recoveredRun →
      command = ⟨.set, [107], [118]⟩ := by
    intro n command answers h
    simp only [recoveredRun, storedRun, List.cons_append, List.nil_append, List.mem_cons,
      List.not_mem_nil, or_false, Action.step.injEq, Input.propose.injEq, reduceCtorEq, false_and,
      and_false, false_or] at h
    exact h.2.1
  refine ⟨rfl, Json.framed_faithful, framedSetRequest_text, by decide, ?_, ?_,
    recoveredRun_text.atomic, recoveredRun_appliesFirst⟩
  · intro n command answers h
    obtain rfl := hcommand n command answers h
    exact ⟨some ⟨true, none⟩, ⟨"POST", "/set", [], Json.frame [107] ++ Json.frame [118]⟩, _,
      .inl rfl⟩
  · intro n command answers h
    obtain rfl := hcommand n command answers h
    exact (validUTF8_iff [107]).mpr (by decide)

/-- The write of `recoveredRun` is answered with 200, and it is read after the crash. -/
theorem service_is_sequential_recoveredRun :
    ∃ (l : List LogEntry) (r r' : Raft (MemoryStore 8)) (d d' : Disk) (e : LogEntry),
      ((localCluster 1).runDeployed (recoveredRun.take 18)).nodes 1 = .up r d ∧
      r.channels[0]? = some ⟨[⟨2, none⟩], true⟩ ∧ l[1]? = some e ∧
      e = proposedEntry 2 1 ⟨.set, [107], [118]⟩ ∧
      ((localCluster 1).runDeployed (recoveredRun.take 22)).nodes 1 = .up r' d' ∧
      getHandler r'.store.get ⟨"GET", "/get", [107, 101, 121, 61, 107], []⟩ =
        readAnswer [107] (lastWrite [107] (l.take r'.shown)) ∧
      getHandler r'.store.get ⟨"GET", "/get", [107, 101, 121, 61, 107], []⟩ = .ok [118] := by
  obtain ⟨l, hl⟩ := service_is_sequential recoveredRun_serves
  have hprop : (localCluster 1).Occurs (localCluster 1).runDeployed recoveredRun 5 1
      ⟨_, .propose ⟨.set, [107], [118]⟩, .proposed 2 0⟩ := ⟨[], _, _, _, rfl, rfl, rfl, rfl⟩
  have halive : Alive (localCluster 1).runDeployed recoveredRun 1 5 18 := .of_all rfl
  have hhandler : setHandler framedSetRequest 8 (some ⟨true, none⟩)
      ⟨"POST", "/set", [], Json.frame [107] ++ Json.frame [118]⟩ =
        .propose ⟨.set, [107], [118]⟩ (answerWrite 200 _) := rfl
  have hreturns : ProposeReturns ⟨[⟨2, none⟩], true⟩ (.ok ()) := .received ⟨2, none⟩ [] rfl
  obtain ⟨-, -, e, he, -, hown, hlead⟩ := hl.write (.inl hhandler) hprop (by decide) halive rfl rfl
    hreturns (show (answerWrite 200 _ ⟨true, none⟩ (.ok ())).status < 300 by decide)
  have hread := (@Sequential.read _ _ _ _ _ hl 22 1 _ _
    ⟨"GET", "/get", [107, 101, 121, 61, 107], []⟩ _ rfl rfl rfl (by decide)).2
  exact ⟨l, _, _, _, _, e, rfl, rfl, he, hown.mpr (hlead rfl rfl), rfl, hread, rfl⟩

end Cluster

end DistributedKv
