import DistributedKv.Cluster.Reload
import DistributedKv.Server.Handlers

/-!
Writes that the HTTP handlers let through cannot stop the state machine. A
command of `setHandler` or `deleteHandler` passes `Command.Validate`, and the
store applies its entry in every state, as proposed and as reloaded from the
log; so in a cluster whose commands all come through the handlers neither the
apply loop nor a start-up ever fails in `Apply`, and every image that a store
serializes can be restored. This holds under all answers of the stores.
-/

namespace DistributedKv

open Crash

variable {maxLength : Int}

theorem LogEntry.Harmless.repaired {e : LogEntry} (h : e.Harmless maxLength) :
    e.repaired.Harmless maxLength := by
  obtain ⟨index, term, operation, key, value⟩ := e
  cases operation with
  | set =>
    obtain ⟨hkey, hk, hv, hlen⟩ := h
    rw [(LogEntry.repaired_eq_self_iff _).mpr ⟨hk, hv⟩]
    exact ⟨hkey, hk, hv, hlen⟩
  | _ => exact h

/-! ## Admitted commands -/

/-- What is assumed of `encoding/json` on a request body: decoded strings are text. -/
def DecodesText (decode : Bytes → Except String SetRequest) : Prop :=
  ∀ body req, decode body = .ok req → ValidUTF8 req.key ∧ ValidUTF8 req.value

/-- One of the handlers reaches its proposal with this command. -/
def Admitted (decode : Bytes → Except String SetRequest) (maxLength : Int) (command : Command) :
    Prop :=
  ∃ writes r finish, setHandler decode maxLength writes r = .propose command finish ∨
    deleteHandler writes r = .propose command finish

theorem setHandler_propose {decode : Bytes → Except String SetRequest} (hdecode : DecodesText decode)
    {writes : Option Coordinator} {r : HTTPRequest} {command : Command}
    {finish : Coordinator → Except WriteError Unit → HTTPResponse}
    (h : setHandler decode maxLength writes r = .propose command finish) :
    command.operation = .set ∧ command.key ≠ [] ∧ ValidUTF8 command.key ∧
      ValidUTF8 command.value ∧ (command.value.length : Int) ≤ maxLength := by
  unfold setHandler at h
  split at h
  · cases h
  split at h
  · cases h
  split at h
  · cases h
  rename_i req hreq
  split at h
  · cases h
  rename_i hkey
  split at h
  · cases h
  rename_i hval
  obtain ⟨rfl, -⟩ := Handling.propose.inj h
  obtain ⟨hk, hv⟩ := hdecode _ _ hreq
  exact ⟨rfl, hkey, hk, hv, Int.not_lt.mp hval⟩

theorem deleteHandler_propose {writes : Option Coordinator} {r : HTTPRequest} {command : Command}
    {finish : Coordinator → Except WriteError Unit → HTTPResponse}
    (h : deleteHandler writes r = .propose command finish) :
    command.operation = .delete ∧ command.key ≠ [] ∧ command.value = [] := by
  unfold deleteHandler at h
  split at h
  · cases h
  split at h
  · cases h
  dsimp only at h
  split at h
  · cases h
  rename_i hkey
  obtain ⟨rfl, -⟩ := Handling.propose.inj h
  exact ⟨rfl, hkey, rfl⟩

section Admitted

variable {decode : Bytes → Except String SetRequest} (hdecode : DecodesText decode)

include hdecode

theorem Admitted.takes {command : Command} (h : Admitted decode maxLength command) :
    command.operation ≠ .noop ∧ command.operation.Takes command.key command.value := by
  obtain ⟨writes, r, finish, h | h⟩ := h
  · obtain ⟨hop, hkey, -⟩ := setHandler_propose hdecode h
    rw [hop]
    exact ⟨by simp, hkey⟩
  · obtain ⟨hop, hkey, hval⟩ := deleteHandler_propose h
    rw [hop]
    exact ⟨by simp, hkey, hval⟩

theorem Admitted.validate {command : Command} (h : Admitted decode maxLength command) :
    command.validate = .ok () := by
  obtain ⟨hop, htakes⟩ := h.takes hdecode
  rw [Command.validate, if_neg hop]
  exact (LogEntry.valid_iff _).mpr ⟨Nat.one_pos, htakes⟩

theorem Admitted.valid {command : Command} (h : Admitted decode maxLength command) {index : Nat}
    (hi : 0 < index) (term : Nat) : (proposedEntry index term command).Valid :=
  (LogEntry.valid_iff _).mpr ⟨hi, (h.takes hdecode).2⟩

theorem Admitted.harmless {command : Command} (h : Admitted decode maxLength command)
    (index term : Nat) : (proposedEntry index term command).Harmless maxLength := by
  unfold LogEntry.Harmless proposedEntry
  obtain ⟨writes, r, finish, h | h⟩ := h
  · obtain ⟨hop, hrest⟩ := setHandler_propose hdecode h
    rw [hop]
    exact hrest
  · rw [(deleteHandler_propose h).1]
    trivial

end Admitted

/-! ## What the cluster carries -/

namespace Cluster

section Carries

variable {C : Cluster (MemoryStore maxLength)} {json : Json} (hjson : json.Faithful)
  (hC : C.machine = MemoryStore.machine json maxLength)

/-- Harmless entries, stores of text, and images of such stores. -/
def harmlessFreight : C.machine.Freight :=
  MemoryStore.freight hjson hC (LogEntry.Harmless maxLength) (fun _ _ => trivial)
    MemoryStore.Textual.apply_harmless

theorem harmless_total (n : Int) : (freight (harmlessFreight hjson hC) n).Total := by
  intro f e s hf he hs
  obtain rfl := Option.some.inj hf
  obtain ⟨s', hs', -⟩ := MemoryStore.apply_ok he (MemoryStore.Textual.data_ne hs)
  refine ⟨s', ?_⟩
  rw [hC]
  exact hs'

/-- Every command that an action proposes was admitted. -/
def ProposesAdmitted (decode : Bytes → Except String SetRequest) (maxLength : Int)
    (actions : List Action) : Prop :=
  ∀ n command answers, Action.step n (.propose command) answers ∈ actions →
    Admitted decode maxLength command

theorem ProposesAdmitted.harmless {decode : Bytes → Except String SetRequest}
    (hdecode : DecodesText decode) {actions : List Action}
    (h : ProposesAdmitted decode maxLength actions) :
    Proposes (LogEntry.Harmless maxLength) actions :=
  fun n command answers hm _ => (h n command answers hm).harmless hdecode

end Carries

/-! ## No admitted write stops the state machine -/

/-- For every request on which a handler reaches its proposal: the command is
valid, and in every state of a store with that limit, except the nil map, its
entry is applied, both as proposed and as the log codec gives it back, where it
is valid too. In every run whose commands all come from the handlers: no store
holds the nil map; the entry that an apply loop has selected is applied; what
the store serializes is restored to the same store; and no start-up whose store
calls do not fail returns the error of a failed `Apply`. -/
theorem admitted_writes_safe {json : Json} (hjson : json.Faithful) {codec : EntryJson}
    (hcodec : codec.Repairs) {decode : Bytes → Except String SetRequest}
    (hdecode : DecodesText decode) (maxLength : Int) :
    (∀ {writes r command finish}, setHandler decode maxLength writes r = .propose command finish ∨
        deleteHandler writes r = .propose command finish →
      command.validate = .ok () ∧
      ∀ {index : Nat} (term : Nat), 0 < index → ∃ e,
        codec.unmarshal (codec.marshal (proposedEntry index term command)) = .ok e ∧ e.Valid ∧
        ∀ s : MemoryStore maxLength, s.data ≠ none →
          (∃ s', MemoryStore.apply (proposedEntry index term command) s = .ok s') ∧
          ∃ s', MemoryStore.apply e s = .ok s') ∧
    (∀ {C : Cluster (MemoryStore maxLength)} {actions : List Action},
      C.machine = MemoryStore.machine json maxLength →
      ProposesAdmitted decode maxLength actions → ∀ n,
      (∀ {r d}, (C.runReloading actions).nodes n = .up r d →
        r.store.data ≠ none ∧
        (∀ e, r.apply = .selected e → ∃ s', MemoryStore.apply e r.store = .ok s') ∧
        ∀ data, r.store.snapshot json = .ok data →
          MemoryStore.restore json maxLength data = .ok r.store) ∧
      (∀ {d answers out s d'}, (C.runReloading actions).nodes n = .down d →
        (∀ err, Outcome.fail err ∉ answers ∧ Outcome.failWritten err ∉ answers) →
        start (C.env n) answers d.reloaded = .done out s d' → ¬ Payload.FailedInApply out)) := by
  constructor
  · intro writes r command finish h
    have hadmitted : Admitted decode maxLength command := ⟨writes, r, finish, h⟩
    refine ⟨hadmitted.validate hdecode, fun {index} term hi => ?_⟩
    have hvalid := hadmitted.valid hdecode hi term
    have hharm := hadmitted.harmless hdecode index term
    refine ⟨_, hcodec _ hvalid, hvalid.repaired, fun s hs => ⟨?_, ?_⟩⟩
    · obtain ⟨s', hs', -⟩ := MemoryStore.apply_ok hharm hs
      exact ⟨s', hs'⟩
    · obtain ⟨s', hs', -⟩ := MemoryStore.apply_ok hharm.repaired hs
      exact ⟨s', hs'⟩
  · intro C actions hC hactions n
    have hrep : ∀ e, (harmlessFreight hjson hC).Entry e → (harmlessFreight hjson hC).Entry e.repaired :=
      fun e he => LogEntry.Harmless.repaired he
    have hw : Carries (harmlessFreight hjson hC) (C.runReloading actions) :=
      carries_runReloading hrep (hactions.harmless hdecode)
    refine ⟨fun {r d} hup => ?_, fun {d answers out s d'} hdown hans hstart => ?_⟩
    · obtain ⟨hmemory, -⟩ := hw.up hup
      have htext : r.store.Textual := hmemory.store
      refine ⟨htext.data_ne, fun e he => ?_, fun data hdata => ?_⟩
      · have hharm : e.Harmless maxLength := hmemory.phase e (by rw [he]; rfl)
        obtain ⟨s', hs', -⟩ := MemoryStore.apply_ok hharm htext.data_ne
        exact ⟨s', hs'⟩
      · rw [← Except.ok.inj hdata]
        exact htext.restore hjson
    · have hkeeps : Prog.Keeps (· ∈ answers) _ _ _ (newWithSnapshot (C.env n)) :=
        Payload.newWithSnapshot_keeps (P := freight (harmlessFreight hjson hC) n)
      have hrun := hkeeps.run (o := answers) (fun _ ho => ho) (freight (harmlessFreight hjson hC) n).initial
        (files_reloaded hrep (hw.down hdown))
      rw [show (newWithSnapshot (C.env n)).run answers (C.env n).initial d.reloaded = _ from hstart]
        at hrun
      exact hrun.1.applies (harmless_total hjson hC n) hans

/-- A decoder with the assumed property: two framed strings, made text. -/
def framedSetRequest (body : Bytes) : Except String SetRequest :=
  match Json.unframe [] body with
  | [key, value] => .ok ⟨Utf8.repair key, Utf8.repair value⟩
  | _ => .error "invalid body"

theorem framedSetRequest_text : DecodesText framedSetRequest := by
  intro body req h
  unfold framedSetRequest at h
  split at h
  · obtain rfl := Except.ok.inj h
    exact ⟨validUTF8_repair _, validUTF8_repair _⟩
  · cases h

/-- Node 1 leads, takes a SET and a DELETE of a key that is not text, commits
both with node 2, applies its no-op and selects the SET. -/
def writeRun : List Action :=
  let entries := [noopEntry 1 1, ⟨2, 1, .set, [107], [118]⟩, ⟨3, 1, .delete, [0xFF], []⟩]
  let first : AppendEntriesRequest := ⟨1, 1, 1, 1, entries.drop 1, 0⟩
  let second : AppendEntriesRequest := ⟨1, 1, 0, 0, entries, 0⟩
  [.restart 1 [], .restart 2 [], .step 1 .electionTimeout [],
    .step 2 (.voteRequest ⟨1, 1, 0, 0⟩) [], .step 1 (.voteResponse 2 1 ⟨1, true⟩) [],
    .step 1 (.propose ⟨.set, [107], [118]⟩) [], .step 1 (.propose ⟨.delete, [0xFF], []⟩) [],
    .step 1 (.sendAppend 2) [], .step 2 (.appendRequest first) [],
    .step 1 (.appendResponse 2 first ⟨1, false⟩) [],
    .step 1 (.sendAppend 2) [], .step 2 (.appendRequest second) [],
    .step 1 (.appendResponse 2 second ⟨1, true⟩) [],
    .step 1 .applySelect [], .step 1 .applyEntry [], .step 1 .applyCheckpoint [],
    .step 1 .applySelect []]

theorem writeRun_admitted : ProposesAdmitted framedSetRequest 8 writeRun := by
  intro n command answers h
  have hcommand : command = ⟨.set, [107], [118]⟩ ∨ command = ⟨.delete, [0xFF], []⟩ := by
    simp only [writeRun, List.mem_cons, List.not_mem_nil, or_false, Action.step.injEq,
      Input.propose.injEq, reduceCtorEq, false_and, and_false, false_or] at h
    exact h.imp (·.2.1) (·.2.1)
  rcases hcommand with rfl | rfl
  · exact ⟨some ⟨true, none⟩, ⟨"POST", "/set", [], Json.frame [107] ++ Json.frame [118]⟩, _,
      .inl rfl⟩
  · exact ⟨some ⟨true, none⟩, ⟨"DELETE", "/delete", [107, 101, 121, 61, 37, 70, 70], []⟩, _,
      .inr rfl⟩

/-- The selected SET is applied, and after a crash the start-up replays all three
entries, the DELETE with its key made text. -/
theorem admitted_writes_safe_writeRun :
    (∃ r d s', ((localCluster 1).runReloading writeRun).nodes 1 = .up r d ∧
      r.apply = .selected ⟨2, 1, .set, [107], [118]⟩ ∧
      MemoryStore.apply ⟨2, 1, .set, [107], [118]⟩ r.store = .ok s') ∧
    ∃ d r s d', ((localCluster 1).runReloading (writeRun ++ [.crash 1])).nodes 1 = .down d ∧
      start ((localCluster 1).env 1) [] d.reloaded = .done (.ok r) s d' ∧ r.lastApplied = 3 ∧
      ¬ Payload.FailedInApply (.ok r : Except String (Raft (MemoryStore 8))) := by
  obtain ⟨-, hrun⟩ := admitted_writes_safe Json.framed_faithful EntryJson.framed_repairs
    framedSetRequest_text 8
  have hcrash : ProposesAdmitted framedSetRequest 8 (writeRun ++ [.crash 1]) := by
    intro n command answers h
    exact writeRun_admitted n command answers (by simpa using h)
  obtain ⟨hup, -⟩ := @hrun (localCluster 1) _ rfl writeRun_admitted 1
  obtain ⟨-, hdown⟩ := @hrun (localCluster 1) _ rfl hcrash 1
  obtain ⟨-, happly, -⟩ := hup rfl
  obtain ⟨s', hs'⟩ := happly _ rfl
  have hempty := hdown rfl (fun _ => ⟨List.not_mem_nil, List.not_mem_nil⟩) rfl
  exact ⟨⟨_, _, s', rfl, rfl, hs'⟩, _, _, _, _, rfl, rfl, rfl, hempty⟩

end Cluster

end DistributedKv
