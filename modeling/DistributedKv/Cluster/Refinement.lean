import DistributedKv.Cluster.Freight
import DistributedKv.Cluster.Simulation

/-!
Every action of the cluster refines moves of the history: `performSim` for one
action and `exists_histories` for a whole run, which gives a history for the
world after each action.
-/

namespace DistributedKv

open Crash
open Consensus (Committed Extends Grown Inv Link Moves)

namespace Cluster

variable {σ : Type} {C : Cluster σ} {a a' : History} {n : Int} {p : Peer}

/-! ## What is sent is true -/

section Emits

/-- An installed or known snapshot is part of the log once it is committed. -/
theorem InstallSim.isPrefix_of_commit {req : InstallSnapshotRequest} (hreq : C.InstallSim a req)
    (hi : Inv C.protocol a) (h : PeerSim a n p) (hc : req.lastIncludedIndex ≤ p.commit) :
    req.covers <+: p.history := by
  have hle := h.commit_le hi
  rcases hi.committed_comparable hreq.committed (h.committed hi) with hp | hp
  · exact hp.trans (List.take_prefix _ _)
  · have hlen := hp.length_le
    rw [List.length_take, Nat.min_eq_left hle, hreq.length] at hlen
    have heq := hp.eq_of_length (by rw [List.length_take, Nat.min_eq_left hle, hreq.length]; omega)
    rw [← heq]
    exact List.take_prefix _ _

/-- The requests of a leader are cut out of its whole log. -/
theorem appendSim_of_emits (hi : Inv C.protocol a) (h : PeerSim a n p)
    {Encodes : List LogEntry → Bytes → Prop} {dst peer : Int} {req : AppendEntriesRequest}
    (hem : p.Emits (C.env n) Encodes (.sendAppend dst) (.appendRequest peer req)) :
    C.AppendSim a req p.history := by
  obtain ⟨hl, ht, -, hle, hterm, hent, hcommit⟩ := hem
  refine ⟨?_, ?_, hent.symm, hterm, ?_, ?_⟩
  · rw [ht, (h.own_log hi hl).1]
  · rw [hent, List.length_drop]
    omega
  · rw [hcommit]
    exact h.commit_le hi
  · rw [hcommit, ht]
    exact h.committed hi

/-- A snapshot that a leader sends stands for a committed part of its log. -/
theorem installSim_of_emits (hi : Inv C.protocol a) (h : PeerSim a n p)
    (hidx : Indexed 0 p.history) (hval : ∀ e ∈ p.history, e.Valid) {dst peer : Int}
    {req : InstallSnapshotRequest}
    (hem : p.Emits (C.env n) (C.imaging n).Encodes (.sendInstall dst) (.installRequest peer req)) :
    C.InstallSim a req := by
  obtain ⟨hl, ht, hid, hle, hcov, hterm, henc⟩ := hem
  have hlen := hle.trans (h.commit_le hi)
  refine ⟨?_, ?_, hterm, ?_, ?_, henc, ?_⟩
  · rw [hcov, ht, (h.own_log hi hl).1]
    exact List.take_prefix _ _
  · rw [hcov, List.length_take, Nat.min_eq_left hlen]
  · rw [hcov]; exact hidx.take _
  · rw [hcov]; exact fun e he => hval e (List.mem_of_mem_take he)
  · rw [hcov, ht]
    exact (h.committed hi).of_isPrefix (List.take_prefix_take_left hle)

/-- A candidate asks with the log it stood with. -/
theorem voteRequestSim_of_emits (h : PeerSim a n p) (hn : n ∈ C.members)
    {Encodes : List LogEntry → Bytes → Prop} {req : RequestVoteRequest}
    (hem : p.Emits (C.env n) Encodes .electionTimeout (.voteRequest req)) {m : Message}
    (hm : m ∈ C.sends n .electionTimeout (.voteRequest req)) : C.MessageSim a m := by
  obtain ⟨hc, rfl⟩ := hem
  simp only [sends, List.mem_map] at hm
  obtain ⟨peer, hpeer, rfl⟩ := hm
  have hid := env_id hn
  refine ⟨?_, ?_, p.history, ?_, rfl, rfl⟩
  · rw [hid]; exact hn
  · rw [hid]; exact ((mem_peers hn).mp hpeer).2
  · rw [hid]; exact (h.candidate hc).1

/-- A vote that is granted was recorded. -/
theorem voteSim_of_emits (h : PeerSim a n p) {Encodes : List LogEntry → Bytes → Prop}
    {req : RequestVoteRequest} (hmem : req.candidateID ∈ C.members) {resp : RequestVoteResponse}
    (hem : p.Emits (C.env n) Encodes (.voteRequest req) (.voteResponse resp))
    (hg : resp.voteGranted = true) : a.vote n req.term = some req.candidateID := by
  obtain ⟨ht, hrt, hv⟩ := hem hg
  have hvote := h.vote
  rw [ht, hv, if_neg] at hvote
  · exact hvote
  · have := nonneg hmem
    unfold noVote
    omega

/-- An acknowledgement changes nothing that a peer records. -/
theorem PeerSim.acknowledge {a₀ : History} (hm : Moves C.protocol n a₀ a) (h : PeerSim a n p)
    {q : List LogEntry} (hl : q <+: p.history) (hq : q <+: a.tlog p.term) :
    Link C.protocol n a₀ (a.acknowledge n q.length) ∧ PeerSim (a.acknowledge n q.length) n p ∧
      q.length ≤ (a.acknowledge n q.length).ack n p.term := by
  refine ⟨hm.acknowledge (by rw [h.log]; exact hl) (by rw [h.term]; exact hq), ?_, ?_⟩
  · exact { h with
      matched := fun hlead q' m hq' => (h.matched hlead q' m hq').trans
        ((Consensus.extends_acknowledge _).ack _ _) }
  · simp [Consensus.State.acknowledge, Consensus.update₂_apply, h.term]

/-- What a node sends, with the acknowledgement that its answer stands for. -/
theorem emitSim {i : Input} {out : Output} {a₀ : History} (hm : Moves C.protocol n a₀ a)
    (h : PeerSim a n p) (hn : n ∈ C.members) (hin : C.InputSim a n i)
    (hidx : Indexed 0 p.history) (hval : ∀ e ∈ p.history, e.Valid)
    (hem : p.Emits (C.env n) (C.imaging n).Encodes i out) :
    ∃ a', Link C.protocol n a₀ a' ∧ PeerSim a' n p ∧ ∀ m ∈ C.sends n i out, C.MessageSim a' m := by
  have hi := hm.inv
  have hquiet : (∀ m ∈ C.sends n i out, C.MessageSim a m) →
      ∃ a', Link C.protocol n a₀ a' ∧ PeerSim a' n p ∧
        ∀ m ∈ C.sends n i out, C.MessageSim a' m := fun hs => ⟨a, hm.link, h, hs⟩
  cases out with
  | none => exact hquiet (by cases i <;> simp [sends])
  | proposed index channel => exact hquiet (by cases i <;> simp [sends])
  | completed channel entry => exact hquiet (by cases i <;> simp [sends])
  | voteRequest req =>
    cases i <;> try exact hem.elim
    exact hquiet fun m hm => voteRequestSim_of_emits h hn hem hm
  | voteResponse resp =>
    cases i <;> try exact hem.elim
    rename_i req
    refine hquiet fun m hm => ?_
    rw [sends, List.mem_singleton] at hm
    subst hm
    obtain ⟨hmem, hne, _⟩ := hin _ rfl
    refine ⟨hn, hne, fun hg => ?_⟩
    obtain ⟨-, hrt, -⟩ := hem hg
    rw [hrt]
    exact voteSim_of_emits h hmem hem hg
  | appendRequest peer req =>
    cases i <;> try exact hem.elim
    refine hquiet fun m hm => ?_
    rw [sends, List.mem_singleton] at hm
    subst hm
    exact ⟨p.history, appendSim_of_emits hi h hem⟩
  | appendResponse resp =>
    cases i <;> try exact hem.elim
    rename_i req
    obtain ⟨q, hq⟩ := hin _ rfl
    by_cases hs : resp.success = true
    · obtain ⟨ht, -, ha⟩ := hem hs
      have hpre := hq.isPrefix_of_agrees hi (h.log ▸ hi.log_grown n) ha
      obtain ⟨hlink, hsim, hack⟩ := h.acknowledge hm hpre (ht ▸ hq.isPrefix)
      refine ⟨_, hlink, hsim, fun m hm => ?_⟩
      rw [sends, List.mem_singleton] at hm
      subst hm
      intro _
      rw [← hq.length, ← ht]
      exact hack
    · refine hquiet fun m hm => ?_
      rw [sends, List.mem_singleton] at hm
      subst hm
      exact fun hs' => absurd hs' hs
  | installRequest peer req =>
    cases i <;> try exact hem.elim
    refine hquiet fun m hm => ?_
    rw [sends, List.mem_singleton] at hm
    subst hm
    exact installSim_of_emits hi h hidx hval hem
  | installResponse resp =>
    cases i <;> try exact hem.elim
    rename_i req
    have hreq : C.InstallSim a req := hin _ rfl
    by_cases hr : resp.term = req.term
    · obtain ⟨ht, hle⟩ := hem hr
      obtain ⟨hlink, hsim, hack⟩ :=
        h.acknowledge hm (hreq.isPrefix_of_commit hi h hle) (ht ▸ hreq.isPrefix)
      refine ⟨_, hlink, hsim, fun m hm => ?_⟩
      rw [sends, List.mem_singleton] at hm
      subst hm
      intro _
      rw [← hreq.length, ← ht]
      exact hack
    · refine hquiet fun m hm => ?_
      rw [sends, List.mem_singleton] at hm
      subst hm
      exact fun hr' => absurd hr' hr

/-- A snapshot in flight never contradicts what a peer has committed. -/
theorem InstallSim.installOk {req : InstallSnapshotRequest} (hreq : C.InstallSim a req)
    (hdata : ∃ st, C.machine.snapshotter.restore req.data = .ok st) (hi : Inv C.protocol a)
    (h : PeerSim a n p) :
    InstallOk (C.imaging n) p.history p.commit req where
  length := hreq.length
  term := hreq.term
  indexed := hreq.indexed
  valid := hreq.valid
  encodes := hreq.data
  restores hsn := by
    obtain rfl := Option.some.inj hsn
    obtain ⟨st, hst⟩ := hdata
    exact ⟨st, hst, trivial⟩
  agrees := by
    rcases hi.committed_comparable hreq.committed (h.committed hi) with hp | hp
    · exact ((List.take_prefix _ _).trans hp).trans (List.take_prefix _ _)
    · have hlen := hp.length_le
      have heq := List.prefix_iff_eq_take.mp hp
      rw [List.length_take, Nat.min_eq_left (h.commit_le hi)] at heq
      rw [← heq]
      exact List.take_prefix _ _

end Emits

/-! ## Worlds -/

/-- A process against the history: its own invariant, and what its peer is. -/
def ProcessSim (C : Cluster σ) (a : History) (n : Int) : Process σ → Prop
  | .up r d => n ∈ C.members ∧ Running (C.imaging n) False r d ∧ PeerSim a n r.peer
  | .down d => DiskOk (C.imaging n) d ∧ PeerSim a n d.peer

structure Sim (C : Cluster σ) (w : World σ) (a : History) : Prop where
  inv : Inv C.protocol a
  node : ∀ n, C.ProcessSim a n (w.nodes n)
  net : ∀ m ∈ w.net, C.MessageSim a m

/-- What one action does to the history: nothing is taken back, and a prefix is
acknowledged only by the leader of its term or by a node in that term. -/
structure Follows (a a' : History) : Prop where
  extends_ : Extends a a'
  ack : ∀ v t, a.ack v t < a'.ack v t → a'.lead t = some v ∨ a'.term v = t

theorem Follows.refl (a : History) : Follows a a :=
  ⟨.refl a, fun _ _ h => absurd h (Nat.lt_irrefl _)⟩

theorem ProcessSim.frame {m : Int} {proc : Process σ} (h : C.ProcessSim a m proc) (hne : m ≠ n)
    (hl : Link C.protocol n a a') : C.ProcessSim a' m proc := by
  cases proc with
  | up r d => exact ⟨h.1, h.2.1, h.2.2.frame hne hl.frame hl.extends_⟩
  | down d => exact ⟨h.1, h.2.frame hne hl.frame hl.extends_⟩

variable {w : World σ}

theorem Sim.up (h : C.Sim w a) {r : Raft σ} {d : Disk} (hup : w.nodes n = .up r d) :
    n ∈ C.members ∧ Running (C.imaging n) False r d ∧ PeerSim a n r.peer := by
  have := h.node n
  rwa [hup] at this

theorem Sim.input (h : C.Sim w a) {i : Input} (hav : i.available w.net n = true) :
    C.InputSim a n i := by
  intro m hm
  cases i <;> simp only [delivered, Option.some.injEq, reduceCtorEq] at hm <;>
    · subst hm
      exact h.net _ (by simpa [Input.available] using hav)

/-- One node moves and sends messages. -/
theorem Sim.move (h : C.Sim w a) (hl : Link C.protocol n a a') {proc : Process σ}
    (hp : C.ProcessSim a' n proc) {sent : List Message}
    (hs : ∀ m ∈ sent, C.MessageSim a' m) :
    C.Sim ⟨Function.update w.nodes n proc, sent ++ w.net⟩ a' where
  inv := hl.inv
  node m := by
    rcases eq_or_ne m n with rfl | hne
    · simpa only [Function.update_self] using hp
    · simpa only [Function.update_of_ne hne] using (h.node m).frame hne hl
  net m hm := by
    rcases List.mem_append.mp hm with hm | hm
    · exact hs m hm
    · exact (h.net m hm).mono hl.extends_

/-- One node moves and sends nothing. -/
theorem Sim.settle (h : C.Sim w a) (hl : Link C.protocol n a a') {proc : Process σ}
    (hp : C.ProcessSim a' n proc) :
    C.Sim { w with nodes := Function.update w.nodes n proc } a' :=
  h.move hl hp (by simp : ∀ m ∈ ([] : List Message), C.MessageSim a' m)

theorem Sim.initial : C.Sim .initial Consensus.State.initial where
  inv := .initial
  node n := by
    refine ⟨DiskOk.empty, ?_⟩
    exact
      { term := rfl
        vote := rfl
        log := rfl
        commit := rfl
        candidate := fun hc => by cases hc
        leader := fun hl => by cases hl
        election := fun e he => by cases he
        matched := fun hl => by cases hl }
  net m hm := by cases hm

/-! ## Actions -/

theorem Sim.crash (h : C.Sim w a) {r : Raft σ} {d : Disk} (hup : w.nodes n = .up r d) :
    C.Sim { w with nodes := Function.update w.nodes n (.down d) } a := by
  obtain ⟨-, hrun, hpeer⟩ := h.up hup
  refine h.settle (Moves.refl h.inv).link ⟨hrun.diskOk, ?_⟩
  rw [hrun.disk_peer]
  exact hpeer.volatile rfl rfl rfl rfl (.inl rfl) (fun _ he => by cases he) fun hl => by cases hl

section Step

variable {F : C.machine.Freight} (hrest : F.Restores) (hw : Carries F w) (h : C.Sim w a)
  {r r' : Raft σ} {d d' : Disk} (hup : w.nodes n = .up r d) {i : Input}
  (hav : i.available w.net n = true)

include hrest hw h hup hav

/-- What is delivered to a node is in order. -/
theorem Sim.inputOk : InputOk (C.imaging n) False r i := by
  obtain ⟨-, -, hpeer⟩ := h.up hup
  have hin := h.input hav
  cases i with
  | installRequest req =>
    have hdata := hrest (hw.install n req (by simpa [Input.available] using hav))
    exact fun _ => ⟨(hin _ rfl : C.InstallSim a req).installOk hdata h.inv hpeer, fun hf => hf.elim⟩
  | _ => trivial

variable {answers : List Outcome} (hans : ∀ o ∈ answers, Atomic o)

include hans

/-- A step of a node at which the process dies. -/
theorem Sim.died (hrun : (react (C.env n) i).run answers r d = .crashed d') :
    ∃ a', Follows a a' ∧ C.Sim { w with nodes := Function.update w.nodes n (.down d') } a' := by
  obtain ⟨hn, hrunning, hpeer⟩ := h.up hup
  have hin := h.input hav
  obtain ⟨hdisk, hsteps⟩ :=
    react_crashed (cfg_ok hn) hrunning (h.inputOk hrest hw hup hav) hans hrun
  obtain ⟨a', hm, hp⟩ := stepsSim h.inv hpeer hn hin hsteps
  have hl := hm.link
  have hproc : C.ProcessSim a' n (.down d') := ⟨hdisk, hp⟩
  exact ⟨a', ⟨hl.extends_, hl.ack⟩, h.settle hl hproc⟩

/-- A step of a node that stays up. -/
theorem Sim.step {out : Output} (hrun : (react (C.env n) i).run answers r d = .done out r' d') :
    ∃ a', Follows a a' ∧
      C.Sim ⟨Function.update w.nodes n (.up r' d'), C.sends n i out ++ w.net⟩ a' := by
  obtain ⟨hn, hrunning, hpeer⟩ := h.up hup
  have hin := h.input hav
  obtain ⟨⟨hrun', hsteps⟩, hemits⟩ :=
    react_done (cfg_ok hn) hrunning (h.inputOk hrest hw hup hav) hans hrun
  obtain ⟨a₁, hm, hp⟩ := stepsSim h.inv hpeer hn hin hsteps
  obtain ⟨a', hl, hp', hsent⟩ := emitSim hm hp hn (hin.mono hm.extends_) hrun'.indexed
    hrun'.valid hemits
  have hproc : C.ProcessSim a' n (.up r' d') := ⟨hn, hrun', hp'⟩
  exact ⟨a', ⟨hl.extends_, hl.ack⟩, h.move hl hproc hsent⟩

end Step

/-- Whatever a start-up leaves behind stands for the same history. -/
theorem Sim.boot {F : C.machine.Freight} (hrest : F.Restores) (hw : Carries F w) (h : C.Sim w a)
    (hn : n ∈ C.members) {d : Disk} (hdown : w.nodes n = .down d) {answers : List Outcome}
    {exit : Exit σ Disk (Except String (Raft σ))} (hstart : start (C.env n) answers d = exit)
    (hans : ∀ o ∈ answers, Atomic o) :
    match exit with
    | .done (.ok r) _ d' => C.ProcessSim a n (.up r d')
    | .done (.error _) _ d' => C.ProcessSim a n (.down d')
    | .crashed d' => C.ProcessSim a n (.down d') := by
  have hp := h.node n
  rw [hdown] at hp
  have hsnap : Restorable (C.imaging n) d := by
    intro s sn hs hsn
    obtain rfl := Option.some.inj hsn
    obtain ⟨st, hst⟩ := hrest ((hw.down hdown).snapshot s hs)
    exact ⟨st, hst, trivial⟩
  have hspec := newWithSnapshot_spec False (cfg_ok hn) ⟨_, rfl⟩ hp.1 hsnap
  have hrun := Prog.wp_run _ _ answers _ d hans hspec
  rw [show (newWithSnapshot (C.env n)).run answers (C.env n).initial d = exit from hstart] at hrun
  rcases exit with ⟨err | r, st, d'⟩ | d'
  · exact ⟨hrun.1.1, hrun.1.2 ▸ hp.2⟩
  · exact ⟨hn, hrun.1, hrun.2.1 ▸ hp.2⟩
  · exact ⟨hrun.1, hrun.2 ▸ hp.2⟩

theorem performSim {F : C.machine.Freight} (hrest : F.Restores) (hw : Carries F w) (h : C.Sim w a)
    {act : Action} (hans : ∀ o ∈ act.answers, Atomic o) :
    ∃ a', Follows a a' ∧ C.Sim (C.perform w act) a' := by
  have hlink {n : Int} : Link C.protocol n a a := (Moves.refl h.inv).link
  have hmoved := C.moved w act
  generalize C.perform w act = w' at hmoved ⊢
  cases hmoved with
  | idle => exact ⟨a, .refl a, h⟩
  | crash hup => exact ⟨a, .refl a, h.crash hup⟩
  | died hup hn hav hrun => exact h.died hrest hw hup hav hans hrun
  | step hup hn hav hrun => exact h.step hrest hw hup hav hans hrun
  | failed hdown hn hstart =>
    rcases hstart with hstart | ⟨err, v, hstart⟩
    · exact ⟨a, .refl a, h.settle hlink (h.boot hrest hw hn hdown hstart hans)⟩
    · exact ⟨a, .refl a, h.settle hlink (h.boot hrest hw hn hdown hstart hans)⟩
  | started hdown hn hstart =>
    exact ⟨a, .refl a, h.settle hlink (h.boot hrest hw hn hdown hstart hans)⟩

/-! ## Runs -/

/-- A run in which a crash may interrupt any store call but none returns an error,
and whose clients propose entries of a freight with images that can be restored. -/
structure Restoring (F : C.machine.Freight) (actions : List Action) : Prop where
  restores : F.Restores
  proposes : Proposes F.Entry actions
  atomic : Permitted Atomic actions

section Restoring

variable {F : C.machine.Freight} {actions : List Action}

theorem Restoring.take (h : Restoring F actions) (k : Nat) :
    Restoring F (actions.take k) :=
  ⟨h.restores, h.proposes.take k, fun a ha => h.atomic a (List.mem_of_mem_take ha)⟩

/-- One more step, with stores that do not fail, that is not a proposal. -/
theorem Restoring.snoc (h : Restoring F actions) {i : Input}
    (hi : ∀ command, i ≠ .propose command) : Restoring F (actions ++ [.step n i []]) where
  restores := h.restores
  proposes m command answers hm := by
    rcases List.mem_append.mp hm with hm | hm
    · exact h.proposes m command answers hm
    · exact absurd (Action.step.inj (List.mem_singleton.mp hm)).2.1.symm (hi command)
  atomic a ha o ho := by
    rcases List.mem_append.mp ha with ha | ha
    · exact h.atomic a ha o ho
    · rw [List.mem_singleton.mp ha] at ho
      cases ho

end Restoring

/-- A history for every moment of a run. -/
structure Traced (C : Cluster σ) (actions : List Action) (f : Nat → History) : Prop where
  initial : f 0 = Consensus.State.initial
  sim : ∀ k, C.Sim (C.run (actions.take k)) (f k)
  follows : ∀ k, Follows (f k) (f (k + 1))

theorem Restoring.exists_histories {F : C.machine.Freight} {actions : List Action}
    (h : Restoring F actions) : ∃ f, C.Traced actions f := by
  let sim (w : World σ) (a : History) : Prop := C.Sim w a ∧ Carries F w
  let ok (act : Action) : Prop := (∀ o ∈ act.answers, Atomic o) ∧ Proposes F.Entry [act]
  have hstep : ∀ {w a act}, sim w a → ok act → ∃ a', Follows a a' ∧ sim (C.perform w act) a' := by
    intro w a act hs hact
    obtain ⟨a', hfollows, hsim⟩ := performSim h.restores hs.2 hs.1 hact.1
    exact ⟨a', hfollows, hsim, hs.2.perform act hact.2⟩
  have hinit : sim .initial Consensus.State.initial := ⟨Sim.initial, Carries.initial⟩
  obtain ⟨f, h0, hf⟩ := @Run.exists_trace _ _ _ C.perform ok sim Follows Follows.refl hstep _ _ hinit
    actions fun act hact => ⟨h.atomic act hact, h.proposes.of_mem hact⟩
  exact ⟨f, h0, fun k => (hf k).1.1, fun k => (hf k).2⟩

theorem Traced.extends_ {actions : List Action} {f : Nat → History} (h : C.Traced actions f)
    {j k : Nat} (hjk : j ≤ k) : Extends (f j) (f k) := by
  induction k, hjk using Nat.le_induction with
  | base => exact .refl _
  | succ k _ ih => exact ih.trans (h.follows k).extends_

/-- A whole run has a history. -/
theorem Restoring.exists_history {F : C.machine.Freight} {actions : List Action}
    (h : Restoring F actions) : ∃ a, C.Sim (C.run actions) a := by
  obtain ⟨f, hf⟩ := h.exists_histories
  have := hf.sim actions.length
  rw [List.take_length] at this
  exact ⟨_, this⟩

end Cluster

end DistributedKv
