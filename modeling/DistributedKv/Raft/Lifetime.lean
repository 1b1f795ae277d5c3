import DistributedKv.Raft.FileLog
import DistributedKv.Raft.Image

/-!
A node over several lives. Between its lives only the files are left, in
whatever state a crash inside an operation or inside a start-up has left them.
`Env.Serves.recovers`: the next start succeeds from every such state, finds the
last ballot, the larger of the two commit indexes and the log above the snapshot
boundary, has lost no entry that the node ever knew to be committed, and leads
the state machine to the image of all of them. `crash_recovery` is this for the
key-value store, down to the bytes of a torn append.
-/

namespace DistributedKv

open Crash Prog

variable {σ : Type} {env : Env σ}

/-! ## What a step does to the log of a peer -/

section Peers

variable {P : LogEntry → Prop} {i : Input} {p p' p'' : Peer}

/-- Every entry that an input can add to the log is a `P`. -/
def Input.Adds (P : LogEntry → Prop) : Input → Prop
  | .appendRequest req => ∀ e ∈ req.entries, P e
  | .installRequest req => ∀ e ∈ req.covers, P e
  | .propose command => ∀ index term, P (proposedEntry index term command)
  | _ => True

theorem Peer.Step.entries (h : p.Step env i p') (hnoop : ∀ index term, P (noopEntry index term))
    (hi : i.Adds P) (hp : ∀ e ∈ p.history, P e) : ∀ e ∈ p'.history, P e := by
  have happend : ∀ {es}, (∀ e ∈ es, P e) → ∀ e ∈ p.history ++ es, P e := fun hes e he =>
    (List.mem_append.mp he).elim (hp e) (hes e)
  cases h with
  | win => exact happend fun e he => List.mem_singleton.mp he ▸ hnoop _ _
  | truncate => exact fun e he => hp e (List.mem_of_mem_take he)
  | append => exact happend fun e he => hi e (List.mem_of_mem_drop (List.mem_of_mem_take he))
  | propose => exact happend fun e he => List.mem_singleton.mp he ▸ hi _ _
  | install =>
    intro e he
    rcases List.mem_append.mp he with he | he
    · exact hi e he
    · split at he
      · exact hp e (List.mem_of_mem_drop he)
      · cases he
  | _ => exact hp

theorem Peer.Steps.entries (h : p.Steps env i p')
    (hnoop : ∀ index term, P (noopEntry index term)) (hi : i.Adds P) (hp : ∀ e ∈ p.history, P e) :
    ∀ e ∈ p'.history, P e := by
  induction h with
  | refl => exact hp
  | tail _ hstep ih => exact hstep.entries hnoop hi ih

/-- What is committed stays committed. -/
def Peer.Keeps (p p' : Peer) : Prop := p.history.take p.commit <+: p'.history.take p'.commit

theorem Peer.Keeps.refl (p : Peer) : p.Keeps p := List.prefix_rfl

theorem Peer.Keeps.trans (h : p.Keeps p') (h' : p'.Keeps p'') : p.Keeps p'' :=
  List.IsPrefix.trans h h'

theorem Peer.Keeps.of_isPrefix (h : p.history.take p.commit <+: p'.history)
    (hc : p.commit ≤ p'.commit) : p.Keeps p' :=
  List.prefix_take_iff.mpr ⟨h, (List.length_take_le _ _).trans hc⟩

/-- A snapshot can be installed twice. -/
theorem InstallOk.installed {M : Imaging env} {l : List LogEntry} {c : Nat}
    {req : InstallSnapshotRequest} (h : InstallOk M l c req) :
    InstallOk M (installedLog l req) (max c req.lastIncludedIndex) req :=
  { h with agrees := (List.take_prefix _ _).trans (List.prefix_append _ _) }

theorem Peer.Step.keeps {M : Imaging env} (h : p.Step env i p') (hc : p.commit ≤ p.history.length)
    (hi : ∀ req, i = .installRequest req → InstallOk M p.history p.commit req) :
    p.Keeps p' ∧ p'.commit ≤ p'.history.length ∧
      ∀ req, i = .installRequest req → InstallOk M p'.history p'.commit req := by
  have happend : ∀ es, p.history.take p.commit <+: p.history ++ es := fun es =>
    (List.take_prefix _ _).trans (List.prefix_append _ _)
  have hle : ∀ es, p.commit ≤ (p.history ++ es).length := fun es =>
    hc.trans (List.prefix_append _ es).length_le
  cases h with
  | win => exact ⟨.of_isPrefix (happend _) le_rfl, hle _, nofun⟩
  | append => exact ⟨.of_isPrefix (happend _) le_rfl, hle _, nofun⟩
  | propose => exact ⟨.of_isPrefix (happend _) le_rfl, hle _, nofun⟩
  | truncate _ req m x e ht hf ha hx he hne hcut =>
    refine ⟨.of_isPrefix (List.take_prefix_take_left hcut) le_rfl, ?_, nofun⟩
    change p.commit ≤ (p.history.take _).length
    rw [List.length_take]
    exact le_min hcut hc
  | followCommit _ req ht ha hlt =>
    exact ⟨.of_isPrefix (List.take_prefix _ _) hlt.le, min_le_right _ _, nofun⟩
  | advance _ peer req resp index hl hlt ht hm =>
    exact ⟨.of_isPrefix (List.take_prefix _ _) hlt.le, termAt_le_length ht, nofun⟩
  | install _ req ht hf =>
    have hok := hi req rfl
    obtain ⟨hlen, hpre⟩ := hok.commit_le hc
    refine ⟨.of_isPrefix hpre (le_max_left _ _), hlen, ?_⟩
    rintro _ ⟨⟩
    exact hok.installed
  | _ => exact ⟨.refl _, hc, hi⟩

theorem Peer.Steps.keeps {M : Imaging env} (h : p.Steps env i p')
    (hc : p.commit ≤ p.history.length)
    (hi : ∀ req, i = .installRequest req → InstallOk M p.history p.commit req) : p.Keeps p' := by
  suffices hall : p.Keeps p' ∧ p'.commit ≤ p'.history.length ∧
      ∀ req, i = .installRequest req → InstallOk M p'.history p'.commit req from hall.1
  induction h with
  | refl => exact ⟨.refl p, hc, hi⟩
  | tail _ hstep ih =>
    obtain ⟨hkeeps, hc', hi'⟩ := ih
    obtain ⟨hk, hrest⟩ := hstep.keeps hc' hi'
    exact ⟨hkeeps.trans hk, hrest⟩

end Peers

/-! ## The log that a start finds -/

def Disk.boundaryTerm (d : Disk) : Nat := (d.snapshot.map Snapshot.lastIncludedTerm).getD 0

/-- The stored log above the snapshot boundary, if it starts right behind the
boundary or has an entry there with the snapshot's term. -/
def Disk.logAbove (d : Disk) : List LogEntry :=
  if d.log.head?.map LogEntry.index = some (d.boundary + 1) ∨
      ∃ e ∈ d.log, e.index = d.boundary ∧ e.term = d.boundaryTerm then
    d.log.filter fun e => d.boundary < e.index
  else []

/-- The entry at the boundary can only be where `recoverLogAfterSnapshot` looks. -/
theorem boundaryMatches_iff {first : LogEntry} {rest : List LogEntry} {b : Nat}
    (h : Indexed b (first :: rest)) (m : SnapshotMetadata) :
    boundaryMatches (first :: rest) first.index m = true ↔
      ∃ e ∈ first :: rest, e.index = m.lastIncludedIndex ∧ e.term = m.lastIncludedTerm := by
  have hfirst : first.index = b + 1 := (Indexed.cons.mp h).1
  unfold boundaryMatches
  constructor
  · intro hmatch
    split at hmatch
    · cases hmatch
    · rename_i e he
      exact ⟨e, List.mem_of_getElem? he, of_decide_eq_true hmatch⟩
  · rintro ⟨e, he, hindex, hterm⟩
    obtain ⟨k, hk, rfl⟩ := List.getElem_of_mem he
    have hget := List.getElem?_eq_getElem hk
    have := h k _ hget
    rw [show m.lastIncludedIndex - first.index = k by omega, hget]
    exact decide_eq_true ⟨hindex, hterm⟩

theorem DiskOk.recoveredLog_eq {M : Imaging env} {d : Disk} (h : DiskOk M d) :
    d.recoveredLog = d.logAbove := by
  obtain ⟨hvalid, b, hidx⟩ := h.contiguous
  have hfilter := LogStore.filter_indexed hidx d.boundary
  unfold Disk.logAbove
  rw [hfilter]
  cases hlog : d.log with
  | nil => cases hs : d.snapshot <;> simp [Disk.recoveredLog, hs, hlog, Snapshot.retained]
  | cons first rest =>
    rw [hlog] at hidx
    have hfirst : first.index = b + 1 := (Indexed.cons.mp hidx).1
    have hbase := h.base first (by rw [hlog]; rfl)
    have hhead : (first :: rest).head?.map LogEntry.index = some first.index := rfl
    unfold Disk.recoveredLog
    cases hs : d.snapshot with
    | none =>
      have hb : d.boundary = 0 := by simp [Disk.boundary, hs]
      rw [if_pos (.inl (by rw [hhead]; congr 1; omega)), hb, Nat.zero_sub, List.drop_zero]
      exact hlog
    | some s =>
      have hb : d.boundary = s.lastIncludedIndex := by simp [Disk.boundary, hs]
      have ht : d.boundaryTerm = s.lastIncludedTerm := by simp [Disk.boundaryTerm, hs]
      simp only [Snapshot.retained, hlog, hb, ht, hhead, Option.some.injEq]
      by_cases hnext : first.index = s.lastIncludedIndex + 1
      · rw [if_pos hnext, if_pos (.inl hnext), Nat.sub_eq_zero_of_le (by omega), List.drop_zero]
      · have hiff := boundaryMatches_iff hidx s.metadata
        rw [if_neg hnext]
        by_cases hmatch : boundaryMatches (first :: rest) first.index s.metadata = true
        · rw [if_pos hmatch, if_pos (.inr (hiff.mp hmatch))]
          congr 1
          omega
        · rw [if_neg hmatch, if_neg]
          rintro (heq | hex)
          · exact hnext heq
          · exact hmatch (hiff.mpr hex)

/-! ## Lives and the files between them -/

/-- What can happen to a node: a step or a start-up, each against the answers of
the stores, or the end of the process between two steps. -/
inductive Move where
  | step (i : Input) (answers : List Outcome)
  | crash
  | restart (answers : List Outcome)
  deriving DecidableEq, Repr

/-- A move that is not possible changes nothing. -/
def Process.move (env : Env σ) : Process σ → Move → Process σ
  | .up r d, .step i answers =>
      match (react env i).run answers r d with
      | .crashed d' => .down d'
      | .done _ r' d' => .up r' d'
  | .up _ d, .crash => .down d
  | .up r d, .restart _ => .up r d
  | .down d, .restart answers =>
      match start env answers d with
      | .crashed d' => .down d'
      | .done (.error _) _ d' => .down d'
      | .done (.ok r) _ d' => .up r d'
  | .down d, _ => .down d

/-- A node that has never run before the first of the moves. -/
def lifetime (env : Env σ) (moves : List Move) : Process σ :=
  moves.foldl (Process.move env) (.down .empty)

def Process.peer : Process σ → Peer
  | .up r _ => r.peer
  | .down d => d.peer

/-- The entries that an input brings into the log are all `P`. -/
def Raft.Takes (P : LogEntry → Prop) (r : Raft σ) : Input → Prop
  | .installRequest req => r.Accepts req → ∀ e ∈ req.covers, P e
  | i => i.Adds P

/-- No store call fails, installed snapshots are genuine, and new entries are `P`. -/
def Move.Ok (env : Env σ) (P : LogEntry → Prop) (q : Process σ) : Move → Prop
  | .step i answers => (∀ o ∈ answers, Atomic o) ∧
      ∀ r d, q = .up r d → r.InstallsGenuine env i ∧ r.Takes P i
  | .crash => True
  | .restart answers => ∀ o ∈ answers, Atomic o

/-- What recovery asks of a state machine for entries that are `P`: it applies
them, and it restores its own snapshots of them. -/
structure Env.Serves (env : Env σ) (P : LogEntry → Prop) : Prop where
  cfg : env.cfg.validate = .ok ()
  snapshotter : ∃ sn, env.snapshotter = some sn
  noop : ∀ index term, P (noopEntry index term)
  applies : ∀ {l : List LogEntry} {st : σ} {e : LogEntry}, (∀ e ∈ l, e.Valid ∧ P e) →
    env.applyAll l = .ok st → e.Valid → P e → e.operation ≠ .noop →
    ∃ f st', env.applier = some f ∧ f e st = .ok st'
  roundTrip : env.RoundTrip fun l => ∀ e ∈ l, e.Valid ∧ P e

namespace Env.Serves

variable {P : LogEntry → Prop} (hs : env.Serves P) {r r' : Raft σ} {d d' : Disk}

/-- The images of lists of `P`. -/
def imaging : Imaging env := env.images _ hs.roundTrip

/-- The invariant of a process. -/
def Sane : Process σ → Prop
  | .up r d => Running hs.imaging False r d ∧ ∀ e ∈ r.history, P e
  | .down d => DiskOk hs.imaging d ∧ ∀ e ∈ d.history, P e

include hs

/-- The change that a step makes is one that an input makes whose entries are `P`
and whose snapshot, if it is one, is genuine. A snapshot that is ignored need not be. -/
theorem react_steps {i : Input} (hrun : Running hs.imaging False r d)
    (hg : r.InstallsGenuine env i) (ht : r.Takes P i) :
    ∃ j : Input, j.Adds P ∧
      (∀ req, j = .installRequest req → InstallOk hs.imaging r.history r.commitIndex req) ∧
      wp Atomic (Survives hs.imaging j r.peer) (react env i)
        (fun _ r' d' => Reaches hs.imaging False j r.peer r' d') r d := by
  by_cases hignored : ∃ req, i = .installRequest req ∧ ¬ r.Accepts req
  · obtain ⟨req, rfl, hreq⟩ := hignored
    refine ⟨.applySelect, trivial, fun _ h => (by cases h), ?_⟩
    simp only [react, wp_bind, wp_read, wp_ite, wp_pure]
    refine ⟨fun _ => .refl hrun, fun hmu => ?_⟩
    refine wp_mono _ _ _ (handleInstallSnapshot_ignored (.refl hrun) (by simpa using hmu) hreq) ?_
      fun _ hd => hd
    rintro (_ | _) _ _ hr <;> exact hr
  · have hin : InputOk hs.imaging False r i ∧ i.Adds P ∧
        ∀ req, i = .installRequest req → InstallOk hs.imaging r.history r.commitIndex req := by
      cases i with
      | installRequest req =>
        have hreq : r.Accepts req := by
          by_contra hreq
          exact hignored ⟨req, rfl, hreq⟩
        have hok := (hg hreq).installOk hs.roundTrip
        refine ⟨fun _ => ⟨hok, False.elim⟩, ht hreq, ?_⟩
        rintro _ ⟨⟩
        exact hok
      | _ => exact ⟨trivial, ht, fun _ h => by cases h⟩
    obtain ⟨hin, hadds, hok⟩ := hin
    exact ⟨i, hadds, hok,
      wp_mono _ _ _ (react_spec hs.cfg hrun hin) (fun _ _ _ hr => hr.1) fun _ hd => hd⟩

theorem sane_step {i : Input} {answers : List Outcome} (h : hs.Sane (.up r d))
    (ha : ∀ o ∈ answers, Atomic o) (hg : r.InstallsGenuine env i) (ht : r.Takes P i) :
    hs.Sane (Process.move env (.up r d) (.step i answers)) ∧
      r.peer.Keeps (Process.move env (.up r d) (.step i answers)).peer := by
  obtain ⟨hrun, hp⟩ := h
  obtain ⟨j, hadds, hok, hwp⟩ := hs.react_steps hrun hg ht
  have hend := wp_run _ _ answers r d ha hwp
  cases hout : (react env i).run answers r d with
  | crashed d' =>
    rw [hout] at hend
    obtain ⟨hdisk, hsteps⟩ := hend
    simp only [Process.move, hout]
    exact ⟨⟨hdisk, hsteps.entries hs.noop hadds hp⟩, hsteps.keeps hrun.commit_le hok⟩
  | done out r' d' =>
    rw [hout] at hend
    obtain ⟨hrun', hsteps⟩ := hend
    simp only [Process.move, hout]
    exact ⟨⟨hrun', hsteps.entries hs.noop hadds hp⟩, hsteps.keeps hrun.commit_le hok⟩

/-- The snapshot on disk is the image of entries that are `P`. -/
theorem restorable (h : hs.Sane (.down d)) : Restorable hs.imaging d := by
  obtain ⟨hdisk, hp⟩ := h
  intro s sn hsnap hsn
  have hstanding := hdisk.snapshot s hsnap
  refine hstanding.encodes (fun e he => ?_) sn hsn
  rw [hstanding.covers] at he
  have hmem := List.mem_of_mem_take he
  exact ⟨hdisk.valid e hmem, hp e hmem⟩

theorem newWithSnapshot_started (h : hs.Sane (.down d)) :
    wp Atomic (SamePeer hs.imaging d) (newWithSnapshot env)
      (fun out _ d' => Started hs.imaging False d out d') env.initial d :=
  newWithSnapshot_spec False hs.cfg hs.snapshotter h.1 (hs.restorable h)

theorem not_rejected (h : hs.Sane (.down d)) : ¬ Rejected hs.imaging d.history := by
  obtain ⟨hdisk, hp⟩ := h
  rintro ⟨k, e, st, he, hop, himg, herr⟩
  have hmem := List.mem_of_getElem? he
  obtain ⟨f, st', hf, hst'⟩ := hs.applies
    (fun e' he' => ⟨hdisk.valid e' (List.mem_of_mem_take he'), hp e' (List.mem_of_mem_take he')⟩)
    himg (hdisk.valid e hmem) (hp e hmem) hop
  obtain ⟨err, herr⟩ := herr f hf
  rw [hst'] at herr
  cases herr

theorem sane_restart {answers : List Outcome} (h : hs.Sane (.down d))
    (ha : ∀ o ∈ answers, Atomic o) :
    hs.Sane (Process.move env (.down d) (.restart answers)) ∧
      d.peer.Keeps (Process.move env (.down d) (.restart answers)).peer := by
  have hend := wp_run _ _ answers env.initial d ha (hs.newWithSnapshot_started h)
  -- the peer is the same whatever comes of the start
  have hsame : ∀ {d'}, SamePeer hs.imaging d d' → hs.Sane (.down d') ∧ d.peer.Keeps d'.peer := by
    rintro d' ⟨hdisk, hpeer⟩
    rw [hpeer]
    refine ⟨⟨hdisk, ?_⟩, .refl _⟩
    rw [show d'.history = d.history from congrArg Peer.history hpeer]
    exact h.2
  cases hout : start env answers d with
  | crashed d' =>
    rw [show (newWithSnapshot env).run answers env.initial d = _ from hout] at hend
    simp only [Process.move, hout]
    exact hsame hend
  | done out st d' =>
    rw [show (newWithSnapshot env).run answers env.initial d = _ from hout] at hend
    simp only [Process.move, hout]
    cases out with
    | error err => exact hsame hend.1
    | ok r =>
      obtain ⟨hrun, hpeer, -⟩ := hend
      refine ⟨⟨hrun, ?_⟩, ?_⟩
      · rw [show r.history = d.history from congrArg Peer.history hpeer]
        exact h.2
      · change d.peer.Keeps r.peer
        rw [hpeer]
        exact .refl _

theorem sane_move {q : Process σ} {m : Move} (h : hs.Sane q) (hm : m.Ok env P q) :
    hs.Sane (q.move env m) ∧ q.peer.Keeps (q.move env m).peer := by
  cases q with
  | up r d =>
    cases m with
    | step i answers => exact hs.sane_step h hm.1 (hm.2 r d rfl).1 (hm.2 r d rfl).2
    | restart answers => exact ⟨h, .refl _⟩
    | crash =>
      obtain ⟨hrun, hp⟩ := h
      refine ⟨⟨hrun.diskOk, ?_⟩, ?_⟩
      · rw [hrun.disk_history]
        exact hp
      · change r.peer.Keeps d.peer
        rw [hrun.disk_peer]
        exact .refl _
  | down d =>
    cases m with
    | restart answers => exact hs.sane_restart h hm
    | step i answers => exact ⟨h, .refl _⟩
    | crash => exact ⟨h, .refl _⟩

theorem sane_lifetime {moves : List Move}
    (hok : ∀ k (m : Move), moves[k]? = some m → m.Ok env P (lifetime env (moves.take k))) :
    hs.Sane (lifetime env moves) ∧
      ∀ k, (lifetime env (moves.take k)).peer.Keeps (lifetime env moves).peer := by
  have hfirst : hs.Sane (.down .empty) := ⟨.empty, fun e he => by cases he⟩
  exact Run.invariant_rel (R := fun q q' : Process σ => q.peer.Keeps q'.peer) (fun _ => .refl _)
    .trans (fun q m hq hm => hs.sane_move hq hm) hfirst moves hok

end Env.Serves

/-! ## Recovery -/

/-- What a start makes of the files that the moves have left. -/
structure Recovered (env : Env σ) (moves : List Move) (d : Disk) (r : Raft σ) : Prop where
  term : r.currentTerm = d.stable.currentTerm
  vote : r.votedFor = d.stable.votedFor
  commit : r.commitIndex = max d.stable.commitIndex d.boundary
  log : r.log = d.logAbove
  committed : ∀ k r₀ d₀, lifetime env (moves.take k) = .up r₀ d₀ →
    r₀.history.take r₀.commitIndex <+: r.history.take r.commitIndex
  applied : r.lastApplied = r.commitIndex
  store : env.applyAll (r.history.take r.lastApplied) = .ok r.store

theorem Env.Serves.recovers {P : LogEntry → Prop} (hs : env.Serves P) {moves : List Move}
    (hok : ∀ k (m : Move), moves[k]? = some m → m.Ok env P (lifetime env (moves.take k)))
    {d : Disk} (hdown : lifetime env moves = .down d) {answers : List Outcome}
    (ha : ∀ o ∈ answers, o = .ok) :
    ∃ r v d', start env answers d = .done (.ok r) v d' ∧ Recovered env moves d r := by
  obtain ⟨hsane, hkeeps⟩ := hs.sane_lifetime hok
  rw [hdown] at hsane hkeeps
  obtain ⟨out, v, d', hrun, hstarted⟩ := wp_run_ok _ _ answers env.initial d ha
    (hs.newWithSnapshot_started hsane)
  cases out with
  | error err => exact absurd hstarted.2 (hs.not_rejected hsane)
  | ok r =>
    obtain ⟨hrunning, hpeer, hlog, -, hlast, hidle⟩ := hstarted
    refine ⟨r, v, d', hrun, congrArg Peer.term hpeer, congrArg Peer.vote hpeer,
      congrArg Peer.commit hpeer, hlog.trans hsane.1.recoveredLog_eq, ?_, hlast,
      hrunning.phase_of hidle⟩
    intro k r₀ d₀ hup
    have hkept := hkeeps k
    rw [hup] at hkept
    change r₀.peer.Keeps r.peer
    rw [hpeer]
    exact hkept

/-! ## The key-value store -/

section Store

variable {maxLength : Int} {json : Json} {cfg : Config}

/-- A node that runs the key-value store. -/
def MemoryStore.node (json : Json) (maxLength : Int) (cfg : Config) : Env (MemoryStore maxLength) :=
  ⟨cfg, some apply, some (snapshotter json maxLength), new maxLength⟩

/-- The command is text, and its value is not too long for the store. -/
def LogEntry.Plain (maxLength : Int) (e : LogEntry) : Prop :=
  match e.operation with
  | .set => ValidUTF8 e.key ∧ ValidUTF8 e.value ∧ (e.value.length : Int) ≤ maxLength
  | .delete => ValidUTF8 e.key
  | _ => True

theorem LogEntry.Plain.harmless {e : LogEntry} (h : e.Plain maxLength) (hv : e.Valid) :
    e.Harmless maxLength := by
  have htakes := (LogEntry.valid_iff e).mp hv |>.2
  obtain ⟨index, term, operation, key, value⟩ := e
  cases operation with
  | set => exact ⟨htakes, h⟩
  | other name => exact htakes
  | _ => trivial

theorem LogEntry.Plain.repaired {e : LogEntry} (h : e.Plain maxLength) (hv : e.Valid) :
    e.repaired = e := by
  have hnil : ValidUTF8 [] := (validUTF8_iff _).mpr rfl
  have htakes := (LogEntry.valid_iff e).mp hv |>.2
  rw [LogEntry.repaired_eq_self_iff]
  obtain ⟨index, term, operation, key, value⟩ := e
  cases operation with
  | noop =>
    obtain ⟨rfl, rfl⟩ := htakes
    exact ⟨hnil, hnil⟩
  | set => exact ⟨h.1, h.2.1⟩
  | delete =>
    obtain ⟨-, rfl⟩ := htakes
    exact ⟨h, hnil⟩
  | other name => exact htakes.elim

theorem MemoryStore.textual_applyAll {l : List LogEntry} {st : MemoryStore maxLength}
    (hl : ∀ e ∈ l, e.Harmless maxLength) (h : (node json maxLength cfg).applyAll l = .ok st) :
    st.Textual := by
  suffices hall : ∀ st₀ : MemoryStore maxLength, st₀.Textual →
      l.foldlM (node json maxLength cfg).applyOne st₀ = .ok st → st.Textual from
    hall _ textual_new h
  clear h
  induction l with
  | nil =>
    rintro st₀ hst₀ ⟨⟩
    exact hst₀
  | cons e l ih =>
    intro st₀ hst₀ h
    rw [List.forall_mem_cons] at hl
    obtain ⟨st₁, happly, htext⟩ := apply_ok hl.1 hst₀.data_ne
    -- a no-op, which is not applied, would leave the store as it is
    have hone : (node json maxLength cfg).applyOne st₀ e = .ok st₁ := by
      unfold Env.applyOne
      split
      · rename_i hop
        rw [← happly, apply, hop]
      · exact happly
    rw [List.foldlM_cons, hone] at h
    exact ih hl.2 st₁ (htext hst₀) h

theorem MemoryStore.serves (hjson : json.Faithful) (hcfg : cfg.validate = .ok ()) :
    (node json maxLength cfg).Serves (LogEntry.Plain maxLength) where
  cfg := hcfg
  snapshotter := ⟨_, rfl⟩
  noop _ _ := trivial
  applies {l st e} hl himg hv hp _ := by
    have htext := textual_applyAll (fun e he => (hl e he).2.harmless (hl e he).1) himg
    obtain ⟨st', hst', -⟩ := apply_ok (hp.harmless hv) htext.data_ne
    exact ⟨apply, st', rfl, hst'⟩
  roundTrip {l st sn data} hl himg hsn hdata := by
    obtain rfl := Option.some.inj hsn
    obtain rfl := Except.ok.inj hdata
    exact (textual_applyAll (fun e he => (hl e he).2.harmless (hl e he).1) himg).restore hjson

/-- However the node has come to a stop, in whatever operation or start-up of a
run without failing calls, the next start recovers it. A file that an append has
left with some of its bytes is read as one with some of its entries. -/
theorem crash_recovery (hjson : json.Faithful) (hcfg : cfg.validate = .ok ())
    {moves : List Move} (hok : ∀ k (m : Move), moves[k]? = some m →
      m.Ok (MemoryStore.node json maxLength cfg) (LogEntry.Plain maxLength)
        (lifetime (MemoryStore.node json maxLength cfg) (moves.take k))) :
    (∀ d, lifetime (MemoryStore.node json maxLength cfg) moves = .down d →
      ∀ answers, (∀ o ∈ answers, o = Outcome.ok) →
        ∃ r v d', start (MemoryStore.node json maxLength cfg) answers d = .done (.ok r) v d' ∧
          Recovered (MemoryStore.node json maxLength cfg) moves d r) ∧
    ∀ (codec : EntryJson), codec.Repairs → ∀ (s : FileLogStore) (d : Disk) (es : List LogEntry),
      s.Holds codec d.log → Contiguous (d.log ++ es) →
      (∀ e ∈ es, e.Plain maxLength ∧ Wal.Admissible (codec.marshal e)) →
      ∀ bytes, ∃ n, (FileLogStore.load codec
        (s.grow ((Framing.frames (es.map codec.marshal)).take bytes))).1 =
          .ok ((Disk.appendLog es).part n d).log := by
  refine ⟨fun d hdown answers ha => (MemoryStore.serves hjson hcfg).recovers hok hdown ha, ?_⟩
  intro codec hcodec s d es hholds hcont hes bytes
  refine hholds.load_torn (fun e he => ?_) hcont bytes
  have hv := hcont.1 e (List.mem_append_right _ he)
  refine ⟨?_, (hes e he).2⟩
  rw [hcodec e hv, (hes e he).1.repaired hv]

end Store

/-- A follower dies after it has saved a snapshot and before it compacts its log,
dies again while it starts, and then in the middle of an append. -/
def tornLifetime : List Move :=
  [.restart [], .step (.appendRequest ⟨1, 2, 0, 0, [setA 1], 1⟩) [], .step .applySelect [],
    .step .applyEntry [], .step .applyCheckpoint [], .step .snapshotBegin [],
    .step .snapshotSave [], .step .snapshotPublish [.crash 0], .restart [.crash 1], .restart [],
    .step (.appendRequest ⟨1, 2, 1, 1, [setB 2, setA 3], 1⟩) [.crash 1]]

theorem setA_plain (index : Nat) : (setA index).Plain 8 := by
  have hkey : ValidUTF8 [107] := (validUTF8_iff _).mpr (by decide)
  have hvalue : ValidUTF8 [97] := (validUTF8_iff _).mpr (by decide)
  exact ⟨hkey, hvalue, Int.le_of_sub_nonneg (by simp [setA])⟩

theorem setB_plain (index : Nat) : (setB index).Plain 8 := by
  have hkey : ValidUTF8 [107] := (validUTF8_iff _).mpr (by decide)
  have hvalue : ValidUTF8 [98] := (validUTF8_iff _).mpr (by decide)
  exact ⟨hkey, hvalue, Int.le_of_sub_nonneg (by simp [setB])⟩

theorem crash_recovery_tornLifetime :
    ∃ d, lifetime (MemoryStore.node .framed 8 (localConfig 1 1)) tornLifetime = .down d ∧
      d.log = [setB 2] ∧ d.boundary = 1 ∧
      ∃ r v d', start (MemoryStore.node .framed 8 (localConfig 1 1)) [] d = .done (.ok r) v d' ∧
        Recovered (MemoryStore.node .framed 8 (localConfig 1 1)) tornLifetime d r := by
  refine ⟨_, rfl, rfl, rfl, ?_⟩
  refine (@crash_recovery 8 .framed (localConfig 1 1) Json.framed_faithful rfl tornLifetime ?_).1 _ rfl
    [] (by simp)
  have happend : ∀ {req answers q}, (∀ e ∈ req.entries, e.Plain 8) → (∀ o ∈ answers, Atomic o) →
      Move.Ok (MemoryStore.node .framed 8 (localConfig 1 1)) (LogEntry.Plain 8) q
        (.step (.appendRequest req) answers) := fun hes ha => ⟨ha, fun _ _ _ => ⟨trivial, hes⟩⟩
  have hnone : ∀ o ∈ ([] : List Outcome), Atomic o := fun _ ho => by cases ho
  refine Run.Each.getElem? ⟨hnone, happend (by simp [setA_plain]) hnone,
    ⟨hnone, fun _ _ _ => ⟨trivial, trivial⟩⟩, ⟨hnone, fun _ _ _ => ⟨trivial, trivial⟩⟩,
    ⟨hnone, fun _ _ _ => ⟨trivial, trivial⟩⟩, ⟨hnone, fun _ _ _ => ⟨trivial, trivial⟩⟩,
    ⟨hnone, fun _ _ _ => ⟨trivial, trivial⟩⟩,
    ⟨by simp [Atomic], fun _ _ _ => ⟨trivial, trivial⟩⟩, by simp [Move.Ok, Atomic], hnone,
    happend (by simp [setA_plain, setB_plain]) (by simp [Atomic]), trivial⟩

end DistributedKv
