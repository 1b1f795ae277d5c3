import DistributedKv.Raft.Image
import DistributedKv.Raft.Ordered

/-!
When the apply goroutine stops. `applyCommitted` reads `lastApplied` in two
critical sections with the call of the state machine between them, and only a
snapshot installed in that window moves it. A node that installs none there
stops for an error of its state machine or of its stable store, and for nothing
else: the entry it looks for is in the log, and the entry it checkpoints is the
next one.
-/

namespace DistributedKv

open Crash Prog

variable {σ : Type} {env : Env σ} {i : Input} {r₀ r r' : Raft σ} {d d' : Disk}
  {answers : List Outcome} {out : Output} {err : String}

/-- The snapshot gets installed in the step: `lastApplied` is higher after it. A
request that is refused, ignored or stopped by a failing call leaves it. -/
def Raft.GetsInstalled (env : Env σ) (r : Raft σ) (d : Disk) (req : InstallSnapshotRequest)
    (answers : List Outcome) : Prop :=
  ∃ out r' d', (react env (.installRequest req)).run answers r d = .done out r' d' ∧
    r.lastApplied < r'.lastApplied

/-- No snapshot gets installed while the apply goroutine has an entry in hand. -/
def Raft.CheckpointsFirst (env : Env σ) (r : Raft σ) (d : Disk) : Input × List Outcome → Prop
  | (.installRequest req, answers) => r.GetsInstalled env d req answers → r.apply.inHand = none
  | _ => True

/-- The entry in the hands of the apply goroutine is the next one. -/
def Raft.AppliesNext (r : Raft σ) : Prop :=
  ∀ entry, r.apply.inHand = some entry → entry.index = r.lastApplied + 1

/-- The call `p` is answered with `a`. -/
def Returns {α : Type} (p : Op σ α) (answers : List Outcome) (r : Raft σ) (d : Disk) (a : α) :
    Prop :=
  ∃ r' d', p.run answers r d = .done a r' d'

theorem returns_iff {α : Type} {p : Op σ α} {a b : α} (hrun : p.run answers r d = .done a r' d') :
    Returns p answers r d b ↔ a = b := by
  constructor
  · rintro ⟨_, _, hret⟩
    exact (Exit.done.inj (hrun.symm.trans hret)).1
  · rintro rfl
    exact ⟨r', d', hrun⟩

/-- `Applier.Apply`, which may fail for reasons of its own. -/
def callApplier (apply : LogEntry → σ → Except String σ) (entry : LogEntry) :
    Op σ (Except String σ) := do
  match ← Prog.attempt with
  | .error cause => return .error cause
  | .ok () => return apply entry (← Prog.read).store

/-- In this step `Applier.Apply` or `StableStore.Save` is called and returns an
error, which `applyCommitted` passes on as `err`. -/
def CallFails (env : Env σ) (r : Raft σ) (d : Disk) (answers : List Outcome) (err : String) :
    Input → Prop
  | .applyEntry => ∃ entry apply cause, r.apply = .selected entry ∧ entry.operation ≠ .noop ∧
      env.applier = some apply ∧ Returns (callApplier apply entry) answers r d (.error cause) ∧
      err = s!"apply committed log entry {entry.index}: {cause}"
  | .applyCheckpoint => ∃ entry cause, r.apply = .applied entry ∧
      r.lastApplied + 1 = entry.index ∧
      Returns (saveStableValuesLocked r.currentTerm r.votedFor r.commitIndex entry.index)
        answers r d (.error cause) ∧
      err = s!"persist last applied index {entry.index}: {cause}"
  | _ => False

/-! ## The window between selection and checkpoint -/

theorem Effect.appliesNext (he : Effect env r₀ i r r')
    (hfirst : ∀ req, i = .installRequest req → r₀.lastApplied < r'.lastApplied →
      r₀.apply.inHand = none) (hwf : r.WellFormed) (h : r.AppliesNext) : r'.AppliesNext := by
  cases he with
  | selectFailed | applyFailed | checkpointFailed | begin | save | abandon | compact =>
    exact fun _ hentry => by cases hentry
  | install _ req hu hi =>
    have hidle : r.apply.inHand = none := by
      rw [hu.apply]
      refine hfirst req rfl ?_
      rw [← hu.lastApplied]
      exact hi.above.trans_le (Nat.le_max_right _ _)
    intro entry hentry
    rw [show (r.installed req).apply = r.apply from rfl, hidle] at hentry
    cases hentry
  | select _ entry _ _ hlookup =>
    rintro _ ⟨⟩
    exact (hwf.mem_of_entryAtLocked hlookup).2
  | applyNoop _ entry hsel | applyDone _ entry _ _ hsel =>
    rintro _ ⟨⟩
    exact h entry (by rw [hsel]; rfl)
  | checkpoint _ entry =>
    obtain ⟨_, _, -, -, heq⟩ := r.checkpointed_eq entry
    rw [heq]
    exact fun _ hentry => by cases hentry
  | stop _ err =>
    obtain ⟨_, _, _, -, -, heq⟩ := r.stopped_eq err
    rw [heq]
    exact fun _ hentry => by cases hentry
  | _ => exact h

theorem Effects.appliesNext (he : Effects env r i r')
    (hfirst : ∀ req, i = .installRequest req → r.lastApplied < r'.lastApplied →
      r.apply.inHand = none) (hwf : r.WellFormed) (h : r.AppliesNext) : r'.AppliesNext := by
  induction he with
  | refl => exact h
  | tail hes he ih =>
    refine he.appliesNext hfirst (Effects.wellFormed hes hwf) (ih fun req hi hlt => ?_)
    exact hfirst req hi (hlt.trans_le he.lastApplied_le)

/-- One step, whatever the stores answer. -/
theorem Raft.AppliesNext.step {answers : List Outcome} (hmaj : env.majority ≠ 1)
    (ha : Ahead r d.stable) (hwf : r.WellFormed) (h : r.AppliesNext)
    (hfirst : r.CheckpointsFirst env d (i, answers))
    (hrun : (react env i).run answers r d = .done out r' d') : r'.AppliesNext := by
  refine (effects_of_done hmaj ha hrun).1.appliesNext (fun req hi hlt => ?_) hwf h
  subst hi
  exact hfirst ⟨out, r', d', hrun, hlt⟩

/-! ## What stops the goroutine -/

/-- Only the three sections of `applyCommitted` return its errors. -/
theorem Effect.failed_of (he : Effect env r₀ i r r') (hfailed : r'.apply = .failed err)
    (hselect : i ≠ .applySelect) (hentry : i ≠ .applyEntry) (hcheck : i ≠ .applyCheckpoint) :
    r.apply = .failed err := by
  cases he with
  | select | selectFailed => exact absurd rfl hselect
  | applyNoop | applyDone | applyFailed => exact absurd rfl hentry
  | checkpoint | checkpointFailed => exact absurd rfl hcheck
  | stop _ err' =>
    obtain ⟨_, _, _, -, -, heq⟩ := r.stopped_eq err'
    rw [heq] at hfailed
    cases hfailed
  | begin | save | abandon | compact => cases hfailed
  | _ => exact hfailed

theorem Effects.failed_of (he : Effects env r i r') (hfailed : r'.apply = .failed err)
    (hselect : i ≠ .applySelect) (hentry : i ≠ .applyEntry) (hcheck : i ≠ .applyCheckpoint) :
    r.apply = .failed err := by
  induction he with
  | refl => exact hfailed
  | tail _ he ih => exact ih (he.failed_of hfailed hselect hentry hcheck)

/-- With the entry in the log and an applier, the selection succeeds. -/
theorem applySelect_apply (happlier : env.applier ≠ none)
    (hfound : r.lastApplied < r.commitIndex → ∃ e, r.entryAtLocked (r.lastApplied + 1) = some e)
    (hrun : (react env .applySelect).run answers r d = .done out r' d') :
    r'.apply = r.apply ∨ ∃ entry, r'.apply = .selected entry := by
  have hwp : wp Any (fun _ => True) (react env .applySelect)
      (fun _ r' _ => r'.apply = r.apply ∨ ∃ entry, r'.apply = .selected entry) r d := by
    simp only [react, applySelect, wp_bind, wp_read, wp_ite, wp_pure]
    refine ⟨fun _ => .inl trivial, fun hgo => ?_⟩
    obtain ⟨e, he⟩ := hfound (by omega)
    rw [he]
    simp only [wp_ite, wp_modify]
    exact ⟨fun h => absurd (Option.isNone_iff_eq_none.mp h.2) happlier, fun _ => .inr ⟨e, rfl⟩⟩
  have := wp_run _ _ answers r d (fun _ _ => trivial) hwp
  rw [hrun] at this
  exact this

theorem returns_callApplier {apply : LogEntry → σ → Except String σ} {entry : LogEntry}
    {a : Except String Unit} (hcall : (Prog.attempt : Op σ _).run answers r d = .done a r' d')
    {result : Except String σ} :
    Returns (callApplier apply entry) answers r d result ↔
      a.bind (fun _ => apply entry r.store) = result := by
  obtain rfl : r' = r := volatile_of_run_store hcall
  have hrun : (callApplier apply entry).run answers r' d =
      .done (a.bind fun _ => apply entry r'.store) r' d' := by
    refine (run_store_bind _ _ answers r' d).trans ?_
    rw [show (store ⟨.ok, fun _ d => d⟩ : Op σ _).run answers r' d = _ from hcall]
    cases a <;> rfl
  exact returns_iff hrun

section ApplyEntry

variable {entry : LogEntry} {apply : LogEntry → σ → Except String σ}

theorem callFails_applyEntry (hsel : r.apply = .selected entry) (hop : entry.operation ≠ .noop)
    (happlier : env.applier = some apply) :
    CallFails env r d answers err .applyEntry ↔ ∃ cause,
      Returns (callApplier apply entry) answers r d (.error cause) ∧
      err = s!"apply committed log entry {entry.index}: {cause}" := by
  constructor
  · rintro ⟨entry', apply', cause, hsel', -, happlier', hret, herr⟩
    obtain rfl := ApplyPhase.selected.inj (hsel.symm.trans hsel')
    obtain rfl := Option.some.inj (happlier.symm.trans happlier')
    exact ⟨cause, hret, herr⟩
  · rintro ⟨cause, hret, herr⟩
    exact ⟨entry, apply, cause, hsel, hop, happlier, hret, herr⟩

variable (env d answers err) in
theorem applyEntry_along : along (fun _ => True) (react env .applyEntry) (fun _ _ r' _ =>
    r'.apply = .failed err ∧ r.apply ≠ .failed err ↔ CallFails env r d answers err .applyEntry)
    answers r d := by
  have hother : (∀ entry, r.apply ≠ .selected entry) → ¬ CallFails env r d answers err .applyEntry := by
    rintro hne ⟨entry, _, _, hsel, -⟩
    exact hne entry hsel
  simp only [react, applyEntry, along_bind, along_read]
  cases hsel : r.apply with
  | selected entry =>
    simp only [along_ite, along_modify, along_pure]
    refine ⟨fun hop => ?_, fun hop => ?_⟩
    · refine ⟨fun h => (by cases h.1), ?_⟩
      rintro ⟨_, _, _, hsel', hop', -⟩
      obtain rfl := ApplyPhase.selected.inj (hsel.symm.trans hsel')
      exact absurd hop hop'
    cases happlier : env.applier with
    | none =>
      refine ⟨fun h => (by simp only [hsel] at h; cases h.1), ?_⟩
      rintro ⟨_, _, _, -, -, happlier', -⟩
      rw [happlier] at happlier'
      cases happlier'
    | some f =>
      rw [callFails_applyEntry hsel hop happlier]
      simp only [along_bind, Prog.attempt, along_store]
      split
      · rename_i a r₁ d₁ hcall
        simp only [returns_callApplier hcall]
        obtain rfl : r₁ = r := volatile_of_run_store hcall
        cases a with
        | error cause =>
          simp [Except.bind, eq_comm]
        | ok u =>
          simp only [Except.bind]
          cases f entry r₁.store with
          | error cause => simp [eq_comm]
          | ok st => simp
      · trivial
  | _ =>
    exact ⟨fun h => absurd (hsel.symm.trans h.1) h.2, fun h => absurd h (hother (by simp [hsel]))⟩

end ApplyEntry

theorem applyEntry_failed_iff
    (hrun : (react env .applyEntry).run answers r d = .done out r' d') :
    r'.apply = .failed err ∧ r.apply ≠ .failed err ↔ CallFails env r d answers err .applyEntry := by
  have := along_run _ _ answers r d (applyEntry_along env d answers err)
  rw [hrun] at this
  exact this.choose_spec

theorem callFails_applyCheckpoint {entry : LogEntry} (happlied : r.apply = .applied entry)
    (hnext : r.lastApplied + 1 = entry.index) :
    CallFails env r d answers err .applyCheckpoint ↔ ∃ cause,
      Returns (saveStableValuesLocked r.currentTerm r.votedFor r.commitIndex entry.index)
        answers r d (.error cause) ∧
      err = s!"persist last applied index {entry.index}: {cause}" := by
  constructor
  · rintro ⟨entry', cause, happlied', -, hret, herr⟩
    obtain rfl := ApplyPhase.applied.inj (happlied.symm.trans happlied')
    exact ⟨cause, hret, herr⟩
  · rintro ⟨cause, hret, herr⟩
    exact ⟨entry, cause, happlied, hnext, hret, herr⟩

variable (env d answers err) in
theorem applyCheckpoint_along (h : r.AppliesNext) :
    along (fun _ => True) (react env .applyCheckpoint) (fun _ _ r' _ =>
      r'.apply = .failed err ∧ r.apply ≠ .failed err ↔
        CallFails env r d answers err .applyCheckpoint) answers r d := by
  have hother : (∀ entry, r.apply ≠ .applied entry) →
      ¬ CallFails env r d answers err .applyCheckpoint := by
    rintro hne ⟨entry, _, happlied, -⟩
    exact hne entry happlied
  simp only [react, applyCheckpoint, along_bind, along_read]
  cases happlied : r.apply with
  | applied entry =>
    have hnext : r.lastApplied + 1 = entry.index := (h entry (by rw [happlied]; rfl)).symm
    rw [callFails_applyCheckpoint happlied hnext]
    simp only [along_ite, along_bind, saveStableValuesLocked, along_store]
    refine ⟨fun hne => absurd hnext hne, fun _ => ?_⟩
    split
    · rename_i a r₁ d₁ hcall
      obtain rfl : r₁ = r := volatile_of_run_store hcall
      cases a with
      | error cause =>
        simp only [along_bind, along_modify, along_pure, returns_iff hcall]
        simp [eq_comm]
      | ok u =>
        have hidle : (r₁.checkpointed entry).apply = .idle := by
          obtain ⟨_, _, -, -, heq⟩ := r₁.checkpointed_eq entry
          rw [heq]
        have hok : (r₁.checkpointed entry).apply = .failed err ∧
            ApplyPhase.applied entry ≠ .failed err ↔
            ∃ cause, (Except.ok u : Except String Unit) = .error cause ∧
              err = s!"persist last applied index {entry.index}: {cause}" := by
          rw [hidle]
          simp
        simp only [along_bind, along_modify, along_pure, returns_iff hcall]
        split <;> exact hok
    · trivial
  | _ =>
    simp only [along_pure]
    exact ⟨fun h => absurd (happlied.symm.trans h.1) h.2,
      fun h => absurd h (hother (by simp [happlied]))⟩

theorem applyCheckpoint_failed_iff (h : r.AppliesNext)
    (hrun : (react env .applyCheckpoint).run answers r d = .done out r' d') :
    r'.apply = .failed err ∧ r.apply ≠ .failed err ↔
      CallFails env r d answers err .applyCheckpoint := by
  have := along_run _ _ answers r d (applyCheckpoint_along env d answers err h)
  rw [hrun] at this
  exact this.choose_spec

/-- What one step of the node can make the apply goroutine return. -/
theorem react_failed_iff (hmaj : env.majority ≠ 1) (happlier : env.applier ≠ none)
    (ha : Ahead r d.stable) (hsound : r.Sound) (h : r.AppliesNext)
    (hrun : (react env i).run answers r d = .done out r' d') :
    r'.apply = .failed err ∧ r.apply ≠ .failed err ↔ CallFails env r d answers err i := by
  have hquiet (hselect : i ≠ .applySelect) (hentry : i ≠ .applyEntry)
      (hcheck : i ≠ .applyCheckpoint) : ¬ (r'.apply = .failed err ∧ r.apply ≠ .failed err) := by
    rintro ⟨hfailed, hnew⟩
    exact hnew ((effects_of_done hmaj ha hrun).1.failed_of hfailed hselect hentry hcheck)
  cases i with
  | applySelect =>
    refine iff_of_false ?_ id
    rintro ⟨hfailed, hnew⟩
    have hfound (hlt : r.lastApplied < r.commitIndex) :=
      hsound.toWellFormed.entryAtLocked_isSome (Nat.lt_succ_of_le hsound.boundary_le)
        (hlt.trans_le hsound.commit_le)
    rcases applySelect_apply happlier hfound hrun with hsame | ⟨entry, hsel⟩
    · exact hnew (hsame.symm.trans hfailed)
    · rw [hsel] at hfailed
      cases hfailed
  | applyEntry => exact applyEntry_failed_iff hrun
  | applyCheckpoint => exact applyCheckpoint_failed_iff h hrun
  | _ => exact iff_of_false (hquiet nofun nofun nofun) id

/-! ## The life of a node -/

/-- In every life of a node with an applier that installs no snapshot while the
apply goroutine has an entry in hand: the next committed entry is in the log,
the entry to be checkpointed is the next one, and a step makes `applyCommitted`
return an error if and only if `Applier.Apply` or `StableStore.Save` returned
one in it. -/
theorem apply_stops_iff {d₀ : Disk} {v : σ} (happlier : env.applier ≠ none)
    (hstart : start env answers d₀ = .done (.ok r) v d) {steps : List (Input × List Outcome)}
    (hagree : ∀ k a, steps[k]? = some a → ∀ r' d',
      (live env r d (steps.take k)).process = .up r' d' → r'.Agreeing a.1)
    (hfirst : ∀ k a, steps[k]? = some a → ∀ r' d',
      (live env r d (steps.take k)).process = .up r' d' → r'.CheckpointsFirst env d' a)
    (hup : (live env r d steps).process = .up r' d') :
    (r'.lastApplied < r'.commitIndex → ∃ e, r'.entryAtLocked (r'.lastApplied + 1) = some e) ∧
    (∀ e, r'.apply = .applied e → r'.lastApplied + 1 = e.index) ∧
    ∀ i answers out r'' d'', (react env i).run answers r' d' = .done out r'' d'' →
      ∀ err, r''.apply = .failed err ∧ r'.apply ≠ .failed err ↔
        CallFails env r' d' answers err i := by
  have hstarts := start_done hstart
  obtain ⟨hcfg, hfresh, hwf, hord⟩ := hstarts.2 r rfl
  have hmaj : env.majority ≠ 1 := (Env.majority_gt_one hcfg).ne'
  have hbegin : r.Sound ∧ r.AppliesNext := by
    refine ⟨⟨hwf, hord, by rw [hfresh.apply]; trivial⟩, fun e he => ?_⟩
    rw [hfresh.apply] at he
    cases he
  obtain ⟨hahead, hsound, hnext⟩ : Ahead r' d'.stable ∧ r'.Sound ∧ r'.AppliesNext := by
    refine live_induction (fun _ r d => Ahead r d.stable ∧ r.Sound ∧ r.AppliesNext)
      (fun r d a => r.Agreeing a.1 ∧ r.CheckpointsFirst env d a) ⟨hstarts.ahead, hbegin⟩ ?_
      (fun k a hk r' d' hup => ⟨hagree k a hk r' d' hup, hfirst k a hk r' d' hup⟩) hup
    rintro _ r₁ d₁ a _ r₂ d₂ ⟨hahead, hsound, hnext⟩ ⟨hagrees, hfree⟩ hrun
    obtain ⟨heff, hahead', -⟩ := effects_of_done hmaj hahead hrun
    exact ⟨hahead', heff.sound hagrees hsound,
      hnext.step hmaj hahead hsound.toWellFormed hfree hrun⟩
  refine ⟨fun hlt => ?_, fun e he => (hnext e (by rw [he]; rfl)).symm, ?_⟩
  · exact hsound.toWellFormed.entryAtLocked_isSome (Nat.lt_succ_of_le hsound.boundary_le)
      (hlt.trans_le hsound.commit_le)
  · intro i answers out r'' d'' hrun err
    exact react_failed_iff hmaj happlier hahead hsound hnext hrun

/-- A snapshot through the first of two entries arrives before the second is
selected, and applied. -/
def appliedLife : List (Input × List Outcome) :=
  [(.appendRequest ⟨1, 2, 0, 0, [noopEntry 1 1, setB 2], 2⟩, []),
    (.installRequest ⟨1, 2, 1, 1, Json.framed.marshal (some .empty), [noopEntry 1 1]⟩, []),
    (.applySelect, []), (.applyEntry, [])]

theorem apply_stops_appliedLife :
    ∃ r v d, start ((localCluster 1).env 1) [] .empty = .done (.ok r) v d ∧
      ∃ r' d', (live ((localCluster 1).env 1) r d appliedLife).process = .up r' d' ∧
        ∃ out r'' d'', (react ((localCluster 1).env 1) .applyCheckpoint).run [.fail "disk full"]
          r' d' = .done out r'' d'' ∧
        r''.apply = .failed s!"persist last applied index {2}: disk full" ∧
        CallFails ((localCluster 1).env 1) r' d' [.fail "disk full"]
          s!"persist last applied index {2}: disk full" .applyCheckpoint := by
  refine ⟨_, _, _, rfl, _, _, rfl, _, _, _, rfl, rfl, ?_⟩
  refine ((@apply_stops_iff _ ((localCluster 1).env 1) _ _ _ _ [] .empty _ nofun rfl appliedLife
    ?_ ?_ rfl).2.2 _ _ _ _ _ rfl _).mp ⟨rfl, nofun⟩
  · refine live_each ⟨fun _ _ _ => trivial, ?_, fun _ _ _ => trivial, fun _ _ _ => trivial, trivial⟩
    rintro _ _ ⟨⟩ _ term hterm
    exact (Option.some.inj hterm).symm
  · refine live_each ⟨fun _ _ _ => trivial, ?_, fun _ _ _ => trivial, fun _ _ _ => trivial, trivial⟩
    rintro _ _ ⟨⟩ _
    rfl

/-- A newer snapshot arrives while an applied entry waits for its checkpoint. -/
def overtakenLife : List (Input × List Outcome) :=
  [(.appendRequest ⟨1, 2, 0, 0, [setA 1], 1⟩, []), (.applySelect, []), (.applyEntry, []),
    (.installRequest newerImage, [])]

theorem install_stops_apply :
    ∃ r v d, start ((localCluster 1).env 1) [] .empty = .done (.ok r) v d ∧
      (∀ k a, overtakenLife[k]? = some a → ∀ r' d',
        (live ((localCluster 1).env 1) r d (overtakenLife.take k)).process = .up r' d' →
          r'.Agreeing a.1 ∧ r'.InstallsGenuine ((localCluster 1).env 1) a.1) ∧
      ∃ r' d', (live ((localCluster 1).env 1) r d overtakenLife).process = .up r' d' ∧
        ∃ out r'' d'', (react ((localCluster 1).env 1) .applyCheckpoint).run [] r' d' =
          .done out r'' d'' ∧
        r''.apply = .failed s!"apply order changed: last applied {2}, entry {1}" ∧
        r'.apply = .applied (setA 1) ∧
        ∀ err, ¬ CallFails ((localCluster 1).env 1) r' d' [] err .applyCheckpoint := by
  refine ⟨_, _, _, rfl, ?_, _, _, rfl, _, _, _, rfl, rfl, rfl, ?_⟩
  · refine live_each ⟨fun _ _ _ => ⟨trivial, trivial⟩, fun _ _ _ => ⟨trivial, trivial⟩,
      fun _ _ _ => ⟨trivial, trivial⟩, ?_, trivial⟩
    rintro _ _ ⟨⟩
    exact ⟨fun hle => absurd hle (by decide), fun _ => newerImage_genuine rfl rfl⟩
  · rintro err ⟨entry, _, happlied, hnext, -⟩
    cases happlied
    cases hnext

end DistributedKv
