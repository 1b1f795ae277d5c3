import DistributedKv.Goroutines.ApplySteps

/-!
The apply loop sleeps in its `select` until somebody signals on `applyNow`, which
holds one signal. No commit gets lost this way: whenever there is something to
apply, the loop is awake, or a signal is waiting for it, or a handler that has
just installed a snapshot is about to give one. And the loop always comes to
rest: it has then applied everything that is committed, or stopped for an error
that it recorded.
-/

namespace DistributedKv.Goroutines

open Crash Prog

variable {σ : Type} {C : Cluster σ} {s : System σ} {actions : List Action} {n : Int}
  {h h' : Host σ} {answers : List Outcome} {i : Input} {r' : Raft σ} {d' : Disk} {out : Output}
  {sent : List Message}

/-- The apply loop will see what is committed. -/
structure Awake (h : Host σ) : Prop where
  fits : Fits h.routines.applyLoop h.raft.apply
  within : h.raft.apply.Within h.raft.commitIndex
  error : h.routines.applyLoop = .ended → h.raft.applyErr ≠ none
  awake : h.raft.lastApplied < h.raft.commitIndex → h.routines.applyNow = true ∨
    h.routines.signalling = true ∨ h.routines.applyLoop = .applying ∨ h.routines.applyLoop = .ended

namespace Awake

/-- The node has not moved, and no signal was lost. -/
theorem same (ha : Awake h) (hraft : h'.raft = h.raft)
    (hloop : h'.routines.applyLoop = h.routines.applyLoop)
    (hsignal : h.routines.applyNow = true ∨ h.routines.signalling = true →
      h'.routines.applyNow = true ∨ h'.routines.signalling = true) : Awake h' := by
  refine ⟨by rw [hloop, hraft]; exact ha.fits, by rw [hraft]; exact ha.within,
    by rw [hloop, hraft]; exact ha.error, ?_⟩
  rw [hraft, hloop]
  intro hlt
  rcases ha.awake hlt with hnow | hnow | hloop
  · exact or_assoc.mp (.inl (hsignal (.inl hnow)))
  · exact or_assoc.mp (.inl (hsignal (.inr hnow)))
  · exact .inr (.inr hloop)

/-- A step of the node outside the apply loop, with a signal for every commit. -/
theorem step {env : Env σ} (ha : Awake h) (he : Effects env h.raft i h'.raft)
    (hi : h.routines.applyLoop.Takes i) (hloop : h'.routines.applyLoop = h.routines.applyLoop)
    (hsignal : h.routines.applyNow = true ∨ h.routines.signalling = true →
      h'.routines.applyNow = true ∨ h'.routines.signalling = true)
    (hcommit : h'.raft.commitIndex ≤ h.raft.commitIndex ∨ h'.raft.commitIndex ≤ h'.raft.lastApplied ∨
      h'.routines.applyNow = true ∨ h'.routines.signalling = true) : Awake h' := by
  refine ⟨by rw [hloop]; exact he.fits hi ha.fits, he.within ha.within,
    fun hended => he.progresses.error (ha.error (hloop ▸ hended)), fun hlt => ?_⟩
  have happlied := he.progresses.applied
  rcases hcommit with hle | hle | hnow | hnow
  · rcases ha.awake (by omega) with hnow | hnow | hold
    · exact or_assoc.mp (.inl (hsignal (.inl hnow)))
    · exact or_assoc.mp (.inl (hsignal (.inr hnow)))
    · exact .inr (.inr (hloop ▸ hold))
  · omega
  · exact .inl hnow
  · exact .inr (.inl hnow)

end Awake

/-- The apply loop takes no part in what gRPC and HTTP call. -/
theorem takes_of_isCall (hi : isCall i = true) (loop : ApplyLoop) : loop.Takes i := by
  refine ⟨?_, ?_, ?_⟩
  all_goals
    rintro rfl
    cases hi

/-- The node below takes a step, and `next` says what becomes of the host. -/
theorem ran_of_stepNode {next : Output → Raft σ → Disk → Host σ}
    (hran : stepNode C n h i answers next = .ran h' sent) :
    ∃ out r' d', (react (C.env n) i).run answers h.raft h.disk = .done out r' d' ∧
      h' = next out r' d' := by
  unfold stepNode at hran
  cases hrun : (react (C.env n) i).run answers h.raft h.disk with
  | crashed d' =>
    rw [hrun] at hran
    cases hran
  | done out r' d' =>
    rw [hrun] at hran
    exact ⟨out, r', d', rfl, (Turn.ran.inj hran).1.symm⟩

section Steps

variable (hs : Sim C s (C.run actions)) (hup : s.sites n = .up h) (ha : Awake h)

include hs hup ha

theorem awake_handle (hi : isCall i = true)
    (hfree : isInstall i = true → h.routines.signalling = false)
    (hrun : (react (C.env n) i).run answers h.raft h.disk = .done out r' d') :
    Awake (Host.handled ⟨r', d', h.routines⟩ h.raft i) := by
  obtain ⟨heff, -⟩ := hs.effects hup hrun
  have htakes := takes_of_isCall hi h.routines.applyLoop
  cases i with
  | appendRequest req =>
    refine ha.step heff htakes rfl ?_ ?_
    · rintro (hnow | hnow)
      · exact .inl (by simp [Host.handled, Host.committed, hnow])
      · exact .inr hnow
    · by_cases hlt : h.raft.commitIndex < r'.commitIndex
      · exact .inr (.inr (.inl (by simp [Host.handled, Host.committed, hlt])))
      · exact .inl (Nat.not_lt.mp hlt)
  | installRequest req =>
    have hquiet : h.routines.signalling = false := hfree rfl
    refine ha.step heff htakes rfl ?_ ?_
    · rintro (hnow | hnow)
      · exact .inl hnow
      · rw [hquiet] at hnow
        cases hnow
    · rcases heff.install_cases (hs.hosts n h hup).boundary_le with heq | hlt
      · exact .inl heq.le
      · by_cases hrest : r'.commitIndex ≤ r'.lastApplied
        · exact .inr (.inl hrest)
        · refine .inr (.inr (.inr ?_))
          have hne : h.raft.snapshotMeta ≠ r'.snapshotMeta := by
            intro heq
            rw [heq] at hlt
            omega
          simp only [Host.handled, needsApply, decide_eq_true_eq]
          exact ⟨hne, by omega⟩
  | voteRequest req =>
    exact ha.step heff htakes rfl id (.inl (heff.commitIndex_eq id).le)
  | propose command =>
    exact ha.step heff htakes rfl id (.inl (heff.commitIndex_eq id).le)
  | _ => cases hi

/-- A step of the apply loop. -/
theorem awake_apply (hi : nextApply h.routines.applyLoop h.raft.apply = some i)
    (hrun : (react (C.env n) i).run answers h.raft h.disk = .done out r' d') :
    Awake ⟨r', d', { h.routines with applyLoop := afterApply h.routines.applyLoop i r'.apply }⟩ := by
  obtain ⟨heff, -⟩ := hs.effects hup hrun
  have hwithin := heff.within ha.within
  have hcommit : ¬ i.Commits → r'.commitIndex = h.raft.commitIndex := heff.commitIndex_eq
  have happlied := heff.progresses.applied
  have hany : ∀ o ∈ answers, Any o := fun _ _ => trivial
  rcases nextApply_some hi with ⟨hloop, hcase⟩ | ⟨hloop, hcase⟩
  · -- in `applyCommitted` the loop looks again before it goes to sleep
    have hfits : i ≠ .recordApplyFailure → i ≠ .snapshotBegin → Fits .applying r'.apply :=
      fun hne hne' => heff.fits ⟨fun _ => rfl, fun h => absurd h hne', hne⟩ (hloop ▸ ha.fits)
    simp only [hloop, afterApply]
    rcases hcase with ⟨hidle, rfl⟩ | ⟨-, rfl⟩ | ⟨-, rfl⟩ | ⟨⟨err, hfailed⟩, rfl⟩
    · rw [if_neg (by decide)]
      by_cases hnow : r'.apply = .idle
      · have hrest := silent_done hrun rfl hany (applySelect_idle hidle) hnow
        rw [if_pos ⟨rfl, hnow⟩]
        exact ⟨.inl hnow, hwithin, fun h => (by cases h), fun hlt => absurd hrest (Nat.not_le.mpr hlt)⟩
      · rw [if_neg fun h => hnow h.2]
        exact ⟨hfits (by decide) (by decide), hwithin, fun h => (by cases h),
          fun _ => .inr (.inr (.inl rfl))⟩
    · exact ⟨hfits (by decide) (by decide), hwithin, fun h => (by cases h),
        fun _ => .inr (.inr (.inl rfl))⟩
    · exact ⟨hfits (by decide) (by decide), hwithin, fun h => (by cases h),
        fun _ => .inr (.inr (.inl rfl))⟩
    · obtain ⟨hstopped, herr⟩ := silent_done hrun rfl hany (recordApplyFailure_stopped hfailed)
      exact ⟨hstopped, hwithin, fun _ => herr, fun _ => .inr (.inr (.inr rfl))⟩
  · -- in `maybeSnapshot` it has not, so a signal is there for what was committed since
    have hkept : (h.raft.lastApplied < h.raft.commitIndex → h.routines.applyNow = true ∨
        h.routines.signalling = true) := by
      intro hlt
      rcases ha.awake hlt with hnow | hnow | hother | hother
      · exact .inl hnow
      · exact .inr hnow
      · rw [hloop] at hother
        cases hother
      · rw [hloop] at hother
        cases hother
    have hne : ¬ i.Commits ∧ ApplyLoop.snapshotting.Takes i := by
      rcases hcase with ⟨-, rfl⟩ | ⟨-, rfl⟩ | ⟨-, rfl⟩
      all_goals exact ⟨id, by decide, by decide, by decide⟩
    have hfits : Fits .snapshotting r'.apply := heff.fits hne.2 (hloop ▸ ha.fits)
    have hsame := hcommit hne.1
    have hless : r'.lastApplied < r'.commitIndex → h.raft.lastApplied < h.raft.commitIndex :=
      fun hlt => by omega
    simp only [hloop, afterApply]
    split
    · rename_i hidle
      refine ⟨hidle, hwithin, fun h => (by cases h), fun hlt => ?_⟩
      exact or_assoc.mp (.inl (hkept (hless hlt)))
    · refine ⟨hfits, hwithin, fun h => (by cases h), fun hlt => ?_⟩
      exact or_assoc.mp (.inl (hkept (hless hlt)))

theorem awake_exchange {k : Nat} {reply : Option Reply}
    (hran : exchange (C.env n) s.net n h k reply answers = .ran h' sent) : Awake h' := by
  -- a step that only moves the goroutine from stage to stage
  have hmoved {h₁ : Host σ} {sent₁ : List Message} (heq : Turn.ran h₁ sent₁ = .ran h' sent)
      (hraft : h₁.raft = h.raft) (hloop : h₁.routines.applyLoop = h.routines.applyLoop)
      (hnow : h₁.routines.applyNow = h.routines.applyNow)
      (hsignal : h₁.routines.signalling = h.routines.signalling) : Awake h' := by
    obtain ⟨rfl, -⟩ := Turn.ran.inj heq
    exact ha.same hraft hloop (by rw [hnow, hsignal]; exact id)
  unfold exchange at hran
  split at hran
  · exact hmoved hran rfl rfl rfl rfl
  rename_i x hk
  split at hran
  · split at hran
    · exact hmoved hran rfl rfl rfl rfl
    · exact hmoved hran rfl rfl rfl rfl
  · exact hmoved hran rfl rfl rfl rfl
  · split at hran
    · exact hmoved hran rfl rfl rfl rfl
    · exact hmoved hran rfl rfl rfl rfl
  · split at hran
    · exact hmoved hran rfl rfl rfl rfl
    · exact hmoved hran rfl rfl rfl rfl
  · split at hran
    · exact hmoved hran rfl rfl rfl rfl
    · exact hmoved hran rfl rfl rfl rfl
  · rename_i request hstage
    split at hran
    · exact hmoved hran rfl rfl rfl rfl
    · rename_i response
      split at hran
      swap
      · exact hmoved hran rfl rfl rfl rfl
      split at hran
      · cases hran
      rename_i again r' d' hop
      obtain ⟨rfl, -⟩ := Turn.ran.inj hran
      have hrun : (react (C.env n) (.installResponse x.peer request response)).run answers h.raft
          h.disk = .done .none r' d' := by
        rw [run_installResponse, hop]
        rfl
      obtain ⟨heff, -⟩ := hs.effects hup hrun
      refine ha.step heff ⟨?_, ?_, ?_⟩ rfl id (.inl (heff.commitIndex_eq id).le)
      all_goals exact Input.noConfusion
    · exact hmoved hran rfl rfl rfl rfl
  · rename_i request hstage
    split at hran
    · exact hmoved hran rfl rfl rfl rfl
    · rename_i response
      split at hran
      swap
      · exact hmoved hran rfl rfl rfl rfl
      split at hran
      · cases hran
      rename_i again r' d' hop
      obtain ⟨rfl, -⟩ := Turn.ran.inj hran
      have hrun : (react (C.env n) (.appendResponse x.peer request response)).run answers h.raft
          h.disk = .done .none r' d' := by
        rw [run_appendResponse, hop]
        rfl
      obtain ⟨heff, -⟩ := hs.effects hup hrun
      refine ha.step heff ⟨?_, ?_, ?_⟩ rfl ?_ ?_
      · exact Input.noConfusion
      · exact Input.noConfusion
      · exact Input.noConfusion
      · rintro (hnow | hnow)
        · exact .inl (by simp [Host.setStage, Host.committed, hnow])
        · exact .inr hnow
      · by_cases hlt : h.raft.commitIndex < r'.commitIndex
        · exact .inr (.inr (.inl (by simp [Host.setStage, Host.committed, hlt])))
        · exact .inl (Nat.not_lt.mp hlt)
    · exact hmoved hran rfl rfl rfl rfl
  · split at hran
    · exact hmoved hran rfl rfl rfl rfl
    · exact hmoved hran rfl rfl rfl rfl
  · exact hmoved hran rfl rfl rfl rfl
  · exact hmoved hran rfl rfl rfl rfl

theorem awake_move {m : Move} (hran : move C s.net n h answers m = .ran h' sent) : Awake h' := by
  have hsame {sent₁ : List Message} (heq : Turn.ran h sent₁ = .ran h' sent) : Awake h' := by
    obtain ⟨rfl, -⟩ := Turn.ran.inj heq
    exact ha
  cases m with
  | handle i =>
    simp only [move] at hran
    split at hran
    · rename_i hcan
      obtain ⟨out, r', d', hrun, rfl⟩ := ran_of_stepNode hran
      exact awake_handle hs hup ha hcan.1 hcan.2.2 hrun
    · exact hsame hran
  | signal =>
    simp only [move] at hran
    split at hran
    · obtain ⟨rfl, -⟩ := Turn.ran.inj hran
      exact ha.same rfl rfl fun _ => .inl rfl
    · exact hsame hran
  | electionTimeout =>
    simp only [move] at hran
    split at hran
    · exact hsame hran
    · obtain ⟨out, r', d', hrun, rfl⟩ := ran_of_stepNode hran
      obtain ⟨heff, -⟩ := hs.effects hup hrun
      refine ha.step heff ⟨?_, ?_, ?_⟩ rfl id (.inl (heff.commitIndex_eq id).le)
      all_goals exact Input.noConfusion
  | vote peer term response =>
    simp only [move] at hran
    split at hran
    · obtain ⟨out, r', d', hrun, rfl⟩ := ran_of_stepNode hran
      obtain ⟨heff, -⟩ := hs.effects hup hrun
      refine ha.step heff ⟨?_, ?_, ?_⟩ rfl id (.inl (heff.commitIndex_eq id).le)
      all_goals exact Input.noConfusion
    · exact hsame hran
  | giveUp =>
    obtain ⟨rfl, -⟩ := Turn.ran.inj hran
    exact ha.same rfl rfl id
  | replicateAll =>
    simp only [move] at hran
    split at hran
    · obtain ⟨rfl, -⟩ := Turn.ran.inj hran
      exact ha.same rfl rfl id
    · exact hsame hran
  | wake =>
    simp only [move] at hran
    split at hran
    · rename_i hcan
      obtain ⟨rfl, -⟩ := Turn.ran.inj hran
      have hidle : h.raft.apply = .idle := by
        have := ha.fits
        rwa [hcan.1] at this
      refine ⟨?_, ha.within, fun h => (by cases h), fun _ => .inr (.inr (.inl rfl))⟩
      change h.raft.apply.holdsSnapshotMu = false ∧ h.raft.apply ≠ .stopped
      rw [hidle]
      exact ⟨rfl, ApplyPhase.noConfusion⟩
    · exact hsame hran
  | apply =>
    simp only [move] at hran
    split at hran
    · exact hsame hran
    rename_i i hi
    split at hran
    · exact hsame hran
    · obtain ⟨out, r', d', hrun, rfl⟩ := ran_of_stepNode hran
      exact awake_apply hs hup ha hi hrun
  | exchange k reply => exact awake_exchange hs hup ha hran

end Steps

/-- At every moment of a run. -/
theorem awake_run (C : Cluster σ) (events : List Event) {n : Int} {h : Host σ}
    (hup : (run C events).sites n = .up h) : Awake h := by
  induction events using List.reverseRecOn generalizing n h with
  | nil => cases hup
  | append_singleton events e ih =>
    rw [run_append] at hup
    obtain ⟨actions, hs, -⟩ := exists_sim C events
    rcases perform_up hup with
      hold | ⟨m, answers, h, sent, -, hold, hran⟩ | ⟨answers, d, r, v, d', -, -, hstart, rfl⟩
    · exact ih hold
    · exact awake_move hs hold (ih hold) hran
    · obtain ⟨-, hfresh, -, -⟩ := (start_done hstart).2 r rfl
      refine ⟨hfresh.apply, ?_, fun h => (by cases h), fun hlt => ?_⟩
      · change r.apply.Within r.commitIndex
        rw [hfresh.apply]
        trivial
      · exact absurd (start_caughtUp hstart) (Nat.not_le.mpr hlt)

/-- The apply loop waits for a signal, and nobody is about to give one. -/
def Asleep (h : Host σ) : Prop :=
  h.routines.applyLoop = .waiting ∧ h.routines.applyNow = false ∧ h.routines.signalling = false

theorem Awake.applied_of_asleep (ha : Awake h) (hasleep : Asleep h) :
    h.raft.commitIndex ≤ h.raft.lastApplied := by
  obtain ⟨hloop, hnow, hsignal⟩ := hasleep
  by_contra hlt
  rcases ha.awake (Nat.not_le.mp hlt) with h | h | h | h
  · rw [hnow] at h
    cases h
  · rw [hsignal] at h
    cases h
  · rw [hloop] at h
    cases h
  · rw [hloop] at h
    cases h

/-- No wake-up is lost: when the apply loop waits and no signal is on its way, it
has applied everything that is committed. -/
theorem asleep_means_applied {events : List Event} (hup : (run C events).sites n = .up h)
    (hasleep : Asleep h) : h.raft.commitIndex ≤ h.raft.lastApplied :=
  (awake_run C events hup).applied_of_asleep hasleep

/-- Node 1 gets its first entry to node 2 at the second try, and commits it. -/
def committedEvents : List Event :=
  [.restart 1 [], .restart 2 [], .move 1 .electionTimeout [],
    .move 2 (.handle (.voteRequest ⟨1, 1, 0, 0⟩)) [], .move 1 (.vote 2 1 ⟨1, true⟩) [],
    .move 1 .replicateAll [], .move 1 (.exchange 0 none) [], .move 1 (.exchange 0 none) [],
    .move 1 (.exchange 0 none) [], .move 2 (.handle (.appendRequest ⟨1, 1, 1, 1, [], 0⟩)) [],
    .move 1 (.exchange 0 (some (.append ⟨1, false⟩))) [], .move 1 (.exchange 0 none) [],
    .move 1 (.exchange 0 none) [], .move 1 (.exchange 0 none) [],
    .move 2 (.handle (.appendRequest ⟨1, 1, 0, 0, [noopEntry 1 1], 0⟩)) [],
    .move 1 (.exchange 0 (some (.append ⟨1, true⟩))) []]

/-- Its apply loop applies the entry, takes a snapshot and goes back to sleep. -/
def appliedEvents : List Event :=
  committedEvents ++ .move 1 .wake [] :: List.replicate 7 (.move 1 .apply [])

theorem asleep_means_applied_appliedEvents :
    ∃ h, (run (localCluster 1) appliedEvents).sites 1 = .up h ∧ Asleep h ∧
      h.raft.commitIndex = 1 ∧ h.raft.commitIndex ≤ h.raft.lastApplied := by
  refine ⟨_, rfl, ⟨rfl, rfl, rfl⟩, rfl, ?_⟩
  exact @asleep_means_applied _ (localCluster 1) 1 _ appliedEvents rfl ⟨rfl, rfl, rfl⟩

/-! ## The loop comes to rest -/

/-- How many steps the loop is away from its `select` at most, by its phase, if
there is nothing to apply. -/
def place : ApplyLoop → ApplyPhase → Nat
  | .applying, .idle => 4
  | .applying, .selected _ => 3
  | .applying, .applied _ => 2
  | .applying, .failed _ => 1
  | .snapshotting, .idle => 3
  | .snapshotting, .snapshotting _ => 2
  | .snapshotting, .snapshotSaved _ => 1
  | _, _ => 0

/-- A bound on the steps that the apply loop can take when nothing else moves. -/
def restIn (h : Host σ) : Nat :=
  3 * (h.raft.commitIndex - h.raft.lastApplied) + place h.routines.applyLoop h.raft.apply +
    (if h.routines.applyNow = true then 10 else 0) + if h.routines.signalling = true then 11 else 0

theorem place_le_of_not_idle {phase : ApplyPhase} (h : Fits .applying phase) (hne : phase ≠ .idle) :
    place .applying phase ≤ 3 := by
  cases phase with
  | idle => exact absurd rfl hne
  | snapshotting b => cases h.1
  | snapshotSaved b => cases h.1
  | stopped => exact absurd rfl h.2
  | selected e => exact le_rfl
  | applied e => exact Nat.le_succ 2
  | failed err => exact Nat.le_add_left 1 2

theorem place_snapshotting_le {phase : ApplyPhase} (hne : phase ≠ .idle) :
    place .snapshotting phase ≤ 2 := by
  cases phase with
  | idle => exact absurd rfl hne
  | snapshotting b => exact le_rfl
  | snapshotSaved b => exact Nat.le_succ 1
  | _ => exact Nat.zero_le 2

/-- Every step of the loop brings it closer to rest. -/
theorem place_apply (hs : Sim C s (C.run actions)) (hup : s.sites n = .up h) (ha : Awake h)
    (hi : nextApply h.routines.applyLoop h.raft.apply = some i)
    (hrun : (react (C.env n) i).run answers h.raft h.disk = .done out r' d') :
    r'.commitIndex = h.raft.commitIndex ∧
    3 * (r'.commitIndex - r'.lastApplied) +
        place (afterApply h.routines.applyLoop i r'.apply) r'.apply <
      3 * (h.raft.commitIndex - h.raft.lastApplied) +
        place h.routines.applyLoop h.raft.apply := by
  obtain ⟨heff, -⟩ := hs.effects hup hrun
  have happlied := heff.progresses.applied
  have hany : ∀ o ∈ answers, Any o := fun _ _ => trivial
  have happlier : (C.env n).applier ≠ none := Option.some_ne_none _
  have hsn : (C.env n).snapshotter ≠ none := Option.some_ne_none _
  rcases nextApply_some hi with ⟨hloop, hcase⟩ | ⟨hloop, hcase⟩
  · have hfits : i ≠ .recordApplyFailure → i ≠ .snapshotBegin → Fits .applying r'.apply :=
      fun hne hne' => heff.fits ⟨fun _ => rfl, fun h => absurd h hne', hne⟩ (hloop ▸ ha.fits)
    rw [hloop]
    rcases hcase with ⟨hidle, rfl⟩ | ⟨⟨e, hsel⟩, rfl⟩ | ⟨⟨e, happ⟩, rfl⟩ | ⟨⟨err, hfailed⟩, rfl⟩
    · refine ⟨heff.commitIndex_eq id, ?_⟩
      rw [heff.commitIndex_eq id, hidle]
      by_cases hnow : r'.apply = .idle
      · simp only [afterApply, hnow, place, and_self, ↓reduceIte, reduceCtorEq]
        omega
      · have hplace := place_le_of_not_idle (hfits (by decide) (by decide)) hnow
        simp only [afterApply, hnow, and_false, ↓reduceIte, reduceCtorEq]
        change _ < _ + 4
        omega
    · refine ⟨heff.commitIndex_eq id, ?_⟩
      rw [heff.commitIndex_eq id, hsel]
      rcases silent_done hrun rfl hany (applyEntry_applied hsel happlier) with ⟨e', he⟩ | ⟨err, he⟩
      · rw [he]
        change _ + 2 < _ + 3
        omega
      · rw [he]
        change _ + 1 < _ + 3
        omega
    · refine ⟨heff.commitIndex_eq id, ?_⟩
      have hwithin := ha.within
      rw [happ] at hwithin
      rw [heff.commitIndex_eq id, happ]
      rcases checkpoint_done hrun (applyCheckpoint_idle happ) with ⟨he, hlast, hidx⟩ | ⟨err, he⟩
      · rw [he, hlast]
        change e.index ≤ h.raft.commitIndex at hwithin
        change _ + 4 < _ + 2
        omega
      · rw [he]
        change _ + 1 < _ + 2
        omega
    · refine ⟨heff.commitIndex_eq id, ?_⟩
      obtain ⟨hstopped, -⟩ := silent_done hrun rfl hany (recordApplyFailure_stopped hfailed)
      rw [heff.commitIndex_eq id, hfailed, hstopped]
      change _ + 0 < _ + 1
      omega
  · have hcommit : r'.commitIndex = h.raft.commitIndex := by
      rcases hcase with ⟨-, rfl⟩ | ⟨-, rfl⟩ | ⟨-, rfl⟩
      all_goals exact heff.commitIndex_eq id
    refine ⟨hcommit, ?_⟩
    -- a return from `maybeSnapshot` leads to the `select`
    have hidle : r'.apply = .idle → 3 * (r'.commitIndex - r'.lastApplied) +
        place (afterApply .snapshotting i r'.apply) r'.apply <
          3 * (h.raft.commitIndex - h.raft.lastApplied) + 1 := by
      intro hnow
      simp only [afterApply, hnow, place, ↓reduceIte]
      omega
    have hbusy : r'.apply ≠ .idle →
        afterApply .snapshotting i r'.apply = .snapshotting := fun hnow => if_neg hnow
    rw [hloop]
    rcases hcase with ⟨hphase, rfl⟩ | ⟨⟨b, hphase⟩, rfl⟩ | ⟨⟨b, hphase⟩, rfl⟩
    · rw [hphase]
      change _ < _ + 3
      by_cases hnow : r'.apply = .idle
      · have := hidle hnow
        omega
      · have hplace := place_snapshotting_le hnow
        rw [hbusy hnow]
        omega
    · rw [hphase]
      change _ < _ + 2
      rcases silent_done hrun rfl hany (snapshotSave_saved hphase hsn) with hnow | ⟨b', he⟩
      · have := hidle hnow
        omega
      · rw [hbusy (by rw [he]; exact ApplyPhase.noConfusion), he]
        change _ + 1 < _ + 2
        omega
    · rw [hphase]
      exact hidle (silent_done hrun rfl hany (snapshotPublish_idle hphase))

/-- The apply loop, or the handler that is about to signal it, can take the step. -/
def Enabled (h : Host σ) : Move → Prop
  | .signal => h.routines.signalling = true
  | .wake => h.routines.applyLoop = .waiting ∧ h.routines.applyNow = true
  | .apply => ∃ i, nextApply h.routines.applyLoop h.raft.apply = some i ∧
      ¬ (i = .snapshotBegin ∧ h.routines.signalling = true)
  | _ => False

theorem nextApply_of_fits {loop : ApplyLoop} {phase : ApplyPhase} (h : Fits loop phase)
    (hwaiting : loop ≠ .waiting) (hended : loop ≠ .ended) : ∃ i, nextApply loop phase = some i := by
  cases loop with
  | waiting => exact absurd rfl hwaiting
  | ended => exact absurd rfl hended
  | applying =>
    cases phase with
    | snapshotting b => cases h.1
    | snapshotSaved b => cases h.1
    | stopped => exact absurd rfl h.2
    | _ => exact ⟨_, rfl⟩
  | snapshotting =>
    cases phase with
    | idle => exact ⟨_, rfl⟩
    | snapshotting b => exact ⟨_, rfl⟩
    | snapshotSaved b => exact ⟨_, rfl⟩
    | _ => rcases h with h | h <;> cases h

/-- Every such step brings the node closer to rest, whatever the stores answer. -/
theorem Enabled.closer (hs : Sim C s (C.run actions)) (hup : s.sites n = .up h) (ha : Awake h)
    {m : Move} (hm : Enabled h m) (hran : move C s.net n h answers m = .ran h' sent) :
    h'.raft.commitIndex = h.raft.commitIndex ∧ restIn h' < restIn h := by
  cases m with
  | signal =>
    have hsignal : h.routines.signalling = true := hm
    simp only [move, if_pos hsignal] at hran
    obtain ⟨rfl, -⟩ := Turn.ran.inj hran
    refine ⟨rfl, ?_⟩
    simp only [restIn, hsignal, ↓reduceIte, Bool.false_eq_true]
    split <;> omega
  | wake =>
    obtain ⟨hloop, hnow⟩ := hm
    have hidle : h.raft.apply = .idle := by
      have := ha.fits
      rwa [hloop] at this
    simp only [move, if_pos (⟨hloop, hnow⟩ : _ ∧ _)] at hran
    obtain ⟨rfl, -⟩ := Turn.ran.inj hran
    refine ⟨rfl, ?_⟩
    simp only [restIn, hloop, hnow, hidle, place, ↓reduceIte, Bool.false_eq_true]
    omega
  | apply =>
    obtain ⟨i, hi, hfree⟩ := hm
    simp only [move, hi, if_neg hfree] at hran
    obtain ⟨out, r', d', hrun, rfl, -⟩ := ran_of_stepNode hran
    obtain ⟨hcommit, hless⟩ := place_apply hs hup ha hi hrun
    refine ⟨hcommit, ?_⟩
    simp only [restIn]
    omega
  | _ => exact hm.elim

theorem Enabled.closer_perform {events : List Event} (hup : (run C events).sites n = .up h)
    {m : Move} (hm : Enabled h m)
    (hup' : (perform C (run C events) (.move n m answers)).sites n = .up h') :
    h'.raft.commitIndex = h.raft.commitIndex ∧ restIn h' < restIn h := by
  obtain ⟨actions, hs, -⟩ := exists_sim C events
  have hmember := (Cluster.up_ballot (hs.node hup)).1
  simp only [perform, hup, if_pos hmember] at hup'
  cases hturn : move C (run C events).net n h answers m with
  | died d' =>
    rw [hturn] at hup'
    simp only [System.after, Function.update_self] at hup'
    cases hup'
  | ran h₂ sent =>
    rw [hturn] at hup'
    simp only [System.after, Function.update_self] at hup'
    obtain rfl := Site.up.inj hup'
    exact hm.closer hs hup (awake_run C _ hup) hturn

/-- Where no such step is possible, the loop is at rest. -/
theorem rest_of_not_enabled (ha : Awake h) (hno : ∀ m, ¬ Enabled h m) :
    h.routines.applyLoop = .ended ∨ Asleep h := by
  have hsignal : h.routines.signalling = false := Bool.eq_false_iff.mpr (hno .signal)
  by_cases hended : h.routines.applyLoop = .ended
  · exact .inl hended
  by_cases hloop : h.routines.applyLoop = .waiting
  · exact .inr ⟨hloop, Bool.eq_false_iff.mpr fun hnow => hno .wake ⟨hloop, hnow⟩, hsignal⟩
  · obtain ⟨i, hi⟩ := nextApply_of_fits ha.fits hloop hended
    refine absurd ⟨i, hi, fun hblocked => ?_⟩ (hno .apply)
    rw [hsignal] at hblocked
    cases hblocked.2

/-- A loop that is asleep can take no step. -/
theorem Asleep.not_enabled (hasleep : Asleep h) (m : Move) : ¬ Enabled h m := by
  obtain ⟨hloop, hnow, hsignal⟩ := hasleep
  cases m with
  | signal => exact Bool.eq_false_iff.mp hsignal
  | wake => exact fun hm => Bool.eq_false_iff.mp hnow hm.2
  | apply =>
    rintro ⟨i, hi, -⟩
    rw [hloop] at hi
    cases hi
  | _ => exact id

theorem restIn_le (h : Host σ) :
    restIn h ≤ 3 * (h.raft.commitIndex - h.raft.lastApplied) + 25 := by
  have hplace : place h.routines.applyLoop h.raft.apply ≤ 4 := by
    unfold place
    split <;> omega
  simp only [restIn]
  split <;> split <;> omega

/-- Steps of one node, with what its stores answer. -/
def movesOf (n : Int) (moves : List (Move × List Outcome)) : List Event :=
  moves.map fun m => .move n m.1 m.2

/-- A sequence of possible steps costs as much of the bound as it is long. -/
theorem restIn_moves {events : List Event} (hup : (run C events).sites n = .up h)
    {moves : List (Move × List Outcome)}
    (hmoves : ∀ k m, moves[k]? = some m → ∃ h',
      (run C (events ++ movesOf n (moves.take k))).sites n = .up h' ∧ Enabled h' m.1)
    (hup' : (run C (events ++ movesOf n moves)).sites n = .up h') :
    h'.raft.commitIndex = h.raft.commitIndex ∧ restIn h' + moves.length ≤ restIn h := by
  induction moves using List.reverseRecOn generalizing h' with
  | nil =>
    simp only [movesOf, List.map_nil, List.append_nil] at hup'
    obtain rfl := Site.up.inj (hup.symm.trans hup')
    exact ⟨rfl, Nat.le_refl _⟩
  | append_singleton moves m ih =>
    obtain ⟨h₁, hup₁, hm⟩ := hmoves moves.length m List.getElem?_concat_length
    rw [List.take_left] at hup₁
    obtain ⟨hcommit, hrest⟩ := ih (fun k m' hk => by
      have hlt := (List.getElem?_eq_some_iff.mp hk).1
      have := hmoves k m' (by rw [List.getElem?_append_left hlt]; exact hk)
      rwa [List.take_append_of_le_length hlt.le] at this) hup₁
    simp only [movesOf, List.map_append, List.map_cons, List.map_nil, ← List.append_assoc,
      run_append] at hup'
    obtain ⟨hcommit', hless⟩ := hm.closer_perform hup₁ hup'
    refine ⟨hcommit'.trans hcommit, ?_⟩
    rw [List.length_append, List.length_singleton]
    omega

/-- Left to itself, the apply loop comes to rest: whatever steps it takes, and the
handler that is about to signal it, there are no more of them than how far it is
behind allows; and where none is possible any more it waits and has applied
everything that is committed, or it has stopped and recorded why. -/
theorem apply_loop_settles {events : List Event} (hup : (run C events).sites n = .up h)
    {moves : List (Move × List Outcome)}
    (hmoves : ∀ k m, moves[k]? = some m → ∃ h',
      (run C (events ++ movesOf n (moves.take k))).sites n = .up h' ∧ Enabled h' m.1)
    (hup' : (run C (events ++ movesOf n moves)).sites n = .up h') :
    moves.length ≤ 3 * (h.raft.commitIndex - h.raft.lastApplied) + 25 ∧
      h'.raft.commitIndex = h.raft.commitIndex ∧
      ((∀ m, ¬ Enabled h' m) →
        h'.routines.applyLoop = .ended ∧ h'.raft.applyErr ≠ none ∨
          Asleep h' ∧ h'.raft.commitIndex ≤ h'.raft.lastApplied) := by
  obtain ⟨hcommit, hrest⟩ := restIn_moves hup hmoves hup'
  have hbound := restIn_le h
  have hawake := awake_run C _ hup'
  refine ⟨by omega, hcommit, fun hno => ?_⟩
  rcases rest_of_not_enabled hawake hno with hended | hasleep
  · exact .inl ⟨hended, hawake.error hended⟩
  · exact .inr ⟨hasleep, hawake.applied_of_asleep hasleep⟩

/-- The entry is selected, applied and checkpointed, a snapshot is taken, and the
loop goes back to its `select`. -/
def settlingMoves : List (Move × List Outcome) := (.wake, []) :: List.replicate 7 (.apply, [])

theorem apply_loop_settles_committedEvents :
    ∃ h h', (run (localCluster 1) committedEvents).sites 1 = .up h ∧ h.raft.commitIndex = 1 ∧
      h.raft.lastApplied = 0 ∧
      (run (localCluster 1) (committedEvents ++ movesOf 1 settlingMoves)).sites 1 = .up h' ∧
      settlingMoves.length ≤ 28 ∧ Asleep h' ∧ h'.raft.commitIndex ≤ h'.raft.lastApplied := by
  obtain ⟨h', hup', hasleep⟩ : ∃ h',
      (run (localCluster 1) (committedEvents ++ movesOf 1 settlingMoves)).sites 1 = .up h' ∧
        Asleep h' := ⟨_, rfl, rfl, rfl, rfl⟩
  refine ⟨_, h', rfl, rfl, rfl, hup', ?_⟩
  have hmoves : ∀ k m, settlingMoves[k]? = some m → ∃ h',
      (run (localCluster 1) (committedEvents ++ movesOf 1 (settlingMoves.take k))).sites 1 =
        .up h' ∧ Enabled h' m.1 := by
    intro k m hk
    rcases k with _ | _ | _ | _ | _ | _ | _ | _ | k
    · obtain rfl := Option.some.inj hk
      exact ⟨_, rfl, rfl, rfl⟩
    iterate 7
      obtain rfl := Option.some.inj hk
      exact ⟨_, rfl, _, rfl, fun hblocked => Bool.false_ne_true hblocked.2⟩
    · cases hk
  obtain ⟨hlen, -, hrest⟩ := @apply_loop_settles _ (localCluster 1) 1 _ _ committedEvents rfl
    settlingMoves hmoves hup'
  refine ⟨hlen, ?_⟩
  rcases hrest hasleep.not_enabled with ⟨hended, -⟩ | hrest
  · cases hasleep.1.symm.trans hended
  · exact hrest

end DistributedKv.Goroutines
