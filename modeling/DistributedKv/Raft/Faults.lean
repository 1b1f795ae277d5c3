import DistributedKv.Raft.Effect

/-!
The operations of a node when store calls may do anything: succeed, fail, fail
after writing, or kill the process. Each of them is a sequence of effects on the
memory, and at every store call the files hold a ballot that is not behind.
-/

namespace DistributedKv

open Crash Prog

variable {σ : Type} {env : Env σ} {i : Input} {r₀ r r' : Raft σ} {d d' : Disk}

/-- The memory came from `r₀` by effects, and the stored ballot is not behind. -/
structure Evolves (env : Env σ) (i : Input) (r₀ r : Raft σ) (d : Disk) : Prop where
  effects : Effects env r₀ i r
  ahead : Ahead r d.stable

/-- Files that a process left which had come from `r₀` by effects. -/
def Leaves (env : Env σ) (i : Input) (r₀ : Raft σ) (d : Disk) : Prop :=
  ∃ r, Evolves env i r₀ r d

theorem Evolves.leaves (h : Evolves env i r₀ r d) : Leaves env i r₀ d := ⟨r, h⟩

theorem Evolves.refl (h : Ahead r d.stable) : Evolves env i r r d := ⟨.refl, h⟩

theorem Evolves.of_stable (h : Evolves env i r₀ r d) (hd : d'.stable = d.stable) :
    Evolves env i r₀ r d' := ⟨h.effects, hd ▸ h.ahead⟩

/-- An effect that leaves the ballot alone. -/
theorem Evolves.step (h : Evolves env i r₀ r d) (he : Effect env r₀ i r r')
    (ht : r'.currentTerm = r.currentTerm) (hv : r'.votedFor = r.votedFor) :
    Evolves env i r₀ r' d where
  effects := h.effects.tail he
  ahead := by
    unfold Ahead
    rw [ht, hv]
    exact h.ahead

/-! ## Store calls -/

section Stores

variable {Q : Except String Unit → Raft σ → Disk → Prop} (h : Evolves env i r₀ r d)

include h

/-- Saving a ballot that is not behind. -/
theorem Evolves.wp_save {st : StableState} (hst : Ahead r st)
    (hok : ∀ d', d'.stable = st → Q (.ok ()) r d')
    (herr : ∀ err d', Evolves env i r₀ r d' → Q (.error err) r d') :
    wp Any (Leaves env i r₀) (store (Disk.saveStable st)) Q r d := by
  have hnew : Evolves env i r₀ r { d with stable := st } := ⟨h.effects, hst⟩
  rw [wp_store]
  cases hrun : (Disk.saveStable st).run d with
  | error err => exact herr err d h
  | ok d' =>
    obtain ⟨-, rfl⟩ := Disk.saveStable_ok_iff.mp hrun
    refine ⟨hok _ rfl, fun err _ => herr err d h, fun err _ => herr err _ hnew, fun n _ => ?_⟩
    rcases Disk.replace_part _ n d with hpart | hpart
    · exact (h.of_stable (congrArg Disk.stable hpart)).leaves
    · obtain ⟨-, heq⟩ := Disk.saveStable_ok_iff.mp hpart
      exact (hnew.of_stable (congrArg Disk.stable heq)).leaves

/-- A call that does not touch the stable state, whatever comes of it. -/
theorem Evolves.wp_store {w : Write Disk} (hrun : ∀ {d d'}, w.run d = .ok d' → d'.stable = d.stable)
    (hpart : ∀ n d, (w.part n d).stable = d.stable)
    (hok : ∀ d', Evolves env i r₀ r d' → Q (.ok ()) r d')
    (herr : ∀ err d', Evolves env i r₀ r d' → Q (.error err) r d') :
    wp Any (Leaves env i r₀) (store w) Q r d := by
  rw [Prog.wp_store]
  cases hw : w.run d with
  | error err => exact herr err d h
  | ok d' =>
    have h' := h.of_stable (hrun hw)
    exact ⟨hok d' h', fun err _ => herr err d h, fun err _ => herr err d' h',
      fun n _ => (h.of_stable (hpart n d)).leaves⟩

theorem Evolves.wp_replace {run : Disk → Except String Disk}
    (hrun : ∀ {d d'}, run d = .ok d' → d'.stable = d.stable)
    (hok : ∀ d', Evolves env i r₀ r d' → Q (.ok ()) r d')
    (herr : ∀ err d', Evolves env i r₀ r d' → Q (.error err) r d') :
    wp Any (Leaves env i r₀) (store (Disk.replace run)) Q r d := by
  refine h.wp_store hrun (fun n d => ?_) hok herr
  rcases Disk.replace_part run n d with hpart | hpart
  · rw [hpart]
  · exact hrun hpart

theorem Evolves.wp_appendLog {es : List LogEntry}
    (hok : ∀ d', Contiguous es → Evolves env i r₀ r d' → Q (.ok ()) r d')
    (herr : ∀ err d', Evolves env i r₀ r d' → Q (.error err) r d') :
    wp Any (Leaves env i r₀) (store (Disk.appendLog es)) Q r d := by
  cases hes : LogStore.append es d.log with
  | error err =>
    rw [Prog.wp_store]
    simp only [Disk.appendLog, hes]
    exact herr err d h
  | ok l =>
    have hcont := ((LogStore.append_ok_iff es d.log l).mp hes).1
    refine h.wp_store (fun {d d'} hd => ?_) (fun _ _ => rfl) (fun d' hd' => hok d' hcont hd') herr
    simp only [Disk.appendLog] at hd
    split at hd
    · cases hd
    · rw [← Except.ok.inj hd]

theorem Evolves.wp_truncateFrom {index : Nat}
    (hok : ∀ d', Evolves env i r₀ r d' → Q (.ok ()) r d')
    (herr : ∀ err d', Evolves env i r₀ r d' → Q (.error err) r d') :
    wp Any (Leaves env i r₀) (store (Disk.truncateFrom index)) Q r d := by
  refine h.wp_replace (fun {d d'} hd => ?_) hok herr
  split at hd
  · cases hd
  · rw [← Except.ok.inj hd]

theorem Evolves.wp_compactThrough {index : Nat}
    (hok : ∀ d', Evolves env i r₀ r d' → Q (.ok ()) r d')
    (herr : ∀ err d', Evolves env i r₀ r d' → Q (.error err) r d') :
    wp Any (Leaves env i r₀) (store (Disk.compactThrough index)) Q r d := by
  refine h.wp_replace (fun {d d'} hd => ?_) hok herr
  split at hd
  · cases hd
  · rw [← Except.ok.inj hd]

theorem Evolves.wp_saveSnapshot {s : Snapshot}
    (hok : ∀ d', Evolves env i r₀ r d' → Q (.ok ()) r d')
    (herr : ∀ err d', Evolves env i r₀ r d' → Q (.error err) r d') :
    wp Any (Leaves env i r₀) (store (Disk.saveSnapshot s)) Q r d := by
  refine h.wp_replace (fun {d d'} hd => ?_) hok herr
  split at hd
  · cases hd
  · rw [← Except.ok.inj hd]

theorem Evolves.wp_attempt (hok : ∀ d', Evolves env i r₀ r d' → Q (.ok ()) r d')
    (herr : ∀ err d', Evolves env i r₀ r d' → Q (.error err) r d') :
    wp Any (Leaves env i r₀) (attempt : Op σ _) Q r d := by
  refine h.wp_store (fun {d d'} hd => ?_) (fun _ _ => rfl) hok herr
  rw [← Except.ok.inj hd]

end Stores

/-- The ballot that is in memory, with any indexes. -/
theorem Ahead.same (commitIndex lastApplied : Nat) :
    Ahead r ⟨r.currentTerm, r.votedFor, commitIndex, lastApplied⟩ := .inr ⟨rfl, .inr rfl⟩

/-! ## Roles and votes -/

theorem becomeFollowerLocked_effects (h : Evolves env i r₀ r d) {term : Nat} {leaderID : Int}
    (hgt : r.currentTerm < term) (hl : leaderID = unknownLeader ∨ i.Claims term leaderID) :
    wp Any (Leaves env i r₀) (becomeFollowerLocked term leaderID)
      (fun out r' d' => Evolves env i r₀ r' d' ∧
        (out = .ok () → r'.currentTerm = term) ∧ (out ≠ .ok () → r' = r)) r d := by
  simp only [becomeFollowerLocked, saveStableLocked, saveStableValuesLocked, wp_bind, wp_read,
    wp_ite, wp_pure, wp_modify]
  refine ⟨fun hlt => by omega, fun _ => ⟨fun _ => ?_, fun hle => by omega⟩⟩
  refine h.wp_save (.inl hgt) (fun d' hd' => ?_) fun err d' hd' => ?_
  · simp only [wp_bind, wp_modify, wp_pure]
    refine ⟨⟨h.effects.tail (.raise i r term leaderID hgt hl), ?_⟩, fun _ => trivial, fun hne => ?_⟩
    · exact .inr ⟨by rw [hd'], .inl rfl⟩
    · exact absurd rfl hne
  · exact ⟨hd', by simp, fun _ => rfl⟩

theorem startElection_effects (hmaj : env.majority ≠ 1) (h : Ahead r d.stable) :
    wp Any (Leaves env .electionTimeout r) (startElection env)
      (fun out r' d' => Ahead r' d'.stable ∧ match out with
        | none => r' = r
        | some req => r' = r.stood env.id ∧ req.term = r.currentTerm + 1 ∧
            req.candidateID = env.id) r d := by
  have hev : Evolves env .electionTimeout r r d := .refl h
  simp only [startElection, becomeCandidateLocked, saveStableLocked, saveStableValuesLocked, wp_bind,
    wp_read]
  refine hev.wp_save (.inl (Nat.lt_succ_self _)) (fun d' hd' => ?_) fun err d' hd' => ?_
  · simp only [wp_bind, wp_modify, wp_pure, wp_read, wp_ite]
    refine ⟨fun h1 => absurd h1 hmaj, fun _ => ⟨.inr ⟨by rw [hd'], .inr (by rw [hd'])⟩, ?_⟩⟩
    exact ⟨rfl, trivial, trivial⟩
  · simp only [wp_pure]
    exact ⟨hd'.ahead, trivial⟩

section Votes

variable {peer : Int} {resp : RequestVoteResponse}

theorem becomeLeaderLocked_effects {e : Election}
    (h : Evolves env (.voteResponse peer e.term resp) r₀ r d) (he : r.election = some e)
    (ht : r.currentTerm = e.term) (hc : r.state = .candidate)
    (hr : resp.term = e.term ∧ resp.voteGranted = true) :
    wp Any (Leaves env (.voteResponse peer e.term resp) r₀) (becomeLeaderLocked env)
      (fun _ r' d' => Evolves env (.voteResponse peer e.term resp) r₀ r' d') r d := by
  simp only [becomeLeaderLocked, wp_bind, wp_read]
  refine h.wp_appendLog (fun d' _ hd' => ?_) fun err d' hd' => hd'
  simp only [wp_bind, wp_modify, wp_pure]
  exact hd'.step (.lead r peer resp e he ht hc hr) rfl rfl

theorem receiveVote_effects {term : Nat} (h : Evolves env (.voteResponse peer term resp) r₀ r d) :
    wp Any (Leaves env (.voteResponse peer term resp) r₀) (receiveVote env peer term resp)
      (fun _ r' d' => Evolves env (.voteResponse peer term resp) r₀ r' d') r d := by
  have hend : ∀ {r' : Raft σ} {d'}, Evolves env (.voteResponse peer term resp) r₀ r' d' →
      Evolves env (.voteResponse peer term resp) r₀ { r' with election := none } d' :=
    fun hr => hr.step (.retire _ peer term resp) rfl rfl
  simp only [receiveVote, wp_bind, wp_read]
  cases he : r.election with
  | none => exact h
  | some e =>
    simp only [wp_ite, wp_bind, wp_modify, wp_pure]
    refine ⟨fun _ => h, fun hfirst => ⟨fun hterm => ?_, fun _ => ⟨fun _ => hend h, fun hrole =>
      ⟨fun hgranted => ⟨fun _ => ?_, fun _ => ?_⟩, fun _ => ?_⟩⟩⟩⟩
    all_goals
      obtain ⟨hsame, hnew⟩ := not_or.mp hfirst
      obtain rfl := not_not.mp hsame
    · refine wp_mono _ _ _ (becomeFollowerLocked_effects h hterm (.inl rfl)) ?_ fun _ hd => hd
      exact fun _ _ _ hr => hend hr.1
    · obtain ⟨hcand, hcur⟩ := not_or.mp hrole
      refine wp_mono _ _ _ (becomeLeaderLocked_effects h he (not_not.mp hcur) (not_not.mp hcand)
        hgranted) ?_ fun _ hd => hd
      exact fun _ _ _ hr => hend hr
    · exact h.step (.count r peer resp e _ he) rfl rfl
    · exact h.step (.count r peer resp e _ he) rfl rfl

end Votes

section Ballots

variable {req : RequestVoteRequest}

theorem voteInTerm_effects (h : Evolves env (.voteRequest req) r₀ r d)
    (ht : r.currentTerm = req.term) :
    wp Any (Leaves env (.voteRequest req) r₀) (voteInTerm req)
      (fun resp r' d' => Evolves env (.voteRequest req) r₀ r' d' ∧ (resp.voteGranted = true →
        r'.currentTerm = req.term ∧ resp.term = req.term ∧ r'.votedFor = req.candidateID)) r d := by
  simp only [voteInTerm, saveStableLocked, saveStableValuesLocked, wp_bind, wp_read, wp_ite, wp_pure]
  refine ⟨fun _ => ⟨h, by simp⟩, fun hfree => ⟨fun _ => ⟨h, by simp⟩, fun _ => ⟨fun hne => ?_,
    fun heq => ⟨h, fun _ => ⟨ht, ht, not_not.mp heq⟩⟩⟩⟩⟩
  have hnone : r.votedFor = noVote := by
    by_contra hsome
    exact hfree ⟨hsome, hne⟩
  refine h.wp_save (.inr ⟨rfl, .inl hnone⟩) (fun d' hd' => ?_) fun err d' hd' => ⟨hd', by simp⟩
  simp only [wp_bind, wp_modify, wp_pure]
  refine ⟨⟨h.effects.tail (.vote r req ht hnone), ?_⟩, fun _ => ⟨ht, ht, trivial⟩⟩
  exact .inr ⟨by rw [hd'], .inr (by rw [hd'])⟩

theorem handleRequestVote_effects (h : Evolves env (.voteRequest req) r₀ r d) :
    wp Any (Leaves env (.voteRequest req) r₀) (handleRequestVote req)
      (fun resp r' d' => Evolves env (.voteRequest req) r₀ r' d' ∧ (resp.voteGranted = true →
        r'.currentTerm = req.term ∧ resp.term = req.term ∧ r'.votedFor = req.candidateID)) r d := by
  simp only [handleRequestVote, wp_bind, wp_read, wp_ite, wp_pure]
  refine ⟨fun _ => ⟨h, by simp⟩, fun hge => ⟨fun hgt => ?_, fun hle =>
    voteInTerm_effects h (by omega)⟩⟩
  refine wp_mono _ _ _ (becomeFollowerLocked_effects h hgt (.inl rfl)) ?_ fun _ hd => hd
  rintro (err | _) r₁ d₁ ⟨h₁, hterm, -⟩
  · exact ⟨h₁, by simp⟩
  · exact voteInTerm_effects h₁ (hterm rfl)

end Ballots

/-! ## Replication -/

/-- Recognizing a leader changes the ballot and the role only. -/
theorem recognizeLeader_effects (h : Evolves env i r₀ r d) {term : Nat} {leaderID : Int}
    (hle : r.currentTerm ≤ term) (hl : i.Claims term leaderID) :
    wp Any (Leaves env i r₀) (recognizeLeader term leaderID)
      (fun out r' d' => Evolves env i r₀ r' d' ∧ (out = .ok () → r'.currentTerm = term) ∧
        r.Unmoved r') r d := by
  simp only [recognizeLeader, becomeFollowerLocked, saveStableLocked, saveStableValuesLocked, wp_bind,
    wp_read, wp_ite, wp_pure, wp_modify]
  refine ⟨fun hgt => ⟨fun hlt => by omega, fun _ => ⟨fun _ => ?_, fun hle => by omega⟩⟩, fun hle =>
    ⟨?_, fun _ => by omega, ⟨rfl, rfl, rfl, rfl, rfl, rfl⟩⟩⟩
  · refine h.wp_save (.inl hgt) (fun d' hd' => ?_) fun err d' hd' => ⟨hd', by simp, .refl r⟩
    simp only [wp_bind, wp_modify, wp_pure]
    refine ⟨⟨h.effects.tail (.raise i r term leaderID hgt (.inr hl)), ?_⟩, fun _ => trivial,
      ⟨rfl, rfl, rfl, rfl, rfl, rfl⟩⟩
    exact .inr ⟨by rw [hd'], .inl rfl⟩
  · have hterm : term = r.currentTerm := by omega
    exact h.step (.follow i r leaderID (hterm ▸ hl)) rfl rfl

section Append

variable {req : AppendEntriesRequest} {truncateFrom : Nat} {entries l : List LogEntry}

theorem truncateLog_effects (h : Evolves env i r₀ r d) :
    wp Any (Leaves env i r₀) (truncateLog truncateFrom)
      (fun out r' d' => Evolves env i r₀ r d' ∧ (out = false → r' = r) ∧
        (out = true → ∃ l, r.cutAt truncateFrom = some l ∧ r' = { r with log := l })) r d := by
  unfold truncateLog Raft.cutAt
  by_cases h0 : truncateFrom = 0
  · simp only [if_pos h0, wp_pure]
    exact ⟨h, by simp, fun _ => ⟨r.log, rfl, rfl⟩⟩
  · simp only [if_neg h0, wp_bind]
    refine h.wp_truncateFrom (fun d' hd' => ?_) fun err d' hd' => ⟨hd', fun _ => rfl, by simp⟩
    simp only [wp_bind, wp_read]
    cases hoff : r.logOffsetLocked truncateFrom with
    | none => exact ⟨hd', fun _ => rfl, by simp⟩
    | some offset => exact ⟨hd', by simp, fun _ => ⟨_, rfl, rfl⟩⟩

theorem appendEntries_effects (h : Evolves env (.appendRequest req) r₀ r d) (hu : r₀.Unmoved r)
    (hm : r.matchesPrefixLocked req.prevLogIndex req.prevLogTerm = true)
    (hplan : r.replicationPlanLocked req.prevLogIndex req.entries = .ok (truncateFrom, entries))
    (hl : r.cutAt truncateFrom = some l) (ht : r₀.currentTerm ≤ req.term) :
    wp Any (Leaves env (.appendRequest req) r₀) (appendEntries entries)
      (fun _ r' d' => Evolves env (.appendRequest req) r₀ r' d') { r with log := l } d := by
  have hcut : Evolves env (.appendRequest req) r₀ { r with log := l } d :=
    h.step (.cut r req truncateFrom entries l hu hm hplan hl ht) rfl rfl
  unfold appendEntries
  by_cases hnil : entries = []
  · rw [if_pos hnil]
    exact hcut
  · rw [if_neg hnil]
    simp only [wp_bind]
    refine hcut.wp_appendLog (fun d' hes hd' => ?_) fun err d' hd' => hd'
    exact ⟨h.effects.tail (.merge r req truncateFrom entries l hu hm hplan hl hes ht), hd'.ahead⟩

theorem followCommit_effects (h : Evolves env (.appendRequest req) r₀ r d) :
    wp Any (Leaves env (.appendRequest req) r₀) (followCommit req.leaderCommit)
      (fun _ r' d' => Evolves env (.appendRequest req) r₀ r' d') r d := by
  simp only [followCommit, saveStableValuesLocked, wp_bind, wp_read, wp_ite, wp_pure]
  refine ⟨fun hlt => ?_, fun _ => h⟩
  refine h.wp_save (.same _ _) (fun d' hd' => ?_) fun err d' hd' => hd'
  refine Evolves.step ⟨h.effects, ?_⟩ (.followCommit r req hlt) rfl rfl
  rw [hd']
  exact .same _ _

theorem handleAppendEntries_effects (h : Evolves env (.appendRequest req) r r d) :
    wp Any (Leaves env (.appendRequest req) r) (handleAppendEntries req)
      (fun _ r' d' => Evolves env (.appendRequest req) r r' d') r d := by
  simp only [handleAppendEntries, wp_bind, wp_read, wp_ite, wp_pure]
  refine ⟨fun _ => h, fun hge => ?_⟩
  refine wp_mono _ _ _ (recognizeLeader_effects h (by omega) ⟨rfl, rfl⟩) ?_ fun _ hd => hd
  rintro (err | _) r₁ d₁ ⟨h₁, -, hu⟩
  · exact h₁
  simp only [wp_bind, wp_read, wp_ite, wp_pure]
  refine ⟨fun _ => h₁, fun hm => ?_⟩
  rw [Bool.not_eq_false] at hm
  cases hplan : r₁.replicationPlanLocked req.prevLogIndex req.entries with
  | error err => exact h₁
  | ok plan =>
    obtain ⟨truncateFrom, entries⟩ := plan
    simp only [wp_bind]
    refine wp_mono _ _ _ (truncateLog_effects h₁) ?_ fun _ hd => hd
    rintro (_ | _) r₂ d₂ ⟨h₂, hfalse, htrue⟩
    · obtain rfl := hfalse rfl
      exact h₂
    obtain ⟨l, hl, rfl⟩ := htrue rfl
    simp only [wp_bind, wp_ite, wp_pure, Bool.true_eq_false, false_implies, true_and]
    refine fun _ => wp_mono _ _ _ (appendEntries_effects h₂ hu hm hplan hl (by omega)) ?_
      fun _ hd => hd
    intro out r₃ d₃ h₃
    refine ⟨fun _ => h₃, fun _ => wp_mono _ _ _ (followCommit_effects h₃) ?_ fun _ hd => hd⟩
    exact fun _ _ _ h₄ => ⟨fun _ => h₄, fun _ => h₄⟩

end Append

/-! ## Snapshot installation -/

section Install

variable {req : InstallSnapshotRequest}

theorem discardLog_effects (h : Evolves env i r₀ r d) (suffix : Option (List LogEntry))
    (index : Nat) :
    wp Any (Leaves env i r₀) (discardLog suffix index)
      (fun _ r' d' => r' = r ∧ Evolves env i r₀ r d') r d := by
  simp only [discardLog, wp_bind, wp_read]
  cases suffix with
  | some l =>
    simp only [wp_bind]
    refine h.wp_compactThrough (fun d' hd' => ?_) fun err d' hd' => ?_
    · exact ⟨rfl, hd'⟩
    · exact ⟨rfl, hd'⟩
  | none =>
    simp only [wp_ite, wp_bind, wp_pure]
    refine ⟨fun _ => h.wp_truncateFrom (fun d' hd' => ?_) fun err d' hd' => ?_, fun _ => ⟨trivial, h⟩⟩
    · exact ⟨rfl, hd'⟩
    · exact ⟨rfl, hd'⟩

theorem installSnapshot_effects {sn : Snapshotter σ} (hsn : env.snapshotter = some sn)
    (h : Evolves env (.installRequest req) r₀ r d) (hu : r₀.Unmoved r) (hi : r.Installs req) :
    wp Any (Leaves env (.installRequest req) r₀) (installSnapshot sn req)
      (fun _ r' d' => Evolves env (.installRequest req) r₀ r' d') r d := by
  simp only [installSnapshot, wp_bind, wp_read]
  refine h.wp_saveSnapshot (fun d₁ h₁ => ?_) fun err d' hd' => hd'
  simp only [wp_bind]
  refine wp_mono _ _ _ (discardLog_effects h₁ _ _) ?_ fun _ hd => hd
  rintro (err | _) _ d₂ ⟨rfl, h₂⟩
  · exact h₂
  simp only [restoreStore, saveStableValuesLocked, wp_bind]
  refine h₂.wp_attempt (fun d₃ h₃ => ?_) fun err d' hd' => hd'
  cases hst : sn.restore req.data with
  | error err => exact h₃
  | ok st =>
    simp only [wp_bind, wp_modify, wp_pure]
    have h₄ := h₃.step (.restore _ req sn st hsn hst hi) rfl rfl
    refine h₄.wp_save (.same _ _) (fun d' hd' => ?_) fun err d' hd' => hd'
    refine Evolves.step ⟨h₄.effects, ?_⟩ (.install _ req ⟨hu.log, hu.snapshotMeta,
      hu.commitIndex, hu.lastApplied, hu.pendingResults, hu.apply⟩
      ⟨hi.term, hi.metadata, hi.data, hi.above, hi.free⟩) rfl rfl
    rw [hd']
    exact .same _ _

theorem handleInstallSnapshot_effects (h : Evolves env (.installRequest req) r r d)
    (hfree : r.apply.holdsSnapshotMu = false) :
    wp Any (Leaves env (.installRequest req) r) (handleInstallSnapshot env req)
      (fun _ r' d' => Evolves env (.installRequest req) r r' d') r d := by
  simp only [handleInstallSnapshot, wp_bind, wp_read, wp_ite, wp_pure]
  refine ⟨fun _ => h, fun hge => ?_⟩
  refine wp_mono _ _ _ (recognizeLeader_effects h (by omega) ⟨rfl, rfl⟩) ?_ fun _ hd => hd
  rintro (err | _) r₁ d₁ ⟨h₁, hterm, hu⟩
  · exact h₁
  simp only [wp_bind, wp_read]
  cases hsn : env.snapshotter with
  | none => exact h₁
  | some sn =>
    cases hmeta : SnapshotMetadata.validate ⟨req.lastIncludedIndex, req.lastIncludedTerm⟩ with
    | error err => exact h₁
    | ok _ =>
      simp only [wp_ite, wp_pure]
      refine ⟨fun _ => h₁, fun hdata => ⟨fun _ => h₁, fun habove => ?_⟩⟩
      exact installSnapshot_effects hsn h₁ hu
        ⟨hterm rfl, hmeta, hdata, by omega, hu.apply ▸ hfree⟩

end Install

/-! ## Proposals and responses -/

theorem propose_effects {command : Command} (h : Evolves env (.propose command) r r d) :
    wp Any (Leaves env (.propose command) r) (propose env command)
      (fun out r' d' => Evolves env (.propose command) r r' d' ∧ match out with
        | .error _ => r' = r
        | .ok (index, channel) => r' = r.proposed command ∧
            index = (r.nextEntry command).index ∧ channel = r.channels.length) r d := by
  simp only [propose]
  cases hval : command.validate with
  | error err => exact ⟨h, rfl⟩
  | ok _ =>
    simp only [wp_bind, wp_read, wp_ite, wp_pure]
    refine ⟨fun _ => ⟨h, trivial⟩, fun hlead => ⟨fun _ => ⟨h, trivial⟩, fun _ => ?_⟩⟩
    cases herr : r.applyErr with
    | some err => exact ⟨h, rfl⟩
    | none =>
      simp only [wp_bind]
      refine h.wp_appendLog (fun d' _ hd' => ?_) fun err d' hd' => ⟨hd', rfl⟩
      simp only [wp_bind, wp_modify, wp_pure]
      exact ⟨hd'.step (.propose r command hval (not_not.mp hlead) herr) rfl rfl, rfl, rfl, trivial⟩

theorem handleAppendEntriesResponse_effects {peer : Int} {req : AppendEntriesRequest}
    {resp : AppendEntriesResponse} (h : Evolves env (.appendResponse peer req resp) r₀ r d) :
    wp Any (Leaves env (.appendResponse peer req resp) r₀)
      (handleAppendEntriesResponse env peer req resp)
      (fun _ r' d' => Evolves env (.appendResponse peer req resp) r₀ r' d') r d := by
  simp only [handleAppendEntriesResponse, wp_bind, wp_read, wp_ite, wp_pure, wp_modify]
  refine ⟨fun hgt => ?_, fun _ => ⟨fun _ => h, fun hlead => ⟨fun _ => ⟨fun _ => h, fun _ => ?_⟩,
    fun hs => ?_⟩⟩⟩
  · refine wp_mono _ _ _ (becomeFollowerLocked_effects h hgt (.inl rfl)) ?_ fun _ hd => hd
    exact fun _ _ _ hr => hr.1
  · exact h.step (.backUp r peer req resp) rfl rfl
  · push Not at hlead
    obtain ⟨hl, ht, hr⟩ := hlead
    have h₁ := h.step (.recordAppend r peer req resp hl ht hr (by simpa using hs)) rfl rfl
    simp only [advanceCommitIndexLocked, saveStableValuesLocked, wp_bind, wp_read]
    split
    · exact h₁
    · rename_i index hindex
      simp only [wp_bind]
      refine h₁.wp_save (.same _ _) (fun d' hd' => ?_) fun err d' hd' => hd'
      refine Evolves.step ⟨h₁.effects, ?_⟩ (.advance _ peer req resp index hl hindex) rfl rfl
      rw [hd']
      exact .same _ _

theorem handleInstallSnapshotResponse_effects {peer : Int} {req : InstallSnapshotRequest}
    {resp : InstallSnapshotResponse} (h : Evolves env (.installResponse peer req resp) r₀ r d) :
    wp Any (Leaves env (.installResponse peer req resp) r₀)
      (handleInstallSnapshotResponse peer req resp)
      (fun _ r' d' => Evolves env (.installResponse peer req resp) r₀ r' d') r d := by
  simp only [handleInstallSnapshotResponse, wp_bind, wp_read, wp_ite, wp_pure, wp_modify]
  refine ⟨fun hgt => ?_, fun _ => ⟨fun _ => h, fun hlead => ?_⟩⟩
  · refine wp_mono _ _ _ (becomeFollowerLocked_effects h hgt (.inl rfl)) ?_ fun _ hd => hd
    exact fun _ _ _ hr => hr.1
  · push Not at hlead
    exact h.step (.recordInstall r peer req resp hlead.1 hlead.2.1 hlead.2.2) rfl rfl

/-! ## The apply goroutine -/

theorem applySelect_effects (h : Evolves env .applySelect r₀ r d) :
    wp Any (Leaves env .applySelect r₀) (applySelect env)
      (fun _ r' d' => Evolves env .applySelect r₀ r' d') r d := by
  simp only [applySelect, wp_bind, wp_read, wp_ite, wp_pure]
  refine ⟨fun _ => h, fun hgo => ?_⟩
  have hidle : r.apply = .idle := not_not.mp fun hne => hgo (.inl hne)
  have hlt : r.lastApplied < r.commitIndex := Nat.lt_of_not_le fun hle => hgo (.inr hle)
  cases he : r.entryAtLocked (r.lastApplied + 1) with
  | none => exact h.step (.selectFailed r _ hidle hlt) rfl rfl
  | some entry =>
    simp only [wp_ite, wp_modify]
    exact ⟨fun _ => h.step (.selectFailed r _ hidle hlt) rfl rfl,
      fun _ => h.step (.select r entry hidle hlt he) rfl rfl⟩

theorem applyEntry_effects (h : Evolves env .applyEntry r₀ r d) :
    wp Any (Leaves env .applyEntry r₀) (applyEntry env)
      (fun _ r' d' => Evolves env .applyEntry r₀ r' d') r d := by
  simp only [applyEntry, wp_bind, wp_read]
  cases ha : r.apply with
  | selected entry =>
    simp only [wp_ite, wp_modify]
    refine ⟨fun hnoop => h.step (.applyNoop r entry ha hnoop) rfl rfl, fun hop => ?_⟩
    cases hf : env.applier with
    | none => exact h
    | some f =>
      simp only [wp_bind]
      refine h.wp_attempt (fun d' hd' => ?_) fun err d' hd' => ?_
      · cases hst : f entry r.store with
        | error err => exact hd'.step (.applyFailed r entry _ ha) rfl rfl
        | ok st => exact hd'.step (.applyDone r entry f st ha hop hf hst) rfl rfl
      · exact hd'.step (.applyFailed r entry _ ha) rfl rfl
  | idle => exact h
  | applied entry => exact h
  | failed err => exact h
  | stopped => exact h
  | snapshotting b => exact h
  | snapshotSaved b => exact h

theorem applyCheckpoint_effects (h : Evolves env .applyCheckpoint r r d) :
    wp Any (Leaves env .applyCheckpoint r) applyCheckpoint
      (fun out r' d' => Evolves env .applyCheckpoint r r' d' ∧ match out with
        | none => r'.channels = r.channels
        | some (channel, entry) => r' = r.checkpointed entry ∧ r.apply = .applied entry ∧
            r.lastApplied + 1 = entry.index ∧ r.waiting entry.index = some channel) r d := by
  simp only [applyCheckpoint, saveStableValuesLocked, wp_bind, wp_read]
  cases ha : r.apply with
  | applied entry =>
    simp only [wp_ite, wp_bind, wp_modify, wp_pure]
    refine ⟨fun _ => ⟨h.step (.checkpointFailed r entry _ ha) rfl rfl, trivial⟩, fun heq => ?_⟩
    have hi : r.lastApplied + 1 = entry.index := not_not.mp heq
    refine h.wp_save (.same _ _) (fun d' hd' => ?_) fun err d' hd' => ?_
    · obtain ⟨_, _, -, -, hch⟩ := r.checkpointed_eq entry
      have hsaved : Evolves env .applyCheckpoint r r d' := by
        refine ⟨h.effects, ?_⟩
        rw [hd']
        exact .same _ _
      have hstep : Evolves env .applyCheckpoint r (r.checkpointed entry) d' :=
        hsaved.step (.checkpoint r entry ha hi) (by rw [hch]) (by rw [hch])
      simp only [wp_bind, wp_modify, wp_pure]
      refine ⟨hstep, ?_⟩
      cases hw : r.waiting entry.index with
      | none =>
        have hnone : Raft.waiting { r with lastApplied := entry.index, apply := .idle }
            entry.index = none := hw
        simp only [Option.map_none, Raft.notify, hnone]
      | some channel => exact ⟨rfl, rfl, hi, hw⟩
    · exact ⟨hd'.step (.checkpointFailed r entry _ ha) rfl rfl, rfl⟩
  | idle => exact ⟨h, rfl⟩
  | selected entry => exact ⟨h, rfl⟩
  | failed err => exact ⟨h, rfl⟩
  | stopped => exact ⟨h, rfl⟩
  | snapshotting b => exact ⟨h, rfl⟩
  | snapshotSaved b => exact ⟨h, rfl⟩

theorem recordApplyFailure_effects (h : Evolves env .recordApplyFailure r₀ r d) :
    wp Any (Leaves env .recordApplyFailure r₀) recordApplyFailure
      (fun _ r' d' => Evolves env .recordApplyFailure r₀ r' d') r d := by
  simp only [recordApplyFailure, wp_bind, wp_read]
  cases ha : r.apply with
  | failed err =>
    obtain ⟨_, _, _, -, -, heq⟩ := r.stopped_eq err
    have hstop : Evolves env .recordApplyFailure r₀ (r.stopped err) d :=
      h.step (.stop r err ha) (by rw [heq]) (by rw [heq])
    cases herr : r.applyErr with
    | some _ =>
      simp only [Raft.stopped, herr] at hstop
      rw [wp_modify, herr]
      exact hstop
    | none =>
      simp only [Raft.stopped, herr] at hstop
      exact hstop
  | idle => exact h
  | selected entry => exact h
  | applied entry => exact h
  | stopped => exact h
  | snapshotting b => exact h
  | snapshotSaved b => exact h

theorem snapshotBegin_effects (h : Evolves env .snapshotBegin r₀ r d) :
    wp Any (Leaves env .snapshotBegin r₀) (snapshotBegin env)
      (fun _ r' d' => Evolves env .snapshotBegin r₀ r' d') r d := by
  simp only [snapshotBegin, wp_bind, wp_read, wp_ite, wp_pure]
  refine ⟨fun _ => h, fun hgo => ?_⟩
  have hidle : r.apply = .idle := not_not.mp fun hne => hgo (.inl hne)
  cases ht : r.termAtLocked r.lastApplied with
  | none => exact h
  | some term => exact h.step (.begin r term hidle ht) rfl rfl

theorem snapshotSave_effects (h : Evolves env .snapshotSave r₀ r d) :
    wp Any (Leaves env .snapshotSave r₀) (snapshotSave env)
      (fun _ r' d' => Evolves env .snapshotSave r₀ r' d') r d := by
  simp only [snapshotSave, wp_bind, wp_read]
  split
  · rename_i b sn ha hsn
    have hdrop : ∀ {d'}, Evolves env .snapshotSave r₀ r d' →
        Evolves env .snapshotSave r₀ { r with apply := .idle } d' :=
      fun hr => hr.step (.abandon _ r (by rw [ha]; rfl)) rfl rfl
    simp only [wp_bind]
    refine h.wp_attempt (fun d₁ h₁ => ?_) fun err d' hd' => hdrop hd'
    cases hdata : sn.snapshot r.store with
    | error err => exact hdrop h₁
    | ok data =>
      simp only [wp_bind]
      refine h₁.wp_saveSnapshot (fun d' hd' => ?_) fun err d' hd' => hdrop hd'
      exact hd'.step (.save r b ha) rfl rfl
  · exact h

theorem snapshotPublish_effects (h : Evolves env .snapshotPublish r₀ r d) :
    wp Any (Leaves env .snapshotPublish r₀) snapshotPublish
      (fun _ r' d' => Evolves env .snapshotPublish r₀ r' d') r d := by
  simp only [snapshotPublish, wp_bind, wp_read]
  cases ha : r.apply with
  | snapshotSaved b =>
    have hdrop : ∀ {d'}, Evolves env .snapshotPublish r₀ r d' →
        Evolves env .snapshotPublish r₀ { r with apply := .idle } d' :=
      fun hr => hr.step (.abandon _ r (by rw [ha]; rfl)) rfl rfl
    simp only [wp_ite, wp_modify]
    refine ⟨fun _ => hdrop h, fun hgo => ?_⟩
    have hb : r.lastApplied = b.lastIncludedIndex := not_not.mp fun hne => hgo (.inl hne)
    cases hs : r.entriesFromLocked (b.lastIncludedIndex + 1) with
    | none => exact hdrop h
    | some suffix =>
      simp only [wp_bind]
      refine h.wp_compactThrough (fun d' hd' => ?_) fun err d' hd' => hdrop hd'
      exact hd'.step (.compact r b suffix ha hb hs) rfl rfl
  | idle => exact h
  | selected entry => exact h
  | applied entry => exact h
  | failed err => exact h
  | stopped => exact h
  | snapshotting b => exact h

/-! ## One step -/

/-- An operation that shows nothing that `Shows` speaks of. -/
theorem wp_quiet {α : Type} {op : Op σ α} {out : α → Output}
    (h : wp Any (Leaves env i r) op (fun _ r' d' => Evolves env i r r' d') r d)
    (hq : ∀ a r', Shows env r r' i (out a)) :
    wp Any (Leaves env i r) (do let a ← op; return out a)
      (fun o r' d' => Evolves env i r r' d' ∧ Shows env r r' i o) r d := by
  simp only [wp_bind, wp_pure]
  exact wp_mono _ _ _ h (fun a r' _ hr => ⟨hr, hq a r'⟩) fun _ hd => hd

theorem react_effects (hmaj : env.majority ≠ 1) (ha : Ahead r d.stable) :
    wp Any (Leaves env i r) (react env i)
      (fun out r' d' => Evolves env i r r' d' ∧ Shows env r r' i out) r d := by
  have h : Evolves env i r r d := .refl ha
  cases i with
  | electionTimeout =>
    simp only [react, wp_bind, wp_read, wp_ite, wp_pure]
    refine ⟨fun _ => ⟨h, rfl⟩, fun hs => ?_⟩
    refine wp_mono _ _ _ (startElection_effects hmaj ha) ?_ fun _ hd => hd
    rintro (_ | req) r' d' ⟨hahead, hreq⟩
    · obtain rfl := hreq
      exact ⟨.refl hahead, rfl⟩
    · obtain ⟨rfl, hterm, hid⟩ := hreq
      exact ⟨⟨.single (.stand r hs), hahead⟩, rfl, hs, hterm, hid⟩
  | voteRequest req =>
    simp only [react, wp_bind, wp_pure]
    exact handleRequestVote_effects h
  | voteResponse peer term resp => exact wp_quiet (receiveVote_effects h) fun _ _ => trivial
  | appendRequest req => exact wp_quiet (handleAppendEntries_effects h) fun _ _ => trivial
  | appendResponse peer req resp =>
    exact wp_quiet (handleAppendEntriesResponse_effects h) fun _ _ => trivial
  | installRequest req =>
    simp only [react, wp_bind, wp_read, wp_ite, wp_pure]
    refine ⟨fun _ => ⟨h, trivial⟩, fun hmu => ?_⟩
    refine wp_mono _ _ _ (handleInstallSnapshot_effects h (by simpa using hmu)) ?_ fun _ hd => hd
    rintro (_ | resp) r' d' hr
    · exact ⟨hr, trivial⟩
    · exact ⟨hr, trivial⟩
  | installResponse peer req resp =>
    exact wp_quiet (handleInstallSnapshotResponse_effects h) fun _ _ => trivial
  | propose command =>
    simp only [react, wp_bind]
    refine wp_mono _ _ _ (propose_effects h) ?_ fun _ hd => hd
    rintro (_ | ⟨index, channel⟩) r' d' ⟨hr, hout⟩
    · exact ⟨hr, hout⟩
    · exact ⟨hr, hout⟩
  | sendAppend peer =>
    simp only [react, wp_bind, wp_read]
    cases r.buildAppendEntries env.id peer with
    | none => exact ⟨h, trivial⟩
    | some req => exact ⟨h, trivial⟩
  | sendInstall peer =>
    simp only [react, buildInstallSnapshot, wp_bind, wp_read, wp_ite, wp_pure]
    refine ⟨fun _ => ⟨h, trivial⟩, fun _ => ?_⟩
    cases r.nextIndex peer with
    | none => exact ⟨h, trivial⟩
    | some next =>
      simp only [wp_ite, wp_pure, wp_bind, wp_disk]
      refine ⟨fun _ => ⟨h, trivial⟩, fun _ => ⟨fun _ => ⟨h, trivial⟩, fun _ => ?_⟩⟩
      cases d.snapshot with
      | none => exact ⟨h, trivial⟩
      | some stored =>
        simp only [wp_ite, wp_pure]
        exact ⟨fun _ => ⟨h, trivial⟩, fun _ => ⟨h, trivial⟩⟩
  | applySelect => exact wp_quiet (applySelect_effects h) fun _ _ => trivial
  | applyEntry => exact wp_quiet (applyEntry_effects h) fun _ _ => trivial
  | applyCheckpoint =>
    simp only [react, wp_bind]
    refine wp_mono _ _ _ (applyCheckpoint_effects h) ?_ fun _ hd => hd
    rintro (_ | ⟨channel, entry⟩) r' d' ⟨hr, hout⟩
    · exact ⟨hr, hout⟩
    · exact ⟨hr, hout⟩
  | recordApplyFailure => exact wp_quiet (recordApplyFailure_effects h) fun _ _ => trivial
  | snapshotBegin => exact wp_quiet (snapshotBegin_effects h) fun _ _ => trivial
  | snapshotSave => exact wp_quiet (snapshotSave_effects h) fun _ _ => trivial
  | snapshotPublish => exact wp_quiet (snapshotPublish_effects h) fun _ _ => trivial

/-- A step that runs to its end, against any answers. -/
theorem effects_of_done (hmaj : env.majority ≠ 1) (ha : Ahead r d.stable) {answers : List Outcome}
    {out : Output} (hstep : (react env i).run answers r d = .done out r' d') :
    Effects env r i r' ∧ Ahead r' d'.stable ∧ Shows env r r' i out := by
  have := wp_run _ _ answers r d (fun _ _ => trivial) (react_effects (i := i) hmaj ha)
  rw [hstep] at this
  exact ⟨this.1.effects, this.1.ahead, this.2⟩

/-- A step at which the process dies, against any answers. -/
theorem effects_of_crashed (hmaj : env.majority ≠ 1) (ha : Ahead r d.stable)
    {answers : List Outcome} (hstep : (react env i).run answers r d = .crashed d') :
    ∃ r', Effects env r i r' ∧ Ahead r' d'.stable := by
  have := wp_run _ _ answers r d (fun _ _ => trivial) (react_effects (i := i) hmaj ha)
  rw [hstep] at this
  obtain ⟨r', h⟩ := this
  exact ⟨r', h.effects, h.ahead⟩

end DistributedKv
