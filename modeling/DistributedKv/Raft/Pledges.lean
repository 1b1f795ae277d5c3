import DistributedKv.Raft.Acknowledge
import DistributedKv.Raft.Payload

/-!
What a node owes its clients, in every life and whatever the stores answer. A
waiter is keyed by the index that its proposal returned, and the entry in the
hands of the apply goroutine is a committed entry of the log, unless a snapshot
has overtaken it. So a nil result always comes for the index of the proposal;
which entry was applied there is a question about the whole cluster.
-/

namespace DistributedKv

open Crash

variable {σ : Type} {env : Env σ} {i : Input} {r₀ r r' : Raft σ}

/-- The entry in hand is the next committed entry of the log, or was overtaken
by a snapshot. -/
def Raft.InHandOk (r : Raft σ) : Prop :=
  ∀ e, r.apply.inHand = some e →
    e.index ≤ r.lastApplied ∨ e.index = r.lastApplied + 1 ∧ e ∈ r.log ∧ e.index ≤ r.commitIndex

/-- A change of log and commit index that keeps the committed entries. -/
theorem Raft.InHandOk.relog (h : r.InHandOk) (happlied : r'.lastApplied = r.lastApplied)
    (happly : r'.apply = r.apply) (hcommit : r.commitIndex ≤ r'.commitIndex)
    (hlog : ∀ e ∈ r.log, e.index ≤ r.commitIndex → e ∈ r'.log) : r'.InHandOk := by
  intro e he
  rw [happlied]
  rcases h e (happly ▸ he) with hle | ⟨hi, hmem, hle⟩
  · exact .inl hle
  · exact .inr ⟨hi, hlog e hmem hle, hle.trans hcommit⟩

theorem Effect.inHandOk (he : Effect env r₀ i r r') (hwf : r.WellFormed) (h : r.InHandOk) :
    r'.InHandOk := by
  cases he with
  | selectFailed | applyFailed | checkpointFailed | begin | save | abandon | compact =>
    exact fun _ he => by cases he
  | lead | propose =>
    exact h.relog rfl rfl (Nat.le_refl _) fun _ he _ => List.mem_append_left _ he
  | cut _ req truncateFrom entries l _ hm hplan hl =>
    exact h.relog rfl rfl (Nat.le_refl _) (hwf.cutAt_ok hm hplan hl).2.2.1
  | merge _ req truncateFrom entries l _ hm hplan hl =>
    exact h.relog rfl rfl (Nat.le_refl _) fun e he hle =>
      List.mem_append_left _ ((hwf.cutAt_ok hm hplan hl).2.2.1 e he hle)
  | followCommit _ req hlt => exact h.relog rfl rfl hlt.le fun _ he _ => he
  | advance _ peer req resp index _ hc =>
    exact h.relog rfl rfl (commitCandidate_some hc).1.le fun _ he _ => he
  | install _ req _ hi =>
    intro e he
    have habove := hi.above
    have happlied : (r.installed req).lastApplied = req.lastIncludedIndex :=
      Nat.max_eq_right habove.le
    rw [happlied]
    rcases h e he with hle | ⟨hindex, -⟩
    · exact .inl (by omega)
    · exact .inl (by omega)
  | select _ entry _ hlt hat =>
    rintro _ ⟨⟩
    obtain ⟨hmem, hi⟩ := hwf.mem_of_entryAtLocked hat
    exact .inr ⟨hi, hmem, by rw [hi]; exact hlt⟩
  | applyNoop _ entry ha | applyDone _ entry _ _ ha =>
    rintro _ ⟨⟩
    exact h entry (by rw [ha]; rfl)
  | checkpoint _ entry =>
    obtain ⟨_, _, -, -, heq⟩ := r.checkpointed_eq entry
    rw [heq]
    exact fun _ he => by cases he
  | stop _ err =>
    obtain ⟨_, _, _, -, -, heq⟩ := r.stopped_eq err
    rw [heq]
    exact fun _ he => by cases he
  | _ => exact h

theorem Effects.inHandOk (he : Effects env r i r') (hwf : r.WellFormed) (h : r.InHandOk) :
    r'.InHandOk := by
  induction he with
  | refl => exact h
  | tail hes he ih => exact he.inHandOk (Effects.wellFormed hes hwf) ih

/-- Only a proposal makes somebody wait. -/
theorem Effect.pendingResults_subset (hp : ∀ command, i ≠ .propose command)
    (he : Effect env r₀ i r r') : r'.pendingResults ⊆ r.pendingResults := by
  cases he with
  | propose _ command => exact absurd rfl (hp command)
  | checkpoint _ entry =>
    obtain ⟨_, _, -, hsub, heq⟩ := r.checkpointed_eq entry
    rw [heq]
    exact hsub
  | stop _ err =>
    obtain ⟨_, _, _, -, hsub, heq⟩ := r.stopped_eq err
    rw [heq]
    exact hsub
  | _ => exact List.Subset.refl _

theorem Effects.pendingResults_subset (hp : ∀ command, i ≠ .propose command)
    (he : Effects env r i r') : r'.pendingResults ⊆ r.pendingResults := by
  induction he with
  | refl => exact List.Subset.refl _
  | tail _ he ih => exact List.Subset.trans (he.pendingResults_subset hp) ih

/-! ## The life of a node -/

/-- What is known of a running node, of the channels it has handed out and of
the nil results it has sent. -/
structure Pledged (events : List (Event σ)) (r : Raft σ) (d : Disk) : Prop where
  ahead : Ahead r d.stable
  wellFormed : r.WellFormed
  inHand : r.InHandOk
  waiter : ∀ p ∈ r.pendingResults, ∃ e, Originated events p.2 e ∧ e.index = p.1
  channels : ∀ channel e, Originated events channel e → channel < r.channels.length
  unique : ∀ channel e e', Originated events channel e → Originated events channel e' → e = e'
  acknowledged : ∀ r₁ channel e, ⟨r₁, .applyCheckpoint, .completed channel e⟩ ∈ events →
    r₁.HasApplied e ∧ ∃ e', Originated events channel e' ∧ e'.index = e.index
  received : ∀ channel index, r.Received channel index →
    ∃ r₁ e, ⟨r₁, .applyCheckpoint, .completed channel e⟩ ∈ events ∧ e.index = index

section Step

variable {events : List (Event σ)} {d d' : Disk} {answers : List Outcome} {out : Output}

theorem Originated.mono {channel : Nat} {e : LogEntry} (h : Originated events channel e)
    {events' : List (Event σ)} (hsub : events ⊆ events') : Originated events' channel e := by
  obtain ⟨r₁, command, index, hm, he⟩ := h
  exact ⟨r₁, command, index, hsub hm, he⟩

/-- Nothing was sent on a channel that has just been made. -/
theorem Raft.Received.of_proposed {command : Command} {channel index : Nat}
    (h : (r.proposed command).Received channel index) : r.Received channel index := by
  obtain ⟨c, hc, hmem⟩ := h
  change (r.channels ++ [(⟨[], false⟩ : Channel)])[channel]? = some c at hc
  rw [List.getElem?_append] at hc
  split at hc
  · exact ⟨c, hc, hmem⟩
  · rw [List.mem_singleton.mp (List.mem_of_getElem? hc)] at hmem
    cases hmem

/-- A checkpoint sends its result to the waiter of its index. -/
theorem Raft.Received.of_checkpointed {e : LogEntry} {waiter channel index : Nat}
    (hwait : r.waiting e.index = some waiter) (h : (r.checkpointed e).Received channel index) :
    r.Received channel index ∨ channel = waiter ∧ e.index = index := by
  unfold Raft.checkpointed Raft.notify at h
  rw [show Raft.waiting { r with lastApplied := e.index, apply := .idle } e.index =
    some waiter from hwait] at h
  rcases Raft.Received.of_complete h with h | ⟨rfl, hres⟩
  · exact .inl h
  · exact .inr ⟨rfl, congrArg Result.index hres⟩

/-- A step that takes no proposal. -/
theorem Pledged.quiet (h : Pledged events r d) (hahead : Ahead r' d'.stable)
    (hwf : r'.WellFormed) (hin : r'.InHandOk) (hpending : r'.pendingResults ⊆ r.pendingResults)
    (hlen : r'.channels.length = r.channels.length)
    (hrec : ∀ channel index, r'.Received channel index → r.Received channel index ∨
      ∃ e, i = .applyCheckpoint ∧ out = .completed channel e ∧ e.index = index)
    (hprop : ∀ command index channel, ¬ (i = .propose command ∧ out = .proposed index channel))
    (hack : ∀ channel e, i = .applyCheckpoint → out = .completed channel e →
      r.HasApplied e ∧ ∃ e', Originated events channel e' ∧ e'.index = e.index) :
    Pledged (events ++ [⟨r, i, out⟩]) r' d' := by
  have hsub : events ⊆ events ++ [⟨r, i, out⟩] := List.subset_append_left _ _
  have hold {channel : Nat} {e : LogEntry} (ho : Originated (events ++ [⟨r, i, out⟩]) channel e) :
      Originated events channel e := by
    rcases originated_append.mp ho with ho | ⟨command, index, hi, hout, -⟩
    · exact ho
    · exact absurd ⟨hi, hout⟩ (hprop command index channel)
  refine ⟨hahead, hwf, hin, fun p hp => ?_, fun channel e ho => ?_, fun channel e e' ho ho' => ?_,
    fun r₁ channel e hm => ?_, fun channel index hr => ?_⟩
  · obtain ⟨e, ho, hi⟩ := h.waiter p (hpending hp)
    exact ⟨e, ho.mono hsub, hi⟩
  · rw [hlen]
    exact h.channels channel e (hold ho)
  · exact h.unique channel e e' (hold ho) (hold ho')
  · suffices hown : r₁.HasApplied e ∧ ∃ e', Originated events channel e' ∧ e'.index = e.index by
      obtain ⟨happlied, e', ho, hi⟩ := hown
      exact ⟨happlied, e', ho.mono hsub, hi⟩
    rcases List.mem_append.mp hm with hm | hm
    · exact h.acknowledged r₁ channel e hm
    · obtain ⟨rfl, hi, hout⟩ := Event.mk.inj (List.mem_singleton.mp hm)
      exact hack channel e hi.symm hout.symm
  · rcases hrec channel index hr with hr | ⟨e, rfl, rfl, he⟩
    · obtain ⟨r₁, e, hm, he⟩ := h.received channel index hr
      exact ⟨r₁, e, hsub hm, he⟩
    · exact ⟨r, e, List.mem_append_right _ (List.mem_singleton.mpr rfl), he⟩

/-- A successful proposal, whose channel is a new one. -/
theorem Pledged.propose (h : Pledged events r d) {command : Command}
    (hahead : Ahead (r.proposed command) d'.stable) (hwf : (r.proposed command).WellFormed)
    (hin : (r.proposed command).InHandOk) :
    Pledged (events ++ [⟨r, .propose command,
      .proposed (r.nextEntry command).index r.channels.length⟩]) (r.proposed command) d' := by
  have hsub : events ⊆ events ++ [(⟨r, .propose command,
      .proposed (r.nextEntry command).index r.channels.length⟩ : Event σ)] :=
    List.subset_append_left _ _
  have hcases {channel : Nat} {e : LogEntry} (ho : Originated (events ++ [⟨r, .propose command,
      .proposed (r.nextEntry command).index r.channels.length⟩]) channel e) :
      Originated events channel e ∨ channel = r.channels.length ∧ e = r.nextEntry command := by
    rcases originated_append.mp ho with ho | ⟨command', index, hi, hout, rfl⟩
    · exact .inl ho
    · obtain rfl := Input.propose.inj hi
      obtain ⟨rfl, rfl⟩ := Output.proposed.inj hout
      exact .inr ⟨rfl, rfl⟩
  refine ⟨hahead, hwf, hin, fun p hp => ?_, fun channel e ho => ?_, fun channel e e' ho ho' => ?_,
    fun r₁ channel e hm => ?_, fun channel index hr => ?_⟩
  · rcases List.mem_cons.mp hp with rfl | hp
    · exact ⟨r.nextEntry command, originated_append.mpr (.inr ⟨command, _, rfl, rfl, rfl⟩), rfl⟩
    · obtain ⟨e, ho, hi⟩ := h.waiter p (List.mem_of_mem_filter hp)
      exact ⟨e, ho.mono hsub, hi⟩
  · change channel < (r.channels ++ [(⟨[], false⟩ : Channel)]).length
    rw [List.length_append, List.length_singleton]
    rcases hcases ho with ho | ⟨rfl, -⟩
    · exact (h.channels channel e ho).trans (Nat.lt_succ_self _)
    · exact Nat.lt_succ_self _
  · rcases hcases ho with ho | ⟨rfl, rfl⟩ <;> rcases hcases ho' with ho' | ⟨hc, rfl⟩
    · exact h.unique channel e e' ho ho'
    · exact absurd (h.channels _ _ ho) (by omega)
    · exact absurd (h.channels _ _ ho') (Nat.lt_irrefl _)
    · rfl
  · rcases List.mem_append.mp hm with hm | hm
    · obtain ⟨happlied, e', ho, hi⟩ := h.acknowledged r₁ channel e hm
      exact ⟨happlied, e', ho.mono hsub, hi⟩
    · cases (Event.mk.inj (List.mem_singleton.mp hm)).2.1
  · obtain ⟨r₁, e, hm, he⟩ := h.received channel index (Raft.Received.of_proposed hr)
    exact ⟨r₁, e, hsub hm, he⟩

theorem Pledged.step (hmaj : env.majority ≠ 1) (h : Pledged events r d)
    (hrun : (react env i).run answers r d = .done out r' d') :
    Pledged (events ++ [⟨r, i, out⟩]) r' d' := by
  obtain ⟨heff, hahead, hshow⟩ := effects_of_done hmaj h.ahead hrun
  have hwf := heff.wellFormed h.wellFormed
  have hin := heff.inHandOk h.wellFormed h.inHand
  by_cases hp : ∃ command, i = .propose command
  · obtain ⟨command, rfl⟩ := hp
    cases out with
    | none =>
      obtain rfl : r' = r := hshow
      exact h.quiet hahead hwf hin (List.Subset.refl _) rfl (fun _ _ hr => .inl hr) (by simp) (by simp)
    | proposed index channel =>
      obtain ⟨rfl, rfl, rfl⟩ := hshow
      exact h.propose hahead hwf hin
    | _ => exact hshow.elim
  push Not at hp
  obtain ⟨hlen, hrec⟩ := channels_effects hp heff
  have hnot : ∀ command index channel, ¬ (i = .propose command ∧ out = .proposed index channel) :=
    fun command _ _ hc => hp command hc.1
  have hpending := heff.pendingResults_subset hp
  by_cases hc : i = .applyCheckpoint
  · subst hc
    cases out with
    | none =>
      refine h.quiet hahead hwf hin hpending hlen (fun channel index hr => ?_) hnot (by simp)
      obtain ⟨c, hget, hmem⟩ := hr
      exact .inl ⟨c, (show r'.channels = r.channels from hshow) ▸ hget, hmem⟩
    | completed channel e =>
      obtain ⟨rfl, happly, hnext, hwait⟩ := hshow
      refine h.quiet hahead hwf hin hpending hlen (fun channel' index hr => ?_) hnot ?_
      · rcases hr.of_checkpointed hwait with hr | ⟨rfl, hindex⟩
        · exact .inl hr
        · exact .inr ⟨e, rfl, rfl, hindex⟩
      · -- the entry completed is in hand, and the waiter found is of its index
        intro channel' e₁ _ hout
        obtain ⟨rfl, rfl⟩ := Output.completed.inj hout
        obtain ⟨e', ho, hi⟩ := h.waiter _ (Raft.mem_of_waiting hwait)
        rcases h.inHand e (by rw [happly]; rfl) with hle | ⟨-, hmem, hle⟩
        · omega
        · exact ⟨⟨happly, hmem, hle⟩, e', ho, hi⟩
    | _ => exact hshow.elim
  · exact h.quiet hahead hwf hin hpending hlen (fun _ _ hr => .inl (hrec hc hr)) hnot
      fun _ _ hi => absurd hi hc

/-- In every life of a node, whatever its inputs and its stores do. -/
theorem live_pledged {d₀ : Disk} {v : σ} (hstart : start env answers d₀ = .done (.ok r) v d)
    {steps : List (Input × List Outcome)} (hup : (live env r d steps).process = .up r' d') :
    Pledged (live env r d steps).events r' d' := by
  have hstarts := start_done hstart
  obtain ⟨hcfg, hfresh, hwf, -⟩ := hstarts.2 r rfl
  have hnone {channel : Nat} {e : LogEntry} (ho : Originated ([] : List (Event σ)) channel e) :
      False := by
    obtain ⟨_, _, _, hm, _⟩ := ho
    cases hm
  have hfirst : Pledged [] r d := by
    refine ⟨hstarts.ahead, hwf, fun e he => ?_, fun p hp => ?_, fun _ _ ho => (hnone ho).elim,
      fun _ _ _ ho => (hnone ho).elim, fun _ _ _ hm => (by cases hm), fun channel index hr => ?_⟩
    · rw [hfresh.apply] at he
      cases he
    · rw [hfresh.pendingResults] at hp
      cases hp
    · obtain ⟨c, hget, -⟩ := hr
      rw [hfresh.channels] at hget
      cases hget
  exact live_induction Pledged (fun _ _ _ => True) hfirst
    (fun h _ hrun => h.step (Env.majority_gt_one hcfg).ne' hrun) (fun _ _ _ _ _ _ => trivial) hup

end Step

end DistributedKv
