import DistributedKv.Raft.Acknowledge
import DistributedKv.Raft.ApplyLoop
import DistributedKv.Raft.Supplied
import Mathlib.Data.List.Nodup

/-!
What becomes of the clients that wait for a proposal. A channel is handed out
with a key in `pendingResults`, gets its result when the key is taken out, and
never another one. The key is forgotten in two ways: a snapshot moves
`lastApplied` past it, and a second proposal at the same index takes its place.
In a life where neither happens, every proposal at or below `lastApplied` has
its result.
-/

namespace DistributedKv

open Crash Prog

variable {σ : Type} {env : Env σ} {i : Input} {r₀ r r' : Raft σ}

/-- The node takes the proposal, so that `Propose` returns an index and a channel. -/
def Raft.GetsProposed (env : Env σ) (r : Raft σ) (d : Disk) (command : Command)
    (answers : List Outcome) : Prop :=
  ∃ index channel r' d',
    (react env (.propose command)).run answers r d = .done (.proposed index channel) r' d'

/-- The step leaves every waiter its key: no snapshot gets installed at or above
one, and no proposal takes one. -/
def Raft.KeepsWaiters (env : Env σ) (r : Raft σ) (d : Disk) : Input × List Outcome → Prop
  | (.installRequest req, answers) => r.GetsInstalled env d req answers →
      ∀ p ∈ r.pendingResults, req.lastIncludedIndex < p.1
  | (.propose command, answers) => r.GetsProposed env d command answers →
      r.waiting (r.lastLogInfoLocked.1 + 1) = none
  | _ => True

/-- The channel has its one result and is closed. -/
def Raft.Settled (r : Raft σ) (channel : Nat) : Prop :=
  ∃ result, r.channels[channel]? = some ⟨[result], true⟩

/-! ## Sending results -/

theorem Raft.complete_channels (r : Raft σ) {channel : Nat} (result : Result)
    (hopen : r.channels[channel]? = some ⟨[], false⟩) :
    (r.complete channel result).channels[channel]? = some ⟨[result], true⟩ := by
  simp [Raft.complete, hopen]

theorem Raft.complete_channels_of_ne (r : Raft σ) {channel k : Nat} (result : Result)
    (hne : channel ≠ k) : (r.complete channel result).channels[k]? = r.channels[k]? := by
  simp [Raft.complete, hne]

theorem Raft.foldl_complete_of_notMem {err : String} {k : Nat} (ps : List (Nat × Nat)) (r : Raft σ)
    (hk : k ∉ ps.map Prod.snd) :
    (ps.foldl (fun r p => r.complete p.2 ⟨p.1, some err⟩) r).channels[k]? = r.channels[k]? := by
  induction ps generalizing r with
  | nil => rfl
  | cons p ps ih =>
    obtain ⟨hne, hk⟩ := not_or.mp (fun h => hk (List.mem_cons.mpr h))
    exact (ih _ hk).trans (r.complete_channels_of_ne _ (Ne.symm hne))

theorem Raft.foldl_complete_of_mem {err : String} {p : Nat × Nat} (ps : List (Nat × Nat))
    (r : Raft σ) (hnodup : (ps.map Prod.snd).Nodup) (hp : p ∈ ps)
    (hopen : r.channels[p.2]? = some ⟨[], false⟩) :
    (ps.foldl (fun r p => r.complete p.2 ⟨p.1, some err⟩) r).channels[p.2]? =
      some ⟨[⟨p.1, some err⟩], true⟩ := by
  induction ps generalizing r with
  | nil => cases hp
  | cons q ps ih =>
    obtain ⟨hnotMem, hnodup⟩ := List.nodup_cons.mp hnodup
    rcases List.mem_cons.mp hp with rfl | hp
    · exact (Raft.foldl_complete_of_notMem ps _ hnotMem).trans (r.complete_channels _ hopen)
    · refine ih _ hnodup hp ?_
      have hne : q.2 ≠ p.2 := fun heq => hnotMem (heq ▸ List.mem_map_of_mem hp)
      rw [r.complete_channels_of_ne _ hne]
      exact hopen

/-! ## The waiters -/

/-- The clients that wait: each has a key of its own above `lastApplied` and an
open channel of its own, and every other channel is settled. -/
structure Raft.Waited (r : Raft σ) : Prop where
  keys : (r.pendingResults.map Prod.fst).Nodup
  distinct : (r.pendingResults.map Prod.snd).Nodup
  above : ∀ p ∈ r.pendingResults, r.lastApplied < p.1
  waits : ∀ p ∈ r.pendingResults, r.channels[p.2]? = some ⟨[], false⟩
  settled : ∀ channel < r.channels.length,
    channel ∈ r.pendingResults.map Prod.snd ∨ r.Settled channel

/-- From `r` to `r'` every waiter still waits or has its result, and nobody's
result is taken back. -/
structure Raft.Attends (r r' : Raft σ) : Prop where
  pending : ∀ p ∈ r.pendingResults, p ∈ r'.pendingResults ∨ r'.Settled p.2
  settled : ∀ channel, r.Settled channel → r'.Settled channel

theorem Raft.Attends.trans {r₁ r₂ r₃ : Raft σ} (h : r₁.Attends r₂) (h' : r₂.Attends r₃) :
    r₁.Attends r₃ where
  pending p hp := (h.pending p hp).elim (h'.pending p) fun hs => .inr (h'.settled _ hs)
  settled channel hs := h'.settled channel (h.settled channel hs)

/-- A change that leaves the waiters alone. -/
theorem Raft.Attends.of_eq (hpending : r'.pendingResults = r.pendingResults)
    (hchannels : r'.channels = r.channels) : r.Attends r' where
  pending p hp := .inl (hpending ▸ hp)
  settled channel hs := by
    unfold Raft.Settled at hs ⊢
    rwa [hchannels]

theorem Raft.Waited.update (h : r.Waited) (hpending : r'.pendingResults = r.pendingResults)
    (hchannels : r'.channels = r.channels)
    (habove : ∀ p ∈ r.pendingResults, r'.lastApplied < p.1) : r'.Waited where
  keys := hpending ▸ h.keys
  distinct := hpending ▸ h.distinct
  above := hpending ▸ habove
  waits := by rw [hpending, hchannels]; exact h.waits
  settled := by
    unfold Raft.Settled
    rw [hpending, hchannels]
    exact h.settled

theorem Raft.ne_of_waiting_none {index : Nat} (h : r.waiting index = none) :
    ∀ p ∈ r.pendingResults, p.1 ≠ index := by
  intro p hp heq
  have := List.lookup_eq_none_iff.mp h p hp
  rw [heq] at this
  simp at this

/-- A proposal at an index that nobody waits for. -/
theorem Raft.Waited.proposed (h : r.Waited) (hs : r.Supplied) (command : Command)
    (hfree : r.waiting (r.lastLogInfoLocked.1 + 1) = none) :
    (r.proposed command).Waited ∧ r.Attends (r.proposed command) := by
  have hne := Raft.ne_of_waiting_none hfree
  have hpending : (r.proposed command).pendingResults =
      (r.lastLogInfoLocked.1 + 1, r.channels.length) :: r.pendingResults := by
    refine congrArg (_ :: ·) (List.filter_eq_self.mpr fun p hp => ?_)
    exact decide_eq_true (hne p hp)
  have hold {channel : Nat} (hlt : channel < r.channels.length) :
      (r.proposed command).channels[channel]? = r.channels[channel]? :=
    List.getElem?_append_left hlt
  have hlt (p) (hp : p ∈ r.pendingResults) : p.2 < r.channels.length :=
    (List.getElem?_eq_some_iff.mp (h.waits p hp)).1
  have hsettled (channel) (hc : r.Settled channel) : (r.proposed command).Settled channel := by
    obtain ⟨result, hget⟩ := hc
    exact ⟨result, (hold (List.getElem?_eq_some_iff.mp hget).1).trans hget⟩
  refine ⟨⟨?_, ?_, ?_, ?_, ?_⟩, fun p hp => .inl ?_, hsettled⟩
  · rw [hpending]
    refine List.nodup_cons.mpr ⟨fun hmem => ?_, h.keys⟩
    obtain ⟨p, hp, heq⟩ := List.mem_map.mp hmem
    exact hne p hp heq
  · rw [hpending]
    refine List.nodup_cons.mpr ⟨fun hmem => ?_, h.distinct⟩
    obtain ⟨p, hp, heq⟩ := List.mem_map.mp hmem
    exact Nat.lt_irrefl _ ((hlt p hp).trans_eq heq.symm)
  · rw [hpending]
    refine List.forall_mem_cons.mpr ⟨?_, h.above⟩
    exact Nat.lt_succ_of_le hs.logged
  · rw [hpending]
    refine List.forall_mem_cons.mpr ⟨?_, fun p hp => ?_⟩
    · exact List.getElem?_concat_length
    · exact (hold (hlt p hp)).trans (h.waits p hp)
  · intro channel hchannel
    rw [hpending]
    change channel < (r.channels ++ [_]).length at hchannel
    rw [List.length_append, List.length_singleton] at hchannel
    rcases Nat.lt_succ_iff_lt_or_eq.mp hchannel with hlt | rfl
    · exact (h.settled channel hlt).imp (List.mem_cons_of_mem _) (hsettled channel)
    · exact .inl List.mem_cons_self
  · rw [hpending]
    exact List.mem_cons_of_mem _ hp

/-- The waiters that `keep` does not keep are told, and nobody else is. -/
theorem Raft.Waited.answered (h : r.Waited) (keep : Nat × Nat → Bool)
    (hpending : r'.pendingResults = r.pendingResults.filter keep)
    (hlen : r'.channels.length = r.channels.length)
    (htold : ∀ p ∈ r.pendingResults, keep p = false → r'.Settled p.2)
    (hrest : ∀ channel, (∀ p ∈ r.pendingResults, keep p = false → p.2 ≠ channel) →
      r'.channels[channel]? = r.channels[channel]?)
    (habove : ∀ p ∈ r.pendingResults, keep p = true → r'.lastApplied < p.1) :
    r'.Waited ∧ r.Attends r' := by
  have hsettled (channel) (hc : r.Settled channel) : r'.Settled channel := by
    obtain ⟨result, hget⟩ := hc
    refine ⟨result, (hrest channel fun p hp _ heq => ?_).trans hget⟩
    have := (heq ▸ h.waits p hp).symm.trans hget
    cases this
  have hpair (p) (hp : p ∈ r.pendingResults) : p ∈ r'.pendingResults ∨ r'.Settled p.2 := by
    rw [hpending]
    cases hk : keep p with
    | true => exact .inl (List.mem_filter.mpr ⟨hp, hk⟩)
    | false => exact .inr (htold p hp hk)
  refine ⟨⟨?_, ?_, fun p hp => ?_, fun p hp => ?_, fun channel hlt => ?_⟩, hpair, hsettled⟩
  · rw [hpending]
    exact h.keys.sublist (List.filter_sublist.map _)
  · rw [hpending]
    exact h.distinct.sublist (List.filter_sublist.map _)
  · rw [hpending] at hp
    exact habove p (List.mem_of_mem_filter hp) (List.of_mem_filter hp)
  · rw [hpending] at hp
    have hp' := List.mem_of_mem_filter hp
    refine (hrest p.2 fun q hq hk heq => ?_).trans (h.waits p hp')
    rw [List.inj_on_of_nodup_map h.distinct hq hp' heq, List.of_mem_filter hp] at hk
    cases hk
  · rw [hlen] at hlt
    rcases h.settled channel hlt with hmem | hc
    · obtain ⟨p, hp, rfl⟩ := List.mem_map.mp hmem
      exact (hpair p hp).imp_left List.mem_map_of_mem
    · exact .inr (hsettled channel hc)

/-- The checkpoint of the next entry tells its waiter, if it has one. -/
theorem Raft.Waited.checkpointed (h : r.Waited) {entry : LogEntry}
    (hnext : r.lastApplied + 1 = entry.index) :
    (r.checkpointed entry).Waited ∧ r.Attends (r.checkpointed entry) := by
  have hother (p) (hp : p ∈ r.pendingResults) (hne : p.1 ≠ entry.index) : entry.index < p.1 := by
    have := h.above p hp
    omega
  cases hwait : r.waiting entry.index with
  | none =>
    have heq : r.checkpointed entry = { r with lastApplied := entry.index, apply := .idle } := by
      unfold Raft.checkpointed Raft.notify
      rw [show Raft.waiting { r with lastApplied := entry.index, apply := .idle } entry.index = none
        from hwait]
    rw [heq]
    exact ⟨h.update rfl rfl fun p hp => hother p hp (Raft.ne_of_waiting_none hwait p hp),
      .of_eq rfl rfl⟩
  | some channel =>
    have heq : r.checkpointed entry = { r.complete channel ⟨entry.index, none⟩ with
        lastApplied := entry.index, apply := .idle
        pendingResults := r.pendingResults.filter fun p => p.1 ≠ entry.index } := by
      unfold Raft.checkpointed Raft.notify
      rw [show Raft.waiting { r with lastApplied := entry.index, apply := .idle } entry.index =
        some channel from hwait]
      rfl
    have hmem : (entry.index, channel) ∈ r.pendingResults := Raft.mem_of_waiting hwait
    rw [heq]
    refine h.answered (fun p => p.1 ≠ entry.index) rfl (List.length_modify _ _ _) ?_ ?_ ?_
    · intro p hp hk
      have hkey : p.1 = entry.index := by simpa using hk
      obtain rfl := List.inj_on_of_nodup_map h.keys hp hmem hkey
      exact ⟨_, r.complete_channels _ (h.waits _ hmem)⟩
    · intro k hk
      exact r.complete_channels_of_ne _ (hk _ hmem (by simp))
    · intro p hp hk
      exact hother p hp (by simpa using hk)

/-- A failure of the apply goroutine tells every waiter, if it is the first one. -/
theorem Raft.Waited.stopped (h : r.Waited) (err : String) :
    (r.stopped err).Waited ∧ r.Attends (r.stopped err) := by
  unfold Raft.stopped
  split
  · exact ⟨h.update rfl rfl h.above, .of_eq rfl rfl⟩
  · obtain ⟨channels, hlen, heq⟩ := Raft.complete_foldl r.pendingResults err r
    refine h.answered (fun _ => false) (by simp) ?_ ?_ ?_ nofun
    · exact (congrArg (List.length ∘ Raft.channels) heq).trans hlen
    · intro p hp _
      exact ⟨_, Raft.foldl_complete_of_mem _ r h.distinct hp (h.waits p hp)⟩
    · intro k hk
      refine Raft.foldl_complete_of_notMem _ r fun hmem => ?_
      obtain ⟨p, hp, hpk⟩ := List.mem_map.mp hmem
      exact hk p hp rfl hpk

theorem Effect.waited (he : Effect env r₀ i r r')
    (hk : ∀ req, i = .installRequest req → r₀.lastApplied < r'.lastApplied →
      ∀ p ∈ r₀.pendingResults, req.lastIncludedIndex < p.1)
    (hp : ∀ command, i ≠ .propose command) (h : r.Waited) : r'.Waited ∧ r.Attends r' := by
  cases he with
  | propose _ command => exact absurd rfl (hp command)
  | install _ req hu hi =>
    refine ⟨h.update rfl rfl fun p hp => ?_, .of_eq rfl rfl⟩
    refine max_lt (h.above p hp) (hk req rfl ?_ p (hu.pendingResults ▸ hp))
    rw [← hu.lastApplied]
    exact hi.above.trans_le (Nat.le_max_right _ _)
  | checkpoint _ entry _ hnext => exact h.checkpointed hnext
  | stop _ err => exact h.stopped err
  | _ => exact ⟨h.update rfl rfl h.above, .of_eq rfl rfl⟩

theorem Effects.waited (he : Effects env r i r')
    (hk : ∀ req, i = .installRequest req → r.lastApplied < r'.lastApplied →
      ∀ p ∈ r.pendingResults, req.lastIncludedIndex < p.1)
    (hp : ∀ command, i ≠ .propose command) (h : r.Waited) : r'.Waited ∧ r.Attends r' := by
  induction he with
  | refl => exact ⟨h, .of_eq rfl rfl⟩
  | tail _ he ih =>
    obtain ⟨hw, hattends⟩ := ih fun req hi hlt => hk req hi (hlt.trans_le he.lastApplied_le)
    obtain ⟨hw', hattends'⟩ := he.waited hk hp hw
    exact ⟨hw', hattends.trans hattends'⟩

/-! ## The life of a node -/

/-- A proposal returned `index` and `channel`. -/
def Promised (events : List (Event σ)) (index channel : Nat) : Prop :=
  ∃ r command, ⟨r, .propose command, .proposed index channel⟩ ∈ events

theorem promised_append {events : List (Event σ)} {out : Output} {index channel : Nat}
    (h : Promised (events ++ [⟨r, i, out⟩]) index channel) :
    Promised events index channel ∨
      ∃ command, i = .propose command ∧ out = .proposed index channel := by
  obtain ⟨r₁, command, hm⟩ := h
  rcases List.mem_append.mp hm with hm | hm
  · exact .inl ⟨r₁, command, hm⟩
  · obtain ⟨-, rfl, rfl⟩ := Event.mk.inj (List.mem_singleton.mp hm)
    exact .inr ⟨command, rfl, rfl⟩

/-- What is known of a running node and of the proposals it has taken. -/
structure Attended (events : List (Event σ)) (r : Raft σ) (d : Disk) : Prop where
  ahead : Ahead r d.stable
  supplied : r.Supplied
  waited : r.Waited
  promised : ∀ index channel, Promised events index channel →
    (index, channel) ∈ r.pendingResults ∨ r.Settled channel

theorem Attended.step (hmaj : env.majority ≠ 1) {events : List (Event σ)} {d d' : Disk}
    {answers : List Outcome} {out : Output} (h : Attended events r d)
    (hk : r.KeepsWaiters env d (i, answers))
    (hrun : (react env i).run answers r d = .done out r' d') :
    Attended (events ++ [⟨r, i, out⟩]) r' d' := by
  obtain ⟨heff, ha, hshow⟩ := effects_of_done hmaj h.ahead hrun
  have hkeep (hattends : r.Attends r') {index channel : Nat}
      (hpromised : Promised events index channel) :
      (index, channel) ∈ r'.pendingResults ∨ r'.Settled channel := by
    rcases h.promised index channel hpromised with hmem | hs
    · exact hattends.pending _ hmem
    · exact .inr (hattends.settled channel hs)
  -- a step that takes no proposal makes no promise
  have hquiet (hw : r'.Waited ∧ r.Attends r')
      (hout : ∀ command index channel, i = .propose command → out ≠ .proposed index channel) :
      Attended (events ++ [⟨r, i, out⟩]) r' d' := by
    refine ⟨ha, heff.supplied h.supplied, hw.1, fun index channel hpromised => ?_⟩
    rcases promised_append hpromised with hold | ⟨command, hi, heq⟩
    · exact hkeep hw.2 hold
    · exact absurd heq (hout command index channel hi)
  by_cases hp : ∃ command, i = .propose command
  · obtain ⟨command, rfl⟩ := hp
    cases out with
    | none =>
      obtain rfl : r' = r := hshow
      exact hquiet ⟨h.waited, .of_eq rfl rfl⟩ nofun
    | proposed index channel =>
      have hfree := hk ⟨index, channel, r', d', hrun⟩
      obtain ⟨rfl, rfl, rfl⟩ := hshow
      obtain ⟨hw, hattends⟩ := h.waited.proposed h.supplied command hfree
      refine ⟨ha, heff.supplied h.supplied, hw, fun index channel hpromised => ?_⟩
      rcases promised_append hpromised with hold | ⟨_, -, heq⟩
      · exact hkeep hattends hold
      · obtain ⟨rfl, rfl⟩ := Output.proposed.inj heq
        exact .inl List.mem_cons_self
    | _ => exact hshow.elim
  · push Not at hp
    refine hquiet (heff.waited (fun req hi hlt => ?_) hp h.waited)
      fun command _ _ hi => absurd hi (hp command)
    subst hi
    exact hk ⟨out, r', d', hrun, hlt⟩

/-- In every life of a node in which no installed snapshot and no new proposal
takes the key of a waiter: a proposal at or below `lastApplied` has its one
result on its closed channel, no channel has two results, and the keys that are
left are above `lastApplied`. -/
theorem waiters_settled {answers : List Outcome} {d₀ d d' : Disk} {v : σ}
    (hstart : start env answers d₀ = .done (.ok r) v d) {steps : List (Input × List Outcome)}
    (hkeeps : ∀ k a, steps[k]? = some a → ∀ r' d',
      (live env r d (steps.take k)).process = .up r' d' → r'.KeepsWaiters env d' a)
    (hup : (live env r d steps).process = .up r' d') :
    (∀ index channel, Promised (live env r d steps).events index channel →
      index ≤ r'.lastApplied → r'.Settled channel) ∧
    (∀ c ∈ r'.channels, c.received.length ≤ 1) ∧
    ∀ p ∈ r'.pendingResults, r'.lastApplied < p.1 := by
  have hstarts := start_done hstart
  obtain ⟨hcfg, hfresh, hwf, hord⟩ := hstarts.2 r rfl
  have hfirst : Attended [] r d := by
    refine ⟨hstarts.ahead, hstarts.supplied, ?_, ?_⟩
    · refine ⟨?_, ?_, ?_, ?_, ?_⟩
      · rw [hfresh.pendingResults]; exact List.nodup_nil
      · rw [hfresh.pendingResults]; exact List.nodup_nil
      · rw [hfresh.pendingResults]; exact nofun
      · rw [hfresh.pendingResults]; exact nofun
      · rw [hfresh.channels]; exact nofun
    · rintro _ _ ⟨_, _, hm⟩
      cases hm
  have h : Attended (live env r d steps).events r' d' :=
    live_induction Attended (fun r d a => r.KeepsWaiters env d a) hfirst
      (fun h hk hrun => h.step (Env.majority_gt_one hcfg).ne' hk hrun) hkeeps hup
  refine ⟨fun index channel hpromised hle => ?_, fun c hc => ?_, h.waited.above⟩
  · rcases h.promised index channel hpromised with hmem | hs
    · exact absurd hle (Nat.not_le.mpr (h.waited.above _ hmem))
    · exact hs
  · obtain ⟨k, hk⟩ := List.getElem?_of_mem hc
    rcases h.waited.settled k (List.getElem?_eq_some_iff.mp hk).1 with hmem | ⟨result, hget⟩
    · obtain ⟨p, hp, rfl⟩ := List.mem_map.mp hmem
      obtain rfl := Option.some.inj (hk.symm.trans (h.waited.waits p hp))
      exact Nat.zero_le _
    · obtain rfl := Option.some.inj (hk.symm.trans hget)
      exact Nat.le_refl _

theorem waiters_settled_acknowledgedLife :
    ∃ r v d, start ((localCluster 1).env 1) [] .empty = .done (.ok r) v d ∧
      Promised (live ((localCluster 1).env 1) r d acknowledgedLife).events 2 0 ∧
      ∃ r' d', (live ((localCluster 1).env 1) r d acknowledgedLife).process = .up r' d' ∧
        r'.lastApplied = 2 ∧ r'.Settled 0 := by
  have hpromised : ∀ r d, start ((localCluster 1).env 1) [] .empty = .done (.ok r) (.new 8) d →
      Promised (live ((localCluster 1).env 1) r d acknowledgedLife).events 2 0 := by
    rintro _ _ ⟨⟩
    exact ⟨_, ⟨.set, [107], [118]⟩, List.mem_of_getElem? (i := 2) rfl⟩
  refine ⟨_, _, _, rfl, hpromised _ _ rfl, _, _, rfl, rfl, ?_⟩
  refine (@waiters_settled _ ((localCluster 1).env 1) _ _ [] .empty _ _ _ rfl acknowledgedLife ?_
    rfl).1 2 0 (hpromised _ _ rfl) (Nat.le_refl _)
  refine live_each ⟨fun _ _ _ => trivial, fun _ _ _ => trivial, ?_, fun _ _ _ => trivial,
    fun _ _ _ => trivial, fun _ _ _ => trivial, fun _ _ _ => trivial, fun _ _ _ => trivial,
    fun _ _ _ => trivial, fun _ _ _ => trivial, trivial⟩
  rintro _ _ ⟨⟩ _
  rfl

/-- Node 1 leads the first term and proposes a write at index 2. The leader of
the second term, which never saw the write, sends a snapshot through index 2. -/
def skippedLife : List (Input × List Outcome) :=
  [(.electionTimeout, []), (.voteResponse 2 1 ⟨1, true⟩, []), (.propose ⟨.set, [107], [118]⟩, []),
    (.installRequest ⟨2, 2, 2, 2, Json.framed.marshal (some .empty),
      [noopEntry 1 1, noopEntry 2 2]⟩, [])]

/-- The client of that write waits for ever. -/
theorem install_forgets_waiter :
    ∃ r v d, start ((localCluster 1).env 1) [] .empty = .done (.ok r) v d ∧
      Promised (live ((localCluster 1).env 1) r d skippedLife).events 2 0 ∧
      ∃ r' d', (live ((localCluster 1).env 1) r d skippedLife).process = .up r' d' ∧
        r'.lastApplied = 2 ∧ r'.channels = [⟨[], false⟩] ∧ r'.pendingResults = [(2, 0)] := by
  refine ⟨_, _, _, rfl, ?_, _, _, rfl, rfl, rfl, rfl⟩
  exact ⟨_, ⟨.set, [107], [118]⟩, List.mem_of_getElem? (i := 2) rfl⟩

/-- Node 1 leads the first term and proposes writes at the indexes 2 to 4, loses
them to the leader of the second term, and proposes another write at index 4
when it leads the third. -/
def repeatedLife : List (Input × List Outcome) :=
  [(.electionTimeout, []), (.voteResponse 2 1 ⟨1, true⟩, []), (.propose ⟨.set, [107], [97]⟩, []),
    (.propose ⟨.set, [107], [98]⟩, []), (.propose ⟨.set, [107], [99]⟩, []),
    (.appendRequest ⟨2, 2, 1, 1, [noopEntry 2 2], 0⟩, []),
    (.electionTimeout, []), (.voteResponse 2 3 ⟨3, true⟩, []),
    (.propose ⟨.set, [107], [100]⟩, [])]

/-- The channel of the earlier write at index 4 has no key any more. -/
theorem propose_replaces_waiter :
    ∃ r v d, start ((localCluster 1).env 1) [] .empty = .done (.ok r) v d ∧
      Promised (live ((localCluster 1).env 1) r d repeatedLife).events 4 2 ∧
      Promised (live ((localCluster 1).env 1) r d repeatedLife).events 4 3 ∧
      ∃ r' d', (live ((localCluster 1).env 1) r d repeatedLife).process = .up r' d' ∧
        r'.pendingResults = [(4, 3), (3, 1), (2, 0)] ∧ r'.channels.map Channel.closed =
          [false, false, false, false] := by
  refine ⟨_, _, _, rfl, ?_, ?_, _, _, rfl, rfl, rfl⟩
  · exact ⟨_, ⟨.set, [107], [99]⟩, List.mem_of_getElem? (i := 4) rfl⟩
  · exact ⟨_, ⟨.set, [107], [100]⟩, List.mem_of_getElem? (i := 8) rfl⟩

end DistributedKv
