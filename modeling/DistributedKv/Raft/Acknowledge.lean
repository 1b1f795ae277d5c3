import DistributedKv.Cluster.Model
import DistributedKv.Lib.Run
import DistributedKv.Raft.WellFormed

/-!
What a nil result on the channel of a proposal means. `pendingResults` is keyed
by index and survives a loss of leadership, so a waiter whose entry is replaced
is told about the entry that came in its place. As long as no request takes an
entry away from its waiter (`Undisturbed`), a nil result is only sent for the
entry that the proposal appended, whatever the stores answer.
-/

namespace DistributedKv

open Crash

variable {σ : Type} {env : Env σ}

/-- The proposal that handed out `channel` appended `entry`. -/
def Originated (events : List (Event σ)) (channel : Nat) (entry : LogEntry) : Prop :=
  ∃ r command index, ⟨r, .propose command, .proposed index channel⟩ ∈ events ∧
    entry = proposedEntry index r.currentTerm command

/-- The request takes no entry away that somebody waits for: it does not
truncate one, and does not discard one above the snapshot it installs. -/
def Undisturbed (r : Raft σ) : Input → Prop
  | .appendRequest req => ∀ truncateFrom entries, r.appendPlan req = some (truncateFrom, entries) →
      truncateFrom ≠ 0 → ∀ p ∈ r.pendingResults, p.1 < truncateFrom
  | .installRequest req => r.Accepts req →
      (r.retainedSuffix req.lastIncludedIndex req.lastIncludedTerm).isSome = true ∨
        ∀ p ∈ r.pendingResults, p.1 ≤ req.lastIncludedIndex
  | _ => True

/-- A nil result for `index` was sent on `channel`. -/
def Raft.Received (r : Raft σ) (channel index : Nat) : Prop :=
  ∃ c, r.channels[channel]? = some c ∧ ⟨index, none⟩ ∈ c.received

theorem Raft.Received.of_complete {r : Raft σ} {channel channel' index : Nat} {result : Result}
    (h : (r.complete channel' result).Received channel index) :
    r.Received channel index ∨ channel = channel' ∧ result = ⟨index, none⟩ := by
  obtain ⟨c, hc, hmem⟩ := h
  simp only [Raft.complete, List.getElem?_modify] at hc
  cases hget : r.channels[channel]? with
  | none => simp [hget] at hc
  | some c' =>
    simp only [hget, Option.map_eq_map, Option.map_some, Option.some.injEq] at hc
    subst hc
    split at hmem
    · rename_i heq
      rcases List.mem_append.mp hmem with hmem | hmem
      · exact .inl ⟨c', hget, hmem⟩
      · exact .inr ⟨heq.symm, (List.mem_singleton.mp hmem).symm⟩
    · exact .inl ⟨c', hget, hmem⟩

theorem Raft.Received.of_complete_foldl {err : String} (ps : List (Nat × Nat)) {r : Raft σ}
    {channel index : Nat}
    (h : (ps.foldl (fun r p => r.complete p.2 ⟨p.1, some err⟩) r).Received channel index) :
    r.Received channel index := by
  induction ps generalizing r with
  | nil => exact h
  | cons p ps ih =>
    rcases Raft.Received.of_complete (ih h) with h | ⟨-, h⟩
    · exact h
    · cases h

theorem Raft.mem_of_waiting {r : Raft σ} {index channel : Nat}
    (h : r.waiting index = some channel) : (index, channel) ∈ r.pendingResults := by
  obtain ⟨l₁, l₂, heq, -⟩ := List.lookup_eq_some_iff.mp h
  rw [heq]
  exact List.mem_append_right _ List.mem_cons_self

/-! ## The waiters of a node -/

/-- Every waiter waits for the entry that its proposal appended, unless that
index was skipped by a snapshot; the entry being applied is in the log. -/
structure Waiting (events : List (Event σ)) (r : Raft σ) : Prop extends r.WellFormed where
  waiter : ∀ p ∈ r.pendingResults, ∃ e, Originated events p.2 e ∧ e.index = p.1 ∧
    (e.index ≤ r.lastApplied ∨ e ∈ r.log)
  applying : ∀ e, r.apply = .selected e ∨ r.apply = .applied e → e.index ≤ r.lastApplied ∨
    e.index = r.lastApplied + 1 ∧ e ∈ r.log ∧ e.index ≤ r.commitIndex

section Effects

variable {events : List (Event σ)} {i : Input} {r₀ r r' : Raft σ}

/-- A change that keeps the log. -/
theorem Waiting.keep (h : Waiting events r) (hwf : r'.WellFormed) (hlog : r'.log = r.log)
    (hpending : r'.pendingResults ⊆ r.pendingResults) (happlied : r.lastApplied ≤ r'.lastApplied)
    (happlying : ∀ e, r'.apply = .selected e ∨ r'.apply = .applied e → e.index ≤ r'.lastApplied ∨
      e.index = r'.lastApplied + 1 ∧ e ∈ r'.log ∧ e.index ≤ r'.commitIndex) :
    Waiting events r' where
  toWellFormed := hwf
  waiter p hp := by
    obtain ⟨e, ho, hi, hwait⟩ := h.waiter p (hpending hp)
    refine ⟨e, ho, hi, ?_⟩
    rcases hwait with hle | hmem
    · exact .inl (hle.trans happlied)
    · exact .inr (hlog ▸ hmem)
  applying := happlying

/-- A log that keeps the entries waited for and the one being applied. -/
theorem Waiting.relog (h : Waiting events r) (hwf : r'.WellFormed)
    (hpending : r'.pendingResults = r.pendingResults) (happlied : r'.lastApplied = r.lastApplied)
    (hcommit : r'.commitIndex = r.commitIndex) (happly : r'.apply = r.apply)
    (hwait : ∀ e ∈ r.log, (∃ p ∈ r.pendingResults, e.index = p.1) → e ∈ r'.log)
    (hcommitted : ∀ e ∈ r.log, e.index ≤ r.commitIndex → e ∈ r'.log) : Waiting events r' where
  toWellFormed := hwf
  waiter p hp := by
    rw [hpending] at hp
    rw [happlied]
    obtain ⟨e, ho, hi, hle | hmem⟩ := h.waiter p hp
    · exact ⟨e, ho, hi, .inl hle⟩
    · exact ⟨e, ho, hi, .inr (hwait e hmem ⟨p, hp, hi⟩)⟩
  applying e he := by
    rw [happly] at he
    rw [happlied, hcommit]
    rcases h.applying e he with hle | ⟨hi, hmem, hle⟩
    · exact .inl hle
    · exact .inr ⟨hi, hcommitted e hmem hle, hle⟩

/-- The plan of the step is the one that the request had when the step began. -/
theorem Raft.Unmoved.appendPlan {req : AppendEntriesRequest} {plan : Nat × List LogEntry}
    (hsame : r₀.Unmoved r) (ht : r₀.currentTerm ≤ req.term)
    (hm : r.matchesPrefixLocked req.prevLogIndex req.prevLogTerm = true)
    (hplan : r.replicationPlanLocked req.prevLogIndex req.entries = .ok plan) :
    r₀.appendPlan req = some plan := by
  rw [Raft.matchesPrefixLocked_congr hsame.log hsame.snapshotMeta] at hm
  have hplan₀ : r₀.replicationPlanLocked req.prevLogIndex req.entries = .ok plan :=
    (Raft.replicationPlanFrom_congr hsame.log hsame.snapshotMeta hsame.commitIndex _ _ _).symm.trans
      hplan
  rw [Raft.appendPlan, if_pos ⟨ht, hm⟩, hplan₀]
  rfl

theorem Undisturbed.lt_truncateFrom {req : AppendEntriesRequest} {truncateFrom : Nat}
    {entries : List LogEntry} {e : LogEntry} (hu : Undisturbed r₀ (.appendRequest req))
    (hsame : r₀.Unmoved r) (hplan : r₀.appendPlan req = some (truncateFrom, entries))
    (hw : ∃ p ∈ r.pendingResults, e.index = p.1) : truncateFrom ≠ 0 → e.index < truncateFrom := by
  intro hne
  obtain ⟨p, hp, hi⟩ := hw
  rw [hi]
  exact hu truncateFrom entries hplan hne p (hsame.pendingResults ▸ hp)

/-- Installing a snapshot that keeps the suffix, or that nobody waits above. -/
theorem Waiting.install (h : Waiting events r) {req : InstallSnapshotRequest}
    (hwf : (r.installed req).WellFormed) (hsame : r₀.Unmoved r) (hi : r.Installs req)
    (hterm : r₀.currentTerm ≤ r.currentTerm) (hu : Undisturbed r₀ (.installRequest req)) :
    Waiting events (r.installed req) := by
  have habove := hi.above
  have happlied : (r.installed req).lastApplied = req.lastIncludedIndex :=
    Nat.max_eq_right habove.le
  refine ⟨hwf, fun p hp => ?_, fun e he => .inl ?_⟩
  · obtain ⟨e, ho, hindex, hwait⟩ := h.waiter p hp
    refine ⟨e, ho, hindex, ?_⟩
    rw [happlied]
    by_cases hle : e.index ≤ req.lastIncludedIndex
    · exact .inl hle
    refine .inr ?_
    have hmem : e ∈ r.log := hwait.resolve_left (by omega)
    have hsuffix : r.retainedSuffix req.lastIncludedIndex req.lastIncludedTerm =
        r₀.retainedSuffix req.lastIncludedIndex req.lastIncludedTerm :=
      Raft.retainedSuffix_congr hsame.log hsame.snapshotMeta _ _
    rcases hu (hi.accepts hsame hterm) with hu | hu
    · rw [← hsuffix] at hu
      obtain ⟨es, hes⟩ := Option.isSome_iff_exists.mp hu
      have := (h.toWellFormed.entriesFromLocked_ok (Raft.entriesFrom_of_retainedSuffix hes)).2.2 e
      simp only [Raft.installed, hes, Option.getD_some]
      exact this.mpr ⟨hmem, by omega⟩
    · have := hu p (hsame.pendingResults ▸ hp)
      omega
  · rw [happlied]
    rcases h.applying e he with hle | ⟨hindex, -⟩
    · omega
    · omega

theorem Waiting.effect (h : Waiting events r) (hu : Undisturbed r₀ i)
    (hp : ∀ command, i ≠ .propose command) (hterm : r₀.currentTerm ≤ r.currentTerm)
    (he : Effect env r₀ i r r') : Waiting events r' := by
  have hwf := he.wellFormed h.toWellFormed
  cases he with
  | raise | follow | stand | vote | count | retire | restore | backUp | recordAppend
  | recordInstall => exact h.keep hwf rfl (List.Subset.refl _) le_rfl h.applying
  | selectFailed | applyFailed | checkpointFailed | begin | save | abandon =>
    exact h.keep hwf rfl (List.Subset.refl _) le_rfl nofun
  | propose _ command => exact absurd rfl (hp command)
  | lead =>
    exact h.relog hwf rfl rfl rfl rfl (fun e he _ => List.mem_append_left _ he) fun e he _ =>
      List.mem_append_left _ he
  | cut _ req truncateFrom entries l hsame hm hplan hl ht =>
    obtain ⟨-, hkeep, hcommit, -⟩ := h.toWellFormed.cutAt_ok hm hplan hl
    have hplan₀ := hsame.appendPlan ht hm hplan
    exact h.relog hwf rfl rfl rfl rfl
      (fun e he hw => hkeep e he (hu.lt_truncateFrom hsame hplan₀ hw)) hcommit
  | merge _ req truncateFrom entries l hsame hm hplan hl hes ht =>
    obtain ⟨-, hkeep, hcommit, -⟩ := h.toWellFormed.cutAt_ok hm hplan hl
    have hplan₀ := hsame.appendPlan ht hm hplan
    exact h.relog hwf rfl rfl rfl rfl
      (fun e he hw => List.mem_append_left _ (hkeep e he (hu.lt_truncateFrom hsame hplan₀ hw)))
      fun e he hle => List.mem_append_left _ (hcommit e he hle)
  | followCommit _ req hlt =>
    refine h.keep hwf rfl (List.Subset.refl _) le_rfl fun e he => ?_
    rcases h.applying e he with hle | ⟨hi, hmem, hle⟩
    · exact .inl hle
    · exact .inr ⟨hi, hmem, hle.trans hlt.le⟩
  | advance _ peer req resp index hl hc =>
    refine h.keep hwf rfl (List.Subset.refl _) le_rfl fun e he => ?_
    rcases h.applying e he with hle | ⟨hi, hmem, hle⟩
    · exact .inl hle
    · exact .inr ⟨hi, hmem, hle.trans (commitCandidate_some hc).1.le⟩
  | select _ entry hidle hlt hat =>
    obtain ⟨hmem, hi⟩ := h.toWellFormed.mem_of_entryAtLocked hat
    refine h.keep hwf rfl (List.Subset.refl _) le_rfl fun e he => ?_
    obtain rfl : entry = e := by simpa using he
    exact .inr ⟨hi, hmem, by change entry.index ≤ r.commitIndex; omega⟩
  | applyNoop _ entry ha =>
    refine h.keep hwf rfl (List.Subset.refl _) le_rfl fun e he => ?_
    obtain rfl : entry = e := by simpa using he
    exact h.applying entry (.inl ha)
  | applyDone _ entry f st ha =>
    refine h.keep hwf rfl (List.Subset.refl _) le_rfl fun e he => ?_
    obtain rfl : entry = e := by simpa using he
    exact h.applying entry (.inl ha)
  | checkpoint _ entry ha hi =>
    obtain ⟨_, _, -, hsub, heq⟩ := r.checkpointed_eq entry
    rw [heq] at hwf ⊢
    exact h.keep hwf rfl hsub (by change r.lastApplied ≤ entry.index; omega) nofun
  | stop _ err =>
    obtain ⟨_, _, _, -, hsub, heq⟩ := r.stopped_eq err
    rw [heq] at hwf ⊢
    exact h.keep hwf rfl hsub le_rfl nofun
  | install _ req hsame hi => exact h.install hwf hsame hi hterm hu
  | compact _ b suffix ha hb hs =>
    obtain ⟨-, -, hmem⟩ := h.toWellFormed.entriesFromLocked_ok hs
    refine ⟨hwf, fun p hp => ?_, nofun⟩
    obtain ⟨e, ho, hi, hle | he⟩ := h.waiter p hp
    · exact ⟨e, ho, hi, .inl hle⟩
    · refine ⟨e, ho, hi, ?_⟩
      change e.index ≤ r.lastApplied ∨ e ∈ suffix
      rw [hmem]
      by_cases hle : e.index ≤ r.lastApplied
      · exact .inl hle
      · exact .inr ⟨he, by omega⟩

theorem Waiting.effects (h : Waiting events r) (hu : Undisturbed r i)
    (hp : ∀ command, i ≠ .propose command) (he : Effects env r i r') : Waiting events r' := by
  induction he with
  | refl => exact h
  | tail hes he ih => exact ih.effect hu hp (Effects.term_le hes) he

/-- Only a proposal makes a channel, and only a checkpoint sends a nil result. -/
theorem channels_effect (hp : ∀ command, i ≠ .propose command) (he : Effect env r₀ i r r') :
    r'.channels.length = r.channels.length ∧
      (i ≠ .applyCheckpoint → ∀ {channel index}, r'.Received channel index →
        r.Received channel index) := by
  cases he with
  | propose _ command => exact absurd rfl (hp command)
  | checkpoint _ entry =>
    obtain ⟨_, _, hlen, -, heq⟩ := r.checkpointed_eq entry
    exact ⟨by rw [heq]; exact hlen, fun hne => absurd rfl hne⟩
  | stop _ err =>
    obtain ⟨_, _, _, hlen, -, heq⟩ := r.stopped_eq err
    refine ⟨by rw [heq]; exact hlen, fun _ channel index hr => ?_⟩
    unfold Raft.stopped at hr
    split at hr
    · exact hr
    · exact Raft.Received.of_complete_foldl r.pendingResults hr
  | _ => exact ⟨rfl, fun _ _ _ hr => hr⟩

theorem channels_effects (hp : ∀ command, i ≠ .propose command) (he : Effects env r i r') :
    r'.channels.length = r.channels.length ∧
      (i ≠ .applyCheckpoint → ∀ {channel index}, r'.Received channel index →
        r.Received channel index) := by
  induction he with
  | refl => exact ⟨rfl, fun _ _ _ hr => hr⟩
  | tail _ he ih =>
    obtain ⟨hlen, hrec⟩ := channels_effect hp he
    exact ⟨hlen.trans ih.1, fun hne _ _ hr => ih.2 hne (hrec hne hr)⟩

end Effects

/-! ## The life of a node -/

section Life

variable {events : List (Event σ)} {i : Input} {out : Output} {r r' : Raft σ} {d d' : Disk}
  {channel : Nat} {e : LogEntry}

theorem originated_append :
    Originated (events ++ [⟨r, i, out⟩]) channel e ↔ Originated events channel e ∨
      ∃ command index, i = .propose command ∧ out = .proposed index channel ∧
        e = proposedEntry index r.currentTerm command := by
  constructor
  · rintro ⟨r', command, index, hm, rfl⟩
    rcases List.mem_append.mp hm with hm | hm
    · exact .inl ⟨r', command, index, hm, rfl⟩
    · obtain ⟨rfl, rfl, rfl⟩ := Event.mk.inj (List.mem_singleton.mp hm)
      exact .inr ⟨command, index, rfl, rfl, rfl⟩
  · rintro (⟨r', command, index, hm, rfl⟩ | ⟨command, index, rfl, rfl, rfl⟩)
    · exact ⟨r', command, index, List.mem_append_left _ hm, rfl⟩
    · exact ⟨r, command, index, List.mem_append_right _ (List.mem_singleton.mpr rfl), rfl⟩

theorem Waiting.mono (h : Waiting events r) {events' : List (Event σ)} (hsub : events ⊆ events') :
    Waiting events' r where
  toWellFormed := h.toWellFormed
  waiter p hp := by
    obtain ⟨e, ⟨r', command, index, hm, rfl⟩, hrest⟩ := h.waiter p hp
    exact ⟨_, ⟨r', command, index, hsub hm, rfl⟩, hrest⟩
  applying := h.applying

/-- The node has just applied the committed entry. -/
def Raft.HasApplied (r : Raft σ) (e : LogEntry) : Prop :=
  r.apply = .applied e ∧ e ∈ r.log ∧ e.index ≤ r.commitIndex

/-- What is known of a running node and of the channels it handed out. -/
structure Informed (events : List (Event σ)) (r : Raft σ) (d : Disk) : Prop where
  waiting : Waiting events r
  ahead : Ahead r d.stable
  channels : ∀ channel e, Originated events channel e → channel < r.channels.length
  received : ∀ channel index, r.Received channel index →
    ∃ r₁ e, ⟨r₁, .applyCheckpoint, .completed channel e⟩ ∈ events ∧ e.index = index

/-- Nil results are only sent for the entry that the proposal appended. -/
structure Ledger (l : Life σ) : Prop where
  own : ∀ r channel e, ⟨r, .applyCheckpoint, .completed channel e⟩ ∈ l.events →
    r.HasApplied e ∧ Originated l.events channel e
  unique : ∀ channel e e', Originated l.events channel e → Originated l.events channel e' → e = e'
  node : ∀ r d, l.process = .up r d → Informed l.events r d

section Step

variable {l : Life σ} (h : Ledger l) (hup : l.process = .up r d)

include h hup

/-- A step that neither proposed nor completed anything. -/
theorem Ledger.quiet (hw : Waiting l.events r') (ha : Ahead r' d'.stable)
    (hlen : r'.channels.length = r.channels.length)
    (hrec : ∀ {channel index}, r'.Received channel index → r.Received channel index)
    (hprop : ∀ command index channel, ¬ (i = .propose command ∧ out = .proposed index channel))
    (hcomp : ∀ channel e, ¬ (i = .applyCheckpoint ∧ out = .completed channel e)) :
    Ledger ⟨.up r' d', l.events ++ [⟨r, i, out⟩]⟩ := by
  have hnode := h.node r d hup
  have hsub : l.events ⊆ l.events ++ [⟨r, i, out⟩] := List.subset_append_left _ _
  have horig : ∀ {channel e}, Originated (l.events ++ [⟨r, i, out⟩]) channel e →
      Originated l.events channel e := by
    intro channel e ho
    rcases originated_append.mp ho with ho | ⟨command, index, hi, hout, -⟩
    · exact ho
    · exact absurd ⟨hi, hout⟩ (hprop command index channel)
  refine ⟨fun r₁ channel e hm => ?_, fun channel e e' ho ho' => ?_, fun r₁ d₁ heq => ?_⟩
  · rcases List.mem_append.mp hm with hm | hm
    · exact ⟨(h.own r₁ channel e hm).1, originated_append.mpr (.inl (h.own r₁ channel e hm).2)⟩
    · obtain ⟨-, hi, hout⟩ := Event.mk.inj (List.mem_singleton.mp hm)
      exact absurd ⟨hi.symm, hout.symm⟩ (hcomp channel e)
  · exact h.unique channel e e' (horig ho) (horig ho')
  · obtain ⟨rfl, rfl⟩ := Process.up.inj heq
    refine ⟨hw.mono hsub, ha, fun channel e ho => ?_, fun channel index hr => ?_⟩
    · rw [hlen]
      exact hnode.channels channel e (horig ho)
    · obtain ⟨r₂, e, hm, he⟩ := hnode.received channel index (hrec hr)
      exact ⟨r₂, e, hsub hm, he⟩

/-- A successful proposal. -/
theorem Ledger.propose {command : Command} (hwf : (r.proposed command).WellFormed)
    (ha : Ahead (r.proposed command) d'.stable) :
    Ledger ⟨.up (r.proposed command) d', l.events ++ [⟨r, .propose command,
      .proposed (r.nextEntry command).index r.channels.length⟩]⟩ := by
  have hnode := h.node r d hup
  have hcases : ∀ {channel e}, Originated (l.events ++ [⟨r, .propose command,
      .proposed (r.nextEntry command).index r.channels.length⟩]) channel e →
      Originated l.events channel e ∨ channel = r.channels.length ∧ e = r.nextEntry command := by
    intro channel e ho
    rcases originated_append.mp ho with ho | ⟨command', index, hi, hout, rfl⟩
    · exact .inl ho
    · obtain rfl := Input.propose.inj hi
      obtain ⟨rfl, rfl⟩ := Output.proposed.inj hout
      exact .inr ⟨rfl, rfl⟩
  refine ⟨fun r₁ channel e hm => ?_, fun channel e e' ho ho' => ?_, fun r₁ d₁ heq => ?_⟩
  · rcases List.mem_append.mp hm with hm | hm
    · exact ⟨(h.own r₁ channel e hm).1, originated_append.mpr (.inl (h.own r₁ channel e hm).2)⟩
    · cases (Event.mk.inj (List.mem_singleton.mp hm)).2.1
  · -- the new channel has no earlier proposal
    rcases hcases ho with ho | ⟨rfl, rfl⟩
    · rcases hcases ho' with ho' | ⟨rfl, rfl⟩
      · exact h.unique channel e e' ho ho'
      · exact absurd (hnode.channels _ _ ho) (Nat.lt_irrefl _)
    · rcases hcases ho' with ho' | ⟨-, rfl⟩
      · exact absurd (hnode.channels _ _ ho') (Nat.lt_irrefl _)
      · rfl
  · obtain ⟨rfl, rfl⟩ := Process.up.inj heq
    have hsub : l.events ⊆ l.events ++ [(⟨r, .propose command,
        .proposed (r.nextEntry command).index r.channels.length⟩ : Event σ)] :=
      List.subset_append_left _ _
    have hw := hnode.waiting.mono hsub
    refine ⟨⟨hwf, fun p hp => ?_, fun e he => ?_⟩, ha, fun channel e ho => ?_, ?_⟩
    · rcases List.mem_cons.mp hp with rfl | hp
      · exact ⟨r.nextEntry command, originated_append.mpr (.inr ⟨command, _, rfl, rfl, rfl⟩), rfl,
          .inr (List.mem_append_right _ (List.mem_singleton.mpr rfl))⟩
      · obtain ⟨e, ho, hi, hwait⟩ := hw.waiter p (List.mem_of_mem_filter hp)
        exact ⟨e, ho, hi, hwait.imp_right (List.mem_append_left _)⟩
    · rcases hw.applying e he with hle | ⟨hi, hmem, hle⟩
      · exact .inl hle
      · exact .inr ⟨hi, List.mem_append_left _ hmem, hle⟩
    · change channel < (r.channels ++ [(⟨[], false⟩ : Channel)]).length
      rw [List.length_append, List.length_singleton]
      rcases hcases ho with ho | ⟨rfl, -⟩
      · exact (hnode.channels channel e ho).trans (Nat.lt_succ_self _)
      · exact Nat.lt_succ_self _
    · rintro channel index ⟨c, hc, hmem⟩
      change (r.channels ++ [(⟨[], false⟩ : Channel)])[channel]? = some c at hc
      rw [List.getElem?_append] at hc
      split at hc
      · obtain ⟨r₂, e, hm, he⟩ := hnode.received channel index ⟨c, hc, hmem⟩
        exact ⟨r₂, e, hsub hm, he⟩
      · have := List.mem_singleton.mp (List.mem_of_getElem? hc)
        rw [this] at hmem
        cases hmem

/-- A checkpoint that told a waiter: the entry just applied is the one that the
waiter's proposal appended, because both stand at one index of the log. -/
theorem Ledger.complete (hw : Waiting l.events (r.checkpointed e))
    (ha : Ahead (r.checkpointed e) d'.stable) (happlied : r.apply = .applied e)
    (hnext : r.lastApplied + 1 = e.index) (hwait : r.waiting e.index = some channel) :
    Ledger ⟨.up (r.checkpointed e) d',
      l.events ++ [⟨r, .applyCheckpoint, .completed channel e⟩]⟩ := by
  have hnode := h.node r d hup
  have hsub : l.events ⊆ l.events ++ [(⟨r, .applyCheckpoint, .completed channel e⟩ : Event σ)] :=
    List.subset_append_left _ _
  have horig : ∀ {channel' e'}, Originated (l.events ++ [⟨r, .applyCheckpoint,
      .completed channel e⟩]) channel' e' → Originated l.events channel' e' := by
    intro channel' e' ho
    rcases originated_append.mp ho with ho | ⟨command, index, hi, -⟩
    · exact ho
    · cases hi
  have hhas : r.HasApplied e := by
    rcases hnode.waiting.applying e (.inr happlied) with hle | ⟨-, hmem, hle⟩
    · omega
    · exact ⟨happlied, hmem, hle⟩
  have hown : Originated l.events channel e := by
    obtain ⟨e', ho, hi, hle | hmem⟩ := hnode.waiting.waiter _ (Raft.mem_of_waiting hwait)
    · have : e'.index = e.index := hi
      omega
    · rwa [hnode.waiting.toWellFormed.eq_of_index hhas.2.1 hmem hi.symm]
  refine ⟨fun r₁ channel' e' hm => ?_, fun channel' e₁ e₂ ho ho' => ?_, fun r₁ d₁ heq => ?_⟩
  · rcases List.mem_append.mp hm with hm | hm
    · have := h.own r₁ channel' e' hm
      exact ⟨this.1, originated_append.mpr (.inl this.2)⟩
    · obtain ⟨rfl, -, hout⟩ := Event.mk.inj (List.mem_singleton.mp hm)
      obtain ⟨rfl, rfl⟩ := Output.completed.inj hout
      exact ⟨hhas, originated_append.mpr (.inl hown)⟩
  · exact h.unique channel' e₁ e₂ (horig ho) (horig ho')
  · obtain ⟨rfl, rfl⟩ := Process.up.inj heq
    refine ⟨hw.mono hsub, ha, fun channel' e' ho => ?_, fun channel' index hr => ?_⟩
    · obtain ⟨_, _, hlen, -, heq⟩ := r.checkpointed_eq e
      rw [heq]
      rw [hlen]
      exact hnode.channels channel' e' (horig ho)
    · unfold Raft.checkpointed Raft.notify at hr
      rw [show Raft.waiting { r with lastApplied := e.index, apply := .idle } e.index =
        some channel from hwait] at hr
      rcases Raft.Received.of_complete hr with hr | ⟨rfl, hres⟩
      · obtain ⟨r₂, e', hm, he⟩ := hnode.received channel' index hr
        exact ⟨r₂, e', hsub hm, he⟩
      · exact ⟨r, e, List.mem_append_right _ (List.mem_singleton.mpr rfl), congrArg Result.index hres⟩

end Step

theorem Ledger.step (hcfg : env.cfg.validate = .ok ()) {l : Life σ} (h : Ledger l)
    {a : Input × List Outcome} (hu : ∀ r d, l.process = .up r d → Undisturbed r a.1) :
    Ledger (l.step env a) := by
  unfold Life.step
  split
  · exact h
  rename_i r d hup
  have hnode := h.node r d hup
  split
  · exact ⟨h.own, h.unique, fun _ _ hdown => by cases hdown⟩
  rename_i out r' d' hrun
  obtain ⟨heff, ha, hshow⟩ := effects_of_done (Env.majority_gt_one hcfg).ne' hnode.ahead hrun
  by_cases hp : ∃ command, a.1 = .propose command
  · obtain ⟨command, hp⟩ := hp
    rw [hp] at hshow heff ⊢
    cases out with
    | none =>
      obtain rfl : r' = r := hshow
      exact h.quiet hup hnode.waiting ha rfl (fun hr => hr) (by simp) (by simp)
    | proposed index channel =>
      obtain ⟨rfl, rfl, rfl⟩ := hshow
      exact h.propose hup (heff.wellFormed hnode.waiting.toWellFormed) ha
    | _ => exact hshow.elim
  · push Not at hp
    have hw := hnode.waiting.effects (hu r d hup) hp heff
    obtain ⟨hlen, hrec⟩ := channels_effects hp heff
    by_cases hc : a.1 = .applyCheckpoint
    · rw [hc] at hshow ⊢
      cases out with
      | none =>
        refine h.quiet hup hw ha hlen (fun hr => ?_) (by simp) (by simp)
        obtain ⟨c, hget, hmem⟩ := hr
        exact ⟨c, (show r'.channels = r.channels from hshow) ▸ hget, hmem⟩
      | completed channel e =>
        obtain ⟨rfl, happlied, hnext, hwait⟩ := hshow
        exact h.complete hup hw ha happlied hnext hwait
      | _ => exact hshow.elim
    · exact h.quiet hup hw ha hlen (hrec hc) (fun command _ _ hcon => hp command hcon.1)
        fun _ _ hcon => hc hcon.1

end Life

/-- In every life of a node whose requests take no entry away from a waiter, a
nil result is sent on a channel only when the committed entry just applied is
the one that the proposal behind the channel appended, and a nil result found on
a channel was sent so. -/
theorem acknowledged_own_entry {answers : List Outcome} {d₀ d : Disk} {v : σ} {r : Raft σ}
    (hstart : start env answers d₀ = .done (.ok r) v d) {steps : List (Input × List Outcome)}
    (hu : ∀ k a, steps[k]? = some a → ∀ r' d', (live env r d (steps.take k)).process = .up r' d' →
      Undisturbed r' a.1) {channel : Nat} :
    (∀ r₁ e, ⟨r₁, .applyCheckpoint, .completed channel e⟩ ∈ (live env r d steps).events →
      r₁.HasApplied e ∧ Originated (live env r d steps).events channel e ∧
        ∀ e', Originated (live env r d steps).events channel e' → e' = e) ∧
    ∀ r' d', (live env r d steps).process = .up r' d' → ∀ index, r'.Received channel index →
      ∃ r₁ e, ⟨r₁, .applyCheckpoint, .completed channel e⟩ ∈ (live env r d steps).events ∧
        e.index = index := by
  have hstarts := start_done hstart
  obtain ⟨hcfg, hfresh, hwf, -⟩ := hstarts.2 r rfl
  have hfirst : Ledger (⟨.up r d, []⟩ : Life σ) := by
    have hnone : ∀ channel e, ¬ Originated ([] : List (Event σ)) channel e := by
      rintro channel e ⟨_, _, _, hm, _⟩
      cases hm
    refine ⟨fun _ _ _ hm => absurd hm List.not_mem_nil,
      fun channel e _ ho => absurd ho (hnone channel e), fun r' d' heq => ?_⟩
    obtain ⟨rfl, rfl⟩ := Process.up.inj heq
    refine ⟨⟨hwf, ?_, ?_⟩, hstarts.ahead, fun channel e ho => absurd ho (hnone channel e), ?_⟩
    · rw [hfresh.pendingResults]
      exact nofun
    · rw [hfresh.apply]
      exact nofun
    · rintro channel index ⟨c, hc, -⟩
      rw [hfresh.channels] at hc
      cases hc
  have h : Ledger (live env r d steps) :=
    Run.invariant (fun l a (hl : Ledger l) hu => hl.step hcfg hu) hfirst steps hu
  refine ⟨fun r₁ e hm => ?_, fun r' d' hup index hr => (h.node r' d' hup).received channel index hr⟩
  obtain ⟨hhas, hown⟩ := h.own r₁ channel e hm
  exact ⟨hhas, hown, fun e' ho' => h.unique channel e' e ho' hown⟩

/-- Node 1 leads, proposes a write at index 2, and applies it once node 2 has it. -/
def acknowledgedLife : List (Input × List Outcome) :=
  [(.electionTimeout, []), (.voteResponse 2 1 ⟨1, true⟩, []), (.propose ⟨.set, [107], [118]⟩, []),
    (.appendResponse 2 ⟨1, 1, 0, 0, [noopEntry 1 1, ⟨2, 1, .set, [107], [118]⟩], 0⟩ ⟨1, true⟩, []),
    (.applySelect, []), (.applyEntry, []), (.applyCheckpoint, []),
    (.applySelect, []), (.applyEntry, []), (.applyCheckpoint, [])]

theorem acknowledged_own_entry_acknowledgedLife :
    ∃ r d, start ((localCluster 1).env 1) [] Disk.empty = .done (.ok r) (.new 8) d ∧
      ∃ r₁, ⟨r₁, .applyCheckpoint, .completed 0 ⟨2, 1, .set, [107], [118]⟩⟩ ∈
          (live ((localCluster 1).env 1) r d acknowledgedLife).events ∧
        r₁.HasApplied ⟨2, 1, .set, [107], [118]⟩ ∧
        Originated (live ((localCluster 1).env 1) r d acknowledgedLife).events 0
          ⟨2, 1, .set, [107], [118]⟩ := by
  refine ⟨_, _, rfl, _, List.mem_of_getElem? (i := 9) rfl, ?_⟩
  have h := @acknowledged_own_entry _ ((localCluster 1).env 1) [] Disk.empty _ _ _ rfl
    acknowledgedLife ?_ 0
  · have := h.1 _ _ (List.mem_of_getElem? (i := 9) rfl)
    exact ⟨this.1, this.2.1⟩
  · intro k a hk r' d' _
    have hmem := List.mem_of_getElem? hk
    simp only [acknowledgedLife, List.mem_cons, List.not_mem_nil, or_false] at hmem
    rcases hmem with rfl | rfl | rfl | rfl | rfl | rfl | rfl | rfl | rfl | rfl <;> trivial

/-- Node 1 leads the first term and proposes a write at index 2. The leader of
the second term then sends its no-op for that index, committed. -/
def overwrittenLife : List (Input × List Outcome) :=
  [(.electionTimeout, []), (.voteResponse 2 1 ⟨1, true⟩, []), (.propose ⟨.set, [107], [118]⟩, []),
    (.appendRequest ⟨2, 2, 1, 1, [noopEntry 2 2], 2⟩, []),
    (.applySelect, []), (.applyEntry, []), (.applyCheckpoint, []),
    (.applySelect, []), (.applyEntry, []), (.applyCheckpoint, [])]

/-- The client of that write is told that it succeeded when the no-op is
applied; its key was never written. -/
theorem acknowledged_other_entry :
    ∃ r d, start ((localCluster 1).env 1) [] Disk.empty = .done (.ok r) (.new 8) d ∧
      Originated (live ((localCluster 1).env 1) r d overwrittenLife).events 0
        ⟨2, 1, .set, [107], [118]⟩ ∧
      (∃ r₁, ⟨r₁, .applyCheckpoint, .completed 0 (noopEntry 2 2)⟩ ∈
        (live ((localCluster 1).env 1) r d overwrittenLife).events) ∧
      ∃ r' d', (live ((localCluster 1).env 1) r d overwrittenLife).process = .up r' d' ∧
        r'.Received 0 2 ∧ ∃ err, r'.store.get [107] = .error err := by
  refine ⟨_, _, rfl, ?_, ?_, _, _, rfl, ?_, _, rfl⟩
  · exact ⟨_, ⟨.set, [107], [118]⟩, 2, List.mem_of_getElem? (i := 2) rfl, rfl⟩
  · exact ⟨_, List.mem_of_getElem? (i := 9) rfl⟩
  · exact ⟨_, rfl, List.mem_cons_self⟩

end DistributedKv
