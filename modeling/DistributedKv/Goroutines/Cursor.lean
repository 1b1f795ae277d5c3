import DistributedKv.Goroutines.Model
import DistributedKv.Lib.Slots
import DistributedKv.Raft.Faults

/-!
What a `replicateToPeer` goroutine may rely on while it does not hold `r.mu`. A
node that has led a term does not come to lead it again, its snapshot boundary
only moves up, and while it leads, the cursor of a peer is moved by the responses
of that peer alone. `Exchange.Ok` says what follows for a goroutine at each stage,
and holds as long as no other goroutine works for the same peer.
-/

namespace DistributedKv

open Crash Prog

variable {σ : Type} {env : Env σ} {i : Input} {r₀ r r' : Raft σ} {d d' : Disk}

/-- A response of this peer to a replication request. -/
def Input.RepliesFrom : Input → Int → Prop
  | .appendResponse p _ _, peer => p = peer
  | .installResponse p _ _, peer => p = peer
  | _, _ => False

namespace Raft

def Leads (r : Raft σ) (term : Nat) : Prop := r.state = .leader ∧ r.currentTerm = term

/-- The node can no longer come to lead the term. -/
def Past (r : Raft σ) (term : Nat) : Prop :=
  term < r.currentTerm ∨ term = r.currentTerm ∧ r.state ≠ .candidate

/-- The snapshot boundary stays or moves up. -/
def Raises (r r' : Raft σ) : Prop :=
  r'.snapshotMeta = r.snapshotMeta ∨
    r.snapshotMeta.lastIncludedIndex < r'.snapshotMeta.lastIncludedIndex

theorem Leads.past {term : Nat} (h : r.Leads term) : r.Past term :=
  .inr ⟨h.2.symm, by rw [h.1]; exact State.noConfusion⟩

/-- Role and term are those of before. -/
theorem Past.congr {term : Nat} (h : r.Past term) (ht : r'.currentTerm = r.currentTerm)
    (hs : r'.state = r.state) : r'.Past term := by
  unfold Past
  rw [ht, hs]
  exact h

end Raft

/-! ## What a step of the node leaves alone -/

theorem Effect.past {term : Nat} (he : Effect env r₀ i r r') (h : r.Past term) : r'.Past term := by
  have hle : term ≤ r.currentTerm := h.elim Nat.le_of_lt fun heq => heq.1.le
  cases he with
  | raise _ _ _ _ hlt => exact .inl (hle.trans_lt hlt)
  | stand => exact .inl (Nat.lt_succ_of_le hle)
  | follow | lead =>
    rcases h with hlt | ⟨heq, -⟩
    · exact .inl hlt
    · exact .inr ⟨heq, State.noConfusion⟩
  | checkpoint _ entry =>
    obtain ⟨_, _, -, -, heq⟩ := r.checkpointed_eq entry
    rw [heq]
    exact h
  | stop _ err =>
    obtain ⟨_, _, _, -, -, heq⟩ := r.stopped_eq err
    rw [heq]
    exact h
  | _ => exact h

theorem Effects.past {term : Nat} (he : Effects env r i r') (h : r.Past term) : r'.Past term := by
  induction he with
  | refl => exact h
  | tail _ he ih => exact he.past ih

theorem setAt_of_not_repliesFrom {peer p : Int} (m : Int → Option Nat) (value : Nat)
    (hne : ¬ p = peer) : setAt m p value peer = m peer := setAt_of_ne p value m (Ne.symm hne)

theorem Raft.recordMatch_nextIndex_of_ne {peer p : Int} (matched : Nat) (hne : ¬ p = peer) :
    (r.recordMatch p matched).nextIndex peer = r.nextIndex peer := by
  simp only [recordMatch]
  generalize (if matched > (r.matchIndex p).getD 0 then matched else _) = newMatch
  split
  · exact setAt_of_not_repliesFrom _ _ hne
  · rfl

/-- A node that leads a term now has led it before, and meanwhile the cursor of a
peer is moved by nothing but the responses of that peer. -/
theorem Effect.leads {term : Nat} {peer : Int} (he : Effect env r₀ i r r') (hpast : r.Past term)
    (hi : ¬ i.RepliesFrom peer) (h : r'.Leads term) :
    r.Leads term ∧ r'.nextIndex peer = r.nextIndex peer := by
  cases he with
  | raise | follow | stand => cases h.1
  | lead _ _ _ e _ ht hc _ =>
    rcases hpast with hlt | ⟨-, hne⟩
    · exact absurd h.2 hlt.ne'
    · exact absurd hc hne
  | backUp => exact ⟨h, setAt_of_not_repliesFrom _ _ hi⟩
  | recordInstall => exact ⟨h, setAt_of_not_repliesFrom _ _ hi⟩
  | recordAppend =>
    exact ⟨h, Raft.recordMatch_nextIndex_of_ne _ hi⟩
  | checkpoint _ entry =>
    obtain ⟨_, _, -, -, heq⟩ := r.checkpointed_eq entry
    rw [heq] at h ⊢
    exact ⟨h, rfl⟩
  | stop _ err =>
    obtain ⟨_, _, _, -, -, heq⟩ := r.stopped_eq err
    rw [heq] at h ⊢
    exact ⟨h, rfl⟩
  | _ => exact ⟨h, rfl⟩

theorem Effects.leads {term : Nat} {peer : Int} (he : Effects env r i r') (hpast : r.Past term)
    (hi : ¬ i.RepliesFrom peer) (h : r'.Leads term) :
    r.Leads term ∧ r'.nextIndex peer = r.nextIndex peer := by
  induction he with
  | refl => exact ⟨h, rfl⟩
  | tail hes he ih =>
    obtain ⟨hleads, hnext⟩ := he.leads (Effects.past hes hpast) hi h
    obtain ⟨hfirst, hnext'⟩ := ih hleads
    exact ⟨hfirst, hnext.trans hnext'⟩

/-- The boundary is never above what was applied. -/
theorem Effect.boundary_le (he : Effect env r₀ i r r')
    (h : r.snapshotMeta.lastIncludedIndex ≤ r.lastApplied) :
    r'.snapshotMeta.lastIncludedIndex ≤ r'.lastApplied := by
  cases he with
  | install => exact Nat.le_max_right _ _
  | checkpoint _ entry _ hnext =>
    obtain ⟨_, _, -, -, heq⟩ := r.checkpointed_eq entry
    rw [heq]
    change r.snapshotMeta.lastIncludedIndex ≤ entry.index
    omega
  | stop _ err =>
    obtain ⟨_, _, _, -, -, heq⟩ := r.stopped_eq err
    rw [heq]
    exact h
  | compact _ _ _ _ hb => exact hb.ge
  | _ => exact h

theorem Effects.boundary_le (he : Effects env r i r')
    (h : r.snapshotMeta.lastIncludedIndex ≤ r.lastApplied) :
    r'.snapshotMeta.lastIncludedIndex ≤ r'.lastApplied := by
  induction he with
  | refl => exact h
  | tail _ he ih => exact he.boundary_le ih

/-- Only an installation and the publication of a local snapshot move the boundary. -/
theorem Effect.snapshotMeta_eq (he : Effect env r₀ i r r') (hi : i ≠ .snapshotPublish) :
    r'.snapshotMeta = r.snapshotMeta ∨ ∃ req, r.Installs req ∧ r' = r.installed req := by
  cases he with
  | install _ req _ hins => exact .inr ⟨req, hins, rfl⟩
  | compact => exact absurd rfl hi
  | checkpoint _ entry =>
    obtain ⟨_, _, -, -, heq⟩ := r.checkpointed_eq entry
    rw [heq]
    exact .inl rfl
  | stop _ err =>
    obtain ⟨_, _, _, -, -, heq⟩ := r.stopped_eq err
    rw [heq]
    exact .inl rfl
  | _ => exact .inl rfl

theorem Effects.raises (he : Effects env r i r') (hi : i ≠ .snapshotPublish)
    (h : r.snapshotMeta.lastIncludedIndex ≤ r.lastApplied) : r.Raises r' := by
  induction he with
  | refl => exact .inl rfl
  | @tail b c hes he ih =>
    rcases he.snapshotMeta_eq hi with heq | ⟨req, hins, rfl⟩
    · rcases ih with ih | ih
      · exact .inl (heq.trans ih)
      · exact .inr (by rw [heq]; exact ih)
    · -- what is installed lies above everything that was applied
      have hle := Effects.boundary_le hes h
      have habove := hins.above
      refine .inr ?_
      change r.snapshotMeta.lastIncludedIndex < req.lastIncludedIndex
      rcases ih with ih | ih
      · rw [ih] at hle
        omega
      · omega

theorem snapshotPublish_raises {R : Disk → Prop} (hR : ∀ d, R d) :
    wp Any R snapshotPublish (fun _ r' _ => r.Raises r') r d := by
  have hsame : r.Raises r := .inl rfl
  simp only [snapshotPublish, wp_bind, wp_read]
  cases r.apply with
  | snapshotSaved b =>
    simp only [wp_ite, wp_modify]
    refine ⟨fun _ => .inl rfl, fun hgo => ?_⟩
    cases r.entriesFromLocked (b.lastIncludedIndex + 1) with
    | none => exact .inl rfl
    | some suffix =>
      rw [wp_bind]
      refine wp_store_of_keeps (hR _) (fun _ _ => hR _) (fun _ => hR _) ?_
      rintro (_ | _) d' _
      · exact .inl rfl
      · refine .inr ?_
        change r.snapshotMeta.lastIncludedIndex < b.lastIncludedIndex
        omega
  | _ => exact hsame

/-- The boundary stays or moves up in every step, whatever the stores answer. -/
theorem react_raises (hmaj : env.majority ≠ 1) (ha : Ahead r d.stable)
    (h : r.snapshotMeta.lastIncludedIndex ≤ r.lastApplied) {answers : List Outcome} {out : Output}
    (hrun : (react env i).run answers r d = .done out r' d') : r.Raises r' := by
  by_cases hi : i = .snapshotPublish
  · subst hi
    exact silent_done hrun rfl (fun _ _ => trivial) (snapshotPublish_raises fun _ => trivial)
  · exact (effects_of_done hmaj ha hrun).1.raises hi h

/-! ## What a goroutine relies on -/

namespace Raft

/-- The boundary is the one that was read, or has moved up since. -/
def Since (r : Raft σ) (metadata : SnapshotMetadata) : Prop :=
  r.snapshotMeta = metadata ∨ metadata.lastIncludedIndex < r.snapshotMeta.lastIncludedIndex

/-- The peer's cursor is not above `index`. -/
def Behind (r : Raft σ) (peer : Int) (index : Nat) : Prop :=
  ∃ next, r.nextIndex peer = some next ∧ next ≤ index

theorem Since.raises {metadata : SnapshotMetadata} (h : r.Since metadata) (hr : r.Raises r') :
    r'.Since metadata := by
  rcases h with h | h <;> rcases hr with hr | hr
  · exact .inl (hr.trans h)
  · exact .inr (h ▸ hr)
  · exact .inr (hr ▸ h)
  · exact .inr (h.trans hr)

/-- A boundary that has moved up does not come back. -/
theorem Since.eq_of_raises {metadata : SnapshotMetadata} (h : r.Since metadata)
    (hr : r.Raises r') (heq : r'.snapshotMeta = metadata) : r.snapshotMeta = metadata := by
  rcases hr with hr | hr
  · exact hr ▸ heq
  · rcases h with h | h
    · exact h
    · rw [heq] at hr
      omega

end Raft

namespace Goroutines

/-- What holds while a goroutine is at a stage: the node has not come back to the
term it led then, and while it still leads it, the cursor stands where the
goroutine found it. A snapshot that was loaded may be sent, and so is a message
of the network already when the node could have sent it at once. -/
def Exchange.Ok (env : Env σ) (net : List Message) (r : Raft σ) (x : Exchange) : Prop :=
  match x.stage with
  | .loading term metadata =>
      r.Past term ∧ r.Since metadata ∧ (r.Leads term → r.Behind x.peer metadata.lastIncludedIndex)
  | .loaded term metadata stored =>
      r.Past term ∧ r.Since metadata ∧
        (r.Leads term → r.Behind x.peer metadata.lastIncludedIndex) ∧
        (r.Leads term → r.snapshotMeta = metadata →
          .installRequest x.peer (snapshotRequest env term metadata stored) ∈ net)
  | .awaitInstall request =>
      r.Past request.term ∧ (r.Leads request.term → r.Behind x.peer request.lastIncludedIndex)
  | .awaitAppend request =>
      r.Past request.term ∧
        (r.Leads request.term → r.nextIndex x.peer = some (request.prevLogIndex + 1))
  | _ => True

variable {net net' : List Message} {x : Exchange}

/-- A goroutine that holds nothing relies on nothing. -/
theorem Exchange.Ok.of_slot (h : x.slot = none) : x.Ok env net r := by
  obtain ⟨peer, stage⟩ := x
  cases stage with
  | started => trivial
  | finished => trivial
  | _ => cases h

theorem Exchange.Ok.mono (h : x.Ok env net r) (hnet : net ⊆ net') : x.Ok env net' r := by
  obtain ⟨peer, stage⟩ := x
  cases stage with
  | loaded term metadata stored =>
    obtain ⟨hpast, hsince, hbehind, hsent⟩ := h
    exact ⟨hpast, hsince, hbehind, fun hl hm => hnet (hsent hl hm)⟩
  | _ => exact h

/-- A step of the node that does not handle a response of this peer. -/
theorem Exchange.Ok.step (h : x.Ok env net r) (he : Effects env r i r') (hr : r.Raises r')
    (hi : ¬ i.RepliesFrom x.peer) : x.Ok env net r' := by
  -- the cursor is the same as long as the node leads
  have hcursor {term : Nat} (hpast : r.Past term) {P : Option Nat → Prop}
      (hP : r.Leads term → P (r.nextIndex x.peer)) (hl : r'.Leads term) :
      P (r'.nextIndex x.peer) := by
    obtain ⟨hled, hnext⟩ := he.leads hpast hi hl
    rw [hnext]
    exact hP hled
  obtain ⟨peer, stage⟩ := x
  cases stage with
  | loading term metadata =>
    obtain ⟨hpast, hsince, hbehind⟩ := h
    exact ⟨he.past hpast, hsince.raises hr,
      hcursor (P := fun o => ∃ next, o = some next ∧ next ≤ _) hpast hbehind⟩
  | loaded term metadata stored =>
    obtain ⟨hpast, hsince, hbehind, hsent⟩ := h
    refine ⟨he.past hpast, hsince.raises hr,
      hcursor (P := fun o => ∃ next, o = some next ∧ next ≤ _) hpast hbehind, fun hl hm => ?_⟩
    exact hsent (he.leads hpast hi hl).1 (hsince.eq_of_raises hr hm)
  | awaitInstall request =>
    obtain ⟨hpast, hbehind⟩ := h
    exact ⟨he.past hpast, hcursor (P := fun o => ∃ next, o = some next ∧ next ≤ _) hpast hbehind⟩
  | awaitAppend request =>
    obtain ⟨hpast, hnext⟩ := h
    exact ⟨he.past hpast, hcursor (P := fun o => o = some (request.prevLogIndex + 1)) hpast hnext⟩
  | _ => trivial

/-- What holds of the goroutines of a node: at most one of them works for a peer,
and each finds what it relies on. -/
structure HostOk (env : Env σ) (net : List Message) (h : Host σ) : Prop where
  boundary_le : h.raft.snapshotMeta.lastIncludedIndex ≤ h.raft.lastApplied
  exclusive : Slots.Exclusive Exchange.slot h.routines.replicating h.routines.exchanges
  relies : ∀ (k : Nat) (x : Exchange), h.routines.exchanges[k]? = some x → x.Ok env net h.raft

namespace HostOk

variable {h h' : Host σ}

theorem mono (ho : HostOk env net h) (hnet : net ⊆ net') : HostOk env net' h :=
  ⟨ho.boundary_le, ho.exclusive, fun k x hx => (ho.relies k x hx).mono hnet⟩

/-- Only signals, or the stage of another goroutine, have changed. -/
theorem same (ho : HostOk env net h) (hraft : h'.raft = h.raft)
    (hrep : h'.routines.replicating = h.routines.replicating)
    (hex : h'.routines.exchanges = h.routines.exchanges) : HostOk env net h' := by
  refine ⟨hraft ▸ ho.boundary_le, ?_, ?_⟩
  · rw [hrep, hex]
    exact ho.exclusive
  · rw [hraft, hex]
    exact ho.relies

/-- The node takes a step that is not the response of a peer. -/
theorem step (ho : HostOk env net h) (he : Effects env h.raft i h'.raft)
    (hr : h.raft.Raises h'.raft) (hi : ∀ peer, ¬ i.RepliesFrom peer)
    (hrep : h'.routines.replicating = h.routines.replicating)
    (hex : h'.routines.exchanges = h.routines.exchanges) : HostOk env net h' := by
  refine ⟨he.boundary_le ho.boundary_le, ?_, ?_⟩
  · rw [hrep, hex]
    exact ho.exclusive
  · rw [hex]
    exact fun k x hx => (ho.relies k x hx).step he hr (hi x.peer)

/-- New goroutines hold nothing. -/
theorem spawn (ho : HostOk env net h) {new : List Exchange} (hnew : ∀ x ∈ new, x.slot = none)
    (hraft : h'.raft = h.raft) (hrep : h'.routines.replicating = h.routines.replicating)
    (hex : h'.routines.exchanges = h.routines.exchanges ++ new) : HostOk env net h' := by
  refine ⟨hraft ▸ ho.boundary_le, ?_, ?_⟩
  · rw [hrep, hex]
    exact ho.exclusive.append hnew
  · rw [hraft, hex]
    intro k x hx
    rcases List.mem_append.mp (List.mem_of_getElem? hx) with hmem | hmem
    · obtain ⟨j, hj⟩ := List.mem_iff_getElem?.mp hmem
      exact ho.relies j x hj
    · exact .of_slot (hnew x hmem)

variable {k : Nat} {stage : Stage} (ho : HostOk env net h)
  (hk : h.routines.exchanges[k]? = some x)

include ho hk

/-- One goroutine moves on; the others find what they relied on. -/
theorem relies_set (hok : ({ x with stage := stage } : Exchange).Ok env net h.raft) :
    ∀ (j : Nat) (y : Exchange),
      (h.routines.exchanges.set k { x with stage := stage })[j]? = some y →
      y.Ok env net h.raft := by
  intro j y hy
  by_cases hj : k = j
  · subst hj
    rw [List.getElem?_set_self (List.getElem?_eq_some_iff.mp hk).1] at hy
    obtain rfl := Option.some.inj hy
    exact hok
  · rw [List.getElem?_set_ne hj] at hy
    exact ho.relies j y hy

/-- A goroutine moves on and keeps its slot. -/
theorem setStage (hslot : ({ x with stage := stage } : Exchange).slot = x.slot)
    (hok : ({ x with stage := stage } : Exchange).Ok env net h.raft) :
    HostOk env net (h.setStage k x stage) :=
  ⟨ho.boundary_le, ho.exclusive.keep hk hslot, ho.relies_set hk hok⟩

/-- `beginReplication` -/
theorem acquire (hnone : x.slot = none) (hfree : h.routines.replicating x.peer = false) :
    HostOk env net ((h.setReplicating x.peer true).setStage k x .building) :=
  ⟨ho.boundary_le, ho.exclusive.acquire hk hnone hfree rfl, ho.relies_set hk trivial⟩

/-- `endReplication` -/
theorem release (hslot : x.slot = some x.peer) :
    HostOk env net ((h.setReplicating x.peer false).setStage k x .finished) :=
  ⟨ho.boundary_le, ho.exclusive.release hk hslot rfl, ho.relies_set hk trivial⟩

/-- The node handles the response that the goroutine waits for. No other
goroutine works for this peer, so nobody else relies on its cursor. -/
theorem reply (hslot : x.slot = some x.peer) (he : Effects env h.raft i h'.raft)
    (hr : h.raft.Raises h'.raft) (hi : ∀ peer, i.RepliesFrom peer → peer = x.peer)
    (hnew : ({ x with stage := stage } : Exchange).slot = some x.peer)
    (hok : ({ x with stage := stage } : Exchange).Ok env net h'.raft)
    (hrep : h'.routines.replicating = h.routines.replicating)
    (hex : h'.routines.exchanges = h.routines.exchanges.set k { x with stage := stage }) :
    HostOk env net h' := by
  refine ⟨he.boundary_le ho.boundary_le, ?_, ?_⟩
  · rw [hrep, hex]
    exact ho.exclusive.keep hk (hnew.trans hslot.symm)
  · rw [hex]
    intro j y hy
    by_cases hj : k = j
    · subst hj
      rw [List.getElem?_set_self (List.getElem?_eq_some_iff.mp hk).1] at hy
      obtain rfl := Option.some.inj hy
      exact hok
    · rw [List.getElem?_set_ne hj] at hy
      by_cases hpeer : y.slot = some x.peer
      · exact absurd (ho.exclusive.unique hk hy hslot hpeer) hj
      · by_cases hreply : i.RepliesFrom y.peer
        · refine .of_slot ?_
          rw [← hi y.peer hreply] at hpeer
          obtain ⟨peer, stage⟩ := y
          cases stage with
          | started => rfl
          | finished => rfl
          | _ => exact absurd rfl hpeer
        · exact (ho.relies j y hy).step he hr hreply

end HostOk

end Goroutines

end DistributedKv
