import DistributedKv.Lib.Consensus.Steps

/-!
What the invariant means: committed prefixes never disagree, and every leader
starts from a log that holds everything chosen in earlier terms. Also what a
step leaves alone, and the composed step of taking over a prefix of the leader's
log.
-/

namespace Consensus

open Function

variable {N E : Type} {P : Protocol N E} {s s' : State N E}

/-! ## Agreement -/

theorem Inv.chosen_comparable (hi : Inv P s) {T T' i i' : Nat} (h : Chosen P s T i)
    (h' : Chosen P s T' i') :
    (s.tlog T).take i <+: (s.tlog T').take i' ∨ (s.tlog T').take i' <+: (s.tlog T).take i := by
  wlog hle : T ≤ T' generalizing T T' i i'
  · exact (this h' h (by omega)).symm
  have hpre : (s.tlog T).take i <+: s.tlog T' := by
    rcases Nat.lt_or_eq_of_le hle with hlt | rfl
    · obtain ⟨hpos, _, he, _⟩ := h'.1
      obtain ⟨c, hc⟩ := hi.lead_of_tlog (List.getElem?_eq_some_iff.mp he).1
      exact h.isPrefix (hi.lead_complete h.1 hlt hc)
    · exact List.take_prefix _ _
  exact List.prefix_or_prefix_of_prefix hpre (List.take_prefix _ _)

/-- Of two committed lists, one continues the other. -/
theorem Inv.committed_comparable (hi : Inv P s) {t t' : Nat} {l l' : List E}
    (h : Committed P s t l) (h' : Committed P s t' l') : l <+: l' ∨ l' <+: l := by
  rcases h with rfl | ⟨T, i, _, hc, hl⟩
  · exact .inl List.nil_prefix
  rcases h' with rfl | ⟨T', i', _, hc', hl'⟩
  · exact .inr List.nil_prefix
  rcases hi.chosen_comparable hc hc' with h | h
  · exact List.prefix_or_prefix_of_prefix (hl.trans h) hl'
  · exact List.prefix_or_prefix_of_prefix hl (hl'.trans h)

/-- A leader stood for election with every prefix chosen in an earlier term. -/
theorem Inv.chosen_isPrefix_cand (hi : Inv P s) {T i t : Nat} {c : N} {l : List E}
    (h : Chosen P s T i) (hT : T < t) (hl : s.lead t = some c) (hc : s.cand t c = some l) :
    (s.tlog T).take i <+: l := by
  obtain ⟨Q, hQ, hv⟩ := hi.lead_quorum hl
  obtain ⟨ho, Q', hQ', ha⟩ := h
  obtain ⟨v, hvQ, hvQ'⟩ := P.inter Q Q' hQ hQ'
  exact Chosen.isPrefix ⟨ho, Q', hQ', ha⟩
    (hi.vote_complete ho (ha v hvQ') hT (hv v hvQ) hc)

theorem Inv.committed_isPrefix_cand (hi : Inv P s) {t T : Nat} {c : N} {l q : List E}
    (h : Committed P s T q) (hT : T < t) (hl : s.lead t = some c) (hc : s.cand t c = some l) :
    q <+: l := by
  rcases h with rfl | ⟨T', i, hT', hch, hq⟩
  · exact List.nil_prefix
  · exact hq.trans (hi.chosen_isPrefix_cand hch (by omega) hl hc)

/-- The log of a term continues whatever was committed up to that term. -/
theorem Inv.committed_isPrefix_tlog (hi : Inv P s) {t T : Nat} {c : N} {q : List E}
    (h : Committed P s t q) (ht : t ≤ T) (hl : s.lead T = some c) : q <+: s.tlog T := by
  rcases h with rfl | ⟨T', i, hT', hch, hq⟩
  · exact List.nil_prefix
  · rcases Nat.lt_or_eq_of_le (hT'.trans ht) with hlt | rfl
    · exact hq.trans (hch.isPrefix (hi.lead_complete hch.1 hlt hl))
    · exact hq.trans (List.take_prefix _ _)

variable [DecidableEq N] {n : N}

/-! ## What a step leaves alone -/

/-- Everything that belongs to nodes other than `n` is unchanged. -/
structure Frame (n : N) (s s' : State N E) : Prop where
  term : ∀ m, m ≠ n → s'.term m = s.term m
  vote : ∀ m, m ≠ n → s'.vote m = s.vote m
  log : ∀ m, m ≠ n → s'.log m = s.log m
  commit : ∀ m, m ≠ n → s'.commit m = s.commit m
  cand : ∀ m, m ≠ n → ∀ t, s'.cand t m = s.cand t m
  lead : ∀ m, m ≠ n → ∀ t, s'.lead t = some m ↔ s.lead t = some m
  ack : ∀ m, m ≠ n → s'.ack m = s.ack m

omit [DecidableEq N] in
theorem Frame.refl (n : N) (s : State N E) : Frame n s s :=
  ⟨fun _ _ => rfl, fun _ _ => rfl, fun _ _ => rfl, fun _ _ => rfl, fun _ _ _ => rfl,
    fun _ _ _ => Iff.rfl, fun _ _ => rfl⟩

omit [DecidableEq N] in
theorem Frame.trans {u : State N E} (h : Frame n s s') (h' : Frame n s' u) : Frame n s u where
  term m hm := (h'.term m hm).trans (h.term m hm)
  vote m hm := (h'.vote m hm).trans (h.vote m hm)
  log m hm := (h'.log m hm).trans (h.log m hm)
  commit m hm := (h'.commit m hm).trans (h.commit m hm)
  cand m hm t := (h'.cand m hm t).trans (h.cand m hm t)
  lead m hm t := (h'.lead m hm t).trans (h.lead m hm t)
  ack m hm := (h'.ack m hm).trans (h.ack m hm)

theorem Step.frame (h : Step P n s s') (hi : Inv P s) : Frame n s s' := by
  cases h with
  | advance t ht => exact { Frame.refl n s with term := fun m hm => update_of_ne hm _ _ }
  | stand =>
    refine { Frame.refl n s with
      term := fun m hm => update_of_ne hm _ _
      vote := fun m hm => update_of_ne hm _ _
      cand := fun m hm t => ?_ }
    simp [update₂_apply, hm]
  | grant c l hv hc hu => exact { Frame.refl n s with vote := fun m hm => update_of_ne hm _ _ }
  | elect Q e hc hl hQ hv he =>
    refine { Frame.refl n s with
      log := fun m hm => update_of_ne hm _ _
      ack := fun m hm => update_of_ne hm _ _
      lead := fun m hm t => ?_ }
    by_cases ht : t = s.term n
    · subst ht
      simp [hi.lead_none hl hQ hv, Ne.symm hm]
    · simp [ht]
  | extend e hl he =>
    exact { Frame.refl n s with
      log := fun m hm => update_of_ne hm _ _
      ack := fun m hm => update_of_ne hm _ _ }
  | truncate k hk ht hp hne => exact { Frame.refl n s with log := fun m hm => update_of_ne hm _ _ }
  | fill q hl hq => exact { Frame.refl n s with log := fun m hm => update_of_ne hm _ _ }
  | commit k hk hc => exact { Frame.refl n s with commit := fun m hm => update_of_ne hm _ _ }

theorem frame_acknowledge (k : Nat) : Frame n s (s.acknowledge n k) :=
  { Frame.refl n s with ack := fun _ hm => update_of_ne hm _ _ }

/-- Steps only acknowledge what their own leader appends. -/
theorem Step.lead_of_ack_lt (h : Step P n s s') {v : N} {t : Nat} (ha : s.ack v t < s'.ack v t) :
    s'.lead t = some v := by
  cases h with
  | elect Q e hc hl hQ hv he =>
    simp only [update₂_apply] at ha
    split at ha
    · rename_i heq
      obtain ⟨rfl, rfl⟩ := heq
      simp
    · omega
  | extend e hl he =>
    simp only [update₂_apply] at ha
    split at ha
    · rename_i heq
      obtain ⟨rfl, rfl⟩ := heq
      exact hl
    · omega
  | _ => exact absurd ha (Nat.lt_irrefl _)

/-- What a run of steps of one node does, in one record. -/
structure Moves (P : Protocol N E) (n : N) (s s' : State N E) : Prop where
  inv : Inv P s'
  extends_ : Extends s s'
  frame : Frame n s s'
  ack : ∀ v t, s.ack v t < s'.ack v t → s'.lead t = some v

omit [DecidableEq N] in
theorem Moves.refl (hi : Inv P s) : Moves P n s s :=
  ⟨hi, Extends.refl s, Frame.refl n s, fun _ _ h => absurd h (Nat.lt_irrefl _)⟩

omit [DecidableEq N] in
theorem Moves.trans {u : State N E} (h : Moves P n s s') (h' : Moves P n s' u) : Moves P n s u where
  inv := h'.inv
  extends_ := h.extends_.trans h'.extends_
  frame := h.frame.trans h'.frame
  ack v t hlt := by
    rcases Nat.lt_or_ge (s.ack v t) (s'.ack v t) with hl | hge
    · exact h'.extends_.lead (h.ack v t hl)
    · exact h'.ack v t (hge.trans_lt hlt)

theorem Step.moves (h : Step P n s s') (hi : Inv P s) : Moves P n s s' :=
  ⟨h.inv hi, h.extends hi, h.frame hi, fun _ _ => h.lead_of_ack_lt⟩

/-- Moves of one node, with an acknowledgement at the end. -/
structure Link (P : Protocol N E) (n : N) (s s' : State N E) : Prop where
  inv : Inv P s'
  extends_ : Extends s s'
  frame : Frame n s s'
  ack : ∀ v t, s.ack v t < s'.ack v t → s'.lead t = some v ∨ s'.term v = t

omit [DecidableEq N] in
theorem Moves.link (h : Moves P n s s') : Link P n s s' :=
  ⟨h.inv, h.extends_, h.frame, fun v t hlt => .inl (h.ack v t hlt)⟩

theorem Moves.acknowledge (h : Moves P n s s') {q : List E} (hl : q <+: s'.log n)
    (hq : q <+: s'.tlog (s'.term n)) : Link P n s (s'.acknowledge n q.length) where
  inv := h.inv.acknowledge hl hq
  extends_ := h.extends_.trans (extends_acknowledge _)
  frame := h.frame.trans (frame_acknowledge _)
  ack v t hlt := by
    rcases Nat.lt_or_ge (s.ack v t) (s'.ack v t) with hl | hge
    · exact .inl (h.ack v t hl)
    · refine .inr ?_
      simp only [State.acknowledge, update₂_apply] at hlt
      split at hlt
      · rename_i heq
        rw [heq.1, heq.2]
        rfl
      · omega

/-! ## Taking over a prefix of the leader's log -/

omit [DecidableEq N] in
/-- Lists that are not prefixes of one another differ somewhere. -/
theorem exists_conflict : ∀ {l q : List E}, ¬ l <+: q → ¬ q <+: l →
    ∃ k, k < l.length ∧ k < q.length ∧ l.take k <+: q ∧ l[k]? ≠ q[k]?
  | [], _, h, _ => absurd List.nil_prefix h
  | _ :: _, [], _, h => absurd List.nil_prefix h
  | a :: l, b :: q, h, h' => by
    by_cases hab : a = b
    · subst hab
      obtain ⟨k, hl, hq, hp, hne⟩ := exists_conflict (l := l) (q := q)
        (fun hc => h (List.cons_prefix_cons.mpr ⟨rfl, hc⟩))
        (fun hc => h' (List.cons_prefix_cons.mpr ⟨rfl, hc⟩))
      exact ⟨k + 1, by simpa using hl, by simpa using hq,
        by simpa using hp, by simpa using hne⟩
    · exact ⟨0, by simp, by simp, by simp, by simpa using hab⟩

/-- A node whose log does not contain the prefix `q` of the leader's log can
replace it by `q`. -/
theorem Inv.adopt (hi : Inv P s) {q : List E} (hq : q <+: s.tlog (s.term n))
    (hnot : ¬ q <+: s.log n) : Moves P n s { s with log := update s.log n q } := by
  by_cases hlq : s.log n <+: q
  · exact (Step.fill s q hlq hq).moves hi
  · obtain ⟨k, hk, hkq, hp, hne⟩ := exists_conflict hlq hnot
    have hkt : k < (s.tlog (s.term n)).length := hkq.trans_le hq.length_le
    have hqk : q[k]? = (s.tlog (s.term n))[k]? := by
      rw [List.getElem?_eq_getElem hkq, getElem?_of_isPrefix hq (List.getElem?_eq_getElem hkq)]
    have h₁ : Step P n s _ := .truncate s k hk hkt (hp.trans hq) (hqk ▸ hne)
    have h₂ : Step P n { s with log := update s.log n ((s.log n).take k) } _ :=
      .fill _ q (by simpa using hp) hq
    have := (h₁.moves hi).trans (h₂.moves (h₁.inv hi))
    simpa using this

end Consensus
