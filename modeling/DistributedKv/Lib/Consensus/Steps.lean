import DistributedKv.Lib.Consensus.Preservation

/-!
One preservation lemma for each step, assembled in `Step.inv`, and one for an
acknowledgement.
-/

namespace Consensus

open Function

variable {N E : Type} {P : Protocol N E} {s s' : State N E} [DecidableEq N] {n : N}

/-! ## Terms and votes -/

theorem extends_advance {t : Nat} (ht : s.term n < t) :
    Extends s { s with term := update s.term n t } where
  term m := by
    simp only [update_apply]
    split
    · subst m; exact ht.le
    · exact le_rfl
  vote h := h
  cand h := h
  lead h := h
  tlog _ := List.prefix_refl _
  ack _ _ := le_rfl
  ack_old _ := rfl

theorem Inv.advance (hi : Inv P s) {t : Nat} (ht : s.term n < t) :
    Inv P { s with term := update s.term n t } := by
  have hx := extends_advance (s := s) ht
  refine { hi with
    vote_le := fun h => (hi.vote_le h).trans (hx.term _)
    cand_le := fun h => (hi.cand_le h).trans (hx.term _)
    log_le := fun m e he => (hi.log_le m e he).trans (hx.term m)
    ack_term := fun h => (hi.ack_term h).trans (hx.term _)
    ack_log := fun m => ?_
    own_log := fun {m} h => ?_
    vote_complete := fun ho ha hT hv hc =>
      (hi.vote_complete ho ha hT hv hc).mono hx ho.le_length (List.prefix_refl _)
    node_complete := fun ho ha => (hi.node_complete ho ha).mono hx ho.le_length (List.prefix_refl _)
    lead_complete := fun ho hT hl =>
      (hi.lead_complete ho hT hl).mono hx ho.le_length (List.prefix_refl _)
    committed := fun m => (hi.committed m).mono hx (hx.term m) }
  · by_cases hm : m = n
    · subst m
      have h0 : s.ack n t = 0 := by
        rcases Nat.eq_zero_or_pos (s.ack n t) with h | h
        · exact h
        · have := hi.ack_term h
          omega
      simp [h0]
    · simpa [hm] using hi.ack_log m
  · by_cases hm : m = n
    · subst m
      simp only [update_self] at h
      obtain ⟨l, hl, _⟩ := hi.lead_cand h
      have := hi.cand_le hl
      omega
    · simpa [hm] using hi.own_log (n := m) (by simpa [hm] using h)

/-- Declare a candidature and vote for oneself in a term that was just reached. -/
theorem Inv.declare (hi : Inv P s) (hlt : ∀ e ∈ s.log n, P.termOf e < s.term n)
    (hv : s.vote n (s.term n) = none) (hc : s.cand (s.term n) n = none)
    (hx : Extends s { s with
      vote := update₂ s.vote n (s.term n) (some n)
      cand := update₂ s.cand (s.term n) n (some (s.log n)) }) :
    Inv P { s with
      vote := update₂ s.vote n (s.term n) (some n)
      cand := update₂ s.cand (s.term n) n (some (s.log n)) } := by
  refine { hi with
    vote_le := fun h => ?_
    vote_cand := fun {v t c} h => ?_
    cand_le := fun h => ?_
    cand_lt := fun h => ?_
    cand_grown := fun h => ?_
    lead_cand := fun h => ?_
    lead_quorum := fun h => ?_
    vote_complete := fun {T i v t c l} ho ha hT h h' => ?_
    node_complete := fun ho ha => (hi.node_complete ho ha).mono hx ho.le_length (List.prefix_refl _)
    lead_complete := fun ho hT hl =>
      (hi.lead_complete ho hT hl).mono hx ho.le_length (List.prefix_refl _)
    committed := fun m => (hi.committed m).mono hx le_rfl }
  · rcases update₂_eq_some h with h | ⟨rfl, rfl, _⟩
    · exact hi.vote_le h
    · exact le_rfl
  · rcases update₂_eq_some h with h | ⟨rfl, rfl, hcn⟩
    · obtain ⟨l, hl⟩ := hi.vote_cand h
      exact ⟨l, hx.cand hl⟩
    · subst hcn
      exact ⟨s.log c, by simp [update₂_apply]⟩
  · rcases update₂_eq_some h with h | ⟨rfl, rfl, _⟩
    · exact hi.cand_le h
    · exact le_rfl
  · rcases update₂_eq_some h with h | ⟨rfl, rfl, rfl⟩
    · exact hi.cand_lt h
    · exact hlt
  · rcases update₂_eq_some h with h | ⟨rfl, rfl, rfl⟩
    · exact hi.cand_grown h
    · exact hi.log_grown _
  · obtain ⟨l, hl, hp⟩ := hi.lead_cand h
    exact ⟨l, hx.cand hl, hp⟩
  · obtain ⟨Q, hQ, hvs⟩ := hi.lead_quorum h
    exact ⟨Q, hQ, fun v hvQ => hx.vote (hvs v hvQ)⟩
  · have hcar : Carried P s T i l := by
      rcases update₂_eq_some h with h | ⟨rfl, rfl, rfl⟩
      · rcases update₂_eq_some h' with h' | ⟨rfl, rfl, rfl⟩
        · exact hi.vote_complete ho ha hT h h'
        · obtain ⟨l, hl⟩ := hi.vote_cand h
          rw [hc] at hl
          cases hl
      · rcases update₂_eq_some h' with h' | ⟨_, _, rfl⟩
        · rw [hc] at h'
          cases h'
        · exact hi.node_complete ho ha
    exact hcar.mono hx ho.le_length (List.prefix_refl _)

theorem extends_declare (hv : s.vote n (s.term n) = none) (hc : s.cand (s.term n) n = none) :
    Extends s { s with
      vote := update₂ s.vote n (s.term n) (some n)
      cand := update₂ s.cand (s.term n) n (some (s.log n)) } where
  term _ := le_rfl
  vote {v t c} h := by
    have hne : ¬ (v = n ∧ t = s.term n) := by
      rintro ⟨rfl, rfl⟩
      rw [hv] at h
      cases h
    simpa [update₂_apply, hne] using h
  cand {t c l} h := by
    have hne : ¬ (t = s.term n ∧ c = n) := by
      rintro ⟨rfl, rfl⟩
      rw [hc] at h
      cases h
    simpa [update₂_apply, hne] using h
  lead h := h
  tlog _ := List.prefix_refl _
  ack _ _ := le_rfl
  ack_old _ := rfl

theorem extends_stand (hi : Inv P s) :
    Extends s { s with
      term := update s.term n (s.term n + 1)
      vote := update₂ s.vote n (s.term n + 1) (some n)
      cand := update₂ s.cand (s.term n + 1) n (some (s.log n)) } := by
  have h₁ := extends_advance (s := s) (n := n) (Nat.lt_succ_self _)
  have h₂ := extends_declare (s := { s with term := update s.term n (s.term n + 1) }) (n := n)
    (by simpa using hi.vote_none (Nat.lt_succ_self _))
    (by simpa using hi.cand_none (Nat.lt_succ_self _))
  simp only [update_self] at h₂
  exact h₁.trans h₂

theorem Inv.stand (hi : Inv P s) :
    Inv P { s with
      term := update s.term n (s.term n + 1)
      vote := update₂ s.vote n (s.term n + 1) (some n)
      cand := update₂ s.cand (s.term n + 1) n (some (s.log n)) } := by
  have hv := hi.vote_none (Nat.lt_succ_self (s.term n))
  have hc := hi.cand_none (Nat.lt_succ_self (s.term n))
  have hlt : ∀ e ∈ s.log n, P.termOf e < s.term n + 1 := fun e he =>
    Nat.lt_succ_of_le (hi.log_le n e he)
  have h := (hi.advance (n := n) (Nat.lt_succ_self _)).declare (n := n) (by simpa using hlt)
    (by simpa using hv) (by simpa using hc)
    (extends_declare (by simpa using hv) (by simpa using hc))
  simpa only [update_self] using h

theorem extends_grant {c : N} (hv : s.vote n (s.term n) = none ∨ s.vote n (s.term n) = some c) :
    Extends s { s with vote := update₂ s.vote n (s.term n) (some c) } where
  term _ := le_rfl
  vote {v t d} h := by
    simp only [update₂_apply]
    split
    · rename_i heq
      obtain ⟨rfl, rfl⟩ := heq
      rcases hv with hv | hv
      · rw [hv] at h
        cases h
      · rw [← h, hv]
    · exact h
  cand h := h
  lead h := h
  tlog _ := List.prefix_refl _
  ack _ _ := le_rfl
  ack_old _ := rfl

theorem Inv.grant (hi : Inv P s) {c : N} {l : List E}
    (hv : s.vote n (s.term n) = none ∨ s.vote n (s.term n) = some c)
    (hc : s.cand (s.term n) c = some l) (hu : UpToDate P l (s.log n)) :
    Inv P { s with vote := update₂ s.vote n (s.term n) (some c) } := by
  have hx := extends_grant hv
  refine { hi with
    vote_le := fun h => ?_
    vote_cand := fun h => ?_
    lead_quorum := fun h => ?_
    vote_complete := fun {T i v t d l'} ho ha hT h h' => ?_
    node_complete := fun ho ha => (hi.node_complete ho ha).mono hx ho.le_length (List.prefix_refl _)
    lead_complete := fun ho hT hl =>
      (hi.lead_complete ho hT hl).mono hx ho.le_length (List.prefix_refl _)
    committed := fun m => (hi.committed m).mono hx le_rfl }
  · rcases update₂_eq_some h with h | ⟨rfl, rfl, _⟩
    · exact hi.vote_le h
    · exact le_rfl
  · rcases update₂_eq_some h with h | ⟨rfl, rfl, rfl⟩
    · exact hi.vote_cand h
    · exact ⟨l, hc⟩
  · obtain ⟨Q, hQ, hvs⟩ := hi.lead_quorum h
    exact ⟨Q, hQ, fun v hvQ => hx.vote (hvs v hvQ)⟩
  · have hcar : Carried P s T i l' := by
      rcases update₂_eq_some h with h | ⟨rfl, rfl, rfl⟩
      · exact hi.vote_complete ho ha hT h h'
      · obtain rfl : l = l' := Option.some.inj (hc.symm.trans h')
        exact hi.carried_of_upToDate ho ha hc hu
    exact hcar.mono hx ho.le_length (List.prefix_refl _)

/-! ## Appending as a leader -/

/-- `n` appends `e` to its log and to the log of its term, with leaders `lead`. -/
def State.appended (s : State N E) (n : N) (e : E) (lead : Nat → Option N) : State N E :=
  { s with
    lead := lead
    tlog := update s.tlog (s.term n) (s.log n ++ [e])
    log := update s.log n (s.log n ++ [e])
    ack := update₂ s.ack n (s.term n) (s.log n ++ [e]).length }

section Append

variable {e : E} {lead : Nat → Option N}

theorem appended_ack {m : N} {t : Nat} (h : ¬ (m = n ∧ t = s.term n)) :
    (s.appended n e lead).ack m t = s.ack m t := by
  simp [State.appended, update₂_apply, h]

theorem extends_appended (hi : Inv P s) (hbase : s.tlog (s.term n) <+: s.log n)
    (hl : ∀ {t c}, s.lead t = some c → lead t = some c) : Extends s (s.appended n e lead) where
  term _ := le_rfl
  vote h := h
  cand h := h
  lead := hl
  tlog t := by
    by_cases ht : t = s.term n
    · subst ht
      simpa [State.appended] using hbase.trans (List.prefix_append _ [e])
    · simp [State.appended, ht]
  ack m t := by
    by_cases h : m = n ∧ t = s.term n
    · obtain ⟨rfl, rfl⟩ := h
      have h₁ := hi.ack_le m (s.term m)
      have h₂ := hbase.length_le
      simp [State.appended, update₂_apply]
      omega
    · exact (appended_ack h).ge
  ack_old {m t} ht := appended_ack (by rintro ⟨rfl, rfl⟩; omega)

/-- Whoever won a later term was elected without an acknowledgement of what is
being appended now. -/
theorem Inv.blocked_appended (hi : Inv P s) {t i : Nat} {c : N} (hc : s.lead t = some c)
    (ht : s.term n < t) (hlen : (s.tlog (s.term n)).length < i) :
    Blocked P (s.appended n e lead) (s.term n) i := by
  obtain ⟨Q, hQ, hv⟩ := hi.lead_quorum hc
  refine ⟨Q, hQ, fun v hvQ => ?_⟩
  have hle := hi.vote_le (hv v hvQ)
  refine ⟨ht.trans_le hle, ?_⟩
  rw [appended_ack (by rintro ⟨rfl, _⟩; omega)]
  exact (hi.ack_le v _).trans_lt hlen

theorem log_isPrefix_appended (m : N) : s.log m <+: (s.appended n e lead).log m := by
  by_cases hm : m = n
  · subst hm; simp [State.appended]
  · simp [State.appended, hm]

theorem Inv.log_le_appended (hi : Inv P s) (he : P.termOf e = s.term n) {m : N} {x : E}
    (hx : x ∈ (s.appended n e lead).log m) : P.termOf x ≤ s.term m := by
  by_cases hm : m = n
  · subst hm
    simp only [State.appended, update_self, List.mem_append, List.mem_singleton] at hx
    rcases hx with hx | rfl
    · exact hi.log_le m x hx
    · exact he.le
  · exact hi.log_le m x (by simpa [State.appended, hm] using hx)

theorem Inv.ack_log_appended (hi : Inv P s) (hx : Extends s (s.appended n e lead)) (m : N) :
    ((s.appended n e lead).tlog (s.term m)).take ((s.appended n e lead).ack m (s.term m)) <+:
      (s.appended n e lead).log m := by
  by_cases hm : m = n
  · subst hm
    simpa [State.appended, update₂_apply] using
      List.take_prefix ((s.log m).length + 1) (s.log m ++ [e])
  · rw [appended_ack fun h => hm h.1, take_of_isPrefix (hx.tlog _) (hi.ack_le m _)]
    exact (hi.ack_log m).trans (log_isPrefix_appended m)

/-- Entries of other terms are where they were, so only the new prefixes of the
current term can be blocked by its successors. -/
theorem Inv.lead_complete_appended (hi : Inv P s) (hx : Extends s (s.appended n e lead))
    (hne : ∀ t, t ≠ s.term n → lead t = s.lead t)
    (hcomplete : ∀ {T i}, Own P s T i → T < s.term n → Carried P s T i (s.log n))
    {T i t : Nat} {c : N} (ho : Own P (s.appended n e lead) T i) (hT : T < t)
    (h : lead t = some c) :
    Carried P (s.appended n e lead) T i ((s.appended n e lead).tlog t) := by
  rcases Nat.lt_or_ge (s.tlog T).length i with hlt | hge
  · have hTn : T = s.term n := by
      by_contra hTn
      have := ho.le_length
      simp [State.appended, hTn] at this
      omega
    subst hTn
    exact .inl (hi.blocked_appended ((hne t (by omega)).symm.trans h) hT hlt)
  · have ho' := ho.back hx hge
    by_cases ht : t = s.term n
    · subst ht
      refine (hcomplete ho' hT).mono hx hge ?_
      simp [State.appended]
    · exact (hi.lead_complete ho' hT ((hne t ht).symm.trans h)).mono hx hge (hx.tlog t)

theorem Inv.appended (hi : Inv P s) (he : P.termOf e = s.term n)
    (hbase : s.tlog (s.term n) <+: s.log n)
    (hl : ∀ {t c}, s.lead t = some c → lead t = some c) (hn : lead (s.term n) = some n)
    (hne : ∀ t, t ≠ s.term n → lead t = s.lead t)
    (hcand : ∃ l, s.cand (s.term n) n = some l ∧ l <+: s.log n ∧
      ∀ k x, l.length ≤ k → (s.log n)[k]? = some x → P.termOf x = s.term n)
    (hquorum : ∃ Q, P.Quorum Q ∧ ∀ v ∈ Q, s.vote v (s.term n) = some n)
    (hcomplete : ∀ {T i}, Own P s T i → T < s.term n → Carried P s T i (s.log n)) :
    Inv P (s.appended n e lead) := by
  have hx := extends_appended (e := e) hi hbase hl
  have hgrown := hi.grown_append he hbase
  -- Only `n` leads its term, so a leader of that term is `n` and the others are as before.
  have hself {c : N} (h : lead (s.term n) = some c) : n = c := Option.some.inj (hn.symm.trans h)
  refine
    { vote_le := hi.vote_le
      vote_cand := hi.vote_cand
      cand_le := hi.cand_le
      cand_lt := hi.cand_lt
      cand_grown := fun h => (hi.cand_grown h).mono hx.tlog
      lead_cand := fun {t c} h => ?_
      lead_quorum := fun {t c} h => ?_
      tlog_none := fun {t} h => ?_
      log_grown := fun m => ?_
      log_le := fun m x hxm => hi.log_le_appended he hxm
      ack_le := fun m t => ?_
      ack_term := fun {m t} h => ?_
      ack_log := hi.ack_log_appended hx
      own_log := fun {m} h => ?_
      vote_complete := fun {T i v t c l} ho ha hT h h' => ?_
      node_complete := fun {T i v} ho ha => ?_
      lead_complete := hi.lead_complete_appended hx hne hcomplete
      commit_le := fun m => (hi.commit_le m).trans (log_isPrefix_appended m).length_le
      committed := fun m => ?_ }
  · by_cases ht : t = s.term n
    · subst ht
      obtain rfl := hself h
      obtain ⟨l, hcl, hp, hown⟩ := hcand
      refine ⟨l, hcl, ?_, fun k x hk hkx => own_terms_append he hown hk ?_⟩
      · simpa [State.appended] using hp.trans (List.prefix_append _ [e])
      · simpa only [State.appended, update_self] using hkx
    · obtain ⟨l, hcl, hp⟩ := hi.lead_cand ((hne t ht).symm.trans h)
      exact ⟨l, hcl, by simpa [State.appended, ht] using hp⟩
  · by_cases ht : t = s.term n
    · subst ht
      obtain rfl := hself h
      exact hquorum
    · exact hi.lead_quorum ((hne t ht).symm.trans h)
  · have ht : t ≠ s.term n := by
      rintro rfl
      exact absurd (hn.symm.trans h) (by simp)
    simpa [State.appended, ht] using hi.tlog_none ((hne t ht).symm.trans h)
  · by_cases hm : m = n
    · subst hm; simpa [State.appended] using hgrown
    · simpa [State.appended, hm] using (hi.log_grown m).mono hx.tlog
  · by_cases h : m = n ∧ t = s.term n
    · obtain ⟨rfl, rfl⟩ := h; simp [State.appended, update₂_apply]
    · rw [appended_ack h]
      exact (hi.ack_le m t).trans (hx.tlog t).length_le
  · by_cases hmt : m = n ∧ t = s.term n
    · obtain ⟨rfl, rfl⟩ := hmt; exact le_rfl
    · rw [appended_ack hmt] at h
      exact hi.ack_term h
  · by_cases hm : m = n
    · subst hm; simp [State.appended, update₂_apply]
    · have ht : s.term m ≠ s.term n := fun heq => hm (hself (heq ▸ h)).symm
      simpa [State.appended, update₂_apply, hm, ht] using
        hi.own_log (n := m) ((hne _ ht).symm.trans h)
  · have hvn : ¬ (v = n ∧ T = s.term n) := by
      rintro ⟨rfl, rfl⟩
      have := hi.vote_le h
      omega
    rw [appended_ack hvn] at ha
    have ho' := ho.back hx (ha.trans (hi.ack_le v T))
    exact (hi.vote_complete ho' ha hT h h').mono hx ho'.le_length (List.prefix_refl _)
  · by_cases hvn : v = n ∧ T = s.term n
    · obtain ⟨rfl, rfl⟩ := hvn
      refine .inr ?_
      simpa [State.appended] using List.take_prefix i (s.log v ++ [e])
    · rw [appended_ack hvn] at ha
      have ho' := ho.back hx (ha.trans (hi.ack_le v T))
      exact (hi.node_complete ho' ha).mono hx ho'.le_length (log_isPrefix_appended v)
  · have hc := (hi.committed m).mono hx le_rfl
    rwa [← take_of_isPrefix (log_isPrefix_appended m) (hi.commit_le m)] at hc

end Append

section Elect

variable {Q : Set N} {e : E}

theorem extends_elect (hi : Inv P s) (hl : s.lead (s.term n) ≠ some n)
    (hQ : P.Quorum Q) (hv : ∀ v ∈ Q, s.vote v (s.term n) = some n) :
    Extends s (s.appended n e (update s.lead (s.term n) (some n))) := by
  have hnone := hi.lead_none hl hQ hv
  refine extends_appended hi (hi.tlog_none hnone ▸ List.nil_prefix) fun {t c} h => ?_
  by_cases ht : t = s.term n
  · rw [ht, hnone] at h
    cases h
  · simpa [ht] using h

theorem Inv.elect (hi : Inv P s) (hc : s.cand (s.term n) n = some (s.log n))
    (hl : s.lead (s.term n) ≠ some n) (hQ : P.Quorum Q)
    (hv : ∀ v ∈ Q, s.vote v (s.term n) = some n) (he : P.termOf e = s.term n) :
    Inv P (s.appended n e (update s.lead (s.term n) (some n))) := by
  have hnone := hi.lead_none hl hQ hv
  refine hi.appended he (hi.tlog_none hnone ▸ List.nil_prefix)
    (extends_elect (e := e) hi hl hQ hv).lead (by simp) (fun t ht => by simp [ht])
    ⟨s.log n, hc, List.prefix_refl _, fun k x hk hx => ?_⟩ ⟨Q, hQ, hv⟩ fun {T i} ho hT => ?_
  · rw [List.getElem?_eq_none hk] at hx
    cases hx
  · by_cases hex : ∃ v ∈ Q, i ≤ s.ack v T
    · obtain ⟨v, hvQ, ha⟩ := hex
      exact hi.vote_complete ho ha hT (hv v hvQ) hc
    · refine .inl ⟨Q, hQ, fun v hvQ => ⟨hT.trans_le (hi.vote_le (hv v hvQ)), ?_⟩⟩
      by_contra hcon
      exact hex ⟨v, hvQ, by omega⟩

theorem extends_extend (hi : Inv P s) (hl : s.lead (s.term n) = some n) :
    Extends s (s.appended n e s.lead) :=
  extends_appended hi ((hi.own_log hl).1 ▸ List.prefix_refl _) id

theorem Inv.extend (hi : Inv P s) (hl : s.lead (s.term n) = some n)
    (he : P.termOf e = s.term n) : Inv P (s.appended n e s.lead) := by
  have hown := (hi.own_log hl).1
  refine hi.appended he (hown ▸ List.prefix_refl _) id hl (fun _ _ => rfl) ?_
    (hi.lead_quorum hl) fun ho hT => ?_
  · rw [hown]
    exact hi.lead_cand hl
  · rw [hown]
    exact hi.lead_complete ho hT hl

end Elect

/-! ## Following a leader -/

theorem extends_log (l : List E) : Extends s { s with log := update s.log n l } :=
  { Extends.refl s with }

theorem Inv.truncate (hi : Inv P s) {k : Nat} (hk : k < (s.log n).length)
    (ht : k < (s.tlog (s.term n)).length) (hne : (s.log n)[k]? ≠ (s.tlog (s.term n))[k]?) :
    Inv P { s with log := update s.log n ((s.log n).take k) } := by
  have hx := extends_log (s := s) (n := n) ((s.log n).take k)
  have hcommit := hi.commit_le_of_conflict ht hne hk
  refine { hi with
    log_grown := fun m => ?_
    log_le := fun m e he => ?_
    ack_log := fun m => ?_
    own_log := fun {m} h => ?_
    vote_complete := fun ho ha hT hv hc =>
      (hi.vote_complete ho ha hT hv hc).mono hx ho.le_length (List.prefix_refl _)
    node_complete := fun {T i v} ho ha => ?_
    lead_complete := fun ho hT hl =>
      (hi.lead_complete ho hT hl).mono hx ho.le_length (List.prefix_refl _)
    commit_le := fun m => ?_
    committed := fun m => ?_ }
  · by_cases hm : m = n
    · subst hm
      simpa using (hi.log_grown m).of_isPrefix (List.take_prefix k _)
    · simpa [hm] using hi.log_grown m
  · by_cases hm : m = n
    · subst hm
      exact hi.log_le m e (List.mem_of_mem_take (by simpa using he))
    · exact hi.log_le m e (by simpa [hm] using he)
  · by_cases hm : m = n
    · subst hm
      simp only [update_self, List.prefix_take_iff]
      exact ⟨hi.ack_log m, (List.length_take_le _ _).trans (hi.ack_le_of_conflict ht hne)⟩
    · simpa [hm] using hi.ack_log m
  · by_cases hm : m = n
    · subst hm
      rw [(hi.own_log h).1] at hne
      exact absurd rfl hne
    · simpa [hm] using hi.own_log h
  · by_cases hv : v = n
    · subst hv
      rcases hi.node_complete ho ha with hb | hp
      · exact .inl (hb.mono hx)
      · by_cases hb : Blocked P s T i
        · exact .inl (hb.mono hx)
        refine .inr ?_
        have hik := hi.le_of_conflict ht hne ho (hi.ack_term (ho.1.trans_le ha)) hb hp
        simp only [update_self, List.prefix_take_iff]
        exact ⟨hp, (List.length_take_le _ _).trans hik⟩
    · simpa [hv] using (hi.node_complete ho ha).mono hx ho.le_length (List.prefix_refl _)
  · by_cases hm : m = n
    · subst hm
      simp only [update_self, List.length_take]
      omega
    · simpa [hm] using hi.commit_le m
  · have hc := (hi.committed m).mono hx (le_refl (s.term m))
    by_cases hm : m = n
    · subst hm
      simpa [List.take_take, hcommit] using hc
    · simpa [hm] using hc

theorem Inv.fill (hi : Inv P s) {q : List E} (hl : s.log n <+: q)
    (hq : q <+: s.tlog (s.term n)) : Inv P { s with log := update s.log n q } := by
  have hx := extends_log (s := s) (n := n) q
  have hlog : ∀ m, s.log m <+: update s.log n q m := by
    intro m
    by_cases hm : m = n
    · subst hm; simpa using hl
    · simp [hm]
  refine { hi with
    log_grown := fun m => ?_
    log_le := fun m e he => ?_
    ack_log := fun m => (hi.ack_log m).trans (hlog m)
    own_log := fun {m} h => ?_
    vote_complete := fun ho ha hT hv hc =>
      (hi.vote_complete ho ha hT hv hc).mono hx ho.le_length (List.prefix_refl _)
    node_complete := fun {T i v} ho ha => (hi.node_complete ho ha).mono hx ho.le_length (hlog v)
    lead_complete := fun ho hT hl =>
      (hi.lead_complete ho hT hl).mono hx ho.le_length (List.prefix_refl _)
    commit_le := fun m => (hi.commit_le m).trans (hlog m).length_le
    committed := fun m => ?_ }
  · by_cases hm : m = n
    · subst hm
      simpa using (hi.tlog_grown _).of_isPrefix hq
    · simpa [hm] using hi.log_grown m
  · by_cases hm : m = n
    · subst hm
      obtain ⟨k, hk, rfl⟩ := List.mem_iff_getElem.mp (show e ∈ q by simpa using he)
      exact hi.tlog_le (getElem?_of_isPrefix hq (List.getElem?_eq_getElem hk))
    · exact hi.log_le m e (by simpa [hm] using he)
  · by_cases hm : m = n
    · subst hm
      obtain ⟨hown, hack⟩ := hi.own_log h
      rw [hown] at hl
      have := hq.eq_of_length_le hl.length_le
      simpa [this] using hack
    · simpa [hm] using hi.own_log h
  · have hc := (hi.committed m).mono hx (le_refl (s.term m))
    rwa [← take_of_isPrefix (hlog m) (hi.commit_le m)] at hc

theorem extends_acknowledge (k : Nat) :
    Extends s (s.acknowledge n k) :=
  { Extends.refl s with
    ack := fun m t => by
      simp only [State.acknowledge, update₂_apply]
      split
      · rename_i h
        obtain ⟨rfl, rfl⟩ := h
        exact le_max_left _ _
      · exact le_rfl
    ack_old := fun {m t} ht => by
      have hne : ¬ (m = n ∧ t = s.term n) := by rintro ⟨rfl, rfl⟩; omega
      simp [State.acknowledge, update₂_apply, hne] }

theorem Inv.acknowledge (hi : Inv P s) {q : List E} (hl : q <+: s.log n)
    (hq : q <+: s.tlog (s.term n)) : Inv P (s.acknowledge n q.length) := by
  have hx := extends_acknowledge (s := s) (n := n) q.length
  have hnew : ∀ {v T i}, i ≤ update₂ s.ack n (s.term n) (max (s.ack n (s.term n)) q.length) v T →
      i ≤ s.ack v T ∨ v = n ∧ T = s.term n ∧ i ≤ q.length := by
    intro v T i h
    rw [update₂_apply] at h
    split at h
    · rename_i heq
      obtain ⟨rfl, rfl⟩ := heq
      rcases le_max_iff.mp h with h | h
      · exact .inl h
      · exact .inr ⟨rfl, rfl, h⟩
    · exact .inl h
  refine { hi with
    ack_le := fun m t => ?_
    ack_term := fun {m t} h => ?_
    ack_log := fun m => ?_
    own_log := fun {m} h => ?_
    vote_complete := fun {T i v t c l} ho ha hT hv hc => ?_
    node_complete := fun {T i v} ho ha => ?_
    lead_complete := fun ho hT hl =>
      (hi.lead_complete ho hT hl).mono hx ho.le_length (List.prefix_refl _)
    committed := fun m => (hi.committed m).mono hx le_rfl }
  · rcases hnew (v := m) (T := t) le_rfl with h | ⟨rfl, rfl, h⟩
    · exact h.trans (hi.ack_le m t)
    · exact h.trans hq.length_le
  · rcases hnew (v := m) (T := t) le_rfl with h' | ⟨rfl, rfl, _⟩
    · exact hi.ack_term (h.trans_le h')
    · exact le_rfl
  · rcases hnew (v := m) (T := s.term m) le_rfl with h | ⟨rfl, _, h⟩
    · exact (List.take_prefix_take_left h).trans (hi.ack_log m)
    · have hle : q <+: s.log m := hl
      rw [← List.take_length (l := q), ← take_of_isPrefix hq le_rfl] at hle
      exact (List.take_prefix_take_left h).trans hle
  · obtain ⟨hown, hack⟩ := hi.own_log h
    refine ⟨hown, ?_⟩
    simp only [State.acknowledge, update₂_apply]
    split
    · rename_i heq
      obtain ⟨rfl, _⟩ := heq
      rw [hack, max_eq_left hq.length_le]
    · exact hack
  · rcases hnew ha with ha | ⟨rfl, rfl, _⟩
    · exact (hi.vote_complete ho ha hT hv hc).mono hx ho.le_length (List.prefix_refl _)
    · have := hi.vote_le hv
      omega
  · rcases hnew ha with ha | ⟨rfl, rfl, h⟩
    · exact (hi.node_complete ho ha).mono hx ho.le_length (List.prefix_refl _)
    · refine .inr ?_
      change (s.tlog (s.term v)).take i <+: s.log v
      rw [take_of_isPrefix hq h]
      exact (List.take_prefix i q).trans hl

theorem Inv.commit (hi : Inv P s) {k : Nat} (hk : k ≤ (s.log n).length)
    (hc : Committed P s (s.term n) ((s.log n).take k)) :
    Inv P { s with commit := update s.commit n k } := by
  have hx : Extends s { s with commit := update s.commit n k } := { Extends.refl s with }
  refine { hi with
    commit_le := fun m => ?_
    committed := fun m => ?_ }
  · by_cases hm : m = n
    · subst hm; simpa using hk
    · simpa [hm] using hi.commit_le m
  · by_cases hm : m = n
    · subst hm; simpa using hc.mono hx le_rfl
    · simpa [hm] using (hi.committed m).mono hx (le_refl (s.term m))

/-! ## All steps -/

theorem Step.inv (h : Step P n s s') (hi : Inv P s) : Inv P s' := by
  cases h with
  | advance t ht => exact hi.advance ht
  | stand => exact hi.stand
  | grant c l hv hc hu => exact hi.grant hv hc hu
  | elect Q e hc hl hQ hv he => exact hi.elect hc hl hQ hv he
  | extend e hl he => exact hi.extend hl he
  | truncate k hk ht hp hne => exact hi.truncate hk ht hne
  | fill q hl hq => exact hi.fill hl hq
  | commit k hk hc => exact hi.commit hk hc

theorem Step.extends (h : Step P n s s') (hi : Inv P s) : Extends s s' := by
  cases h with
  | advance t ht => exact extends_advance ht
  | stand => exact extends_stand hi
  | grant c l hv hc hu => exact extends_grant hv
  | elect Q e hc hl hQ hv he => exact extends_elect hi hl hQ hv
  | extend e hl he => exact extends_extend hi hl
  | truncate k hk ht hp hne => exact extends_log _
  | fill q hl hq => exact extends_log q
  | commit k hk hc => exact { Extends.refl s with }

end Consensus
