import DistributedKv.Lib.Consensus.Invariant

/-!
Every step of every node preserves the invariant, and only adds to the history:
votes, candidatures, leaders and acknowledgements stay, and leader logs grow.
-/

namespace Consensus

open Function

variable {N E : Type} {P : Protocol N E} {s s' : State N E}

/-! ## What history keeps -/

/-- The history of `s'` continues that of `s`. Once a node has left a term, its
acknowledgements of that term are final. -/
structure Extends (s s' : State N E) : Prop where
  term : ∀ n, s.term n ≤ s'.term n
  vote : ∀ {n t c}, s.vote n t = some c → s'.vote n t = some c
  cand : ∀ {t n l}, s.cand t n = some l → s'.cand t n = some l
  lead : ∀ {t c}, s.lead t = some c → s'.lead t = some c
  tlog : ∀ t, s.tlog t <+: s'.tlog t
  ack : ∀ n t, s.ack n t ≤ s'.ack n t
  ack_old : ∀ {n t}, t < s.term n → s'.ack n t = s.ack n t

theorem Extends.refl (s : State N E) : Extends s s :=
  ⟨fun _ => le_rfl, id, id, id, fun _ => List.prefix_refl _, fun _ _ => le_rfl, fun _ => rfl⟩

theorem Extends.trans {u : State N E} (h : Extends s s') (h' : Extends s' u) : Extends s u where
  term n := (h.term n).trans (h'.term n)
  vote hv := h'.vote (h.vote hv)
  cand hc := h'.cand (h.cand hc)
  lead hl := h'.lead (h.lead hl)
  tlog t := (h.tlog t).trans (h'.tlog t)
  ack n t := (h.ack n t).trans (h'.ack n t)
  ack_old ht := (h'.ack_old (ht.trans_le (h.term _))).trans (h.ack_old ht)

theorem Own.le_length {T i : Nat} (h : Own P s T i) : i ≤ (s.tlog T).length := by
  obtain ⟨hi, e, he, _⟩ := h
  have := (List.getElem?_eq_some_iff.mp he).1
  omega

theorem Own.mono {T i : Nat} (h : Own P s T i) (hx : Extends s s') : Own P s' T i := by
  obtain ⟨hi, e, he, ht⟩ := h
  exact ⟨hi, e, getElem?_of_isPrefix (hx.tlog T) he, ht⟩

theorem Own.back {T i : Nat} (h : Own P s' T i) (hx : Extends s s')
    (hi : i ≤ (s.tlog T).length) : Own P s T i := by
  obtain ⟨hpos, e, he, ht⟩ := h
  refine ⟨hpos, e, ?_, ht⟩
  obtain ⟨r, hr⟩ := hx.tlog T
  rwa [← hr, List.getElem?_append_left (by omega)] at he

theorem Blocked.mono {T i : Nat} (h : Blocked P s T i) (hx : Extends s s') : Blocked P s' T i := by
  obtain ⟨Q, hQ, hv⟩ := h
  refine ⟨Q, hQ, fun v hvQ => ?_⟩
  obtain ⟨ht, ha⟩ := hv v hvQ
  exact ⟨ht.trans_le (hx.term v), by rwa [hx.ack_old ht]⟩

theorem Chosen.mono {T i : Nat} (h : Chosen P s T i) (hx : Extends s s') : Chosen P s' T i := by
  obtain ⟨ho, Q, hQ, hv⟩ := h
  exact ⟨ho.mono hx, Q, hQ, fun v hvQ => (hv v hvQ).trans (hx.ack v T)⟩

theorem Committed.mono {t t' : Nat} {l : List E} (h : Committed P s t l) (hx : Extends s s')
    (ht : t ≤ t') : Committed P s' t' l := by
  rcases h with rfl | ⟨T, i, hT, hc, hl⟩
  · exact .inl rfl
  · exact .inr ⟨T, i, hT.trans ht, hc.mono hx, hl.trans ((hx.tlog T).take i)⟩

theorem Committed.of_isPrefix {t : Nat} {l q : List E} (h : Committed P s t q) (hl : l <+: q) :
    Committed P s t l := by
  rcases h with rfl | ⟨T, i, hT, hc, hq⟩
  · exact .inl (List.prefix_nil.mp hl)
  · exact .inr ⟨T, i, hT, hc, hl.trans hq⟩

theorem Carried.mono {T i : Nat} {l l' : List E} (h : Carried P s T i l) (hx : Extends s s')
    (hi : i ≤ (s.tlog T).length) (hl : l <+: l') : Carried P s' T i l' := by
  rcases h with h | h
  · exact .inl (h.mono hx)
  · refine .inr ?_
    rw [take_of_isPrefix (hx.tlog T) hi]
    exact h.trans hl

theorem Chosen.not_blocked {T i : Nat} (h : Chosen P s T i) : ¬ Blocked P s T i := by
  rintro ⟨Q, hQ, hb⟩
  obtain ⟨_, Q', hQ', hc⟩ := h
  obtain ⟨v, hv, hv'⟩ := P.inter Q Q' hQ hQ'
  have := (hb v hv).2
  have := hc v hv'
  omega

theorem Chosen.isPrefix {T i : Nat} {l : List E} (h : Chosen P s T i) (hc : Carried P s T i l) :
    (s.tlog T).take i <+: l := hc.resolve_left h.not_blocked

/-! ## Leader logs -/

/-- Nothing is known yet of a node in a term it has not reached. -/
theorem Inv.vote_none (hi : Inv P s) {n : N} {t : Nat} (ht : s.term n < t) : s.vote n t = none := by
  cases h : s.vote n t with
  | none => rfl
  | some c => have := hi.vote_le h; omega

theorem Inv.cand_none (hi : Inv P s) {n : N} {t : Nat} (ht : s.term n < t) : s.cand t n = none := by
  cases h : s.cand t n with
  | none => rfl
  | some c => have := hi.cand_le h; omega

theorem Inv.lead_of_tlog (hi : Inv P s) {t k : Nat} (h : k < (s.tlog t).length) :
    ∃ c, s.lead t = some c := by
  cases hl : s.lead t with
  | none => rw [hi.tlog_none hl] at h; simp at h
  | some c => exact ⟨c, rfl⟩

theorem Inv.tlog_le (hi : Inv P s) {t k : Nat} {e : E} (he : (s.tlog t)[k]? = some e) :
    P.termOf e ≤ t := by
  obtain ⟨c, hc⟩ := hi.lead_of_tlog (List.getElem?_eq_some_iff.mp he).1
  obtain ⟨l, hl, hp, hown⟩ := hi.lead_cand hc
  rcases Nat.lt_or_ge k l.length with hk | hk
  · have hel : l[k]? = some e := by
      obtain ⟨r, hr⟩ := hp
      rwa [← hr, List.getElem?_append_left hk] at he
    exact (hi.cand_lt hl e (List.mem_of_getElem? hel)).le
  · exact (hown k e hk he).le

theorem Inv.tlog_grown (hi : Inv P s) (t : Nat) : Grown P s.tlog (s.tlog t) := by
  cases hc : s.lead t with
  | none => rw [hi.tlog_none hc]; exact ⟨fun k e h => by simp at h, List.Pairwise.nil⟩
  | some c =>
    obtain ⟨l, hl, hp, hown⟩ := hi.lead_cand hc
    have hsplit : ∀ {k e}, (s.tlog t)[k]? = some e → k < l.length → l[k]? = some e := by
      intro k e he hk
      obtain ⟨r, hr⟩ := hp
      rwa [← hr, List.getElem?_append_left hk] at he
    refine ⟨fun k e he => ?_, ?_⟩
    · rcases Nat.lt_or_ge k l.length with hk | hk
      · rw [take_of_isPrefix hp hk]
        exact (hi.cand_grown hl).below k e (hsplit he hk)
      · rw [hown k e hk he]
        exact List.take_prefix _ _
    · rw [List.pairwise_iff_getElem]
      intro j k hj hk hjk
      have hej : (s.tlog t)[j]? = some (s.tlog t)[j] := List.getElem?_eq_getElem hj
      have hek : (s.tlog t)[k]? = some (s.tlog t)[k] := List.getElem?_eq_getElem hk
      rcases Nat.lt_or_ge k l.length with hkl | hkl
      · exact (hi.cand_grown hl).term_le (hsplit hej (by omega)) (hsplit hek hkl) hjk.le
      · rw [hown k _ hkl hek]
        exact hi.tlog_le hej

/-- A prefix that a later leader's log carries cannot conflict with that log. -/
theorem Inv.no_conflict (hi : Inv P s) {T i t k : Nat} {l : List E} (ho : Own P s T i)
    (hT : T ≤ t) (hb : ¬ Blocked P s T i) (hk : k < i) (ht : k < (s.tlog t).length)
    (hl : (s.tlog T).take i <+: l) : l[k]? = (s.tlog t)[k]? := by
  have hkT : k < (s.tlog T).length := hk.trans_le ho.le_length
  rw [getElem?_eq_of_take_isPrefix hl hk hkT]
  rcases Nat.lt_or_eq_of_le hT with hlt | rfl
  · obtain ⟨c, hc⟩ := hi.lead_of_tlog ht
    have hp := (hi.lead_complete ho hlt hc).resolve_left hb
    rw [getElem?_eq_of_take_isPrefix hp hk hkT]
  · rfl

section Conflict

variable {n : N} {k : Nat} (hi : Inv P s) (ht : k < (s.tlog (s.term n)).length)
  (hne : (s.log n)[k]? ≠ (s.tlog (s.term n))[k]?)

include hi ht hne

/-- What may still be chosen and is in the log of `n` ends before a conflict
with the leader. -/
theorem Inv.le_of_conflict {T i : Nat} (ho : Own P s T i) (hT : T ≤ s.term n)
    (hb : ¬ Blocked P s T i) (hp : (s.tlog T).take i <+: s.log n) : i ≤ k := by
  by_contra hcon
  exact hne (hi.no_conflict ho hT hb (by omega) ht hp)

theorem Inv.ack_le_of_conflict : s.ack n (s.term n) ≤ k := by
  by_contra hcon
  exact hne (getElem?_eq_of_take_isPrefix (hi.ack_log n) (by omega) ht)

theorem Inv.commit_le_of_conflict (hk : k < (s.log n).length) : s.commit n ≤ k := by
  by_contra hcon
  rcases hi.committed n with h | ⟨T, i, hT, hc, hp⟩
  · have := congrArg List.length h
    simp at this
    rcases this with h | h
    · omega
    · rw [h] at hk; simp at hk
  · have hlt : k < i := by
      have := hp.length_le
      have := hi.commit_le n
      rw [List.length_take, List.length_take] at *
      omega
    have h₁ := hi.no_conflict hc.1 hT hc.not_blocked hlt ht (List.take_prefix i _)
    refine hne (h₁ ▸ ?_)
    have h₂ : ((s.log n).take (s.commit n))[k]? = some (s.log n)[k] := by
      rw [List.getElem?_take_of_lt (by omega), List.getElem?_eq_getElem hk]
    have h₃ := getElem?_of_isPrefix (hp.trans (List.take_prefix _ _)) h₂
    rw [h₃, List.getElem?_eq_getElem hk]

end Conflict

/-- The up-to-date check carries what the voter acknowledged to the candidate.
If the candidate's last term is higher, its log is part of a later leader's,
which carries the prefix; if it is the same, the longer log contains the shorter. -/
theorem Inv.carried_of_upToDate (hi : Inv P s) {n c : N} {T i : Nat} {l : List E}
    (ho : Own P s T i) (ha : i ≤ s.ack n T) (hc : s.cand (s.term n) c = some l)
    (hu : UpToDate P l (s.log n)) : Carried P s T i l := by
  rcases hi.node_complete ho ha with hb | hp
  · exact .inl hb
  have hgv := hi.log_grown n
  have hgl := hi.cand_grown hc
  obtain ⟨hpos, x, hx, hxT⟩ := ho
  have hiT : i - 1 < (s.tlog T).length := (List.getElem?_eq_some_iff.mp hx).1
  have hxv : (s.log n)[i - 1]? = some x := by
    rw [getElem?_eq_of_take_isPrefix hp (by omega) hiT, hx]
  have hiv : i - 1 < (s.log n).length := (List.getElem?_eq_some_iff.mp hxv).1
  have hTv : T ≤ lastTerm P (s.log n) := hxT ▸ hgv.le_lastTerm hxv
  rcases hu with hlt | ⟨heq, hlen⟩
  · have hl0 : 0 < l.length := by
      rcases Nat.eq_zero_or_pos l.length with h | h
      · rw [List.length_eq_zero_iff.mp h] at hlt
        simp [lastTerm] at hlt
      · exact h
    have hpre := hgl.isPrefix hl0
    obtain ⟨y, hy⟩ := exists_last hl0
    obtain ⟨d, hd⟩ := hi.lead_of_tlog (hl0.trans_le hpre.length_le)
    rcases hi.lead_complete ⟨hpos, x, hx, hxT⟩ (hTv.trans_lt hlt) hd with hb | hq
    · exact .inl hb
    · refine .inr (List.prefix_of_prefix_length_le hq hpre ?_)
      rw [List.length_take]
      -- otherwise the candidate's last entry would lie inside the prefix, below term `T`
      by_contra hcon
      have hxU : (s.tlog (lastTerm P l))[i - 1]? = some x := by
        rw [getElem?_eq_of_take_isPrefix hq (by omega) hiT, hx]
      have hle := (hi.tlog_grown (lastTerm P l)).term_le (getElem?_of_isPrefix hpre hy) hxU
        (by omega)
      rw [← lastTerm_eq (P := P) hy, hxT] at hle
      omega
  · have hpv := hgv.isPrefix (by omega)
    have hpl := hgl.isPrefix (by omega)
    rw [heq] at hpl
    exact .inr (hp.trans (List.prefix_of_prefix_length_le hpv hpl hlen))

theorem Inv.grown_append (hi : Inv P s) {n : N} {e : E} (he : P.termOf e = s.term n)
    (hbase : s.tlog (s.term n) <+: s.log n) :
    Grown P (update s.tlog (s.term n) (s.log n ++ [e])) (s.log n ++ [e]) := by
  have hgrow : ∀ t, s.tlog t <+: update s.tlog (s.term n) (s.log n ++ [e]) t := by
    intro t
    by_cases ht : t = s.term n
    · subst ht
      simpa using hbase.trans (List.prefix_append _ [e])
    · simp [ht]
  refine ⟨fun k x hx => ?_, ?_⟩
  · rcases Nat.lt_or_ge k (s.log n).length with hk | hk
    · rw [List.getElem?_append_left hk] at hx
      rw [List.take_append_of_le_length hk]
      exact ((hi.log_grown n).below k x hx).trans (hgrow _)
    · have hlast : k = (s.log n).length := by
        have := (List.getElem?_eq_some_iff.mp hx).1
        simp at this
        omega
      subst hlast
      simp only [List.getElem?_concat_length, Option.some.injEq] at hx
      subst hx
      rw [he, update_self]
      exact List.take_prefix _ _
  · rw [List.pairwise_append]
    refine ⟨(hi.log_grown n).sorted, List.pairwise_singleton _ _, fun a ha b hb => ?_⟩
    rw [List.mem_singleton.mp hb, he]
    exact hi.log_le n a ha

/-- What the log of `n` holds beyond the log it stood with is of its term. -/
theorem own_terms_append {n : N} {e : E} {l : List E} (he : P.termOf e = s.term n)
    (hown : ∀ k x, l.length ≤ k → (s.log n)[k]? = some x → P.termOf x = s.term n) {k : Nat} {x : E}
    (hk : l.length ≤ k) (hx : (s.log n ++ [e])[k]? = some x) : P.termOf x = s.term n := by
  rcases Nat.lt_or_ge k (s.log n).length with hlt | hge
  · rw [List.getElem?_append_left hlt] at hx
    exact hown k x hk hx
  · rw [List.getElem?_append_right hge, List.getElem?_singleton] at hx
    split at hx
    · rw [← Option.some.inj hx, he]
    · cases hx

/-- A node that a quorum elected finds its term without a leader: the quorums of
two leaders share a voter. -/
theorem Inv.lead_none (hi : Inv P s) {n : N} {Q : Set N} (hl : s.lead (s.term n) ≠ some n)
    (hQ : P.Quorum Q) (hv : ∀ v ∈ Q, s.vote v (s.term n) = some n) : s.lead (s.term n) = none := by
  cases h : s.lead (s.term n) with
  | none => rfl
  | some c =>
    obtain ⟨Q', hQ', hv'⟩ := hi.lead_quorum h
    obtain ⟨v, hvQ, hvQ'⟩ := P.inter Q Q' hQ hQ'
    have : some n = some c := (hv v hvQ).symm.trans (hv' v hvQ')
    exact absurd (h.trans this.symm) hl

end Consensus
