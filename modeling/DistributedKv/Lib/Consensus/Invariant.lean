import DistributedKv.Lib.Consensus.State

/-!
The invariant of replicated logs and its preservation by every step.

Two ideas carry it. First, every prefix of every log is a prefix of the log of
the term in which its last entry was created (`Grown`), which is log matching.
Second, completeness is stated before anything is chosen: if a node has
acknowledged a prefix of term `T`, then every log that later depends on that
node either carries the prefix, or a quorum has left `T` without acknowledging
it (`Carried`). Nothing blocked is ever chosen, so chosen prefixes are carried.
-/

namespace Consensus

variable {N E : Type} {P : Protocol N E} {s s' : State N E}

/-! ## Prefixes -/

theorem getElem?_of_isPrefix {l q : List E} {k : Nat} {e : E} (h : l <+: q) (hk : l[k]? = some e) :
    q[k]? = some e := by
  obtain ⟨r, rfl⟩ := h
  have hlt : k < l.length := (List.getElem?_eq_some_iff.mp hk).1
  rw [List.getElem?_append_left hlt, hk]

theorem getElem?_eq_of_take_isPrefix {l q : List E} {i k : Nat} (h : l.take i <+: q) (hk : k < i)
    (hl : k < l.length) : q[k]? = l[k]? := by
  have ht : (l.take i)[k]? = some l[k] := by simp [hk, hl]
  rw [getElem?_of_isPrefix h ht, List.getElem?_eq_getElem hl]

theorem take_of_isPrefix {l q : List E} {i : Nat} (h : l <+: q) (hi : i ≤ l.length) :
    q.take i = l.take i := by
  obtain ⟨r, rfl⟩ := h
  rw [List.take_append_of_le_length hi]

/-- Of finitely many logs any two of which are comparable, one continues all. -/
theorem exists_isPrefix_bound (ls : List (List E))
    (h : ∀ l ∈ ls, ∀ q ∈ ls, l <+: q ∨ q <+: l) :
    ∃ top, (top = [] ∨ top ∈ ls) ∧ ∀ l ∈ ls, l <+: top := by
  induction ls with
  | nil => exact ⟨[], .inl rfl, fun _ hl => by cases hl⟩
  | cons l ls ih =>
    obtain ⟨top, htop, hle⟩ := ih fun a ha b hb =>
      h a (List.mem_cons_of_mem l ha) b (List.mem_cons_of_mem l hb)
    have hcomp : l <+: top ∨ top <+: l := by
      rcases htop with rfl | htop
      · exact .inr List.nil_prefix
      · exact h l List.mem_cons_self top (List.mem_cons_of_mem l htop)
    rcases hcomp with hlt | htl
    · refine ⟨top, htop.imp_right (List.mem_cons_of_mem l), fun q hq => ?_⟩
      rcases List.mem_cons.mp hq with rfl | hq
      · exact hlt
      · exact hle q hq
    · refine ⟨l, .inr List.mem_cons_self, fun q hq => ?_⟩
      rcases List.mem_cons.mp hq with rfl | hq
      · exact List.prefix_rfl
      · exact (hle q hq).trans htl

theorem lastTerm_eq {l : List E} {e : E} (h : l[l.length - 1]? = some e) :
    lastTerm P l = P.termOf e := by
  unfold lastTerm
  rw [List.getLast?_eq_getElem?, h]
  rfl

theorem exists_last {l : List E} (h : 0 < l.length) : ∃ e, l[l.length - 1]? = some e :=
  ⟨l[l.length - 1], List.getElem?_eq_getElem (by omega)⟩

/-! ## Logs that grew under leaders -/

/-- Every prefix of `l` is a prefix of the log of its last entry's term, and the
terms never decrease. -/
structure Grown (P : Protocol N E) (tlog : Nat → List E) (l : List E) : Prop where
  below : ∀ k e, l[k]? = some e → l.take (k + 1) <+: tlog (P.termOf e)
  sorted : l.Pairwise fun a b => P.termOf a ≤ P.termOf b

theorem Grown.of_isPrefix {tlog : Nat → List E} {l q : List E} (hq : Grown P tlog q) (h : l <+: q) :
    Grown P tlog l where
  below k e he := by
    have hlt : k < l.length := (List.getElem?_eq_some_iff.mp he).1
    have := hq.below k e (getElem?_of_isPrefix h he)
    rwa [take_of_isPrefix h (by omega)] at this
  sorted := hq.sorted.sublist h.sublist

theorem Grown.mono {tlog tlog' : Nat → List E} {l : List E} (h : Grown P tlog l)
    (ht : ∀ t, tlog t <+: tlog' t) : Grown P tlog' l where
  below k e he := (h.below k e he).trans (ht _)
  sorted := h.sorted

/-- Terms do not decrease along the positions of a log. -/
theorem Grown.term_le {tlog : Nat → List E} {l : List E} (h : Grown P tlog l) {j k : Nat} {x y : E}
    (hx : l[j]? = some x) (hy : l[k]? = some y) (hjk : j ≤ k) : P.termOf x ≤ P.termOf y := by
  obtain ⟨hj, rfl⟩ := List.getElem?_eq_some_iff.mp hx
  obtain ⟨hk, rfl⟩ := List.getElem?_eq_some_iff.mp hy
  rcases Nat.lt_or_eq_of_le hjk with hlt | rfl
  · exact List.pairwise_iff_getElem.mp h.sorted j k hj hk hlt
  · exact le_rfl

theorem Grown.le_lastTerm {tlog : Nat → List E} {l : List E} (h : Grown P tlog l) {k : Nat} {e : E}
    (he : l[k]? = some e) : P.termOf e ≤ lastTerm P l := by
  have hk : k < l.length := (List.getElem?_eq_some_iff.mp he).1
  obtain ⟨x, hx⟩ := exists_last (l := l) (by omega)
  rw [lastTerm_eq hx]
  exact h.term_le he hx (by omega)

/-- A nonempty log is a prefix of the log of its last term. -/
theorem Grown.isPrefix {tlog : Nat → List E} {l : List E} (h : Grown P tlog l)
    (hl : 0 < l.length) : l <+: tlog (lastTerm P l) := by
  obtain ⟨x, hx⟩ := exists_last hl
  have := h.below _ x hx
  rwa [Nat.sub_add_cancel hl, List.take_length, ← lastTerm_eq (P := P) hx] at this

/-- Two logs whose entries at `k` have the same term agree up to there. -/
theorem Grown.matching {tlog : Nat → List E} {l q : List E} (hl : Grown P tlog l)
    (hq : Grown P tlog q) {k : Nat} {x y : E} (hx : l[k]? = some x) (hy : q[k]? = some y)
    (ht : P.termOf x = P.termOf y) : l.take (k + 1) = q.take (k + 1) := by
  have h₁ := hl.below k x hx
  have h₂ := hq.below k y hy
  rw [← ht] at h₂
  have hk₁ : k < l.length := (List.getElem?_eq_some_iff.mp hx).1
  have hk₂ : k < q.length := (List.getElem?_eq_some_iff.mp hy).1
  have hlen : (l.take (k + 1)).length = (q.take (k + 1)).length := by
    rw [List.length_take, List.length_take]
    omega
  exact (List.prefix_of_prefix_length_le h₁ h₂ hlen.le).eq_of_length hlen

/-! ## The invariant -/

/-- The prefix of length `i` of term `T` is in `l`, or can no longer be chosen. -/
def Carried (P : Protocol N E) (s : State N E) (T i : Nat) (l : List E) : Prop :=
  Blocked P s T i ∨ (s.tlog T).take i <+: l

structure Inv (P : Protocol N E) (s : State N E) : Prop where
  vote_le : ∀ {n t c}, s.vote n t = some c → t ≤ s.term n
  vote_cand : ∀ {n t c}, s.vote n t = some c → ∃ l, s.cand t c = some l
  cand_le : ∀ {t n l}, s.cand t n = some l → t ≤ s.term n
  cand_lt : ∀ {t n l}, s.cand t n = some l → ∀ e ∈ l, P.termOf e < t
  cand_grown : ∀ {t n l}, s.cand t n = some l → Grown P s.tlog l
  lead_cand : ∀ {t c}, s.lead t = some c → ∃ l, s.cand t c = some l ∧ l <+: s.tlog t ∧
    ∀ k e, l.length ≤ k → (s.tlog t)[k]? = some e → P.termOf e = t
  lead_quorum : ∀ {t c}, s.lead t = some c → ∃ Q, P.Quorum Q ∧ ∀ v ∈ Q, s.vote v t = some c
  tlog_none : ∀ {t}, s.lead t = none → s.tlog t = []
  log_grown : ∀ n, Grown P s.tlog (s.log n)
  log_le : ∀ n, ∀ e ∈ s.log n, P.termOf e ≤ s.term n
  ack_le : ∀ n t, s.ack n t ≤ (s.tlog t).length
  ack_term : ∀ {n t}, 0 < s.ack n t → t ≤ s.term n
  ack_log : ∀ n, (s.tlog (s.term n)).take (s.ack n (s.term n)) <+: s.log n
  own_log : ∀ {n}, s.lead (s.term n) = some n →
    s.log n = s.tlog (s.term n) ∧ s.ack n (s.term n) = (s.tlog (s.term n)).length
  vote_complete : ∀ {T i v t c l}, Own P s T i → i ≤ s.ack v T → T < t → s.vote v t = some c →
    s.cand t c = some l → Carried P s T i l
  node_complete : ∀ {T i v}, Own P s T i → i ≤ s.ack v T → Carried P s T i (s.log v)
  lead_complete : ∀ {T i t c}, Own P s T i → T < t → s.lead t = some c → Carried P s T i (s.tlog t)
  commit_le : ∀ n, s.commit n ≤ (s.log n).length
  committed : ∀ n, Committed P s (s.term n) ((s.log n).take (s.commit n))

theorem Inv.initial : Inv P (State.initial : State N E) where
  vote_le h := by simp [State.initial] at h
  vote_cand h := by simp [State.initial] at h
  cand_le h := by simp [State.initial] at h
  cand_lt h := by simp [State.initial] at h
  cand_grown h := by simp [State.initial] at h
  lead_cand h := by simp [State.initial] at h
  lead_quorum h := by simp [State.initial] at h
  tlog_none _ := rfl
  log_grown _ := ⟨fun k e h => by simp [State.initial] at h, List.Pairwise.nil⟩
  log_le _ e h := by simp [State.initial] at h
  ack_le _ _ := Nat.zero_le _
  ack_term h := by simp [State.initial] at h
  ack_log _ := List.nil_prefix
  own_log h := by simp [State.initial] at h
  vote_complete _ _ _ h := by simp [State.initial] at h
  node_complete h := by obtain ⟨_, e, he, _⟩ := h; simp [State.initial] at he
  lead_complete _ _ h := by simp [State.initial] at h
  commit_le _ := Nat.zero_le _
  committed _ := .inl rfl

end Consensus
