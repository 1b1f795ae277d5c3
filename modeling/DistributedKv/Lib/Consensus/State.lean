import Mathlib.Logic.Function.Basic
import Mathlib.Data.List.Infix
import Mathlib.Data.Set.Basic
import Mathlib.Order.MinMax

/-!
Replicated logs with terms, in the abstract. Nodes vote, a quorum of votes
elects at most one leader for a term, the leader's log of that term only grows,
and the other nodes take over prefixes of it. The state keeps the whole history
that safety is about: every vote, the log each candidate stood with, the log of
each term's leader, and how much of it each node has acknowledged in that term.
There are no messages here: a message is a fact about this history.
-/

namespace Consensus

/-- Entries carry a term, and any two quorums share a node. -/
structure Protocol (N E : Type) where
  termOf : E → Nat
  Quorum : Set N → Prop
  inter : ∀ Q Q', Quorum Q → Quorum Q' → ∃ n, n ∈ Q ∧ n ∈ Q'

/-- `vote n t` is the ballot of `n` in term `t`, `cand t n` the log with which
`n` stood for election, `lead t` the leader, `tlog t` its log, and `ack n t` the
length of the prefix of `tlog t` that `n` acknowledged in term `t`. -/
structure State (N E : Type) where
  term : N → Nat
  vote : N → Nat → Option N
  cand : Nat → N → Option (List E)
  lead : Nat → Option N
  tlog : Nat → List E
  log : N → List E
  ack : N → Nat → Nat
  commit : N → Nat

def State.initial {N E : Type} : State N E where
  term _ := 0
  vote _ _ := none
  cand _ _ := none
  lead _ := none
  tlog _ := []
  log _ := []
  ack _ _ := 0
  commit _ := 0

variable {N E : Type} (P : Protocol N E)

def lastTerm (l : List E) : Nat := (l.getLast?.map P.termOf).getD 0

/-- A candidate's log is at least as up to date as a voter's. -/
def UpToDate (candidate voter : List E) : Prop :=
  lastTerm P voter < lastTerm P candidate ∨
    lastTerm P candidate = lastTerm P voter ∧ voter.length ≤ candidate.length

/-- The first `i` entries of the log of term `T` end with an entry of term `T`. -/
def Own (s : State N E) (T i : Nat) : Prop :=
  0 < i ∧ ∃ e, (s.tlog T)[i - 1]? = some e ∧ P.termOf e = T

/-- A quorum has acknowledged the first `i` entries of term `T`. -/
def Chosen (s : State N E) (T i : Nat) : Prop :=
  Own P s T i ∧ ∃ Q, P.Quorum Q ∧ ∀ v ∈ Q, i ≤ s.ack v T

/-- A quorum has left term `T` without acknowledging its first `i` entries. -/
def Blocked (s : State N E) (T i : Nat) : Prop :=
  ∃ Q, P.Quorum Q ∧ ∀ v ∈ Q, T < s.term v ∧ s.ack v T < i

/-- `l` is empty or lies below a chosen entry of a term up to `t`. -/
def Committed (s : State N E) (t : Nat) (l : List E) : Prop :=
  l = [] ∨ ∃ T i, T ≤ t ∧ Chosen P s T i ∧ l <+: (s.tlog T).take i

section Steps

variable [DecidableEq N]

open Function

/-- Set a function of two arguments at one place. -/
def update₂ {A B C : Type} [DecidableEq A] [DecidableEq B] (f : A → B → C) (a : A) (b : B) (c : C) :
    A → B → C :=
  update f a (update (f a) b c)

theorem update₂_apply {A B C : Type} [DecidableEq A] [DecidableEq B] (f : A → B → C) (a : A) (b : B)
    (c : C) (x : A) (y : B) : update₂ f a b c x y = if x = a ∧ y = b then c else f x y := by
  unfold update₂
  by_cases hx : x = a
  · subst hx
    by_cases hy : y = b <;> simp [hy]
  · simp [hx]

theorem update₂_eq_some {A B C : Type} [DecidableEq A] [DecidableEq B] {f : A → B → Option C} {a x : A}
    {b y : B} {c z : C} (h : update₂ f a b (some c) x y = some z) :
    f x y = some z ∨ x = a ∧ y = b ∧ z = c := by
  rw [update₂_apply] at h
  split at h
  · rename_i heq
    exact .inr ⟨heq.1, heq.2, (Option.some.inj h).symm⟩
  · exact .inl h

/-- `n` acknowledges the first `k` entries of the leader's log. -/
def State.acknowledge (s : State N E) (n : N) (k : Nat) : State N E :=
  { s with ack := update₂ s.ack n (s.term n) (max (s.ack n (s.term n)) k) }

/-- What the node `n` may do, besides acknowledging what it holds. -/
inductive Step (n : N) : State N E → State N E → Prop
  /-- Learn of a higher term. -/
  | advance (s) (t : Nat) (ht : s.term n < t) :
      Step n s { s with term := update s.term n t }
  /-- Stand for election in the next term, with one's own vote. -/
  | stand (s) :
      Step n s { s with
        term := update s.term n (s.term n + 1)
        vote := update₂ s.vote n (s.term n + 1) (some n)
        cand := update₂ s.cand (s.term n + 1) n (some (s.log n)) }
  /-- Vote for a candidate of the current term. -/
  | grant (s) (c : N) (l : List E)
      (hv : s.vote n (s.term n) = none ∨ s.vote n (s.term n) = some c)
      (hc : s.cand (s.term n) c = some l) (hu : UpToDate P l (s.log n)) :
      Step n s { s with vote := update₂ s.vote n (s.term n) (some c) }
  /-- Win the election of the current term and append a first entry. -/
  | elect (s) (Q : Set N) (e : E) (hc : s.cand (s.term n) n = some (s.log n))
      (hl : s.lead (s.term n) ≠ some n) (hQ : P.Quorum Q)
      (hv : ∀ v ∈ Q, s.vote v (s.term n) = some n) (he : P.termOf e = s.term n) :
      Step n s { s with
        lead := update s.lead (s.term n) (some n)
        tlog := update s.tlog (s.term n) (s.log n ++ [e])
        log := update s.log n (s.log n ++ [e])
        ack := update₂ s.ack n (s.term n) (s.log n ++ [e]).length }
  /-- Append as the leader. -/
  | extend (s) (e : E) (hl : s.lead (s.term n) = some n) (he : P.termOf e = s.term n) :
      Step n s { s with
        tlog := update s.tlog (s.term n) (s.log n ++ [e])
        log := update s.log n (s.log n ++ [e])
        ack := update₂ s.ack n (s.term n) (s.log n ++ [e]).length }
  /-- Drop a suffix that conflicts with the leader's log. -/
  | truncate (s) (k : Nat) (hk : k < (s.log n).length)
      (ht : k < (s.tlog (s.term n)).length) (hp : (s.log n).take k <+: s.tlog (s.term n))
      (hne : (s.log n)[k]? ≠ (s.tlog (s.term n))[k]?) :
      Step n s { s with log := update s.log n ((s.log n).take k) }
  /-- Take over more of the leader's log. -/
  | fill (s) (q : List E) (hl : s.log n <+: q) (hq : q <+: s.tlog (s.term n)) :
      Step n s { s with log := update s.log n q }
  /-- Learn that a prefix of one's log is committed. -/
  | commit (s) (k : Nat) (hk : k ≤ (s.log n).length)
      (hc : Committed P s (s.term n) ((s.log n).take k)) :
      Step n s { s with commit := update s.commit n k }

end Steps

end Consensus
