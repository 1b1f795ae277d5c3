import Mathlib.Data.List.Count
import Mathlib.Logic.Function.Basic

/-!
Try-locks that are taken by key. A table says which keys are taken, and a list
of threads, some of which hold a key. `Exclusive` ties the two together: a key is
taken exactly when one thread holds it. The rules say how it survives a thread
that starts, works, takes a free key or gives its key back.
-/

namespace Slots

variable {K T : Type} [DecidableEq K] {key : T → Option K} {taken : K → Bool} {threads : List T}

/-- A key is taken exactly when one thread holds it. -/
def Exclusive (key : T → Option K) (taken : K → Bool) (threads : List T) : Prop :=
  ∀ k, threads.countP (fun t => key t = some k) = if taken k then 1 else 0

omit [DecidableEq K] in
/-- What replacing one thread does to a count. -/
theorem countP_set_add (p : T → Bool) {i : Nat} {t : T} (ht : threads[i]? = some t) (t' : T) :
    (threads.set i t').countP p + (if p t then 1 else 0) =
      threads.countP p + if p t' then 1 else 0 := by
  obtain ⟨hi, hget⟩ := List.getElem?_eq_some_iff.mp ht
  have hpos : p t = true → 0 < threads.countP p :=
    fun hp => List.countP_pos_iff.mpr ⟨t, List.mem_of_getElem? ht, hp⟩
  rw [List.countP_set hi, hget]
  split
  · have := hpos ‹_›
    omega
  · omega

omit [DecidableEq K] in
/-- Two threads with a property are two. -/
theorem two_le_countP {p : T → Bool} {i j : Nat} {s t : T} (hi : threads[i]? = some s)
    (hj : threads[j]? = some t) (hs : p s = true) (ht : p t = true) (hne : i < j) :
    2 ≤ threads.countP p := by
  induction threads generalizing i j with
  | nil => cases hi
  | cons u threads ih =>
    obtain ⟨j, rfl⟩ : ∃ k, j = k + 1 := ⟨j - 1, by omega⟩
    rw [List.getElem?_cons_succ] at hj
    cases i with
    | zero =>
      obtain rfl := Option.some.inj hi
      have hpos : 0 < threads.countP p :=
        List.countP_pos_iff.mpr ⟨t, List.mem_of_getElem? hj, ht⟩
      rw [List.countP_cons, if_pos hs]
      omega
    | succ i =>
      have := ih hi hj (by omega)
      rw [List.countP_cons]
      omega

namespace Exclusive

theorem nil (h : ∀ k, taken k = false) : Exclusive key taken [] := by
  intro k
  simp [h k]

/-- Threads that start hold nothing. -/
theorem append (h : Exclusive key taken threads) {new : List T} (hnew : ∀ t ∈ new, key t = none) :
    Exclusive key taken (threads ++ new) := by
  intro k
  have hzero : new.countP (fun t => key t = some k) = 0 := by
    rw [List.countP_eq_zero]
    intro t ht
    simp [hnew t ht]
  rw [List.countP_append, hzero, Nat.add_zero, h k]

variable {i : Nat} {t t' : T}

/-- A thread that keeps what it holds. -/
theorem keep (h : Exclusive key taken threads) (ht : threads[i]? = some t) (hkey : key t' = key t) :
    Exclusive key taken (threads.set i t') := by
  intro k
  have hcount := countP_set_add (fun t => key t = some k) ht t'
  rw [hkey] at hcount
  rw [← h k]
  omega

/-- A thread takes a free key. -/
theorem acquire (h : Exclusive key taken threads) {k : K} (ht : threads[i]? = some t)
    (hnone : key t = none) (hfree : taken k = false) (hkey : key t' = some k) :
    Exclusive key (Function.update taken k true) (threads.set i t') := by
  intro k'
  have hcount := countP_set_add (fun t => key t = some k') ht t'
  rw [h k'] at hcount
  by_cases hk : k' = k
  · subst hk
    simpa [hnone, hkey, hfree] using hcount
  · simpa [hnone, hkey, hk, Ne.symm hk] using hcount

/-- A thread gives its key back. -/
theorem release (h : Exclusive key taken threads) {k : K} (ht : threads[i]? = some t)
    (hkey : key t = some k) (hnone : key t' = none) :
    Exclusive key (Function.update taken k false) (threads.set i t') := by
  intro k'
  have hcount := countP_set_add (fun t => key t = some k') ht t'
  rw [h k'] at hcount
  by_cases hk : k' = k
  · subst hk
    rw [Function.update_self]
    simp only [hnone, hkey, decide_true, ↓reduceIte, reduceCtorEq, decide_false,
      Bool.false_eq_true] at hcount ⊢
    split at hcount <;> omega
  · simpa [hnone, hkey, hk, Ne.symm hk] using hcount

/-- At most one thread holds a key. -/
theorem unique (h : Exclusive key taken threads) {i j : Nat} {s t : T} {k : K}
    (hi : threads[i]? = some s) (hj : threads[j]? = some t) (hs : key s = some k)
    (ht : key t = some k) : i = j := by
  have hle : threads.countP (fun t => key t = some k) ≤ 1 := by
    rw [h k]
    split <;> omega
  rcases Nat.lt_trichotomy i j with hlt | heq | hgt
  · have := two_le_countP (p := fun t => key t = some k) hi hj (by simpa using hs)
      (by simpa using ht) hlt
    omega
  · exact heq
  · have := two_le_countP (p := fun t => key t = some k) hj hi (by simpa using ht)
      (by simpa using hs) hgt
    omega

/-- A key is taken when some thread holds it, and only then. -/
theorem taken_iff (h : Exclusive key taken threads) (k : K) :
    taken k = true ↔ ∃ t ∈ threads, key t = some k := by
  have hpos : 0 < threads.countP (fun t => key t = some k) ↔ ∃ t ∈ threads, key t = some k := by
    simp [List.countP_pos_iff]
  rw [← hpos, h k]
  cases taken k <;> simp

end Exclusive

end Slots
