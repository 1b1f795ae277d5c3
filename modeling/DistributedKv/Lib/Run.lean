import Mathlib.Order.Nat

/-!
Runs of a deterministic machine over a list of inputs: the invariant rule, and
the rule that turns a step-by-step simulation into one abstract state for every
moment of the run.
-/

namespace Run

variable {S A H : Type} {step : S → A → S}

/-- Every step of the run from `s` is permitted where it is taken. -/
def Each (step : S → A → S) (ok : S → A → Prop) : S → List A → Prop
  | _, [] => True
  | s, a :: as => ok s a ∧ Each step ok (step s a) as

theorem Each.getElem? {ok : S → A → Prop} {s : S} {as : List A} (h : Each step ok s as) :
    ∀ k a, as[k]? = some a → ok ((as.take k).foldl step s) a := by
  induction as generalizing s with
  | nil => exact fun _ _ hk => by cases hk
  | cons b as ih =>
    intro k a hk
    cases k with
    | zero =>
      obtain rfl := Option.some.inj hk
      exact h.1
    | succ k => exact ih h.2 k a hk

/-- What every permitted step preserves holds after a run of permitted steps. -/
theorem invariant {ok : S → A → Prop} {inv : S → Prop}
    (hstep : ∀ s a, inv s → ok s a → inv (step s a)) {s : S} (hs : inv s) (as : List A)
    (hok : ∀ k a, as[k]? = some a → ok ((as.take k).foldl step s) a) : inv (as.foldl step s) := by
  induction as generalizing s with
  | nil => exact hs
  | cons a as ih =>
    refine ih (hstep s a hs (hok 0 a rfl)) fun k b hb => ?_
    exact hok (k + 1) b hb

/-- If every permitted step is also related to the state before it, the end of a
run is related to every moment of it. -/
theorem invariant_rel {ok : S → A → Prop} {inv : S → Prop} {R : S → S → Prop}
    (hrefl : ∀ s, R s s) (htrans : ∀ {s s' s''}, R s s' → R s' s'' → R s s'')
    (hstep : ∀ s a, inv s → ok s a → inv (step s a) ∧ R s (step s a)) {s : S} (hs : inv s)
    (as : List A) (hok : ∀ k a, as[k]? = some a → ok ((as.take k).foldl step s) a) :
    inv (as.foldl step s) ∧ ∀ k, R ((as.take k).foldl step s) (as.foldl step s) := by
  induction as generalizing s with
  | nil => exact ⟨hs, fun k => by simpa using hrefl s⟩
  | cons a as ih =>
    obtain ⟨hs', hR⟩ := hstep s a hs (hok 0 a rfl)
    obtain ⟨hend, hall⟩ := ih hs' fun k b hb => hok (k + 1) b hb
    refine ⟨hend, fun k => ?_⟩
    cases k with
    | zero => exact htrans hR (hall 0)
    | succ k => exact hall k

/-- Every moment of a run has its abstract state, and neighbours are linked. -/
theorem exists_trace {ok : A → Prop} {sim : S → H → Prop} {link : H → H → Prop}
    (hrefl : ∀ h, link h h)
    (hstep : ∀ {s h a}, sim s h → ok a → ∃ h', link h h' ∧ sim (step s a) h') {s : S} {h : H}
    (hs : sim s h) (as : List A) (hok : ∀ a ∈ as, ok a) :
    ∃ f : Nat → H, f 0 = h ∧ ∀ k, sim ((as.take k).foldl step s) (f k) ∧ link (f k) (f (k + 1)) := by
  induction as generalizing s h with
  | nil => exact ⟨fun _ => h, rfl, fun k => ⟨by simpa using hs, hrefl h⟩⟩
  | cons a as ih =>
    obtain ⟨h', hlink, hs'⟩ := hstep hs (hok a List.mem_cons_self)
    obtain ⟨g, hg, htrace⟩ := ih hs' fun b hb => hok b (List.mem_cons_of_mem _ hb)
    refine ⟨fun k => Nat.casesOn k h g, rfl, fun k => ?_⟩
    cases k with
    | zero => exact ⟨hs, by rw [← hg] at hlink; exact hlink⟩
    | succ k => exact htrace k

/-- A quantity that grows at every moment where the trace says so. -/
theorem exists_first {m : Nat → Nat} {n k : Nat} (h0 : m 0 < n) (hk : n ≤ m k) :
    ∃ j < k, m j < n ∧ n ≤ m (j + 1) := by
  induction k with
  | zero => omega
  | succ k ih =>
    rcases Nat.lt_or_ge (m k) n with hlt | hge
    · exact ⟨k, Nat.lt_succ_self k, hlt, hk⟩
    · obtain ⟨j, hj, h⟩ := ih hge
      exact ⟨j, hj.trans (Nat.lt_succ_self k), h⟩

/-- A machine that takes the same steps wherever a run comes takes the same run. -/
theorem foldl_congr {step' : S → A → S} {s : S} (as : List A)
    (h : ∀ k a, as[k]? = some a →
      step' ((as.take k).foldl step s) a = step ((as.take k).foldl step s) a) :
    as.foldl step' s = as.foldl step s := by
  induction as generalizing s with
  | nil => rfl
  | cons a as ih =>
    have hfirst : step' s a = step s a := h 0 a rfl
    rw [List.foldl_cons, List.foldl_cons, hfirst]
    exact ih fun k b hb => h (k + 1) b hb

end Run
