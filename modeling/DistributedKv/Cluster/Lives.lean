import DistributedKv.Cluster.Model

/-!
The lives of a member in a run of the cluster. What a member does from one start
to the next crash is a life of the node model (`live`), so what holds of every
life of a node holds of every member of every run.
-/

namespace DistributedKv

open Crash

def Process.isUp {σ : Type} : Process σ → Bool
  | .up _ _ => true
  | .down _ => false

namespace Cluster

variable {σ : Type} {C : Cluster σ} {actions : List Action} {n : Int} {k : Nat}

/-- Action `k` is a step of `n` that runs to its end, in the world to which the
actions before lead under `run`. -/
def Occurs (C : Cluster σ) (run : List Action → World σ) (actions : List Action) (k : Nat) (n : Int)
    (e : Event σ) : Prop :=
  ∃ answers d r' d', actions[k]? = some (.step n e.input answers) ∧
    (run (actions.take k)).nodes n = .up e.before d ∧
    e.input.available (run (actions.take k)).net n = true ∧
    (react (C.env n) e.input).run answers e.before d = .done e.output r' d'

/-- `n` is up at every moment from `j` to `k`: it neither crashes nor restarts. -/
def Alive (run : List Action → World σ) (actions : List Action) (n : Int) (j k : Nat) : Prop :=
  ∀ i, j ≤ i → i ≤ k → ∃ r d, (run (actions.take i)).nodes n = .up r d

/-- The life of `n` at moment `k`, which started with action `s - 1`. -/
structure LifeAt (C : Cluster σ) (actions : List Action) (n : Int) (k s : Nat) (l : Life σ) :
    Prop where
  mem : n ∈ C.members
  le : s ≤ k
  process : l.process = (C.run (actions.take k)).nodes n
  begun : ∃ answers d₀ r v d steps,
    start (C.env n) answers d₀ = .done (.ok r) v d ∧ l = live (C.env n) r d steps
  alive : Alive C.run actions n s k
  down : 0 < s ∧ ∃ d, (C.run (actions.take (s - 1))).nodes n = .down d
  events : ∀ j e, s ≤ j → j < k → C.Occurs C.run actions j n e → e ∈ l.events
  occurs : ∀ e ∈ l.events, ∃ j, s ≤ j ∧ j < k ∧ C.Occurs C.run actions j n e

theorem Alive.succ {s : Nat} (h : Alive C.run actions n s k) {r : Raft σ} {d : Disk}
    (hup : (C.run (actions.take (k + 1))).nodes n = .up r d) : Alive C.run actions n s (k + 1) := by
  intro i hs hi
  rcases Nat.lt_or_eq_of_le hi with hlt | rfl
  · exact h i hs (Nat.lt_succ_iff.mp hlt)
  · exact ⟨r, d, hup⟩

/-- Being up can be checked moment by moment. -/
theorem Alive.of_all {run : List Action → World σ} {j : Nat}
    (h : (List.range (k + 1)).all (fun i => i < j ∨
      ((run (actions.take i)).nodes n).isUp = true) = true) : Alive run actions n j k := by
  intro i hj hk
  have hi := List.all_eq_true.mp h i (List.mem_range.mpr (Nat.lt_succ_iff.mpr hk))
  have hup := (of_decide_eq_true hi).resolve_left (Nat.not_lt.mpr hj)
  cases hproc : (run (actions.take i)).nodes n with
  | up r d => exact ⟨r, d, rfl⟩
  | down d =>
    rw [hproc] at hup
    cases hup

section Step

variable {s : Nat} {l : Life σ} (h : C.LifeAt actions n k s l) {r r' : Raft σ} {d d' : Disk}

include h

/-- A moment at which `n` takes no step. -/
theorem LifeAt.wait (hup : (C.run (actions.take (k + 1))).nodes n = .up r d)
    (hsame : (C.run (actions.take k)).nodes n = .up r d)
    (hquiet : ∀ e, ¬ C.Occurs C.run actions k n e) : C.LifeAt actions n (k + 1) s l where
  mem := h.mem
  le := Nat.le_succ_of_le h.le
  process := by rw [h.process, hsame, hup]
  begun := h.begun
  alive := h.alive.succ hup
  down := h.down
  events j e hs hj ho := by
    rcases Nat.lt_or_eq_of_le (Nat.lt_succ_iff.mp hj) with hlt | rfl
    · exact h.events j e hs hlt ho
    · exact absurd ho (hquiet e)
  occurs e he := by
    obtain ⟨j, hs, hj, ho⟩ := h.occurs e he
    exact ⟨j, hs, hj.trans (Nat.lt_succ_self k), ho⟩

/-- A step that runs to its end. -/
theorem LifeAt.step {i : Input} {answers : List Outcome} {out : Output}
    (hact : actions[k]? = some (.step n i answers))
    (hup : (C.run (actions.take k)).nodes n = .up r d)
    (hav : i.available (C.run (actions.take k)).net n = true)
    (hrun : (react (C.env n) i).run answers r d = .done out r' d') :
    C.LifeAt actions n (k + 1) s (l.step (C.env n) (i, answers)) := by
  have hnext : (C.run (actions.take (k + 1))).nodes n = .up r' d' := by
    rw [C.run_take_succ hact, perform_step hup h.mem hav hrun]
    exact Function.update_self _ _ _
  have hproc : l.process = .up r d := h.process.trans hup
  have hstep : l.step (C.env n) (i, answers) = ⟨.up r' d', l.events ++ [⟨r, i, out⟩]⟩ := by
    simp only [Life.step, hproc, hrun]
  refine ⟨h.mem, Nat.le_succ_of_le h.le, ?_, ?_, h.alive.succ hnext, h.down, ?_, ?_⟩
  · rw [hstep, hnext]
  · obtain ⟨answers₀, d₀, r₁, v, d₁, steps, hstart, rfl⟩ := h.begun
    refine ⟨answers₀, d₀, r₁, v, d₁, steps ++ [(i, answers)], hstart, ?_⟩
    simp only [live, List.foldl_append, List.foldl_cons, List.foldl_nil]
  · intro j e hs hj ho
    rw [hstep]
    rcases Nat.lt_or_eq_of_le (Nat.lt_succ_iff.mp hj) with hlt | rfl
    · exact List.mem_append_left _ (h.events j e hs hlt ho)
    · -- the one step that action `k` can be
      obtain ⟨answers', d₁, r₁, d₂, hact', hup', -, hrun'⟩ := ho
      obtain ⟨-, hi, rfl⟩ := Action.step.inj (Option.some.inj (hact.symm.trans hact'))
      obtain ⟨hr, rfl⟩ := Process.up.inj (hup.symm.trans hup')
      rw [← hi, ← hr, hrun] at hrun'
      obtain ⟨hout, -, -⟩ := Exit.done.inj hrun'
      refine List.mem_append_right _ (List.mem_singleton.mpr ?_)
      obtain ⟨before, input, output⟩ := e
      simp only at hi hr hout
      rw [hi, hr, hout]
  · intro e he
    rw [hstep] at he
    rcases List.mem_append.mp he with he | he
    · obtain ⟨j, hs, hj, ho⟩ := h.occurs e he
      exact ⟨j, hs, hj.trans (Nat.lt_succ_self k), ho⟩
    · rw [List.mem_singleton.mp he]
      exact ⟨k, h.le, Nat.lt_succ_self k, answers, d, r', d', hact, hup, hav, hrun⟩

end Step

/-- The life of a member that starts with action `k`. -/
theorem LifeAt.start {r : Raft σ} {d₀ d : Disk} {v : σ} {answers : List Outcome}
    (hn : n ∈ C.members) (hdown : (C.run (actions.take k)).nodes n = .down d₀)
    (hstart : DistributedKv.start (C.env n) answers d₀ = .done (.ok r) v d)
    (hup : (C.run (actions.take (k + 1))).nodes n = .up r d) :
    C.LifeAt actions n (k + 1) (k + 1) (live (C.env n) r d []) where
  mem := hn
  le := Nat.le_refl _
  process := hup.symm
  begun := ⟨answers, d₀, r, v, d, [], hstart, rfl⟩
  alive i hs hi := by
    obtain rfl := Nat.le_antisymm hi hs
    exact ⟨r, d, hup⟩
  down := ⟨Nat.succ_pos k, d₀, hdown⟩
  events j _ hs hj _ := absurd hj (Nat.not_lt.mpr hs)
  occurs e he := by cases he

/-- A member that is up is in one of its lives. -/
theorem exists_lifeAt {r : Raft σ} {d : Disk} (hup : (C.run (actions.take k)).nodes n = .up r d) :
    ∃ s l, C.LifeAt actions n k s l := by
  induction k generalizing r d with
  | zero => cases hup
  | succ k ih =>
    cases hact : actions[k]? with
    | none =>
      have hsame : actions.take (k + 1) = actions.take k := by
        rw [List.take_add_one, hact, Option.toList_none, List.append_nil]
      have hup' := hup
      rw [hsame] at hup'
      obtain ⟨s, l, h⟩ := ih hup'
      refine ⟨s, l, h.wait hup hup' fun e ho => ?_⟩
      obtain ⟨_, _, _, _, hstep, -⟩ := ho
      rw [hact] at hstep
      cases hstep
    | some a =>
      have hnext := hup
      rw [C.run_take_succ hact] at hnext
      by_cases hstep : ∃ i answers r d, a = .step n i answers ∧
          (C.run (actions.take k)).nodes n = .up r d ∧
          i.available (C.run (actions.take k)).net n = true
      · obtain ⟨i, answers, r₁, d₁, rfl, hup₁, hav⟩ := hstep
        obtain ⟨s, l, h⟩ := ih hup₁
        cases hrun : (react (C.env n) i).run answers r₁ d₁ with
        | done out r₂ d₂ => exact ⟨s, _, h.step hact hup₁ hav hrun⟩
        | crashed d₂ =>
          simp only [perform, hup₁, h.mem, hav, hrun, and_self, ↓reduceIte,
            Function.update_self] at hnext
          cases hnext
      · rcases perform_up hnext with hsame | ⟨i, answers, r₁, d₁, _, rfl, hup₁, -, hav, -⟩ |
          ⟨answers, d₀, v, rfl, hdown, hn, hstart⟩
        · obtain ⟨s, l, h⟩ := ih hsame
          refine ⟨s, l, h.wait hup hsame fun e ho => ?_⟩
          obtain ⟨answers, d₁, _, _, hact', hup₁, hav, -⟩ := ho
          exact hstep ⟨_, _, _, _, Option.some.inj (hact.symm.trans hact'), hup₁, hav⟩
        · exact absurd ⟨i, answers, r₁, d₁, rfl, hup₁, hav⟩ hstep
        · exact ⟨_, _, LifeAt.start hn hdown hstart hup⟩

/-- A life that reaches to moment `k` was there at every moment since which the
member has been up. -/
theorem LifeAt.start_le {s j : Nat} {l : Life σ} (h : C.LifeAt actions n k s l)
    (halive : Alive C.run actions n j k) : s ≤ j := by
  by_contra hlt
  obtain ⟨hpos, d, hdown⟩ := h.down
  have hle := h.le
  obtain ⟨r, d', hup⟩ := halive (s - 1) (by omega) (by omega)
  rw [hdown] at hup
  cases hup

/-- A step that occurs leaves the member up. -/
theorem Occurs.up {e : Event σ} (h : C.Occurs C.run actions k n e) :
    ∃ r d, (C.run (actions.take (k + 1))).nodes n = .up r d := by
  obtain ⟨answers, d, r', d', hact, hup, hav, hrun⟩ := h
  obtain ⟨s, l, hlife⟩ := exists_lifeAt hup
  refine ⟨r', d', ?_⟩
  rw [C.run_take_succ hact, perform_step hup hlife.mem hav hrun]
  exact Function.update_self _ _ _

end Cluster

end DistributedKv
