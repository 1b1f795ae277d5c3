import Mathlib.Logic.Basic

/-!
Programs that keep a volatile state and write a durable one.

A program is a tree of reads, volatile updates and store calls. Every store
call is answered by the environment: it may succeed, return an error (with or
without having written), or be the point where the process dies, in which case
only the durable state is left. `Prog.run` executes a program against a list of
such answers; `Prog.wp` is its weakest precondition, with one postcondition for
a normal return and one for the disk a crash leaves behind. `wp_run` connects
the two.
-/

namespace Crash

/-- What the environment makes of one store call. -/
inductive Outcome where
  | ok
  | fail (err : String)
  | failWritten (err : String)
  | crash (written : Nat)
  deriving DecidableEq, Repr

/-- A store call: what it does when carried out (or why the store refuses it),
and what is on disk when the process dies after `n` units of it. -/
structure Write (D : Type) where
  run : D → Except String D
  part : Nat → D → D

inductive Prog (V D α : Type) where
  | pure (a : α)
  | get (k : V → Prog V D α)
  | set (v : V) (k : Prog V D α)
  | load (k : D → Prog V D α)
  | call (w : Write D) (k : Except String Unit → Prog V D α)

/-- How a run ends. -/
inductive Exit (V D α : Type) where
  | done (a : α) (v : V) (d : D)
  | crashed (d : D)

variable {V D α β : Type}

/-- The same end with another result. -/
def Exit.map (f : α → β) : Exit V D α → Exit V D β
  | .done a v d => .done (f a) v d
  | .crashed d => .crashed d

namespace Prog

def bind : Prog V D α → (α → Prog V D β) → Prog V D β
  | .pure a, f => f a
  | .get k, f => .get fun v => (k v).bind f
  | .set v k, f => .set v (k.bind f)
  | .load k, f => .load fun d => (k d).bind f
  | .call w k, f => .call w fun r => (k r).bind f

instance : Monad (Prog V D) where
  pure := .pure
  bind := .bind

/-- The volatile state. -/
def read : Prog V D V := .get .pure

def modify (f : V → V) : Prog V D Unit := .get fun v => .set (f v) (.pure ())

/-- The durable state. -/
def disk : Prog V D D := .load .pure

def store (w : Write D) : Prog V D (Except String Unit) := .call w .pure

/-- A call that writes nothing but may return an error. -/
def attempt : Prog V D (Except String Unit) := store ⟨.ok, fun _ d => d⟩

/-- Run against a list of answers, one for each store call; calls past its end
succeed. A call the store itself refuses uses up its answer. -/
def run : Prog V D α → List Outcome → V → D → Exit V D α
  | .pure a, _, v, d => .done a v d
  | .get k, o, v, d => (k v).run o v d
  | .set v k, o, _, d => k.run o v d
  | .load k, o, v, d => (k d).run o v d
  | .call w k, o, v, d =>
      match w.run d with
      | .error e => (k (.error e)).run o.tail v d
      | .ok d' =>
          match o with
          | [] => (k (.ok ())).run [] v d'
          | .ok :: o => (k (.ok ())).run o v d'
          | .fail e :: o => (k (.error e)).run o v d
          | .failWritten e :: o => (k (.error e)).run o v d'
          | .crash n :: _ => .crashed (w.part n d)

/-- The call succeeds, or returns an error and leaves the disk as it is. -/
def Clean : Outcome → Prop
  | .ok => True
  | .fail _ => True
  | _ => False

/-- Weakest precondition over all answers that `allow` permits: `Q` for a normal
return, `R` for the disk that a crash leaves. Success is always permitted. -/
def wp (allow : Outcome → Prop) (R : D → Prop) :
    Prog V D α → (α → V → D → Prop) → V → D → Prop
  | .pure a, Q, v, d => Q a v d
  | .get k, Q, v, d => (k v).wp allow R Q v d
  | .set v k, Q, _, d => k.wp allow R Q v d
  | .load k, Q, v, d => (k d).wp allow R Q v d
  | .call w k, Q, v, d =>
      match w.run d with
      | .error e => (k (.error e)).wp allow R Q v d
      | .ok d' => (k (.ok ())).wp allow R Q v d' ∧
          (∀ e, allow (.fail e) → (k (.error e)).wp allow R Q v d) ∧
          (∀ e, allow (.failWritten e) → (k (.error e)).wp allow R Q v d') ∧
          (∀ n, allow (.crash n) → R (w.part n d))

variable {allow : Outcome → Prop} {R : D → Prop}

/-- A run whose answers are all permitted ends as the weakest precondition says. -/
theorem wp_run (p : Prog V D α) (Q : α → V → D → Prop) (o : List Outcome) (v : V) (d : D)
    (ho : ∀ x ∈ o, allow x) (h : p.wp allow R Q v d) :
    match p.run o v d with
    | .done a v' d' => Q a v' d'
    | .crashed d' => R d' := by
  induction p generalizing o v d with
  | pure a => exact h
  | get k ih => exact ih v o v d ho h
  | set v' k ih => exact ih o v' d ho h
  | load k ih => exact ih d o v d ho h
  | call w k ih =>
    simp only [wp] at h
    unfold run
    cases hw : w.run d with
    | error e =>
      rw [hw] at h
      exact ih _ _ v d (fun x hx => ho x (List.mem_of_mem_tail hx)) h
    | ok d' =>
      rw [hw] at h
      obtain ⟨hok, hfail, hwritten, hcrash⟩ := h
      cases o with
      | nil => exact ih _ _ v d' ho hok
      | cons x o =>
        have hx : allow x := ho x (by simp)
        have ho' : ∀ y ∈ o, allow y := fun y hy => ho y (by simp [hy])
        cases x with
        | ok => exact ih _ _ v d' ho' hok
        | fail e => exact ih _ _ v d ho' (hfail e hx)
        | failWritten e => exact ih _ _ v d' ho' (hwritten e hx)
        | crash n => exact hcrash n hx

/-! ## Rules -/

/-- Without failing calls, a sequence runs part by part. -/
theorem run_bind_nil (p : Prog V D α) (f : α → Prog V D β) {v v' : V} {d d' : D} {a : α}
    (h : p.run [] v d = .done a v' d') : (p >>= f).run [] v d = (f a).run [] v' d' := by
  change (p.bind f).run [] v d = _
  induction p generalizing v d with
  | pure b =>
    obtain ⟨rfl, rfl, rfl⟩ := Exit.done.inj h
    rfl
  | get k ih => exact ih v h
  | set v₁ k ih => exact ih h
  | load k ih => exact ih d h
  | call w k ih =>
    simp only [Prog.bind, run] at h ⊢
    cases hw : w.run d with
    | error e =>
      rw [hw] at h
      exact ih _ h
    | ok d₁ =>
      rw [hw] at h
      exact ih _ h

/-- A result that is turned into another one at the end of a run. -/
theorem run_map (p : Prog V D α) (f : α → β) (o : List Outcome) (v : V) (d : D) :
    (p >>= fun a => Pure.pure (f a)).run o v d = (p.run o v d).map f := by
  change (p.bind fun a => Prog.pure (f a)).run o v d = _
  induction p generalizing o v d with
  | pure a => rfl
  | get k ih => exact ih v o v d
  | set v' k ih => exact ih o v' d
  | load k ih => exact ih d o v d
  | call w k ih =>
    simp only [Prog.bind, run]
    cases w.run d with
    | error e => exact ih _ _ v d
    | ok d' =>
      rcases o with _ | ⟨_ | _ | _ | _, o⟩
      · exact ih _ _ v d'
      · exact ih _ _ v d'
      · exact ih _ _ v d
      · exact ih _ _ v d'
      · rfl

theorem run_store_ok {w : Write D} {v : V} {d d' : D} (h : w.run d = .ok d') :
    (store w : Prog V D _).run [] v d = .done (.ok ()) v d' := by
  simp only [store, run, h]

theorem run_store_error {w : Write D} {v : V} {d : D} {err : String} (h : w.run d = .error err) :
    (store w : Prog V D _).run [] v d = .done (.error err) v d := by
  simp only [store, run, h]

/-- A store call, and then the rest against the answers that are left. -/
theorem run_store_bind (w : Write D) (f : Except String Unit → Prog V D β) (o : List Outcome)
    (v : V) (d : D) :
    (store w >>= f).run o v d = match (store w : Prog V D _).run o v d with
      | .done a v' d' => (f a).run o.tail v' d'
      | .crashed d' => .crashed d' := by
  change (Prog.call w fun a => f a).run o v d = _
  simp only [store, run]
  cases w.run d with
  | error e => rfl
  | ok d' => rcases o with _ | ⟨_ | _ | _ | _, o⟩ <;> rfl

/-- A store call leaves the volatile state alone. -/
theorem volatile_of_run_store {w : Write D} {o : List Outcome} {v v' : V} {d d' : D}
    {a : Except String Unit} (h : (store w : Prog V D _).run o v d = .done a v' d') : v' = v := by
  simp only [store, run] at h
  cases hw : w.run d with
  | error e =>
    rw [hw] at h
    exact (Exit.done.inj h).2.1.symm
  | ok d₁ =>
    rw [hw] at h
    rcases o with _ | ⟨_ | _ | _ | _, o⟩
    · exact (Exit.done.inj h).2.1.symm
    · exact (Exit.done.inj h).2.1.symm
    · exact (Exit.done.inj h).2.1.symm
    · exact (Exit.done.inj h).2.1.symm
    · cases h

/-- Success is always permitted, and a run without failing calls reaches its end. -/
theorem wp_run_ok (p : Prog V D α) (Q : α → V → D → Prop) (o : List Outcome) (v : V) (d : D)
    (ho : ∀ x ∈ o, x = .ok) (h : p.wp allow R Q v d) :
    ∃ a v' d', p.run o v d = .done a v' d' ∧ Q a v' d' := by
  induction p generalizing o v d with
  | pure a => exact ⟨a, v, d, rfl, h⟩
  | get k ih => exact ih v o v d ho h
  | set v' k ih => exact ih o v' d ho h
  | load k ih => exact ih d o v d ho h
  | call w k ih =>
    simp only [wp] at h
    simp only [run]
    cases hw : w.run d with
    | error e =>
      rw [hw] at h
      exact ih _ o.tail v d (fun x hx => ho x (List.mem_of_mem_tail hx)) h
    | ok d' =>
      rw [hw] at h
      cases o with
      | nil => exact ih _ [] v d' ho h.1
      | cons x o =>
        obtain rfl := ho x List.mem_cons_self
        exact ih _ o v d' (fun y hy => ho y (List.mem_cons_of_mem _ hy)) h.1

/-- A program with one possible result, run without failing calls. -/
theorem run_eq_of_wp {p : Prog V D α} {a : α} {v v' : V} {d d' : D}
    (h : p.wp allow R (fun b w e => b = a ∧ w = v' ∧ e = d') v d) :
    p.run [] v d = .done a v' d' := by
  obtain ⟨_, _, _, hrun, rfl, rfl, rfl⟩ := wp_run_ok p _ [] v d (fun x hx => by cases hx) h
  exact hrun


@[simp] theorem wp_pure (a : α) (Q : α → V → D → Prop) (v : V) (d : D) :
    wp allow R (Pure.pure a : Prog V D α) Q v d ↔ Q a v d := Iff.rfl

@[simp] theorem wp_bind (p : Prog V D α) (f : α → Prog V D β) (Q : β → V → D → Prop)
    (v : V) (d : D) :
    wp allow R (p >>= f) Q v d ↔
      wp allow R p (fun a v d => wp allow R (f a) Q v d) v d := by
  change wp allow R (p.bind f) Q v d ↔ _
  induction p generalizing v d with
  | pure a => exact Iff.rfl
  | get k ih => exact ih v v d
  | set v' k ih => exact ih v' d
  | load k ih => exact ih d v d
  | call w k ih =>
    simp only [Prog.bind, wp]
    cases w.run d <;> simp only [ih]

@[simp] theorem wp_read (Q : V → V → D → Prop) (v : V) (d : D) :
    wp allow R (read : Prog V D V) Q v d ↔ Q v v d := Iff.rfl

@[simp] theorem wp_modify (f : V → V) (Q : Unit → V → D → Prop) (v : V) (d : D) :
    wp allow R (modify f : Prog V D Unit) Q v d ↔ Q () (f v) d := Iff.rfl

@[simp] theorem wp_disk (Q : D → V → D → Prop) (v : V) (d : D) :
    wp allow R (disk : Prog V D D) Q v d ↔ Q d v d := Iff.rfl

theorem wp_store (w : Write D) (Q : Except String Unit → V → D → Prop) (v : V) (d : D) :
    wp allow R (store w) Q v d ↔
      match w.run d with
      | .error e => Q (.error e) v d
      | .ok d' => Q (.ok ()) v d' ∧ (∀ e, allow (.fail e) → Q (.error e) v d) ∧
          (∀ e, allow (.failWritten e) → Q (.error e) v d') ∧
          (∀ n, allow (.crash n) → R (w.part n d)) := by
  unfold store
  rw [wp]
  cases w.run d <;> exact Iff.rfl

@[simp] theorem wp_attempt (Q : Except String Unit → V → D → Prop) (v : V) (d : D) :
    wp allow R attempt Q v d ↔
      Q (.ok ()) v d ∧ (∀ e, allow (.fail e) → Q (.error e) v d) ∧
        (∀ e, allow (.failWritten e) → Q (.error e) v d) ∧ (∀ n, allow (.crash n) → R d) := Iff.rfl

theorem wp_ite (c : Prop) [Decidable c] (p q : Prog V D α) (Q : α → V → D → Prop)
    (v : V) (d : D) :
    wp allow R (if c then p else q) Q v d ↔
      (c → wp allow R p Q v d) ∧ (¬ c → wp allow R q Q v d) := by
  by_cases h : c <;> simp [h]

/-- A store call that keeps a property of the disk, whatever comes of it. -/
theorem wp_store_of_keeps {w : Write D} {Q : Except String Unit → V → D → Prop} {v : V} {d : D}
    (hd : R d) (hrun : ∀ d', w.run d = .ok d' → R d') (hpart : ∀ n, R (w.part n d))
    (hQ : ∀ res d', R d' → Q res v d') : wp allow R (store w) Q v d := by
  rw [wp_store]
  cases h : w.run d with
  | error err => exact hQ _ d hd
  | ok d' =>
    have hd' := hrun d' h
    exact ⟨hQ _ d' hd', fun _ _ => hQ _ d hd, fun _ _ => hQ _ d' hd', fun n _ => hpart n⟩

/-- A store call that succeeds or fails without effect. -/
theorem wp_store_clean {w : Write D} {Q : Except String Unit → V → D → Prop} {v : V} {d : D}
    (hok : ∀ d', w.run d = .ok d' → Q (.ok ()) v d') (herr : ∀ err, Q (.error err) v d) :
    wp Clean R (store w) Q v d := by
  rw [wp_store]
  cases h : w.run d with
  | error err => exact herr err
  | ok d' => exact ⟨hok d' h, fun err _ => herr err, fun _ h => h.elim, fun _ h => h.elim⟩

/-- The rule of consequence, for both postconditions. -/
theorem wp_mono {R R' : D → Prop} {Q Q' : α → V → D → Prop} (p : Prog V D α) (v : V) (d : D)
    (h : wp allow R p Q v d) (hQ : ∀ a v d, Q a v d → Q' a v d) (hR : ∀ d, R d → R' d) :
    wp allow R' p Q' v d := by
  induction p generalizing v d with
  | pure a => exact hQ _ _ _ h
  | get k ih => exact ih v v d h
  | set v' k ih => exact ih v' d h
  | load k ih => exact ih d v d h
  | call w k ih =>
    simp only [wp] at h ⊢
    cases hw : w.run d with
    | error e => rw [hw] at h; exact ih _ v d h
    | ok d' =>
      rw [hw] at h
      obtain ⟨hok, hfail, hwritten, hcrash⟩ := h
      exact ⟨ih _ v d' hok, fun e he => ih _ v d (hfail e he),
        fun e he => ih _ v d' (hwritten e he), fun n hn => hR _ (hcrash n hn)⟩

/-- What holds under more answers holds under fewer. -/
theorem wp_of_allow {allow allow' : Outcome → Prop} {Q : α → V → D → Prop} (p : Prog V D α) (v : V)
    (d : D) (hallow : ∀ o, allow' o → allow o) (h : p.wp allow R Q v d) : p.wp allow' R Q v d := by
  induction p generalizing v d with
  | pure a => exact h
  | get k ih => exact ih v v d h
  | set v' k ih => exact ih v' d h
  | load k ih => exact ih d v d h
  | call w k ih =>
    simp only [wp] at h ⊢
    cases hw : w.run d with
    | error e =>
      rw [hw] at h
      exact ih _ v d h
    | ok d' =>
      rw [hw] at h
      obtain ⟨hok, hfail, hwritten, hcrash⟩ := h
      exact ⟨ih _ v d' hok, fun e he => ih _ v d (hfail e (hallow _ he)),
        fun e he => ih _ v d' (hwritten e (hallow _ he)), fun n hn => hcrash n (hallow _ hn)⟩

/-! ## Given answers -/

/-- Weakest precondition along one list of answers. The postcondition sees the
answers that are left. -/
def along (R : D → Prop) :
    Prog V D α → (α → List Outcome → V → D → Prop) → List Outcome → V → D → Prop
  | .pure a, Q, o, v, d => Q a o v d
  | .get k, Q, o, v, d => (k v).along R Q o v d
  | .set v k, Q, o, _, d => k.along R Q o v d
  | .load k, Q, o, v, d => (k d).along R Q o v d
  | .call w k, Q, o, v, d =>
      match w.run d with
      | .error e => (k (.error e)).along R Q o.tail v d
      | .ok d' =>
          match o with
          | [] => (k (.ok ())).along R Q [] v d'
          | .ok :: o => (k (.ok ())).along R Q o v d'
          | .fail e :: o => (k (.error e)).along R Q o v d
          | .failWritten e :: o => (k (.error e)).along R Q o v d'
          | .crash n :: _ => R (w.part n d)

theorem along_run (p : Prog V D α) (Q : α → List Outcome → V → D → Prop) (o : List Outcome)
    (v : V) (d : D) (h : p.along R Q o v d) :
    match p.run o v d with
    | .done a v' d' => ∃ o', Q a o' v' d'
    | .crashed d' => R d' := by
  induction p generalizing o v d with
  | pure a => exact ⟨o, h⟩
  | get k ih => exact ih v o v d h
  | set v' k ih => exact ih o v' d h
  | load k ih => exact ih d o v d h
  | call w k ih =>
    unfold along at h
    unfold run
    cases hw : w.run d with
    | error e =>
      rw [hw] at h
      exact ih _ _ v d h
    | ok d' =>
      rw [hw] at h
      rcases o with _ | ⟨_ | _ | _ | _, o⟩
      · exact ih _ _ v d' h
      · exact ih _ _ v d' h
      · exact ih _ _ v d h
      · exact ih _ _ v d' h
      · exact h

@[simp] theorem along_pure (a : α) (Q : α → List Outcome → V → D → Prop) (o : List Outcome) (v : V)
    (d : D) : along R (Pure.pure a : Prog V D α) Q o v d ↔ Q a o v d := Iff.rfl

@[simp] theorem along_bind (p : Prog V D α) (f : α → Prog V D β)
    (Q : β → List Outcome → V → D → Prop) (o : List Outcome) (v : V) (d : D) :
    along R (p >>= f) Q o v d ↔
      along R p (fun a o v d => along R (f a) Q o v d) o v d := by
  change along R (p.bind f) Q o v d ↔ _
  induction p generalizing o v d with
  | pure a => exact Iff.rfl
  | get k ih => exact ih v o v d
  | set v' k ih => exact ih o v' d
  | load k ih => exact ih d o v d
  | call w k ih =>
    unfold Prog.bind along
    cases w.run d with
    | error e => exact ih _ _ v d
    | ok d' =>
      rcases o with _ | ⟨_ | _ | _ | _, o⟩
      · exact ih _ _ v d'
      · exact ih _ _ v d'
      · exact ih _ _ v d
      · exact ih _ _ v d'
      · exact Iff.rfl

@[simp] theorem along_read (Q : V → List Outcome → V → D → Prop) (o : List Outcome) (v : V)
    (d : D) : along R (read : Prog V D V) Q o v d ↔ Q v o v d := Iff.rfl

@[simp] theorem along_modify (f : V → V) (Q : Unit → List Outcome → V → D → Prop)
    (o : List Outcome) (v : V) (d : D) :
    along R (modify f : Prog V D Unit) Q o v d ↔ Q () o (f v) d := Iff.rfl

theorem along_ite (c : Prop) [Decidable c] (p q : Prog V D α)
    (Q : α → List Outcome → V → D → Prop) (o : List Outcome) (v : V) (d : D) :
    along R (if c then p else q) Q o v d ↔
      (c → along R p Q o v d) ∧ (¬ c → along R q Q o v d) := by
  by_cases h : c <;> simp [h]

theorem along_mono {Q Q' : α → List Outcome → V → D → Prop} (p : Prog V D α) (o : List Outcome)
    (v : V) (d : D) (h : along R p Q o v d) (hQ : ∀ a o v d, Q a o v d → Q' a o v d) :
    along R p Q' o v d := by
  induction p generalizing o v d with
  | pure a => exact hQ _ _ _ _ h
  | get k ih => exact ih v o v d h
  | set v' k ih => exact ih o v' d h
  | load k ih => exact ih d o v d h
  | call w k ih =>
    unfold along at h ⊢
    cases hw : w.run d with
    | error e =>
      rw [hw] at h
      exact ih _ _ v d h
    | ok d' =>
      rw [hw] at h
      rcases o with _ | ⟨_ | _ | _ | _, o⟩
      · exact ih _ _ v d' h
      · exact ih _ _ v d' h
      · exact ih _ _ v d h
      · exact ih _ _ v d' h
      · exact h

section Stores

variable {w : Write D} {Q : Except String Unit → List Outcome → V → D → Prop} {o : List Outcome}
  {v : V} {d d' : D}

/-- A store call with what it returns. -/
theorem along_store : along R (store w) Q o v d ↔ match (store w : Prog V D _).run o v d with
    | .done a v' d' => Q a o.tail v' d'
    | .crashed d' => R d' := by
  simp only [store, along, run]
  cases w.run d with
  | error err => exact Iff.rfl
  | ok d' => rcases o with _ | ⟨_ | _ | _ | _, o⟩ <;> exact Iff.rfl

/-- A store call that succeeds, with the first of the answers, or fails without
effect. -/
theorem along_store_clean (ho : ∀ x ∈ o, Clean x)
    (hok : ∀ d', w.run d = .ok d' → (∀ x ∈ o.take 1, x = .ok) → Q (.ok ()) o.tail v d')
    (herr : ∀ err, Q (.error err) o.tail v d) : along R (store w) Q o v d := by
  unfold store along
  cases hw : w.run d with
  | error err => exact herr err
  | ok d' =>
    rcases o with _ | ⟨_ | _ | _ | _, o⟩
    · exact hok d' hw (by simp)
    · exact hok d' hw (by simp)
    · exact herr _
    · exact (ho _ List.mem_cons_self).elim
    · exact (ho _ List.mem_cons_self).elim

/-- A store call that the store takes and the answers let succeed. -/
theorem along_store_ok (ho : ∀ x ∈ o, x = .ok) (hw : w.run d = .ok d')
    (h : Q (.ok ()) o.tail v d') : along R (store w) Q o v d := by
  unfold store along
  rw [hw]
  rcases o with _ | ⟨x, o⟩
  · exact h
  · obtain rfl := ho x List.mem_cons_self
    exact h

end Stores

/-! ## Invariants -/

/-- Under all permitted answers the program keeps `I` of the volatile state and
`J` of the durable one, at every point where it can die as well, and what it
returns satisfies `Q`. -/
def Keeps (allow : Outcome → Prop) (I : V → Prop) (J : D → Prop) (Q : α → Prop)
    (p : Prog V D α) : Prop :=
  ∀ v d, I v → J d → wp allow J p (fun a v' d' => Q a ∧ I v' ∧ J d') v d

namespace Keeps

variable {I : V → Prop} {J : D → Prop} {P : α → Prop} {Q : β → Prop}

theorem pure {a : α} (h : P a) : Keeps allow I J P (Pure.pure a : Prog V D α) :=
  fun _ _ hv hd => ⟨h, hv, hd⟩

theorem bind {p : Prog V D α} {f : α → Prog V D β} (hp : Keeps allow I J P p)
    (hf : ∀ a, P a → Keeps allow I J Q (f a)) : Keeps allow I J Q (p >>= f) := by
  intro v d hv hd
  rw [wp_bind]
  exact wp_mono p v d (hp v d hv hd) (fun a v' d' h => hf a h.1 v' d' h.2.1 h.2.2) fun _ h => h

theorem read : Keeps allow I J I (read : Prog V D V) := fun _ _ hv hd => ⟨hv, hv, hd⟩

theorem disk : Keeps allow I J J (disk : Prog V D D) := fun _ _ hv hd => ⟨hd, hv, hd⟩

theorem modify {f : V → V} (h : ∀ v, I v → I (f v)) :
    Keeps allow I J (fun _ => True) (modify f : Prog V D Unit) :=
  fun v _ hv hd => ⟨trivial, h v hv, hd⟩

theorem store {w : Write D} (hrun : ∀ {d d'}, J d → w.run d = .ok d' → J d')
    (hpart : ∀ {d} n, J d → J (w.part n d)) :
    Keeps allow I J (fun _ => True) (store w : Prog V D _) := fun _ _ hv hd =>
  wp_store_of_keeps hd (fun _ h => hrun hd h) (fun n => hpart n hd) fun _ _ h => ⟨trivial, hv, h⟩

/-- A call into the state machine fails only where the answers say so. -/
theorem attempt : Keeps allow I J
    (fun out => ∀ err, out = .error err → allow (.fail err) ∨ allow (.failWritten err))
    (attempt : Prog V D _) := by
  intro v d hv hd
  rw [wp_attempt]
  refine ⟨⟨fun _ h => (by cases h), hv, hd⟩, fun e he => ⟨fun _ h => ?_, hv, hd⟩,
    fun e he => ⟨fun _ h => ?_, hv, hd⟩, fun _ _ => hd⟩
  · exact .inl (Except.error.inj h ▸ he)
  · exact .inr (Except.error.inj h ▸ he)

/-- What a program keeps holds at the end of every run of it. -/
theorem run {p : Prog V D α} (h : Keeps allow I J P p) {o : List Outcome}
    (ho : ∀ x ∈ o, allow x) {v : V} {d : D} (hv : I v) (hd : J d) :
    match p.run o v d with
    | .done a v' d' => P a ∧ I v' ∧ J d'
    | .crashed d' => J d' :=
  wp_run p _ o v d ho (h v d hv hd)

end Keeps

end Prog

end Crash
