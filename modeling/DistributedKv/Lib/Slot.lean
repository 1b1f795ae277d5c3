import DistributedKv.Lib.Volume

/-!
A file that holds one value and is only ever replaced as a whole. Its writer
keeps nothing in memory, so that processes may come and go between two saves.

After any number of saves, with system calls that fail, processes that die half
way and power failures in between, the file holds what the last acknowledged
save was given, or what a later one was (`Session.explained`).
-/

namespace Volume

open Crash Prog

/-- The file, what is checked before a value is saved, and the texts of errors. -/
structure Slot (α : Type) where
  file : String
  messages : Messages
  mkdir : String → String
  check : α → Except String Unit
  encode : α → List UInt8

namespace Slot

variable {α V : Type} (slot : Slot α)

/-- The first call makes the directory. A volume is a directory that is there and
is itself safe, so that the call changes nothing; one that it had to create would
not be safe before the directory above is synced. -/
def save (a : α) : Prog V Vol (Except String Unit) := do
  match slot.check a with
  | .error err => return .error err
  | .ok () =>
  match ← attempt with
  | .error err => return .error (slot.mkdir err)
  | .ok () => replaceFile slot.messages (.path slot.file) (slot.encode a)

/-- Nothing happened, or the value passed the check and was tried to be written. -/
inductive Attempted (v : Vol) (a : α) : Vol → Prop where
  | untouched : Attempted v a v
  | tried {v' : Vol} (hcheck : slot.check a = .ok ())
      (h : Tried v v' (.path slot.file) (.temp v.temps) (slot.encode a)) : Attempted v a v'

variable {slot} {allow : Outcome → Prop} {s : V} {v v' : Vol} {a : α} {o : Option (List UInt8)}

theorem wp_save :
    wp allow (slot.Attempted v a) (slot.save a) (fun out s' v' => s' = s ∧ slot.Attempted v a v' ∧
      (out = .ok () → slot.check a = .ok () ∧
        Replaced v v' (.path slot.file) (.temp v.temps) (slot.encode a)) ∧
      ∀ err, out = .error err → Faulty allow ∨ slot.check a = .error err ∧ v' = v) s v := by
  unfold save
  cases hcheck : slot.check a with
  | error err =>
    refine ⟨rfl, .untouched, fun h => (by cases h), fun e he => .inr ⟨?_, rfl⟩⟩
    rw [Except.error.inj he]
  | ok u =>
    rw [wp_bind]
    refine wp_trial .untouched ?_ ?_
    · refine wp_mono _ _ _ wp_replaceFile ?_ fun _ h => .tried hcheck h
      rintro out s' v' ⟨rfl, htried, hok, herr⟩
      exact ⟨rfl, .tried hcheck htried, fun h => ⟨rfl, hok h⟩, fun err h => .inl (herr err h)⟩
    · intro hf err
      exact ⟨rfl, .untouched, fun h => (by cases h), fun _ _ => .inl hf⟩

theorem Attempted.possible (h : slot.Attempted v a v') (ho : v'.Possible (.path slot.file) o) :
    v.Possible (.path slot.file) o ∨ slot.check a = .ok () ∧ o = some (slot.encode a) := by
  cases h with
  | untouched => exact .inl ho
  | tried hcheck h =>
    have hne : Name.temp v.temps ≠ .path slot.file := by
      intro heq
      cases heq
    exact (h.possible hne ho).imp_right fun heq => ⟨hcheck, heq⟩

/-! ## Sessions -/

/-- A save, with what becomes of its system calls, or a power failure. -/
inductive Event (α : Type) where
  | save (a : α) (answers : List Outcome)
  | powerFailure (c : Vol.Choice)

variable (slot) in
/-- What the event returns, if its process lives to see it, and what it leaves. -/
def perform : Event α → Vol → Option (Except String Unit) × Vol
  | .save a answers, v =>
      match (slot.save a : Prog Unit Vol _).run answers () v with
      | .done out _ v' => (some out, v')
      | .crashed v' => (none, v')
  | .powerFailure c, v => (none, v.recover c)

variable (slot) in
/-- Saves and power failures in a directory in which other things may happen too,
as long as they leave this file and its name alone. -/
inductive Session :
    List (Event α) → List (Option (Except String Unit)) → Vol → Vol → Prop where
  | nil (v : Vol) : Session [] [] v v
  | event {e : Event α} {r : Option (Except String Unit)} {es : List (Event α)}
      {rs : List (Option (Except String Unit))} {v v₁ v₂ : Vol} (h : slot.perform e v = (r, v₁))
      (hrest : Session es rs v₁ v₂) : Session (e :: es) (r :: rs) v v₂
  | other {es : List (Event α)} {rs : List (Option (Except String Unit))} {v v₁ v₂ : Vol}
      (h : v.Same v₁ (.path slot.file)) (hrest : Session es rs v₁ v₂) : Session es rs v v₂

variable (slot) in
/-- The contents were there from the start and no save was acknowledged; or a save
was given them and none was acknowledged after it. -/
inductive Explained (v : Vol) (events : List (Event α)) (results : List (Option (Except String Unit)))
    (o : Option (List UInt8)) : Prop where
  | start (h : v.Possible (.path slot.file) o) (hno : ∀ r ∈ results, r ≠ some (.ok ()))
  | saved (k : Nat) (a : α) (answers : List Outcome) (hk : events[k]? = some (.save a answers))
      (hcheck : slot.check a = .ok ()) (ho : o = some (slot.encode a))
      (hno : ∀ j, k < j → results[j]? ≠ some (some (.ok ())))

/-- One event: the contents were possible before it, or it is a save that was
given them; the latter if it was acknowledged. -/
theorem perform_possible {e : Event α} {r : Option (Except String Unit)}
    (h : slot.perform e v = (r, v')) (ho : v'.Possible (.path slot.file) o) :
    (v.Possible (.path slot.file) o ∧ r ≠ some (.ok ())) ∨
      ∃ a answers, e = .save a answers ∧ slot.check a = .ok () ∧ o = some (slot.encode a) := by
  cases e with
  | powerFailure c =>
    obtain ⟨rfl, rfl⟩ := Prod.mk.inj h
    exact .inl ⟨Vol.possible_recover c ho, (Option.some_ne_none _).symm⟩
  | save a answers =>
    have hwp := wp_run (slot.save a) _ answers () v (fun _ _ => trivial)
      (@wp_save α Unit slot (fun _ => True) () v a)
    simp only [perform] at h
    cases hrun : (slot.save a : Prog Unit Vol _).run answers () v with
    | crashed v₁ =>
      rw [hrun] at h hwp
      obtain ⟨rfl, rfl⟩ := Prod.mk.inj h
      rcases hwp.possible ho with hold | ⟨hcheck, hnew⟩
      · exact .inl ⟨hold, (Option.some_ne_none _).symm⟩
      · exact .inr ⟨a, answers, rfl, hcheck, hnew⟩
    | done out u v₁ =>
      rw [hrun] at h hwp
      obtain ⟨rfl, rfl⟩ := Prod.mk.inj h
      obtain ⟨-, hatt, hack, -⟩ := hwp
      rcases hatt.possible ho with hold | ⟨hcheck, hnew⟩
      · by_cases hok : out = .ok ()
        · obtain ⟨hcheck, hrep⟩ := hack hok
          exact .inr ⟨a, answers, rfl, hcheck, hrep.possible ho⟩
        · refine .inl ⟨hold, fun heq => hok (Option.some.inj heq)⟩
      · exact .inr ⟨a, answers, rfl, hcheck, hnew⟩

theorem Session.explained {events : List (Event α)} {results : List (Option (Except String Unit))}
    (h : slot.Session events results v v') (ho : v'.Possible (.path slot.file) o) :
    slot.Explained v events results o := by
  induction h with
  | nil v => exact .start ho (by simp)
  | other hsame _ ih =>
    cases ih ho with
    | start hposs hno => exact .start (hsame.possible hposs) hno
    | saved k a answers hk hcheck ho hno => exact .saved k a answers hk hcheck ho hno
  | event hfirst _ ih =>
    cases ih ho with
    | saved k a answers hk hcheck ho hno =>
      refine .saved (k + 1) a answers hk hcheck ho ?_
      intro j hj
      obtain ⟨j, rfl⟩ : ∃ i, j = i + 1 := ⟨j - 1, by omega⟩
      exact hno j (by omega)
    | start hposs hno =>
      rcases perform_possible hfirst hposs with ⟨hold, hr⟩ | ⟨a, answers, rfl, hcheck, hnew⟩
      · refine .start hold ?_
        intro r hr'
        rcases List.mem_cons.mp hr' with rfl | hmem
        · exact hr
        · exact hno r hmem
      · refine .saved 0 a answers rfl hcheck hnew ?_
        intro j hj heq
        obtain ⟨j, rfl⟩ : ∃ i, j = i + 1 := ⟨j - 1, by omega⟩
        exact hno _ (List.mem_of_getElem? heq) rfl

end Slot

end Volume
