import DistributedKv.Cluster.Model
import DistributedKv.Lib.Run
import DistributedKv.Raft.Payload

/-!
What a cluster carries around. `Freight` is a property of entries, states and
images that the state machine keeps; if every command that clients propose makes
entries with it, then everything in memory, on disk and in flight has it in every
run, whatever the stores answer.
-/

namespace DistributedKv

open Crash

variable {σ : Type}

/-- Properties of entries, states and images that go together. -/
structure Machine.Freight (m : Machine σ) where
  Entry : LogEntry → Prop
  Store : σ → Prop
  Image : Bytes → Prop
  noop : ∀ index term, Entry (noopEntry index term)
  initial : Store m.initial
  apply : ∀ {e st st'}, Entry e → Store st → m.apply e st = .ok st' → Store st'
  snapshot : ∀ {st data}, Store st → m.snapshotter.snapshot st = .ok data → Image data
  restore : ∀ {data st}, Image data → m.snapshotter.restore data = .ok st → Store st

/-- Every image that is carried around can be restored. -/
def Machine.Freight.Restores {m : Machine σ} (F : m.Freight) : Prop :=
  ∀ {data}, F.Image data → ∃ st, m.snapshotter.restore data = .ok st

/-- A property of entries alone. -/
def Machine.entryFreight (m : Machine σ) (Entry : LogEntry → Prop)
    (noop : ∀ index term, Entry (noopEntry index term)) : m.Freight where
  Entry := Entry
  Store _ := True
  Image _ := True
  noop := noop
  initial := trivial
  apply _ _ _ := trivial
  snapshot _ _ := trivial
  restore _ _ := trivial

namespace Cluster

variable {C : Cluster σ} (F : C.machine.Freight)

def freight (n : Int) : Payload (C.env n) where
  Entry := F.Entry
  Store := F.Store
  Image := F.Image
  noop := F.noop
  initial := F.initial
  apply hf he hs heq := by
    obtain rfl := Option.some.inj hf
    exact F.apply he hs heq
  snapshot hsn hs heq := by
    obtain rfl := Option.some.inj hsn
    exact F.snapshot hs heq
  restore hsn hd heq := by
    obtain rfl := Option.some.inj hsn
    exact F.restore hd heq

def ProcessCarries (n : Int) : Process σ → Prop
  | .up r d => (freight F n).Memory r ∧ (freight F n).Files d
  | .down d => (freight F n).Files d

/-- Every process and every message carries the freight. -/
structure Carries (w : World σ) : Prop where
  node : ∀ n, ProcessCarries F n (w.nodes n)
  append : ∀ dst req, .appendRequest dst req ∈ w.net → ∀ e ∈ req.entries, F.Entry e
  install : ∀ dst req, .installRequest dst req ∈ w.net → F.Image req.data

/-- Every valid command that an action proposes makes entries of the freight. -/
def Proposes (Entry : LogEntry → Prop) (actions : List Action) : Prop :=
  ∀ n command answers, Action.step n (.propose command) answers ∈ actions →
    command.validate = .ok () → ∀ index term, Entry (proposedEntry index term command)

variable {F} {w : World σ} {n : Int} {r r' : Raft σ} {d d' : Disk}

theorem Carries.up (h : Carries F w) (hup : w.nodes n = .up r d) :
    (freight F n).Memory r ∧ (freight F n).Files d := by
  have hp := h.node n
  rwa [hup] at hp

theorem Carries.down (h : Carries F w) (hdown : w.nodes n = .down d) : (freight F n).Files d := by
  have hp := h.node n
  rwa [hdown] at hp

theorem Carries.files (h : Carries F w) (n : Int) : (freight F n).Files (w.nodes n).disk := by
  cases hproc : w.nodes n with
  | up r d => exact (h.up hproc).2
  | down d => exact h.down hproc

theorem Carries.initial : Carries F .initial where
  node _ := by
    change (freight F _).Files Disk.empty
    exact ⟨by simp [Disk.empty], by simp [Disk.empty], by decide, by decide⟩
  append _ _ hm := by cases hm
  install _ _ hm := by cases hm

theorem Carries.settle (h : Carries F w) {proc : Process σ} (hp : ProcessCarries F n proc) :
    Carries F { w with nodes := Function.update w.nodes n proc } where
  node m := by
    rcases eq_or_ne m n with rfl | hne
    · simpa only [Function.update_self] using hp
    · simpa only [Function.update_of_ne hne] using h.node m
  append := h.append
  install := h.install

/-- What a step sends carries the freight of its output. -/
theorem Carries.send (h : Carries F w) {i : Input} {out : Output}
    (hout : (freight F n).OutputOk out) : Carries F { w with net := C.sends n i out ++ w.net } where
  node := h.node
  append dst req hm := by
    rcases List.mem_append.mp hm with hm | hm
    · cases out with
      | appendRequest peer req' =>
        obtain ⟨rfl, rfl⟩ : dst = peer ∧ req = req' := by cases i <;> simpa [sends] using hm
        exact hout
      | _ => cases i <;> simp [sends] at hm
    · exact h.append dst req hm
  install dst req hm := by
    rcases List.mem_append.mp hm with hm | hm
    · cases out with
      | installRequest peer req' =>
        obtain ⟨rfl, rfl⟩ : dst = peer ∧ req = req' := by cases i <;> simpa [sends] using hm
        exact hout
      | _ => cases i <;> simp [sends] at hm
    · exact h.install dst req hm

theorem Carries.inputOk (h : Carries F w) {i : Input} (hav : i.available w.net n = true)
    (hi : ∀ command, i = .propose command → command.validate = .ok () → ∀ index term,
      F.Entry (proposedEntry index term command)) : (freight F n).InputOk i := by
  cases i with
  | appendRequest req => exact h.append n req (by simpa [Input.available] using hav)
  | installRequest req => exact h.install n req (by simpa [Input.available] using hav)
  | propose command => exact hi command rfl
  | _ => trivial

/-- What a start-up leaves behind. -/
theorem Carries.boot (h : Carries F w) (hdown : w.nodes n = .down d) {answers : List Outcome}
    {exit : Exit σ Disk (Except String (Raft σ))} (hstart : start (C.env n) answers d = exit) :
    match exit with
    | .done (.ok r) _ d' => ProcessCarries F n (.up r d')
    | .done (.error _) _ d' => ProcessCarries F n (.down d')
    | .crashed d' => ProcessCarries F n (.down d') := by
  have hkeeps : Prog.Keeps Any _ _ _ (newWithSnapshot (C.env n)) :=
    Payload.newWithSnapshot_keeps (P := freight F n)
  have hrun := hkeeps.run (o := answers) (fun _ _ => trivial) (freight F n).initial (h.down hdown)
  rw [show (newWithSnapshot (C.env n)).run answers (C.env n).initial d = exit from hstart] at hrun
  rcases exit with ⟨err | r, st, d'⟩ | d'
  · exact hrun.2.2
  · exact ⟨hrun.1.memory r rfl, hrun.2.2⟩
  · exact hrun

/-- What a step leaves behind and shows. -/
theorem Carries.react (h : Carries F w) (hup : w.nodes n = .up r d) {i : Input}
    (hin : (freight F n).InputOk i) {answers : List Outcome} {exit : Exit (Raft σ) Disk Output}
    (hrun : (DistributedKv.react (C.env n) i).run answers r d = exit) :
    match exit with
    | .done out r' d' => (freight F n).OutputOk out ∧ ProcessCarries F n (.up r' d')
    | .crashed d' => ProcessCarries F n (.down d') := by
  have hkeeps := (Payload.react_keeps hin).run (o := answers) (fun _ _ => trivial) (h.up hup).1
    (h.up hup).2
  rw [hrun] at hkeeps
  cases exit <;> exact hkeeps

theorem Carries.perform (h : Carries F w) (a : Action)
    (ha : Proposes F.Entry [a]) : Carries F (C.perform w a) := by
  have ha : ∀ n command answers, a = .step n (.propose command) answers →
      command.validate = .ok () → ∀ index term, F.Entry (proposedEntry index term command) :=
    fun n command answers heq => ha n command answers (heq ▸ List.mem_singleton_self _)
  have hmoved := C.moved w a
  generalize C.perform w a = w' at hmoved ⊢
  cases hmoved with
  | idle => exact h
  | @crash n r d hup =>
    have hdown : ProcessCarries F n (.down d) := (h.up hup).2
    exact h.settle hdown
  | @died n i answers r d d' hup hn hav hrun =>
    have hin := h.inputOk hav fun command hi => ha n command answers (by rw [hi])
    exact h.settle (h.react hup hin hrun)
  | @step n i answers r d out r' d' hup hn hav hrun =>
    have hin := h.inputOk hav fun command hi => ha n command answers (by rw [hi])
    obtain ⟨hout, hproc⟩ := h.react hup hin hrun
    exact (h.settle hproc).send hout
  | failed hdown hn hstart =>
    rcases hstart with hstart | ⟨err, v, hstart⟩
    · exact h.settle (h.boot hdown hstart)
    · exact h.settle (h.boot hdown hstart)
  | started hdown hn hstart => exact h.settle (h.boot hdown hstart)

theorem Proposes.of_mem {Entry : LogEntry → Prop} {actions : List Action} (h : Proposes Entry actions)
    {a : Action} (ha : a ∈ actions) : Proposes Entry [a] := by
  intro n command answers hm
  rw [← List.mem_singleton.mp hm] at ha
  exact h n command answers ha

/-- The command that an action proposes. -/
def proposed : Action → Option Command
  | .step _ (.propose command) _ => some command
  | _ => none

theorem Proposes.of_commands {Entry : LogEntry → Prop} {actions : List Action}
    (h : ∀ command ∈ actions.filterMap proposed, ∀ index term,
      Entry (proposedEntry index term command)) : Proposes Entry actions :=
  fun _ command _ hm _ => h command (List.mem_filterMap.mpr ⟨_, hm, rfl⟩)

theorem Proposes.take {Entry : LogEntry → Prop} {actions : List Action} (h : Proposes Entry actions)
    (k : Nat) : Proposes Entry (actions.take k) :=
  fun n command answers hm => h n command answers (List.mem_of_mem_take hm)

theorem carries_run {actions : List Action} (h : Proposes F.Entry actions) :
    Carries F (C.run actions) := by
  let ok (_ : World σ) (a : Action) : Prop := Proposes F.Entry [a]
  refine @Run.invariant _ _ _ ok _ (fun w a hw ha => hw.perform a ha) _ Carries.initial actions ?_
  intro k a hk
  exact h.of_mem (List.mem_of_getElem? hk)

end Cluster

end DistributedKv
