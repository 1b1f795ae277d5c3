import DistributedKv.Cluster.Refinement
import DistributedKv.Raft.Reload

/-!
The cluster with its log files. In `runReloading` every start-up reads the log
through its JSON codec, which turns each byte of a key or a value that is not
text into U+FFFD. `WritesText` is the condition under which nothing of this can
be seen, and under which every image of the key-value store can be restored: the
clients propose text.
-/

namespace DistributedKv

open Crash

namespace Cluster

variable {σ : Type} (C : Cluster σ)

/-- A member's log is read back before it starts. -/
def reload (w : World σ) (n : Int) : World σ :=
  match w.nodes n with
  | .up _ _ => w
  | .down d => { w with nodes := Function.update w.nodes n (.down d.reloaded) }

def performReloading (w : World σ) : Action → World σ
  | .restart n answers => C.perform (reload w n) (.restart n answers)
  | a => C.perform w a

/-- The world after a sequence of actions, with every restart reading the log
through its codec. -/
def runReloading (actions : List Action) : World σ := actions.foldl C.performReloading .initial

variable {C} {F : C.machine.Freight} {w : World σ} {actions : List Action}

/-! ## What the cluster carries -/

theorem files_reloaded (hrep : ∀ e, F.Entry e → F.Entry e.repaired) {n : Int} {d : Disk}
    (h : (freight F n).Files d) : (freight F n).Files d.reloaded :=
  ⟨List.forall_mem_map.mpr fun e he => hrep e (h.log e he), h.snapshot, h.stable⟩

theorem Carries.reload (h : Carries F w) (hrep : ∀ e, F.Entry e → F.Entry e.repaired) (n : Int) :
    Carries F (Cluster.reload w n) := by
  unfold Cluster.reload
  cases hproc : w.nodes n with
  | up r d => exact h
  | down d =>
    have hdown : ProcessCarries F n (.down d.reloaded) := files_reloaded hrep (h.down hproc)
    exact h.settle hdown

theorem carries_runReloading (hrep : ∀ e, F.Entry e → F.Entry e.repaired)
    (h : Proposes F.Entry actions) : Carries F (C.runReloading actions) := by
  let ok (_ : World σ) (a : Action) : Prop := Proposes F.Entry [a]
  refine @Run.invariant _ _ _ ok _ (fun w a hw ha => ?_) _ Carries.initial actions
    fun k a hk => h.of_mem (List.mem_of_getElem? hk)
  cases a with
  | restart n answers => exact (hw.reload hrep n).perform _ ha
  | _ => exact hw.perform _ ha

theorem reload_of_text (h : Carries F w) (htext : ∀ e, F.Entry e → e.Text) (n : Int) :
    Cluster.reload w n = w := by
  unfold Cluster.reload
  cases hproc : w.nodes n with
  | up r d => rfl
  | down d =>
    have hlog : ∀ e ∈ d.log, e.Text := fun e he => htext e ((h.down hproc).log e he)
    simp only [Disk.reloaded_of_text hlog, ← hproc, Function.update_eq_self]

/-- Text goes through the log files unchanged. -/
theorem runReloading_eq (htext : ∀ e, F.Entry e → e.Text) (h : Proposes F.Entry actions) :
    C.runReloading actions = C.run actions := by
  refine Run.foldl_congr actions fun k a _ => ?_
  have hcarries : Carries F (C.run (actions.take k)) := carries_run (h.take k)
  cases a with
  | restart n answers =>
    exact congrArg (C.perform · (.restart n answers)) (reload_of_text hcarries htext n)
  | _ => rfl

end Cluster

/-! ## Key-value stores -/

variable {maxLength : Int} {json : Json}

/-- Stores of text and their images, with entries that keep a store textual. -/
def MemoryStore.freight {m : Machine (MemoryStore maxLength)} (hjson : json.Faithful)
    (hm : m = MemoryStore.machine json maxLength) (Entry : LogEntry → Prop)
    (noop : ∀ index term, Entry (noopEntry index term))
    (apply : ∀ {e} {s s' : MemoryStore maxLength}, Entry e → s.Textual →
      MemoryStore.apply e s = .ok s' → s'.Textual) : m.Freight where
  Entry := Entry
  Store := MemoryStore.Textual
  Image data := ∃ s : MemoryStore maxLength, s.Textual ∧ data = json.marshal s.data
  noop := noop
  initial := by
    rw [hm]
    exact MemoryStore.textual_new
  apply he hs heq := by
    rw [hm] at heq
    exact apply he hs heq
  snapshot hs heq := by
    rw [hm] at heq
    exact ⟨_, hs, (Except.ok.inj heq).symm⟩
  restore hd heq := by
    obtain ⟨s, hs, rfl⟩ := hd
    rw [hm] at heq
    obtain rfl := Except.ok.inj ((hs.restore hjson).symm.trans heq)
    exact hs

theorem MemoryStore.freight_restores {m : Machine (MemoryStore maxLength)} {hjson : json.Faithful}
    {hm : m = MemoryStore.machine json maxLength} {Entry : LogEntry → Prop}
    {noop : ∀ index term, Entry (noopEntry index term)}
    {apply : ∀ {e} {s s' : MemoryStore maxLength}, Entry e → s.Textual →
      MemoryStore.apply e s = .ok s' → s'.Textual} :
    (MemoryStore.freight hjson hm Entry noop apply).Restores := by
  rintro _ ⟨s, hs, rfl⟩
  refine ⟨s, ?_⟩
  rw [hm]
  exact hs.restore hjson

namespace Cluster

variable {C : Cluster (MemoryStore maxLength)} {actions : List Action}

/-- A run of key-value stores in which a crash may interrupt any store call but
none returns an error, and whose clients propose text: every key and value of a
command that `Validate` accepts is UTF-8. -/
structure WritesText (C : Cluster (MemoryStore maxLength)) (json : Json) (actions : List Action) :
    Prop where
  machine : C.machine = MemoryStore.machine json maxLength
  faithful : json.Faithful
  proposes : Proposes LogEntry.Text actions
  atomic : Permitted Atomic actions

namespace WritesText

variable (h : C.WritesText json actions)

include h

def freight : C.machine.Freight :=
  MemoryStore.freight h.faithful h.machine LogEntry.Text LogEntry.text_noop MemoryStore.Textual.apply

theorem restoring : Restoring h.freight actions where
  restores := MemoryStore.freight_restores
  proposes := h.proposes
  atomic := h.atomic

theorem take (k : Nat) : C.WritesText json (actions.take k) :=
  ⟨h.machine, h.faithful, h.proposes.take k, (h.restoring.take k).atomic⟩

theorem run_eq : C.runReloading actions = C.run actions :=
  Cluster.runReloading_eq (fun _ he => he) h.restoring.proposes

theorem run_take_eq (k : Nat) : C.runReloading (actions.take k) = C.run (actions.take k) :=
  (h.take k).run_eq

theorem exists_histories : ∃ f, C.Traced actions f := h.restoring.exists_histories

theorem exists_history : ∃ a, C.Sim (C.run actions) a := h.restoring.exists_history

end WritesText

/-- Commands whose strings JSON keeps, and stores that always succeed. -/
theorem localCluster_writesText (snapshotThreshold : Nat)
    (hcommands : ∀ command ∈ actions.filterMap proposed,
      Utf8.repair command.key = command.key ∧ Utf8.repair command.value = command.value)
    (hanswers : ∀ a ∈ actions, a.answers = []) :
    (localCluster snapshotThreshold).WritesText .framed actions where
  machine := rfl
  faithful := Json.framed_faithful
  proposes := .of_commands fun command hc _ _ =>
    ⟨(validUTF8_iff _).mpr (hcommands command hc).1, (validUTF8_iff _).mpr (hcommands command hc).2⟩
  atomic := .of_nil hanswers

end Cluster

end DistributedKv
