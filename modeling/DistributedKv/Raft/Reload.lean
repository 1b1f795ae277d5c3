import DistributedKv.Raft.FileLog

/-!
What the log file holds. `Disk` keeps the entries as they were appended; the file
keeps their JSON, in which every invalid byte of a key or a value has become
U+FFFD. `Disk.reloaded` is the disk as `Load` reads it back, and it is the same
disk exactly if all its entries are text.
-/

namespace DistributedKv

/-- An entry of text: JSON keeps it. -/
def LogEntry.Text (e : LogEntry) : Prop := ValidUTF8 e.key ∧ ValidUTF8 e.value

theorem LogEntry.text_iff (e : LogEntry) : e.Text ↔ e.repaired = e := e.repaired_eq_self_iff.symm

theorem LogEntry.text_noop (index term : Nat) : (noopEntry index term).Text :=
  (LogEntry.text_iff _).mpr rfl

theorem LogEntry.text_repaired (e : LogEntry) : e.repaired.Text :=
  ⟨validUTF8_repair e.key, validUTF8_repair e.value⟩

/-- The files as a start-up reads them: each string of the log went through JSON. -/
def Disk.reloaded (d : Disk) : Disk := { d with log := d.log.map LogEntry.repaired }

/-- `Load` of a file whose records encode the log. -/
theorem Disk.load_reloaded {codec : EntryJson} (hcodec : codec.Repairs) {d : Disk}
    (hlog : Contiguous d.log) (hfits : ∀ e ∈ d.log, Wal.Admissible (codec.marshal e)) (path : String) :
    (FileLogStore.load codec
      (.newFileLogStore path (Framing.frames (d.log.map codec.marshal)))).1 = .ok d.reloaded.log := by
  have hcont : Contiguous (d.log.map LogEntry.repaired) := by
    obtain ⟨hvalid, b, hidx⟩ := hlog
    exact ⟨List.forall_mem_map.mpr fun e he => (hvalid e he).repaired, b, hidx.map_repaired⟩
  have hreads : FileLogStore.Reads codec
      (.newFileLogStore path (Framing.frames (d.log.map codec.marshal)))
      (d.log.map codec.marshal) d.reloaded.log :=
    ⟨rfl, rfl, List.forall_mem_map.mpr hfits,
      FileLogStore.decodeEntries_contiguous (fun e he => hcodec e (hlog.1 e he)) hcont⟩
  rw [FileLogStore.load, hreads.loadLocked]

theorem Disk.reloaded_log_eq_iff {d : Disk} : d.reloaded.log = d.log ↔ ∀ e ∈ d.log, e.Text := by
  have hmap : d.reloaded.log = d.log ↔ ∀ e ∈ d.log, e.repaired = e := by
    conv_lhs => rhs; rw [← List.map_id d.log]
    exact List.map_inj_left
  simp only [hmap, LogEntry.text_iff]

theorem Disk.reloaded_of_text {d : Disk} (h : ∀ e ∈ d.log, e.Text) : d.reloaded = d := by
  obtain ⟨stable, log, snapshot⟩ := d
  exact congrArg (Disk.mk stable · snapshot) (reloaded_log_eq_iff.mpr h)

end DistributedKv
