import DistributedKv.Raft.Plan

/-!
`HandleAppendEntries` (`internal/raft/raft.go`) over the bytes of the log file,
when no file operation fails. Either the request can be carried out (`Storable`),
or it is refused before anything is written, or its batch turns out to be bad
afterwards (`Refused`). As long as records fit into the file, this is what the
handler over lists does (`run_handleAppendEntries`).
-/

namespace DistributedKv

open FileLogStore (Reads)
open Framing (frames)

variable {σ : Type}

/-- A node with its stable state and the file of its log. -/
structure FileNode (σ : Type) where
  raft : Raft σ
  stable : StableState
  log : FileLogStore

namespace FileNode

/-- `FileStableStore.Save`: only its checks can refuse a state. -/
def saveStable (state : StableState) (n : FileNode σ) : Except String Unit × FileNode σ :=
  match (Disk.saveStable state).run ⟨n.stable, [], none⟩ with
  | .error err => (.error err, n)
  | .ok d => (.ok (), { n with stable := d.stable })

/-- The start of `HandleAppendEntries`. -/
def recognizeLeader (term : Nat) (leaderID : Int) (n : FileNode σ) :
    Except String Unit × FileNode σ :=
  if term > n.raft.currentTerm then
    match n.saveStable ⟨term, noVote, n.raft.commitIndex, n.raft.lastApplied⟩ with
    | (.error err, n) => (.error err, n)
    | (.ok (), n) =>
        (.ok (), { n with raft := { n.raft with
          currentTerm := term, votedFor := noVote, state := .follower, leaderID := leaderID } })
  else (.ok (), { n with raft := { n.raft with state := .follower, leaderID := leaderID } })

variable (json : EntryJson)

/-- Carry out the first half of a replication plan; `false` is an early return. -/
def truncateLog (truncateFrom : Nat) (n : FileNode σ) : Bool × FileNode σ :=
  if truncateFrom = 0 then (true, n)
  else
    match n.log.truncateFrom json truncateFrom with
    | (.error _, log) => (false, { n with log })
    | (.ok (), log) =>
        match n.raft.logOffsetLocked truncateFrom with
        | none => (false, { n with log })
        | some offset =>
            (true, { n with log, raft := { n.raft with log := n.raft.log.take offset } })

/-- Carry out the second half of a replication plan. -/
def appendEntries (entries : List LogEntry) (n : FileNode σ) : Bool × FileNode σ :=
  if entries = [] then (true, n)
  else
    match n.log.append json entries none with
    | (.error _, log) => (false, { n with log })
    | (.ok (), log) => (true, { n with log, raft := { n.raft with log := n.raft.log ++ entries } })

def followCommit (leaderCommit : Nat) (n : FileNode σ) : Bool × FileNode σ :=
  let newCommitIndex := min leaderCommit n.raft.lastLogIndexLocked
  if newCommitIndex > n.raft.commitIndex then
    match n.saveStable ⟨n.raft.currentTerm, n.raft.votedFor, newCommitIndex, n.raft.lastApplied⟩ with
    | (.error _, n) => (false, n)
    | (.ok (), n) => (true, { n with raft := { n.raft with commitIndex := newCommitIndex } })
  else (true, n)

/-- `HandleAppendEntries` once the sender is recognized as the leader. -/
def storeEntries (req : AppendEntriesRequest) (n : FileNode σ) : Bool × FileNode σ :=
  if n.raft.matchesPrefixLocked req.prevLogIndex req.prevLogTerm = false then (false, n)
  else
    match n.raft.replicationPlanLocked req.prevLogIndex req.entries with
    | .error _ => (false, n)
    | .ok (truncateFrom, entriesToAppend) =>
        match n.truncateLog json truncateFrom with
        | (false, n) => (false, n)
        | (true, n) =>
            match n.appendEntries json entriesToAppend with
            | (false, n) => (false, n)
            | (true, n) => n.followCommit req.leaderCommit

def handleAppendEntries (req : AppendEntriesRequest) (n : FileNode σ) :
    AppendEntriesResponse × FileNode σ :=
  if req.term < n.raft.currentTerm then (⟨n.raft.currentTerm, false⟩, n)
  else
    match n.recognizeLeader req.term req.leaderID with
    | (.error _, n) => (⟨n.raft.currentTerm, false⟩, n)
    | (.ok (), n) =>
        let (success, n) := n.storeEntries json req
        (⟨n.raft.currentTerm, success⟩, n)

/-- The invariants of a running node, with the log of its memory in its file. The
last one is a check of `FileStableStore`. -/
structure Sound (n : FileNode σ) : Prop where
  boundary_le : n.raft.snapshotMeta.lastIncludedIndex ≤ n.raft.lastApplied
  applied_le : n.raft.lastApplied ≤ n.raft.commitIndex
  commit_le : n.raft.commitIndex ≤ n.raft.lastLogIndexLocked
  indexed : Indexed n.raft.snapshotMeta.lastIncludedIndex n.raft.log
  durable : ∃ rs, Reads json n.log rs n.raft.log
  vote : noVote ≤ n.raft.votedFor

end FileNode

/-! ## The log file -/

/-- What `encoding/json` decodes is text: it reads U+FFFD for every invalid byte. -/
def EntryJson.DecodesText (json : EntryJson) : Prop :=
  ∀ {record e}, json.unmarshal record = .ok e → ValidUTF8 e.key ∧ ValidUTF8 e.value

namespace EntryJson

/-- The codec `framed`, which repairs strings when it decodes them as well. -/
def textual : EntryJson where
  marshal := framed.marshal
  unmarshal record := (framed.unmarshal record).map LogEntry.repaired

theorem textual_repairs : textual.Repairs := by
  intro e he
  change (framed.unmarshal (framed.marshal e)).map LogEntry.repaired = _
  rw [framed_repairs e he]
  exact congrArg Except.ok (e.repaired.repaired_eq_self_iff.mpr
    ⟨validUTF8_repair e.key, validUTF8_repair e.value⟩)

theorem textual_decodesText : textual.DecodesText := by
  intro record e h
  change (framed.unmarshal record).map LogEntry.repaired = _ at h
  cases hdec : framed.unmarshal record with
  | error err =>
    rw [hdec] at h
    cases h
  | ok x =>
    rw [hdec] at h
    obtain rfl := Except.ok.inj h
    exact ⟨validUTF8_repair x.key, validUTF8_repair x.value⟩

end EntryJson

/-- `Append` can store the batch: its entries fit together, and their records
into frames. -/
def EntryJson.Stores (json : EntryJson) (es : List LogEntry) : Prop :=
  Contiguous es ∧ ∀ e ∈ es, Wal.Admissible (json.marshal e)

/-- `TruncateFrom` can rewrite what stays of the log. -/
def EntryJson.CanTruncate (json : EntryJson) (index : Nat) (l : List LogEntry) : Prop :=
  (∀ last ∈ l.getLast?, index ≤ uint64Succ last.index) ∧
    ∀ e ∈ l.takeWhile (fun e => e.index < index), Wal.Admissible (json.marshal e)

namespace FileLogStore

variable {json : EntryJson} {s : FileLogStore} {l es : List LogEntry} {rs : List Bytes}

theorem decodeEntries_sound {gap : Nat → Nat → Nat → String} {position : Nat}
    {previous : Option Nat} (h : decodeEntries json position previous rs = .ok l) :
    checkFrom gap position previous l = .ok () ∧ ∀ e ∈ l, ∃ r ∈ rs, json.unmarshal r = .ok e := by
  induction rs generalizing position previous l with
  | nil =>
    obtain rfl := Except.ok.inj h
    exact ⟨rfl, by simp⟩
  | cons r rs ih =>
    unfold decodeEntries at h
    split at h
    · cases h
    rename_i entry hentry
    split at h
    · cases h
    rename_i hvalid
    have hstep : (decodeEntries json (position + 1) (some entry.index) rs).map (entry :: ·) = .ok l →
        ∃ l', l = entry :: l' ∧ checkFrom gap (position + 1) (some entry.index) l' = .ok () ∧
          ∀ e ∈ l, ∃ x ∈ r :: rs, json.unmarshal x = .ok e := by
      intro hmap
      cases hrest : decodeEntries json (position + 1) (some entry.index) rs with
      | error err =>
        rw [hrest] at hmap
        cases hmap
      | ok l' =>
        rw [hrest] at hmap
        obtain rfl := Except.ok.inj hmap
        obtain ⟨hcheck, hall⟩ := ih hrest
        refine ⟨l', rfl, hcheck, ?_⟩
        rw [List.forall_mem_cons]
        refine ⟨⟨r, List.mem_cons_self, hentry⟩, fun e he => ?_⟩
        obtain ⟨x, hx, hxe⟩ := hall e he
        exact ⟨x, List.mem_cons_of_mem r hx, hxe⟩
    split at h
    · split at h
      · cases h
      rename_i p hindex
      obtain ⟨l', rfl, hcheck, hall⟩ := hstep h
      simp only [checkFrom, hvalid, if_neg hindex]
      exact ⟨hcheck, hall⟩
    · obtain ⟨l', rfl, hcheck, hall⟩ := hstep h
      simp only [checkFrom, hvalid]
      exact ⟨hcheck, hall⟩

theorem Reads.contiguous (h : Reads json s rs l) : Contiguous l :=
  (checkEntries_ok_iff (fun _ _ _ => "") l).mp (decodeEntries_sound h.decodes).1

theorem Reads.text (h : Reads json s rs l) (htext : json.DecodesText) :
    ∀ e ∈ l, ValidUTF8 e.key ∧ ValidUTF8 e.value := by
  intro e he
  obtain ⟨r, -, hr⟩ := (@decodeEntries_sound json l rs (fun _ _ _ => "") _ _ h.decodes).2 e he
  exact htext hr

theorem map_repaired_of_text (h : ∀ e ∈ es, ValidUTF8 e.key ∧ ValidUTF8 e.value) :
    es.map LogEntry.repaired = es := by
  conv_rhs => rw [← List.map_id es]
  exact List.map_congr_left fun e he => e.repaired_eq_self_iff.mpr (h e he)

theorem Reads.replaceLocked {kept : List LogEntry} (h : Reads json s rs l) (hjson : json.Repairs)
    (hc : Contiguous kept) :
    ((∀ e ∈ kept, Wal.Admissible (json.marshal e)) →
      ∃ s', FileLogStore.replaceLocked json kept s = (.ok (), s') ∧
        Reads json s' (kept.map json.marshal) (kept.map LogEntry.repaired)) ∧
    ((¬ ∀ e ∈ kept, Wal.Admissible (json.marshal e)) →
      ∃ err, FileLogStore.replaceLocked json kept s = (.error err, s)) := by
  have hrecords : (∀ e ∈ kept, Wal.Admissible (json.marshal e)) ↔
      ∀ r ∈ kept.map json.marshal, Wal.Admissible r := by simp
  rw [FileLogStore.replaceLocked, LogStore.replaceLocked_ok hc]
  dsimp only
  rw [Wal.Handle.replace, if_neg (by simp [h.isOpen])]
  constructor
  · intro hfits
    rw [Wal.replace_ok (hrecords.mp hfits)]
    have hrepaired : Contiguous (kept.map LogEntry.repaired) := by
      obtain ⟨hvalid, b, hb⟩ := hc
      refine ⟨fun e he => ?_, b, hb.map_repaired⟩
      obtain ⟨x, hx, rfl⟩ := List.mem_map.mp he
      exact (hvalid x hx).repaired
    exact ⟨_, rfl, h.isOpen, rfl, hrecords.mp hfits,
      decodeEntries_contiguous (fun e he => hjson e (hc.1 e he)) hrepaired⟩
  · intro hbad
    obtain ⟨err, herr⟩ := @Wal.replace_refused s.wal.path _ (mt hrecords.mpr hbad) s.wal.file
    rw [herr]
    exact ⟨_, rfl⟩

/-- `TruncateFrom` rewrites the file, or refuses and leaves it. -/
theorem Reads.truncateFrom {index : Nat} (h : Reads json s rs l) (hjson : json.Repairs)
    (hpos : index ≠ 0) :
    (json.CanTruncate index l →
      ∃ s', FileLogStore.truncateFrom json index s = (.ok (), s') ∧
        Reads json s' ((l.takeWhile fun e => e.index < index).map json.marshal)
          ((l.takeWhile fun e => e.index < index).map LogEntry.repaired)) ∧
    (¬ json.CanTruncate index l → ∃ err, FileLogStore.truncateFrom json index s = (.error err, s)) := by
  have hkept : Contiguous (l.takeWhile fun e => e.index < index) :=
    h.contiguous.isInfix (List.takeWhile_prefix _).isInfix
  obtain ⟨hok, herr⟩ := h.replaceLocked hjson hkept
  rw [FileLogStore.truncateFrom, if_neg hpos, h.loadLocked]
  dsimp only
  cases hlast : l.getLast? with
  | none =>
    obtain rfl := List.getLast?_eq_none_iff.mp hlast
    refine ⟨fun hcan => hok hcan.2, fun hcan => absurd ⟨?_, ?_⟩ hcan⟩
    · simp
    · simp
  | some last =>
    dsimp only
    have hbound : (∀ x ∈ l.getLast?, index ≤ uint64Succ x.index) ↔ index ≤ uint64Succ last.index := by
      rw [hlast]
      simp
    by_cases hgt : index > uint64Succ last.index
    · rw [if_pos hgt]
      refine ⟨fun hcan => ?_, fun _ => ⟨_, rfl⟩⟩
      have := hbound.mp hcan.1
      omega
    · rw [if_neg hgt]
      refine ⟨fun hcan => hok hcan.2, fun hcan => herr fun hfits => hcan ⟨hbound.mpr ?_, hfits⟩⟩
      omega

theorem append_eq_grow (hopen : s.wal.isOpen = true) (hne : es ≠ []) (h : json.Stores es) :
    FileLogStore.append json es none s = (.ok (), s.grow (frames (es.map json.marshal))) := by
  have hrecords : ∀ r ∈ es.map json.marshal, Wal.Admissible r := by simpa using h.2
  rw [FileLogStore.append, if_neg hne, encodeEntries, LogStore.encodeEntries,
    (checkEntries_ok_iff _ _).mpr h.1]
  dsimp only
  rw [Wal.Handle.appendBatch, if_neg (by simpa using hne), if_neg (by simp [hopen]),
    Wal.appendBatch_ok hrecords]
  rfl

/-- The entries of a batch before the first whose record is refused. -/
def fitting (json : EntryJson) (es : List LogEntry) : List LogEntry :=
  es.takeWhile fun e => Wal.Admissible (json.marshal e)

/-- A batch with a bad entry is refused as a whole; one with a record that is too
long is stored up to there. -/
theorem append_refused (hopen : s.wal.isOpen = true) (hne : es ≠ []) :
    (¬ Contiguous es → ∃ err, FileLogStore.append json es none s = (.error err, s)) ∧
    (Contiguous es → (¬ ∀ e ∈ es, Wal.Admissible (json.marshal e)) →
      ∃ err, FileLogStore.append json es none s =
        (.error err, s.grow (frames ((fitting json es).map json.marshal)))) := by
  rw [FileLogStore.append, if_neg hne, encodeEntries, LogStore.encodeEntries]
  constructor
  · intro hbad
    cases hcheck : checkEntries (fun _ p i => s!"entry index {i} does not follow index {p}") es with
    | ok u => exact absurd ((checkEntries_ok_iff _ _).mp hcheck) hbad
    | error err => exact ⟨err, rfl⟩
  · intro hc hbad
    have hbad' : ¬ ∀ r ∈ es.map json.marshal, Wal.Admissible r := by simpa using hbad
    have haccepted : Wal.accepted (es.map json.marshal) = (fitting json es).map json.marshal := by
      rw [Wal.accepted, List.takeWhile_map]
      rfl
    obtain ⟨err, herr⟩ := @Wal.appendBatch_refused s.wal.path _ hbad' s.wal.file
    rw [(checkEntries_ok_iff _ _).mpr hc]
    dsimp only
    rw [Wal.Handle.appendBatch, if_neg (by simpa using hne), if_neg (by simp [hopen]), herr,
      haccepted]
    exact ⟨_, rfl⟩

end FileLogStore

namespace FileNode

variable {json : EntryJson} {n n' : FileNode σ} {req : AppendEntriesRequest} {truncateFrom : Nat}
  {entries new : List LogEntry}

/-! ## The steps of the handler -/

theorem saveStable_ok {state : StableState} (h : state.Accepted) :
    n.saveStable state = (.ok (), { n with stable := state }) := by
  rw [saveStable, Disk.saveStable_ok_iff.mpr ⟨h, rfl⟩]

/-- Recognizing the leader changes neither log. -/
structure Heard (term : Nat) (leaderID : Int) (n n' : FileNode σ) : Prop where
  raft : n'.raft = { n.raft with
    currentTerm := term, votedFor := n'.raft.votedFor, state := .follower, leaderID := leaderID }
  log : n'.log = n.log
  vote : noVote ≤ n'.raft.votedFor

theorem recognizeLeader_heard (h : n.Sound json) (hge : ¬ req.term < n.raft.currentTerm) :
    ∃ n', n.recognizeLeader req.term req.leaderID = (.ok (), n') ∧
      Heard req.term req.leaderID n n' := by
  unfold recognizeLeader
  split
  · rw [saveStable_ok ⟨Int.le_refl noVote, h.applied_le⟩]
    exact ⟨_, rfl, rfl, rfl, Int.le_refl noVote⟩
  · have hterm : n.raft.currentTerm = req.term := by omega
    refine ⟨_, rfl, ?_, rfl, h.vote⟩
    rw [← hterm]

theorem Heard.sound {term : Nat} {leaderID : Int} (h : Heard term leaderID n n')
    (hs : n.Sound json) : n'.Sound json := by
  obtain ⟨raft, stable, log⟩ := n'
  obtain ⟨hraft, rfl, hvote⟩ := h
  dsimp only at hraft hvote
  rw [hraft]
  exact ⟨hs.boundary_le, hs.applied_le, hs.commit_le, hs.indexed, hs.durable, hvote⟩

/-- The node with another log, in memory and on disk. -/
def withLog (n : FileNode σ) (entries : List LogEntry) (log : FileLogStore) : FileNode σ :=
  { n with raft := { n.raft with log := entries }, log := log }

theorem withLog_self (n : FileNode σ) : n.withLog n.raft.log n.log = n := rfl

theorem truncateLog_spec (hjson : json.Repairs) (htext : json.DecodesText) (hs : n.Sound json)
    (hplan : n.raft.Planned req.prevLogIndex req.entries truncateFrom new) :
    ((truncateFrom ≠ 0 → json.CanTruncate truncateFrom n.raft.log) →
      ∃ log rs, n.truncateLog json truncateFrom = (true, n.withLog (n.raft.kept truncateFrom) log) ∧
        Reads json log rs (n.raft.kept truncateFrom) ∧ (truncateFrom = 0 → log = n.log)) ∧
    (¬ (truncateFrom ≠ 0 → json.CanTruncate truncateFrom n.raft.log) →
      n.truncateLog json truncateFrom = (false, n)) := by
  obtain ⟨rs, hrs⟩ := hs.durable
  unfold truncateLog
  by_cases hzero : truncateFrom = 0
  · rw [if_pos hzero]
    refine ⟨fun _ => ⟨n.log, rs, ?_, ?_, fun _ => rfl⟩, fun hno => absurd (absurd hzero) hno⟩
    · rw [Raft.kept, if_pos hzero, withLog_self]
    · rwa [Raft.kept, if_pos hzero]
  rw [if_neg hzero]
  obtain ⟨hok, herr⟩ := hrs.truncateFrom hjson hzero
  constructor
  · intro hcan
    obtain ⟨log, htrunc, hreads⟩ := hok (hcan hzero)
    -- what was decoded once is encoded as it is
    rw [FileLogStore.map_repaired_of_text fun e he =>
      hrs.text htext e ((List.takeWhile_prefix _).subset he)] at hreads
    have hkept : n.raft.kept truncateFrom =
        n.raft.log.takeWhile fun e => e.index < truncateFrom := by rw [Raft.kept, if_neg hzero]
    obtain ⟨hle, hlt⟩ := hplan.truncates hzero
    rw [htrunc]
    dsimp only
    rw [Raft.logOffsetLocked_eq hs.indexed hlt hle]
    dsimp only
    rw [← LogStore.takeWhile_indexed hs.indexed, ← hkept]
    exact ⟨log, _, rfl, hkept ▸ hreads, fun hcon => absurd hcon hzero⟩
  · intro hno
    obtain ⟨err, htrunc⟩ := herr fun hcan => hno fun _ => hcan
    rw [htrunc]

theorem appendEntries_stores {l : List LogEntry} {rs : List Bytes} (hjson : json.Repairs)
    (hreads : Reads json n.log rs l) (hf : Follows l entries) (hst : json.Stores entries) :
    ∃ log rs', n.appendEntries json entries = (true, n.withLog (n.raft.log ++ entries) log) ∧
      Reads json log rs' (l ++ entries.map LogEntry.repaired) ∧ (entries = [] → log = n.log) := by
  unfold appendEntries
  by_cases hnil : entries = []
  · rw [if_pos hnil, hnil, List.append_nil, List.map_nil, List.append_nil]
    exact ⟨n.log, rs, rfl, hreads, fun _ => rfl⟩
  · rw [if_neg hnil, FileLogStore.append_eq_grow hreads.isOpen hnil hst]
    exact ⟨_, _, rfl, hreads.grow hjson hst.1 hst.2 hf, fun hcon => absurd hcon hnil⟩

/-- The commit index goes up as far as the leader's and the log allow. -/
theorem followCommit_eq (hvote : noVote ≤ n.raft.votedFor)
    (happlied : n.raft.lastApplied ≤ n.raft.commitIndex) (leaderCommit : Nat) :
    ∃ stable, n.followCommit leaderCommit = (true, ⟨{ n.raft with
      commitIndex := max n.raft.commitIndex (min leaderCommit n.raft.lastLogIndexLocked) },
      stable, n.log⟩) := by
  unfold followCommit
  dsimp only
  split
  · rename_i hgt
    rw [saveStable_ok ⟨hvote, happlied.trans hgt.le⟩, Nat.max_eq_right hgt.le]
    exact ⟨_, rfl⟩
  · rename_i hle
    rw [Nat.max_eq_left (Nat.not_lt.mp hle)]
    exact ⟨n.stable, rfl⟩

/-- A batch that cannot be stored is refused, and its memory part not touched. -/
theorem appendEntries_refused (hopen : n.log.wal.isOpen = true) (hne : entries ≠ [])
    (hno : ¬ json.Stores entries) :
    ∃ log, n.appendEntries json entries = (false, { n with log }) ∧
      (¬ Contiguous entries → log = n.log) ∧
      (Contiguous entries →
        log = n.log.grow (frames ((FileLogStore.fitting json entries).map json.marshal))) := by
  obtain ⟨hbad, hlong⟩ := @FileLogStore.append_refused json n.log entries hopen hne
  rw [appendEntries, if_neg hne]
  by_cases hc : Contiguous entries
  · obtain ⟨err, herr⟩ := hlong hc fun hfits => hno ⟨hc, hfits⟩
    rw [herr]
    exact ⟨_, rfl, fun hcon => absurd hc hcon, fun _ => rfl⟩
  · obtain ⟨err, herr⟩ := hbad hc
    rw [herr]
    exact ⟨n.log, rfl, fun _ => rfl, fun hcon => absurd hcon hc⟩

/-- The request can be carried out. -/
structure Storable (json : EntryJson) (req : AppendEntriesRequest) (r : Raft σ) (truncateFrom : Nat)
    (new : List LogEntry) : Prop where
  matching : r.matchesPrefixLocked req.prevLogIndex req.prevLogTerm = true
  plan : r.replicationPlanLocked req.prevLogIndex req.entries = .ok (truncateFrom, new)
  truncates : truncateFrom ≠ 0 → json.CanTruncate truncateFrom r.log
  stores : json.Stores new

theorem Storable.planned (h : Storable json req n.raft truncateFrom new) (hs : n.Sound json) :
    n.raft.Planned req.prevLogIndex req.entries truncateFrom new :=
  Raft.replicationPlanFrom_planned hs.indexed h.plan

theorem Storable.storeEntries_eq (hjson : json.Repairs) (htext : json.DecodesText)
    (hs : n.Sound json) (h : Storable json req n.raft truncateFrom new) :
    ∃ log rs, n.storeEntries json req =
        (n.withLog (n.raft.kept truncateFrom ++ new) log).followCommit req.leaderCommit ∧
      Reads json log rs (n.raft.kept truncateFrom ++ new.map LogEntry.repaired) := by
  have hplanned := h.planned hs
  obtain ⟨log₁, rs₁, htrunc, hreads₁, -⟩ :=
    (truncateLog_spec hjson htext hs hplanned).1 h.truncates
  obtain ⟨log₂, rs₂, happend, hreads₂, -⟩ :=
    @appendEntries_stores _ json (n.withLog (n.raft.kept truncateFrom) log₁) new _ rs₁ hjson hreads₁
      (hplanned.follows hs.indexed) h.stores
  refine ⟨log₂, rs₂, ?_, hreads₂⟩
  rw [FileNode.storeEntries, if_neg (by simp [h.matching]), h.plan]
  dsimp only
  rw [htrunc]
  dsimp only
  rw [happend]
  rfl

theorem Storable.storeEntries (hjson : json.Repairs) (htext : json.DecodesText)
    (hs : n.Sound json) (h : Storable json req n.raft truncateFrom new) :
    ∃ stable log rs, n.storeEntries json req = (true, ⟨{ n.raft with
        log := n.raft.kept truncateFrom ++ new
        commitIndex := max n.raft.commitIndex (min req.leaderCommit
          (lastLogIndexFor (n.raft.kept truncateFrom ++ new) n.raft.snapshotMeta)) },
        stable, log⟩) ∧
      Reads json log rs (n.raft.kept truncateFrom ++ new.map LogEntry.repaired) := by
  obtain ⟨log, rs, hstore, hreads⟩ := h.storeEntries_eq hjson htext hs
  obtain ⟨stable, hcommit⟩ := @followCommit_eq _ (n.withLog (n.raft.kept truncateFrom ++ new) log)
    hs.vote hs.applied_le req.leaderCommit
  exact ⟨stable, log, rs, hstore.trans hcommit, hreads⟩

/-- Success means that the request could be carried out. -/
theorem storable_of_storeEntries (hjson : json.Repairs) (htext : json.DecodesText)
    (hs : n.Sound json) (h : (n.storeEntries json req).1 = true) :
    ∃ truncateFrom new, Storable json req n.raft truncateFrom new := by
  unfold FileNode.storeEntries at h
  split at h
  · cases h
  rename_i hmatch
  split at h
  · cases h
  rename_i truncateFrom new hplan
  have hplanned := Raft.replicationPlanFrom_planned hs.indexed hplan
  obtain ⟨hok, hrefused⟩ := truncateLog_spec hjson htext hs hplanned
  by_cases hcan : truncateFrom ≠ 0 → json.CanTruncate truncateFrom n.raft.log
  · obtain ⟨log₁, rs₁, htrunc, hreads₁, -⟩ := hok hcan
    refine ⟨truncateFrom, new, by simpa using hmatch, hplan, hcan, ?_⟩
    by_contra hno
    have hne : new ≠ [] := by
      rintro rfl
      exact hno ⟨Contiguous.nil, by simp⟩
    obtain ⟨log₂, happend, -⟩ := @appendEntries_refused _ json
      (n.withLog (n.raft.kept truncateFrom) log₁) new hreads₁.isOpen hne hno
    simp only [htrunc, happend] at h
    cases h
  · simp only [hrefused hcan] at h
    cases h

namespace Heard

variable {term : Nat} {leaderID : Int} (h : Heard term leaderID n n')

include h

theorem raft_log : n'.raft.log = n.raft.log := by rw [h.raft]

theorem snapshotMeta : n'.raft.snapshotMeta = n.raft.snapshotMeta := by rw [h.raft]

theorem commitIndex : n'.raft.commitIndex = n.raft.commitIndex := by rw [h.raft]

theorem lastApplied : n'.raft.lastApplied = n.raft.lastApplied := by rw [h.raft]

end Heard

/-- A plan is found for the request, but its batch cannot be stored. -/
structure Refused (json : EntryJson) (req : AppendEntriesRequest) (r : Raft σ) (truncateFrom : Nat)
    (new : List LogEntry) : Prop where
  matching : r.matchesPrefixLocked req.prevLogIndex req.prevLogTerm = true
  plan : r.replicationPlanLocked req.prevLogIndex req.entries = .ok (truncateFrom, new)
  truncates : truncateFrom ≠ 0 → json.CanTruncate truncateFrom r.log
  stores : ¬ json.Stores new

/-- What a batch that is refused so late leaves. -/
theorem Refused.storeEntries (hjson : json.Repairs) (htext : json.DecodesText)
    (hs : n.Sound json) (h : Refused json req n.raft truncateFrom new) :
    ∃ log, n.storeEntries json req = (false, n.withLog (n.raft.kept truncateFrom) log) ∧
      (truncateFrom = 0 → ¬ Contiguous new → log = n.log) ∧
      (truncateFrom = 0 → Contiguous new →
        log = n.log.grow (frames ((FileLogStore.fitting json new).map json.marshal))) := by
  have hplanned := Raft.replicationPlanFrom_planned hs.indexed h.plan
  obtain ⟨log₁, rs₁, htrunc, hreads₁, hsame⟩ :=
    (truncateLog_spec hjson htext hs hplanned).1 h.truncates
  have hne : new ≠ [] := by
    rintro rfl
    exact h.stores ⟨Contiguous.nil, by simp⟩
  obtain ⟨log₂, happend, hbad, hlong⟩ := @appendEntries_refused _ json
    (n.withLog (n.raft.kept truncateFrom) log₁) new hreads₁.isOpen hne h.stores
  refine ⟨log₂, ?_, fun hzero hc => ?_, fun hzero hc => ?_⟩
  · rw [FileNode.storeEntries, if_neg (by simp [h.matching]), h.plan]
    dsimp only
    rw [htrunc]
    dsimp only
    rw [happend]
    rfl
  · rw [hbad hc]
    exact hsame hzero
  · rw [hlong hc]
    exact congrArg (FileLogStore.grow _) (hsame hzero)

/-- All the ways in which the handler refuses a request after recognizing the leader. -/
theorem storeEntries_false (hjson : json.Repairs) (htext : json.DecodesText) (hs : n.Sound json)
    (h : (n.storeEntries json req).1 = false) :
    n.storeEntries json req = (false, n) ∨
      ∃ truncateFrom new, Refused json req n.raft truncateFrom new := by
  by_cases hmatch : n.raft.matchesPrefixLocked req.prevLogIndex req.prevLogTerm = false
  · left
    rw [FileNode.storeEntries, if_pos hmatch]
  cases hplan : n.raft.replicationPlanLocked req.prevLogIndex req.entries with
  | error err =>
    left
    rw [FileNode.storeEntries, if_neg hmatch, hplan]
  | ok plan =>
    obtain ⟨truncateFrom, new⟩ := plan
    have hplanned := Raft.replicationPlanFrom_planned hs.indexed hplan
    by_cases hcan : truncateFrom ≠ 0 → json.CanTruncate truncateFrom n.raft.log
    · refine .inr ⟨truncateFrom, new, by simpa using hmatch, hplan, hcan, fun hst => ?_⟩
      obtain ⟨stable, log, rs, hstore, -⟩ := Storable.storeEntries hjson htext hs
        ⟨by simpa using hmatch, hplan, hcan, hst⟩
      rw [hstore] at h
      cases h
    · left
      rw [FileNode.storeEntries, if_neg hmatch, hplan]
      dsimp only
      rw [(truncateLog_spec hjson htext hs hplanned).2 hcan]


/-! ## The store of lists -/

section Refinement

open Crash Prog

variable {snapshot : Option Snapshot}

/-- The files of the node as a store of lists sees them. -/
def disk (n : FileNode σ) (snapshot : Option Snapshot) : Disk := ⟨n.stable, n.raft.log, snapshot⟩

theorem run_recognizeLeader (h : n.Sound json) (hge : ¬ req.term < n.raft.currentTerm) :
    (DistributedKv.recognizeLeader req.term req.leaderID).run [] n.raft (n.disk snapshot) =
      .done (n.recognizeLeader req.term req.leaderID).1
        (n.recognizeLeader req.term req.leaderID).2.raft
        ((n.recognizeLeader req.term req.leaderID).2.disk snapshot) := by
  unfold recognizeLeader
  split
  · rename_i hgt
    have hacc : (⟨req.term, noVote, n.raft.commitIndex, n.raft.lastApplied⟩ : StableState).Accepted :=
      ⟨Int.le_refl noVote, h.applied_le⟩
    have hrun : (saveStableLocked req.term noVote).run [] n.raft (n.disk snapshot) =
        .done (.ok ()) n.raft _ := run_store_ok (Disk.saveStable_ok_iff.mpr ⟨hacc, rfl⟩)
    rw [saveStable_ok hacc]
    have hread : (DistributedKv.recognizeLeader req.term req.leaderID).run [] n.raft (n.disk snapshot) =
      (becomeFollowerLocked req.term req.leaderID).run [] n.raft (n.disk snapshot) := by
      simp only [DistributedKv.recognizeLeader]
      rw [run_bind_nil read _ rfl, if_pos hgt]
    rw [hread, becomeFollowerLocked, run_bind_nil read _ rfl, if_neg hge, if_pos hgt,
      run_bind_nil _ _ hrun]
    rfl
  · rename_i hgt
    rw [DistributedKv.recognizeLeader, run_bind_nil read _ rfl, if_neg hgt]
    rfl


theorem run_truncateLog (hs : n.Sound json) (hcont : Contiguous n.raft.log)
    (hplan : n.raft.Planned req.prevLogIndex req.entries truncateFrom new) :
    (DistributedKv.truncateLog truncateFrom).run [] n.raft (n.disk snapshot) =
      .done true { n.raft with log := n.raft.kept truncateFrom }
        ⟨n.stable, n.raft.kept truncateFrom, snapshot⟩ := by
  unfold DistributedKv.truncateLog
  by_cases hzero : truncateFrom = 0
  · rw [if_pos hzero, Raft.kept, if_pos hzero]
    rfl
  obtain ⟨hle, hlt⟩ := hplan.truncates hzero
  have hlast := n.raft.lastLogIndexLocked_of_indexed rfl hs.indexed
  have htrunc : (Disk.truncateFrom truncateFrom).run (n.disk snapshot) =
      .ok ⟨n.stable, n.raft.kept truncateFrom, snapshot⟩ := by
    simp only [Disk.truncateFrom, Disk.replace, disk,
      LogStore.truncateFrom_ok hcont.1 hs.indexed (show 0 < truncateFrom by omega) (by omega)]
    rw [Raft.kept, if_neg hzero, LogStore.takeWhile_indexed hs.indexed]
  rw [if_neg hzero, run_bind_nil _ _ (run_store_ok htrunc)]
  change (read >>= _).run [] _ _ = _
  rw [run_bind_nil read _ rfl, Raft.logOffsetLocked_eq hs.indexed hlt hle]
  rw [Raft.kept, if_neg hzero, LogStore.takeWhile_indexed hs.indexed]
  rfl

theorem run_appendEntries {r : Raft σ} {d : Disk} :
    (Contiguous entries → (DistributedKv.appendEntries entries).run [] r d =
      .done true { r with log := r.log ++ entries } { d with log := d.log ++ entries }) ∧
    (¬ Contiguous entries → (DistributedKv.appendEntries entries).run [] r d = .done false r d) := by
  unfold DistributedKv.appendEntries
  by_cases hnil : entries = []
  · subst hnil
    refine ⟨fun _ => ?_, fun hcon => absurd Contiguous.nil hcon⟩
    rw [if_pos rfl, List.append_nil, List.append_nil]
    rfl
  rw [if_neg hnil]
  refine ⟨fun hc => ?_, fun hc => ?_⟩
  · have happend : (Disk.appendLog entries).run d = .ok { d with log := d.log ++ entries } := by
      simp only [Disk.appendLog, (LogStore.append_ok_iff _ _ _).mpr ⟨hc, rfl⟩]
    rw [run_bind_nil _ _ (run_store_ok happend)]
    rfl
  · have happend : ∃ err, (Disk.appendLog entries).run d = .error err := by
      cases hcase : LogStore.append entries d.log with
      | error err => exact ⟨err, by simp only [Disk.appendLog, hcase]⟩
      | ok l => exact absurd ((LogStore.append_ok_iff _ _ _).mp hcase).1 hc
    obtain ⟨err, happend⟩ := happend
    rw [run_bind_nil _ _ (run_store_error happend)]
    rfl

theorem run_followCommit (hvote : noVote ≤ n.raft.votedFor)
    (happlied : n.raft.lastApplied ≤ n.raft.commitIndex) (leaderCommit : Nat) :
    (DistributedKv.followCommit leaderCommit).run [] n.raft (n.disk snapshot) =
      .done (n.followCommit leaderCommit).1 (n.followCommit leaderCommit).2.raft
        ((n.followCommit leaderCommit).2.disk snapshot) := by
  unfold DistributedKv.followCommit followCommit
  rw [run_bind_nil read _ rfl]
  dsimp only
  split
  · rename_i hgt
    have hacc : (⟨n.raft.currentTerm, n.raft.votedFor, min leaderCommit n.raft.lastLogIndexLocked,
        n.raft.lastApplied⟩ : StableState).Accepted := ⟨hvote, happlied.trans hgt.le⟩
    rw [saveStable_ok hacc]
    have hrun : (saveStableValuesLocked n.raft.currentTerm n.raft.votedFor
        (min leaderCommit n.raft.lastLogIndexLocked) n.raft.lastApplied).run [] n.raft
          (n.disk snapshot) = .done (.ok ()) n.raft _ :=
      run_store_ok (Disk.saveStable_ok_iff.mpr ⟨hacc, rfl⟩)
    rw [run_bind_nil _ _ hrun]
    rfl
  · rfl

/-- The log is small enough for 64-bit indexes, and no record too long for the file. -/
structure Fits (json : EntryJson) (req : AppendEntriesRequest) (n : FileNode σ) : Prop where
  index_lt : n.raft.lastLogIndexLocked + 1 < Nat.pow 2 64
  log : ∀ e ∈ n.raft.log, Wal.Admissible (json.marshal e)
  entries : ∀ e ∈ req.entries, Wal.Admissible (json.marshal e)

theorem Fits.canTruncate (h : Fits json req n) (hs : n.Sound json)
    (hplan : n.raft.Planned req.prevLogIndex req.entries truncateFrom new) :
    truncateFrom ≠ 0 → json.CanTruncate truncateFrom n.raft.log := by
  intro hzero
  refine ⟨fun last hlast => ?_, fun e he => h.log e ((List.takeWhile_prefix _).subset he)⟩
  obtain ⟨hle, -⟩ := hplan.truncates hzero
  have hindex : last.index = n.raft.lastLogIndexLocked := by
    rw [n.raft.lastLogIndexLocked_of_indexed rfl hs.indexed]
    exact hs.indexed.getLast hlast
  rw [uint64Succ, hindex, Nat.mod_eq_of_lt h.index_lt]
  omega

theorem Fits.stores_iff (h : Fits json req n)
    (hplan : n.raft.Planned req.prevLogIndex req.entries truncateFrom new) :
    json.Stores new ↔ Contiguous new := by
  refine ⟨fun hst => hst.1, fun hc => ⟨hc, fun e he => h.entries e ?_⟩⟩
  rw [← hplan.new_eq] at he
  exact (List.dropWhile_sublist _).subset he

/-- As long as records fit, the handler over the bytes of the file does what the
handler over lists does. -/
theorem run_handleAppendEntries (hjson : json.Repairs) (htext : json.DecodesText)
    (hs : n.Sound json) (hfits : Fits json req n) :
    (DistributedKv.handleAppendEntries req).run [] n.raft (n.disk snapshot) =
      .done (n.handleAppendEntries json req).1 (n.handleAppendEntries json req).2.raft
        ((n.handleAppendEntries json req).2.disk snapshot) := by
  rw [DistributedKv.handleAppendEntries, run_bind_nil read _ rfl]
  by_cases hlt : req.term < n.raft.currentTerm
  · rw [if_pos hlt, handleAppendEntries, if_pos hlt]
    rfl
  obtain ⟨n₁, heq, hheard⟩ := recognizeLeader_heard hs hlt
  have hs₁ := hheard.sound hs
  have hfits₁ : Fits json req n₁ := by
    refine ⟨?_, hheard.raft_log ▸ hfits.log, hfits.entries⟩
    rw [Raft.lastLogIndexLocked, hheard.raft_log, hheard.snapshotMeta]
    exact hfits.index_lt
  have hrecognize := @run_recognizeLeader _ json n req snapshot hs hlt
  rw [heq] at hrecognize
  rw [if_neg hlt, run_bind_nil _ _ hrecognize, handleAppendEntries, if_neg hlt, heq]
  change (read >>= _).run [] n₁.raft (n₁.disk snapshot) = _
  rw [run_bind_nil read _ rfl]
  dsimp only
  by_cases hmatch : n₁.raft.matchesPrefixLocked req.prevLogIndex req.prevLogTerm = false
  · rw [if_pos hmatch, storeEntries, if_pos hmatch]
    rfl
  rw [if_neg hmatch]
  cases hplan : n₁.raft.replicationPlanLocked req.prevLogIndex req.entries with
  | error err =>
    rw [storeEntries, if_neg hmatch, hplan]
    rfl
  | ok plan =>
    obtain ⟨truncateFrom, new⟩ := plan
    have hplanned := Raft.replicationPlanFrom_planned hs₁.indexed hplan
    have hcan := hfits₁.canTruncate hs₁ hplanned
    obtain ⟨rs, hrs⟩ := hs₁.durable
    have htrunc := @run_truncateLog _ json n₁ req truncateFrom new snapshot hs₁ hrs.contiguous hplanned
    dsimp only
    rw [run_bind_nil _ _ htrunc, if_neg (by simp)]
    by_cases hc : Contiguous new
    · obtain ⟨log, rs', hstore, -⟩ := Storable.storeEntries_eq hjson htext hs₁
        ⟨by simpa using hmatch, hplan, hcan, (hfits₁.stores_iff hplanned).mpr hc⟩
      obtain ⟨stable, hcommit⟩ := @followCommit_eq _
        (n₁.withLog (n₁.raft.kept truncateFrom ++ new) log) hs₁.vote hs₁.applied_le req.leaderCommit
      have hfollow := @run_followCommit _ (n₁.withLog (n₁.raft.kept truncateFrom ++ new) log) snapshot
        hs₁.vote hs₁.applied_le req.leaderCommit
      rw [hcommit] at hstore hfollow
      rw [run_bind_nil _ _ (run_appendEntries.1 hc), if_neg (by simp), hstore]
      refine (run_bind_nil _ _ hfollow).trans ?_
      rfl
    · obtain ⟨log, hstore, -⟩ := Refused.storeEntries hjson htext hs₁
        ⟨by simpa using hmatch, hplan, hcan, fun hst => hc hst.1⟩
      rw [run_bind_nil _ _ (run_appendEntries.2 hc), if_pos rfl, hstore]
      rfl

end Refinement

end FileNode

end DistributedKv
