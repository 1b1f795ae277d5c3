import DistributedKv.Raft.Refinement

/-!
The operations that move log entries: `HandleAppendEntries` on a follower;
`Propose`, the requests a leader builds and the responses it handles.
-/

namespace DistributedKv

open Crash Prog

variable {σ : Type} {env : Env σ} {M : Imaging env} {tidy : Prop} {i : Input} {p : Peer}
  {r r' : Raft σ} {d d' : Disk}

/-! ## Agreement with a request -/

theorem Agrees.le_length {l : List LogEntry} {req : AppendEntriesRequest} {m : Nat}
    (h : Agrees l req m) : m ≤ req.entries.length := by
  cases m with
  | zero => exact Nat.zero_le _
  | succ k =>
    obtain ⟨e, he, _⟩ := h.2 k (Nat.lt_succ_self k)
    exact (List.getElem?_eq_some_iff.mp he).1

theorem Agrees.succ {l : List LogEntry} {req : AppendEntriesRequest} {m : Nat} {e : LogEntry}
    (h : Agrees l req m) (he : req.entries[m]? = some e)
    (hl : l[req.prevLogIndex + m]? = some e) : Agrees l req (m + 1) := by
  refine ⟨h.1, fun j hj => ?_⟩
  rcases Nat.lt_succ_iff_lt_or_eq.mp hj with hj | rfl
  · exact h.2 j hj
  · exact ⟨e, he, hl⟩

theorem Agrees.take {l : List LogEntry} {req : AppendEntriesRequest} {m : Nat}
    (h : Agrees l req m) (hle : req.prevLogIndex + m ≤ l.length) :
    Agrees (l.take (req.prevLogIndex + m)) req m := by
  refine ⟨?_, fun j hj => ?_⟩
  · rw [← termAt_of_isPrefix (List.take_prefix _ l) (by simp; omega)]
    exact h.1
  · obtain ⟨e, he, hl⟩ := h.2 j hj
    exact ⟨e, he, by rw [List.getElem?_take_of_lt (by omega), hl]⟩

theorem Agrees.append {l : List LogEntry} {req : AppendEntriesRequest} {m : Nat}
    (h : Agrees l req m) (hlen : l.length = req.prevLogIndex + m) :
    Agrees (l ++ req.entries.drop m) req req.entries.length := by
  refine ⟨?_, fun j hj => ⟨req.entries[j], List.getElem?_eq_getElem hj, ?_⟩⟩
  · rw [termAt_append_left (by omega)]
    exact h.1
  · rcases Nat.lt_or_ge j m with hjm | hjm
    · obtain ⟨e, he, hl⟩ := h.2 j hjm
      rw [List.getElem?_eq_getElem hj] at he
      rw [List.getElem?_append_left (by omega), hl, he]
    · rw [List.getElem?_append_right (by omega), List.getElem?_drop, hlen,
        ← List.getElem?_eq_getElem hj]
      congr 1
      omega

/-! ## The replication plan -/

/-- The rest of a list from where its first element is. -/
theorem eq_drop_of_cons {l rest : List LogEntry} {entry : LogEntry} {k : Nat}
    (h : entry :: rest = l.drop k) : l[k]? = some entry ∧ rest = l.drop (k + 1) := by
  constructor
  · rw [← List.head?_drop, ← h, List.head?_cons]
  · rw [← List.tail_drop, ← h, List.tail_cons]

/-- A replication plan: skip the first `m` entries, which the log has; append
the others, after dropping what conflicts with the first of them. -/
structure Plan (r : Raft σ) (req : AppendEntriesRequest) (m truncateFrom : Nat)
    (toAppend : List LogEntry) : Prop where
  agrees : Agrees r.history req m
  rest : toAppend = req.entries.drop m
  first : ∀ e, req.entries[m]? = some e → e.index = req.prevLogIndex + m + 1
  cut : (truncateFrom = 0 ∧ (toAppend = [] ∨ r.history.length = req.prevLogIndex + m)) ∨
    (truncateFrom = req.prevLogIndex + m + 1 ∧ r.commitIndex ≤ req.prevLogIndex + m ∧
      r.snapshotMeta.lastIncludedIndex ≤ req.prevLogIndex + m ∧
      ∃ x e, r.history[req.prevLogIndex + m]? = some x ∧ req.entries[m]? = some e ∧
        x.term ≠ e.term)

theorem Raft.Shape.replicationPlanFrom_plan (h : r.Shape) {req : AppendEntriesRequest}
    {truncateFrom : Nat} {toAppend : List LogEntry} (rest : List LogEntry) {offset : Nat}
    (hrest : rest = req.entries.drop offset) (ha : Agrees r.history req offset)
    (hplan : r.replicationPlanFrom req.prevLogIndex offset rest = .ok (truncateFrom, toAppend)) :
    ∃ m, Plan r req m truncateFrom toAppend := by
  induction rest generalizing offset with
  | nil =>
    simp only [Raft.replicationPlanFrom, Except.ok.injEq, Prod.mk.injEq] at hplan
    obtain ⟨rfl, rfl⟩ := hplan
    have hend : req.entries[offset]? = none :=
      List.getElem?_eq_none (List.drop_eq_nil_iff.mp hrest.symm)
    exact ⟨offset, ha, hrest, by simp [hend], .inl ⟨rfl, .inl rfl⟩⟩
  | cons entry rest ih =>
    obtain ⟨hentry, hnext⟩ := eq_drop_of_cons hrest
    obtain ⟨-, hindex, hstep⟩ := r.planStep_of_replicationPlanFrom hplan
    have hfirst : ∀ e, req.entries[offset]? = some e → e.index = req.prevLogIndex + offset + 1 := by
      intro e he
      rwa [← Option.some.inj (hentry.symm.trans he)]
    have hplace {e : LogEntry} (hat : r.entryAtLocked entry.index = some e) :
        r.snapshotMeta.lastIncludedIndex < entry.index ∧
          r.history[req.prevLogIndex + offset]? = some e := by
      rw [h.entryAtLocked_eq, hindex, Nat.add_sub_cancel] at hat
      split at hat
      · exact ⟨by omega, hat⟩
      · cases hat
    cases hstep with
    | present hat hplan => exact ih hnext (ha.succ hentry (hplace hat).2) hplan
    | replace existing hat hterm _ hcommit =>
      obtain ⟨hb, hex⟩ := hplace hat
      exact ⟨offset, ha, hrest, hfirst, .inr ⟨hindex, by omega, by omega, existing, entry, hex,
        hentry, hterm⟩⟩
    | extend hgap =>
      rw [h.lastLogIndexLocked_eq] at hgap
      exact ⟨offset, ha, hrest, hfirst, .inl ⟨rfl, .inr (by omega)⟩⟩

/-- A log that shares every committed entry with another one, and every entry
that has its index and term there, takes that one over from wherever both agree. -/
theorem Raft.Shape.replicationPlanFrom_ok (h : r.Shape) {l : List LogEntry} (hidx : Indexed 0 l)
    (hval : ∀ e ∈ l, e.Valid) (hcommit : r.history.take r.commitIndex <+: l)
    (hle : r.commitIndex ≤ r.history.length)
    (hmatch : ∀ (k : Nat) (x y : LogEntry), r.history[k]? = some x → l[k]? = some y →
      x.term = y.term → x = y)
    {prev : Nat} (hb : r.snapshotMeta.lastIncludedIndex ≤ prev) (rest : List LogEntry)
    {offset : Nat} (hrest : rest = l.drop (prev + offset))
    (hin : prev + offset ≤ r.history.length) :
    ∃ plan, r.replicationPlanFrom prev offset rest = .ok plan := by
  induction rest generalizing offset with
  | nil => exact ⟨_, rfl⟩
  | cons entry rest ih =>
    obtain ⟨hentry, hnext⟩ := eq_drop_of_cons hrest
    have hindex : entry.index = prev + offset + 1 := by simpa using hidx _ _ hentry
    unfold Raft.replicationPlanFrom
    rw [show entry.validate = .ok () from hval entry (List.mem_of_getElem? hentry)]
    simp only [hindex, ne_eq, not_true_eq_false, ↓reduceIte, h.lastLogIndexLocked_eq]
    split
    · rename_i hlt
      have hex := List.getElem?_eq_getElem (show prev + offset < r.history.length by omega)
      rw [h.entryAtLocked_eq, if_pos (by omega), Nat.add_sub_cancel, hex]
      dsimp only
      split
      · exact ih hnext (by omega)
      rename_i hne
      rw [if_neg fun hterm => hne (hmatch _ _ _ hex hentry hterm)]
      split
      · rename_i hc
        have := getElem?_of_take_isPrefix hcommit (show prev + offset < r.commitIndex by omega) hle
        rw [hentry, hex] at this
        exact absurd (Option.some.inj this).symm hne
      · exact ⟨_, rfl⟩
    · rename_i hgt
      rw [if_neg (by omega)]
      exact ⟨_, rfl⟩

/-! ## `HandleAppendEntries` -/

section Follower

variable {req : AppendEntriesRequest} {m : Nat}

theorem truncateLog_spec {truncateFrom : Nat} {toAppend : List LogEntry}
    (h : Reaches M tidy (.appendRequest req) p r d) (hterm : r.currentTerm = req.term)
    (hf : r.state = .follower) (hplan : Plan r req m truncateFrom toAppend) :
    wp Atomic (Survives M (.appendRequest req) p) (truncateLog truncateFrom)
      (fun out r' d' => out = true ∧ Reaches M tidy (.appendRequest req) p r' d' ∧
        r'.currentTerm = r.currentTerm ∧ r'.state = r.state ∧ Agrees r'.history req m ∧
        (toAppend = [] ∨ r'.history.length = req.prevLogIndex + m)) r d := by
  have hrun := h.running
  rcases hplan.cut with ⟨rfl, hlen⟩ | ⟨rfl, hc, hb, x, e, hx, he, hne⟩
  · simp only [truncateLog, ↓reduceIte, wp_pure]
    exact ⟨trivial, h, trivial, trivial, hplan.agrees, hlen⟩
  · have hlt : req.prevLogIndex + m < r.history.length := (List.getElem?_eq_some_iff.mp hx).1
    have hlen := hrun.history_length
    let k := req.prevLogIndex + m - r.snapshotMeta.lastIncludedIndex
    let r' : Raft σ := { r with log := r.log.take k }
    have hcut : r'.log = r.log.take k := rfl
    obtain ⟨hhist, hrun'⟩ := hrun.cutLog hb hc (show r'.covered = r.covered from rfl) hcut rfl rfl
      rfl rfl
    have h' : Reaches M tidy (.appendRequest req) p r' { d with log := d.log.take k } := by
      refine ⟨hrun', ?_⟩
      have hpeer : r'.peer = { r.peer with
          history := r.peer.history.take (req.prevLogIndex + m) } := by
        simp only [Raft.peer, hhist]
        rfl
      rw [hpeer]
      exact h.steps.tail (.truncate _ req m x e hterm hf hplan.agrees hx he hne hc)
    have hk : req.prevLogIndex + m + 1 - r.snapshotMeta.lastIncludedIndex - 1 = k := by omega
    have hoff : r.logOffsetLocked (req.prevLogIndex + m + 1) = some k := by
      rw [hrun.logOffsetLocked_eq, if_pos (by omega)]
      congr 1
    rw [truncateLog, if_neg (by omega)]
    simp only [wp_bind]
    refine wp_truncateFrom (b := r.snapshotMeta.lastIncludedIndex)
      (hrun.disk_log ▸ hrun.log_valid) (hrun.disk_log ▸ hrun.log_indexed) (by omega)
      (by rw [hrun.disk_log]; omega) ?_ h.survives ?_
    · rw [hk]
      simp only [wp_bind, wp_read, hoff, wp_modify, wp_pure]
      refine ⟨trivial, h', trivial, trivial, ?_, .inr ?_⟩
      · change Agrees r'.history req m
        rw [hhist]
        exact hplan.agrees.take hlt.le
      · change r'.history.length = _
        rw [hhist, List.length_take]
        omega
    · rw [hk]
      exact h'.survives

theorem appendEntries_spec {toAppend : List LogEntry}
    (h : Reaches M tidy (.appendRequest req) p r d) (hterm : r.currentTerm = req.term)
    (hf : r.state = .follower) (ha : Agrees r.history req m) (hrest : toAppend = req.entries.drop m)
    (hfirst : ∀ e, req.entries[m]? = some e → e.index = req.prevLogIndex + m + 1)
    (hlen : toAppend = [] ∨ r.history.length = req.prevLogIndex + m) :
    wp Atomic (Survives M (.appendRequest req) p) (appendEntries toAppend)
      (fun out r' d' => Reaches M tidy (.appendRequest req) p r' d' ∧
        r'.currentTerm = r.currentTerm ∧
        (out = true → Agrees r'.history req req.entries.length) ∧
        (Contiguous toAppend → out = true)) r d := by
  by_cases hnil : toAppend = []
  · have hm : m = req.entries.length :=
      Nat.le_antisymm ha.le_length (List.drop_eq_nil_iff.mp (hrest.symm.trans hnil))
    rw [hnil, appendEntries, if_pos rfl, wp_pure]
    exact ⟨h, rfl, fun _ => hm ▸ ha, fun _ => rfl⟩
  have hlen' := hlen.resolve_left hnil
  rw [appendEntries, if_neg hnil]
  simp only [wp_bind]
  by_cases hc : Contiguous toAppend
  swap
  · refine wp_appendLog_error hc fun err => ?_
    simp only [wp_pure]
    exact ⟨h, trivial, by simp, fun hcon => absurd hcon hc⟩
  have hidx : Indexed r.history.length toAppend := by
    obtain ⟨b, hb⟩ := hc.2
    cases htl : toAppend with
    | nil => exact Indexed.nil _
    | cons e es =>
      rw [htl] at hb hrest
      have he : req.entries[m]? = some e := by
        rw [← List.head?_drop, ← hrest, List.head?_cons]
      have h₁ := hfirst e he
      have h₂ := (Indexed.cons.mp hb).1
      rw [hlen', show req.prevLogIndex + m = b by omega]
      exact hb
  -- a crash may leave any number of the entries behind, and success leaves all of them
  have hpart : ∀ n, Reaches M tidy (.appendRequest req) p
      { r with log := r.log ++ toAppend.take n } { d with log := d.log ++ toAppend.take n } := by
    intro n
    refine ⟨h.running.extendLog (hidx.take n) (fun e he => hc.1 e (List.mem_of_mem_take he))
      rfl rfl rfl rfl rfl rfl, ?_⟩
    have hpeer : Raft.peer { r with log := r.log ++ toAppend.take n } = { r.peer with
        history := r.peer.history ++ (req.entries.drop m).take n } := by
      simp [Raft.peer, Raft.history, hrest]
    rw [hpeer]
    exact h.steps.tail (.append _ req m n hterm hf ha hlen')
  have hall := hpart toAppend.length
  rw [List.take_length] at hall
  refine wp_appendLog hc ?_ fun n => (hpart n).survives
  simp only [wp_bind, wp_modify, wp_pure]
  refine ⟨hall, trivial, fun _ => ?_, fun _ => trivial⟩
  have := ha.append hlen'
  simpa [Raft.history, hrest] using this

theorem followCommit_spec (h : Reaches M tidy (.appendRequest req) p r d)
    (hterm : r.currentTerm = req.term) (ha : Agrees r.history req req.entries.length) :
    wp Atomic (Survives M (.appendRequest req) p) (followCommit req.leaderCommit)
      (fun out r' d' => out = true ∧ Reaches M tidy (.appendRequest req) p r' d' ∧
        r'.currentTerm = r.currentTerm ∧ r'.history = r.history) r d := by
  have hrun := h.running
  simp only [followCommit, saveStableValuesLocked, wp_bind, wp_read, wp_ite, wp_pure,
    hrun.lastLogIndexLocked_eq]
  refine ⟨fun hgt => ?_, fun _ => ⟨trivial, h, trivial, trivial⟩⟩
  let r' : Raft σ := { r with commitIndex := min req.leaderCommit r.history.length }
  have h' : Reaches M tidy (.appendRequest req) p r' { d with stable := r'.stable } :=
    ⟨hrun.restate rfl rfl rfl rfl rfl rfl hgt.le (min_le_right _ _) hrun.vote_ge,
      h.steps.tail (.followCommit _ req hterm ha hgt)⟩
  refine h.wp_saveStable h' ?_
  simp only [wp_bind, wp_modify, wp_pure]
  exact ⟨trivial, h', trivial, rfl⟩

/-- The entries fit together and a plan for them is found. -/
def Raft.Plans (r : Raft σ) (req : AppendEntriesRequest) : Prop :=
  Contiguous req.entries ∧ ∃ plan, r.replicationPlanLocked req.prevLogIndex req.entries = .ok plan

/-- What the answer to an AppendEntries request tells about the node before and
after it. -/
structure AppendAnswered (req : AppendEntriesRequest) (r : Raft σ) (resp : AppendEntriesResponse)
    (r' : Raft σ) : Prop where
  success : resp.success = true → r'.currentTerm = req.term ∧ resp.term = req.term ∧
    Agrees r'.history req req.entries.length
  term : r.currentTerm ≤ req.term → resp.term = req.term ∧ r'.currentTerm = req.term
  refuses : r.currentTerm ≤ req.term →
    r.matchesPrefixLocked req.prevLogIndex req.prevLogTerm = false →
    resp.success = false ∧ r.SameLog r'
  accepts : r.currentTerm ≤ req.term →
    r.matchesPrefixLocked req.prevLogIndex req.prevLogTerm = true → r.Plans req →
    resp.success = true

theorem handleAppendEntries_spec (h : Reaches M tidy (.appendRequest req) p r d) :
    wp Atomic (Survives M (.appendRequest req) p) (handleAppendEntries req)
      (fun resp r' d' => Reaches M tidy (.appendRequest req) p r' d' ∧
        AppendAnswered req r resp r') r d := by
  simp only [handleAppendEntries, wp_bind, wp_read, wp_ite, wp_pure]
  refine ⟨fun hlt => ⟨h, by simp, fun hle => by omega, fun hle => by omega, fun hle => by omega⟩,
    fun hge => ?_⟩
  refine wp_mono _ _ _ (recognizeLeader_spec h (by omega) req.leaderID) ?_ fun _ hd => hd
  rintro _ r₁ d₁ ⟨rfl, h₁, hsame, hterm₁, hf₁⟩
  simp only [wp_bind, wp_read, wp_ite, wp_pure]
  have hheld : r₁.matchesPrefixLocked = r.matchesPrefixLocked :=
    Raft.matchesPrefixLocked_congr hsame.log hsame.snapshotMeta
  have hplans : r₁.replicationPlanLocked req.prevLogIndex req.entries =
      r.replicationPlanLocked req.prevLogIndex req.entries :=
    Raft.replicationPlanFrom_congr hsame.log hsame.snapshotMeta hsame.commitIndex _ _ _
  refine ⟨fun hno => ⟨h₁, by simp, fun _ => ⟨hterm₁, hterm₁⟩, fun _ _ => ⟨rfl, hsame⟩, ?_⟩,
    fun hmatch => ?_⟩
  · rw [hheld] at hno
    simp [hno]
  have hrefuses : r.matchesPrefixLocked req.prevLogIndex req.prevLogTerm = false → False :=
    fun hno => hmatch (hheld ▸ hno)
  rw [Bool.not_eq_false, h₁.running.matchesPrefixLocked_iff] at hmatch
  cases hplan : r₁.replicationPlanLocked req.prevLogIndex req.entries with
  | error err =>
    simp only [wp_pure]
    refine ⟨h₁, by simp, fun _ => ⟨hterm₁, hterm₁⟩, fun _ hno => (hrefuses hno).elim,
      fun _ _ hp => ?_⟩
    obtain ⟨plan, hp⟩ := hp.2
    rw [← hplans, hplan] at hp
    cases hp
  | ok plan =>
    obtain ⟨truncateFrom, toAppend⟩ := plan
    have hagrees : Agrees r₁.history req 0 := ⟨hmatch.2, fun j hj => by omega⟩
    obtain ⟨m, hm⟩ := h₁.running.replicationPlanFrom_plan req.entries rfl hagrees hplan
    simp only [wp_bind]
    refine wp_mono _ _ _ (truncateLog_spec h₁ hterm₁ hf₁ hm) ?_ fun _ hd => hd
    rintro _ r₂ d₂ ⟨rfl, h₂, hterm₂, hf₂, ha₂, hlen₂⟩
    simp only [wp_ite, wp_pure, wp_bind, Bool.true_eq_false, false_implies, true_and]
    refine fun _ => wp_mono _ _ _ (appendEntries_spec h₂ (hterm₂.trans hterm₁) (hf₂.trans hf₁) ha₂
      hm.rest hm.first hlen₂) ?_ fun _ hd => hd
    rintro out r₃ d₃ ⟨h₃, hterm₃, ha₃, hout₃⟩
    have hterm : r₃.currentTerm = req.term := hterm₃.trans (hterm₂.trans hterm₁)
    refine ⟨fun hout => ⟨h₃, by simp, fun _ => ⟨hterm₁, hterm⟩, fun _ hno => (hrefuses hno).elim,
      fun _ _ hp => ?_⟩, fun hout => ?_⟩
    · have := hout₃ (hm.rest ▸ Contiguous.drop hp.1 m)
      rw [hout] at this
      cases this
    have ha₃ := ha₃ (by simpa using hout)
    refine wp_mono _ _ _ (followCommit_spec h₃ hterm ha₃) ?_ fun _ hd => hd
    rintro _ r₄ d₄ ⟨rfl, h₄, hterm₄, hhist⟩
    exact ⟨by simp, fun _ => ⟨h₄, fun _ => ⟨hterm₄.trans hterm, hterm₁, hhist ▸ ha₃⟩,
      fun _ => ⟨hterm₁, hterm₄.trans hterm⟩, fun _ hno => (hrefuses hno).elim, fun _ _ _ => rfl⟩⟩

end Follower

/-! ## The leader's side -/

theorem proposedEntry_valid {command : Command} (h : command.validate = .ok ()) (index term : Nat) :
    (proposedEntry (index + 1) term command).Valid := by
  unfold Command.validate at h
  split at h
  · cases h
  · have := ((LogEntry.valid_iff _).mp h).2
    exact (LogEntry.valid_iff _).mpr ⟨Nat.succ_pos index, this⟩

theorem propose_spec {command : Command} (h : Reaches M tidy (.propose command) p r d) :
    wp Atomic (Survives M (.propose command) p) (propose env command)
      (fun _ r' d' => Reaches M tidy (.propose command) p r' d') r d := by
  rw [propose]
  cases hval : command.validate with
  | error err => exact h
  | ok u =>
    simp only [wp_bind, wp_read, wp_ite, wp_pure, not_not]
    refine ⟨fun _ => h, fun hlead => ⟨fun _ => h, fun _ => ?_⟩⟩
    cases r.applyErr with
    | some err => exact h
    | none =>
      simp only [wp_bind, h.running.lastLogInfoLocked_eq]
      let entry := proposedEntry (r.history.length + 1) r.currentTerm command
      have hidx : Indexed r.history.length [entry] := Indexed.cons.mpr ⟨rfl, Indexed.nil _⟩
      have hvalid : ∀ e ∈ [entry], e.Valid :=
        fun e he => List.mem_singleton.mp he ▸ proposedEntry_valid hval _ _
      let r' : Raft σ := { r with
        log := r.log ++ [entry]
        channels := r.channels ++ [⟨[], false⟩]
        pendingResults := (entry.index, r.channels.length) ::
          r.pendingResults.filter fun p => p.1 ≠ entry.index }
      have h' : Reaches M tidy (.propose command) p r' { d with log := d.log ++ [entry] } := by
        refine ⟨h.running.extendLog hidx hvalid rfl rfl rfl rfl rfl rfl, ?_⟩
        have hpeer : r'.peer = { r.peer with history := r.peer.history ++ [entry] } := by
          simp [r', Raft.peer, Raft.history]
        rw [hpeer]
        exact h.steps.tail (.propose _ command hlead)
      refine wp_appendLog ⟨hvalid, _, hidx⟩ ?_ fun n => ?_
      · simp only [wp_bind, wp_modify, wp_pure]
        exact h'
      · cases n with
        | zero => simpa using h.survives
        | succ n => simpa using h'.survives

theorem commitCandidate_some {k index : Nat} (h : r.commitCandidate env k = some index) :
    r.commitIndex < index ∧ index ≤ k ∧ r.termAtLocked index = some r.currentTerm ∧
      env.majority ≤ r.matched env index := by
  induction k with
  | zero => cases h
  | succ k ih =>
    unfold Raft.commitCandidate at h
    split at h
    · cases h
    split at h
    · obtain ⟨h₁, h₂, h₃⟩ := ih h
      exact ⟨h₁, Nat.le_succ_of_le h₂, h₃⟩
    split at h
    · obtain ⟨h₁, h₂, h₃⟩ := ih h
      exact ⟨h₁, Nat.le_succ_of_le h₂, h₃⟩
    rename_i hcommit hterm hmajority
    obtain rfl := Option.some.inj h
    exact ⟨by omega, le_rfl, not_not.mp hterm, by omega⟩

/-- Above the index that the loop stops at, nothing is on a majority. -/
theorem matched_lt_of_commitCandidate {k index : Nat} (hcommit : r.commitIndex < index)
    (habove : ∀ found, r.commitCandidate env k = some found → found < index) (hk : index ≤ k)
    (hterm : r.termAtLocked index = some r.currentTerm) : r.matched env index < env.majority := by
  induction k with
  | zero => omega
  | succ k ih =>
    unfold Raft.commitCandidate at habove
    rw [if_neg (show ¬ k + 1 ≤ r.commitIndex by omega)] at habove
    by_cases hlast : index = k + 1
    · subst hlast
      rw [if_neg (not_not.mpr hterm)] at habove
      by_contra hno
      rw [if_neg hno] at habove
      exact Nat.lt_irrefl _ (habove _ rfl)
    · refine ih (fun found hfound => ?_) (by omega)
      split at habove
      · exact habove found hfound
      split at habove
      · exact habove found hfound
      · exact absurd (habove _ rfl) (by omega)

section Leader

variable {peer : Int}

theorem advanceCommitIndexLocked_spec {req : AppendEntriesRequest} {resp : AppendEntriesResponse}
    (h : Reaches M tidy (.appendResponse peer req resp) p r d) (hlead : r.state = .leader) :
    wp Atomic (Survives M (.appendResponse peer req resp) p) (advanceCommitIndexLocked env)
      (fun _ r' d' => Reaches M tidy (.appendResponse peer req resp) p r' d') r d := by
  have hrun := h.running
  simp only [advanceCommitIndexLocked, saveStableValuesLocked, wp_bind, wp_read]
  cases hc : r.commitCandidate env r.lastLogIndexLocked with
  | none => exact h
  | some index =>
    obtain ⟨hlt, hle, hterm, hmaj⟩ := commitCandidate_some hc
    rw [hrun.lastLogIndexLocked_eq] at hle
    obtain ⟨-, hterm⟩ := hrun.termAt_of_termAtLocked hterm
    let r' : Raft σ := { r with commitIndex := index }
    have h' : Reaches M tidy (.appendResponse peer req resp) p r' { d with stable := r'.stable } :=
      ⟨hrun.restate rfl rfl rfl rfl rfl rfl hlt.le hle hrun.vote_ge,
        h.steps.tail (.advance _ peer req resp index hlead hlt hterm hmaj)⟩
    simp only [wp_bind]
    refine h.wp_saveStable h' ?_
    simp only [wp_bind, wp_modify, wp_pure]
    exact h'

theorem handleAppendEntriesResponse_spec {req : AppendEntriesRequest}
    {resp : AppendEntriesResponse} (h : Reaches M tidy (.appendResponse peer req resp) p r d) :
    wp Atomic (Survives M (.appendResponse peer req resp) p)
      (handleAppendEntriesResponse env peer req resp)
      (fun _ r' d' => Reaches M tidy (.appendResponse peer req resp) p r' d') r d := by
  simp only [handleAppendEntriesResponse, wp_bind, wp_read, wp_ite, wp_pure, wp_modify]
  refine ⟨fun _ => ?_, fun hterm => ⟨fun _ => h, fun hlead => ⟨fun _ => ⟨fun _ => h, fun _ => ?_⟩,
    fun hok => ?_⟩⟩⟩
  · refine wp_mono _ _ _ (becomeFollowerLocked_spec h resp.term unknownLeader) ?_ fun _ hd => hd
    exact fun _ _ _ hr => hr.2.1
  · exact ⟨h.running.relabel rfl rfl rfl rfl rfl rfl, h.steps⟩
  · simp only [not_or, not_not] at hlead
    obtain ⟨hstate, hreq, hresp⟩ := hlead
    have h' : Reaches M tidy (.appendResponse peer req resp) p
        (r.recordMatch peer (req.prevLogIndex + req.entries.length)) d :=
      ⟨h.running.relabel rfl rfl rfl rfl rfl rfl,
        h.steps.tail (.recordAppend _ peer req resp hstate hreq hresp (by simpa using hok))⟩
    exact advanceCommitIndexLocked_spec h' hstate

theorem handleInstallSnapshotResponse_spec {req : InstallSnapshotRequest}
    {resp : InstallSnapshotResponse} (h : Reaches M tidy (.installResponse peer req resp) p r d) :
    wp Atomic (Survives M (.installResponse peer req resp) p)
      (handleInstallSnapshotResponse peer req resp)
      (fun _ r' d' => Reaches M tidy (.installResponse peer req resp) p r' d') r d := by
  simp only [handleInstallSnapshotResponse, wp_bind, wp_read, wp_ite, wp_pure, wp_modify]
  refine ⟨fun _ => ?_, fun hterm => ⟨fun _ => h, fun hlead => ?_⟩⟩
  · refine wp_mono _ _ _ (becomeFollowerLocked_spec h resp.term unknownLeader) ?_ fun _ hd => hd
    exact fun _ _ _ hr => hr.2.1
  · simp only [not_or, not_not] at hlead
    obtain ⟨hstate, hreq, hresp⟩ := hlead
    exact ⟨h.running.relabel rfl rfl rfl rfl rfl rfl,
      h.steps.tail (.recordInstall _ peer req resp hstate hreq hresp)⟩

theorem buildAppendEntries_emits (h : r.Shape) {req : AppendEntriesRequest}
    (hreq : r.buildAppendEntries env.id peer = some req) :
    r.peer.Emits env M.Encodes (.sendAppend peer) (.appendRequest peer req) := by
  unfold Raft.buildAppendEntries at hreq
  split at hreq
  · cases hreq
  rename_i hlead
  split at hreq
  · cases hreq
  rename_i next _
  split at hreq
  · cases hreq
  rename_i hrange
  rw [h.lastLogIndexLocked_eq, not_or, not_le, not_lt] at hrange
  have hentries := h.entriesFromLocked_eq next
  rw [if_pos hrange] at hentries
  rw [hentries] at hreq
  split at hreq
  · rename_i previousTerm entries hterm hsome
    obtain rfl := Option.some.inj hsome
    obtain rfl := Option.some.inj hreq
    exact ⟨not_not.mp hlead, rfl, rfl, (by omega : next - 1 ≤ r.history.length),
      (h.termAt_of_termAtLocked hterm).2, rfl, rfl⟩
  · cases hreq

theorem buildInstallSnapshot_spec (h : Running M tidy r d) (R : Disk → Prop) :
    wp Atomic R (buildInstallSnapshot env peer)
      (fun out r' d' => r' = r ∧ d' = d ∧ ∀ req, out = .ok (some req) →
        r.peer.Emits env M.Encodes (.sendInstall peer) (.installRequest peer req)) r d := by
  simp only [buildInstallSnapshot, wp_bind, wp_read, wp_ite, wp_pure]
  refine ⟨fun _ => ⟨trivial, trivial, by simp⟩, fun hlead => ?_⟩
  cases hnext : r.nextIndex peer with
  | none => exact ⟨rfl, rfl, by simp⟩
  | some next =>
    simp only [wp_bind, wp_ite, wp_pure, wp_disk]
    refine ⟨fun _ => ⟨trivial, trivial, by simp⟩, fun _ => ⟨fun _ => ⟨trivial, trivial, by simp⟩,
      fun _ => ?_⟩⟩
    cases hs : d.snapshot with
    | none => exact ⟨rfl, rfl, by simp⟩
    | some stored =>
      simp only [wp_ite, wp_pure]
      refine ⟨fun _ => ⟨trivial, trivial, by simp⟩, fun hmeta => ⟨trivial, trivial, fun req hreq => ?_⟩⟩
      simp only [Except.ok.injEq, Option.some.injEq] at hreq
      subst hreq
      have hst := h.disk_snapshot stored hs
      have hle := h.disk_applied.trans h.applied_le
      simp only [Disk.boundary, hs, Option.map_some, Option.getD_some] at hle
      exact ⟨not_not.mp hlead, rfl, rfl, hle, hst.covers, hst.term, hst.encodes⟩

/-! ## What a leader sends and learns, without failing calls -/

section Quiet

variable {allow : Outcome → Prop} {R : Disk → Prop} {next : Nat} (hl : r.state = .leader)

include hl

theorem buildInstallSnapshot_out (hnext : r.nextIndex peer = some next)
    (hsn : env.snapshotter.isSome = true) :
    wp allow R (buildInstallSnapshot env peer) (fun out r' d' => r' = r ∧ d' = d ∧
      (r.snapshotMeta.lastIncludedIndex < next → out = .ok none) ∧
      (next ≤ r.snapshotMeta.lastIncludedIndex →
        (∃ s, d.snapshot = some s ∧ s.metadata = r.snapshotMeta ∧
          out = .ok (some ⟨r.currentTerm, env.id, s.lastIncludedIndex, s.lastIncludedTerm, s.data,
            s.covers⟩)) ∨
        d.snapshot.map Snapshot.metadata ≠ some r.snapshotMeta ∧ ∃ err, out = .error err)) r d := by
  obtain ⟨sn, hsn⟩ := Option.isSome_iff_exists.mp hsn
  simp only [buildInstallSnapshot, wp_bind, wp_read]
  rw [if_neg (not_not.mpr hl), hnext]
  simp only [wp_bind, wp_ite, wp_pure, wp_disk, hsn, Option.isNone_some, Bool.false_eq_true,
    false_implies, not_false_eq_true, true_implies, true_and]
  refine ⟨fun hgt => ⟨fun _ => trivial, fun hle => by omega⟩, fun hle => ?_⟩
  cases hs : d.snapshot with
  | none => exact ⟨rfl, rfl, fun hgt => absurd hgt hle, fun _ => .inr ⟨by simp, _, rfl⟩⟩
  | some s =>
    simp only [wp_ite, wp_pure]
    refine ⟨fun hne => ⟨trivial, trivial, fun hgt => absurd hgt hle, fun _ => .inr ⟨?_, _, rfl⟩⟩,
      fun heq => ⟨trivial, trivial, fun hgt => absurd hgt hle,
        fun _ => .inl ⟨s, rfl, not_not.mp heq, rfl⟩⟩⟩
    exact fun hcon => hne (Option.some.inj hcon)

theorem buildAppendEntries_eq (h : r.Shape) (hnext : r.nextIndex peer = some next)
    (hb : r.snapshotMeta.lastIncludedIndex < next) (hle : next ≤ r.history.length + 1) (id : Int) :
    ∃ t, termAt r.history (next - 1) = some t ∧ r.termAtLocked (next - 1) = some t ∧
      r.buildAppendEntries id peer =
        some ⟨r.currentTerm, id, next - 1, t, r.history.drop (next - 1), r.commitIndex⟩ := by
  have hterm := lastTerm_take (show next - 1 ≤ r.history.length by omega)
  have hlocked := h.termAtLocked_eq (next - 1)
  rw [if_pos (by omega), hterm] at hlocked
  have hentries := h.entriesFromLocked_eq next
  rw [if_pos ⟨hb, hle⟩] at hentries
  refine ⟨_, hterm, hlocked, ?_⟩
  unfold Raft.buildAppendEntries
  rw [if_neg (not_not.mpr hl), hnext]
  dsimp only
  rw [if_neg (by rw [h.lastLogIndexLocked_eq]; omega), hlocked, hentries]

/-- A response in the leader's term to a request of its own is not thrown away. -/
theorem current_response {reqTerm respTerm : Nat} (hreq : reqTerm = r.currentTerm)
    (hresp : respTerm = r.currentTerm) :
    ¬ (r.state ≠ .leader ∨ reqTerm ≠ r.currentTerm ∨ respTerm ≠ r.currentTerm) := by
  simp [hl, hreq, hresp]

variable {req : AppendEntriesRequest} {resp : AppendEntriesResponse}

theorem handleAppendEntriesResponse_refused (hreq : req.term = r.currentTerm)
    (hresp : resp.term = r.currentTerm) (hno : resp.success = false)
    (hnext : r.nextIndex peer = some next) :
    wp allow R (handleAppendEntriesResponse env peer req resp) (fun out r' d' => d' = d ∧
      (next ≤ 1 → out = false) ∧
      (1 < next → out = true ∧ r' = { r with nextIndex := setAt r.nextIndex peer (next - 1) }))
      r d := by
  simp only [handleAppendEntriesResponse, wp_bind, wp_read]
  rw [if_neg (by omega), if_neg (current_response hl hreq hresp), if_pos hno, hnext]
  simp only [Option.getD_some, wp_ite, wp_bind, wp_pure, wp_modify]
  exact ⟨fun hle => ⟨trivial, fun _ => trivial, fun hgt => by omega⟩,
    fun hgt => ⟨trivial, fun hle => by omega, fun _ => ⟨trivial, by rw [hnext, Option.getD_some]⟩⟩⟩

theorem handleAppendEntriesResponse_accepted (hreq : req.term = r.currentTerm)
    (hresp : resp.term = r.currentTerm) (hok : resp.success = true) :
    wp allow (fun _ => True) (handleAppendEntriesResponse env peer req resp)
      (fun out r' _ => out = false ∧ ∃ c, r' = { r.recordMatch peer
        (req.prevLogIndex + req.entries.length) with commitIndex := c }) r d := by
  simp only [handleAppendEntriesResponse, wp_bind, wp_read]
  rw [if_neg (by omega), if_neg (current_response hl hreq hresp), if_neg (by simp [hok])]
  simp only [advanceCommitIndexLocked, saveStableValuesLocked, wp_bind, wp_read, wp_modify]
  split
  · exact ⟨rfl, _, rfl⟩
  · simp only [wp_bind]
    refine wp_store_of_keeps trivial (fun _ _ => trivial) (fun _ => trivial) fun res d' _ => ?_
    cases res with
    | error err => exact ⟨rfl, _, rfl⟩
    | ok u => exact ⟨rfl, _, rfl⟩

theorem handleInstallSnapshotResponse_accepted {req : InstallSnapshotRequest}
    {resp : InstallSnapshotResponse} (hreq : req.term = r.currentTerm)
    (hresp : resp.term = r.currentTerm) :
    wp allow R (handleInstallSnapshotResponse peer req resp) (fun out r' d' => d' = d ∧
      out = true ∧ r' = { r with
        matchIndex := setAt r.matchIndex peer req.lastIncludedIndex
        nextIndex := setAt r.nextIndex peer (req.lastIncludedIndex + 1) }) r d := by
  simp only [handleInstallSnapshotResponse, wp_bind, wp_read]
  rw [if_neg (by omega), if_neg (current_response hl hreq hresp)]
  simp only [wp_bind, wp_modify, wp_pure]
  exact ⟨trivial, trivial, trivial⟩

end Quiet

end Leader

end DistributedKv
