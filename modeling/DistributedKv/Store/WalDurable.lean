import DistributedKv.Store.WalFile

/-!
What the methods of the WAL are worth when the process may die in any of their
system calls and the power fail afterwards. As long as no call returns an error,
the file under the path holds the acknowledged records, and of an unfinished batch
the first few (`wp_appendBatch`, `wp_replay`, `wp_replace`).
-/

namespace DistributedKv

open Crash Prog Volume
open Framing (frame frames)

/-- `NewWAL` and `Replay` give these records on this file, or on none. -/
def Wal.Leaves (o : Option Bytes) (rs : List Bytes) : Prop :=
  (o = none ∧ rs = []) ∨
    ∃ tail, o = some (frames rs ++ tail) ∧ (tail = [] ∨ Framing.Torn Wal.Admissible tail)

theorem Wal.leaves_frames (rs : List Bytes) : Wal.Leaves (some (frames rs)) rs :=
  .inr ⟨[], by rw [List.append_nil], .inl rfl⟩

/-- A piece of the frames of some more records. -/
theorem Wal.leaves_of_prefix {rs new : List Bytes} {bs : Bytes}
    (hnew : ∀ r ∈ new, Wal.Admissible r) (h : bs <+: frames new) :
    ∃ n, Wal.Leaves (some (frames rs ++ bs)) (rs ++ new.take n) := by
  rw [List.prefix_iff_eq_take] at h
  obtain ⟨tail, heq, htail⟩ := Framing.take_frames hnew bs.length
  obtain ⟨n, -, hn, -⟩ := Framing.complete_eq_take bs.length new
  refine ⟨n, .inr ⟨tail, ?_, htail⟩⟩
  rw [h, heq, hn, Framing.frames_append, List.append_assoc]

namespace WalFile

variable {path dir : String} {allow : Outcome → Prop} {R : Vol → Prop} {fd : Descriptor}
  {v v' : Vol} {i : Nat} {rs records : List Bytes}

/-! ## Writing -/

theorem wp_writeRecord {record : Bytes} {Q : Except String Unit → Descriptor → Vol → Prop}
    (h : Wal.Admissible record)
    (hR : ∀ bs, bs <+: frame record → R (v.modify i (·.writes bs)))
    (hok : Q (.ok ()) fd (v.modify i (·.writes (frame record))))
    (herr : Faulty allow → ∀ bs err, bs <+: frame record →
      Q (.error err) fd (v.modify i (·.writes bs))) :
    wp allow R (writeRecord (.file i) record) Q fd v := by
  have hhead : ∀ bs, bs <+: Framing.header record.length → bs <+: frame record :=
    fun bs hbs => hbs.trans (List.prefix_append _ _)
  have hbody : ∀ bs, bs <+: record → Framing.header record.length ++ bs <+: frame record :=
    fun bs hbs => (List.prefix_append_right_inj _).mpr hbs
  rw [writeRecord, if_neg h.size_ok, wp_bind]
  refine wp_writeBytes (fun bs hbs => hR bs (hhead bs hbs)) ?_ ?_
  · refine wp_writeBytes ?_ ?_ ?_
    · intro bs hbs
      rw [Vol.modify_writes]
      exact hR _ (hbody bs hbs)
    · rw [Vol.modify_writes]
      exact hok
    · intro hf bs err hbs
      rw [Vol.modify_writes]
      exact herr hf _ err (hbody bs hbs)
  · intro hf bs err hbs
    exact herr hf bs err (hhead bs hbs)

/-- Records are written one after the other. -/
theorem wp_writeRecords {Q : Except String Unit → Descriptor → Vol → Prop}
    (h : ∀ r ∈ records, Wal.Admissible r)
    (hR : ∀ bs, bs <+: frames records → R (v.modify i (·.writes bs)))
    (hok : Q (.ok ()) fd (v.modify i (·.writes (frames records))))
    (herr : Faulty allow → ∀ bs err, bs <+: frames records →
      Q (.error err) fd (v.modify i (·.writes bs))) :
    wp allow R (writeRecords (.file i) records) Q fd v := by
  induction records generalizing v with
  | nil =>
    have hid : v.modify i (·.writes []) = v := v.modify_id i
    rw [Framing.frames_nil, hid] at hok
    exact hok
  | cons r rs ih =>
    rw [List.forall_mem_cons] at h
    rw [Framing.frames_cons] at hR hok herr
    have hfirst : ∀ bs, bs <+: frame r → bs <+: frame r ++ frames rs :=
      fun bs hbs => hbs.trans (List.prefix_append _ _)
    have hlater : ∀ bs, bs <+: frames rs → frame r ++ bs <+: frame r ++ frames rs :=
      fun bs hbs => (List.prefix_append_right_inj _).mpr hbs
    rw [writeRecords, wp_bind]
    refine wp_writeRecord h.1 (fun bs hbs => hR bs (hfirst bs hbs)) ?_ ?_
    · refine ih h.2 ?_ ?_ ?_
      · intro bs hbs
        rw [Vol.modify_writes]
        exact hR _ (hlater bs hbs)
      · rw [Vol.modify_writes]
        exact hok
      · intro hf bs err hbs
        rw [Vol.modify_writes]
        exact herr hf _ err (hlater bs hbs)
    · intro hf bs err hbs
      exact herr hf bs err (hfirst bs hbs)

/-! ## The file under the path -/

/-- The path stands for the file `i`, which holds these records; a power failure
leaves them there, unless there are none. -/
structure Attached (path : String) (v : Vol) (i : Nat) (rs : List Bytes) : Prop where
  named : v.dir (.path path) = some i
  stands : v.inodes[i]? = some (.settled (frames rs))
  fits : ∀ r ∈ rs, Wal.Admissible r
  links : ∀ t ∈ v.past (.path path), t = some i ∨ t = none ∧ rs = []

/-- A power failure does not lose the file. -/
def Durable (path : String) (v : Vol) (i : Nat) : Prop := ∀ t ∈ v.past (.path path), t = some i

theorem Attached.possible {o : Option Bytes} (h : Attached path v i rs)
    (ho : v.Possible (.path path) o) : Wal.Leaves o rs := by
  cases o with
  | none =>
    rcases h.links none ho with hnone | ⟨-, hrs⟩
    · cases hnone
    · exact .inl ⟨rfl, hrs⟩
  | some b =>
    obtain ⟨j, f, hj, hf, hb⟩ := ho
    rcases h.links _ hj with heq | ⟨hnone, -⟩
    · obtain rfl := Option.some.inj heq
      obtain rfl := Option.some.inj (h.stands.symm.trans hf)
      rw [List.mem_singleton.mp hb]
      exact Wal.leaves_frames rs
    · cases hnone

theorem Attached.linked (h : Attached path v i rs) : some i ∈ v.past (.path path) := by
  rw [← h.named]
  exact v.current _

theorem Attached.of_same (h : Attached path v i rs) (hs : v.Same v' (.path path)) :
    Attached path v' i rs := by
  have hnamed : v'.dir (.path path) = some i := hs.dir.trans h.named
  have hlinked : some i ∈ v'.past (.path path) := by
    rw [← hnamed]
    exact v'.current _
  exact ⟨hnamed, (hs.file i hlinked).trans h.stands, h.fits, fun t ht => h.links t (hs.past ht)⟩

/-- Bytes of some more records were written to the file. -/
theorem Attached.possible_writes {o : Option Bytes} {bs : Bytes} (h : Attached path v i rs)
    (hdur : Durable path v i) (hfits : ∀ r ∈ records, Wal.Admissible r) (hbs : bs <+: frames records)
    (ho : (v.modify i (·.writes bs)).Possible (.path path) o) :
    ∃ n, Wal.Leaves o (rs ++ records.take n) := by
  cases o with
  | none => cases hdur none ho
  | some b =>
    obtain ⟨j, f, hj, hf, hb⟩ := ho
    obtain rfl := Option.some.inj (hdur _ hj)
    have hstands : (v.modify j (·.writes bs)).inodes[j]? =
        some ((Inode.settled (frames rs)).writes bs) := by
      simp [Vol.modify, h.stands]
    obtain rfl := Option.some.inj (hstands.symm.trans hf)
    rcases Inode.mem_survivors_writes hb with hold | ⟨cs, hcs, rfl⟩
    · rw [List.mem_singleton.mp hold]
      refine ⟨0, ?_⟩
      rw [List.take_zero, List.append_nil]
      exact Wal.leaves_frames rs
    · exact Wal.leaves_of_prefix hfits (hcs.trans hbs)

/-- What a call may leave to a power failure. -/
structure Reach (path : String) (v : Vol) (P : Option Bytes → Prop) (v' : Vol) : Prop extends
    v.Apart v' path where
  kept : none ∈ v'.past (.path path) → none ∈ v.past (.path path)
  possible : ∀ o, v'.Possible (.path path) o → P o

theorem Reach.of_apart {P : Option Bytes → Prop} {w : Vol} (h : v.Apart v' path)
    (hkept : v'.past = v.past) (hw : Reach path v' P w) : Reach path v P w :=
  ⟨h.trans hw.toApart, fun hnone => hkept ▸ hw.kept hnone, hw.possible⟩

theorem Reach.mono {P P' : Option Bytes → Prop} (h : Reach path v P v') (hP : ∀ o, P o → P' o) :
    Reach path v P' v' := ⟨h.toApart, h.kept, fun o ho => hP o (h.possible o ho)⟩

/-- `AppendBatch`: an acknowledged batch is there, an unfinished one in part. -/
theorem wp_appendBatch (h : Attached path v i rs) (hsep : v.Separate) (hdur : Durable path v i)
    (hfits : ∀ r ∈ records, Wal.Admissible r) :
    wp allow (Reach path v fun o => ∃ n, Wal.Leaves o (rs ++ records.take n))
      (appendBatch path records)
      (fun out fd v' => fd = .file i ∧
        (out = .ok () → v.Apart v' path ∧ Attached path v' i (rs ++ records) ∧ Durable path v' i) ∧
        ∀ err, out = .error err → Faulty allow) (.file i) v := by
  have hreach : ∀ bs, bs <+: frames records →
      Reach path v (fun o => ∃ n, Wal.Leaves o (rs ++ records.take n)) (v.modify i (·.writes bs)) :=
    fun bs hbs => ⟨Vol.apart_modify hsep h.linked _, id, fun o ho =>
      h.possible_writes hdur hfits hbs ho⟩
  rw [appendBatch, wp_ite]
  constructor
  · rintro rfl
    refine ⟨rfl, fun _ => ⟨.refl hsep, ?_, hdur⟩, fun err herr => (by cases herr)⟩
    rwa [List.append_nil]
  · intro _
    rw [wp_bind, wp_read, wp_bind]
    refine wp_writeRecords hfits hreach ?_ ?_
    · -- all records are written; the sync makes them safe
      have hsync : ((v.modify i (·.writes (frames records))).modify i Inode.sync).inodes[i]? =
          some (.settled (frames (rs ++ records))) := by
        simp [Vol.modify, h.stands, Inode.sync, Inode.settled]
      have hdone : Attached path ((v.modify i (·.writes (frames records))).modify i Inode.sync) i
          (rs ++ records) := by
        refine ⟨h.named, hsync, ?_, fun t ht => .inl (hdur t ht)⟩
        intro r hr
        exact (List.mem_append.mp hr).elim (h.fits r) (hfits r)
      have hwritten := Vol.apart_modify hsep h.linked (·.writes (frames records))
      have hlinked : some i ∈ (v.modify i (·.writes (frames records))).past (.path path) := h.linked
      have hapart := hwritten.trans (Vol.apart_modify hwritten.separate hlinked Inode.sync)
      rw [wp_bind]
      refine wp_call rfl (hreach _ (List.prefix_refl _)) ⟨hapart, id, fun o ho => ?_⟩ ?_ ?_
      · refine ⟨records.length, ?_⟩
        rw [List.take_length]
        exact hdone.possible ho
      · exact ⟨rfl, fun _ => ⟨hapart, hdone, hdur⟩, fun err herr => (by cases herr)⟩
      · intro hf err
        exact ⟨⟨rfl, fun hok => (by cases hok), fun _ _ => hf⟩, rfl, fun hok => (by cases hok),
          fun _ _ => hf⟩
    · intro hf bs err _
      exact ⟨rfl, fun hok => (by cases hok), fun _ _ => hf⟩

/-! ## Reading -/

/-- The reads of `Replay` change nothing. -/
theorem wp_replayLoop {Q : Except String (List Bytes × Option Nat) → Descriptor → Vol → Prop}
    {fuel validBytes : Nat} {read : List Bytes} {rest : Bytes} (hR : R v)
    (hpure : Q (Wal.replayLoop path fuel validBytes read rest) fd v)
    (herr : Faulty allow → ∀ err, Q (.error err) fd v) :
    wp allow R (replayLoop path (.file i) fuel validBytes read rest) Q fd v := by
  induction fuel generalizing validBytes read rest with
  | zero => exact hpure
  | succ fuel ih =>
    unfold replayLoop
    unfold Wal.replayLoop at hpure
    rw [wp_bind]
    refine wp_trial hR ?_ fun hf err => herr hf _
    rcases rest with _ | ⟨a, _ | ⟨b, _ | ⟨c, _ | ⟨d, rest⟩⟩⟩⟩
    · exact hpure
    · exact hpure
    · exact hpure
    · exact hpure
    · dsimp only at hpure ⊢
      rw [wp_ite]
      constructor
      · intro hsize
        rw [if_pos hsize] at hpure
        exact hpure
      · intro hsize
        rw [if_neg hsize] at hpure
        rw [wp_bind]
        refine wp_trial hR ?_ fun hf err => herr hf _
        dsimp only
        rw [wp_ite]
        constructor
        · intro hlen
          rw [if_pos hlen] at hpure
          exact hpure
        · intro hlen
          rw [if_neg hlen] at hpure
          exact ih hpure

/-- The file as a power failure leaves it: whole frames and a torn one. -/
structure Found (path : String) (v : Vol) (i : Nat) (rs : List Bytes) (tail : Bytes) : Prop where
  named : v.dir (.path path) = some i
  stands : v.inodes[i]? = some (.settled (frames rs ++ tail))
  fits : ∀ r ∈ rs, Wal.Admissible r
  torn : tail = [] ∨ Framing.Torn Wal.Admissible tail
  links : ∀ t ∈ v.past (.path path), t = some i ∨ t = none ∧ rs = [] ∧ tail = []

theorem Attached.found (h : Attached path v i rs) : Found path v i rs [] :=
  ⟨h.named, by rw [List.append_nil]; exact h.stands, h.fits, .inl rfl, fun t ht =>
    (h.links t ht).imp_right fun hnone => ⟨hnone.1, hnone.2, rfl⟩⟩

theorem Found.linked {tail : Bytes} (h : Found path v i rs tail) :
    some i ∈ v.past (.path path) := by
  rw [← h.named]
  exact v.current _

theorem Found.contents {tail : Bytes} (h : Found path v i rs tail) :
    contents (.file i) v = frames rs ++ tail := by
  simp [WalFile.contents, h.stands, Inode.settled]

theorem Found.replayLoop {tail : Bytes} (h : Found path v i rs tail) :
    Wal.replayLoop path ((WalFile.contents (.file i) v).length + 1) 0 []
      (WalFile.contents (.file i) v) =
      .ok (rs, if tail = [] then none else some (frames rs).length) := by
  have hfuel : rs.length < (frames rs ++ tail).length + 1 := by
    have := Wal.length_le_frames rs
    rw [List.length_append]
    omega
  rw [h.contents, Wal.replayLoop_frames h.fits h.torn hfuel, List.nil_append, Nat.zero_add]

/-- A file that holds, or may be found to hold, the frames and the torn one. -/
theorem Found.reach {tail : Bytes} {f : Inode} {g : Inode → Inode} (h : Found path v i rs tail)
    (hsep : v.Separate) (hf : g (.settled (frames rs ++ tail)) = f)
    (hsurv : ∀ b ∈ f.survivors, b = frames rs ∨ b = frames rs ++ tail) :
    Reach path v (Wal.Leaves · rs) (v.modify i g) := by
  refine ⟨Vol.apart_modify hsep h.linked g, id, ?_⟩
  intro o ho
  cases o with
  | none =>
    rcases h.links none ho with hnone | ⟨-, hrs, -⟩
    · cases hnone
    · exact .inl ⟨rfl, hrs⟩
  | some b =>
    obtain ⟨j, f', hj, hf', hb⟩ := ho
    rcases h.links _ hj with heq | ⟨hnone, -⟩
    · obtain rfl := Option.some.inj heq
      have hstands : (v.modify j g).inodes[j]? = some f := by
        simp [Vol.modify, h.stands, hf]
      obtain rfl := Option.some.inj (hstands.symm.trans hf')
      rcases hsurv b hb with rfl | rfl
      · exact Wal.leaves_frames rs
      · exact .inr ⟨tail, rfl, h.torn⟩
    · cases hnone

/-- `Replay` returns the records and cuts the torn one off. -/
theorem wp_replay {tail : Bytes} (h : Found path v i rs tail) (hsep : v.Separate) :
    wp allow (Reach path v (Wal.Leaves · rs)) (replay path)
      (fun out fd v' => fd = .file i ∧
        (∀ got, out = .ok got → got = rs ∧ v.Apart v' path ∧ Attached path v' i rs ∧
          v'.past = v.past) ∧
        ∀ err, out = .error err → Faulty allow) (.file i) v := by
  have hsettled : ∀ b ∈ (Inode.settled (frames rs ++ tail)).survivors,
      b = frames rs ∨ b = frames rs ++ tail := fun b hb => .inr (List.mem_singleton.mp hb)
  have hR : Reach path v (Wal.Leaves · rs) v := by
    have := @Found.reach path v i rs tail _ id h hsep rfl hsettled
    rwa [v.modify_id i] at this
  have hfail : ∀ {w : Vol} {err : String}, Faulty allow → (Descriptor.file i = .file i ∧
      (∀ got, Except.error err = .ok got → got = rs ∧ v.Apart w path ∧ Attached path w i rs ∧
        w.past = v.past) ∧ ∀ e, (Except.error err : Except String (List Bytes)) = .error e →
      Faulty allow) := fun hf => ⟨rfl, fun _ hok => (by cases hok), fun _ _ => hf⟩
  rw [replay, wp_bind, wp_read, wp_bind]
  refine wp_trial hR ?_ fun hf err => hfail hf
  rw [wp_bind, wp_disk, wp_bind]
  refine wp_replayLoop hR ?_ fun hf err => hfail hf
  rw [h.replayLoop]
  by_cases htail : tail = []
  · subst htail
    rw [if_pos rfl]
    dsimp only
    rw [seekEnd, wp_bind]
    have hattached : Attached path v i rs := by
      refine ⟨h.named, ?_, h.fits, fun t ht => (h.links t ht).imp_right fun hnone =>
        ⟨hnone.1, hnone.2.1⟩⟩
      simpa using h.stands
    refine wp_trial hR ⟨rfl, ?_, fun err herr => (by cases herr)⟩ fun hf err => hfail hf
    intro got hgot
    obtain rfl := Except.ok.inj hgot
    exact ⟨rfl, hR.toApart, hattached, rfl⟩
  · rw [if_neg htail]
    dsimp only
    have hcut : (v.modify i (·.truncate (frames rs).length)).modify i Inode.sync =
        v.modify i fun f => (f.truncate (frames rs).length).sync := v.modify_modify i _ _
    have hR₁ : Reach path v (Wal.Leaves · rs) (v.modify i (·.truncate (frames rs).length)) := by
      refine h.reach hsep rfl ?_
      intro b hb
      rcases List.mem_cons.mp hb with rfl | hb
      · exact .inl List.take_left
      · exact hsettled b hb
    have hfile : ((Inode.settled (frames rs ++ tail)).truncate (frames rs).length).sync =
        .settled (frames rs) := by
      simp [Inode.truncate, Inode.sync, Inode.settled]
    have hR₂ : Reach path v (Wal.Leaves · rs)
        ((v.modify i (·.truncate (frames rs).length)).modify i Inode.sync) := by
      rw [hcut]
      exact h.reach hsep hfile fun b hb => .inl (List.mem_singleton.mp hb)
    have hattached : Attached path
        ((v.modify i (·.truncate (frames rs).length)).modify i Inode.sync) i rs := by
      refine ⟨h.named, ?_, h.fits, fun t ht => (h.links t ht).imp_right fun hnone =>
        ⟨hnone.1, hnone.2.1⟩⟩
      rw [hcut, ← hfile]
      simp [Vol.modify, h.stands]
    rw [wp_bind, truncateLocked, wp_bind]
    refine wp_call rfl hR hR₁ ?_ fun hf err => ⟨hfail hf, hfail hf⟩
    rw [wp_bind]
    refine wp_call rfl hR₁ hR₂ ?_ fun hf err => ⟨hfail hf, hfail hf⟩
    rw [seekEnd, wp_pure, wp_bind]
    refine wp_trial hR₂ ⟨rfl, ?_, fun err herr => (by cases herr)⟩ fun hf err => hfail hf
    intro got hgot
    obtain rfl := Except.ok.inj hgot
    exact ⟨rfl, hR₂.toApart, hattached, rfl⟩

/-- The directory after a `Replay` that finds this tail. -/
def replayed (v : Vol) (i : Nat) (rs : List Bytes) (tail : Bytes) : Vol :=
  if tail = [] then v
  else (v.modify i (·.truncate (frames rs).length)).modify i Inode.sync

theorem run_replay {f : Inode} {tail : Bytes} (hstands : v.inodes[i]? = some f)
    (hcontent : f.content = frames rs ++ tail) (hfits : ∀ r ∈ rs, Wal.Admissible r)
    (htorn : tail = [] ∨ Framing.Torn Wal.Admissible tail) :
    (replay path).run [] (.file i) v = .done (.ok rs) (.file i) (replayed v i rs tail) := by
  refine @run_eq_of_wp _ _ _ (fun _ => False) (fun _ => True) _ _ _ _ _ _ ?_
  have hnone : ¬ Faulty fun _ => False := by
    rintro ⟨_, hf | hf⟩ <;> exact hf.elim
  have hcontents : contents (.file i) v = frames rs ++ tail := by
    simp [contents, hstands, hcontent]
  have hfuel : rs.length < (frames rs ++ tail).length + 1 := by
    have := Wal.length_le_frames rs
    rw [List.length_append]
    omega
  rw [replay, wp_bind, wp_read, wp_bind]
  refine wp_trial trivial ?_ fun hf => absurd hf hnone
  rw [wp_bind, wp_disk, wp_bind]
  refine wp_replayLoop trivial ?_ fun hf => absurd hf hnone
  rw [hcontents, Wal.replayLoop_frames hfits htorn hfuel, List.nil_append, Nat.zero_add]
  by_cases htail : tail = []
  · simp only [if_pos htail, replayed]
    rw [seekEnd, wp_bind]
    exact wp_trial trivial ⟨rfl, rfl, rfl⟩ fun hf => absurd hf hnone
  · simp only [if_neg htail, replayed]
    rw [wp_bind, truncateLocked, wp_bind]
    refine wp_call rfl trivial trivial ?_ fun hf => absurd hf hnone
    rw [wp_bind]
    refine wp_call rfl trivial trivial ?_ fun hf => absurd hf hnone
    rw [wp_pure, seekEnd, wp_bind]
    exact wp_trial trivial ⟨rfl, rfl, rfl⟩ fun hf => absurd hf hnone

/-- A process that was killed leaves bytes that were never synced, and `Replay`
returns the records in them. It syncs the file only when it cuts a torn record
off: a power failure cannot take the records back just when there was one, or when
everything had been synced before. -/
theorem replay_durable_iff {f : Inode} {tail : Bytes} (hlinks : v.past (.path path) = [some i])
    (hstands : v.inodes[i]? = some f) (hcontent : f.content = frames rs ++ tail)
    (hfits : ∀ r ∈ rs, Wal.Admissible r)
    (htorn : tail = [] ∨ Framing.Torn Wal.Admissible tail) :
    ∃ v', (replay path).run [] (.file i) v = .done (.ok rs) (.file i) v' ∧
      ((∀ o, v'.Possible (.path path) o → o = some (frames rs)) ↔
        tail ≠ [] ∨ ∀ b ∈ f.survivors, b = frames rs) := by
  refine ⟨_, run_replay hstands hcontent hfits htorn, ?_⟩
  have hposs : ∀ {w : Vol} {g : Inode}, w.inodes[i]? = some g → w.past = v.past →
      ((∀ o, w.Possible (.path path) o → o = some (frames rs)) ↔
        ∀ b ∈ g.survivors, b = frames rs) := by
    intro w g hg hpast
    have hpast' : w.past (.path path) = [some i] := by rw [hpast, hlinks]
    constructor
    · intro h b hb
      have hi : some i ∈ w.past (.path path) := by
        rw [hpast']
        exact List.mem_singleton.mpr rfl
      exact Option.some.inj (h (some b) ⟨i, g, hi, hg, hb⟩)
    · intro h o ho
      cases o with
      | none =>
        have hnone : none ∈ w.past (.path path) := ho
        rw [hpast'] at hnone
        cases List.mem_singleton.mp hnone
      | some b =>
        obtain ⟨j, g', hj, hg', hb⟩ := ho
        rw [hpast'] at hj
        obtain rfl := Option.some.inj (List.mem_singleton.mp hj)
        obtain rfl := Option.some.inj (hg.symm.trans hg')
        rw [h b hb]
  by_cases htail : tail = []
  · rw [replayed, if_pos htail, hposs hstands rfl]
    simp [htail]
  · have hcut : ((v.modify i (·.truncate (frames rs).length)).modify i Inode.sync).inodes[i]? =
        some (.settled (frames rs)) := by
      simp [Vol.modify, hstands, Inode.truncate, Inode.sync, hcontent]
    rw [replayed, if_neg htail, hposs hcut rfl]
    constructor
    · intro _
      exact .inl htail
    · intro _ b hb
      exact List.mem_singleton.mp hb

/-- The process is killed between the write and the sync of an `AppendBatch`. The
next one is given the record, and then the power fails. -/
theorem replay_durable_iff_killed :
    ∃ v v' : Vol, (appendBatch "wal" [[1]]).run (List.replicate 5 .ok ++ [.crash 0]) (.file 0)
        (Vol.empty.newFile (.path "wal")).syncNames = .crashed v ∧
      (replay "wal").run [] (.file 0) v = .done (.ok [[1]]) (.file 0) v' ∧
      ¬ ∀ o, v'.Possible (.path "wal") o → o = some (frames [[1]]) := by
  obtain ⟨v, hcrash, hlinks, f, hstands, hcontent, hlost⟩ :
      ∃ v, (appendBatch "wal" [[1]]).run (List.replicate 5 .ok ++ [.crash 0]) (.file 0)
          (Vol.empty.newFile (.path "wal")).syncNames = .crashed v ∧
        v.past (.path "wal") = [some 0] ∧ ∃ f, v.inodes[0]? = some f ∧
          f.content = frames [[1]] ++ [] ∧ [] ∈ f.survivors :=
    ⟨_, rfl, rfl, _, rfl, rfl, by decide⟩
  obtain ⟨v', hrun, hiff⟩ :=
    @replay_durable_iff "wal" v 0 [[1]] f [] hlinks hstands hcontent (by decide) (.inl rfl)
  refine ⟨v, v', hcrash, hrun, fun hsafe => ?_⟩
  rcases hiff.mp hsafe with hne | hall
  · exact hne rfl
  · exact absurd (hall [] hlost) (by decide)

/-! ## Opening -/

theorem wp_openFile {Q : Except String Unit → Descriptor → Vol → Prop} (hR : R v)
    (hR' : v.dir (.path path) = none → R (v.newFile (.path path)))
    (hfound : ∀ i, v.dir (.path path) = some i → Q (.ok ()) (.file i) v)
    (hnew : v.dir (.path path) = none →
      Q (.ok ()) (.file v.inodes.length) (v.newFile (.path path)))
    (herr : Faulty allow → ∀ err, Q (.error err) fd v ∧
      (v.dir (.path path) = none → Q (.error err) fd (v.newFile (.path path)))) :
    wp allow R (openFile path) Q fd v := by
  rw [openFile, wp_bind, wp_disk]
  cases hdir : v.dir (.path path) with
  | some i =>
    dsimp only
    rw [wp_bind]
    exact wp_trial hR (hfound i hdir) fun hf err => (herr hf err).1
  | none =>
    dsimp only
    rw [wp_bind]
    exact wp_call rfl hR (hR' hdir) (hnew hdir) fun hf err =>
      ⟨(herr hf err).1, (herr hf err).2 hdir⟩

/-- The path as a power failure leaves it. -/
structure AtRest (path : String) (v : Vol) (rs : List Bytes) : Prop where
  separate : v.Separate
  links : ∀ t ∈ v.past (.path path), t = v.dir (.path path)
  settled : ∀ i, v.dir (.path path) = some i → ∃ b, v.inodes[i]? = some (.settled b)
  leaves : Wal.Leaves (v.read (.path path)) rs
  fits : ∀ r ∈ rs, Wal.Admissible r

theorem atRest_recover (c : Vol.Choice) (hsep : v.Separate)
    (hleaves : Wal.Leaves ((v.recover c).read (.path path)) rs)
    (hfits : ∀ r ∈ rs, Wal.Admissible r) : AtRest path (v.recover c) rs where
  separate := hsep.recover c
  links := fun _ ht => List.mem_singleton.mp ht
  settled := by
    intro i hi
    have hlt : i < (v.recover c).inodes.length := by
      refine (v.recover c).bound (.path path) i ?_
      rw [← hi]
      exact (v.recover c).current _
    have hget := List.getElem?_eq_getElem hlt
    simp only [Vol.recover, List.getElem_mapIdx] at hget
    exact ⟨_, hget⟩
  leaves := hleaves
  fits := hfits

theorem AtRest.found (h : AtRest path v rs) (hi : v.dir (.path path) = some i) :
    ∃ tail, Found path v i rs tail := by
  obtain ⟨b, hb⟩ := h.settled i hi
  have hread : v.read (.path path) = some b := by
    rw [Vol.read, hi, Option.bind_some, hb]
    rfl
  rcases h.leaves with ⟨hnone, -⟩ | ⟨tail, htail, htorn⟩
  · rw [hread] at hnone
    cases hnone
  · obtain rfl := Option.some.inj (hread.symm.trans htail)
    exact ⟨tail, hi, hb, h.fits, htorn, fun t ht => .inl ((h.links t ht).trans hi)⟩

theorem AtRest.nil (h : AtRest path v rs) (hnone : v.dir (.path path) = none) : rs = [] := by
  have hread : v.read (.path path) = none := by
    rw [Vol.read, hnone, Option.bind_none]
  rcases h.leaves with ⟨-, hrs⟩ | ⟨tail, htail, -⟩
  · exact hrs
  · rw [hread] at htail
    cases htail

/-- A new file is not safe before the directory is synced. -/
theorem attached_newFile (hlinks : ∀ t ∈ v.past (.path path), t = none) :
    Attached path (v.newFile (.path path)) v.inodes.length [] where
  named := Function.update_self _ _ _
  stands := by simp [Vol.newFile, Vol.link, Vol.grow, Inode.empty, Inode.settled]
  fits := by simp
  links := by
    intro t ht
    have hpast : (v.newFile (.path path)).past (.path path) =
        some v.inodes.length :: v.past (.path path) := Function.update_self _ _ _
    rw [hpast] at ht
    rcases List.mem_cons.mp ht with rfl | ht
    · exact .inl rfl
    · exact .inr ⟨hlinks t ht, rfl⟩

/-- `NewWAL` on what a power failure left. -/
theorem wp_newWAL (h : AtRest path v rs) :
    wp allow (Reach path v (Wal.Leaves · rs)) (newWAL path)
      (fun out fd v' => (out = .ok () → ∃ i tail, fd = .file i ∧ v.Apart v' path ∧
          Found path v' i rs tail ∧ (v.dir (.path path) ≠ none → Durable path v' i)) ∧
        ∀ err, out = .error err → Faulty allow) fd v := by
  have hR : Reach path v (Wal.Leaves · rs) v := by
    refine ⟨.refl h.separate, id, ?_⟩
    intro o ho
    cases hdir : v.dir (.path path) with
    | some i =>
      obtain ⟨tail, hfound⟩ := h.found hdir
      have hself := @Found.reach path v i rs tail _ id hfound h.separate rfl fun b hb =>
        .inr (List.mem_singleton.mp hb)
      rw [v.modify_id i] at hself
      exact hself.possible o ho
    | none =>
      have hnil := h.nil hdir
      cases o with
      | none => exact .inl ⟨rfl, hnil⟩
      | some b =>
        obtain ⟨j, f, hj, -⟩ := ho
        have := (h.links _ hj).trans hdir
        cases this
  have hnew : v.dir (.path path) = none → Attached path (v.newFile (.path path)) v.inodes.length rs :=
    fun hdir => h.nil hdir ▸ attached_newFile fun t ht => (h.links t ht).trans hdir
  have hR' : v.dir (.path path) = none →
      Reach path v (Wal.Leaves · rs) (v.newFile (.path path)) := fun hdir =>
    ⟨Vol.apart_newFile h.separate, fun _ => hdir ▸ v.current (.path path), fun o ho =>
      (hnew hdir).possible ho⟩
  rw [newWAL, wp_bind]
  refine wp_trial hR ?_ fun hf err => ⟨fun hok => (by cases hok), fun _ _ => hf⟩
  rw [wp_bind]
  refine wp_openFile hR hR' ?_ ?_ fun hf err =>
    ⟨⟨fun hok => (by cases hok), fun _ _ => hf⟩, fun _ => ⟨fun hok => (by cases hok), fun _ _ => hf⟩⟩
  · intro i hi
    obtain ⟨tail, hfound⟩ := h.found hi
    refine ⟨fun _ => ⟨i, tail, rfl, hR.toApart, hfound, fun _ t ht => ?_⟩, fun err herr => (by cases herr)⟩
    exact (h.links t ht).trans hi
  · intro hdir
    refine ⟨fun _ => ⟨_, [], rfl, (hR' hdir).toApart, (hnew hdir).found, fun hne => ?_⟩,
      fun err herr => (by cases herr)⟩
    exact absurd hdir hne

/-! ## Replacing -/

/-- A file to which records are written has them all, or a call failed, or one of
the records cannot be written. -/
theorem wp_writeRecords_draft {tmp : Name} {v₀ : Vol} {f : Inode} (h : Draft v₀ v tmp i f) :
    wp allow (fun v' => ∃ f, Draft v₀ v' tmp i f) (writeRecords (.file i) records)
      (fun out fd' v' => fd' = fd ∧ ∃ f', Draft v₀ v' tmp i f' ∧
        (out = .ok () → f'.content = f.content ++ frames records) ∧
        ∀ err, out = .error err → Faulty allow ∨ ¬ ∀ r ∈ records, Wal.Admissible r) fd v := by
  induction records generalizing v f with
  | nil =>
    refine ⟨rfl, f, h, fun _ => ?_, fun err herr => (by cases herr)⟩
    rw [Framing.frames_nil, List.append_nil]
  | cons r rs ih =>
    rw [writeRecords, wp_bind]
    by_cases hr : Wal.Admissible r
    · refine wp_writeRecord hr (fun bs _ => ⟨_, h.modify _⟩) ?_ ?_
      · refine wp_mono _ _ _ (ih (h.modify (·.writes (frame r)))) ?_ fun _ h => h
        rintro out fd' v' ⟨hfd, f', hd, hok, herr⟩
        refine ⟨hfd, f', hd, fun hout => ?_, fun err hout => (herr err hout).imp_right fun hrest hall => ?_⟩
        · rw [hok hout, Inode.content_writes, Framing.frames_cons, List.append_assoc]
        · exact hrest fun r' hr' => hall r' (List.mem_cons_of_mem _ hr')
      · intro hfault bs err _
        exact ⟨rfl, _, h.modify _, fun hout => (by cases hout), fun _ _ => .inl hfault⟩
    · rw [writeRecord, if_pos (by unfold Wal.Admissible at hr; omega)]
      exact ⟨rfl, f, h, fun hout => (by cases hout),
        fun _ _ => .inr fun hall => hr (hall r List.mem_cons_self)⟩

theorem fills_writeRecords {tmp : Name} {v₀ : Vol} {f : Inode} (h : Draft v₀ v tmp i f)
    (hf : f.content = []) :
    Fills allow (fun _ => ¬ ∀ r ∈ records, Wal.Admissible r) v₀ tmp i (frames records)
      (writeRecords (.file i) records) fd v := by
  refine wp_mono _ _ _ (wp_writeRecords_draft h) ?_ fun _ h => h
  rintro out fd' v' ⟨hfd, f', hd, hok, herr⟩
  refine ⟨hfd, f', hd, fun hout => ?_, herr⟩
  rw [hok hout, hf, List.nil_append]

/-- The file that is open after `Replace`, in the directory that it leaves. -/
structure Switched (allow : Outcome → Prop) (path : String) (v : Vol) (i : Nat)
    (records : List Bytes) (tmp : Name) (out : Except String Unit) (fd : Descriptor) (v' : Vol) :
    Prop where
  tried : Tried v v' (.path path) tmp (frames records)
  ok : out = .ok () → ∃ j, fd = .file j ∧ Renamed v v' (.path path) tmp j (frames records) ∧
    v'.past (.path path) = [some j]
  error : ∀ err, out = .error err → (Faulty allow ∨ ¬ ∀ r ∈ records, Wal.Admissible r) ∧
    (fd = .file i ∨ fd = .closed ∧ ∃ j, Renamed v v' (.path path) tmp j (frames records))

theorem Switched.unlink {tmp : Name} {out : Except String Unit} (hne : tmp ≠ .path path)
    (h : Switched allow path v i records tmp out fd v') :
    Switched allow path v i records tmp out fd (v'.unlink tmp) where
  tried := h.tried.unlink hne
  ok := by
    intro hok
    obtain ⟨j, hfd, hren, hpast⟩ := h.ok hok
    refine ⟨j, hfd, hren.unlink hne, ?_⟩
    rw [← hpast]
    exact Function.update_of_ne hne.symm _ _
  error := by
    intro err herr
    obtain ⟨hf, hfd | ⟨hclosed, j, hren⟩⟩ := h.error err herr
    · exact ⟨hf, .inl hfd⟩
    · exact ⟨hf, .inr ⟨hclosed, j, hren.unlink hne⟩⟩

theorem wp_switchFile {tmp : Name} (h : Replaced v v' (.path path) tmp (frames records)) :
    wp allow (fun w => Tried v w (.path path) tmp (frames records)) (switchFile path dir (.file i))
      (Switched allow path v i records tmp) (.file i) v' := by
  obtain ⟨j, hren, hpast⟩ := h.renamed
  have htried : Tried v v' (.path path) tmp (frames records) := .after j hren
  have hfail : ∀ {fd : Descriptor} {err : String}, Faulty allow → fd = .file i ∨ fd = .closed →
      Switched allow path v i records tmp (.error err) fd v' :=
    fun hf hfd => ⟨htried, fun hok => (by cases hok), fun _ _ =>
      ⟨.inl hf, hfd.imp_right fun hclosed => ⟨hclosed, j, hren⟩⟩⟩
  rw [switchFile, wp_bind]
  refine wp_trial htried ?_ fun hf err => hfail hf (.inl rfl)
  rw [wp_bind, closeFile, wp_bind]
  refine wp_trial htried ?_ fun hf err => hfail hf (.inr rfl)
  rw [wp_bind, wp_modify, wp_pure, wp_bind]
  have hnamed : v'.dir (.path path) ≠ none := by
    rw [hren.named]
    exact Option.some_ne_none _
  refine wp_openFile htried (fun hnone => absurd hnone hnamed) ?_ (fun hnone => absurd hnone hnamed)
    fun hf err => ⟨hfail hf (.inr rfl), fun hnone => absurd hnone hnamed⟩
  intro k hk
  obtain rfl := Option.some.inj (hren.named.symm.trans hk)
  exact ⟨htried, fun _ => ⟨j, rfl, hren, hpast⟩, fun err herr => (by cases herr)⟩

/-- `Replace`, whatever becomes of its calls. -/
theorem wp_replace :
    wp allow (fun w => Tried v w (.path path) (.temp v.temps) (frames records))
      (replace path dir records) (Switched allow path v i records (.temp v.temps)) (.file i) v := by
  have hne : Name.temp v.temps ≠ .path path := by
    intro heq
    cases heq
  have h₀ : Tried v v (.path path) (.temp v.temps) (frames records) := .before (.refl v _)
  have h₁ : Tried v v.created (.path path) (.temp v.temps) (frames records) :=
    .before (v.extends_newFile _)
  have hfill := @fills_writeRecords allow (.file i) v.created v.inodes.length records
    (.temp v.temps) v _ (draft_created v) rfl
  rw [replace, wp_bind, wp_read]
  refine wp_withTemp h₀ h₁ ?_ ?_
  · intro hf err
    exact ⟨⟨h₀, fun hok => (by cases hok), fun _ _ => ⟨.inl hf, .inl rfl⟩⟩, h₁,
      fun hok => (by cases hok), fun _ _ => ⟨.inl hf, .inl rfl⟩⟩
  · rw [wp_bind]
    refine wp_mono _ _ _ (wp_publish hne hfill) ?_ fun _ h => h
    rintro out fd v' ⟨rfl, hfin⟩
    cases out with
    | error err =>
      have hsw : Switched allow path v i records (.temp v.temps) (.error err) (.file i) v' := by
        refine ⟨hfin.tried, fun hok => (by cases hok), fun e he => ⟨?_, .inl rfl⟩⟩
        exact (hfin.error e he).imp_right fun ⟨_, hunfit, _⟩ => hunfit
      have hsw' := hsw.unlink hne
      exact ⟨⟨hsw.tried, hsw⟩, hsw'.tried, hsw'⟩
    | ok u =>
      refine wp_mono _ _ _ (wp_switchFile (hfin.ok rfl)) ?_ fun _ h => h
      intro out fd w hsw
      have hsw' := hsw.unlink hne
      exact ⟨⟨hsw.tried, hsw⟩, hsw'.tried, hsw'⟩

theorem attached_of_renamed {tmp : Name} (h : Renamed v v' (.path path) tmp i (frames records))
    (hpast : v'.past (.path path) = [some i]) (hfits : ∀ r ∈ records, Wal.Admissible r) :
    Attached path v' i records ∧ Durable path v' i := by
  have hdur : Durable path v' i := by
    intro t ht
    rw [hpast] at ht
    exact List.mem_singleton.mp ht
  exact ⟨⟨h.named, h.stands, hfits, fun t ht => .inl (hdur t ht)⟩, hdur⟩

theorem Attached.reach_tried {n : Nat} (h : Attached path v i rs) (hsep : v.Separate)
    (htried : Tried v v' (.path path) (.temp n) (frames records)) :
    Reach path v (fun o => Wal.Leaves o rs ∨ Wal.Leaves o records) v' := by
  have hne : Name.temp n ≠ .path path := by
    intro heq
    cases heq
  refine ⟨htried.apart hsep, fun hnone => ?_, ?_⟩
  · rcases htried.possible hne (o := none) hnone with hold | hnew
    · exact hold
    · cases hnew
  intro o ho
  rcases htried.possible hne ho with hold | rfl
  · exact .inl (h.possible hold)
  · exact .inr (Wal.leaves_frames records)

/-! ## A `Replace` that fails -/

/-- Only the file `i` may have changed. -/
structure OnlyFile (i : Nat) (v v' : Vol) : Prop where
  dir : v'.dir = v.dir
  past : v'.past = v.past
  file : ∀ j, j ≠ i → v'.inodes[j]? = v.inodes[j]?

theorem OnlyFile.refl (i : Nat) (v : Vol) : OnlyFile i v v := ⟨rfl, rfl, fun _ _ => rfl⟩

theorem OnlyFile.modify (h : OnlyFile i v v') (f : Inode → Inode) :
    OnlyFile i v (v'.modify i f) where
  dir := h.dir
  past := h.past
  file := by
    intro j hj
    rw [← h.file j hj]
    exact List.getElem?_modify_ne f v'.inodes hj.symm

theorem wp_call_onlyFile (h : OnlyFile i v v') (f : Inode → Inode) :
    wp allow (OnlyFile i v) (store (Volume.call fun w => .ok (w.modify i f)))
      (fun _ fd' w => fd' = fd ∧ OnlyFile i v w) fd v' :=
  wp_call rfl h (h.modify f) ⟨rfl, h.modify f⟩ fun _ _ => ⟨⟨rfl, h⟩, rfl, h.modify f⟩

theorem wp_write_onlyFile (h : OnlyFile i v v') (chunk : Bytes) :
    wp allow (OnlyFile i v) (write (.file i) chunk) (fun _ fd' w => fd' = fd ∧ OnlyFile i v w) fd
      v' := by
  rw [write]
  exact wp_writeBytes (fun _ _ => h.modify _) ⟨rfl, h.modify _⟩ fun _ _ _ _ => ⟨rfl, h.modify _⟩

theorem wp_writeRecord_onlyFile (h : OnlyFile i v v') (record : Bytes) :
    wp allow (OnlyFile i v) (writeRecord (.file i) record)
      (fun _ fd' w => fd' = fd ∧ OnlyFile i v w) fd v' := by
  rw [writeRecord, wp_ite]
  refine ⟨fun _ => ⟨rfl, h⟩, fun _ => ?_⟩
  rw [wp_bind]
  refine wp_mono _ _ _ (wp_write_onlyFile h _) ?_ fun _ h => h
  rintro out fd' w ⟨rfl, hw⟩
  cases out with
  | error err => exact ⟨rfl, hw⟩
  | ok u => exact wp_write_onlyFile hw record

theorem wp_writeRecords_onlyFile (h : OnlyFile i v v') (records : List Bytes) :
    wp allow (OnlyFile i v) (writeRecords (.file i) records)
      (fun _ fd' w => fd' = fd ∧ OnlyFile i v w) fd v' := by
  induction records generalizing v' with
  | nil => exact ⟨rfl, h⟩
  | cons r rs ih =>
    rw [writeRecords, wp_bind]
    refine wp_mono _ _ _ (wp_writeRecord_onlyFile h r) ?_ fun _ h => h
    rintro out fd' w ⟨rfl, hw⟩
    cases out with
    | error err => exact ⟨rfl, hw⟩
    | ok u => exact ih hw

/-- `AppendBatch` writes to the open file, whatever the path stands for. -/
theorem wp_appendBatch_onlyFile (records : List Bytes) :
    wp allow (OnlyFile i v) (appendBatch path records)
      (fun _ fd w => fd = .file i ∧ OnlyFile i v w) (.file i) v := by
  rw [appendBatch, wp_ite]
  refine ⟨fun _ => ⟨rfl, .refl i v⟩, fun _ => ?_⟩
  rw [wp_bind, wp_read, wp_bind]
  refine wp_mono _ _ _ (wp_writeRecords_onlyFile (.refl i v) records) ?_ fun _ h => h
  rintro out fd' w ⟨rfl, hw⟩
  cases out with
  | error err => exact ⟨rfl, hw⟩
  | ok u =>
    dsimp only
    rw [wp_bind]
    refine wp_mono _ _ _ (wp_call_onlyFile hw Inode.sync) ?_ fun _ h => h
    rintro out fd' w' ⟨rfl, hw'⟩
    cases out with
    | error err => exact ⟨rfl, hw'⟩
    | ok u => exact ⟨rfl, hw'⟩

/-- A closed file takes nothing. -/
theorem wp_appendBatch_closed (records : List Bytes) :
    wp allow (OnlyFile i v) (appendBatch path records)
      (fun _ fd w => fd = .closed ∧ OnlyFile i v w) .closed v := by
  rw [appendBatch, wp_ite]
  refine ⟨fun _ => ⟨rfl, .refl i v⟩, fun hne => ?_⟩
  obtain ⟨r, rs, rfl⟩ := List.exists_cons_of_ne_nil hne
  rw [wp_bind, wp_read, wp_bind, writeRecords, wp_bind, writeRecord, wp_ite]
  exact ⟨fun _ => ⟨rfl, .refl i v⟩, fun _ => ⟨rfl, .refl i v⟩⟩

/-- Calls of `AppendBatch` with what becomes of their system calls; a process that
dies makes no more of them. -/
def appends (path : String) (fd : Descriptor) :
    List (List Bytes × List Outcome) → Vol → List (Except String Unit) × Vol
  | [], v => ([], v)
  | (records, answers) :: calls, v =>
      match (appendBatch path records).run answers fd v with
      | .done out _ v' =>
          let (outs, v'') := appends path fd calls v'
          (out :: outs, v'')
      | .crashed v' => ([], v')

theorem appends_onlyFile (hfd : fd = .file i ∨ fd = .closed)
    (calls : List (List Bytes × List Outcome)) (v : Vol) :
    OnlyFile i v (appends path fd calls v).2 := by
  induction calls generalizing v with
  | nil => exact .refl i v
  | cons call calls ih =>
    obtain ⟨records, answers⟩ := call
    have hwp : wp (fun _ => True) (OnlyFile i v) (appendBatch path records)
        (fun _ _ w => OnlyFile i v w) fd v := by
      rcases hfd with rfl | rfl
      · exact wp_mono _ _ _ (wp_appendBatch_onlyFile records) (fun _ _ _ h => h.2) fun _ h => h
      · exact wp_mono _ _ _ (wp_appendBatch_closed records) (fun _ _ _ h => h.2) fun _ h => h
    have hrun := wp_run _ _ answers fd v (fun _ _ => trivial) hwp
    simp only [appends]
    cases hexit : (appendBatch path records).run answers fd v with
    | crashed v' =>
      rw [hexit] at hrun
      exact hrun
    | done out fd' v' =>
      rw [hexit] at hrun
      have hrest := ih v'
      exact ⟨hrest.dir.trans hrun.dir, hrest.past.trans hrun.past, fun j hj =>
        (hrest.file j hj).trans (hrun.file j hj)⟩

theorem Attached.of_extends {tmp : Name} (h : Attached path v i rs) (hne : tmp ≠ .path path)
    (hext : v.Extends v' (· = tmp)) : Attached path v' i rs where
  named := (hext.dir _ hne.symm).trans h.named
  stands := (hext.file i (v.bound _ i h.linked)).trans h.stands
  fits := h.fits
  links := fun t ht => h.links t (hext.past _ hne.symm ht)

theorem read_appends {tmp : Name} {j : Nat} (h : Attached path v i rs)
    (hren : Renamed v v' (.path path) tmp j (frames records)) (hfd : fd = .file i ∨ fd = .closed)
    (calls : List (List Bytes × List Outcome)) :
    (appends path fd calls v').2.read (.path path) = some (frames records) := by
  have honly := @appends_onlyFile path fd i hfd calls v'
  have hji : j ≠ i := by
    have := v.bound _ i h.linked
    have := hren.fresh
    omega
  rw [Vol.read, honly.dir, hren.named, Option.bind_some, honly.file j hji, hren.stands]
  rfl

/-- After a `Replace` that returned an error, either nothing has changed, or the
path stands for the new file while the old one is still open, or closed: then the
path goes on holding just the new records, whatever later calls of `AppendBatch`
return. -/
theorem failed_replace_detaches {answers : List Outcome} {err : String}
    (h : Attached path v i rs)
    (hrun : (replace path dir records).run answers (.file i) v = .done (.error err) fd v') :
    (fd = .file i ∧ Attached path v' i rs) ∨
      (fd = .file i ∨ fd = .closed) ∧
        ∀ calls, (appends path fd calls v').2.read (.path path) = some (frames records) := by
  have hne : Name.temp v.temps ≠ .path path := by
    intro heq
    cases heq
  have hwp := wp_run (replace path dir records) _ answers (.file i) v (fun _ _ => trivial)
    (@wp_replace path dir (fun _ => True) v i records)
  rw [hrun] at hwp
  obtain ⟨-, hfd⟩ := hwp.error err rfl
  rcases hfd with rfl | ⟨rfl, j, hren⟩
  · cases hwp.tried with
    | before hext => exact .inl ⟨rfl, h.of_extends hne hext⟩
    | after j hren => exact .inr ⟨.inl rfl, fun calls => read_appends h hren (.inl rfl) calls⟩
  · exact .inr ⟨.inr rfl, fun calls => read_appends h hren (.inr rfl) calls⟩

/-- The directory cannot be synced at the end of a `Replace`. The next batch is
acknowledged, and is not in the file that a restart opens. -/
theorem failed_replace_detaches_eio :
    ∃ (fd : Descriptor) (err : String) (v : Vol),
      Attached "wal" (Vol.empty.newFile (.path "wal")) 0 [] ∧
      (replace "wal" "." [[1]]).run (List.replicate 10 .ok ++ [.fail "EIO"]) (.file 0)
        (Vol.empty.newFile (.path "wal")) = .done (.error err) fd v ∧
      (appends "wal" fd [([[2]], [])] v).1 = [.ok ()] ∧
      (appends "wal" fd [([[2]], [])] v).2.read (.path "wal") = some (frames [[1]]) := by
  have hattached : Attached "wal" (Vol.empty.newFile (.path "wal")) 0 [] :=
    attached_newFile fun t ht => List.mem_singleton.mp ht
  have hrun : (replace "wal" "." [[1]]).run (List.replicate 10 .ok ++ [.fail "EIO"]) (.file 0)
      (Vol.empty.newFile (.path "wal")) = .done (.error _) _ _ := rfl
  refine ⟨_, _, _, hattached, hrun, rfl, ?_⟩
  rcases failed_replace_detaches hattached hrun with ⟨-, hsame⟩ | ⟨-, hlost⟩
  · cases hsame.named
  · exact hlost _

end WalFile

end DistributedKv
