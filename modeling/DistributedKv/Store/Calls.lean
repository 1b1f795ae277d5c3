import DistributedKv.Store.Memory

/-!
Sequences of calls on a `MemoryStore` (`internal/store/memory.go`). The map stays
allocated as long as no image decodes to a nil map (`wellFormed_iff`), and the
image of a map restores that map just when the map holds nothing but text
(`image_restores_iff`).
-/

namespace DistributedKv

/-! ## What is assumed of the codec -/

def repairPair (p : Bytes × Bytes) : Bytes × Bytes := (Utf8.repair p.1, Utf8.repair p.2)

/-- Text comes back, and each invalid byte of a string is encoded as U+FFFD. Of
two keys that become one, the later in the order of the map counts. -/
def Json.Repairs (json : Json) : Prop :=
  ∀ m : Contents, json.unmarshal (json.marshal (some m)) =
    .ok (some (.ofPairs (m.pairs.map repairPair)))

theorem repairPair_eq {p : Bytes × Bytes} (h : ValidUTF8 p.1 ∧ ValidUTF8 p.2) :
    repairPair p = p := by
  rw [repairPair, (validUTF8_iff _).mp h.1, (validUTF8_iff _).mp h.2]

theorem Json.Repairs.faithful {json : Json} (h : json.Repairs) : json.Faithful := by
  intro m htext
  have hmap : m.pairs.map repairPair = m.pairs := by
    conv_rhs => rw [← List.map_id m.pairs]
    exact List.map_congr_left fun p hp => repairPair_eq (htext p hp)
  rw [h m, hmap, Contents.ofPairs_pairs]

namespace Json

/-- The literal `null`. -/
def nullLiteral : Bytes := [110, 117, 108, 108]

/-- The codec `framed` on repaired strings, with JSON's own nil map. -/
def repairing : Json where
  marshal
    | none => nullLiteral
    | some m => 1 :: m.pairs.flatMap fun p => frame (Utf8.repair p.1) ++ frame (Utf8.repair p.2)
  unmarshal data :=
    if data = nullLiteral then .ok none
    else
      match data with
      | 1 :: rest => .ok (some (.ofPairs (pairUp (unframe [] rest))))
      | _ => .error "invalid frame"

theorem repairing_repairs : repairing.Repairs := by
  intro m
  have hmap : (m.pairs.flatMap fun p => frame (Utf8.repair p.1) ++ frame (Utf8.repair p.2)) =
      (m.pairs.map repairPair).flatMap fun p => frame p.1 ++ frame p.2 := by
    rw [List.flatMap_map]
    rfl
  have hnull : ∀ rest : Bytes, 1 :: rest ≠ nullLiteral := by
    intro rest heq
    exact absurd (List.cons.inj heq).1 (by decide)
  simp only [repairing, if_neg (hnull _), hmap, pairUp_unframe]

end Json

/-! ## Calls -/

inductive StoreCall where
  | get (key : Bytes)
  | set (key value : Bytes)
  | delete (key : Bytes)
  | snapshot
  | restore (data : Bytes)
  deriving DecidableEq, Repr

/-- `Set` and `Delete`. -/
def StoreCall.Writes : StoreCall → Prop
  | .set _ _ => True
  | .delete _ => True
  | _ => False

namespace MemoryStore

variable {maxLength : Int} (json : Json)

/-- What a call returns, and the store that it leaves. -/
def call : StoreCall → MemoryStore maxLength → Except String Bytes × MemoryStore maxLength
  | .get key, s => (s.get key, s)
  | .set key value, s =>
      match s.set key value with
      | .error err => (.error err, s)
      | .ok s' => (.ok [], s')
  | .delete key, s => (.ok [], s.delete key)
  | .snapshot, s => (s.snapshot json, s)
  | .restore data, s =>
      match restore json maxLength data with
      | .error err => (.error err, s)
      | .ok s' => (.ok [], s')

/-- The store after a sequence of calls. -/
def calls (cs : List StoreCall) (s : MemoryStore maxLength) : MemoryStore maxLength :=
  cs.foldl (fun s c => (call json c s).2) s

/-- The map is allocated, no key in it is empty and no value too long; so `Set`
refuses only what it checks. -/
structure WellFormed (s : MemoryStore maxLength) : Prop where
  allocated : s.data ≠ none
  pairs : ∀ m, s.data = some m → ∀ p ∈ m.pairs, p.1 ≠ [] ∧ (p.2.length : Int) ≤ maxLength
  assigns : ∀ key value, key ≠ [] → (value.length : Int) ≤ maxLength →
    ∃ s', s.set key value = .ok s'

variable {json} {s s' : MemoryStore maxLength}

theorem wellFormed_of_allocated (h : s.data ≠ none) : s.WellFormed where
  allocated := h
  pairs := s.pairOk
  assigns := fun key value hkey hval => by
    obtain ⟨s', hs', -⟩ := set_ok hkey hval h
    exact ⟨s', hs'⟩

theorem call_error {c : StoreCall} {err : String} (h : (call json c s).1 = .error err) :
    (call json c s).2 = s := by
  cases c with
  | get key => rfl
  | set key value =>
    cases heq : s.set key value with
    | error err' => simp only [call, heq]
    | ok s' => simp [call, heq] at h
  | delete key => cases h
  | snapshot => rfl
  | restore data =>
    cases heq : restore json maxLength data with
    | error err' => simp only [call, heq]
    | ok s' => simp [call, heq] at h

/-- A restored store is what the image decodes to. -/
theorem restore_data {data : Bytes} (h : restore json maxLength data = .ok s) :
    json.unmarshal data = .ok s.data := by
  unfold restore at h
  split at h
  · cases h
  · rename_i heq
    obtain rfl := Except.ok.inj h
    exact heq
  · rename_i heq
    split at h
    · cases h
    · obtain rfl := Except.ok.inj h
      exact heq

theorem restore_nil {data : Bytes} (h : json.unmarshal data = .ok none) :
    restore json maxLength data = .ok ⟨none, by simp⟩ := by
  unfold restore
  rw [h]

theorem set_allocated {key value : Bytes} (h : s.set key value = .ok s') : s'.data ≠ none := by
  unfold set at h
  split at h
  · cases h
  split at h
  · cases h
  split at h
  · cases h
  · obtain rfl := Except.ok.inj h
    exact Option.some_ne_none _

/-- Only a nil image takes the map away. -/
theorem call_allocated {c : StoreCall}
    (hc : ∀ data, c = .restore data → json.unmarshal data ≠ .ok none) (h : s.data ≠ none) :
    (call json c s).2.data ≠ none := by
  cases c with
  | get key => exact h
  | set key value =>
    cases heq : s.set key value with
    | error err => simpa only [call, heq] using h
    | ok s' => simpa only [call, heq] using set_allocated heq
  | delete key =>
    intro hnone
    exact h (Option.map_eq_none_iff.mp hnone)
  | snapshot => exact h
  | restore data =>
    cases heq : restore json maxLength data with
    | error err => simpa only [call, heq] using h
    | ok s' =>
      simp only [call, heq]
      intro hnone
      have hdecode := restore_data heq
      rw [hnone] at hdecode
      exact hc data rfl hdecode

theorem calls_allocated {cs : List StoreCall}
    (hcs : ∀ data, .restore data ∈ cs → json.unmarshal data ≠ .ok none) (h : s.data ≠ none) :
    (calls json cs s).data ≠ none := by
  induction cs generalizing s with
  | nil => exact h
  | cons c cs ih =>
    refine ih (fun data hdata => hcs data (List.mem_cons_of_mem c hdata)) ?_
    refine call_allocated (fun data hc => ?_) h
    exact hcs data (hc ▸ List.mem_cons_self)

/-- From `NewMemoryStore` on, every store is well formed and every failed call
leaves the map alone, just when no image given to `Restore` decodes to a nil map. -/
theorem wellFormed_iff (json : Json) (maxLength : Int) (cs : List StoreCall) :
    ((∀ done, done <+: cs → (calls json done (new maxLength)).WellFormed) ∧
      ∀ done c err, done ++ [c] <+: cs →
        (call json c (calls json done (new maxLength))).1 = .error err →
        (call json c (calls json done (new maxLength))).2 = calls json done (new maxLength)) ↔
    ∀ data, .restore data ∈ cs → json.unmarshal data ≠ .ok none := by
  constructor
  · rintro ⟨hform, -⟩ data hmem hnil
    obtain ⟨done, rest, rfl⟩ := List.append_of_mem hmem
    have hpre : done ++ [.restore data] <+: done ++ .restore data :: rest := ⟨rest, by simp⟩
    refine (hform _ hpre).allocated ?_
    rw [calls, List.foldl_append, List.foldl_cons, List.foldl_nil, call, restore_nil hnil]
  · intro hcs
    refine ⟨fun done hpre => ?_, fun done c err _ herr => call_error herr⟩
    refine wellFormed_of_allocated (calls_allocated (fun data hmem => ?_) nofun)
    exact hcs data (hpre.subset hmem)

/-- After `Restore` of the literal `null`, the next `Set` panics. -/
theorem restore_null_breaks :
    Json.repairing.unmarshal Json.nullLiteral = .ok none ∧
    (call .repairing (.restore Json.nullLiteral) (new 8)).1 = .ok [] ∧
    (calls .repairing [.restore Json.nullLiteral] (new 8)).data = none ∧
    (call .repairing (.set [107] [118]) (calls .repairing [.restore Json.nullLiteral] (new 8))).1 =
      .error "assignment to entry in nil map" :=
  ⟨rfl, rfl, rfl, rfl⟩

/-! ## Images -/

variable (json) in
/-- The image of the store can be restored, on any store with the same limit,
and gives the same map. -/
def RoundTrips (s : MemoryStore maxLength) : Prop :=
  ∃ data, (call json .snapshot s).1 = .ok data ∧ ∀ t : MemoryStore maxLength,
    (call json (.restore data) t).1 = .ok [] ∧ (call json (.restore data) t).2.data = s.data

theorem roundTrips_of_textual (hjson : json.Repairs) (h : s.Textual) : s.RoundTrips json := by
  refine ⟨json.marshal s.data, rfl, fun t => ?_⟩
  simp only [call, h.restore hjson.faithful, and_self]

/-- All that comes out of an image is text. -/
theorem textual_of_roundTrips (hjson : json.Repairs) {m : Contents} (hm : s.data = some m)
    (h : s.RoundTrips json) : s.Textual := by
  obtain ⟨data, hdata, hall⟩ := h
  obtain rfl := Except.ok.inj hdata
  obtain ⟨hok, hsame⟩ := hall s
  have hdecoded : some (Contents.ofPairs (m.pairs.map repairPair)) = some m := by
    cases hrest : restore json maxLength (json.marshal s.data) with
    | error err => simp [call, hrest] at hok
    | ok s' =>
      simp only [call, hrest] at hsame
      have hdecode := restore_data hrest
      rw [hm, hjson m] at hdecode
      rw [Except.ok.inj hdecode, hsame, hm]
  refine ⟨m, hm, fun p hp => ?_⟩
  rw [← Option.some.inj hdecoded] at hp
  obtain ⟨q, -, rfl⟩ := List.mem_map.mp (Contents.mem_ofPairs hp)
  exact ⟨validUTF8_repair q.1, validUTF8_repair q.2⟩

theorem calls_writes_allocated {cs : List StoreCall} (hcs : ∀ c ∈ cs, c.Writes)
    (h : s.data ≠ none) : (calls json cs s).data ≠ none :=
  calls_allocated (fun data hmem => (hcs (.restore data) hmem).elim) h

/-- After any sequence of writes to a new store, its image restores its map just
when every key and every value in it is valid UTF-8. -/
theorem image_restores_iff {json : Json} (hjson : json.Repairs) {cs : List StoreCall}
    (hcs : ∀ c ∈ cs, c.Writes) :
    (calls json cs (new maxLength)).RoundTrips json ↔
      ∀ m, (calls json cs (new maxLength)).data = some m →
        ∀ p ∈ m.pairs, ValidUTF8 p.1 ∧ ValidUTF8 p.2 := by
  obtain ⟨m, hm⟩ := Option.ne_none_iff_exists'.mp
    (@calls_writes_allocated _ json (new maxLength) cs hcs nofun)
  constructor
  · intro h m' hm' p hp
    obtain ⟨m'', hm'', htext⟩ := textual_of_roundTrips hjson hm h
    obtain rfl := Option.some.inj (hm'.symm.trans hm'')
    exact htext p hp
  · intro h
    exact roundTrips_of_textual hjson ⟨m, hm, h m hm⟩

/-- Two writes of text, one of them taken back. -/
theorem image_restores_text :
    (calls .repairing [.set [107] [97], .set [106] [98], .delete [107]] (new 8)).RoundTrips
      .repairing := by
  refine (image_restores_iff Json.repairing_repairs ?_).mpr fun m hm p hp => ?_
  · simp [StoreCall.Writes]
  · obtain rfl : (⟨[([106], [98])], by simp⟩ : Contents) = m := Option.some.inj hm
    obtain rfl := List.mem_singleton.mp hp
    exact ⟨(validUTF8_iff _).mpr (by decide), (validUTF8_iff _).mpr (by decide)⟩

/-- A key that is not text comes back as another key, and a value that is not
text may come back too long to be restored at all. -/
theorem image_of_bytes_differs :
    Json.repairing.Repairs ∧
    ¬ (calls .repairing [.set [0xFF] [97]] (new 8)).RoundTrips .repairing ∧
    (∃ data, (call .repairing .snapshot (calls .repairing [.set [0xFF] [97]] (new 8))).1 = .ok data ∧
      (call .repairing (.restore data) (new 8)).2.data.map Contents.pairs =
        some [([0xEF, 0xBF, 0xBD], [97])]) ∧
    ¬ (calls .repairing [.set [107] [0xFF, 0xFF, 0xFF]] (new 8)).RoundTrips .repairing ∧
    ∃ data, (call .repairing .snapshot
        (calls .repairing [.set [107] [0xFF, 0xFF, 0xFF]] (new 8))).1 = .ok data ∧
      ∃ err, (call .repairing (.restore data) (new 8)).1 = .error err := by
  refine ⟨Json.repairing_repairs, ?_, ⟨_, rfl, rfl⟩, ?_, _, rfl, _, rfl⟩
  · rintro ⟨data, hdata, hall⟩
    obtain rfl := Except.ok.inj hdata
    exact absurd (hall (new 8)).2 (by decide)
  · rintro ⟨data, hdata, hall⟩
    obtain rfl := Except.ok.inj hdata
    cases (hall (new 8)).1

end MemoryStore

end DistributedKv
