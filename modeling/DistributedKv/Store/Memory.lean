import DistributedKv.Lib.Utf8
import DistributedKv.Raft.Node

/-!
The key-value store (`internal/store/memory.go`) and its adapter to Raft
(`storeApplier` of `internal/node/node.go`). A store carries the proof that it
has no empty key and no value above its limit. `encoding/json` is a parameter:
all that is assumed of it is that maps of valid UTF-8 strings come back
(`Json.Faithful`).
-/

namespace DistributedKv

/-- A map from strings to strings, as the list of its pairs in the order of the keys. -/
structure Contents where
  pairs : List (Bytes × Bytes)
  sorted : pairs.Pairwise fun p q => p.1 < q.1
  deriving DecidableEq, Repr

theorem Contents.ext {m m' : Contents} (h : m.pairs = m'.pairs) : m = m' := by
  cases m
  cases m'
  cases h
  rfl

theorem bytes_lt_trans {a b c : Bytes} (h : a < b) (h' : b < c) : a < c := List.lt_trans h h'

theorem bytes_lt_irrefl (a : Bytes) : ¬ a < a := List.lt_irrefl a

namespace Contents

def empty : Contents := ⟨[], .nil⟩

def get (m : Contents) (key : Bytes) : Option Bytes := (m.pairs.find? (·.1 = key)).map Prod.snd

/-- The pairs below and above the key stay where they are. -/
def set (m : Contents) (key value : Bytes) : Contents where
  pairs := m.pairs.filter (·.1 < key) ++ (key, value) :: m.pairs.filter (key < ·.1)
  sorted := by
    rw [List.pairwise_append, List.pairwise_cons]
    refine ⟨m.sorted.filter _, ⟨fun q hq => ?_, m.sorted.filter _⟩, fun p hp q hq => ?_⟩
    · exact of_decide_eq_true (List.mem_filter.mp hq).2
    · have hlt : p.1 < key := of_decide_eq_true (List.mem_filter.mp hp).2
      rcases List.mem_cons.mp hq with rfl | hq
      · exact hlt
      · exact bytes_lt_trans hlt (of_decide_eq_true (List.mem_filter.mp hq).2)

def delete (m : Contents) (key : Bytes) : Contents where
  pairs := m.pairs.filter (·.1 ≠ key)
  sorted := m.sorted.filter _

theorem mem_set {m : Contents} {key value : Bytes} {p : Bytes × Bytes}
    (h : p ∈ (m.set key value).pairs) : p = (key, value) ∨ p ∈ m.pairs := by
  rcases List.mem_append.mp h with h | h
  · exact .inr (List.mem_filter.mp h).1
  · rcases List.mem_cons.mp h with rfl | h
    · exact .inl rfl
    · exact .inr (List.mem_filter.mp h).1

theorem mem_delete {m : Contents} {key : Bytes} {p : Bytes × Bytes}
    (h : p ∈ (m.delete key).pairs) : p ∈ m.pairs := (List.mem_filter.mp h).1

/-- Keys are unique, so looking one up is membership. -/
theorem get_eq_some_iff {m : Contents} {key value : Bytes} :
    m.get key = some value ↔ (key, value) ∈ m.pairs := by
  have hunique : ∀ p ∈ m.pairs, ∀ q ∈ m.pairs, p.1 = q.1 → p = q := by
    intro p hp q hq heq
    by_contra hne
    have hlt : p.1 < q.1 ∨ q.1 < p.1 := by
      obtain ⟨i, hi, rfl⟩ := List.mem_iff_getElem.mp hp
      obtain ⟨j, hj, rfl⟩ := List.mem_iff_getElem.mp hq
      rcases Nat.lt_trichotomy i j with hij | rfl | hij
      · exact .inl (List.pairwise_iff_getElem.mp m.sorted i j hi hj hij)
      · exact absurd rfl hne
      · exact .inr (List.pairwise_iff_getElem.mp m.sorted j i hj hi hij)
    rw [heq] at hlt
    exact bytes_lt_irrefl q.1 (hlt.elim id id)
  unfold get
  rw [Option.map_eq_some_iff]
  constructor
  · rintro ⟨p, hp, rfl⟩
    have hkey : p.1 = key := by simpa using List.find?_some hp
    rw [← hkey]
    exact List.mem_of_find?_eq_some hp
  · intro hmem
    have hsome : (m.pairs.find? (·.1 = key)).isSome := by
      rw [List.find?_isSome]
      exact ⟨_, hmem, decide_eq_true rfl⟩
    obtain ⟨p, hp⟩ := Option.isSome_iff_exists.mp hsome
    have hkey : p.1 = key := by simpa using List.find?_some hp
    have hpair := hunique p (List.mem_of_find?_eq_some hp) _ hmem hkey
    exact ⟨p, hp, congrArg Prod.snd hpair⟩

theorem mem_set_iff {m : Contents} {key value : Bytes} {p : Bytes × Bytes} :
    p ∈ (m.set key value).pairs ↔ p = (key, value) ∨ p.1 ≠ key ∧ p ∈ m.pairs := by
  constructor
  · intro h
    rcases List.mem_append.mp h with h | h
    · have hlt : p.1 < key := of_decide_eq_true (List.mem_filter.mp h).2
      refine .inr ⟨?_, (List.mem_filter.mp h).1⟩
      intro heq
      exact bytes_lt_irrefl key (heq ▸ hlt)
    · rcases List.mem_cons.mp h with rfl | h
      · exact .inl rfl
      · have hlt : key < p.1 := of_decide_eq_true (List.mem_filter.mp h).2
        refine .inr ⟨?_, (List.mem_filter.mp h).1⟩
        intro heq
        exact bytes_lt_irrefl key (heq ▸ hlt)
  · rintro (rfl | ⟨hne, hp⟩)
    · exact List.mem_append_right _ List.mem_cons_self
    · rcases Std.lt_trichotomy p.1 key with hlt | heq | hlt
      · exact List.mem_append_left _ (List.mem_filter.mpr ⟨hp, decide_eq_true hlt⟩)
      · exact absurd heq hne
      · exact List.mem_append_right _
          (List.mem_cons_of_mem _ (List.mem_filter.mpr ⟨hp, decide_eq_true hlt⟩))

theorem get_set (m : Contents) (key value key' : Bytes) :
    (m.set key value).get key' = if key = key' then some value else m.get key' := by
  apply Option.ext
  intro v
  rw [get_eq_some_iff, mem_set_iff]
  split
  · rename_i heq
    subst heq
    simp [eq_comm]
  · rename_i hne
    rw [get_eq_some_iff]
    simp [Ne.symm hne]

theorem get_delete (m : Contents) (key key' : Bytes) :
    (m.delete key).get key' = if key = key' then none else m.get key' := by
  apply Option.ext
  intro v
  rw [get_eq_some_iff]
  change (key', v) ∈ m.pairs.filter (·.1 ≠ key) ↔ _
  rw [List.mem_filter, decide_eq_true_eq]
  split
  · rename_i heq
    simp [heq]
  · rename_i hne
    rw [get_eq_some_iff]
    simp [Ne.symm hne]

/-- Setting a key above all others puts it at the end. -/
theorem set_last {m : Contents} {key value : Bytes} (h : ∀ p ∈ m.pairs, p.1 < key) :
    (m.set key value).pairs = m.pairs ++ [(key, value)] := by
  have hlow : m.pairs.filter (·.1 < key) = m.pairs :=
    List.filter_eq_self.mpr fun p hp => decide_eq_true (h p hp)
  have hhigh : m.pairs.filter (key < ·.1) = [] := by
    refine List.filter_eq_nil_iff.mpr fun p hp hlt => ?_
    exact bytes_lt_irrefl p.1 (bytes_lt_trans (h p hp) (of_decide_eq_true hlt))
  change m.pairs.filter (·.1 < key) ++ (key, value) :: m.pairs.filter (key < ·.1) = _
  rw [hlow, hhigh]

/-- The map that a list of pairs describes; of two pairs with one key, the later counts. -/
def ofPairs (ps : List (Bytes × Bytes)) : Contents := ps.foldl (fun m p => m.set p.1 p.2) empty

theorem foldl_set {m : Contents} {ps : List (Bytes × Bytes)}
    (h : (m.pairs ++ ps).Pairwise fun p q => p.1 < q.1) :
    (ps.foldl (fun m p => m.set p.1 p.2) m).pairs = m.pairs ++ ps := by
  induction ps generalizing m with
  | nil => simp
  | cons p ps ih =>
    have hlow : ∀ q ∈ m.pairs, q.1 < p.1 := fun q hq =>
      (List.pairwise_append.mp h).2.2 q hq p List.mem_cons_self
    have hset : (m.set p.1 p.2).pairs = m.pairs ++ [p] := set_last hlow
    rw [List.foldl_cons, ih (by rwa [hset, List.append_assoc]), hset, List.append_assoc]
    rfl

theorem mem_foldl_set {m : Contents} {ps : List (Bytes × Bytes)} {p : Bytes × Bytes}
    (h : p ∈ (ps.foldl (fun m p => m.set p.1 p.2) m).pairs) : p ∈ m.pairs ∨ p ∈ ps := by
  induction ps generalizing m with
  | nil => exact .inl h
  | cons q ps ih =>
    rcases ih h with hm | hps
    · rcases mem_set hm with rfl | hm
      · exact .inr List.mem_cons_self
      · exact .inl hm
    · exact .inr (List.mem_cons_of_mem q hps)

theorem mem_ofPairs {ps : List (Bytes × Bytes)} {p : Bytes × Bytes}
    (h : p ∈ (ofPairs ps).pairs) : p ∈ ps :=
  (mem_foldl_set h).resolve_left List.not_mem_nil

theorem ofPairs_pairs (m : Contents) : ofPairs m.pairs = m := by
  have hsorted : (empty.pairs ++ m.pairs).Pairwise fun p q => p.1 < q.1 := m.sorted
  exact Contents.ext (foldl_set hsorted)

end Contents

/-- What `Restore` checks of a decoded pair. -/
def PairOk (maxLength : Int) (p : Bytes × Bytes) : Prop :=
  p.1 ≠ [] ∧ (p.2.length : Int) ≤ maxLength

instance (maxLength : Int) (p : Bytes × Bytes) : Decidable (PairOk maxLength p) :=
  inferInstanceAs (Decidable (_ ∧ _))

/-- A store made by `NewMemoryStore(maxLength)`; `none` is Go's nil map. -/
structure MemoryStore (maxLength : Int) where
  data : Option Contents
  pairOk : ∀ m, data = some m → ∀ p ∈ m.pairs, PairOk maxLength p

/-- `encoding/json` on string maps. The literal `null` decodes to a nil map. -/
structure Json where
  marshal : Option Contents → Bytes
  unmarshal : Bytes → Except String (Option Contents)

namespace Json

/-! ### A codec with the assumed property -/

/-- Every byte is announced by a one; a zero ends a string. -/
def frame (b : Bytes) : Bytes := b.flatMap (fun x => [1, x]) ++ [0]

/-- Read strings until the frames end; `acc` is the current string so far. -/
def unframe (acc : Bytes) : Bytes → List Bytes
  | 0 :: rest => acc :: unframe [] rest
  | 1 :: x :: rest => unframe (acc ++ [x]) rest
  | _ => []

theorem unframe_frame (acc b rest : Bytes) :
    unframe acc (frame b ++ rest) = (acc ++ b) :: unframe [] rest := by
  induction b generalizing acc with
  | nil => simp [frame, unframe]
  | cons x b ih =>
    have : frame (x :: b) ++ rest = 1 :: x :: (frame b ++ rest) := by simp [frame]
    rw [this, unframe, ih, List.append_assoc, List.singleton_append]

def pairUp : List Bytes → List (Bytes × Bytes)
  | key :: value :: rest => (key, value) :: pairUp rest
  | _ => []

theorem pairUp_unframe (ps : List (Bytes × Bytes)) :
    pairUp (unframe [] (ps.flatMap fun p => frame p.1 ++ frame p.2)) = ps := by
  induction ps with
  | nil => rfl
  | cons p ps ih =>
    rw [List.flatMap_cons, List.append_assoc, unframe_frame, unframe_frame, List.nil_append,
      List.nil_append, pairUp, ih]

/-- A lossless codec: strings in frames, behind a byte that tells a map from nil. -/
def framed : Json where
  marshal
    | none => [0]
    | some m => 1 :: m.pairs.flatMap fun p => frame p.1 ++ frame p.2
  unmarshal
    | [0] => .ok none
    | 1 :: rest => .ok (some (.ofPairs (pairUp (unframe [] rest))))
    | _ => .error "invalid frame"

theorem framed_unmarshal (data : Option Contents) :
    framed.unmarshal (framed.marshal data) = .ok data := by
  cases data with
  | none => rfl
  | some m =>
    change Except.ok (some (Contents.ofPairs (pairUp (unframe [] _)))) = _
    rw [pairUp_unframe, Contents.ofPairs_pairs]

end Json

/-- The bytes are the encoding of some text. -/
def ValidUTF8 (b : Bytes) : Prop := ∃ s : String, b = s.toUTF8.toList

theorem validUTF8_iff (b : Bytes) : ValidUTF8 b ↔ Utf8.repair b = b := by
  rw [Utf8.repair_eq_self_iff]
  constructor
  · rintro ⟨s, rfl⟩
    exact ⟨s.toList, Utf8.toUTF8_toList s⟩
  · rintro ⟨cs, rfl⟩
    exact ⟨String.ofList cs, by rw [Utf8.toUTF8_toList, String.toList_ofList]⟩

theorem validUTF8_repair (b : Bytes) : ValidUTF8 (Utf8.repair b) := by
  obtain ⟨cs, hcs⟩ := Utf8.exists_encode_repair b
  rw [validUTF8_iff, hcs, Utf8.repair_encode]

/-- A map of valid UTF-8 strings is decoded to itself. -/
def Json.Faithful (json : Json) : Prop :=
  ∀ m : Contents, (∀ p ∈ m.pairs, ValidUTF8 p.1 ∧ ValidUTF8 p.2) →
    json.unmarshal (json.marshal (some m)) = .ok (some m)

theorem Json.framed_faithful : framed.Faithful := fun m _ => framed_unmarshal (some m)

namespace MemoryStore

variable {maxLength : Int} (json : Json)

def new (maxLength : Int) : MemoryStore maxLength where
  data := some .empty
  pairOk m hm p hp := by
    obtain rfl := Option.some.inj hm
    cases hp

def get (s : MemoryStore maxLength) (key : Bytes) : Except String Bytes :=
  match s.data.bind (·.get key) with
  | none => .error s!"key {Utf8.quote key} not found"
  | some value => .ok value

/-- Writing to a nil map panics; the error stands for that. -/
def set (s : MemoryStore maxLength) (key value : Bytes) : Except String (MemoryStore maxLength) :=
  if hkey : key = [] then .error "key cannot be empty"
  else if hval : (value.length : Int) > maxLength then
    .error s!"value cannot be greater than {maxLength}"
  else match hdata : s.data with
    | none => .error "assignment to entry in nil map"
    | some m => .ok
        { data := some (m.set key value)
          pairOk := fun m' hm p hp => by
            obtain rfl := Option.some.inj hm
            rcases Contents.mem_set hp with rfl | hp
            · exact ⟨hkey, Int.not_lt.mp hval⟩
            · exact s.pairOk m hdata p hp }

def delete (s : MemoryStore maxLength) (key : Bytes) : MemoryStore maxLength where
  data := s.data.map (·.delete key)
  pairOk m' hm p hp := by
    obtain ⟨m, hdata, rfl⟩ := Option.map_eq_some_iff.mp hm
    exact s.pairOk m hdata p (Contents.mem_delete hp)

def snapshot (s : MemoryStore maxLength) : Except String Bytes := .ok (json.marshal s.data)

/-- The first of the decoded pairs that `Restore` refuses, with its message. The
source ranges over the map, in no fixed order. -/
def checkPairs (maxLength : Int) : List (Bytes × Bytes) → Except String Unit
  | [] => .ok ()
  | p :: ps =>
      if p.1 = [] then .error "snapshot contains an empty key"
      else if (p.2.length : Int) > maxLength then
        .error s!"snapshot value for key {Utf8.quote p.1} exceeds maximum length {maxLength}"
      else checkPairs maxLength ps

theorem checkPairs_ok_iff (ps : List (Bytes × Bytes)) :
    checkPairs maxLength ps = .ok () ↔ ∀ p ∈ ps, PairOk maxLength p := by
  induction ps with
  | nil => simp [checkPairs]
  | cons p ps ih =>
    rw [List.forall_mem_cons]
    unfold checkPairs PairOk
    by_cases hkey : p.1 = []
    · simp [hkey]
    · by_cases hval : (p.2.length : Int) > maxLength
      · simp [hkey, hval, Int.not_le.mpr hval]
      · simp [hkey, hval, ih, Int.not_lt.mp hval, PairOk]

def restore (maxLength : Int) (data : Bytes) : Except String (MemoryStore maxLength) :=
  match json.unmarshal data with
  | .error err => .error s!"decode memory store snapshot: {err}"
  | .ok none => .ok ⟨none, by simp⟩
  | .ok (some m) =>
      match hcheck : checkPairs maxLength m.pairs with
      | .error err => .error err
      | .ok () => .ok
          { data := some m
            pairOk := fun m' hm p hp => by
              obtain rfl := Option.some.inj hm
              exact (checkPairs_ok_iff _).mp hcheck p hp }

theorem restore_marshal (s : MemoryStore maxLength)
    (h : json.unmarshal (json.marshal s.data) = .ok s.data) :
    restore json maxLength (json.marshal s.data) = .ok s := by
  obtain ⟨data, hok⟩ := s
  unfold restore
  rw [h]
  cases data with
  | none => rfl
  | some m =>
    dsimp only
    split
    · rename_i err hcheck
      rw [(checkPairs_ok_iff _).mpr (hok m rfl)] at hcheck
      cases hcheck
    · rfl

/-- `storeApplier.Apply` -/
def apply (entry : LogEntry) (s : MemoryStore maxLength) : Except String (MemoryStore maxLength) :=
  match entry.operation with
  | .noop => .ok s
  | .set => s.set entry.key entry.value
  | .delete => .ok (s.delete entry.key)
  | .other name => .error s!"apply unknown Raft operation {repr name}"

def snapshotter (maxLength : Int) : Snapshotter (MemoryStore maxLength) :=
  ⟨snapshot json, restore json maxLength⟩

end MemoryStore

/-! ## Text -/

variable {maxLength : Int}

/-- An entry that the store applies in every state. -/
def LogEntry.Harmless (maxLength : Int) (e : LogEntry) : Prop :=
  match e.operation with
  | .noop => True
  | .set => e.key ≠ [] ∧ ValidUTF8 e.key ∧ ValidUTF8 e.value ∧ (e.value.length : Int) ≤ maxLength
  | .delete => True
  | .other _ => False

namespace MemoryStore

/-- A map of text, not a nil one. -/
def Textual (s : MemoryStore maxLength) : Prop :=
  ∃ m, s.data = some m ∧ ∀ p ∈ m.pairs, ValidUTF8 p.1 ∧ ValidUTF8 p.2

theorem textual_new : (new maxLength).Textual := ⟨.empty, rfl, by simp [Contents.empty]⟩

theorem Textual.data_ne {s : MemoryStore maxLength} (h : s.Textual) : s.data ≠ none := by
  obtain ⟨m, hm, -⟩ := h
  rw [hm]
  simp

theorem set_ok {s : MemoryStore maxLength} {key value : Bytes} (hkey : key ≠ [])
    (hval : (value.length : Int) ≤ maxLength) (hs : s.data ≠ none) :
    ∃ s', s.set key value = .ok s' ∧ s'.data = s.data.map (·.set key value) := by
  obtain ⟨_ | m, hok⟩ := s
  · exact absurd rfl hs
  · unfold set
    rw [dif_neg hkey, dif_neg (by omega)]
    exact ⟨_, rfl, rfl⟩

/-- The store applies a harmless entry, and text stays text. -/
theorem apply_ok {s : MemoryStore maxLength} {e : LogEntry} (h : e.Harmless maxLength)
    (hs : s.data ≠ none) : ∃ s', apply e s = .ok s' ∧ (s.Textual → s'.Textual) := by
  obtain ⟨index, term, operation, key, value⟩ := e
  cases operation with
  | noop => exact ⟨s, rfl, id⟩
  | set =>
    obtain ⟨hkey, hk, hv, hlen⟩ := h
    obtain ⟨s', heq, hdata⟩ := set_ok hkey hlen hs
    refine ⟨s', heq, fun ⟨m, hm, htext⟩ => ⟨m.set key value, by rw [hdata, hm]; rfl, ?_⟩⟩
    intro p hp
    rcases Contents.mem_set hp with rfl | hp
    · exact ⟨hk, hv⟩
    · exact htext p hp
  | delete =>
    refine ⟨s.delete key, rfl, fun ⟨m, hm, htext⟩ => ⟨m.delete key, ?_, ?_⟩⟩
    · change s.data.map _ = _
      rw [hm]
      rfl
    · exact fun p hp => htext p (Contents.mem_delete hp)
  | other name => exact h.elim

theorem Textual.apply_harmless {s s' : MemoryStore maxLength} {e : LogEntry}
    (he : e.Harmless maxLength) (h : s.Textual) (happly : MemoryStore.apply e s = .ok s') :
    s'.Textual := by
  obtain ⟨s₁, heq, htext⟩ := apply_ok he h.data_ne
  obtain rfl := Except.ok.inj (heq.symm.trans happly)
  exact htext h

/-- A store of text to which an entry of text was applied. -/
theorem Textual.apply {s s' : MemoryStore maxLength} {e : LogEntry}
    (he : ValidUTF8 e.key ∧ ValidUTF8 e.value) (h : s.Textual)
    (happly : MemoryStore.apply e s = .ok s') : s'.Textual := by
  obtain ⟨index, term, operation, key, value⟩ := e
  cases operation with
  | noop => exact h.apply_harmless (e := ⟨index, term, .noop, key, value⟩) trivial happly
  | delete => exact h.apply_harmless (e := ⟨index, term, .delete, key, value⟩) trivial happly
  | other name => cases happly
  | set =>
    refine h.apply_harmless (e := ⟨index, term, .set, key, value⟩) ?_ happly
    simp only [MemoryStore.apply, set] at happly
    split at happly
    · cases happly
    rename_i hkey
    split at happly
    · cases happly
    rename_i hval
    exact ⟨hkey, he.1, he.2, Int.not_lt.mp hval⟩

/-- What a store of text serializes is restored to the same store. -/
theorem Textual.restore {json : Json} (hjson : json.Faithful) {s : MemoryStore maxLength}
    (h : s.Textual) : restore json maxLength (json.marshal s.data) = .ok s := by
  obtain ⟨m, hm, htext⟩ := h
  refine restore_marshal json s ?_
  rw [hm]
  exact hjson m htext

end MemoryStore

end DistributedKv
