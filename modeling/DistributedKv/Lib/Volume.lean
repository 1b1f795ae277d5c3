import DistributedKv.Lib.Crash
import Mathlib.Data.List.Infix
import Mathlib.Logic.Function.Basic

/-!
A directory of files that loses what was not synced. A file and a name each have
a current value and the values that may be found after a power failure: `sync` of
a file makes its contents the only ones, `syncDir` makes the current names the
only ones. System calls are the store calls of `Crash.Prog`, so each of them may
fail, with or without having had its effect, or be the point where the process
dies.

`publish_spec` is what the usual sequence of calls for replacing a file is worth:
whatever happens on the way, a power failure leaves one of the contents that were
possible before or the new one, and after a success only the new one.
-/

namespace Volume

open Crash Prog

/-- A file: what is read, and what a power failure may leave of it. -/
structure Inode where
  content : List UInt8
  survivors : List (List UInt8)
  current : content ∈ survivors

namespace Inode

def empty : Inode := ⟨[], [[]], List.mem_singleton.mpr rfl⟩

/-- One more byte, which may be lost. -/
def write (f : Inode) (b : UInt8) : Inode where
  content := f.content ++ [b]
  survivors := (f.content ++ [b]) :: f.survivors
  current := List.mem_cons_self

/-- The file whose contents are safe. -/
def settled (content : List UInt8) : Inode := ⟨content, [content], List.mem_singleton.mpr rfl⟩

def sync (f : Inode) : Inode := settled f.content

def writes (f : Inode) (bs : List UInt8) : Inode := bs.foldl write f

/-- Cut off the end, which a power failure may undo. -/
def truncate (f : Inode) (size : Nat) : Inode where
  content := f.content.take size
  survivors := f.content.take size :: f.survivors
  current := List.mem_cons_self

@[simp] theorem writes_nil (f : Inode) : f.writes [] = f := rfl

@[simp] theorem writes_cons (f : Inode) (b : UInt8) (bs : List UInt8) :
    f.writes (b :: bs) = (f.write b).writes bs := rfl

@[simp] theorem content_writes (f : Inode) (bs : List UInt8) :
    (f.writes bs).content = f.content ++ bs := by
  induction bs generalizing f with
  | nil => simp
  | cons b bs ih => simp [ih, write]

theorem writes_append (f : Inode) (bs cs : List UInt8) :
    f.writes (bs ++ cs) = (f.writes bs).writes cs := List.foldl_append

/-- Bytes that were not synced are lost from the end. -/
theorem mem_survivors_writes {f : Inode} {bs c : List UInt8} (h : c ∈ (f.writes bs).survivors) :
    c ∈ f.survivors ∨ ∃ cs, cs <+: bs ∧ c = f.content ++ cs := by
  induction bs generalizing f with
  | nil => exact .inl h
  | cons b bs ih =>
    rcases ih h with hc | ⟨cs, hcs, rfl⟩
    · rcases List.mem_cons.mp hc with rfl | hc
      · exact .inr ⟨[b], ⟨bs, rfl⟩, rfl⟩
      · exact .inl hc
    · refine .inr ⟨b :: cs, List.cons_prefix_cons.mpr ⟨rfl, hcs⟩, ?_⟩
      simp [write]

end Inode

/-- Names that programs choose, and those that are made up for temporary files. -/
inductive Name where
  | path (p : String)
  | temp (n : Nat)
  deriving DecidableEq, Repr

/-- A directory. The file of a name is a position in `inodes`; a file that has
lost its name keeps its position. -/
structure Vol where
  inodes : List Inode
  dir : Name → Option Nat
  past : Name → List (Option Nat)
  temps : Nat
  current : ∀ name, dir name ∈ past name
  bound : ∀ name i, some i ∈ past name → i < inodes.length

namespace Vol

def empty : Vol where
  inodes := []
  dir _ := none
  past _ := [none]
  temps := 0
  current _ := List.mem_singleton.mpr rfl
  bound _ _ h := by cases List.mem_singleton.mp h

/-- The contents of the file of this name. -/
def read (v : Vol) (name : Name) : Option (List UInt8) :=
  (v.dir name).bind fun i => v.inodes[i]?.map Inode.content

def modify (v : Vol) (i : Nat) (f : Inode → Inode) : Vol where
  inodes := v.inodes.modify i f
  dir := v.dir
  past := v.past
  temps := v.temps
  current := v.current
  bound name j h := by
    rw [List.length_modify]
    exact v.bound name j h

theorem modify_id (v : Vol) (i : Nat) : v.modify i id = v := by
  obtain ⟨inodes, dir, past, temps, current, bound⟩ := v
  simp [modify]

theorem modify_modify (v : Vol) (i : Nat) (f g : Inode → Inode) :
    (v.modify i f).modify i g = v.modify i (g ∘ f) := by
  obtain ⟨inodes, dir, past, temps, current, bound⟩ := v
  simp [modify, List.modify_modify_eq]

theorem modify_writes (v : Vol) (i : Nat) (bs cs : List UInt8) :
    (v.modify i (·.writes bs)).modify i (·.writes cs) = v.modify i (·.writes (bs ++ cs)) := by
  rw [modify_modify]
  congr 1
  funext f
  exact (f.writes_append bs cs).symm

/-- Give a name to a file, or take it away; until the directory is synced a power
failure may undo this. -/
def link (v : Vol) (name : Name) (target : Option Nat)
    (h : ∀ i, target = some i → i < v.inodes.length) : Vol where
  inodes := v.inodes
  dir := Function.update v.dir name target
  past := Function.update v.past name (target :: v.past name)
  temps := v.temps
  current other := by
    rcases eq_or_ne other name with rfl | hne
    · simp
    · simpa [Function.update_of_ne hne] using v.current other
  bound other i hi := by
    rcases eq_or_ne other name with rfl | hne
    · rw [Function.update_self] at hi
      rcases List.mem_cons.mp hi with hi | hi
      · exact h i hi.symm
      · exact v.bound other i hi
    · rw [Function.update_of_ne hne] at hi
      exact v.bound other i hi

/-- A new empty file with no name. -/
def grow (v : Vol) : Vol where
  inodes := v.inodes ++ [.empty]
  dir := v.dir
  past := v.past
  temps := v.temps + 1
  current := v.current
  bound name i h := by
    have := v.bound name i h
    rw [List.length_append]
    omega

/-- The current names become the only ones. -/
def syncNames (v : Vol) : Vol where
  inodes := v.inodes
  dir := v.dir
  past name := [v.dir name]
  temps := v.temps
  current _ := List.mem_singleton.mpr rfl
  bound name i h := by
    have hi := List.mem_singleton.mp h
    exact v.bound name i (hi ▸ v.current name)

/-- A new empty file under this name. -/
def newFile (v : Vol) (name : Name) : Vol :=
  v.grow.link name (some v.inodes.length) (by
    intro i hi
    obtain rfl := Option.some.inj hi
    simp [grow])

/-- The temporary file that `createTemp` makes next. -/
def created (v : Vol) : Vol := v.newFile (.temp v.temps)

/-! ## Power failures -/

/-- Which of the possible contents and names is found. -/
structure Choice where
  content : Nat → Nat
  name : Name → Nat

def pick (c : Choice) (i : Nat) (f : Inode) : List UInt8 := f.survivors.getD (c.content i) f.content

theorem pick_mem (c : Choice) (i : Nat) (f : Inode) : pick c i f ∈ f.survivors := by
  unfold pick
  rw [List.getD_eq_getElem?_getD]
  cases h : f.survivors[c.content i]? with
  | none => exact f.current
  | some b => exact List.mem_of_getElem? h

def pickName (c : Choice) (v : Vol) (name : Name) : Option Nat :=
  (v.past name).getD (c.name name) (v.dir name)

theorem pickName_mem (c : Choice) (v : Vol) (name : Name) : pickName c v name ∈ v.past name := by
  unfold pickName
  rw [List.getD_eq_getElem?_getD]
  cases h : (v.past name)[c.name name]? with
  | none => exact v.current name
  | some target => exact List.mem_of_getElem? h

/-- The directory after a power failure. -/
def recover (v : Vol) (c : Choice) : Vol where
  inodes := v.inodes.mapIdx fun i f => .settled (pick c i f)
  dir := pickName c v
  past name := [pickName c v name]
  temps := v.temps
  current _ := List.mem_singleton.mpr rfl
  bound name i h := by
    have hi := List.mem_singleton.mp h
    rw [List.length_mapIdx]
    exact v.bound name i (hi ▸ pickName_mem c v name)

/-- What may be found under a name after a power failure. -/
def Possible (v : Vol) (name : Name) : Option (List UInt8) → Prop
  | none => none ∈ v.past name
  | some b => ∃ i f, some i ∈ v.past name ∧ v.inodes[i]? = some f ∧ b ∈ f.survivors

variable {v v' : Vol} {name : Name} {o : Option (List UInt8)}

theorem possible_read (v : Vol) (name : Name) : v.Possible name (v.read name) := by
  unfold read
  have hcur := v.current name
  cases hdir : v.dir name with
  | none =>
    rw [hdir] at hcur
    exact hcur
  | some i =>
    rw [hdir] at hcur
    obtain ⟨f, hf⟩ : ∃ f, v.inodes[i]? = some f :=
      ⟨_, List.getElem?_eq_getElem (v.bound name i hcur)⟩
    rw [Option.bind_some, hf]
    exact ⟨i, f, hcur, hf, f.current⟩

/-- What is found was possible. -/
theorem possible_recover (c : Choice) (h : (v.recover c).Possible name o) : v.Possible name o := by
  have hmem := pickName_mem c v name
  cases o with
  | none =>
    have hnone : none = pickName c v name := List.mem_singleton.mp h
    rw [← hnone] at hmem
    exact hmem
  | some b =>
    obtain ⟨i, f, hi, hf, hb⟩ := h
    have hpick : some i = pickName c v name := List.mem_singleton.mp hi
    rw [← hpick] at hmem
    simp only [recover, List.getElem?_mapIdx, Option.map_eq_some_iff] at hf
    obtain ⟨g, hg, rfl⟩ := hf
    have hb' : b = pick c i g := List.mem_singleton.mp hb
    refine ⟨i, g, hmem, hg, ?_⟩
    rw [hb']
    exact pick_mem c i g

/-- What is found is all that there is left. -/
theorem eq_read_of_possible_recover (c : Choice) (h : (v.recover c).Possible name o) :
    o = (v.recover c).read name := by
  cases o with
  | none =>
    have hnone : none = (v.recover c).dir name := List.mem_singleton.mp h
    rw [read, ← hnone, Option.bind_none]
  | some b =>
    obtain ⟨i, f, hi, hf, hb⟩ := h
    have hdir : some i = (v.recover c).dir name := List.mem_singleton.mp hi
    rw [read, ← hdir, Option.bind_some, hf, Option.map_some]
    simp only [recover, List.getElem?_mapIdx, Option.map_eq_some_iff] at hf
    obtain ⟨g, -, rfl⟩ := hf
    rw [List.mem_singleton.mp hb]
    rfl

/-! ## What a change leaves alone -/

/-- The name stands for the same file with the same contents; a power failure may
have fewer ways to go. -/
structure Same (v v' : Vol) (name : Name) : Prop where
  dir : v'.dir name = v.dir name
  past : v'.past name ⊆ v.past name
  file : ∀ i, some i ∈ v'.past name → v'.inodes[i]? = v.inodes[i]?

theorem Same.refl (v : Vol) (name : Name) : Same v v name := ⟨rfl, fun _ h => h, fun _ _ => rfl⟩

theorem Same.trans {v'' : Vol} (h : Same v v' name) (h' : Same v' v'' name) : Same v v'' name where
  dir := h'.dir.trans h.dir
  past := fun _ hm => h.past (h'.past hm)
  file := fun i hi => (h'.file i hi).trans (h.file i (h'.past hi))

theorem Same.possible (h : Same v v' name) (ho : v'.Possible name o) : v.Possible name o := by
  cases o with
  | none => exact h.past ho
  | some b =>
    obtain ⟨i, f, hi, hf, hb⟩ := ho
    exact ⟨i, f, h.past hi, (h.file i hi).symm.trans hf, hb⟩

theorem Same.read (h : Same v v' name) : v'.read name = v.read name := by
  have hcur := v'.current name
  unfold Vol.read
  rw [h.dir] at hcur ⊢
  cases hdir : v.dir name with
  | none => rfl
  | some i =>
    rw [hdir] at hcur
    rw [Option.bind_some, Option.bind_some, h.file i hcur]

theorem same_modify {i : Nat} (h : some i ∉ v.past name) (f : Inode → Inode) :
    Same v (v.modify i f) name where
  dir := rfl
  past := fun _ hm => hm
  file := by
    intro j hj
    have hne : i ≠ j := by
      rintro rfl
      exact h hj
    exact List.getElem?_modify_ne f v.inodes hne

theorem same_link {other : Name} (hne : name ≠ other) (target : Option Nat)
    (h : ∀ i, target = some i → i < v.inodes.length) : Same v (v.link other target h) name where
  dir := Function.update_of_ne hne _ _
  past := by
    intro t ht
    have hpast : (v.link other target h).past name = v.past name := Function.update_of_ne hne _ _
    rwa [hpast] at ht
  file := fun _ _ => rfl

theorem same_grow (v : Vol) (name : Name) : Same v v.grow name where
  dir := rfl
  past := fun _ h => h
  file := fun i hi => List.getElem?_append_left (v.bound name i hi)

theorem same_syncNames (v : Vol) (name : Name) : Same v v.syncNames name where
  dir := rfl
  past := by
    intro t ht
    rw [List.mem_singleton.mp ht]
    exact v.current name
  file := fun _ _ => rfl

theorem same_newFile {other : Name} (hne : name ≠ other) : Same v (v.newFile other) name :=
  (same_grow v name).trans (same_link hne _ _)

/-- The files that were there are as they were, and of the names only those in
`touched` may stand for something else. -/
structure Extends (v v' : Vol) (touched : Name → Prop) : Prop where
  file : ∀ i, i < v.inodes.length → v'.inodes[i]? = v.inodes[i]?
  dir : ∀ name, ¬ touched name → v'.dir name = v.dir name
  past : ∀ name, ¬ touched name → v'.past name ⊆ v.past name

variable {touched touched' : Name → Prop}

theorem Extends.refl (v : Vol) (touched : Name → Prop) : Extends v v touched :=
  ⟨fun _ _ => rfl, fun _ _ => rfl, fun _ _ _ h => h⟩

theorem Extends.same (h : Extends v v' touched) (hn : ¬ touched name) : Same v v' name :=
  ⟨h.dir name hn, h.past name hn, fun i hi => h.file i (v.bound name i (h.past name hn hi))⟩

theorem Extends.mono (h : Extends v v' touched) (hsub : ∀ name, touched name → touched' name) :
    Extends v v' touched' where
  file := h.file
  dir := fun name hn => h.dir name fun ht => hn (hsub name ht)
  past := fun name hn => h.past name fun ht => hn (hsub name ht)

theorem Extends.modify {i : Nat} (h : Extends v v' touched) (hi : v.inodes.length ≤ i)
    (f : Inode → Inode) : Extends v (v'.modify i f) touched where
  file := by
    intro j hj
    rw [← h.file j hj]
    exact List.getElem?_modify_ne f v'.inodes (by omega)
  dir := h.dir
  past := h.past

theorem Extends.link {other : Name} (h : Extends v v' touched) (ht : touched other)
    (target : Option Nat) (hb : ∀ i, target = some i → i < v'.inodes.length) :
    Extends v (v'.link other target hb) touched where
  file := h.file
  dir := by
    intro name hn
    have hne : name ≠ other := by
      rintro rfl
      exact hn ht
    rw [← h.dir name hn]
    exact (same_link hne target hb).dir
  past := by
    intro name hn t hmem
    have hne : name ≠ other := by
      rintro rfl
      exact hn ht
    exact h.past name hn ((same_link hne target hb).past hmem)

theorem Extends.syncNames (h : Extends v v' touched) : Extends v v'.syncNames touched where
  file := h.file
  dir := h.dir
  past := fun name hn _ hmem => h.past name hn ((same_syncNames v' name).past hmem)

theorem extends_newFile (v : Vol) (other : Name) : Extends v (v.newFile other) (· = other) where
  file := fun _ hi => List.getElem?_append_left hi
  dir := fun _ hn => (same_newFile hn).dir
  past := fun _ hn => (same_newFile hn).past

/-- No two paths ever stood for one file, as far as a power failure can tell. -/
def Separate (v : Vol) : Prop :=
  ∀ p q i, some i ∈ v.past (.path p) → some i ∈ v.past (.path q) → p = q

theorem Separate.of_subset (h : v.Separate)
    (hsub : ∀ p, v'.past (.path p) ⊆ v.past (.path p)) : v'.Separate :=
  fun p q i hp hq => h p q i (hsub p hp) (hsub q hq)

theorem Separate.recover (h : v.Separate) (c : Choice) : (v.recover c).Separate := by
  refine h.of_subset ?_
  intro p t ht
  rw [List.mem_singleton.mp ht]
  exact pickName_mem c v _

/-- A new file gets a path. -/
theorem Separate.of_fresh {i : Nat} {p : String} (h : v.Separate) (hi : v.inodes.length ≤ i)
    (hp : v'.past (.path p) ⊆ some i :: v.past (.path p))
    (hsub : ∀ q, q ≠ p → v'.past (.path q) ⊆ v.past (.path q)) : v'.Separate := by
  have hold : ∀ q j, some j ∈ v'.past (.path q) →
      some j ∈ v.past (.path q) ∨ q = p ∧ j = i := by
    intro q j hj
    by_cases hq : q = p
    · subst hq
      rcases List.mem_cons.mp (hp hj) with heq | hmem
      · exact .inr ⟨rfl, Option.some.inj heq⟩
      · exact .inl hmem
    · exact .inl (hsub q hq hj)
  have hnew : ∀ q, some i ∉ v.past (.path q) := fun q hq =>
    absurd (v.bound _ i hq) (Nat.not_lt.mpr hi)
  intro q q' j hq hq'
  rcases hold q j hq with hj | ⟨rfl, rfl⟩
  · rcases hold q' j hq' with hj' | ⟨rfl, rfl⟩
    · exact h q q' j hj hj'
    · exact absurd hj (hnew q)
  · rcases hold q' j hq' with hj' | ⟨rfl, -⟩
    · exact absurd hj' (hnew q')
    · rfl

/-- Of the paths, only `p` may stand for something else. -/
structure Apart (v v' : Vol) (p : String) : Prop where
  separate : v'.Separate
  same : ∀ q, q ≠ p → Same v v' (.path q)

theorem Apart.refl {p : String} (h : v.Separate) : Apart v v p := ⟨h, fun _ _ => .refl _ _⟩

theorem Apart.trans {v'' : Vol} {p : String} (h : Apart v v' p) (h' : Apart v' v'' p) :
    Apart v v'' p := ⟨h'.separate, fun q hq => (h.same q hq).trans (h'.same q hq)⟩

/-- The file of a path is changed. -/
theorem apart_modify {i : Nat} {p : String} (h : v.Separate) (hi : some i ∈ v.past (.path p))
    (f : Inode → Inode) : Apart v (v.modify i f) p where
  separate := h
  same := by
    intro q hq
    exact same_modify (fun hmem => hq (h q p i hmem hi)) f

theorem apart_newFile {p : String} (h : v.Separate) : Apart v (v.newFile (.path p)) p where
  separate := by
    have hpast : (v.newFile (.path p)).past (.path p) = some v.inodes.length :: v.past (.path p) :=
      Function.update_self _ _ _
    refine h.of_fresh (Nat.le_refl v.inodes.length) (fun t ht => hpast ▸ ht) ?_
    intro q hq
    exact (same_newFile fun heq => hq (Name.path.inj heq)).past
  same := fun _ hq => same_newFile fun heq => hq (Name.path.inj heq)

/-- `target` stands for the file of `source` as well. -/
def relink (v : Vol) (source target : Name) : Vol :=
  v.link target (v.dir source) (by
    intro i hi
    refine v.bound source i ?_
    rw [← hi]
    exact v.current source)

def unlink (v : Vol) (name : Name) : Vol :=
  v.link name none (by
    intro i hi
    cases hi)

end Vol

/-! ## System calls -/

/-- A call that has its effect or not. -/
def call (run : Vol → Except String Vol) : Write Vol where
  run := run
  part n v :=
    match n, run v with
    | 0, _ => v
    | _, .ok v' => v'
    | _, .error _ => v

/-- Calls may return errors. -/
def Faulty (allow : Outcome → Prop) : Prop := ∃ err, allow (.fail err) ∨ allow (.failWritten err)

section Calls

variable {V : Type} {allow : Outcome → Prop} {R : Vol → Prop} {s : V} {v v' : Vol}
  {Q : Except String Unit → V → Vol → Prop}

theorem wp_call {run : Vol → Except String Vol} (hrun : run v = .ok v') (hR : R v) (hR' : R v')
    (hok : Q (.ok ()) s v')
    (herr : Faulty allow → ∀ err, Q (.error err) s v ∧ Q (.error err) s v') :
    wp allow R (store (call run)) Q s v := by
  rw [wp_store]
  simp only [call, hrun]
  refine ⟨hok, ?_, ?_, ?_⟩
  · intro err hallow
    exact (herr ⟨err, .inl hallow⟩ err).1
  · intro err hallow
    exact (herr ⟨err, .inr hallow⟩ err).2
  · intro n _
    cases n with
    | zero => exact hR
    | succ n => exact hR'

theorem wp_trial (hR : R v) (hok : Q (.ok ()) s v)
    (herr : Faulty allow → ∀ err, Q (.error err) s v) : wp allow R attempt Q s v := by
  rw [wp_attempt]
  refine ⟨hok, ?_, ?_, fun _ _ => hR⟩
  · intro err hallow
    exact herr ⟨err, .inl hallow⟩ err
  · intro err hallow
    exact herr ⟨err, .inr hallow⟩ err

end Calls

/-- `os.CreateTemp` -/
def createTemp : Write Vol := call fun v => .ok v.created

/-- One byte of `File.Write` at the end of the file. -/
def writeByte (i : Nat) (b : UInt8) : Write Vol := call fun v => .ok (v.modify i (·.write b))

/-- `File.Sync` -/
def syncFile (i : Nat) : Write Vol := call fun v => .ok (v.modify i Inode.sync)

/-- `File.Truncate` -/
def truncateFile (i size : Nat) : Write Vol :=
  call fun v => .ok (v.modify i (·.truncate size))

/-- `os.OpenFile` with `O_CREATE`, on a name without a file -/
def createFile (name : Name) : Write Vol := call fun v => .ok (v.newFile name)

/-- `os.Rename` -/
def rename (source target : Name) : Write Vol :=
  call fun v =>
    match v.dir source with
    | none => .error "no such file or directory"
    | some _ => .ok ((v.relink source target).unlink source)

/-- `os.Remove` -/
def remove (name : Name) : Write Vol :=
  call fun v =>
    match v.dir name with
    | none => .error "no such file or directory"
    | some _ => .ok (v.unlink name)

/-- `Sync` of the directory -/
def syncDir : Write Vol := call fun v => .ok v.syncNames

variable {V : Type}

/-- `File.Write`, which may stop at any byte. -/
def writeBytes (i : Nat) : List UInt8 → Prog V Vol (Except String Unit)
  | [] => return .ok ()
  | b :: bs => do
      match ← store (writeByte i b) with
      | .error err => return .error err
      | .ok () => writeBytes i bs

/-! ## Replacing a file -/

/-- The texts around the errors of the single calls. -/
structure Messages where
  create : String → String
  write : String → String
  sync : String → String
  close : String → String
  rename : String → String
  openDir : String → String
  syncDir : String → String

/-- Fill the temporary file, sync and close it, give it the name and sync the
directory. -/
def publish (m : Messages) (name tmp : Name) (fill : Prog V Vol (Except String Unit)) (i : Nat) :
    Prog V Vol (Except String Unit) := do
  match ← fill with
  | .error err =>
      let _ ← attempt
      return .error (m.write err)
  | .ok () =>
  match ← store (syncFile i) with
  | .error err =>
      let _ ← attempt
      return .error (m.sync err)
  | .ok () =>
  match ← attempt with
  | .error err => return .error (m.close err)
  | .ok () =>
  match ← store (rename tmp name) with
  | .error err => return .error (m.rename err)
  | .ok () =>
  match ← attempt with
  | .error err => return .error (m.openDir err)
  | .ok () =>
  match ← store syncDir with
  | .error err => return .error (m.syncDir err)
  | .ok () => return .ok ()

/-- Work with a temporary file, whose name is removed in the end. -/
def withTemp (m : Messages) (body : Name → Nat → Prog V Vol (Except String Unit)) :
    Prog V Vol (Except String Unit) := do
  let v ← disk
  match ← store createTemp with
  | .error err => return .error (m.create err)
  | .ok () =>
      let result ← body (.temp v.temps) v.inodes.length
      let _ ← store (remove (.temp v.temps))
      return result

def replaceFile (m : Messages) (name : Name) (content : List UInt8) :
    Prog V Vol (Except String Unit) :=
  withTemp m fun tmp i => publish m name tmp (writeBytes i content) i

/-! ## What the replacement is worth -/

/-- The temporary file is being written; it is the file `i`, which is new. -/
structure Draft (v₀ v : Vol) (tmp : Name) (i : Nat) (f : Inode) : Prop extends
    v₀.Extends v (· = tmp) where
  fresh : v₀.inodes.length ≤ i
  named : v.dir tmp = some i
  stands : v.inodes[i]? = some f

/-- The name stands for the new file `i`, whose contents are on disk. -/
structure Renamed (v₀ v : Vol) (name tmp : Name) (i : Nat) (content : List UInt8) : Prop extends
    v₀.Extends v (fun n => n = tmp ∨ n = name) where
  fresh : v₀.inodes.length ≤ i
  named : v.dir name = some i
  links : v.past name ⊆ some i :: v₀.past name
  stands : v.inodes[i]? = some (.settled content)

/-- The name stands for what it did, or for the new contents. -/
inductive Tried (v₀ v : Vol) (name tmp : Name) (content : List UInt8) : Prop where
  | before (h : v₀.Extends v (· = tmp))
  | after (i : Nat) (h : Renamed v₀ v name tmp i content)

/-- Only the new contents are left. -/
structure Replaced (v₀ v : Vol) (name tmp : Name) (content : List UInt8) : Prop where
  renamed : ∃ i, Renamed v₀ v name tmp i content ∧ v.past name = [some i]

section Replacement

variable {v₀ v : Vol} {name tmp : Name} {i : Nat} {f : Inode} {content : List UInt8}

theorem draft_created (v : Vol) : Draft v v.created (.temp v.temps) v.inodes.length .empty where
  toExtends := v.extends_newFile _
  fresh := Nat.le_refl _
  named := Function.update_self _ _ _
  stands := by simp [Vol.created, Vol.newFile, Vol.link, Vol.grow]

theorem Draft.modify (h : Draft v₀ v tmp i f) (g : Inode → Inode) :
    Draft v₀ (v.modify i g) tmp i (g f) where
  toExtends := h.toExtends.modify h.fresh g
  fresh := h.fresh
  named := h.named
  stands := by simp [Vol.modify, h.stands]

theorem Draft.rename (h : Draft v₀ v tmp i (.settled content)) (hne : tmp ≠ name) :
    Renamed v₀ ((v.relink tmp name).unlink tmp) name tmp i content where
  toExtends := by
    have hext : v₀.Extends v fun n => n = tmp ∨ n = name := h.toExtends.mono fun _ => .inl
    exact (hext.link (.inr rfl) _ _).link (.inl rfl) _ _
  fresh := h.fresh
  named := by
    have hunlink : ((v.relink tmp name).unlink tmp).dir name = (v.relink tmp name).dir name :=
      Function.update_of_ne hne.symm _ _
    rw [hunlink, ← h.named]
    exact Function.update_self _ _ _
  links := by
    have hpast : ((v.relink tmp name).unlink tmp).past name = v.dir tmp :: v.past name :=
      (Function.update_of_ne hne.symm _ _).trans (Function.update_self _ _ _)
    rw [hpast, h.named]
    exact List.cons_subset_cons _ (h.toExtends.past name hne.symm)
  stands := h.stands

theorem Renamed.syncNames (h : Renamed v₀ v name tmp i content) :
    Renamed v₀ v.syncNames name tmp i content where
  toExtends := h.toExtends.syncNames
  fresh := h.fresh
  named := h.named
  links := fun _ hm => h.links ((Vol.same_syncNames v name).past hm)
  stands := h.stands

theorem Renamed.unlink (h : Renamed v₀ v name tmp i content) (hne : tmp ≠ name) :
    Renamed v₀ (v.unlink tmp) name tmp i content where
  toExtends := h.toExtends.link (.inl rfl) _ _
  fresh := h.fresh
  named := (Function.update_of_ne hne.symm _ _).trans h.named
  links := by
    have hpast : (v.unlink tmp).past name = v.past name := Function.update_of_ne hne.symm _ _
    rw [hpast]
    exact h.links
  stands := h.stands

theorem Renamed.replaced (h : Renamed v₀ v name tmp i content) :
    Replaced v₀ v.syncNames name tmp content :=
  ⟨i, h.syncNames, congrArg ([·]) h.named⟩

theorem Tried.unlink (h : Tried v₀ v name tmp content) (hne : tmp ≠ name) :
    Tried v₀ (v.unlink tmp) name tmp content := by
  cases h with
  | before h => exact .before (h.link rfl _ _)
  | after i h => exact .after i (h.unlink hne)

theorem Replaced.unlink (h : Replaced v₀ v name tmp content) (hne : tmp ≠ name) :
    Replaced v₀ (v.unlink tmp) name tmp content := by
  obtain ⟨i, hr, hpast⟩ := h.renamed
  refine ⟨i, hr.unlink hne, ?_⟩
  rw [← hpast]
  exact Function.update_of_ne hne.symm _ _

theorem Renamed.possible {o : Option (List UInt8)} (h : Renamed v₀ v name tmp i content)
    (ho : v.Possible name o) : v₀.Possible name o ∨ o = some content := by
  cases o with
  | none =>
    rcases List.mem_cons.mp (h.links ho) with hnone | hpast
    · cases hnone
    · exact .inl hpast
  | some b =>
    obtain ⟨j, f, hj, hf, hb⟩ := ho
    rcases List.mem_cons.mp (h.links hj) with heq | hpast
    · obtain rfl := Option.some.inj heq
      obtain rfl := Option.some.inj (h.stands.symm.trans hf)
      exact .inr (congrArg some (List.mem_singleton.mp hb))
    · exact .inl ⟨j, f, hpast, (h.file j (v₀.bound name j hpast)).symm.trans hf, hb⟩

/-- A power failure finds something that it could have found before, or the new
contents. -/
theorem Tried.possible {o : Option (List UInt8)} (h : Tried v₀ v name tmp content)
    (hne : tmp ≠ name) (ho : v.Possible name o) : v₀.Possible name o ∨ o = some content := by
  cases h with
  | before h => exact .inl ((h.same hne.symm).possible ho)
  | after i h => exact h.possible ho

theorem Tried.same {other : Name} (h : Tried v₀ v name tmp content) (htmp : other ≠ tmp)
    (hne : other ≠ name) : v₀.Same v other := by
  cases h with
  | before h => exact h.same htmp
  | after i h => exact h.same (not_or.mpr ⟨htmp, hne⟩)

theorem Renamed.apart {p : String} {n : Nat} (h : Renamed v₀ v (.path p) (.temp n) i content)
    (hsep : v₀.Separate) : v₀.Apart v p := by
  have hother : ∀ q, q ≠ p → ¬ (Name.path q = .temp n ∨ Name.path q = .path p) := by
    rintro q hq (heq | heq)
    · cases heq
    · exact hq (Name.path.inj heq)
  refine ⟨hsep.of_fresh h.fresh h.links fun q hq => h.past _ (hother q hq), ?_⟩
  exact fun q hq => h.same (hother q hq)

theorem Extends.apart {p : String} {n : Nat} (h : v₀.Extends v (· = .temp n))
    (hsep : v₀.Separate) : v₀.Apart v p := by
  have hother : ∀ q, Name.path q ≠ .temp n := by
    intro q heq
    cases heq
  exact ⟨hsep.of_subset fun q => h.past _ (hother q), fun q _ => h.same (hother q)⟩

theorem Tried.apart {p : String} {n : Nat} (h : Tried v₀ v (.path p) (.temp n) content)
    (hsep : v₀.Separate) : v₀.Apart v p := by
  cases h with
  | before h => exact Extends.apart h hsep
  | after i h => exact h.apart hsep

theorem Replaced.possible {o : Option (List UInt8)} (h : Replaced v₀ v name tmp content)
    (ho : v.Possible name o) : o = some content := by
  obtain ⟨i, hr, hpast⟩ := h.renamed
  cases o with
  | none =>
    have hnone : none ∈ v.past name := ho
    rw [hpast] at hnone
    cases List.mem_singleton.mp hnone
  | some b =>
    obtain ⟨j, f, hj, hf, hb⟩ := ho
    rw [hpast] at hj
    obtain rfl := Option.some.inj (List.mem_singleton.mp hj)
    obtain rfl := Option.some.inj (hr.stands.symm.trans hf)
    exact congrArg some (List.mem_singleton.mp hb)

end Replacement

section Programs

variable {allow : Outcome → Prop} {R : Vol → Prop} {s : V} {v v₀ : Vol} {name tmp : Name} {i : Nat}
  {content : List UInt8} {m : Messages}

/-- Bytes are written from the first to the last. -/
theorem wp_writeBytes {Q : Except String Unit → V → Vol → Prop} {bs : List UInt8}
    (hR : ∀ cs, cs <+: bs → R (v.modify i (·.writes cs)))
    (hok : Q (.ok ()) s (v.modify i (·.writes bs)))
    (herr : Faulty allow → ∀ cs err, cs <+: bs → Q (.error err) s (v.modify i (·.writes cs))) :
    wp allow R (writeBytes i bs) Q s v := by
  induction bs generalizing v with
  | nil =>
    have hid : v.modify i (·.writes []) = v := v.modify_id i
    rwa [hid] at hok
  | cons b bs ih =>
    have hstep : ∀ cs, (v.modify i (·.write b)).modify i (·.writes cs) =
        v.modify i (·.writes (b :: cs)) := fun cs => v.modify_modify i _ _
    have hnone : v.modify i (·.writes []) = v := v.modify_id i
    have hfirst : [b] <+: b :: bs := ⟨bs, rfl⟩
    rw [writeBytes, wp_bind]
    refine wp_call rfl (hnone ▸ hR [] List.nil_prefix) (hR [b] hfirst) ?_ ?_
    · refine ih ?_ ?_ ?_
      · intro cs hcs
        rw [hstep]
        exact hR _ (List.cons_prefix_cons.mpr ⟨rfl, hcs⟩)
      · rw [hstep]
        exact hok
      · intro hf cs err hcs
        rw [hstep]
        exact herr hf _ err (List.cons_prefix_cons.mpr ⟨rfl, hcs⟩)
    · intro hf err
      exact ⟨hnone ▸ herr hf [] err List.nil_prefix, herr hf [b] err hfirst⟩

/-- What a program that replaces a file may leave and return. `E` are the errors
that filling the file gives without any call failing. -/
structure Finished (allow : Outcome → Prop) (E : String → Prop) (m : Messages) (v₀ : Vol)
    (name tmp : Name) (content : List UInt8) (out : Except String Unit) (v : Vol) : Prop where
  tried : Tried v₀ v name tmp content
  ok : out = .ok () → Replaced v₀ v name tmp content
  error : ∀ err, out = .error err →
    Faulty allow ∨ ∃ e, E e ∧ err = m.write e ∧ v₀.Extends v (· = tmp)

theorem Finished.failed {E : String → Prop} (hf : Faulty allow) (h : Tried v₀ v name tmp content)
    (err : String) : Finished allow E m v₀ name tmp content (.error err) v where
  tried := h
  ok := by
    intro herr
    cases herr
  error := fun _ _ => .inl hf

theorem Finished.unlink {E : String → Prop} {out : Except String Unit}
    (h : Finished allow E m v₀ name tmp content out v) (hne : tmp ≠ name) :
    Finished allow E m v₀ name tmp content out (v.unlink tmp) where
  tried := h.tried.unlink hne
  ok := fun hout => (h.ok hout).unlink hne
  error := by
    intro err hout
    rcases h.error err hout with hf | ⟨e, he, herr, hext⟩
    · exact .inl hf
    · exact .inr ⟨e, he, herr, hext.link rfl _ _⟩

/-- What is asked of the program that fills the temporary file. -/
def Fills (allow : Outcome → Prop) (E : String → Prop) (v₀ : Vol) (tmp : Name) (i : Nat)
    (content : List UInt8) (fill : Prog V Vol (Except String Unit)) (s : V) (v : Vol) : Prop :=
  wp allow (fun v' => ∃ f, Draft v₀ v' tmp i f) fill (fun out s' v' => s' = s ∧
    ∃ f, Draft v₀ v' tmp i f ∧ (out = .ok () → f.content = content) ∧
      ∀ err, out = .error err → Faulty allow ∨ E err) s v

theorem fills_writeBytes {f : Inode} {E : String → Prop} (h : Draft v₀ v tmp i f)
    (hf : f.content = []) : Fills allow E v₀ tmp i content (writeBytes i content) s v := by
  refine wp_writeBytes ?_ ?_ ?_
  · intro cs _
    exact ⟨_, h.modify _⟩
  · refine ⟨rfl, _, h.modify _, ?_, ?_⟩
    · intro _
      rw [Inode.content_writes, hf, List.nil_append]
    · intro err herr
      cases herr
  · intro hfault cs err _
    refine ⟨rfl, _, h.modify _, ?_, fun _ _ => .inl hfault⟩
    intro hok
    cases hok

/-- Whatever becomes of the calls, the name stands for what it did or for the new
contents; and if none of them fails, for the new contents only. -/
theorem wp_publish {E : String → Prop} {fill : Prog V Vol (Except String Unit)} (hne : tmp ≠ name)
    (hfill : Fills allow E v₀ tmp i content fill s v) :
    wp allow (fun v' => Tried v₀ v' name tmp content) (publish m name tmp fill i)
      (fun out s' v' => s' = s ∧ Finished allow E m v₀ name tmp content out v') s v := by
  rw [publish, wp_bind]
  refine wp_mono _ s v hfill ?_ ?_
  · rintro out s v ⟨rfl, f, hd, hcontent, herror⟩
    have hbefore : Tried v₀ v name tmp content := .before hd.toExtends
    cases out with
    | error err =>
      -- the file was not filled: only its name is left behind
      have hq : Finished allow E m v₀ name tmp content (.error (m.write err)) v := by
        refine ⟨hbefore, fun h => (by cases h), ?_⟩
        intro e he
        obtain rfl := Except.error.inj he
        rcases herror err rfl with hf | hE
        · exact .inl hf
        · exact .inr ⟨err, hE, rfl, hd.toExtends⟩
      rw [wp_bind]
      exact wp_trial hbefore ⟨rfl, hq⟩ fun _ _ => ⟨rfl, hq⟩
    | ok u =>
      have hsync : (v.modify i Inode.sync).inodes[i]? = some (.settled content) := by
        rw [← hcontent rfl]
        exact (hd.modify Inode.sync).stands
      have hd' : Draft v₀ (v.modify i Inode.sync) tmp i (.settled content) :=
        ⟨(hd.modify Inode.sync).toExtends, hd.fresh, hd.named, hsync⟩
      have hbefore' : Tried v₀ (v.modify i Inode.sync) name tmp content := .before hd'.toExtends
      rw [wp_bind]
      refine wp_call rfl hbefore hbefore' ?_ ?_
      · have hrun : (match (v.modify i Inode.sync).dir tmp with
            | none => .error "no such file or directory"
            | some _ => .ok (((v.modify i Inode.sync).relink tmp name).unlink tmp)) =
            (.ok (((v.modify i Inode.sync).relink tmp name).unlink tmp) : Except String Vol) := by
          rw [hd'.named]
        have hr := hd'.rename hne
        have hafter : Tried v₀ _ name tmp content := .after i hr
        have hsynced : Tried v₀ _ name tmp content := .after i hr.syncNames
        rw [wp_bind]
        refine wp_trial hbefore' ?_ fun hf err => ⟨rfl, .failed hf hbefore' _⟩
        rw [wp_bind]
        refine wp_call hrun hbefore' hafter ?_ fun hf err =>
          ⟨⟨rfl, .failed hf hbefore' _⟩, rfl, .failed hf hafter _⟩
        rw [wp_bind]
        refine wp_trial hafter ?_ fun hf err => ⟨rfl, .failed hf hafter _⟩
        rw [wp_bind]
        refine wp_call rfl hafter hsynced ?_ fun hf err =>
          ⟨⟨rfl, .failed hf hafter _⟩, rfl, .failed hf hsynced _⟩
        exact ⟨rfl, hsynced, fun _ => hr.replaced, fun err herr => (by cases herr)⟩
      · intro hf err
        constructor
        · rw [wp_bind]
          exact wp_trial hbefore ⟨rfl, .failed hf hbefore _⟩ fun _ _ => ⟨rfl, .failed hf hbefore _⟩
        · rw [wp_bind]
          exact wp_trial hbefore' ⟨rfl, .failed hf hbefore' _⟩ fun _ _ =>
            ⟨rfl, .failed hf hbefore' _⟩
  · rintro v ⟨f, hd⟩
    exact .before hd.toExtends

/-- The name of the temporary file goes in the end, however the work went. -/
theorem wp_withTemp {body : Name → Nat → Prog V Vol (Except String Unit)}
    {Q : Except String Unit → V → Vol → Prop} (hR : R v) (hR' : R v.created)
    (hcreate : Faulty allow → ∀ err,
      Q (.error (m.create err)) s v ∧ Q (.error (m.create err)) s v.created)
    (hbody : wp allow R (body (.temp v.temps) v.inodes.length) (fun out s' v' =>
      (R v' ∧ Q out s' v') ∧ R (v'.unlink (.temp v.temps)) ∧ Q out s' (v'.unlink (.temp v.temps)))
      s v.created) :
    wp allow R (withTemp m body) Q s v := by
  rw [withTemp, wp_bind, wp_disk, wp_bind]
  refine wp_call rfl hR hR' ?_ hcreate
  rw [wp_bind]
  refine wp_mono _ _ _ hbody ?_ fun _ h => h
  rintro out s' v' ⟨⟨hR', hQ⟩, hRu, hQu⟩
  rw [wp_bind]
  -- the name is still there, or it is gone
  cases hdir : v'.dir (.temp v.temps) with
  | none =>
    rw [wp_store]
    simp only [remove, call, hdir]
    exact hQ
  | some j =>
    refine @wp_call _ _ _ _ _ (v'.unlink (.temp v.temps)) _ _ ?_ hR' hRu hQu fun _ _ => ⟨hQ, hQu⟩
    simp only [hdir]

theorem wp_replaceFile {p : String} :
    wp allow (fun v' => Tried v v' (.path p) (.temp v.temps) content)
      (replaceFile m (.path p) content)
      (fun out s' v' => s' = s ∧ Tried v v' (.path p) (.temp v.temps) content ∧
        (out = .ok () → Replaced v v' (.path p) (.temp v.temps) content) ∧
        ∀ err, out = .error err → Faulty allow) s v := by
  have hne : Name.temp v.temps ≠ .path p := by
    intro h
    cases h
  have hfill := @fills_writeBytes V allow s v.created v _ _ content _ (fun _ => False)
    (draft_created v) rfl
  have h₀ : Tried v v (.path p) (.temp v.temps) content := .before (.refl v _)
  have h₁ : Tried v v.created (.path p) (.temp v.temps) content := .before (v.extends_newFile _)
  refine wp_withTemp h₀ h₁ ?_ ?_
  · intro hf err
    exact ⟨⟨rfl, h₀, fun h => (by cases h), fun _ _ => hf⟩, rfl, h₁, fun h => (by cases h),
      fun _ _ => hf⟩
  · refine wp_mono _ _ _ (@wp_publish _ _ _ _ _ _ _ _ _ m _ _ hne hfill) ?_ fun _ h => h
    rintro out s' v' ⟨rfl, hfin⟩
    have hnone : ∀ {w}, Finished allow (fun _ => False) m v (.path p) (.temp v.temps) content out w →
        ∀ err, out = .error err → Faulty allow := by
      intro w hw err herr
      rcases hw.error err herr with hf | ⟨_, hfalse, -⟩
      · exact hf
      · exact hfalse.elim
    have hfin' := hfin.unlink hne
    exact ⟨⟨hfin.tried, rfl, hfin.tried, hfin.ok, hnone hfin⟩, hfin'.tried, rfl, hfin'.tried,
      hfin'.ok, hnone hfin'⟩

end Programs

end Volume
