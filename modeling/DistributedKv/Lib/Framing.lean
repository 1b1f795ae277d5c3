import Mathlib.Data.List.Flatten

/-!
Files of records behind big-endian 32-bit lengths. `frames` lays records out,
`complete` tells which of them lie wholly inside the first bytes of the file,
and `take_frames` says what else is in there: nothing, or the beginning of the
next frame.
-/

namespace Framing

/-- The four bytes of a length, the most significant one first. -/
def header (n : Nat) : List UInt8 :=
  [UInt8.ofNat (n / 256 / 256 / 256), UInt8.ofNat (n / 256 / 256), UInt8.ofNat (n / 256),
    UInt8.ofNat n]

/-- The length that four bytes announce. -/
def size (a b c d : UInt8) : Nat :=
  ((a.toNat * 256 + b.toNat) * 256 + c.toNat) * 256 + d.toNat

theorem header_length (n : Nat) : (header n).length = 4 := rfl

theorem size_header {n : Nat} (h : n < 4294967296) :
    size (UInt8.ofNat (n / 256 / 256 / 256)) (UInt8.ofNat (n / 256 / 256)) (UInt8.ofNat (n / 256))
      (UInt8.ofNat n) = n := by
  simp only [size, UInt8.toNat_ofNat']
  omega

theorem header_size (a b c d : UInt8) : header (size a b c d) = [a, b, c, d] := by
  have ha := a.toNat_lt
  have hb := b.toNat_lt
  have hc := c.toNat_lt
  have hd := d.toNat_lt
  simp only [header, size, List.cons.injEq, and_true]
  refine ⟨?_, ?_, ?_, ?_⟩ <;> (apply UInt8.toNat_inj.mp; rw [UInt8.toNat_ofNat']; omega)

def frame (record : List UInt8) : List UInt8 := header record.length ++ record

def frames (records : List (List UInt8)) : List UInt8 := records.flatMap frame

theorem frame_length (record : List UInt8) : (frame record).length = 4 + record.length := by
  rw [frame, List.length_append, header_length]

@[simp] theorem frames_nil : frames [] = [] := rfl

@[simp] theorem frames_cons (r : List UInt8) (rs : List (List UInt8)) :
    frames (r :: rs) = frame r ++ frames rs := List.flatMap_cons

@[simp] theorem frames_append (rs rs' : List (List UInt8)) :
    frames (rs ++ rs') = frames rs ++ frames rs' := List.flatMap_append

/-- The records whose frames lie wholly inside the first `k` bytes. -/
def complete (k : Nat) : List (List UInt8) → List (List UInt8)
  | [] => []
  | r :: rs =>
      if (frame r).length ≤ k then r :: complete (k - (frame r).length) rs else []

/-- They are the longest run of records from the first on that fits. -/
theorem complete_eq_take (k : Nat) (rs : List (List UInt8)) :
    ∃ m ≤ rs.length, complete k rs = rs.take m ∧ (frames (rs.take m)).length ≤ k ∧
      (m < rs.length → k < (frames (rs.take (m + 1))).length) := by
  induction rs generalizing k with
  | nil => exact ⟨0, Nat.le_refl 0, rfl, Nat.zero_le k, fun h => absurd h (Nat.lt_irrefl 0)⟩
  | cons r rs ih =>
    unfold complete
    by_cases hk : (frame r).length ≤ k
    · obtain ⟨m, hm, heq, hle, hlt⟩ := ih (k - (frame r).length)
      refine ⟨m + 1, Nat.succ_le_succ hm, by rw [if_pos hk, heq, List.take_succ_cons], ?_, ?_⟩
      · rw [List.take_succ_cons, frames_cons, List.length_append]
        omega
      · intro hm'
        have := hlt (Nat.lt_of_succ_lt_succ hm')
        rw [List.take_succ_cons, frames_cons, List.length_append]
        omega
    · refine ⟨0, Nat.zero_le _, by rw [if_neg hk, List.take_zero], Nat.zero_le k, fun _ => ?_⟩
      rw [List.take_succ_cons, List.take_zero, frames_cons, frames_nil, List.append_nil]
      omega

/-- The beginning of a frame whose record is `ok`. -/
def Torn (ok : List UInt8 → Prop) (tail : List UInt8) : Prop :=
  ∃ r, ok r ∧ ∃ n < (frame r).length, tail = (frame r).take n

/-- A cut leaves whole frames and at most the beginning of one more. -/
theorem take_frames {ok : List UInt8 → Prop} {rs : List (List UInt8)} (h : ∀ r ∈ rs, ok r)
    (k : Nat) :
    ∃ tail, (frames rs).take k = frames (complete k rs) ++ tail ∧ (tail = [] ∨ Torn ok tail) := by
  induction rs generalizing k with
  | nil => exact ⟨[], by simp [complete], .inl rfl⟩
  | cons r rs ih =>
    rw [frames_cons, List.take_append]
    unfold complete
    by_cases hk : (frame r).length ≤ k
    · obtain ⟨tail, heq, htail⟩ := ih (fun x hx => h x (List.mem_cons_of_mem r hx))
        (k - (frame r).length)
      refine ⟨tail, ?_, htail⟩
      rw [if_pos hk, frames_cons, heq, List.take_of_length_le hk, List.append_assoc]
    · refine ⟨(frame r).take k, ?_, .inr ⟨r, h r List.mem_cons_self, k, Nat.lt_of_not_le hk, rfl⟩⟩
      rw [if_neg hk, Nat.sub_eq_zero_of_le (Nat.le_of_not_le hk), List.take_zero, List.append_nil,
        frames_nil, List.nil_append]

theorem complete_isPrefix (k : Nat) (rs : List (List UInt8)) : complete k rs <+: rs := by
  obtain ⟨m, -, heq, -⟩ := complete_eq_take k rs
  rw [heq]
  exact List.take_prefix m rs

end Framing
