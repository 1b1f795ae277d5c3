import Mathlib.Data.List.Flatten

/-!
Byte strings and UTF-8. `repair` is what an encoder of text makes of an
arbitrary byte string: it keeps every encoded character and writes the
replacement character for each byte that begins none. The strings it leaves
alone are the encodings of texts (`repair_eq_self_iff`).
-/

namespace Utf8

def encode (cs : List Char) : List UInt8 := cs.flatMap String.utf8EncodeChar

/-- The character at the front, if the bytes there are the encoding of one. -/
def decodeChar? (b : List UInt8) : Option Char := b.toByteArray.utf8DecodeChar? 0

/-- The encoding of U+FFFD. -/
def replacement : List UInt8 := [0xEF, 0xBF, 0xBD]

/-- Every round consumes a byte, so that fuel for the whole string is enough. -/
def repairLoop : Nat → List UInt8 → List UInt8
  | 0, _ => []
  | _, [] => []
  | fuel + 1, x :: rest =>
      match decodeChar? (x :: rest) with
      | some c => String.utf8EncodeChar c ++ repairLoop fuel ((x :: rest).drop c.utf8Size)
      | none => replacement ++ repairLoop fuel rest

def repair (b : List UInt8) : List UInt8 := repairLoop b.length b

def hexByte (n : Nat) : String :=
  "\\x" ++ String.ofList [Nat.digitChar (n / 16), Nat.digitChar (n % 16)]

/-- A character between double quotes. Every character above ASCII is taken to
be printable. -/
def quoteChar (c : Char) : String :=
  match c.toNat with
  | 7 => "\\a"
  | 8 => "\\b"
  | 9 => "\\t"
  | 10 => "\\n"
  | 11 => "\\v"
  | 12 => "\\f"
  | 13 => "\\r"
  | 34 => "\\\""
  | 92 => "\\\\"
  | n => if n < 32 ∨ n = 127 then hexByte n else c.toString

def quoteLoop : Nat → List UInt8 → String
  | 0, _ => ""
  | _, [] => ""
  | fuel + 1, x :: rest =>
      match decodeChar? (x :: rest) with
      | some c => quoteChar c ++ quoteLoop fuel ((x :: rest).drop c.utf8Size)
      | none => hexByte x.toNat ++ quoteLoop fuel rest

/-- The bytes as a quoted text. A byte that begins no character is written in
hexadecimal. -/
def quote (b : List UInt8) : String := "\"" ++ quoteLoop b.length b ++ "\""

theorem replacement_eq : replacement = encode [Char.ofNat 0xFFFD] := by decide

@[simp] theorem encode_cons (c : Char) (cs : List Char) :
    encode (c :: cs) = String.utf8EncodeChar c ++ encode cs := List.flatMap_cons

theorem encode_append (cs cs' : List Char) : encode (cs ++ cs') = encode cs ++ encode cs' :=
  List.flatMap_append

theorem decodeChar?_encode (c : Char) (rest : List UInt8) :
    decodeChar? (String.utf8EncodeChar c ++ rest) = some c := by
  rw [decodeChar?, List.toByteArray_append]
  exact ByteArray.utf8DecodeChar?_utf8EncodeChar_append

theorem repairLoop_encode {cs : List Char} {fuel : Nat} (h : (encode cs).length ≤ fuel) :
    repairLoop fuel (encode cs) = encode cs := by
  induction cs generalizing fuel with
  | nil => cases fuel <;> rfl
  | cons c cs ih =>
    have hpos := c.utf8Size_pos
    have hlen := String.length_utf8EncodeChar c
    rw [encode_cons, List.length_append] at h
    obtain ⟨fuel, rfl⟩ : ∃ k, fuel = k + 1 := ⟨fuel - 1, by omega⟩
    obtain ⟨x, xs, hx⟩ := List.exists_cons_of_ne_nil (@String.utf8EncodeChar_ne_nil c)
    have hdec := decodeChar?_encode c (encode cs)
    have hdrop : (String.utf8EncodeChar c ++ encode cs).drop c.utf8Size = encode cs := by
      rw [← hlen, List.drop_left]
    rw [encode_cons]
    rw [hx, List.cons_append] at hdec hdrop ⊢
    rw [repairLoop, hdec]
    dsimp only
    rw [hdrop, ih (by omega), hx, List.cons_append]

theorem exists_encode_repairLoop (fuel : Nat) (b : List UInt8) :
    ∃ cs, repairLoop fuel b = encode cs := by
  induction fuel generalizing b with
  | zero => exact ⟨[], rfl⟩
  | succ fuel ih =>
    cases b with
    | nil => exact ⟨[], rfl⟩
    | cons x rest =>
      rw [repairLoop]
      split
      · rename_i c _
        obtain ⟨cs, hcs⟩ := ih ((x :: rest).drop c.utf8Size)
        exact ⟨c :: cs, by rw [hcs, encode_cons]⟩
      · obtain ⟨cs, hcs⟩ := ih rest
        exact ⟨Char.ofNat 0xFFFD :: cs, by rw [hcs, replacement_eq, ← encode_append]; rfl⟩

theorem repair_encode (cs : List Char) : repair (encode cs) = encode cs :=
  repairLoop_encode (Nat.le_refl _)

theorem exists_encode_repair (b : List UInt8) : ∃ cs, repair b = encode cs :=
  exists_encode_repairLoop b.length b

theorem repair_eq_self_iff (b : List UInt8) : repair b = b ↔ ∃ cs, b = encode cs := by
  constructor
  · intro h
    obtain ⟨cs, hcs⟩ := exists_encode_repair b
    exact ⟨cs, h.symm.trans hcs⟩
  · rintro ⟨cs, rfl⟩
    exact repair_encode cs

/-- A string of some bytes stays a string of some bytes. -/
theorem repair_eq_nil_iff (b : List UInt8) : repair b = [] ↔ b = [] := by
  cases b with
  | nil => simp [repair, repairLoop]
  | cons x rest =>
    rw [repair, List.length_cons, repairLoop]
    split
    · simp [String.utf8EncodeChar_ne_nil]
    · simp [replacement]

/-! ## Texts -/

theorem toList_loop (b : ByteArray) (i : Nat) (acc : List UInt8) :
    ByteArray.toList.loop b i acc = acc.reverse ++ b.data.toList.drop i := by
  fun_induction ByteArray.toList.loop b i acc with
  | case1 i acc hlt ih =>
    have hget : b.data.toList.drop i = b.get! i :: b.data.toList.drop (i + 1) := by
      have hlt' : i < b.data.toList.length := by simpa using hlt
      rw [List.drop_eq_getElem_cons hlt']
      congr 1
      have hlt'' : i < b.data.size := by simpa using hlt'
      simp only [ByteArray.get!, getElem!_pos b.data i hlt'', Array.getElem_toList]
    rw [ih, hget, List.reverse_cons, List.append_assoc, List.singleton_append]
  | case2 i acc hge =>
    rw [List.drop_eq_nil_of_le (by simpa using hge), List.append_nil]

/-- The bytes of a text. -/
theorem toUTF8_toList (s : String) : s.toUTF8.toList = encode s.toList := by
  have hbytes : s.toUTF8 = s.toList.utf8Encode := by
    rw [← String.toByteArray_ofList, String.ofList_toList]
    rfl
  rw [ByteArray.toList, toList_loop, hbytes, List.utf8Encode]
  simp [encode]


end Utf8
