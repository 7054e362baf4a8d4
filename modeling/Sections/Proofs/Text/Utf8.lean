import Sections.Proofs.Text.Letters
import Sections.Text.Utf8

namespace Sections.Text

section Bytes

variable {bits k low high : Nat}

theorem openByte_single (h : k < 0x80) : openByte k = ([Char.ofNat k], none) := if_pos h

theorem openByte_two (hlow : 2 ≤ k) (hhigh : k ≤ 0x1F) :
    openByte (0xC0 + k) = ([], some ⟨k, 1, 0x80, 0xBF⟩) := by
  rw [openByte, if_neg (by omega), if_pos (by omega), Nat.add_sub_cancel_left]

theorem openByte_three (h : k ≤ 0xF) :
    openByte (0xE0 + k) =
      ([], some ⟨k, 2, if k = 0 then 0xA0 else 0x80, if k = 0xD then 0x9F else 0xBF⟩) := by
  have hfirst : 0xE0 + k = 0xE0 ↔ k = 0 := by omega
  have hlast : 0xE0 + k = 0xED ↔ k = 0xD := by omega
  rw [openByte, if_neg (by omega), if_neg (by omega), if_pos (by omega), Nat.add_sub_cancel_left]
  simp only [hfirst, hlast]

theorem openByte_four (h : k ≤ 4) :
    openByte (0xF0 + k) =
      ([], some ⟨k, 3, if k = 0 then 0x90 else 0x80, if k = 4 then 0x8F else 0xBF⟩) := by
  have hfirst : 0xF0 + k = 0xF0 ↔ k = 0 := by omega
  have hlast : 0xF0 + k = 0xF4 ↔ k = 4 := by omega
  rw [openByte, if_neg (by omega), if_neg (by omega), if_neg (by omega), if_pos (by omega),
    Nat.add_sub_cancel_left]
  simp only [hfirst, hlast]

theorem continueByte_last (hlow : low ≤ 0x80 + k) (hhigh : 0x80 + k ≤ high) :
    continueByte ⟨bits, 1, low, high⟩ (0x80 + k) = ([Char.ofNat (bits * 0x40 + k)], none) := by
  simp [continueByte, hlow, hhigh]

theorem continueByte_more {missing : Nat} (hlow : low ≤ 0x80 + k) (hhigh : 0x80 + k ≤ high) :
    continueByte ⟨bits, missing + 2, low, high⟩ (0x80 + k) =
      ([], some ⟨bits * 0x40 + k, missing + 1, 0x80, 0xBF⟩) := by
  simp [continueByte, hlow, hhigh]

end Bytes

section Characters

variable {a b c d n : Nat} {cs : List Char} {next : Option Partial} (rest : Bytes)

theorem decodeFrom_open (hn : n < 0x100) (h : openByte n = (cs, next)) :
    decodeFrom none (UInt8.ofNat n :: rest) = cs ++ decodeFrom next rest := by
  rw [decodeFrom, UInt8.toNat_ofNat_of_lt' hn, h]

theorem decodeFrom_continue {p : Partial} (hn : n < 0x100) (h : continueByte p n = (cs, next)) :
    decodeFrom (some p) (UInt8.ofNat n :: rest) = cs ++ decodeFrom next rest := by
  rw [decodeFrom, UInt8.toNat_ofNat_of_lt' hn, h]

theorem decodeFrom_two (hlow : 2 ≤ a) (hhigh : a ≤ 0x1F) (hb : b < 0x40) :
    decodeFrom none (UInt8.ofNat (0xC0 + a) :: UInt8.ofNat (0x80 + b) :: rest) =
      Char.ofNat (a * 0x40 + b) :: decodeFrom none rest := by
  rw [decodeFrom_open _ (by omega) (openByte_two hlow hhigh), List.nil_append,
    decodeFrom_continue _ (by omega) (continueByte_last (by omega) (by omega)),
    List.singleton_append]

-- The second byte may not make the character shorter or a surrogate.
theorem decodeFrom_three (ha : a ≤ 0xF) (hlow : a = 0 → 0x20 ≤ b) (hhigh : a = 0xD → b < 0x20)
    (hb : b < 0x40) (hc : c < 0x40) :
    decodeFrom none
        (UInt8.ofNat (0xE0 + a) :: UInt8.ofNat (0x80 + b) :: UInt8.ofNat (0x80 + c) :: rest) =
      Char.ofNat ((a * 0x40 + b) * 0x40 + c) :: decodeFrom none rest := by
  have hleast : (if a = 0 then 0xA0 else 0x80) ≤ 0x80 + b := by split <;> omega
  have hgreatest : 0x80 + b ≤ if a = 0xD then 0x9F else 0xBF := by split <;> omega
  rw [decodeFrom_open _ (by omega) (openByte_three ha), List.nil_append,
    decodeFrom_continue _ (by omega) (continueByte_more hleast hgreatest), List.nil_append,
    decodeFrom_continue _ (by omega) (continueByte_last (by omega) (by omega)),
    List.singleton_append]

-- The second byte may not make the character shorter or go beyond the last one.
theorem decodeFrom_four (ha : a ≤ 4) (hlow : a = 0 → 0x10 ≤ b) (hhigh : a = 4 → b < 0x10)
    (hb : b < 0x40) (hc : c < 0x40) (hd : d < 0x40) :
    decodeFrom none
        (UInt8.ofNat (0xF0 + a) :: UInt8.ofNat (0x80 + b) :: UInt8.ofNat (0x80 + c) ::
          UInt8.ofNat (0x80 + d) :: rest) =
      Char.ofNat (((a * 0x40 + b) * 0x40 + c) * 0x40 + d) :: decodeFrom none rest := by
  have hleast : (if a = 0 then 0x90 else 0x80) ≤ 0x80 + b := by split <;> omega
  have hgreatest : 0x80 + b ≤ if a = 4 then 0x8F else 0xBF := by split <;> omega
  rw [decodeFrom_open _ (by omega) (openByte_four ha), List.nil_append,
    decodeFrom_continue _ (by omega) (continueByte_more hleast hgreatest), List.nil_append,
    decodeFrom_continue _ (by omega) (continueByte_more (by omega) (by omega)), List.nil_append,
    decodeFrom_continue _ (by omega) (continueByte_last (by omega) (by omega)),
    List.singleton_append]

-- A character is read back from its bytes, whatever follows.
theorem decodeFrom_encodeChar (char : Char) :
    decodeFrom none (encodeChar char ++ rest) = char :: decodeFrom none rest := by
  have hvalid : char.toNat.isValidChar := char.valid
  have hback : Char.ofNat char.toNat = char := Char.ofNat_toNat char
  unfold Nat.isValidChar at hvalid
  unfold encodeChar
  generalize char.toNat = n at hvalid hback
  subst hback
  simp only
  split
  · rename_i h
    exact decodeFrom_open rest (by omega) (openByte_single h)
  · split
    · have hsum : n / 0x40 * 0x40 + n % 0x40 = n := by omega
      simpa [hsum] using @decodeFrom_two (n / 0x40) (n % 0x40) rest (by omega) (by omega) (by omega)
    · split
      · have hsum : (n / 0x1000 * 0x40 + n / 0x40 % 0x40) * 0x40 + n % 0x40 = n := by omega
        simpa [hsum] using @decodeFrom_three (n / 0x1000) (n / 0x40 % 0x40) (n % 0x40) rest
          (by omega) (by omega) (by omega) (by omega) (by omega)
      · have hsum : ((n / 0x40000 * 0x40 + n / 0x1000 % 0x40) * 0x40 + n / 0x40 % 0x40) * 0x40 +
            n % 0x40 = n := by omega
        simpa [hsum] using @decodeFrom_four (n / 0x40000) (n / 0x1000 % 0x40) (n / 0x40 % 0x40)
          (n % 0x40) rest (by omega) (by omega) (by omega) (by omega) (by omega) (by omega)

end Characters

theorem encodeChar_ne_nil (c : Char) : encodeChar c ≠ [] := by
  unfold encodeChar
  simp only
  split_ifs <;> exact List.cons_ne_nil _ _

theorem encodeChars_append (first second : List Char) :
    encodeChars (first ++ second) = encodeChars first ++ encodeChars second :=
  List.flatMap_append

theorem encodeChars_cons (c : Char) (cs : List Char) :
    encodeChars (c :: cs) = encodeChar c ++ encodeChars cs := rfl

theorem encode_ofChars_append (cs : List Char) (rest : Text) :
    encode (ofChars cs ++ rest) = encodeChars cs ++ encode rest := by
  rw [encode, chars_ofChars_append, encodeChars_append, encode]

theorem encode_ofChars (cs : List Char) : encode (ofChars cs) = encodeChars cs := by
  rw [encode, chars_ofChars]

-- Behind a text without a half at its end, bytes are those of the rest.
theorem WellFormed.encode_append {first : Text} (h : WellFormed first) (rest : Text) :
    encode (first ++ rest) = encode first ++ encode rest := by
  obtain ⟨cs, rfl⟩ := h
  rw [encode_ofChars_append, encode_ofChars]

theorem encode_units_append (c : Char) (rest : Text) :
    encode (c.units ++ rest) = encodeChar c ++ encode rest := by
  rw [encode, chars, letters_units, List.map_cons, Letter.toChar, encodeChars_cons, encode, chars]

theorem decodeFrom_encodeChars (cs : List Char) : decodeFrom none (encodeChars cs) = cs := by
  induction cs with
  | nil => rfl
  | cons c cs ih =>
      rw [encodeChars_cons, decodeFrom_encodeChar, ih]

theorem encode_eq_nil {text : Text} : encode text = [] ↔ text = [] := by
  rw [encode, encodeChars, List.flatMap_eq_nil_iff, ← letters_eq_nil]
  constructor
  · intro h
    refine List.eq_nil_iff_forall_not_mem.mpr fun letter hm => ?_
    exact encodeChar_ne_nil _ (h letter.toChar (List.mem_map_of_mem hm))
  · intro h
    simp [chars, h]

-- Reading undoes writing, but for the halves that stand alone.
theorem decode_encode (text : Text) : decode (encode text) = toWellFormed text := by
  rw [decode, encode, decodeFrom_encodeChars, toWellFormed]

theorem encode_toWellFormed (text : Text) : encode (toWellFormed text) = encode text := by
  rw [encode, chars_toWellFormed, encode]

theorem decode_wellFormed (bytes : Bytes) : WellFormed (decode bytes) := ⟨_, rfl⟩

end Sections.Text
