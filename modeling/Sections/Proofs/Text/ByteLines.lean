import Mathlib.Data.List.Basic
import Sections.Proofs.Text.Letters
import Sections.Proofs.Text.Lines
import Sections.Proofs.Text.Utf8

namespace Sections

-- The pieces of bytes between line terminators. Of a carriage return directly followed by a line
-- feed only the line feed counts.
def Bytes.pieces : Bytes → List Bytes
  | [] => [[]]
  | b :: rest =>
      if b = 13 ∧ rest.head? = some 10 then pieces rest
      else if b = 13 ∨ b = 10 then [] :: pieces rest
      else (pieces rest).modifyHead (b :: ·)

-- An empty last piece is no line, unless it is the only one.
def linesOfPieces {α : Type} [DecidableEq α] (pieces : List (List α)) : List (List α) :=
  if pieces ≠ [[]] ∧ pieces.getLast? = some [] then pieces.dropLast else pieces

def Bytes.lines (bytes : Bytes) : List Bytes := linesOfPieces (Bytes.pieces bytes)

-- The bytes of some text.
def Bytes.WellFormed (bytes : Bytes) : Prop := ∃ text, bytes = Text.encode text

-- No byte of a terminator is among the bytes.
def Bytes.Unbroken (bytes : Bytes) : Prop := ∀ b ∈ bytes, b ≠ 13 ∧ b ≠ 10

theorem Text.lines_eq_linesOfPieces (text : Text) :
    Text.lines text = linesOfPieces (Text.pieces text) := by
  unfold Text.lines linesOfPieces
  by_cases hempty : text = []
  · subst hempty
    rfl
  · have hpieces : Text.pieces text ≠ [[]] := mt Text.pieces_eq_singleton_nil hempty
    simp [hempty, hpieces]

theorem linesOfPieces_map {α β : Type} [DecidableEq α] [DecidableEq β] {f : List α → List β}
    (hf : ∀ piece, f piece = [] ↔ piece = []) (pieces : List (List α)) :
    linesOfPieces (pieces.map f) = (linesOfPieces pieces).map f := by
  have hsingle : pieces.map f = [[]] ↔ pieces = [[]] := by
    simp [List.map_eq_singleton_iff, hf]
  have hlast : (pieces.map f).getLast? = some [] ↔ pieces.getLast? = some [] := by
    simp [List.getLast?_map, hf]
  unfold linesOfPieces
  simp only [ne_eq, hsingle, hlast]
  split
  · exact (List.map_dropLast ..).symm
  · rfl

namespace Bytes

variable {b : UInt8} {line rest : Bytes}

theorem pieces_ne_nil (bytes : Bytes) : pieces bytes ≠ [] := by
  fun_induction pieces bytes with
  | case1 => simp
  | case2 b rest _ ih => exact ih
  | case3 b rest _ _ ih => simp
  | case4 b rest _ _ ih => simpa using ih

theorem pieces_feed (rest : Bytes) : pieces (10 :: rest) = [] :: pieces rest := by
  rw [pieces, if_neg (by simp), if_pos (by simp)]

theorem pieces_return (h : rest.head? ≠ some 10) : pieces (13 :: rest) = [] :: pieces rest := by
  rw [pieces, if_neg (by simp [h]), if_pos (by simp)]

theorem pieces_return_feed (rest : Bytes) : pieces (13 :: 10 :: rest) = [] :: pieces rest := by
  rw [pieces, if_pos (by simp), pieces_feed]

theorem pieces_cons (hb : b ≠ 13 ∧ b ≠ 10) (rest : Bytes) :
    pieces (b :: rest) = (pieces rest).modifyHead (b :: ·) := by
  rw [pieces, if_neg (by simp [hb.1]), if_neg (by simp [hb.1, hb.2])]

theorem pieces_unbroken (h : Unbroken line) (rest : Bytes) :
    pieces (line ++ rest) = (pieces rest).modifyHead (line ++ ·) := by
  induction line with
  | nil =>
      rw [List.nil_append]
      cases pieces rest <;> rfl
  | cons b line ih =>
      obtain ⟨hb, hl⟩ := List.forall_mem_cons.mp h
      rw [List.cons_append, pieces_cons hb, ih hl, List.modifyHead_modifyHead]
      rfl

end Bytes

namespace Text

section Encoding

variable {c : Char}

theorem toNat_unbroken_iff {byte : UInt8} :
    byte.toNat ≠ 13 ∧ byte.toNat ≠ 10 ↔ byte ≠ 13 ∧ byte ≠ 10 := by
  have hreturn : byte.toNat = 13 ↔ byte = 13 := @UInt8.toNat_inj byte 13
  have hfeed : byte.toNat = 10 ↔ byte = 10 := @UInt8.toNat_inj byte 10
  rw [ne_eq, ne_eq, hreturn, hfeed]

-- A byte of a character is the character itself, or is none that could be.
theorem exists_of_mem_encodeChar {byte : UInt8} (h : byte ∈ encodeChar c) :
    ∃ n < 0x100, byte = UInt8.ofNat n ∧ (n = c.toNat ∨ 0x80 ≤ n) := by
  have hvalid : c.toNat < 0x110000 := by
    have hv : c.toNat.isValidChar := c.valid
    unfold Nat.isValidChar at hv
    omega
  unfold encodeChar at h
  simp only at h
  split_ifs at h
  · exact ⟨_, by omega, List.mem_singleton.mp h, .inl rfl⟩
  all_goals simp only [List.mem_cons, List.not_mem_nil, or_false] at h
  · rcases h with rfl | rfl <;> exact ⟨_, by omega, rfl, .inr (by omega)⟩
  · rcases h with rfl | rfl | rfl <;> exact ⟨_, by omega, rfl, .inr (by omega)⟩
  · rcases h with rfl | rfl | rfl | rfl <;> exact ⟨_, by omega, rfl, .inr (by omega)⟩

theorem encodeChar_unbroken (hc : c.toNat ≠ 13 ∧ c.toNat ≠ 10) : Bytes.Unbroken (encodeChar c) := by
  intro byte hb
  obtain ⟨n, hn, rfl, hself⟩ := exists_of_mem_encodeChar hb
  rw [← toNat_unbroken_iff, UInt8.toNat_ofNat_of_lt' hn]
  omega

theorem unit_unbroken_iff {u : CodeUnit} :
    u ≠ '\r'.unit ∧ u ≠ '\n'.unit ↔ u.toNat ≠ 13 ∧ u.toNat ≠ 10 := by
  rw [ne_eq, ne_eq, ← UInt16.toNat_inj, ← UInt16.toNat_inj]
  rfl

theorem units_unbroken (hc : c.toNat ≠ 13 ∧ c.toNat ≠ 10) : Unbroken c.units := by
  intro u hu
  have hself := toNat_of_mem_units hu
  rw [unit_unbroken_iff]
  omega

-- A line feed begins the bytes just if it begins the text.
theorem head?_encodeChars (cs : List Char) :
    (encodeChars cs).head? = some 10 ↔ (ofChars cs).head? = some '\n'.unit := by
  cases cs with
  | nil => simp [encodeChars, ofChars]
  | cons c cs =>
      by_cases hfeed : c = '\n'
      · subst hfeed
        exact iff_of_true rfl rfl
      by_cases hreturn : c = '\r'
      · subst hreturn
        exact iff_of_false (by simp [encodeChars_cons, encodeChar])
          (by simp [ofChars_cons, Char.units])
      have hc : c.toNat ≠ 13 ∧ c.toNat ≠ 10 :=
        ⟨fun h => hreturn (Char.toNat_inj.mp h), fun h => hfeed (Char.toNat_inj.mp h)⟩
      obtain ⟨b, bytes, hb⟩ := List.exists_cons_of_ne_nil (encodeChar_ne_nil c)
      obtain ⟨u, units, hu⟩ := List.exists_cons_of_ne_nil (units_ne_nil c)
      refine iff_of_false ?_ ?_
      · simpa [encodeChars_cons, hb] using (encodeChar_unbroken hc b (by simp [hb])).2
      · simpa [ofChars_cons, hu] using (units_unbroken hc u (by simp [hu])).2

theorem pieces_return_of_feed {rest : Text} (h : rest.head? = some '\n'.unit) :
    pieces ('\r'.unit :: rest) = pieces rest := by
  obtain ⟨behind, rfl⟩ := List.head?_eq_some_iff.mp h
  rw [pieces_feed]
  rfl

-- Writing a text writes its pieces.
theorem pieces_encodeChars (cs : List Char) :
    Bytes.pieces (encodeChars cs) = (pieces (ofChars cs)).map encode := by
  induction cs with
  | nil => rfl
  | cons c cs ih =>
      rw [encodeChars_cons, ofChars_cons]
      by_cases hreturn : c = '\r'
      · subst hreturn
        show Bytes.pieces (13 :: encodeChars cs) = (pieces ('\r'.unit :: ofChars cs)).map encode
        by_cases hfeed : (ofChars cs).head? = some '\n'.unit
        · rw [Bytes.pieces, if_pos ⟨rfl, (head?_encodeChars cs).mpr hfeed⟩, ih,
            pieces_return_of_feed hfeed]
        · rw [Bytes.pieces_return (mt (head?_encodeChars cs).mp hfeed), ih, pieces_return hfeed]
          rfl
      by_cases hfeed : c = '\n'
      · subst hfeed
        show Bytes.pieces (10 :: encodeChars cs) = (pieces ('\n'.unit :: ofChars cs)).map encode
        rw [Bytes.pieces_feed, ih, pieces_feed]
        rfl
      have hc : c.toNat ≠ 13 ∧ c.toNat ≠ 10 :=
        ⟨fun h => hreturn (Char.toNat_inj.mp h), fun h => hfeed (Char.toNat_inj.mp h)⟩
      rw [Bytes.pieces_unbroken (encodeChar_unbroken hc), ih, pieces_unbroken (units_unbroken hc)]
      obtain ⟨first, others, hp⟩ := List.exists_cons_of_ne_nil (pieces_ne_nil (ofChars cs))
      simp [hp, encode_units_append]

theorem WellFormed.unlines {separator : Text} (hs : WellFormed separator) {ls : List Text}
    (h : ∀ line ∈ ls, WellFormed line) : WellFormed (unlines separator ls) := by
  induction ls with
  | nil => exact ⟨[], rfl⟩
  | cons line ls ih =>
      obtain ⟨hline, hls⟩ := List.forall_mem_cons.mp h
      exact (hline.append hs).append (ih hls)

theorem IsTerminator.wellFormed {separator : Text} (h : IsTerminator separator) :
    WellFormed separator := by
  rcases h with rfl | rfl | rfl
  · exact ⟨['\n'], rfl⟩
  · exact ⟨['\r', '\n'], rfl⟩
  · exact ⟨['\r'], rfl⟩

theorem WellFormed.lines_encode {text : Text} (h : WellFormed text) :
    Bytes.lines (encode text) = (lines text).map encode := by
  obtain ⟨cs, rfl⟩ := h
  rw [Bytes.lines, encode_ofChars, pieces_encodeChars, linesOfPieces_map fun _ => encode_eq_nil,
    lines_eq_linesOfPieces]

end Encoding

section Decoding

variable {state : Option Partial} {p : Partial} {b : Nat}

-- Characters of which none ends a line.
def LineChars (cs : List Char) : Prop := ∀ c ∈ cs, c.toNat ≠ 13 ∧ c.toNat ≠ 10

theorem LineChars.unbroken {cs : List Char} (h : LineChars cs) : Unbroken (ofChars cs) := by
  intro u hu
  obtain ⟨c, hc, hm⟩ := List.mem_flatMap.mp hu
  exact units_unbroken (h c hc) u hm

-- What one byte adds to the characters, and what it leaves unfinished.
def decodeStep : Option Partial → Nat → List Char × Option Partial
  | none, b => openByte b
  | some p, b => continueByte p b

theorem decodeFrom_cons (state : Option Partial) (byte : UInt8) (rest : Bytes) :
    decodeFrom state (byte :: rest) =
      (decodeStep state byte.toNat).1 ++ decodeFrom (decodeStep state byte.toNat).2 rest := by
  cases state <;> rfl

-- A character of several bytes takes no byte below 0x80, and lies beyond the terminators.
structure Partial.Sound (p : Partial) : Prop where
  low : 0x80 ≤ p.low
  beyond : 13 < p.bits * 0x40 + (p.low - 0x80)

-- A number that is no character stands for the null character.
theorem ofNat_lineChars {n : Nat} (h : n ≠ 13 ∧ n ≠ 10) : LineChars [Char.ofNat n] := by
  have htoNat : (Char.ofNat n).toNat = n ∨ (Char.ofNat n).toNat = 0 := by
    by_cases hn : n.isValidChar
    · exact .inl (congrArg Char.toNat (dif_pos hn : Char.ofNat n = Char.ofNatAux n hn))
    · exact .inr (congrArg Char.toNat (dif_neg hn : Char.ofNat n = _))
  simp only [LineChars, List.mem_singleton, forall_eq]
  omega

theorem replacement_lineChars : LineChars [replacement] := ofNat_lineChars (by decide)

-- A first byte is a character of its own, starts one of several bytes, or is ill-formed.
theorem openByte_cases (b : Nat) :
    b < 0x80 ∧ openByte b = ([Char.ofNat b], none) ∨
      0x80 ≤ b ∧ ((∃ p : Partial, p.Sound ∧ openByte b = ([], some p)) ∨
        openByte b = ([replacement], none)) := by
  unfold openByte
  split
  · exact .inl ⟨‹_›, rfl⟩
  rename_i hb
  refine .inr ⟨Nat.not_lt.mp hb, ?_⟩
  split
  · exact .inl ⟨_, ⟨Nat.le_refl _, by simp only; omega⟩, rfl⟩
  split
  · refine .inl ⟨_, ⟨?_, ?_⟩, rfl⟩ <;> simp only <;> split <;> omega
  split
  · refine .inl ⟨_, ⟨?_, ?_⟩, rfl⟩ <;> simp only <;> split <;> omega
  · exact .inr rfl

-- A further byte ends the character, goes on with it, or breaks it off and is read afresh.
theorem continueByte_cases (hp : p.Sound) (b : Nat) :
    0x80 ≤ b ∧ ((∃ c, LineChars [c] ∧ continueByte p b = ([c], none)) ∨
        ∃ q : Partial, q.Sound ∧ continueByte p b = ([], some q)) ∨
      continueByte p b = (replacement :: (openByte b).1, (openByte b).2) := by
  unfold continueByte
  split
  · rename_i hrange
    have hlow := hp.low
    have hbeyond := hp.beyond
    refine .inl ⟨Nat.le_trans hp.low hrange.1, ?_⟩
    split
    · exact .inl ⟨_, ofNat_lineChars (by omega), rfl⟩
    · exact .inr ⟨_, ⟨Nat.le_refl _, by simp only; omega⟩, rfl⟩
  · exact .inr rfl

theorem openByte_sound (b : Nat) : ∀ p ∈ (openByte b).2, p.Sound := by
  rcases openByte_cases b with ⟨-, h⟩ | ⟨-, ⟨p, hp, h⟩ | h⟩
  · simp [h]
  · simpa [h] using hp
  · simp [h]

theorem openByte_lineChars (hb : b ≠ 13 ∧ b ≠ 10) : LineChars (openByte b).1 := by
  rcases openByte_cases b with ⟨-, h⟩ | ⟨-, ⟨p, -, h⟩ | h⟩
  · rw [h]
    exact ofNat_lineChars hb
  · simp [h, LineChars]
  · rw [h]
    exact replacement_lineChars

section Step

variable (hs : ∀ p ∈ state, p.Sound)

include hs

theorem decodeStep_sound (b : Nat) : ∀ p ∈ (decodeStep state b).2, p.Sound := by
  cases state with
  | none => exact openByte_sound b
  | some p =>
      rcases continueByte_cases (hs p rfl) b with ⟨-, ⟨c, -, h⟩ | ⟨q, hq, h⟩⟩ | h
      · simp [decodeStep, h]
      · simpa [decodeStep, h] using hq
      · simpa [decodeStep, h] using openByte_sound b

theorem decodeStep_lineChars (hb : b ≠ 13 ∧ b ≠ 10) : LineChars (decodeStep state b).1 := by
  cases state with
  | none => exact openByte_lineChars hb
  | some p =>
      rcases continueByte_cases (hs p rfl) b with ⟨-, ⟨c, hc, h⟩ | ⟨q, -, h⟩⟩ | h
      · simpa only [decodeStep, h] using hc
      · simp [decodeStep, h, LineChars]
      · rw [decodeStep, h]
        exact List.forall_mem_cons.mpr
          ⟨replacement_lineChars replacement (by simp), openByte_lineChars hb⟩

-- A byte below 0x80 is a character of its own, and breaks off the unfinished one.
theorem decodeStep_ascii (hb : b < 0x80) :
    decodeStep state b = (decodeFrom state [] ++ [Char.ofNat b], none) := by
  have hopen : openByte b = ([Char.ofNat b], none) := openByte_single hb
  cases state with
  | none => exact hopen
  | some p =>
      rcases continueByte_cases (hs p rfl) b with ⟨hle, -⟩ | h
      · omega
      · rw [decodeStep, h, hopen]
        rfl

theorem decodeFrom_ascii {byte : UInt8} (hb : byte.toNat < 0x80) (rest : Bytes) :
    ofChars (decodeFrom state (byte :: rest)) =
      ofChars (decodeFrom state []) ++ ofChars [Char.ofNat byte.toNat] ++ decode rest := by
  rw [decodeFrom_cons, decodeStep_ascii hs hb, ofChars_append, ofChars_append, decode]

theorem decodeFrom_return (rest : Bytes) :
    ofChars (decodeFrom state (13 :: rest)) =
      ofChars (decodeFrom state []) ++ ['\r'.unit] ++ decode rest :=
  decodeFrom_ascii hs (by decide) rest

theorem decodeFrom_feed (rest : Bytes) :
    ofChars (decodeFrom state (10 :: rest)) =
      ofChars (decodeFrom state []) ++ ['\n'.unit] ++ decode rest :=
  decodeFrom_ascii hs (by decide) rest

theorem decodeFrom_nil_lineChars : LineChars (decodeFrom state []) := by
  cases state with
  | none => simp [decodeFrom, LineChars]
  | some p => exact replacement_lineChars

end Step

-- An unfinished character comes to something that is no terminator.
theorem decodeFrom_some (hp : p.Sound) (bytes : Bytes) :
    ∃ c rest, decodeFrom (some p) bytes = c :: rest ∧ LineChars [c] := by
  induction bytes generalizing p with
  | nil => exact ⟨replacement, [], rfl, replacement_lineChars⟩
  | cons byte bytes ih =>
      rw [decodeFrom_cons, decodeStep]
      rcases continueByte_cases hp byte.toNat with ⟨-, ⟨c, hc, h⟩ | ⟨q, hq, h⟩⟩ | h
      · exact ⟨c, _, by rw [h]; rfl, hc⟩
      · simpa only [h, List.nil_append] using ih hq
      · exact ⟨replacement, _, by rw [h]; rfl, replacement_lineChars⟩

-- The first character of some bytes ends a line only where their first byte does.
theorem exists_decodeFrom_none (byte : UInt8) (bytes : Bytes) :
    ∃ c rest, decodeFrom none (byte :: bytes) = c :: rest ∧
      (byte ≠ 13 ∧ byte ≠ 10 → LineChars [c]) := by
  rw [decodeFrom_cons, decodeStep]
  rcases openByte_cases byte.toNat with ⟨-, h⟩ | ⟨-, ⟨p, hp, h⟩ | h⟩
  · exact ⟨_, _, by rw [h]; rfl, fun hb => ofNat_lineChars (toNat_unbroken_iff.mpr hb)⟩
  · obtain ⟨c, rest, hrest, hc⟩ := decodeFrom_some hp bytes
    exact ⟨c, rest, by rw [h]; exact hrest, fun _ => hc⟩
  · exact ⟨_, _, by rw [h]; rfl, fun _ => replacement_lineChars⟩

theorem decode_eq_nil {bytes : Bytes} : decode bytes = [] ↔ bytes = [] := by
  cases bytes with
  | nil => simp [decode, decodeFrom, ofChars]
  | cons byte bytes =>
      obtain ⟨c, rest, h, -⟩ := exists_decodeFrom_none byte bytes
      simp [decode, h, ofChars_cons, units_ne_nil]

theorem head?_decode {bytes : Bytes} (h : bytes.head? ≠ some 10) :
    (decode bytes).head? ≠ some '\n'.unit := by
  cases bytes with
  | nil => simp [decode, decodeFrom, ofChars]
  | cons byte bytes =>
      by_cases hreturn : byte = 13
      · subst hreturn
        rw [decode, decodeFrom_return (by simp)]
        simp [decodeFrom, ofChars]
      obtain ⟨c, rest, hc, hline⟩ := exists_decodeFrom_none byte bytes
      obtain ⟨u, units, hu⟩ := List.exists_cons_of_ne_nil (units_ne_nil c)
      have hunbroken := (hline ⟨hreturn, by simpa using h⟩).unbroken u (by simp [ofChars, hu])
      simpa [decode, hc, ofChars_cons, hu] using hunbroken.2

-- What is unfinished before some bytes belongs to the first piece of them. Behind every terminator
-- decoding starts afresh.
theorem pieces_decodeFrom (hs : ∀ p ∈ state, p.Sound) {bytes first : Bytes} {others : List Bytes}
    (h : Bytes.pieces bytes = first :: others) :
    pieces (ofChars (decodeFrom state bytes)) =
      ofChars (decodeFrom state first) :: others.map decode := by
  have hflush := (decodeFrom_nil_lineChars hs).unbroken
  induction bytes generalizing state first others with
  | nil =>
      obtain ⟨rfl, rfl⟩ := List.cons.inj h
      exact pieces_eq_singleton hflush
  | cons byte rest ih =>
      obtain ⟨next, following, hrest⟩ := List.exists_cons_of_ne_nil (Bytes.pieces_ne_nil rest)
      have hdecode : pieces (decode rest) = (Bytes.pieces rest).map decode := by
        rw [hrest]
        exact ih (by simp) hrest (decodeFrom_nil_lineChars (by simp)).unbroken
      by_cases hreturn : byte = 13
      · subst hreturn
        by_cases hnext : rest.head? = some 10
        · obtain ⟨behind, rfl⟩ := List.head?_eq_some_iff.mp hnext
          have hfeed : decode (10 :: behind) = '\n'.unit :: decode behind :=
            decodeFrom_feed (by simp) behind
          rw [hfeed, pieces_feed, Bytes.pieces_feed] at hdecode
          rw [Bytes.pieces_return_feed] at h
          obtain ⟨rfl, rfl⟩ := List.cons.inj h
          rw [decodeFrom_return hs, hfeed, ← (List.cons.inj hdecode).2]
          simpa using pieces_line (.inr (.inl rfl)) hflush (decode behind) (by simp)
        · rw [Bytes.pieces_return hnext] at h
          obtain ⟨rfl, rfl⟩ := List.cons.inj h
          rw [decodeFrom_return hs, ← hdecode]
          exact pieces_line (.inr (.inr rfl)) hflush (decode rest) fun _ => head?_decode hnext
      by_cases hfeed : byte = 10
      · subst hfeed
        rw [Bytes.pieces_feed] at h
        obtain ⟨rfl, rfl⟩ := List.cons.inj h
        rw [decodeFrom_feed hs, ← hdecode]
        exact pieces_line (.inl rfl) hflush (decode rest) (by simp)
      · have hb : byte ≠ 13 ∧ byte ≠ 10 := ⟨hreturn, hfeed⟩
        have hsound := decodeStep_sound hs byte.toNat
        rw [Bytes.pieces_cons hb, hrest] at h
        obtain ⟨rfl, rfl⟩ := List.cons.inj h
        have hpieces := ih hsound hrest (decodeFrom_nil_lineChars hsound).unbroken
        rw [decodeFrom_cons, decodeFrom_cons, ofChars_append, ofChars_append,
          pieces_unbroken (decodeStep_lineChars hs (toNat_unbroken_iff.mpr hb)).unbroken]
        simp [hpieces]

-- Reading bytes reads their pieces, whether they are well formed or not.
theorem pieces_decode (bytes : Bytes) :
    pieces (decode bytes) = (Bytes.pieces bytes).map decode := by
  obtain ⟨first, others, h⟩ := List.exists_cons_of_ne_nil (Bytes.pieces_ne_nil bytes)
  rw [h]
  exact pieces_decodeFrom (by simp) h

theorem lines_decode (bytes : Bytes) : lines (decode bytes) = (Bytes.lines bytes).map decode := by
  rw [lines_eq_linesOfPieces, pieces_decode, linesOfPieces_map fun _ => decode_eq_nil, Bytes.lines]

end Decoding

end Text

namespace Bytes

theorem wellFormed_nil : WellFormed [] := ⟨[], rfl⟩

theorem WellFormed.append {first second : Bytes} (hf : WellFormed first) (hs : WellFormed second) :
    WellFormed (first ++ second) := by
  obtain ⟨text, rfl⟩ := hf
  obtain ⟨rest, rfl⟩ := hs
  refine ⟨Text.ofChars (Text.chars text ++ Text.chars rest), ?_⟩
  rw [Text.encode_ofChars, Text.encodeChars_append, Text.encode, Text.encode]

theorem wellFormed_return : WellFormed [13] := ⟨['\r'.unit], rfl⟩

theorem wellFormed_feed : WellFormed [10] := ⟨['\n'.unit], rfl⟩

theorem wellFormed_iff_decode {bytes : Bytes} :
    WellFormed bytes ↔ Text.encode (Text.decode bytes) = bytes := by
  constructor
  · rintro ⟨text, rfl⟩
    rw [Text.decode_encode, Text.encode_toWellFormed]
  · intro h
    exact ⟨Text.decode bytes, h.symm⟩

-- Terminators are well formed, so bytes are if their pieces are. What stands before the bytes
-- joins the first piece.
theorem wellFormed_append_of_pieces (front : Bytes) {bytes first : Bytes} {others : List Bytes}
    (h : pieces bytes = first :: others) (hf : WellFormed (front ++ first))
    (ho : ∀ piece ∈ others, WellFormed piece) : WellFormed (front ++ bytes) := by
  induction bytes generalizing front first others with
  | nil =>
      obtain ⟨rfl, rfl⟩ := List.cons.inj h
      exact hf
  | cons byte rest ih =>
      obtain ⟨next, following, hrest⟩ := List.exists_cons_of_ne_nil (pieces_ne_nil rest)
      by_cases hb : byte ≠ 13 ∧ byte ≠ 10
      · rw [pieces_cons hb, hrest] at h
        obtain ⟨rfl, rfl⟩ := List.cons.inj h
        rw [List.append_cons] at hf ⊢
        exact ih _ hrest hf ho
      have hbyte : byte = 13 ∨ byte = 10 := by
        by_cases hreturn : byte = 13
        · exact .inl hreturn
        · exact .inr (Classical.not_not.mp fun hfeed => hb ⟨hreturn, hfeed⟩)
      have hwell : WellFormed [byte] := by
        rcases hbyte with rfl | rfl
        · exact wellFormed_return
        · exact wellFormed_feed
      rw [List.append_cons]
      by_cases hskip : byte = 13 ∧ rest.head? = some 10
      · obtain ⟨rfl, hnext⟩ := hskip
        obtain ⟨behind, rfl⟩ := List.head?_eq_some_iff.mp hnext
        rw [pieces_return_feed] at h
        obtain ⟨rfl, rfl⟩ := List.cons.inj h
        rw [List.append_nil] at hf
        exact (hf.append hwell).append (ih [] (pieces_feed behind) wellFormed_nil ho)
      · rw [pieces, if_neg hskip, if_pos hbyte] at h
        obtain ⟨rfl, rfl⟩ := List.cons.inj h
        rw [List.append_nil] at hf
        rw [hrest] at ho
        obtain ⟨hnext, hfollowing⟩ := List.forall_mem_cons.mp ho
        exact (hf.append hwell).append (ih [] hrest hnext hfollowing)

theorem wellFormed_iff_pieces {bytes : Bytes} :
    WellFormed bytes ↔ ∀ piece ∈ pieces bytes, WellFormed piece := by
  constructor
  · rintro ⟨text, rfl⟩ piece hp
    rw [Text.encode, Text.pieces_encodeChars] at hp
    obtain ⟨line, -, rfl⟩ := List.mem_map.mp hp
    exact ⟨line, rfl⟩
  · intro h
    obtain ⟨first, others, hp⟩ := List.exists_cons_of_ne_nil (pieces_ne_nil bytes)
    rw [hp] at h
    obtain ⟨hf, ho⟩ := List.forall_mem_cons.mp h
    exact wellFormed_append_of_pieces [] hp hf ho

theorem pieces_eq_lines (bytes : Bytes) :
    pieces bytes = lines bytes ∨ pieces bytes = lines bytes ++ [[]] := by
  unfold lines linesOfPieces
  split
  · rename_i h
    exact .inr (List.dropLast_append_getLast? [] h.2).symm
  · exact .inl rfl

theorem wellFormed_iff_lines {bytes : Bytes} :
    WellFormed bytes ↔ ∀ line ∈ lines bytes, WellFormed line := by
  rw [wellFormed_iff_pieces]
  rcases pieces_eq_lines bytes with h | h
  · rw [h]
  · simp only [h, List.forall_mem_append, List.mem_singleton, forall_eq, wellFormed_nil, and_true]

-- The bytes of lines that are read and written again.
def rewritten (separator : Text) (bytes : Bytes) : Bytes :=
  Text.encode (Text.unlines separator ((lines bytes).map Text.decode))

theorem rewritten_eq (separator : Text) (bytes : Bytes) :
    rewritten separator bytes =
      Text.encode (Text.unlines separator (Text.lines (Text.decode bytes))) := by
  rw [rewritten, Text.lines_decode]

-- No line can make a pair with a separator of characters.
theorem rewritten_eq_flatMap {separator : Text} (hs : Text.WellFormed separator) (bytes : Bytes) :
    rewritten separator bytes =
      (lines bytes).flatMap fun line =>
        Text.encode (Text.decode line) ++ Text.encode separator := by
  unfold rewritten
  induction lines bytes with
  | nil => rfl
  | cons line rest ih =>
      rw [List.map_cons, Text.unlines_cons, List.append_assoc,
        (Text.decode_wellFormed line).encode_append, hs.encode_append, ih, List.flatMap_cons,
        List.append_assoc]

theorem lines_rewritten {separator : Text} (hs : Text.IsTerminator separator) (bytes : Bytes) :
    lines (rewritten separator bytes) =
      (lines bytes).map fun line => Text.encode (Text.decode line) := by
  have hunbroken : ∀ line ∈ Text.lines (Text.decode bytes), Text.Unbroken line :=
    fun _ => Text.unbroken_of_mem_lines
  have hwell : Text.WellFormed (Text.unlines separator (Text.lines (Text.decode bytes))) := by
    refine Text.WellFormed.unlines hs.wellFormed ?_
    rw [Text.lines_decode]
    simp only [List.forall_mem_map]
    exact fun line _ => Text.decode_wellFormed line
  rw [rewritten_eq, hwell.lines_encode, Text.lines_unlines hs (Text.lines_ne_nil _) hunbroken,
    Text.lines_decode, List.map_map]
  rfl

-- All lines stay as they are just for the bytes of a text.
theorem lines_rewritten_eq_iff {separator : Text} (hs : Text.IsTerminator separator)
    {bytes : Bytes} : lines (rewritten separator bytes) = lines bytes ↔ WellFormed bytes := by
  have hmap := List.map_inj_left (l := lines bytes)
    (f := fun line => Text.encode (Text.decode line)) (g := id)
  rw [List.map_id] at hmap
  rw [lines_rewritten hs, wellFormed_iff_lines, hmap]
  simp only [wellFormed_iff_decode, id]

end Bytes

end Sections
