import Sections.Json.Printer
import Sections.Json.Reader
import Sections.Proofs.Text.Letters

namespace Sections.Json

open Text (Letter letters hexDigit numbered)

section Strings

variable {c u : CodeUnit} {more : Text}

theorem digit?_hexDigit : ∀ n < 16, Number.digit? 16 (hexDigit n) = some n := by decide

theorem natural?_numbered {n : Nat} (h : n < 0x10000) :
    Number.natural? 16 [hexDigit (n / 0x1000), hexDigit (n / 0x100 % 16), hexDigit (n / 16 % 16),
      hexDigit (n % 16)] = some n := by
  have hsum : (((0 * 16 + n / 0x1000) * 16 + n / 0x100 % 16) * 16 + n / 16 % 16) * 16 + n % 16 =
      n := by
    omega
  simp only [Number.natural?, List.foldl_cons, List.foldl_nil, Option.bind_eq_bind,
    Option.bind_some, Option.pure_def, digit?_hexDigit (n / 0x1000) (by omega),
    digit?_hexDigit (n / 0x100 % 16) (by omega), digit?_hexDigit (n / 16 % 16) (by omega),
    digit?_hexDigit (n % 16) (by omega), hsum]

theorem quoted?_numbered {n : Nat} (h : n < 0x10000) (more : Text) :
    quoted? (numbered n ++ more) =
      (quoted? more).map fun read => (UInt16.ofNat n :: read.1, read.2) := by
  simp only [numbered, List.cons_append, List.nil_append]
  rw [quoted?.eq_def]
  simp [natural?_numbered h]

-- A unit that needs no escape.
theorem quoted?_plain (hquote : c ≠ '"'.unit) (hback : c ≠ '\\'.unit) (hlow : 0x20 ≤ c.toNat)
    (more : Text) :
    quoted? (c :: more) = (quoted? more).map fun read => (c :: read.1, read.2) := by
  rw [quoted?.eq_def]
  simp [hquote, hback, Nat.not_lt.mpr hlow]

theorem quoted?_escaped {e : CodeUnit} (hu : u ≠ 'u'.unit) (he : escaped? u = some e)
    (more : Text) :
    quoted? ('\\'.unit :: u :: more) = (quoted? more).map fun read => (e :: read.1, read.2) := by
  rw [quoted?.eq_def]
  simp [hu, he]

-- Units that need no escape.
theorem quoted?_append {us : Text}
    (h : ∀ u ∈ us, u ≠ '"'.unit ∧ u ≠ '\\'.unit ∧ 0x20 ≤ u.toNat) (more : Text) :
    quoted? (us ++ more) = (quoted? more).map fun read => (us ++ read.1, read.2) := by
  induction us with
  | nil => simp
  | cons u us ih =>
      obtain ⟨⟨hquote, hback, hlow⟩, hus⟩ := List.forall_mem_cons.mp h
      rw [List.cons_append, quoted?_plain hquote hback hlow, ih hus, Option.map_map]
      rfl

theorem plain_of_mem_units {c : Char} (hquote : c ≠ '"') (hback : c ≠ '\\') (hlow : 0x20 ≤ c.toNat)
    (h : u ∈ c.units) : u ≠ '"'.unit ∧ u ≠ '\\'.unit ∧ 0x20 ≤ u.toNat := by
  have hself := Text.toNat_of_mem_units h
  have hq : c.toNat ≠ 34 := fun hc => hquote (Char.toNat_inj.mp hc)
  have hb : c.toNat ≠ 92 := fun hc => hback (Char.toNat_inj.mp hc)
  rw [ne_eq, ne_eq, ← UInt16.toNat_inj, ← UInt16.toNat_inj, Char.toNat_unit, Char.toNat_unit]
  simp only [Char.reduceToNat, Nat.reduceMod]
  omega

-- A letter is read back as it was escaped.
theorem quoted?_escape (letter : Letter) (more : Text) :
    quoted? (escape letter ++ more) =
      (quoted? more).map fun read => (letter.units ++ read.1, read.2) := by
  cases letter with
  | half u =>
      rw [escape, quoted?_numbered u.toNat_lt, UInt16.ofNat_toNat]
      rfl
  | char c =>
      have hletter : ∀ {n : Nat}, c.toNat = n → c = Char.ofNat n := by
        rintro n rfl
        exact (Char.ofNat_toNat c).symm
      unfold escape
      simp only
      split_ifs with hquote hback hfeed hreturn htab hbackspace hform hcontrol
      · subst hquote
        exact quoted?_escaped (by decide) rfl more
      · subst hback
        exact quoted?_escaped (by decide) rfl more
      · subst hfeed
        exact quoted?_escaped (by decide) rfl more
      · subst hreturn
        exact quoted?_escaped (by decide) rfl more
      · subst htab
        exact quoted?_escaped (by decide) rfl more
      · obtain rfl := hletter hbackspace
        exact quoted?_escaped (by decide) rfl more
      · obtain rfl := hletter hform
        exact quoted?_escaped (by decide) rfl more
      · rw [quoted?_numbered (by omega), Letter.units, Text.units_small (by omega)]
        rfl
      · exact quoted?_append (fun u hu =>
          plain_of_mem_units hquote hback (Nat.not_lt.mp hcontrol) hu) more

theorem quoted?_close (rest : Text) : quoted? ('"'.unit :: rest) = some ([], rest) := by
  rw [quoted?.eq_def]
  simp

theorem quoted?_escapes (letters : List Letter) (rest : Text) :
    quoted? (letters.flatMap escape ++ '"'.unit :: rest) =
      some (letters.flatMap Letter.units, rest) := by
  induction letters with
  | nil => exact quoted?_close rest
  | cons letter letters ih =>
      rw [List.flatMap_cons, List.append_assoc, quoted?_escape, ih]
      rfl

-- A text is read back from between its quotes, halves that stand alone included.
theorem quoted?_quote (text rest : Text) :
    ∃ inner, quote text ++ rest = '"'.unit :: inner ∧ quoted? inner = some (text, rest) := by
  refine ⟨(letters text).flatMap escape ++ '"'.unit :: rest, by simp [quote], ?_⟩
  rw [quoted?_escapes, Text.flatMap_units_letters]

end Strings

mutual

-- Values without numbers, whose objects have no name twice.
def Textual : Json → Prop
  | .number _ => False
  | .array items => TextualItems items
  | .object fields => TextualFields fields ∧ (fields.map (·.1)).Nodup
  | _ => True

def TextualItems : List Json → Prop
  | [] => True
  | item :: rest => item.Textual ∧ TextualItems rest

def TextualFields : List (Text × Json) → Prop
  | [] => True
  | (_, value) :: rest => value.Textual ∧ TextualFields rest

end

theorem textual_ofTexts (texts : List Text) : (ofTexts texts).Textual := by
  show TextualItems (texts.map .string)
  induction texts with
  | nil => trivial
  | cons text texts ih => exact ⟨trivial, ih⟩

section Spaces

variable {c d : CodeUnit} {spaces : Text}

theorem isSpace_newLine {depth : Nat} : ∀ c ∈ newLine depth, isSpace c = true := by
  rw [newLine]
  refine List.forall_mem_cons.mpr ⟨by decide, fun c hc => ?_⟩
  rw [List.eq_of_mem_replicate hc]
  decide

theorem next?_spaces (h : ∀ c ∈ spaces, isSpace c = true) (c : CodeUnit) (text : Text) :
    next? c (spaces ++ text) = next? c text := by
  rw [next?, skipSpace, List.dropWhile_append_of_pos h, next?, skipSpace]

theorem next?_cons (h : isSpace c = false) (rest : Text) :
    next? d (c :: rest) = if c = d then some rest else none := by
  rw [next?, skipSpace, List.dropWhile_cons_of_neg (by simp [h]), Number.behind?]

theorem next?_self (h : isSpace c = false) (rest : Text) : next? c (c :: rest) = some rest := by
  rw [next?_cons h, if_pos rfl]

end Spaces

-- What a value may begin with.
def isOpening (c : CodeUnit) : Bool :=
  !isSpace c && c ≠ ']'.unit && c ≠ '\x7d'.unit

theorem printAt_opening (value : Json) (depth : Nat) (h : value.Textual) :
    ∃ c rest, value.printAt depth = c :: rest ∧ isOpening c = true := by
  cases value with
  | null => exact ⟨_, _, rfl, by decide⟩
  | bool b => cases b <;> exact ⟨_, _, rfl, by decide⟩
  | number n => exact h.elim
  | string s => exact ⟨_, _, rfl, by decide⟩
  | array items => cases items <;> exact ⟨_, _, rfl, by decide⟩
  | object fields => cases fields <;> exact ⟨_, _, rfl, by decide⟩

-- Items and fields as they stand between the line breaks of their container.
def listedItems (depth : Nat) : List Json → Text
  | [] => []
  | item :: rest => item.printAt depth ++ printItems depth rest

def listedFields (depth : Nat) : List (Text × Json) → Text
  | [] => []
  | field :: rest => printField depth field ++ printFields depth rest

theorem printItems_cons (depth : Nat) (item : Json) (rest : List Json) :
    printItems depth (item :: rest) =
      ','.unit :: (newLine depth ++ listedItems depth (item :: rest)) := by
  simp [printItems, listedItems]

theorem printFields_cons (depth : Nat) (field : Text × Json) (rest : List (Text × Json)) :
    printFields depth (field :: rest) =
      ','.unit :: (newLine depth ++ listedFields depth (field :: rest)) := by
  simp [printFields, listedFields]

theorem printAt_array {items : List Json} (h : items ≠ []) (depth : Nat) :
    (Json.array items).printAt depth =
      '['.unit :: (newLine (depth + 1) ++ listedItems (depth + 1) items ++
        (newLine depth ++ [']'.unit])) := by
  cases items with
  | nil => contradiction
  | cons item rest => simp [printAt, listedItems]

theorem printAt_object {fields : List (Text × Json)} (h : fields ≠ []) (depth : Nat) :
    (Json.object fields).printAt depth =
      '\x7b'.unit :: (newLine (depth + 1) ++ listedFields (depth + 1) fields ++
        (newLine depth ++ ['\x7d'.unit])) := by
  cases fields with
  | nil => contradiction
  | cons field rest => simp [printAt, listedFields]

theorem put_of_notMem {name : Text} {fields : List (Text × Json)} (h : name ∉ fields.map (·.1))
    (value : Json) : put name value fields = fields ++ [(name, value)] := by
  induction fields with
  | nil => rfl
  | cons field fields ih =>
      obtain ⟨key, old⟩ := field
      simp only [List.map_cons, List.mem_cons, not_or] at h
      rw [put, if_neg (Ne.symm h.1), ih h.2, List.cons_append]

section Steps

variable {text rest spaces : Text} {fuel : Nat}

theorem value?_spaces (h : ∀ c ∈ spaces, isSpace c = true) (fuel : Nat) (text : Text) :
    value? fuel (spaces ++ text) = value? fuel text := by
  cases fuel with
  | zero => rfl
  | succ fuel =>
      simp only [value?, next?_spaces h, skipSpace, List.dropWhile_append_of_pos h]

theorem items?_spaces (h : ∀ c ∈ spaces, isSpace c = true) (fuel : Nat) (text : Text) :
    items? fuel (spaces ++ text) = items? fuel text := by
  cases fuel with
  | zero => rfl
  | succ fuel => simp only [items?, value?_spaces h]

theorem fields?_spaces (h : ∀ c ∈ spaces, isSpace c = true) (fuel : Nat) (text : Text)
    (read : List (Text × Json)) : fields? fuel (spaces ++ text) read = fields? fuel text read := by
  cases fuel with
  | zero => rfl
  | succ fuel =>
      cases fuel with
      | zero => rfl
      | succ fuel => simp only [fields?, entry?, next?_spaces h]

theorem next?_opening {c d : CodeUnit} (hc : isOpening c = true) (hd : isOpening d = false)
    (rest : Text) : next? d (c :: rest) = none := by
  have hspace : isSpace c = false := by
    unfold isOpening at hc
    simp only [Bool.and_eq_true, Bool.not_eq_true'] at hc
    exact hc.1.1
  rw [next?_cons hspace, if_neg]
  rintro rfl
  rw [hc] at hd
  contradiction

theorem value?_quote (fuel : Nat) (text rest : Text) :
    value? (fuel + 1) (quote text ++ rest) = some (.string text, rest) := by
  obtain ⟨inner, hquote, hread⟩ := quoted?_quote text rest
  have hnext : next? '"'.unit ('"'.unit :: inner) = some inner := next?_self (by decide) inner
  simp only [hquote, value?, hnext, hread, Option.map_some]

-- The bracket of an array that has items.
theorem value?_array {items : List Json} (hnext : next? ']'.unit text = none)
    (hread : items? fuel text = some (items, rest)) :
    value? (fuel + 1) ('['.unit :: text) = some (.array items, rest) := by
  have hquote : next? '"'.unit ('['.unit :: text) = none := by
    rw [next?_cons (by decide), if_neg (by decide)]
  have hopen : next? '['.unit ('['.unit :: text) = some text := next?_self (by decide) text
  simp only [value?, hquote, hopen, hnext, hread, Option.map_some]

-- The brace of an object that has fields.
theorem value?_object {fields : List (Text × Json)} (hnext : next? '\x7d'.unit text = none)
    (hread : fields? fuel text [] = some (fields, rest)) :
    value? (fuel + 1) ('\x7b'.unit :: text) = some (.object fields, rest) := by
  have hquote : next? '"'.unit ('\x7b'.unit :: text) = none := by
    rw [next?_cons (by decide), if_neg (by decide)]
  have hbracket : next? '['.unit ('\x7b'.unit :: text) = none := by
    rw [next?_cons (by decide), if_neg (by decide)]
  have hopen : next? '\x7b'.unit ('\x7b'.unit :: text) = some text := next?_self (by decide) text
  simp only [value?, hquote, hbracket, hopen, hnext, hread, Option.map_some]

theorem entry?_printField {value : Json} (name : Text) (depth : Nat)
    (hread : value? fuel (value.printAt depth ++ text) = some (value, rest)) :
    entry? (fuel + 1) (printField depth (name, value) ++ text) = some ((name, value), rest) := by
  obtain ⟨inner, hquote, hinner⟩ :=
    quoted?_quote name (':'.unit :: ([' '.unit] ++ (value.printAt depth ++ text)))
  have hname : next? '"'.unit ('"'.unit :: inner) = some inner := next?_self (by decide) inner
  have hcolon : next? ':'.unit (':'.unit :: ([' '.unit] ++ (value.printAt depth ++ text))) =
      some ([' '.unit] ++ (value.printAt depth ++ text)) := next?_self (by decide) _
  have hblank : ∀ c ∈ [' '.unit], isSpace c = true := List.forall_mem_singleton.mpr rfl
  have htext : printField depth (name, value) ++ text = '"'.unit :: inner := by
    rw [← hquote]
    simp [printField]
  simp only [htext, entry?, hname, Option.bind_some, hinner, hcolon, value?_spaces hblank, hread,
    Option.map_some]

-- What stands behind an item or a field: a comma or the end of the container.
theorem next?_comma (rest : Text) : next? ','.unit (','.unit :: rest) = some rest :=
  next?_self (by decide) rest

theorem next?_close (stop : CodeUnit) (hs : isSpace stop = false) (hc : stop ≠ ','.unit)
    (outer : Nat) (rest : Text) :
    next? ','.unit (newLine outer ++ (stop :: rest)) = none ∧
      next? stop (newLine outer ++ (stop :: rest)) = some rest := by
  rw [next?_spaces isSpace_newLine, next?_spaces isSpace_newLine]
  exact ⟨(next?_cons hs rest).trans (if_neg hc), next?_self hs rest⟩

end Steps

mutual

-- A printed value is read back, whatever follows.
theorem value?_printAt (value : Json) (h : value.Textual) (depth fuel : Nat) (rest : Text)
    (hf : (value.printAt depth).length ≤ fuel) :
    value? fuel (value.printAt depth ++ rest) = some (value, rest) := by
  obtain ⟨fuel, rfl⟩ : ∃ n, fuel = n + 1 := by
    obtain ⟨c, more, hcons, -⟩ := printAt_opening value depth h
    rw [hcons, List.length_cons] at hf
    exact ⟨fuel - 1, by omega⟩
  cases value with
  | null => rfl
  | bool b => cases b <;> rfl
  | number n => exact h.elim
  | string text => exact value?_quote fuel text rest
  | array items =>
      cases items with
      | nil => rfl
      | cons item more =>
          rw [printAt_array (List.cons_ne_nil _ _)] at hf ⊢
          rw [List.cons_append, List.append_assoc, List.append_assoc, List.append_assoc]
          simp only [List.length_cons, List.length_append] at hf
          refine value?_array ?_ ?_
          · obtain ⟨c, text, hcons, hc⟩ := printAt_opening item (depth + 1) h.1
            rw [next?_spaces isSpace_newLine, listedItems, hcons, List.cons_append,
              List.cons_append]
            exact next?_opening hc (by decide) _
          · rw [items?_spaces isSpace_newLine]
            exact items?_listedItems (item :: more) (List.cons_ne_nil _ _) h _ _ _ _ (by omega)
  | object fields =>
      cases fields with
      | nil => rfl
      | cons field more =>
          obtain ⟨name, value⟩ := field
          rw [printAt_object (List.cons_ne_nil _ _)] at hf ⊢
          rw [List.cons_append, List.append_assoc, List.append_assoc, List.append_assoc]
          simp only [List.length_cons, List.length_append] at hf
          refine value?_object ?_ ?_
          · rw [next?_spaces isSpace_newLine]
            exact @next?_opening '"'.unit '\x7d'.unit (by decide) (by decide) _
          · rw [fields?_spaces isSpace_newLine]
            exact fields?_listedFields ((name, value) :: more) (List.cons_ne_nil _ _) h.1 [] h.2 _ _
              _ _ (by omega)

theorem items?_listedItems (items : List Json) (hne : items ≠ []) (h : TextualItems items)
    (depth outer fuel : Nat) (rest : Text) (hf : (listedItems depth items).length < fuel) :
    items? fuel (listedItems depth items ++ (newLine outer ++ (']'.unit :: rest))) =
      some (items, rest) := by
  cases items with
  | nil => contradiction
  | cons item more =>
      obtain ⟨fuel, rfl⟩ : ∃ n, fuel = n + 1 := ⟨fuel - 1, by omega⟩
      rw [listedItems, List.length_append] at hf
      rw [listedItems, List.append_assoc, items?, value?_printAt item h.1 depth fuel _ (by omega)]
      cases more with
      | nil =>
          obtain ⟨hcomma, hclose⟩ := next?_close ']'.unit (by decide) (by decide) outer rest
          simp only [printItems, List.nil_append, hcomma, hclose]
      | cons next others =>
          rw [printItems_cons] at hf ⊢
          simp only [List.length_cons, List.length_append] at hf
          have hrest := items?_listedItems (next :: others) (List.cons_ne_nil _ _) h.2 depth outer
            fuel rest (by omega)
          simp only [List.cons_append, List.append_assoc, next?_comma,
            items?_spaces isSpace_newLine, hrest, Option.map_some]

theorem fields?_listedFields (fields : List (Text × Json)) (hne : fields ≠ [])
    (h : TextualFields fields) (read : List (Text × Json))
    (hd : ((read ++ fields).map (·.1)).Nodup) (depth outer fuel : Nat) (rest : Text)
    (hf : (listedFields depth fields).length < fuel) :
    fields? fuel (listedFields depth fields ++ (newLine outer ++ ('\x7d'.unit :: rest))) read =
      some (read ++ fields, rest) := by
  cases fields with
  | nil => contradiction
  | cons field more =>
      obtain ⟨name, value⟩ := field
      rw [listedFields, List.length_append] at hf
      have hlen : (value.printAt depth).length + 2 ≤ (printField depth (name, value)).length := by
        simp only [printField, List.length_append, List.length_cons]
        omega
      obtain ⟨fuel, rfl⟩ : ∃ n, fuel = n + 2 := ⟨fuel - 2, by omega⟩
      have hnew : name ∉ read.map (·.1) := by
        intro hm
        rw [List.map_append, List.nodup_append] at hd
        exact hd.2.2 name hm name (by simp) rfl
      rw [listedFields, List.append_assoc, fields?,
        entry?_printField name depth (value?_printAt value h.1 depth fuel _ (by omega))]
      simp only [put_of_notMem hnew]
      cases more with
      | nil =>
          obtain ⟨hcomma, hclose⟩ :=
            next?_close '\x7d'.unit (by decide) (by decide) outer rest
          simp only [printFields, List.nil_append, hcomma, hclose]
      | cons next others =>
          rw [printFields_cons] at hf ⊢
          simp only [List.length_cons, List.length_append] at hf
          have hrest := fields?_listedFields (next :: others) (List.cons_ne_nil _ _) h.2
            (read ++ [(name, value)]) (by simpa using hd) depth outer (fuel + 1) rest (by omega)
          simp only [List.cons_append, List.append_assoc, next?_comma,
            fields?_spaces isSpace_newLine] at hrest ⊢
          simpa using hrest

end

-- Printing loses nothing of a value without numbers.
theorem parse?_print {value : Json} (h : value.Textual) : parse? value.print = some value := by
  have hread := value?_printAt value h 0 (2 * (value.printAt 0).length + 2) [] (by omega)
  rw [List.append_nil] at hread
  rw [parse?, print, hread]
  rfl

end Sections.Json
