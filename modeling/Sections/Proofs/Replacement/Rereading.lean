import Sections.Proofs.DocumentOrder
import Sections.Proofs.Nesting.TreeShape
import Sections.Proofs.Replacement
import Sections.Proofs.Text.Joining

namespace Sections

open Text (Listing Unbroken IsTerminator Seamless EndsLine)

namespace Hook

variable {separator content : Text}

-- The lines that are read where a replacement was written. A terminator at its end that is not the
-- separator is followed by the separator, which then ends an empty line. A line feed at its start
-- ends no line of its own behind a carriage return.
def linesRead (separator content : Text) : List Text :=
  if content = [] then []
  else
    (if separator = ['\r'.unit] ∧ content.head? = some '\n'.unit then (Text.lines content).tail
      else Text.lines content) ++
    (if separator ≠ ['\n'.unit] ∧ EndsLine content ∧ Text.endsWith content separator = false
      then [[]] else [])

theorem terminated_of_endsWith (h : Text.endsWith content separator = true) :
    terminated separator content = content := by
  simp [terminated, h]

theorem terminated_of_not_endsWith (hne : content ≠ [])
    (h : Text.endsWith content separator = false) :
    terminated separator content = content ++ separator := by
  simp [terminated, h, hne]

theorem exists_terminated (separator : Text) (hne : content ≠ []) :
    ∃ before, terminated separator content = before ++ separator := by
  cases h : Text.endsWith content separator with
  | true =>
      obtain ⟨before, hb⟩ := List.isSuffixOf_iff_suffix.mp h
      exact ⟨before, (terminated_of_endsWith h).trans hb.symm⟩
  | false => exact ⟨content, terminated_of_not_endsWith hne h⟩

theorem head?_terminated (separator : Text) (hne : content ≠ []) :
    (terminated separator content).head? = content.head? := by
  cases h : Text.endsWith content separator with
  | true => rw [terminated_of_endsWith h]
  | false => rw [terminated_of_not_endsWith hne h, List.head?_append_of_ne_nil _ hne]

-- The separator that is put behind a replacement ends its last line, or an empty one.
theorem lines_terminated (hs : IsTerminator separator) (hne : content ≠ []) :
    Text.lines (terminated separator content) = Text.lines content ++
      if separator ≠ ['\n'.unit] ∧ EndsLine content ∧ Text.endsWith content separator = false
      then [[]] else [] := by
  cases h : Text.endsWith content separator with
  | true => rw [terminated_of_endsWith h, if_neg (by simp), List.append_nil]
  | false =>
      rw [terminated_of_not_endsWith hne h]
      by_cases hends : EndsLine content
      · by_cases hfeed : separator = ['\n'.unit]
        · subst hfeed
          have hlast : content.getLast? = some '\r'.unit := hends.resolve_right fun hlast => by
            obtain ⟨before, rfl⟩ := List.getLast?_eq_some_iff.mp hlast
            rw [Text.endsWith, List.isSuffixOf_iff_suffix.mpr ⟨before, rfl⟩] at h
            contradiction
          rw [Text.lines_append_feed hlast, if_neg (by simp), List.append_nil]
        · have hseam : Seamless content separator := fun _ => by
            rcases hs.resolve_left hfeed with rfl | rfl <;> simp
          rw [Text.lines_append_separator hs hseam, hends.pieces_eq,
            if_pos ⟨hfeed, hends, rfl⟩]
      · have hseam : Seamless content separator := fun hlast => absurd (Or.inl hlast) hends
        rw [Text.lines_append_separator hs hseam, Text.pieces_eq_of_not_endsLine hends,
          if_neg (by simp [hends]), List.append_nil]

theorem mem_linesRead {line : Text} (h : line ∈ linesRead separator content) :
    line ∈ Text.lines content ∨ line = [] := by
  unfold linesRead at h
  split at h
  · exact absurd h List.not_mem_nil
  · rcases List.mem_append.mp h with h | h
    · split at h
      · exact Or.inl (List.mem_of_mem_tail h)
      · exact Or.inl h
    · split at h
      · exact Or.inr (List.mem_singleton.mp h)
      · exact absurd h List.not_mem_nil

theorem unbroken_of_mem_linesRead {line : Text} (h : line ∈ linesRead separator content) :
    Unbroken line := by
  rcases mem_linesRead h with h | rfl
  · exact Text.unbroken_of_mem_lines h
  · exact fun _ hc => absurd hc List.not_mem_nil

-- No line that is read has a marker if none of the replacement has.
theorem isPlain_of_mem_linesRead
    (hp : ∀ line ∈ Text.lines content, Vocabulary.standard.IsPlain line) {line : Text}
    (h : line ∈ linesRead separator content) : Vocabulary.standard.IsPlain line := by
  rcases mem_linesRead h with h | rfl
  · exact hp line h
  · exact ⟨rfl, rfl⟩

-- Behind a marker line a replacement is cut into its lines.
theorem pieces_replacement (hs : IsTerminator separator) {line rest : Text} (hl : Unbroken line)
    (hr : Seamless separator rest) (content : Text) :
    Text.pieces (line ++ separator ++ terminated separator content ++ rest) =
      line :: (linesRead separator content ++ Text.pieces rest) := by
  by_cases hne : content = []
  · subst hne
    have hread : linesRead separator [] = [] := rfl
    have hnone : terminated separator [] = [] := rfl
    rw [hread, hnone, List.append_nil, List.nil_append]
    exact Text.pieces_line hs hl rest hr.head?_ne
  · obtain ⟨before, hb⟩ := exists_terminated separator hne
    have hhead := head?_terminated separator hne
    have hlines := lines_terminated hs hne
    rw [hb] at hhead hlines
    rw [hb, Text.pieces_behind_line hs hl hr before, hhead, hlines, linesRead, if_neg hne]
    split
    · rw [List.tail_append_of_ne_nil (Text.lines_ne_nil content)]
    · rfl

end Hook

namespace Table

variable {replacements : Table}

-- No line of a replacement has a marker.
def MarkerFree (replacements : Table) : Prop :=
  ∀ entry ∈ replacements, ∀ line ∈ Text.lines entry.2, Vocabulary.standard.IsPlain line

instance (replacements : Table) : Decidable replacements.MarkerFree :=
  inferInstanceAs (Decidable (∀ entry ∈ replacements, ∀ line ∈ Text.lines entry.2,
    Vocabulary.standard.IsPlain line))

-- The head that is read where a new head was written.
def headRead? (separator : Text) (replacements : Table) (name : Text) : Option Text :=
  (replacements.get? name).map fun content => Text.unlines separator (Hook.linesRead separator content)

theorem MarkerFree.plainText (h : replacements.MarkerFree) {separator name head : Text}
    (hn : replacements.headRead? separator name = some head) : PlainText separator head := by
  obtain ⟨content, hc, rfl⟩ := Option.map_eq_some_iff.mp hn
  exact ⟨_, fun line hl => ⟨Hook.unbroken_of_mem_linesRead hl,
    Hook.isPlain_of_mem_linesRead (h _ (mem_of_get? hc)) hl⟩, rfl⟩

end Table

namespace Vocabulary

variable {v : Vocabulary} {separator : Text}

theorem seamless_rewriteHeads (hs : IsTerminator separator) (heads : Text → Option Text)
    (drops : Bool) {ls : List Text} (hu : ∀ line ∈ ls, Unbroken line) :
    Seamless separator (v.rewriteHeads separator heads drops ls) := by
  induction ls generalizing drops with
  | nil => exact fun _ => by simp [rewriteHeads]
  | cons line rest ih =>
      obtain ⟨hline, hrest⟩ := List.forall_mem_cons.mp hu
      rw [rewriteHeads]
      split
      · cases drops with
        | true => exact ih true hrest
        | false => exact hs.seamless_line hline _
      · split
        · rw [List.append_assoc]
          exact hs.seamless_line hline _
        · exact hs.seamless_line hline _

-- New heads are cut apart into the lines that are read where they were written.
theorem pieces_rewriteHeads (hs : IsTerminator separator) (replacements : Table) (drops : Bool)
    {ls : List Text} (hu : ∀ line ∈ ls, Unbroken line) :
    Text.pieces (v.rewriteHeads separator (replacements.newHead? separator) drops ls) =
      Text.pieces (v.rewriteHeads separator (replacements.headRead? separator) drops ls) := by
  induction ls generalizing drops with
  | nil => rfl
  | cons line rest ih =>
      obtain ⟨hline, hrest⟩ := List.forall_mem_cons.mp hu
      have hseam : ∀ heads drops, Seamless separator (v.rewriteHeads separator heads drops rest) :=
        fun heads drops => seamless_rewriteHeads hs heads drops hrest
      have hkept : ∀ drops,
          Text.pieces (line ++ separator ++
            v.rewriteHeads separator (replacements.newHead? separator) drops rest) =
          Text.pieces (line ++ separator ++
            v.rewriteHeads separator (replacements.headRead? separator) drops rest) := fun drops => by
        rw [Text.pieces_line hs hline _ (hseam _ _).head?_ne,
          Text.pieces_line hs hline _ (hseam _ _).head?_ne, ih drops hrest]
      rw [rewriteHeads, rewriteHeads]
      by_cases hp : v.IsPlain line
      · rw [if_pos hp, if_pos hp]
        cases drops with
        | true => exact ih true hrest
        | false => exact hkept false
      · rw [if_neg hp, if_neg hp]
        have hnew : (v.startName? line).bind (replacements.newHead? separator) =
            ((v.startName? line).bind replacements.get?).map (Hook.terminated separator) := by
          cases v.startName? line <;> rfl
        have hread : (v.startName? line).bind (replacements.headRead? separator) =
            ((v.startName? line).bind replacements.get?).map fun content =>
              Text.unlines separator (Hook.linesRead separator content) := by
          cases v.startName? line <;> rfl
        rw [hnew, hread]
        cases hc : (v.startName? line).bind replacements.get? with
        | none => exact hkept false
        | some content =>
            obtain ⟨name, -, hget⟩ := Option.bind_eq_some_iff.mp hc
            have hlines : ∀ other ∈ line :: Hook.linesRead separator content, Unbroken other :=
              List.forall_mem_cons.mpr ⟨hline, fun other ho => (Hook.unbroken_of_mem_linesRead ho)⟩
            have hback := Text.pieces_unlines_append hs hlines
              (v.rewriteHeads separator (replacements.headRead? separator) true rest)
              (hseam _ _).head?_ne
            rw [Text.unlines_cons] at hback
            simp only [Option.map_some]
            rw [Hook.pieces_replacement hs hline (hseam _ _), hback, ih true hrest,
              List.cons_append]

end Vocabulary

-- A text with replacements is read as its tree with the heads that are read from them.
theorem Section.parse_replaced {separator text : Text} {root : Section} {replacements : Table}
    (hs : IsTerminator separator) (hp : replacements.MarkerFree)
    (h : Section.parse .standard separator text = .ok root) :
    Section.parse .standard separator
        ((root.mapContent (Slot.newHead (replacements.newHead? separator))).render separator) =
      .ok (root.mapContent (Slot.newHead (replacements.headRead? separator))) := by
  rw [← parse_newHeads hs (fun name head => hp.plainText) h]
  obtain ⟨layout, hl, rfl⟩ :=
    (Section.ofLines_eq_ok_iff Vocabulary.standard_named separator _ root).mp h
  have hu : ∀ line ∈ layout.lines, Unbroken line := fun line hm =>
    Text.unbroken_of_mem_lines (hl ▸ hm)
  rw [layout.render_newHeads_tree, layout.render_newHeads_tree, Section.parse, Section.parse,
    Text.lines_congr (Vocabulary.pieces_rewriteHeads hs replacements false hu)]

-- New heads hide what the heads of the same names were before.
theorem Section.mapContent_newHead_newHead {heads before : Text → Option Text}
    (h : ∀ name, (before name).isSome = true → (heads name).isSome = true) (s : Section) :
    (s.mapContent (Slot.newHead before)).mapContent (Slot.newHead heads) =
      s.mapContent (Slot.newHead heads) := by
  rw [mapContent_mapContent]
  refine mapContent_congr fun slot _ => ?_
  cases hn : slot.name.bind heads with
  | some head => simp [Slot.newHead, hn]
  | none =>
      have hb : slot.name.bind before = none := by
        cases hname : slot.name with
        | none => rfl
        | some name =>
            rw [hname, Option.bind_some] at hn
            have hnone := mt (h name)
            rw [hn] at hnone
            simpa using hnone
      simp [Slot.newHead, hn, hb]

namespace Options

-- The tree of a text after a replacement.
def reread (options : Options) (replacements : Table) (text : Text) : Except EditError Section :=
  (options.replace replacements text).bind fun replaced => options.readTree replaced.text

theorem reread_eq {options : Options} {text : Text} {root : Section} {replacements : Table}
    (hs : IsTerminator options.separator) (hp : replacements.MarkerFree)
    (h : Section.parse .standard options.separator text = .ok root) :
    options.reread replacements text =
      .ok (root.mapContent (Slot.newHead (replacements.headRead? options.separator))) := by
  obtain ⟨present, -, hreplace⟩ := replace_eq replacements h
  rw [reread, hreplace]
  exact readTree_of_parse_ok (Section.parse_replaced hs hp h)

section Seams

def returns : Options := ⟨['\r'.unit], .concurrent (.atMost 2 Nat.zero_lt_two)⟩

-- One replacement starts and ends with a terminator that is not the separator, and one name is that
-- of no section.
def seamHeads : Table := [(['a'.unit], "\nx\n".units), (['b'.unit], []), (['z'.unit], ['z'.unit])]

-- A section in another one, and a section of the same name behind an empty line.
def seamText : Text :=
  Text.unlines ['\n'.unit] ["top".units, "SECTION-START[a]".units, "old".units,
    "SECTION-START[b]".units, "old".units, "SECTION-END".units, ['t'.unit], "SECTION-END".units, [],
    "SECTION-START[a]".units, "SECTION-END".units]

def seamsReplaced : Text :=
  Text.unlines ['\r'.unit] ["top".units, "SECTION-START[a]".units, "\nx\n".units,
    "SECTION-START[b]".units, "SECTION-END".units, ['t'.unit], "SECTION-END".units, [],
    "SECTION-START[a]".units, "\nx\n".units, "SECTION-END".units]

theorem replace_seamText :
    returns.replace seamHeads seamText =
      .ok ⟨seamsReplaced, [['z'.unit]], [['a'.unit], ['b'.unit]]⟩ := by
  decide +kernel

theorem exists_readTree_seamText : ∃ root, returns.readTree seamText = .ok root :=
  exists_readTree (by decide +kernel)

end Seams

-- Replacing again changes nothing. All that the first replacement changes in the tree is the heads
-- of the names that it has.
theorem replace_again (options : Options) (hs : IsTerminator options.separator) {text : Text}
    {root : Section} (hr : options.readTree text = .ok root) {replacements : Table}
    (hp : replacements.MarkerFree) :
    ∃ replaced tree heads, options.replace replacements text = .ok replaced ∧
      options.readTree replaced.text = .ok tree ∧
      tree = root.mapContent (Slot.newHead heads) ∧
      (∀ name, (heads name).isSome = true ↔ name ∈ replacements.keys) ∧
      tree.outline = root.outline ∧
      options.replace replacements replaced.text = .ok replaced := by
  rw [readTree_eq_ok_iff] at hr
  simp only [readTree_eq_ok_iff]
  have hread := Section.parse_replaced hs hp hr
  obtain ⟨present, hpresent, hreplace⟩ := replace_eq replacements hr
  obtain ⟨others, hothers, hagain⟩ := replace_eq replacements hread
  refine ⟨_, _, _, hreplace, hread, rfl, fun name => ?_, Section.outline_mapContent _ root, ?_⟩
  · rw [Table.headRead?, Option.isSome_map, Table.isSome_get?]
  · rw [Section.names_mapContent] at hothers
    rw [hagain, hothers.unique hpresent, Section.names_mapContent,
      Section.mapContent_newHead_newHead fun name hn => ?_]
    rwa [Table.newHead?, Option.isSome_map, ← Option.isSome_map]

theorem replace_again_seams :
    Text.IsTerminator returns.separator ∧ seamHeads.MarkerFree ∧
      ∃ root tree heads, returns.readTree seamText = .ok root ∧
        returns.readTree seamsReplaced = .ok tree ∧
        tree = root.mapContent (Slot.newHead heads) ∧
        (∀ name, (heads name).isSome = true ↔ name ∈ [['a'.unit], ['b'.unit], ['z'.unit]]) ∧
        tree.outline = root.outline ∧
        returns.replace seamHeads seamsReplaced =
          .ok ⟨seamsReplaced, [['z'.unit]], [['a'.unit], ['b'.unit]]⟩ := by
  have hs : Text.IsTerminator returns.separator := by decide
  have hp : seamHeads.MarkerFree := by decide +kernel
  obtain ⟨root, hr⟩ := exists_readTree_seamText
  obtain ⟨replaced, tree, heads, hreplace, hread, htree, hheads, houtline, hagain⟩ :=
    replace_again returns hs hr hp
  obtain rfl := Except.ok.inj (replace_seamText.symm.trans hreplace)
  exact ⟨hs, hp, root, tree, heads, hr, hread, htree, hheads, houtline, hagain⟩

-- A replacement is read back as its lines, each followed by the separator, but for its first line
-- and an empty one at its end where its own terminators are not the separator.
theorem reread_heads (options : Options) (hs : IsTerminator options.separator) {text : Text}
    {root : Section} (hr : options.readTree text = .ok root) {replacements : Table}
    (hp : replacements.MarkerFree) :
    ∃ tree, options.reread replacements text = .ok tree ∧ tree.names = root.names ∧
      ∀ slot ∈ tree.slots, ∀ name content, slot.name = some name →
        replacements.get? name = some content →
        slot.content.head =
          Text.unlines options.separator (Hook.linesRead options.separator content) := by
  have hread := reread_eq hs hp (readTree_eq_ok_iff.mp hr)
  refine ⟨_, hread, Section.names_mapContent _ root, fun slot hslot name content hn hc => ?_⟩
  rw [Section.slots_mapContent] at hslot
  obtain ⟨source, -, rfl⟩ := List.mem_map.mp hslot
  simp only at hn
  simp [Slot.newHead, Table.headRead?, hn, hc]

-- Behind a carriage return the line feed at the start ends no line, and the one at the end is
-- followed by a separator of its own.
theorem reread_heads_seams :
    Text.IsTerminator returns.separator ∧ seamHeads.MarkerFree ∧
      (∃ root, returns.readTree seamText = .ok root) ∧
      ∃ tree, returns.reread seamHeads seamText = .ok tree ∧ ∀ slot ∈ tree.slots,
        (slot.name = some ['a'.unit] → slot.content.head = "x\r\r".units) ∧
        (slot.name = some ['b'.unit] → slot.content.head = []) := by
  have hs : Text.IsTerminator returns.separator := by decide
  have hp : seamHeads.MarkerFree := by decide +kernel
  obtain ⟨root, hr⟩ := exists_readTree_seamText
  obtain ⟨tree, htree, -, hheads⟩ := reread_heads returns hs hr hp
  refine ⟨hs, hp, ⟨root, hr⟩, tree, htree, fun slot hslot => ⟨fun hn => ?_, fun hn => ?_⟩⟩
  · rw [hheads slot hslot ['a'.unit] "\nx\n".units hn rfl]
    decide
  · rw [hheads slot hslot ['b'.unit] [] hn rfl]
    decide

def bareText : Text :=
  Text.unlines ['\n'.unit] ["SECTION-START[a]".units, "SECTION-END".units]

-- A replacement that ends with a line feed gains a line where the separator is a carriage return
-- with a line feed, and one that starts with a line feed loses a line where it is a carriage return.
theorem reread_heads_unlike_lines :
    Table.MarkerFree [(['a'.unit], "x\n".units)] ∧ Table.MarkerFree [(['a'.unit], "\nx".units)] ∧
      (reread ⟨['\r'.unit, '\n'.unit], .sequential⟩ [(['a'.unit], "x\n".units)] bareText).map
          (·.headOf? ['a'.unit]) =
        .ok (some "x\r\n\r\n".units) ∧
      Text.unlines ['\r'.unit, '\n'.unit] (Text.lines "x\n".units) = "x\r\n".units ∧
      (reread ⟨['\r'.unit], .sequential⟩ [(['a'.unit], "\nx".units)] bareText).map
          (·.headOf? ['a'.unit]) =
        .ok (some "x\r".units) ∧
      Text.unlines ['\r'.unit] (Text.lines "\nx".units) = "\rx\r".units := by
  decide +kernel

end Options

end Sections
