import Sections.Proofs.Merge
import Sections.Proofs.Nesting.TreeShape

namespace Sections

open Text (Listing)

namespace Section

variable {root old : Section} {name head : Text}

-- A tree with the heads of an older one, by name.
def withHeadsOf (root old : Section) : Section := root.mapContent (Slot.newHead old.headOf?)

theorem namedHeads_mapContent_newHead (heads : Text → Option Text) (s : Section) :
    (s.mapContent (Slot.newHead heads)).namedHeads =
      s.namedHeads.map fun entry => (entry.1, (heads entry.1).getD entry.2) := by
  rw [namedHeads, slots_mapContent, namedHeads, List.filterMap_map, List.map_filterMap]
  congr 1
  funext slot
  cases hn : slot.name <;> simp [Slot.namedHead?, Slot.newHead, hn]

-- The head of a name comes from the older tree where that has the name.
theorem headOf?_withHeadsOf (root old : Section) (name : Text) :
    (root.withHeadsOf old).headOf? name =
      (root.headOf? name).map fun head => (old.headOf? name).getD head := by
  rw [headOf?_eq_get? root, headOf?_eq_get? (root.withHeadsOf old), withHeadsOf,
    namedHeads_mapContent_newHead]
  exact Table.get?_map (fun name head => (old.headOf? name).getD head) root.namedHeads

theorem head_of_mem_withHeadsOf (ho : old.headOf? name = some head) :
    ∀ slot ∈ (root.withHeadsOf old).slots, slot.name = some name → slot.content.head = head := by
  intro slot hs hn
  rw [withHeadsOf, slots_mapContent] at hs
  obtain ⟨source, -, rfl⟩ := List.mem_map.mp hs
  simp only at hn
  simp [Slot.newHead, hn, ho]

-- A section without children.
def leaf (name head : Text) : Section :=
  ⟨some name, some (Marker.startMark ++ name ++ [']'.unit]), head, [], [], some Marker.endMark⟩

-- Heads that were taken over already are taken over again.
theorem withHeadsOf_withHeadsOf (h : root.names.Nodup) (old : Section) :
    root.withHeadsOf (root.withHeadsOf old) = root.withHeadsOf old := by
  refine mapContent_congr fun slot hs => ?_
  cases hn : slot.name with
  | none => simp [Slot.newHead, hn]
  | some name =>
      have hroot := headOf?_of_nodup h hs hn
      simp [Slot.newHead, hn, headOf?_withHeadsOf, hroot]

end Section

namespace Options

variable {options : Options} {generated existing : Text} {root old : Section}

-- A merge gives the generated tree with the heads of the existing one.
theorem merge_eq_withHeadsOf
    (ho : Section.parse .standard options.separator existing = .ok old)
    (h : Section.parse .standard options.separator generated = .ok root) :
    ∃ outcome, options.merge generated existing = .ok outcome ∧
      outcome.text = (root.withHeadsOf old).render options.separator ∧
      Listing outcome.merged (fun name => name ∈ root.names ∧ name ∈ old.names) ∧
      Listing outcome.dropped (fun name => name ∈ old.names ∧ name ∉ root.names) := by
  obtain ⟨outcome, hmerge, hm⟩ := merge_of_parse_ok ho h
  refine ⟨outcome, hmerge, ?_, ?_, ?_⟩
  · obtain ⟨layout, hl, rfl⟩ :=
      (Section.ofLines_eq_ok_iff Vocabulary.standard_named options.separator _ root).mp h
    obtain ⟨before, hb, rfl⟩ :=
      (Section.ofLines_eq_ok_iff Vocabulary.standard_named options.separator _ old).mp ho
    rw [hm.text, Section.withHeadsOf, layout.render_newHeads_tree, hl]
    congr 1
    funext name
    rw [← Section.get?_heads, before.get?_heads_tree, hb]
  · rw [Section.names_eq_startNames h, Section.names_eq_startNames ho]
    exact hm.merged
  · rw [Section.names_eq_startNames h, Section.names_eq_startNames ho]
    exact hm.dropped

-- The merged text is read as that tree.
theorem parse_withHeadsOf (hs : Text.IsTerminator options.separator)
    (ho : Section.parse .standard options.separator existing = .ok old)
    (h : Section.parse .standard options.separator generated = .ok root) :
    Section.parse .standard options.separator
        ((root.withHeadsOf old).render options.separator) = .ok (root.withHeadsOf old) :=
  Section.parse_newHeads hs (Section.plainText_of_headOf? ho) h

-- Texts generated one after another, each merged with what the merges before it gave.
def regenerate (options : Options) (existing : Text) (generated : List Text) :
    Except EditError Text :=
  generated.foldlM (fun existing text => (options.merge text existing).map Merged.text) existing

theorem regenerate_append (existing : Text) (first second : List Text) :
    options.regenerate existing (first ++ second) =
      options.regenerate existing first >>= (options.regenerate · second) :=
  List.foldlM_append

theorem regenerate_singleton (existing text : Text) :
    options.regenerate existing [text] = (options.merge text existing).map Merged.text := by
  rw [regenerate, List.foldlM_cons]
  exact bind_pure _

-- One merge: the text is read as the generated tree with the heads of the existing one.
theorem regenerate_step (hs : Text.IsTerminator options.separator)
    (ho : Section.parse .standard options.separator existing = .ok old)
    (h : Section.parse .standard options.separator generated = .ok root) :
    ∃ text, options.regenerate existing [generated] = .ok text ∧
      Section.parse .standard options.separator text = .ok (root.withHeadsOf old) := by
  obtain ⟨outcome, hm, htext, -⟩ := merge_eq_withHeadsOf ho h
  refine ⟨outcome.text, ?_, ?_⟩
  · rw [regenerate_singleton, hm]
    rfl
  · rw [htext]
    exact parse_withHeadsOf hs ho h

-- The first head of a name is that of the text at the start, however often a text that has the
-- name is generated.
theorem regenerate_headOf? (hs : Text.IsTerminator options.separator) {name head : Text}
    (ho : Section.parse .standard options.separator existing = .ok old)
    (hn : old.headOf? name = some head) {texts : List Text}
    (ht : ∀ text ∈ texts, ∃ root,
      Section.parse .standard options.separator text = .ok root ∧ name ∈ root.names) :
    ∃ final tree, options.regenerate existing texts = .ok final ∧
      Section.parse .standard options.separator final = .ok tree ∧ tree.headOf? name = some head := by
  induction texts generalizing existing old with
  | nil => exact ⟨existing, old, rfl, ho, hn⟩
  | cons text rest ih =>
      obtain ⟨⟨root, hp, hroot⟩, hrest⟩ := List.forall_mem_cons.mp ht
      obtain ⟨next, hnext, hread⟩ := regenerate_step hs ho hp
      obtain ⟨first, hfirst⟩ := Option.isSome_iff_exists.mp (Section.isSome_headOf?.mpr hroot)
      have hkept : (root.withHeadsOf old).headOf? name = some head := by
        simp [Section.headOf?_withHeadsOf, hfirst, hn]
      obtain ⟨final, tree, hfinal, htree⟩ := ih hread hkept hrest
      refine ⟨final, tree, ?_, htree⟩
      rw [← List.singleton_append, regenerate_append, hnext]
      exact hfinal

-- Edits made by hand in the head of a section survive any number of regenerations: in the last
-- text every section of the name has the head that the first of them had at the start.
theorem regenerate_keeps_head (options : Options) (hs : Text.IsTerminator options.separator)
    {existing : Text} {old : Section} (ho : options.readTree existing = .ok old) {name head : Text}
    (hn : (old.find? name).map Section.head = some head) {texts : List Text} (hne : texts ≠ [])
    (ht : ∀ text ∈ texts, ∃ root, options.readTree text = .ok root ∧ name ∈ root.names) :
    ∃ final tree, options.regenerate existing texts = .ok final ∧
      options.readTree final = .ok tree ∧ name ∈ tree.names ∧
      ∀ slot ∈ tree.slots, slot.name = some name → slot.content.head = head := by
  simp only [readTree_eq_ok_iff] at ho ht ⊢
  obtain ⟨before, last, rfl⟩ := (List.eq_nil_or_concat' texts).resolve_left hne
  obtain ⟨hbefore, hlast⟩ := List.forall_mem_append.mp ht
  obtain ⟨middle, mid, hmiddle, hmid, hkept⟩ := regenerate_headOf? hs ho hn hbefore
  obtain ⟨root, hroot, hname⟩ := hlast last (List.mem_singleton_self last)
  obtain ⟨final, hfinal, hread⟩ := regenerate_step hs hmid hroot
  refine ⟨final, root.withHeadsOf mid, ?_, hread, ?_, Section.head_of_mem_withHeadsOf hkept⟩
  · rw [regenerate_append, hmiddle]
    exact hfinal
  · rwa [Section.withHeadsOf, Section.names_mapContent]

section Moved

def crlf : Options := ⟨['\r'.unit, '\n'.unit], .concurrent .unbounded⟩

-- The head was edited where the name stands first.
def handEdited : Text :=
  "SECTION-START[a]\nx\rSECTION-END\nSECTION-START[a]\nz\nSECTION-END".units

-- The section has moved into another one.
def movedText : Text :=
  "SECTION-START[b]\r\nw\r\nSECTION-START[a]\r\nSECTION-END\r\nSECTION-END".units

-- There are two sections of the name.
def doubledText : Text :=
  "SECTION-START[a]\ny\nSECTION-END\nt\nSECTION-START[a]\nSECTION-END\n".units

theorem readTree_handEdited :
    crlf.readTree handEdited =
      .ok ⟨none, none, [],
        [.leaf ['a'.unit] "x\r\n".units, .leaf ['a'.unit] "z\r\n".units], [], none⟩ :=
  readTree_of_parse_ok rfl

theorem readTree_movedText :
    crlf.readTree movedText =
      .ok ⟨none, none, [], [{ Section.leaf ['b'.unit] "w\r\n".units with
        children := [.leaf ['a'.unit] []] }], [], none⟩ :=
  readTree_of_parse_ok rfl

theorem readTree_doubledText :
    crlf.readTree doubledText =
      .ok ⟨none, none, [], [.leaf ['a'.unit] "y\r\n".units,
        ⟨none, none, "t\r\n".units, [.leaf ['a'.unit] []], [], none⟩], [], none⟩ :=
  readTree_of_parse_ok rfl

theorem regenerate_keeps_head_moved :
    Text.IsTerminator crlf.separator ∧
    (∃ old, crlf.readTree handEdited = .ok old ∧
      (old.find? ['a'.unit]).map Section.head = some "x\r\n".units) ∧
    (∀ text ∈ [movedText, doubledText], ∃ root,
      crlf.readTree text = .ok root ∧ ['a'.unit] ∈ root.names) ∧
    ∃ final tree, crlf.regenerate handEdited [movedText, doubledText] = .ok final ∧
      crlf.readTree final = .ok tree ∧ ['a'.unit] ∈ tree.names ∧
      ∀ slot ∈ tree.slots, slot.name = some ['a'.unit] → slot.content.head = "x\r\n".units := by
  have htexts : ∀ text ∈ [movedText, doubledText], ∃ root,
      crlf.readTree text = .ok root ∧ ['a'.unit] ∈ root.names := by
    simp only [List.forall_mem_cons]
    exact ⟨⟨_, readTree_movedText, by decide⟩, ⟨_, readTree_doubledText, by decide⟩, nofun⟩
  exact ⟨by decide, ⟨_, readTree_handEdited, by decide⟩, htexts,
    regenerate_keeps_head crlf (by decide) readTree_handEdited (by decide) (by decide) htexts⟩

end Moved

-- Generating the same text again changes nothing, and then every name is carried over.
theorem merge_again (options : Options) (hs : Text.IsTerminator options.separator)
    {generated existing : Text} {root old : Section} (h : options.readTree generated = .ok root)
    (hnodup : root.names.Nodup) (ho : options.readTree existing = .ok old) :
    ∃ first, options.merge generated existing = .ok first ∧
      options.merge generated first.text = .ok ⟨first.text, Text.sorted root.names, []⟩ := by
  rw [readTree_eq_ok_iff] at h ho
  obtain ⟨first, hfirst, htext, -⟩ := merge_eq_withHeadsOf ho h
  have hread := parse_withHeadsOf hs ho h
  rw [← htext] at hread
  obtain ⟨second, hsecond, hagain, hmerged, hdropped⟩ := merge_eq_withHeadsOf hread h
  have hnames : (root.withHeadsOf old).names = root.names := Section.names_mapContent _ root
  rw [Section.withHeadsOf_withHeadsOf hnodup, ← htext] at hagain
  rw [hnames] at hmerged hdropped
  have hsorted : second.merged = Text.sorted root.names :=
    (hmerged.congr fun name => and_self_iff).unique (Listing.sorted_of_nodup hnodup)
  have hnone : second.dropped = [] := hdropped.eq_nil fun name hn => hn.2 hn.1
  refine ⟨first, hfirst, ?_⟩
  rw [hsecond, ← hagain, ← hsorted, ← hnone]

theorem merge_again_movedText :
    ∃ first, crlf.merge movedText handEdited = .ok first ∧
      crlf.merge movedText first.text = .ok ⟨first.text, [['a'.unit], ['b'.unit]], []⟩ :=
  merge_again crlf (by decide) readTree_movedText (by decide) readTree_handEdited

end Options

end Sections
