import Mathlib.Data.List.Induction
import Sections.Proofs.Edit.SectionEditor
import Sections.Proofs.Nesting.Reads

namespace Sections

namespace Vocabulary

section Brackets

variable (v : Vocabulary)

-- A line that does not open a section is taken for an end or for text, and never refused.
def NeverMalformed : Prop := ∀ line, v.opening line ≠ .malformed

def isStart (line : Text) : Bool :=
  match v.opening line with
  | .opens _ => true
  | _ => false

def starts (ls : List Text) : Nat := ls.countP v.isStart

def ends (ls : List Text) : Nat := ls.countP fun line => decide (v.IsEnd line)

-- An end line with as many end lines as start lines before it.
def ClosesNothing (before : List Text) (stop : Text) : Prop :=
  v.IsEnd stop ∧ v.ends before = v.starts before

-- No end line is one too many.
def Matched (ls : List Text) : Prop :=
  ∀ i (h : i < ls.length), ¬v.ClosesNothing (ls.take i) ls[i]

-- The names of the sections that one more line leaves open, the innermost first.
def bracket (names : List (Option Text)) (line : Text) : List (Option Text) :=
  match v.opening line with
  | .opens name => name :: names
  | .malformed => names
  | .none => if v.closes line then names.tail else names

def openNames (ls : List Text) : List (Option Text) := ls.foldl v.bracket []

-- No section is closed while it stands directly in a nameless one.
def NamelessHoldNone (ls : List Text) : Prop :=
  ∀ i (h : i < ls.length), v.Matched (ls.take i) → v.IsEnd ls[i] →
    (v.openNames (ls.take i))[1]? ≠ some none

instance (before : List Text) (stop : Text) : Decidable (v.ClosesNothing before stop) :=
  inferInstanceAs (Decidable (_ ∧ _))

instance (ls : List Text) : Decidable (v.Matched ls) :=
  inferInstanceAs (Decidable (∀ i (h : i < ls.length), ¬v.ClosesNothing (ls.take i) ls[i]))

instance (ls : List Text) : Decidable (v.NamelessHoldNone ls) :=
  inferInstanceAs (Decidable (∀ i (h : i < ls.length), v.Matched (ls.take i) → v.IsEnd ls[i] →
    (v.openNames (ls.take i))[1]? ≠ some none))

-- Why lines are no balanced brackets: the first end line that closes nothing decides; where
-- there is none, the innermost of the sections left open.
inductive Unbalanced (ls : List Text) : StructureError → Prop where
  | unmatchedEnd (i : Nat) (h : i < ls.length) (hfirst : v.Matched (ls.take i))
      (hc : v.ClosesNothing (ls.take i) ls[i]) : Unbalanced ls (.unmatchedEnd (i + 1) ls[i])
  | unterminated (hm : v.Matched ls) (hopen : v.ends ls < v.starts ls) (name : Option Text)
      (outer : List (Option Text)) (hname : v.openNames ls = name :: outer) :
      Unbalanced ls (.unterminated ls.length name)

-- The innermost of the sections that lines leave open, as an error shows it.
def shownOpen (ls : List Text) : Text :=
  match v.openNames ls with
  | some name :: _ => name
  | _ => ['/'.unit]

end Brackets

variable {v : Vocabulary} {ls : List Text} {line : Text}

theorem comments_neverMalformed : comments.NeverMalformed := by
  intro line
  simp only [comments, CommentMarker.opening]
  split
  · simp
  · split
    · split <;> simp
    · simp

theorem bracket_opens {name : Option Text} (h : v.opening line = .opens name)
    (names : List (Option Text)) : v.bracket names line = name :: names := by
  simp only [bracket, h]

theorem bracket_end (h : v.IsEnd line) (names : List (Option Text)) :
    v.bracket names line = names.tail := by
  simp [bracket, h.1, h.2]

theorem bracket_plain (h : v.IsPlain line) (names : List (Option Text)) :
    v.bracket names line = names := by
  simp [bracket, h.1, h.2]

theorem openNames_concat : v.openNames (ls ++ [line]) = v.bracket (v.openNames ls) line := by
  simp [openNames, List.foldl_append]

theorem starts_concat :
    v.starts (ls ++ [line]) = v.starts ls + if v.isStart line then 1 else 0 := by
  simp [starts, List.countP_append, List.countP_singleton]

theorem ends_concat : v.ends (ls ++ [line]) = v.ends ls + if v.IsEnd line then 1 else 0 := by
  simp [ends, List.countP_append, List.countP_singleton]

theorem matched_nil : v.Matched [] := fun _ h => absurd h (Nat.not_lt_zero _)

-- What stands before a line of a prefix, and the line itself.
theorem take_and_getElem_of_prefix {before : List Text} (hp : before <+: ls) {i : Nat}
    (hi : i < before.length) :
    ∃ h : i < ls.length, ls.take i = before.take i ∧ ls[i] = before[i] := by
  obtain ⟨after, rfl⟩ := hp
  refine ⟨by rw [List.length_append]; omega, ?_, List.getElem_append_left hi⟩
  exact List.take_append_of_le_length (Nat.le_of_lt hi)

theorem Matched.of_prefix {before : List Text} (h : v.Matched ls) (hp : before <+: ls) :
    v.Matched before := by
  intro i hi
  obtain ⟨hlt, htake, hget⟩ := take_and_getElem_of_prefix hp hi
  rw [← htake, ← hget]
  exact h i hlt

theorem matched_concat_iff :
    v.Matched (ls ++ [line]) ↔ v.Matched ls ∧ ¬v.ClosesNothing ls line := by
  constructor
  · intro h
    have hlast := h ls.length (by simp)
    exact ⟨h.of_prefix (List.prefix_append _ _), by simpa using hlast⟩
  · rintro ⟨hm, hc⟩ i hi
    rcases Nat.lt_succ_iff_lt_or_eq.mp (by simpa using hi) with hlt | rfl
    · obtain ⟨_, htake, hget⟩ := take_and_getElem_of_prefix (List.prefix_append ls [line]) hlt
      rw [htake, hget]
      exact hm i hlt
    · simpa using hc

-- While no end line closes nothing, the sections left open are those that no end line closed.
theorem length_openNames (h : v.Matched ls) :
    (v.openNames ls).length + v.ends ls = v.starts ls := by
  induction ls using List.reverseRecOn with
  | nil => rfl
  | append_singleton ls line ih =>
      obtain ⟨hm, hc⟩ := matched_concat_iff.mp h
      have hl := ih hm
      rw [openNames_concat, starts_concat, ends_concat]
      cases ho : v.opening line with
      | malformed => simp [bracket, isStart, IsEnd, ho, hl]
      | opens name =>
          simp only [bracket, isStart, IsEnd, ho, List.length_cons]
          simp
          omega
      | none =>
          cases hs : v.closes line with
          | false => simp [bracket, isStart, IsEnd, ho, hs, hl]
          | true =>
              have hne : v.ends ls ≠ v.starts ls := fun he => hc ⟨⟨ho, hs⟩, he⟩
              simp [bracket, isStart, IsEnd, ho, hs]
              omega

theorem openNames_eq_nil_iff (h : v.Matched ls) :
    v.openNames ls = [] ↔ v.ends ls = v.starts ls := by
  have hl := length_openNames h
  rw [← List.length_eq_zero_iff]
  omega

-- One section in another, each with its end line.
theorem closed_nested {outer inner stop : Text} {outerName innerName : Option Text}
    (ho : v.opening outer = .opens outerName) (hi : v.opening inner = .opens innerName)
    (hs : v.IsEnd stop) :
    v.Matched [outer, inner, stop, stop] ∧
      v.ends [outer, inner, stop, stop] = v.starts [outer, inner, stop, stop] := by
  have hend : ∀ ls, v.ends (stop :: ls) = v.ends ls + 1 := by simp [ends, hs]
  have hstart : ∀ ls, v.starts (stop :: ls) = v.starts ls := by simp [starts, isStart, hs.1]
  have hends : ∀ ls, v.ends (outer :: inner :: ls) = v.ends ls := by simp [ends, IsEnd, ho, hi]
  have hstarts : ∀ ls, v.starts (outer :: inner :: ls) = v.starts ls + 2 := by
    simp [starts, isStart, ho, hi]
  have hnil : v.ends [] = v.starts [] := rfl
  refine ⟨?_, by rw [hends, hstarts, hend, hend, hstart, hstart, hnil]⟩
  have houter : v.Matched [outer] :=
    matched_concat_iff.mpr ⟨matched_nil, by simp [ClosesNothing, IsEnd, ho]⟩
  have hinner : v.Matched [outer, inner] :=
    matched_concat_iff.mpr ⟨houter, by simp [ClosesNothing, IsEnd, hi]⟩
  have hstop : v.Matched [outer, inner, stop] :=
    matched_concat_iff.mpr ⟨hinner, by simp [ClosesNothing, hends, hstarts, hnil]⟩
  exact matched_concat_iff.mpr
    ⟨hstop, by simp [ClosesNothing, hends, hstarts, hend, hstart, hnil]⟩

theorem NamelessHoldNone.of_prefix {before : List Text} (h : v.NamelessHoldNone ls)
    (hp : before <+: ls) : v.NamelessHoldNone before := by
  intro i hi
  obtain ⟨hlt, htake, hget⟩ := take_and_getElem_of_prefix hp hi
  rw [← htake, ← hget]
  exact h i hlt

theorem Named.none_notMem_openNames (hv : v.Named) (ls : List Text) : none ∉ v.openNames ls := by
  induction ls using List.reverseRecOn with
  | nil => exact List.not_mem_nil
  | append_singleton ls line ih =>
      rw [openNames_concat, bracket]
      split
      · rename_i name ho
        intro hn
        rcases List.mem_cons.mp hn with hn | hn
        · exact hv line (hn ▸ ho)
        · exact ih hn
      · exact ih
      · split
        · exact fun hn => ih (List.mem_of_mem_tail hn)
        · exact ih

theorem Named.namelessHoldNone (hv : v.Named) (ls : List Text) : v.NamelessHoldNone ls :=
  fun i _ _ _ hn => hv.none_notMem_openNames (ls.take i) (List.mem_of_getElem? hn)

-- Lines fail with one error at most, and with none where every section is closed.
theorem Unbalanced.unique {e other : StructureError} (h : v.Unbalanced ls e)
    (ho : v.Unbalanced ls other) : e = other := by
  have hfirst : ∀ {i k : Nat} (hi : i < ls.length), v.ClosesNothing (ls.take i) ls[i] →
      v.Matched (ls.take k) → k ≤ i := by
    intro i k hi hc hm
    by_contra hlt
    have hlen : i < (ls.take k).length := by
      rw [List.length_take]
      omega
    have hnot := hm i hlen
    rw [List.take_take, Nat.min_eq_left (by omega), List.getElem_take] at hnot
    exact hnot hc
  cases h with
  | unmatchedEnd i hi hm hc =>
      cases ho with
      | unmatchedEnd k hk hm' hc' =>
          obtain rfl := Nat.le_antisymm (hfirst hk hc' hm) (hfirst hi hc hm')
          rfl
      | unterminated hm' => exact absurd hc (hm' i hi)
  | unterminated hm hopen name outer hname =>
      cases ho with
      | unmatchedEnd i hi hm' hc => exact absurd hc (hm i hi)
      | unterminated hm' hopen' name' outer' hname' =>
          rw [(List.cons.inj (hname.symm.trans hname')).1]

theorem Unbalanced.not_closed {e : StructureError} (h : v.Unbalanced ls e) :
    ¬(v.Matched ls ∧ v.ends ls = v.starts ls) := by
  rintro ⟨hm, he⟩
  cases h with
  | unmatchedEnd i hi _ hc => exact hm i hi hc
  | unterminated _ hopen => omega

theorem Unbalanced.shownName_eq {count : Nat} {name : Option Text}
    (h : v.Unbalanced ls (.unterminated count name)) :
    StructureError.shownName name = v.shownOpen ls := by
  cases h with
  | unterminated _ _ name outer hname =>
      rw [shownOpen, hname]
      cases name <;> rfl

end Vocabulary

namespace OpenStack

open Vocabulary

variable {v : Vocabulary} {separator : Text}

def names (st : OpenStack) : List (Option Text) := st.top.name :: st.below.map OpenSection.name

-- The names on the stack, those of the root and of the wrappers included, beside those of the
-- sections that the lines leave open.
inductive Mirrors : List (Option Text) → List (Option Text) → Prop where
  | root : Mirrors [none] []
  | direct {name outer : Option Text} {rest opened : List (Option Text)}
      (h : Mirrors (outer :: rest) opened) : Mirrors (name :: outer :: rest) (name :: opened)
  | wrapped {name outer : Option Text} {rest opened : List (Option Text)}
      (h : Mirrors (outer :: rest) opened) : Mirrors (name :: none :: outer :: rest) (name :: opened)

theorem names_write (st : OpenStack) (text : Text) : (st.write text).names = st.names := by
  unfold write OpenSection.write names
  cases st.top.mode <;> rfl

theorem names_push (st : OpenStack) (name : Option Text) (line : Text) :
    (st.push name line).names = name :: st.names ∨
      (st.push name line).names = name :: none :: st.names := by
  unfold push
  split
  · exact Or.inr rfl
  · exact Or.inl rfl

-- A nameless section under which others are open goes with the section that it holds.
def dropNameless : List (Option Text) → List (Option Text)
  | none :: outer :: rest => outer :: rest
  | names => names

theorem names_endWrapper (st : OpenStack) : st.endWrapper.names = dropNameless st.names := by
  obtain ⟨⟨name, startLine, mode, head, children, tail⟩, below⟩ := st
  cases name <;> cases below <;> rfl

theorem names_pop {st next : OpenStack} {line : Text} (h : st.pop? line = some next) :
    next.names = dropNameless st.names.tail := by
  unfold pop? at h
  split at h
  · contradiction
  · rename_i parent rest hb
    rw [← Option.some.inj h, names_endWrapper]
    simp [names, hb, OpenSection.attach]

theorem Mirrors.tail_eq_nil_iff {stack opened : List (Option Text)} (h : Mirrors stack opened) :
    stack.tail = [] ↔ opened = [] := by
  cases h <;> simp

theorem Mirrors.below_eq_nil_iff {st : OpenStack} {opened : List (Option Text)}
    (h : Mirrors st.names opened) : st.below = [] ↔ opened = [] := by
  rw [← h.tail_eq_nil_iff, names, List.tail_cons, List.map_eq_nil_iff]

theorem Mirrors.eq_nil_or_cons {name : Option Text} {rest opened : List (Option Text)}
    (h : Mirrors (name :: rest) opened) : opened = [] ∨ ∃ outer, opened = name :: outer := by
  cases h with
  | root => exact Or.inl rfl
  | direct h => exact Or.inr ⟨_, rfl⟩
  | wrapped h => exact Or.inr ⟨_, rfl⟩

theorem Mirrors.push {st : OpenStack} {opened : List (Option Text)} (h : Mirrors st.names opened)
    (name : Option Text) (line : Text) : Mirrors (st.push name line).names (name :: opened) := by
  rcases names_push st name line with hn | hn
  · rw [hn]
    exact .direct h
  · rw [hn]
    exact .wrapped h

theorem Mirrors.drop {stack opened : List (Option Text)} (h : Mirrors stack opened)
    (hne : opened ≠ []) (hn : opened[1]? ≠ some none) :
    Mirrors (dropNameless stack.tail) opened.tail := by
  cases h with
  | root => exact absurd rfl hne
  | wrapped h => exact h
  | @direct name outer rest others h =>
      cases outer with
      | some outer => exact h
      | none =>
          -- The root is the only nameless section left here, and nothing is under it.
          cases h with
          | root => exact .root
          | direct h => exact absurd rfl hn
          | wrapped h => exact absurd rfl hn

-- Where reading stands after lines that it takes in.
structure Follows (v : Vocabulary) (ls : List Text) (st : OpenStack) : Prop where
  matched : v.Matched ls
  mirrors : Mirrors st.names (v.openNames ls)

theorem Follows.initial : Follows v [] .initial := ⟨matched_nil, .root⟩

theorem Follows.below_eq_nil_iff {ls : List Text} {st : OpenStack} (h : Follows v ls st) :
    st.below = [] ↔ v.ends ls = v.starts ls := by
  rw [h.mirrors.below_eq_nil_iff, openNames_eq_nil_iff h.matched]

-- The root is never closed, so an end line needs a section above it.
theorem Follows.step {ls : List Text} {line : Text} {st next : OpenStack} (h : Follows v ls st)
    (hm : Mirrors next.names (v.bracket (v.openNames ls) line))
    (hc : v.IsEnd line → st.below ≠ []) : Follows v (ls ++ [line]) next := by
  refine ⟨matched_concat_iff.mpr ⟨h.matched, fun hnothing => ?_⟩, openNames_concat ▸ hm⟩
  exact hc hnothing.1 (h.below_eq_nil_iff.mpr hnothing.2)

theorem Follows.consume {ls : List Text} {line : Text} {n : Nat}
    {st next : OpenStack} (h : Follows v ls st) (hn : v.NamelessHoldNone (ls ++ [line]))
    (hc : st.consume v separator n line = .ok next) : Follows v (ls ++ [line]) next := by
  unfold OpenStack.consume at hc
  split at hc
  · contradiction
  · rename_i name ho
    refine h.step ?_ fun hend => by simp [IsEnd, ho] at hend
    rw [← Except.ok.inj hc, bracket_opens ho]
    exact h.mirrors.push name line
  · rename_i ho
    split at hc
    · rename_i hs
      split at hc
      · contradiction
      · rename_i after hp
        have hb : st.below ≠ [] := fun hb => by simp [pop?, hb] at hp
        have hopen : v.openNames ls ≠ [] := fun ho => hb (h.mirrors.below_eq_nil_iff.mpr ho)
        refine h.step ?_ fun _ => hb
        rw [← Except.ok.inj hc, bracket_end ⟨ho, hs⟩, names_pop hp]
        have hlast := hn ls.length (by simp)
        simp only [List.take_left, List.getElem_concat_length] at hlast
        exact h.mirrors.drop hopen (hlast h.matched ⟨ho, hs⟩)
    · rename_i hs
      refine h.step ?_ fun hend => absurd hend.2 hs
      rw [← Except.ok.inj hc, bracket_plain ⟨ho, Bool.eq_false_iff.mpr hs⟩, names_write]
      exact h.mirrors

theorem Follows.consumeAll {ls more : List Text} {n : Nat}
    {st last : OpenStack} (h : Follows v ls st) (hn : v.NamelessHoldNone (ls ++ more))
    (hc : OpenStack.consumeAll v separator n more st = .ok last) : Follows v (ls ++ more) last := by
  induction more generalizing ls n st with
  | nil =>
      rw [← Except.ok.inj hc, List.append_nil]
      exact h
  | cons line rest ih =>
      rw [OpenStack.consumeAll] at hc
      split at hc
      · contradiction
      · rename_i next hnext
        rw [List.append_cons] at hn ⊢
        exact ih (h.consume (hn.of_prefix (List.prefix_append _ _)) hnext) hn hc

end OpenStack

namespace Section

open OpenStack

variable {v : Vocabulary} {separator : Text} {ls : List Text}

theorem unbalanced_of_ofLines_error (hv : v.NeverMalformed) (hn : v.NamelessHoldNone ls)
    {e : StructureError} (h : ofLines v separator ls = .error e) : v.Unbalanced ls e := by
  unfold ofLines at h
  split at h
  · rename_i hc
    rw [Except.error.inj h] at hc
    obtain ⟨before, stop, after, mid, hls, hmid, hbad⟩ := consumeAll_error hc
    have hp : before <+: ls := ⟨stop :: after, hls.symm⟩
    have hf := Follows.initial.consumeAll (hn.of_prefix hp) hmid
    rcases consume_error hbad with ⟨ho, -⟩ | ⟨hend, hb, rfl⟩
    · exact absurd ho (hv stop)
    · have hi : before.length < ls.length := by simp [hls]
      have htake : ls.take before.length = before := by simp [hls]
      have hget : ls[before.length] = stop := by simp [hls]
      have hu := Vocabulary.Unbalanced.unmatchedEnd before.length hi (htake ▸ hf.matched)
        (by rw [htake, hget]; exact ⟨hend, hf.below_eq_nil_iff.mp hb⟩)
      rwa [hget, Nat.add_comm] at hu
  · rename_i last hc
    have hf := Follows.initial.consumeAll hn hc
    rw [List.nil_append] at hf
    unfold finish at h
    split at h
    · contradiction
    · rename_i parent rest hb
      have hbelow : last.below ≠ [] := by simp [hb]
      obtain ⟨outer, hname⟩ := hf.mirrors.eq_nil_or_cons.resolve_left
        fun hnil => hbelow (hf.mirrors.below_eq_nil_iff.mpr hnil)
      rw [← Except.error.inj h]
      refine .unterminated hf.matched ?_ last.top.name outer hname
      have hl := Vocabulary.length_openNames hf.matched
      rw [hname, List.length_cons] at hl
      omega

theorem closed_of_ofLines_ok (hn : v.NamelessHoldNone ls) {root : Section}
    (h : ofLines v separator ls = .ok root) : v.Matched ls ∧ v.ends ls = v.starts ls := by
  unfold ofLines at h
  split at h
  · contradiction
  · rename_i last hc
    have hf := Follows.initial.consumeAll hn hc
    refine ⟨hf.matched, hf.below_eq_nil_iff.mp ?_⟩
    unfold finish at h
    split at h
    · assumption
    · contradiction

theorem ofLines_eq_error_iff (hv : v.NeverMalformed) (hn : v.NamelessHoldNone ls)
    (e : StructureError) : ofLines v separator ls = .error e ↔ v.Unbalanced ls e := by
  constructor
  · exact unbalanced_of_ofLines_error hv hn
  · intro h
    cases hr : ofLines v separator ls with
    | ok root => exact absurd (closed_of_ofLines_ok hn hr) h.not_closed
    | error other => rw [h.unique (unbalanced_of_ofLines_error hv hn hr)]

-- A nameless section is closed with the first section in it, and its own end line has nothing
-- left to close.
theorem ofLines_nested_in_nameless {outer inner stop : Text} {name : Option Text}
    (ho : v.opening outer = .opens none) (hi : v.opening inner = .opens name)
    (hs : v.IsEnd stop) :
    ofLines v separator [outer, inner, stop, stop] = .error (.unmatchedEnd 4 stop) ∧
      v.Matched [outer, inner, stop, stop] ∧
      v.ends [outer, inner, stop, stop] = v.starts [outer, inner, stop, stop] := by
  refine ⟨?_, Vocabulary.closed_nested ho hi hs⟩
  simp [ofLines, consumeAll, consume, ho, hi, hs.1, hs.2, push, pop?, endWrapper, initial,
    OpenSection.root, OpenSection.opened, OpenSection.attach]

-- So the lines of a vocabulary are always read as balanced brackets where every section has a
-- name or none is ever closed, and only there.
theorem ofLines_balanced_iff (hv : v.NeverMalformed) :
    (∀ separator ls e, ofLines v separator ls = .error e ↔ v.Unbalanced ls e) ↔
      v.Named ∨ ∀ line, ¬v.IsEnd line := by
  constructor
  · intro h
    by_contra hnot
    obtain ⟨hnamed, hends⟩ := not_or.mp hnot
    simp only [Vocabulary.Named, not_forall, not_not] at hnamed hends
    obtain ⟨outer, ho⟩ := hnamed
    obtain ⟨stop, hs⟩ := hends
    obtain ⟨herror, hclosed⟩ := @ofLines_nested_in_nameless v [] outer outer stop none ho ho hs
    exact ((h [] _ _).mp herror).not_closed hclosed
  · rintro (hnamed | hends) separator ls e
    · exact ofLines_eq_error_iff hv (hnamed.namelessHoldNone ls) e
    · exact ofLines_eq_error_iff hv (fun i hi _ hend => absurd hend (hends _)) e

end Section

namespace SectionEditor

-- Markers of any kind are balanced brackets for an edit, as long as no section is closed directly
-- in a nameless one.
theorem edit_brackets (editor : SectionEditor) (hv : editor.vocabulary.NeverMalformed)
    (hh : editor.hook.NeverFails) (memory : Memory) (hm : memory.AtRest) (text : Text)
    (hn : editor.vocabulary.NamelessHoldNone (Text.lines text)) :
    let v := editor.vocabulary
    let ls := Text.lines text
    let result := (editor.edit memory text).result
    (∀ e, result = .error e ↔ ∃ cause, e = .markers cause ∧ v.Unbalanced ls cause) ∧
      (result.isOk = true ↔ v.Matched ls ∧ v.ends ls = v.starts ls) ∧
      ∀ count name, result = .error (.markers (.unterminated count name)) →
        StructureError.shownName name = v.shownOpen ls := by
  intro v ls result
  cases h : Section.parse v editor.separator text with
  | ok root =>
      have hc := Section.closed_of_ofLines_ok hn h
      have hr : result = .ok _ := (editor.edit_of_neverFails hm hh h).1
      rw [hr]
      refine ⟨fun e => iff_of_false (by simp) ?_, iff_of_true rfl hc, nofun⟩
      rintro ⟨cause, -, hu⟩
      exact hu.not_closed hc
  | error cause =>
      have hu := Section.unbalanced_of_ofLines_error hv hn h
      have hr : result = .error (.markers cause) := by
        simp only [result, editor.edit_of_parse_error hm h]
      rw [hr]
      refine ⟨fun e => ?_, iff_of_false (by simp [Except.isOk, Except.toBool]) hu.not_closed, ?_⟩
      · constructor
        · intro he
          exact ⟨cause, (Except.error.inj he).symm, hu⟩
        · rintro ⟨other, rfl, ho⟩
          rw [hu.unique ho]
      · intro count name he
        obtain rfl := EditError.markers.inj (Except.error.inj he)
        exact hu.shownName_eq

def commentEditor : SectionEditor := ⟨.comments, ['\n'.unit], .sequential, .identity⟩

-- The second nameless section follows text, and is left open.
def namelessOpen : Text :=
  ("<!-- begin x -->\na\n<!-- begin -->\nb\n<!-- end -->\nc\n<!-- end -->\nd\n" ++
    "<!-- begin -->\n").units

theorem edit_brackets_namelessOpen :
    Vocabulary.comments.NeverMalformed ∧ Hook.identity.NeverFails ∧ Memory.fresh.AtRest ∧
      Vocabulary.comments.NamelessHoldNone (Text.lines namelessOpen) ∧
      Vocabulary.comments.Unbalanced (Text.lines namelessOpen) (.unterminated 9 none) ∧
      Vocabulary.comments.shownOpen (Text.lines namelessOpen) = ['/'.unit] := by
  have hn : Vocabulary.comments.NamelessHoldNone (Text.lines namelessOpen) := by decide
  refine ⟨Vocabulary.comments_neverMalformed, Hook.identity_neverFails, rfl, hn, ?_⟩
  obtain ⟨herror, -, hshown⟩ := edit_brackets commentEditor Vocabulary.comments_neverMalformed
    Hook.identity_neverFails .fresh rfl namelessOpen hn
  have hresult : (commentEditor.edit .fresh namelessOpen).result =
      .error (.markers (.unterminated 9 none)) := by rfl
  obtain ⟨cause, hc, hu⟩ := (herror _).mp hresult
  obtain rfl := EditError.markers.inj hc
  exact ⟨hu, (hshown 9 none hresult).symm⟩

-- Every section is closed, but the end line of the nameless one finds none open.
def nestedInNameless : Text :=
  "<!-- begin -->\n<!-- begin y -->\n<!-- end -->\n<!-- end -->\n".units

theorem edit_brackets_nestedInNameless :
    Vocabulary.comments.Matched (Text.lines nestedInNameless) ∧
      Vocabulary.comments.ends (Text.lines nestedInNameless) =
        Vocabulary.comments.starts (Text.lines nestedInNameless) ∧
      (commentEditor.edit .fresh nestedInNameless).result =
        .error (.markers (.unmatchedEnd 4 "<!-- end -->".units)) := by
  refine ⟨by decide, by decide, by rfl⟩

end SectionEditor

end Sections
