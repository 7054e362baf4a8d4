import Mathlib.Data.List.Basic
import Mathlib.Logic.Function.Basic
import Sections.Nesting

namespace Sections

-- A section in a store. It refers to its children by their places there, from the line on that
-- opens them.
structure Record where
  name : Option Text
  startLine : Option Text
  head : Text
  children : List Nat
  tail : Text
  endLine : Option Text

namespace Record

def root : Record := ⟨none, none, [], [], [], none⟩

def opened (name : Option Text) (line : Text) : Record := ⟨name, some line, [], [], [], none⟩

def wrapper (text : Text) : Record := ⟨none, none, text, [], [], none⟩

def toSection (r : Record) (children : List Section) : Section :=
  ⟨r.name, r.startLine, r.head, children, r.tail, r.endLine⟩

end Record

-- An open section by its place in the store.
structure Frame where
  place : Nat
  mode : Mode
  deriving DecidableEq

-- The open sections, the innermost on top, of sections that are changed where they stand. Places
-- from the size of the store on are free.
structure LinkedStack where
  store : Nat → Record
  size : Nat
  top : Frame
  below : List Frame

namespace LinkedStack

def initial : LinkedStack := ⟨fun _ => .root, 1, ⟨0, .head⟩, []⟩

def frames (l : LinkedStack) : List Frame := l.top :: l.below

def record (l : LinkedStack) (f : Frame) : Record := l.store f.place

def change (l : LinkedStack) (g : Record → Record) : LinkedStack :=
  { l with store := Function.update l.store l.top.place (g (l.record l.top)) }

def write (l : LinkedStack) (text : Text) : LinkedStack :=
  match l.top.mode with
  | .head => l.change fun r => { r with head := r.head ++ text }
  | .tail => l.change fun r => { r with tail := r.tail ++ text }

-- A new section is the last child of the one on top, and stands on it.
def nest (l : LinkedStack) (r : Record) : LinkedStack :=
  let outer := l.change fun o => { o with children := o.children ++ [l.size] }
  ⟨Function.update outer.store l.size r, l.size + 1, ⟨l.size, .head⟩,
    { l.top with mode := .tail } :: l.below⟩

def push (l : LinkedStack) (name : Option Text) (line : Text) : LinkedStack :=
  let text := (l.record l.top).tail
  if l.top.mode = .tail ∧ text ≠ [] then
    ((l.change fun r => { r with tail := [] }).nest (.wrapper text)).nest (.opened name line)
  else l.nest (.opened name line)

def endWrapper (l : LinkedStack) : LinkedStack :=
  match (l.record l.top).name, l.below with
  | none, outer :: rest => { l with top := outer, below := rest }
  | _, _ => l

def pop? (l : LinkedStack) (line : Text) : Option LinkedStack :=
  match l.below with
  | [] => none
  | outer :: rest =>
      let closed := l.change fun r => { r with endLine := some line }
      some (endWrapper { closed with top := outer, below := rest })

def consume (v : Vocabulary) (separator : Text) (n : Nat) (line : Text) (l : LinkedStack) :
    Except StructureError LinkedStack :=
  match v.opening line with
  | .malformed => .error (.malformed n line)
  | .opens name => .ok (l.push name line)
  | .none =>
      if v.closes line then
        match l.pop? line with
        | none => .error (.unmatchedEnd n line)
        | some next => .ok next
      else .ok (l.write (line ++ separator))

def consumeAll (v : Vocabulary) (separator : Text) :
    Nat → List Text → LinkedStack → Except StructureError LinkedStack
  | _, [], l => .ok l
  | n, line :: rest, l =>
      match l.consume v separator n line with
      | .error e => .error e
      | .ok next => consumeAll v separator (n + 1) rest next

-- The places of sections that are not open any more.
def Closed (l : LinkedStack) (i : Nat) : Prop := i < l.size ∧ i ∉ l.frames.map Frame.place

end LinkedStack

-- The sections that closed places stand for.
inductive Holds (store : Nat → Record) (closed : Nat → Prop) : List Nat → List Section → Prop where
  | nil : Holds store closed [] []
  | cons {place : Nat} {places : List Nat} {children others : List Section} (hp : closed place)
      (hc : Holds store closed (store place).children children)
      (hr : Holds store closed places others) :
      Holds store closed (place :: places) ((store place).toSection children :: others)

section Store

variable {store store' : Nat → Record} {closed closed' : Nat → Prop}

-- What is closed does not change any more.
theorem Holds.mono (hk : ∀ i, closed i → closed' i ∧ store' i = store i) {places : List Nat}
    {sections : List Section} (h : Holds store closed places sections) :
    Holds store' closed' places sections := by
  induction h with
  | nil => exact .nil
  | @cons place _ _ _ hp _ _ ihc ihr =>
      obtain ⟨hclosed, hstore⟩ := hk place hp
      rw [← hstore] at ihc ⊢
      exact .cons hclosed ihc ihr

theorem Holds.append {places more : List Nat} {sections others : List Section}
    (h : Holds store closed places sections) (hm : Holds store closed more others) :
    Holds store closed (places ++ more) (sections ++ others) := by
  induction h with
  | nil => exact hm
  | cons hp hc _ _ ihr => exact .cons hp hc ihr

theorem Holds.eq_nil_iff {places : List Nat} {sections : List Section}
    (h : Holds store closed places sections) : places = [] ↔ sections = [] := by
  cases h <;> simp

-- An open section in a store, when its children are known there.
def OpenSection.record (o : OpenSection) (children : List Nat) : Record :=
  ⟨o.name, o.startLine, o.head, children, o.tail, none⟩

-- An entry of the stack shows an open section if it agrees with it in all texts. Its children are
-- those of the section, and behind them the section that stands on it.
structure Frame.Shows (store : Nat → Record) (closed : Nat → Prop) (upper : Option Nat) (f : Frame)
    (o : OpenSection) : Prop where
  mode : f.mode = o.mode
  record : ∃ places, Holds store closed places o.children ∧
    store f.place = o.record (places ++ upper.toList)

theorem Frame.Shows.mono (hk : ∀ i, closed i → closed' i ∧ store' i = store i)
    {upper : Option Nat} {f : Frame} {o : OpenSection} (h : f.Shows store closed upper o)
    (hf : store' f.place = store f.place) : f.Shows store' closed' upper o := by
  obtain ⟨places, hp, hr⟩ := h.record
  exact ⟨h.mode, places, hp.mono hk, hf.trans hr⟩

-- Entries that show open sections, the innermost first.
inductive FramesShow (store : Nat → Record) (closed : Nat → Prop) :
    Option Nat → List Frame → List OpenSection → Prop where
  | nil (upper : Option Nat) : FramesShow store closed upper [] []
  | cons {upper : Option Nat} {f : Frame} {o : OpenSection} {fs : List Frame}
      {os : List OpenSection} (h : f.Shows store closed upper o)
      (hr : FramesShow store closed (some f.place) fs os) :
      FramesShow store closed upper (f :: fs) (o :: os)

theorem FramesShow.mono (hk : ∀ i, closed i → closed' i ∧ store' i = store i)
    {upper : Option Nat} {fs : List Frame} {os : List OpenSection}
    (h : FramesShow store closed upper fs os) (hf : ∀ f ∈ fs, store' f.place = store f.place) :
    FramesShow store' closed' upper fs os := by
  induction h with
  | nil upper => exact .nil upper
  | cons h _ ih =>
      obtain ⟨hfirst, hrest⟩ := List.forall_mem_cons.mp hf
      exact .cons (h.mono hk hfirst) (ih hrest)

end Store

namespace LinkedStack

-- The stack shows the open sections, with the root at its bottom. No section stands on it twice.
structure Shows (l : LinkedStack) (st : OpenStack) : Prop where
  frames : FramesShow l.store l.Closed none l.frames (st.top :: st.below)
  nodup : (l.frames.map Frame.place).Nodup
  bound : ∀ f ∈ l.frames, f.place < l.size
  bottom : (l.frames.map Frame.place).getLast? = some 0

theorem Shows.initial : initial.Shows .initial where
  frames := .cons ⟨rfl, [], .nil, rfl⟩ (.nil _)
  nodup := by simp [LinkedStack.initial, LinkedStack.frames]
  bound := by simp [LinkedStack.initial, LinkedStack.frames]
  bottom := rfl

variable {l : LinkedStack} {o : OpenSection} {os : List OpenSection}

theorem Shows.top (h : l.Shows ⟨o, os⟩) : l.top.Shows l.store l.Closed none o := by
  cases h.frames with
  | cons htop _ => exact htop

theorem Shows.below (h : l.Shows ⟨o, os⟩) :
    FramesShow l.store l.Closed (some l.top.place) l.below os := by
  cases h.frames with
  | cons _ hbelow => exact hbelow

theorem Shows.name_top (h : l.Shows ⟨o, os⟩) : (l.record l.top).name = o.name := by
  obtain ⟨places, -, hr⟩ := h.top.record
  rw [record, hr, OpenSection.record]

theorem Shows.tail_top (h : l.Shows ⟨o, os⟩) : (l.record l.top).tail = o.tail := by
  obtain ⟨places, -, hr⟩ := h.top.record
  rw [record, hr, OpenSection.record]

theorem Shows.place_ne_top (h : l.Shows ⟨o, os⟩) : ∀ f ∈ l.below, f.place ≠ l.top.place :=
  fun _ hf he => (List.nodup_cons.mp h.nodup).1 (he ▸ List.mem_map_of_mem hf)

theorem Shows.place_ne_size (h : l.Shows ⟨o, os⟩) : ∀ f ∈ l.frames, f.place ≠ l.size :=
  fun f hf => Nat.ne_of_lt (h.bound f hf)

theorem Closed.ne_top {i : Nat} (h : l.Closed i) : i ≠ l.top.place :=
  fun he => h.2 (he ▸ List.mem_cons_self)

theorem store_change_top (g : Record → Record) :
    (l.change g).store l.top.place = g (l.record l.top) := Function.update_self ..

theorem store_change_of_ne (g : Record → Record) {i : Nat} (hi : i ≠ l.top.place) :
    (l.change g).store i = l.store i := Function.update_of_ne hi ..

-- Only the section on top changes.
theorem Shows.change (h : l.Shows ⟨o, os⟩) {g : Record → Record} {next : OpenSection}
    (hm : next.mode = o.mode) (hc : next.children = o.children)
    (hg : ∀ places, g (o.record places) = next.record places) :
    (l.change g).Shows ⟨next, os⟩ := by
  have hclosed : ∀ i, l.Closed i → (l.change g).Closed i ∧ (l.change g).store i = l.store i :=
    fun i hi => ⟨hi, store_change_of_ne g hi.ne_top⟩
  obtain ⟨places, hp, hr⟩ := h.top.record
  refine ⟨.cons ⟨h.top.mode.trans hm.symm, places, hc ▸ hp.mono hclosed, ?_⟩ ?_, h.nodup, h.bound,
    h.bottom⟩
  · exact (store_change_top g).trans (by rw [record, hr, hg])
  · exact h.below.mono hclosed fun f hf => store_change_of_ne g (h.place_ne_top f hf)

theorem Shows.write (h : l.Shows ⟨o, os⟩) (text : Text) :
    (l.write text).Shows ⟨o.write text, os⟩ := by
  have hmode := h.top.mode
  obtain ⟨name, startLine, mode, head, children, tail⟩ := o
  unfold LinkedStack.write
  rw [hmode]
  cases mode with
  | head => exact h.change rfl rfl fun _ => rfl
  | tail => exact h.change rfl rfl fun _ => rfl

section Nest

variable {r : Record}

theorem places_nest :
    (l.nest r).frames.map Frame.place = l.size :: l.frames.map Frame.place := rfl

theorem store_nest_new : (l.nest r).store l.size = r := Function.update_self ..

theorem store_nest_top (h : l.top.place ≠ l.size) : (l.nest r).store l.top.place =
    { l.record l.top with children := (l.record l.top).children ++ [l.size] } :=
  (Function.update_of_ne h ..).trans (store_change_top _)

theorem store_nest_of_ne {i : Nat} (hi : i ≠ l.size) (ht : i ≠ l.top.place) :
    (l.nest r).store i = l.store i :=
  (Function.update_of_ne hi ..).trans (store_change_of_ne _ ht)

theorem Closed.nest {i : Nat} (h : l.Closed i) :
    (l.nest r).Closed i ∧ (l.nest r).store i = l.store i := by
  have hne : i ≠ l.size := Nat.ne_of_lt h.1
  refine ⟨⟨Nat.lt_succ_of_lt h.1, ?_⟩, store_nest_of_ne hne h.ne_top⟩
  rw [places_nest, List.mem_cons, not_or]
  exact ⟨hne, h.2⟩

end Nest

-- A new section takes a free place, and the section below it refers to that place.
theorem Shows.nest (h : l.Shows ⟨o, os⟩) (inner : OpenSection) (hm : inner.mode = .head)
    (hc : inner.children = []) :
    (l.nest (inner.record [])).Shows ⟨inner, { o with mode := .tail } :: os⟩ := by
  have hclosed : ∀ i, l.Closed i → (l.nest (inner.record [])).Closed i ∧
      (l.nest (inner.record [])).store i = l.store i := fun _ => Closed.nest
  obtain ⟨htop, hbelow⟩ := List.forall_mem_cons.mp h.place_ne_size
  obtain ⟨places, hp, hr⟩ := h.top.record
  have houter : (l.nest (inner.record [])).store l.top.place = o.record (places ++ [l.size]) := by
    rw [store_nest_top htop, record, hr]
    simp [OpenSection.record]
  constructor
  · refine .cons ⟨hm.symm, [], hc ▸ .nil, store_nest_new⟩
      (.cons ⟨rfl, places, hp.mono hclosed, houter⟩ ?_)
    exact h.below.mono hclosed fun f hf => store_nest_of_ne (hbelow f hf) (h.place_ne_top f hf)
  · rw [places_nest]
    refine List.nodup_cons.mpr ⟨fun hmem => ?_, h.nodup⟩
    obtain ⟨f, hf, he⟩ := List.mem_map.mp hmem
    exact h.place_ne_size f hf he
  · obtain ⟨htop, hbelow⟩ := List.forall_mem_cons.mp h.bound
    exact List.forall_mem_cons.mpr ⟨Nat.lt_succ_self _, List.forall_mem_cons.mpr
      ⟨Nat.lt_succ_of_lt htop, fun f hf => Nat.lt_succ_of_lt (hbelow f hf)⟩⟩
  · rw [places_nest, List.getLast?_cons_of_ne_nil (by simp [LinkedStack.frames]), h.bottom]

theorem Shows.push (h : l.Shows ⟨o, os⟩) (name : Option Text) (line : Text) :
    (l.push name line).Shows ((OpenStack.mk o os).push name line) := by
  have hmode := h.top.mode
  have htail := h.tail_top
  unfold LinkedStack.push OpenStack.push
  simp only [hmode, htail]
  split
  · rename_i ht
    obtain ⟨outer, startLine, mode, head, children, tail⟩ := o
    obtain rfl : mode = .tail := ht.1
    have hcleared : (l.change fun r => { r with tail := [] }).Shows
        ⟨⟨outer, startLine, .tail, head, children, []⟩, os⟩ := h.change rfl rfl fun _ => rfl
    have hwrapped := hcleared.nest ⟨none, none, .head, tail, [], []⟩ rfl rfl
    exact hwrapped.nest (.opened name line) rfl rfl
  · exact h.nest (.opened name line) rfl rfl

-- The section on top joins the closed children of the one below it.
theorem Shows.leave {store : Nat → Record} {size : Nat} {top outer : Frame} {rest : List Frame}
    {parent : OpenSection} {endLine : Option Text} {next : Nat → Record}
    (h : LinkedStack.Shows ⟨store, size, top, outer :: rest⟩ ⟨o, parent :: os⟩)
    (hnext : ∀ i, i ≠ top.place → next i = store i)
    (htop : next top.place = { store top.place with endLine := endLine }) :
    LinkedStack.Shows ⟨next, size, outer, rest⟩ ⟨parent.attach (o.close endLine), os⟩ := by
  obtain ⟨hnot, hnodup⟩ := List.nodup_cons.mp h.nodup
  obtain ⟨hlt, hbound⟩ := List.forall_mem_cons.mp h.bound
  obtain ⟨houter, hrest⟩ := List.forall_mem_cons.mp h.place_ne_top
  have hclosed : ∀ i, LinkedStack.Closed ⟨store, size, top, outer :: rest⟩ i →
      LinkedStack.Closed ⟨next, size, outer, rest⟩ i ∧ next i = store i :=
    fun i hi => ⟨⟨hi.1, fun hm => hi.2 (List.mem_cons_of_mem _ hm)⟩, hnext i hi.ne_top⟩
  obtain ⟨inner, hi, hr⟩ := h.top.record
  have hrecord : store top.place = o.record inner := by rw [← List.append_nil inner]; exact hr
  rw [hrecord] at htop
  have hchild : Holds next (LinkedStack.Closed ⟨next, size, outer, rest⟩) [top.place]
      [o.close endLine] := by
    have hleft : LinkedStack.Closed ⟨next, size, outer, rest⟩ top.place := ⟨hlt, hnot⟩
    have hchildren := hi.mono hclosed
    have hone : Holds next (LinkedStack.Closed ⟨next, size, outer, rest⟩) [top.place]
        [(next top.place).toSection o.children] :=
      .cons hleft (by rw [htop]; exact hchildren) .nil
    rwa [htop] at hone
  cases h.below with
  | cons hparent hothers =>
      obtain ⟨places, hp, hr⟩ := hparent.record
      have hparentRecord : next outer.place = parent.record (places ++ [top.place] ++ []) := by
        rw [hnext _ houter, List.append_nil]
        exact hr
      exact ⟨.cons ⟨hparent.mode, _, (hp.mono hclosed).append hchild, hparentRecord⟩
        (hothers.mono hclosed fun f hf => hnext f.place (hrest f hf)), hnodup, hbound, h.bottom⟩

theorem Shows.endWrapper {st : OpenStack} (h : l.Shows st) : l.endWrapper.Shows st.endWrapper := by
  obtain ⟨o, os⟩ := st
  obtain ⟨store, size, top, below⟩ := l
  unfold LinkedStack.endWrapper OpenStack.endWrapper
  simp only [h.name_top]
  cases h.below with
  | nil =>
      cases o.name <;> exact h
  | cons =>
      cases o.name with
      | none =>
          obtain ⟨places, -, hr⟩ := h.top.record
          have hopen : (store top.place).endLine = none := congrArg Record.endLine hr
          exact h.leave (fun _ _ => rfl) (by rw [← hopen])
      | some name => exact h

-- A section is closed in both or in neither.
theorem Shows.pop {st : OpenStack} (h : l.Shows st) (line : Text) :
    l.pop? line = none ∧ st.pop? line = none ∨
      ∃ next after, l.pop? line = some next ∧ st.pop? line = some after ∧ next.Shows after := by
  obtain ⟨o, os⟩ := st
  obtain ⟨store, size, top, below⟩ := l
  cases h.below with
  | nil => exact .inl ⟨rfl, rfl⟩
  | cons =>
      refine .inr ⟨_, _, rfl, rfl, Shows.endWrapper (h.leave ?_ ?_)⟩
      · exact fun i hi => store_change_of_ne _ hi
      · exact store_change_top _

-- The same failure, or a stack that shows the open sections.
inductive Agrees : Except StructureError LinkedStack → Except StructureError OpenStack → Prop where
  | error (e : StructureError) : Agrees (.error e) (.error e)
  | ok {l : LinkedStack} {st : OpenStack} (h : l.Shows st) : Agrees (.ok l) (.ok st)

variable {st : OpenStack} (v : Vocabulary) (separator : Text)

theorem Shows.consume (h : l.Shows st) (n : Nat) (line : Text) :
    Agrees (l.consume v separator n line) (st.consume v separator n line) := by
  unfold LinkedStack.consume OpenStack.consume
  cases v.opening line with
  | malformed => exact .error _
  | opens name => exact .ok (h.push name line)
  | none =>
      cases v.closes line with
      | false => exact .ok (h.write (line ++ separator))
      | true =>
          rcases h.pop line with ⟨hl, hs⟩ | ⟨next, after, hl, hs, hnext⟩
          · simp only [hl, hs]
            exact .error _
          · simp only [hl, hs]
            exact .ok hnext

-- Sections that are changed where they stand are read like sections that are put together when
-- they are closed.
theorem Shows.consumeAll (h : l.Shows st) (n : Nat) (ls : List Text) :
    Agrees (l.consumeAll v separator n ls) (st.consumeAll v separator n ls) := by
  induction ls generalizing n l st with
  | nil => exact .ok h
  | cons line rest ih =>
      have hstep := h.consume v separator n line
      rw [LinkedStack.consumeAll, OpenStack.consumeAll]
      generalize l.consume v separator n line = next at hstep
      generalize st.consume v separator n line = after at hstep
      cases hstep with
      | error e => exact .error e
      | ok hnext => exact ih hnext (n + 1)

end LinkedStack

end Sections
