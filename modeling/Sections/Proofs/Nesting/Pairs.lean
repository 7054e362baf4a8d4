import Mathlib.Data.List.Infix
import Sections.Proofs.Nesting.Brackets

namespace Sections

namespace Vocabulary

section Pairs

-- The lines strictly between two places.
def between (ls : List Text) (i k : Nat) : List Text := (ls.take k).drop (i + 1)

variable (v : Vocabulary)

-- As many end lines as start lines, and in no prefix more of them.
def Balanced (ls : List Text) : Prop :=
  v.ends ls = v.starts ls ∧ ∀ before, before <+: ls → v.ends before ≤ v.starts before

-- A start line and a later end line belong together if the lines between them are balanced.
def Pairs (ls : List Text) (i k : Nat) : Prop :=
  i < k ∧ (∃ start ∈ ls[i]?, v.isStart start = true) ∧ (∃ stop ∈ ls[k]?, v.IsEnd stop) ∧
    v.Balanced (between ls i k)

instance (ls : List Text) : Decidable (v.Balanced ls) :=
  decidable_of_iff
    (v.ends ls = v.starts ls ∧ ∀ before ∈ ls.inits, v.ends before ≤ v.starts before)
    (by simp only [List.mem_inits, Balanced])

instance (ls : List Text) (i k : Nat) : Decidable (v.Pairs ls i k) :=
  inferInstanceAs (Decidable (_ ∧ _ ∧ _ ∧ _))

end Pairs

variable {v : Vocabulary} {ls first second inner : List Text} {start stop : Text}

theorem isStart_iff {line : Text} :
    v.isStart line = true ↔ ∃ name, v.opening line = .opens name := by
  unfold isStart
  cases v.opening line <;> simp

theorem Named.exists_opens (hv : v.Named) (h : v.isStart start = true) :
    ∃ name, v.opening start = .opens (some name) := by
  obtain ⟨opened, ho⟩ := isStart_iff.mp h
  cases opened with
  | none => exact absurd ho (hv start)
  | some name => exact ⟨name, ho⟩

theorem IsEnd.isStart (h : v.IsEnd stop) : v.isStart stop = false := by
  simp [Vocabulary.isStart, h.1]

theorem not_isEnd_of_isStart (h : v.isStart start = true) : ¬v.IsEnd start := by
  intro he
  rw [he.isStart] at h
  contradiction

@[simp] theorem starts_nil : v.starts [] = 0 := rfl

@[simp] theorem ends_nil : v.ends [] = 0 := rfl

@[simp] theorem starts_append : v.starts (first ++ second) = v.starts first + v.starts second :=
  List.countP_append

@[simp] theorem ends_append : v.ends (first ++ second) = v.ends first + v.ends second :=
  List.countP_append

theorem starts_cons_of_not_isStart {line : Text} (h : v.isStart line = false) (rest : List Text) :
    v.starts (line :: rest) = v.starts rest := by
  simp [starts, h]

theorem ends_cons_of_not_isEnd {line : Text} (h : ¬v.IsEnd line) (rest : List Text) :
    v.ends (line :: rest) = v.ends rest := by
  simp [ends, h]

theorem starts_cons_start (h : v.isStart start = true) (rest : List Text) :
    v.starts (start :: rest) = v.starts rest + 1 := by
  simp [starts, h]

theorem ends_cons_start (h : v.isStart start = true) (rest : List Text) :
    v.ends (start :: rest) = v.ends rest :=
  ends_cons_of_not_isEnd (not_isEnd_of_isStart h) rest

theorem starts_cons_end (h : v.IsEnd stop) (rest : List Text) :
    v.starts (stop :: rest) = v.starts rest :=
  starts_cons_of_not_isStart h.isStart rest

theorem ends_cons_end (h : v.IsEnd stop) (rest : List Text) :
    v.ends (stop :: rest) = v.ends rest + 1 := by
  simp [ends, h]

theorem balanced_nil : v.Balanced [] := by
  refine ⟨rfl, fun before h => ?_⟩
  rw [List.prefix_nil.mp h]
  exact Nat.le_refl _

theorem Balanced.append (hf : v.Balanced first) (hs : v.Balanced second) :
    v.Balanced (first ++ second) := by
  obtain ⟨hef, hpf⟩ := hf
  obtain ⟨hes, hps⟩ := hs
  refine ⟨by rw [ends_append, starts_append, hef, hes], fun before hp => ?_⟩
  obtain ⟨after, hp⟩ := hp
  rcases List.append_eq_append_iff.mp hp with ⟨mid, hm, -⟩ | ⟨mid, rfl, hm⟩
  · exact hpf before ⟨mid, hm.symm⟩
  · have hmid := hps mid ⟨after, hm.symm⟩
    rw [ends_append, starts_append]
    omega

theorem balanced_singleton {line : Text} (hs : v.isStart line = false) (he : ¬v.IsEnd line) :
    v.Balanced [line] := by
  have hstarts : v.starts [line] = 0 := starts_cons_of_not_isStart hs []
  have hends : v.ends [line] = 0 := ends_cons_of_not_isEnd he []
  refine ⟨hends.trans hstarts.symm, fun before h => ?_⟩
  have hle : v.ends before ≤ v.ends [line] := h.sublist.countP_le
  omega

theorem balanced_plain {line : Text} (h : v.IsPlain line) : v.Balanced [line] :=
  balanced_singleton (by simp [isStart, h.1]) (by simp [IsEnd, h.2])

theorem balanced_malformed {line : Text} (h : v.opening line = .malformed) : v.Balanced [line] :=
  balanced_singleton (by simp [isStart, h]) (by simp [IsEnd, h])

theorem Balanced.enclose (hs : v.isStart start = true) (hb : v.Balanced inner)
    (he : v.IsEnd stop) : v.Balanced (start :: (inner ++ [stop])) := by
  obtain ⟨heq, hpre⟩ := hb
  constructor
  · rw [ends_cons_start hs, starts_cons_start hs, ends_append, starts_append, ends_cons_end he,
      starts_cons_end he, ends_nil, starts_nil, heq, Nat.add_zero]
  · intro before hp
    rcases List.prefix_cons_iff.mp hp with rfl | ⟨more, rfl, hm⟩
    · exact Nat.le_refl _
    · rw [ends_cons_start hs, starts_cons_start hs]
      rcases List.prefix_concat_iff.mp hm with rfl | hm
      · rw [ends_append, starts_append, ends_cons_end he, starts_cons_end he, ends_nil, starts_nil,
          heq]
      · exact Nat.le_succ_of_le (hpre more hm)

-- No suffix of balanced lines has more starts than ends.
theorem Balanced.starts_le_ends_of_suffix (h : v.Balanced ls) {rest : List Text}
    (hr : rest <:+ ls) : v.starts rest ≤ v.ends rest := by
  obtain ⟨before, rfl⟩ := hr
  have heq := h.1
  have hpre := h.2 before (List.prefix_append before rest)
  rw [ends_append, starts_append] at heq
  omega

-- A section that starts in balanced lines ends in them.
theorem Balanced.ne_append_start {outer before : List Text} (ho : v.Balanced outer)
    (hs : v.isStart start = true) (hb : v.Balanced inner) : outer ≠ before ++ start :: inner := by
  rintro rfl
  have hle := ho.starts_le_ends_of_suffix (List.suffix_append before (start :: inner))
  rw [starts_cons_start hs, ends_cons_start hs, hb.1] at hle
  omega

-- An end line in balanced lines has its start there.
theorem Balanced.ne_append_end {outer after : List Text} (ho : v.Balanced outer)
    (hb : v.Balanced inner) (he : v.IsEnd stop) : outer ≠ inner ++ stop :: after := by
  rintro rfl
  have hle := ho.2 (inner ++ [stop]) ⟨after, by simp⟩
  rw [ends_append, starts_append, ends_cons_end he, starts_cons_end he, hb.1, ends_nil, starts_nil]
    at hle
  omega

theorem getElem?_second {α : Type} (before : List α) (first : α) (inner : List α) (second : α)
    (after : List α) :
    (before ++ first :: (inner ++ second :: after))[before.length + 1 + inner.length]? =
      some second := by
  have hcut : before ++ first :: (inner ++ second :: after) =
      before ++ [first] ++ inner ++ second :: after := by simp
  have hlen : before.length + 1 + inner.length = (before ++ [first] ++ inner).length := by
    rw [List.length_append, List.length_append, List.length_singleton]
  rw [hcut, hlen, List.getElem?_append_right (Nat.le_refl _), Nat.sub_self]
  rfl

-- The lines around a pair, and the balanced lines between its two.
theorem pairs_iff {i k : Nat} :
    v.Pairs ls i k ↔ ∃ before start inner stop after,
      ls = before ++ start :: (inner ++ stop :: after) ∧ i = before.length ∧
      k = before.length + 1 + inner.length ∧ v.isStart start = true ∧ v.IsEnd stop ∧
      v.Balanced inner := by
  constructor
  · rintro ⟨hik, ⟨start, hstart, hs⟩, ⟨stop, hstop, he⟩, hb⟩
    obtain ⟨hk, rfl⟩ := List.getElem?_eq_some_iff.mp hstop
    obtain ⟨hi, rfl⟩ := List.getElem?_eq_some_iff.mp hstart
    have hlast := List.drop_eq_getElem_cons hk
    have hlen : i < (ls.take k).length := by
      rw [List.length_take]
      omega
    have hmid := List.drop_eq_getElem_cons hlen
    rw [List.getElem_take] at hmid
    refine ⟨ls.take i, ls[i], between ls i k, ls[k], ls.drop (k + 1), ?_, ?_, ?_, hs, he, hb⟩
    · calc
        ls = ls.take k ++ ls.drop k := (List.take_append_drop k ls).symm
        _ = (ls.take k).take i ++ (ls.take k).drop i ++ ls.drop k := by
          rw [List.take_append_drop i (ls.take k)]
        _ = ls.take i ++ ls[i] :: (between ls i k ++ ls[k] :: ls.drop (k + 1)) := by
          rw [hmid, hlast, List.take_take, Nat.min_eq_left (Nat.le_of_lt hik)]
          simp [between]
    · rw [List.length_take]
      omega
    · simp only [between, List.length_take, List.length_drop]
      omega
  · rintro ⟨before, start, inner, stop, after, rfl, rfl, rfl, hs, he, hb⟩
    refine ⟨by omega, ⟨start, by simp, hs⟩, ⟨stop, getElem?_second _ _ _ _ _, he⟩, ?_⟩
    have hdrop : (before ++ start :: (inner ++ stop :: after)).drop (before.length + 1) =
        inner ++ stop :: after := by
      rw [List.append_cons, List.drop_left' (by simp)]
    rw [between, List.drop_take, hdrop, Nat.add_sub_cancel_left, List.take_left]
    exact hb

namespace Pairs

variable {i j k m : Nat}

theorem lt_length (h : v.Pairs ls i k) : i < ls.length ∧ k < ls.length := by
  obtain ⟨-, ⟨start, hs, -⟩, ⟨stop, he, -⟩, -⟩ := h
  exact ⟨(List.getElem?_eq_some_iff.mp hs).1, (List.getElem?_eq_some_iff.mp he).1⟩

theorem isStart (h : v.Pairs ls i k) (hs : ls[i]? = some start) : v.isStart start = true := by
  obtain ⟨-, ⟨other, ho, hother⟩, -, -⟩ := h
  rwa [Option.some.inj (hs.symm.trans ho)]

theorem isEnd (h : v.Pairs ls i k) (he : ls[k]? = some stop) : v.IsEnd stop := by
  obtain ⟨-, -, ⟨other, ho, hother⟩, -⟩ := h
  rwa [Option.some.inj (he.symm.trans ho)]

end Pairs

theorem between_split {i j k : Nat} (hij : i < j) (hjk : j < k) (hj : j < ls.length) :
    between ls i k = between ls i j ++ ls[j] :: between ls j k := by
  have hjlen : j < (ls.take k).length := by
    rw [List.length_take]
    omega
  have hadd : i + 1 + (j - (i + 1)) = j := by omega
  calc
    between ls i k =
        (between ls i k).take (j - (i + 1)) ++ (between ls i k).drop (j - (i + 1)) :=
      (List.take_append_drop _ _).symm
    _ = between ls i j ++ (ls.take k).drop j := by
      rw [between, List.take_drop, List.drop_drop, hadd, List.take_take,
        Nat.min_eq_left (Nat.le_of_lt hjk)]
      rfl
    _ = between ls i j ++ ls[j] :: between ls j k := by
      rw [List.drop_eq_getElem_cons hjlen, List.getElem_take]
      rfl

namespace Pairs

variable {i j k m : Nat}

theorem end_unique (h : v.Pairs ls i k) (h' : v.Pairs ls i m) : k = m := by
  have hlt : ∀ {k m : Nat}, v.Pairs ls i k → v.Pairs ls i m → ¬k < m := by
    intro k m hk hm hkm
    have hlen := hk.lt_length.2
    exact hm.2.2.2.ne_append_end hk.2.2.2 (hk.isEnd (List.getElem?_eq_getElem hlen))
      (between_split hk.1 hkm hlen)
  have hkm := hlt h h'
  have hmk := hlt h' h
  omega

theorem start_unique (h : v.Pairs ls i k) (h' : v.Pairs ls j k) : i = j := by
  have hlt : ∀ {i j : Nat}, v.Pairs ls i k → v.Pairs ls j k → ¬i < j := by
    intro i j hi hj hij
    have hlen := hj.lt_length.1
    exact hi.2.2.2.ne_append_start (hj.isStart (List.getElem?_eq_getElem hlen)) hj.2.2.2
      (between_split hij hj.1 hlen)
  have hij := hlt h h'
  have hji := hlt h' h
  omega

-- What comes behind the end line does not matter.
theorem append_iff (hk : k < ls.length) (more : List Text) :
    v.Pairs (ls ++ more) i k ↔ v.Pairs ls i k := by
  unfold Pairs between
  rw [List.getElem?_append_left hk, List.take_append_of_le_length (Nat.le_of_lt hk)]
  constructor
  · rintro ⟨hik, h⟩
    rw [List.getElem?_append_left (by omega)] at h
    exact ⟨hik, h⟩
  · rintro ⟨hik, h⟩
    rw [List.getElem?_append_left (by omega)]
    exact ⟨hik, h⟩

theorem append_plain_iff {more : List Text} (h : ∀ line ∈ more, v.IsPlain line) :
    v.Pairs (ls ++ more) i k ↔ v.Pairs ls i k := by
  constructor
  · intro hp
    rcases Nat.lt_or_ge k ls.length with hk | hk
    · exact (append_iff hk more).mp hp
    · obtain ⟨stop, hstop, he⟩ := hp.2.2.1
      rw [Option.mem_def, List.getElem?_append_right hk] at hstop
      have hplain := h stop (List.mem_of_getElem? hstop)
      exact absurd (hplain.2.symm.trans he.2) Bool.false_ne_true
  · intro hp
    exact (append_iff hp.lt_length.2 more).mpr hp

-- Nor does what stands before the start line.
theorem shift (h : v.Pairs ls i k) (before : List Text) :
    v.Pairs (before ++ ls) (before.length + i) (before.length + k) := by
  obtain ⟨outside, start, inner, stop, after, rfl, rfl, rfl, hs, he, hb⟩ := pairs_iff.mp h
  refine pairs_iff.mpr ⟨before ++ outside, start, inner, stop, after, ?_, ?_, ?_, hs, he, hb⟩
  · rw [List.append_assoc]
  · rw [List.length_append]
  · rw [List.length_append]
    omega

theorem widen (h : v.Pairs ls i k) (before after : List Text) :
    v.Pairs (before ++ ls ++ after) (before.length + i) (before.length + k) := by
  have hlen := h.lt_length.2
  refine (append_iff ?_ after).mpr (h.shift before)
  rw [List.length_append]
  omega

end Pairs

end Vocabulary

namespace Layout

variable {v : Vocabulary}

theorem append_lines_block (before : List Text) {start name : Text}
    (hs : v.opening start = .opens (some name)) (inner : Layout v) {stop : Text} (he : v.IsEnd stop)
    (rest : Layout v) :
    before ++ (block start name hs inner stop he rest).lines =
      before ++ [start] ++ inner.lines ++ [stop] ++ rest.lines := by
  simp [lines]

theorem balanced_lines (layout : Layout v) : v.Balanced layout.lines := by
  induction layout with
  | empty => exact Vocabulary.balanced_nil
  | plain line hp rest ih => exact (Vocabulary.balanced_plain hp).append ih
  | block start name ho inner stop he rest ihi ihr =>
      have hb := (ihi.enclose (Vocabulary.isStart_iff.mpr ⟨_, ho⟩) he).append ihr
      rw [lines]
      simpa using hb

end Layout

end Sections
