import Sections.Proofs.Nesting.Pairs

namespace Sections.Vocabulary

-- Every section that starts in the lines ends in them: no suffix has more starts than ends.
def Settled (v : Vocabulary) (ls : List Text) : Prop :=
  ∀ rest, rest <:+ ls → v.starts rest ≤ v.ends rest

-- The places of the start lines that some lines leave open, the innermost first. Behind each of
-- them the lines are balanced up to the next one, and those before all of them are settled.
inductive Leaves (v : Vocabulary) : List Text → List Nat → Prop where
  | settled {ls : List Text} (h : v.Settled ls) : Leaves v ls []
  | inside {before : List Text} {places : List Nat} (h : Leaves v before places) {start : Text}
      (hs : v.isStart start = true) {inner : List Text} (hb : v.Balanced inner) :
      Leaves v (before ++ start :: inner) (before.length :: places)

variable {v : Vocabulary} {ls more : List Text} {stop : Text} {i k : Nat} {places : List Nat}

-- Where a prefix has too many end lines, the first one too many has balanced lines before it.
theorem exists_end_of_prefix {before : List Text} (hp : before <+: ls)
    (h : v.starts before < v.ends before) :
    ∃ inner stop after, ls = inner ++ stop :: after ∧ v.Balanced inner ∧ v.IsEnd stop := by
  induction ls using List.reverseRecOn generalizing before with
  | nil =>
      rw [List.prefix_nil.mp hp] at h
      exact absurd h (Nat.lt_irrefl _)
  | append_singleton ls line ih =>
      -- If no shorter prefix has too many end lines, the last line is the first one too many.
      by_cases hn : ∃ shorter, shorter <+: ls ∧ v.starts shorter < v.ends shorter
      · obtain ⟨shorter, hs, hlt⟩ := hn
        obtain ⟨inner, stop, after, rfl, hb, he⟩ := ih hs hlt
        exact ⟨inner, stop, after ++ [line], by simp, hb, he⟩
      · have hall : ∀ shorter, shorter <+: ls → v.ends shorter ≤ v.starts shorter :=
          fun shorter hs => Nat.le_of_not_lt fun hlt => hn ⟨shorter, hs, hlt⟩
        rcases List.prefix_concat_iff.mp hp with rfl | hp
        · have hle := hall ls (List.prefix_refl ls)
          have he : v.IsEnd line := by
            by_contra hnot
            simp only [starts_concat, ends_concat, hnot, if_false] at h
            omega
          rw [starts_append, ends_append, starts_cons_end he, ends_cons_end he] at h
          simp only [starts_nil, ends_nil] at h
          exact ⟨ls, line, [], rfl, ⟨by omega, hall⟩, he⟩
        · exact absurd ⟨before, hp, h⟩ hn

theorem Balanced.settled (h : v.Balanced ls) : v.Settled ls :=
  fun _ hr => h.starts_le_ends_of_suffix hr

theorem settled_nil : v.Settled [] := balanced_nil.settled

theorem Settled.append (h : v.Settled ls) (hm : v.Settled more) : v.Settled (ls ++ more) := by
  rintro rest ⟨before, hr⟩
  rcases List.append_eq_append_iff.mp hr with ⟨mid, hmid, rfl⟩ | ⟨mid, -, hmid⟩
  · have hfirst := h mid ⟨before, hmid.symm⟩
    have hsecond := hm more (List.suffix_refl more)
    rw [starts_append, ends_append]
    omega
  · exact hm rest ⟨mid, hmid.symm⟩

theorem settled_end (he : v.IsEnd stop) : v.Settled [stop] := by
  intro rest hr
  rcases List.suffix_cons_iff.mp hr with rfl | hr
  · rw [starts_cons_end he, ends_cons_end he]
    exact Nat.zero_le _
  · rw [List.suffix_nil.mp hr]
    exact Nat.le_refl _

theorem Settled.exists_pair (h : v.Settled ls) {start : Text} (hl : ls[i]? = some start)
    (hs : v.isStart start = true) : ∃ k, v.Pairs ls i k := by
  obtain ⟨hi, rfl⟩ := List.getElem?_eq_some_iff.mp hl
  have hcut : ls = ls.take i ++ ls[i] :: ls.drop (i + 1) := by
    rw [← List.drop_eq_getElem_cons hi, List.take_append_drop]
  have hle := h (ls[i] :: ls.drop (i + 1)) ⟨ls.take i, hcut.symm⟩
  rw [starts_cons_start hs, ends_cons_start hs] at hle
  obtain ⟨inner, stop, after, hafter, hb, he⟩ :=
    exists_end_of_prefix (v := v) (List.prefix_refl (ls.drop (i + 1))) (by omega)
  have hlen : i = (ls.take i).length := by
    rw [List.length_take]
    omega
  refine ⟨_, pairs_iff.mpr ⟨ls.take i, ls[i], inner, stop, after, ?_, hlen, rfl, hs, he, hb⟩⟩
  rw [← hafter]
  exact hcut

namespace Leaves

theorem append (h : v.Leaves ls places) (hm : v.Balanced more) : v.Leaves (ls ++ more) places := by
  cases h with
  | settled h => exact .settled (h.append hm.settled)
  | inside h hs hb =>
      rw [List.append_assoc, List.cons_append]
      exact .inside h hs (hb.append hm)

theorem start (h : v.Leaves ls places) {start : Text} (hs : v.isStart start = true) :
    v.Leaves (ls ++ [start]) (ls.length :: places) :=
  .inside h hs balanced_nil

theorem settled_of_nil (h : v.Leaves ls []) : v.Settled ls := by
  cases h with
  | settled h => exact h

theorem end_nil (h : v.Leaves ls []) (he : v.IsEnd stop) : v.Leaves (ls ++ [stop]) [] :=
  .settled (h.settled_of_nil.append (settled_end he))

theorem end_cons (h : v.Leaves ls (i :: places)) (he : v.IsEnd stop) :
    v.Leaves (ls ++ [stop]) places := by
  cases h with
  | inside h hs hb =>
      rw [List.append_assoc, List.cons_append]
      exact h.append (.enclose hs hb he)

-- An end line belongs to the innermost of the open start lines.
theorem pairs_end (h : v.Leaves ls (i :: places)) (he : v.IsEnd stop) :
    v.Pairs (ls ++ [stop]) i ls.length := by
  cases h with
  | @inside before _ _ start hs inner hb =>
      refine pairs_iff.mpr ⟨before, start, inner, stop, [], ?_, rfl, ?_, hs, he, hb⟩
      · rw [List.append_assoc, List.cons_append]
      · rw [List.length_append, List.length_cons]
        omega

-- Where none is open, every start line before it has its end line already.
theorem not_pairs_end (h : v.Leaves ls []) (i : Nat) : ¬v.Pairs (ls ++ [stop]) i ls.length := by
  intro hp
  obtain ⟨start, hl, hs⟩ := hp.2.1
  rw [Option.mem_def, List.getElem?_append_left hp.1] at hl
  obtain ⟨k, hk⟩ := h.settled_of_nil.exists_pair hl hs
  have hlen := hk.lt_length.2
  have heq := ((Pairs.append_iff hlen [stop]).mpr hk).end_unique hp
  omega

theorem concat (h : v.Leaves ls places) (line : Text) : ∃ next, v.Leaves (ls ++ [line]) next := by
  by_cases hs : v.isStart line = true
  · exact ⟨_, h.start hs⟩
  · by_cases he : v.IsEnd line
    · cases places with
      | nil => exact ⟨_, h.end_nil he⟩
      | cons i places => exact ⟨_, h.end_cons he⟩
    · exact ⟨_, h.append (balanced_singleton (Bool.eq_false_iff.mpr hs) he)⟩

theorem lt_length (h : v.Leaves ls places) : ∀ i ∈ places, i < ls.length := by
  induction h with
  | settled h => exact fun i hi => absurd hi List.not_mem_nil
  | @inside before places h start hs inner hb ih =>
      intro i hi
      rw [List.length_append, List.length_cons]
      rcases List.mem_cons.mp hi with rfl | hi
      · omega
      · have hlt := ih i hi
        omega

theorem pairwise_gt (h : v.Leaves ls places) : places.Pairwise (· > ·) := by
  induction h with
  | settled h => exact List.Pairwise.nil
  | inside h hs hb ih => exact List.pairwise_cons.mpr ⟨h.lt_length, ih⟩

end Leaves

theorem exists_leaves (v : Vocabulary) (ls : List Text) : ∃ places, v.Leaves ls places := by
  induction ls using List.reverseRecOn with
  | nil => exact ⟨[], .settled settled_nil⟩
  | append_singleton ls line ih =>
      obtain ⟨places, h⟩ := ih
      exact h.concat line

theorem Balanced.exists_pair_of_end (h : v.Balanced ls) (hl : ls[k]? = some stop)
    (he : v.IsEnd stop) : ∃ i, v.Pairs ls i k := by
  obtain ⟨hk, rfl⟩ := List.getElem?_eq_some_iff.mp hl
  have hcut : ls = ls.take k ++ [ls[k]] ++ ls.drop (k + 1) := by
    rw [List.append_assoc, List.singleton_append, ← List.drop_eq_getElem_cons hk,
      List.take_append_drop]
  have hlen : (ls.take k).length = k := by
    rw [List.length_take]
    omega
  obtain ⟨places, hp⟩ := exists_leaves v (ls.take k)
  cases places with
  | nil =>
      have hle := hp.settled_of_nil (ls.take k) (List.suffix_refl _)
      have hpre := h.2 (ls.take k ++ [ls[k]]) ⟨_, hcut.symm⟩
      rw [ends_append, starts_append, ends_cons_end he, starts_cons_end he] at hpre
      simp only [ends_nil, starts_nil] at hpre
      omega
  | cons i places =>
      have hpair := hp.pairs_end he
      rw [hlen] at hpair
      have hlast : k < (ls.take k ++ [ls[k]]).length := by
        rw [List.length_append, hlen]
        exact Nat.lt_succ_self k
      refine ⟨i, ?_⟩
      rw [hcut]
      exact (Pairs.append_iff hlast _).mpr hpair

-- A start line behind which the lines are balanced belongs to no end line.
theorem not_pairs_of_balanced {before inner : List Text} {start : Text} (hb : v.Balanced inner)
    (k : Nat) : ¬v.Pairs (before ++ start :: inner) before.length k := by
  intro hp
  obtain ⟨first, other, rest, stop, after, hls, hlen, -, -, he, hrest⟩ := pairs_iff.mp hp
  have htail := (List.append_inj hls hlen).2
  exact hb.ne_append_end hrest he (List.cons.inj htail).2

-- Nor does an end line behind it belong to a start line before it.
theorem Pairs.lt_of_balanced {before inner : List Text} {start : Text}
    (hp : v.Pairs (before ++ start :: inner) i k) (hs : v.isStart start = true)
    (hb : v.Balanced inner) (hi : i < before.length) : k < before.length := by
  have hlen : before.length < (before ++ start :: inner).length := by simp
  have hget : (before ++ start :: inner)[before.length] = start := by simp
  rcases Nat.lt_trichotomy k before.length with hk | rfl | hk
  · exact hk
  · have he := hp.isEnd (List.getElem?_eq_getElem hlen)
    rw [hget] at he
    exact absurd he (not_isEnd_of_isStart hs)
  · have hsplit := between_split hi hk hlen
    have hrest : between (before ++ start :: inner) before.length k <+: inner := by
      rw [between, List.drop_take, List.append_cons, List.drop_left' (by simp)]
      exact List.take_prefix _ _
    have hle := hp.2.2.2.starts_le_ends_of_suffix ⟨_, hsplit.symm⟩
    have hpre := hb.2 _ hrest
    rw [hget, starts_cons_start hs, ends_cons_start hs] at hle
    omega

-- What is left open are the start lines that belong to no end line.
theorem Leaves.mem_iff (h : v.Leaves ls places) :
    i ∈ places ↔ (∃ start ∈ ls[i]?, v.isStart start = true) ∧ ∀ k, ¬v.Pairs ls i k := by
  induction h with
  | settled h =>
      refine iff_of_false List.not_mem_nil ?_
      rintro ⟨⟨start, hl, hs⟩, hn⟩
      obtain ⟨k, hk⟩ := h.exists_pair hl hs
      exact hn k hk
  | @inside before places h start hs inner hb ih =>
      -- The place stands before, at or behind the innermost open start line.
      rcases Nat.lt_trichotomy i before.length with hi | rfl | hi
      · have hmem : i ∈ before.length :: places ↔ i ∈ places := by
          simp [Nat.ne_of_lt hi]
        rw [hmem, ih, List.getElem?_append_left hi]
        refine and_congr_right fun _ => ⟨fun hn k hp => ?_, fun hn k hp => ?_⟩
        · have hk := hp.lt_of_balanced hs hb hi
          exact hn k ((Pairs.append_iff hk _).mp hp)
        · exact hn k ((Pairs.append_iff hp.lt_length.2 _).mpr hp)
      · refine iff_of_true List.mem_cons_self ⟨⟨start, by simp, hs⟩, fun k => ?_⟩
        exact not_pairs_of_balanced hb k
      · have hnot : i ∉ before.length :: places := by
          intro hm
          rcases List.mem_cons.mp hm with rfl | hm
          · exact Nat.lt_irrefl _ hi
          · exact Nat.lt_asymm hi (h.lt_length i hm)
        refine iff_of_false hnot ?_
        rintro ⟨⟨other, hl, hother⟩, hn⟩
        obtain ⟨m, rfl⟩ : ∃ m, i = (before ++ [start]).length + m :=
          ⟨i - (before.length + 1), by simp; omega⟩
        have hcut : before ++ start :: inner = before ++ [start] ++ inner := by simp
        rw [hcut, Option.mem_def, List.getElem?_append_right (Nat.le_add_right _ _),
          Nat.add_sub_cancel_left] at hl
        obtain ⟨k, hk⟩ := hb.settled.exists_pair hl hother
        refine hn ((before ++ [start]).length + k) ?_
        rw [hcut]
        exact hk.shift (before ++ [start])

end Sections.Vocabulary

namespace Sections.Layout

variable {v : Vocabulary} (layout : Layout v) {line : Text}

theorem existsUnique_end {i : Nat} (hl : layout.lines[i]? = some line)
    (hs : v.isStart line = true) : ∃! k, v.Pairs layout.lines i k := by
  obtain ⟨k, hp⟩ := layout.balanced_lines.settled.exists_pair hl hs
  exact ⟨k, hp, fun m hm => hm.end_unique hp⟩

theorem existsUnique_start {k : Nat} (hl : layout.lines[k]? = some line) (he : v.IsEnd line) :
    ∃! i, v.Pairs layout.lines i k := by
  obtain ⟨i, hp⟩ := layout.balanced_lines.exists_pair_of_end hl he
  exact ⟨i, hp, fun j hj => hj.start_unique hp⟩

end Sections.Layout
