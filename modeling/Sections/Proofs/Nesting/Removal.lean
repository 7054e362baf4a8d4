import Sections.Proofs.Nesting.LeftOpen

namespace Sections.Vocabulary

-- The lines at the places that are kept, each with its place. The first place is n.
def keptFrom (keep : Nat → Bool) (n : Nat) (ls : List Text) : List (Text × Nat) :=
  (ls.zipIdx n).filter fun entry => keep entry.2

def keptLines (keep : Nat → Bool) (ls : List Text) : List (Text × Nat) := keptFrom keep 0 ls

-- Both lines of every pair are kept, and of the other markers none.
structure KeepsPairs (v : Vocabulary) (keep : Nat → Bool) (ls : List Text) : Prop where
  pair : ∀ i k, v.Pairs ls i k → keep i = true ∧ keep k = true
  start : ∀ i line, ls[i]? = some line → v.isStart line = true → keep i = true →
    ∃ k, v.Pairs ls i k
  stop : ∀ k line, ls[k]? = some line → v.IsEnd line → keep k = true → ∃ i, v.Pairs ls i k

variable {v : Vocabulary} {keep : Nat → Bool} {ls : List Text}

section Counts

variable {entries : List (Text × Nat)}

-- Neither a start line nor an end line is dropped.
def DropsNeutral (v : Vocabulary) (keep : Nat → Bool) (entries : List (Text × Nat)) : Prop :=
  ∀ entry ∈ entries, keep entry.2 = false → v.isStart entry.1 = false ∧ ¬v.IsEnd entry.1

theorem DropsNeutral.of_prefix {before : List (Text × Nat)} (h : v.DropsNeutral keep entries)
    (hp : before <+: entries) : v.DropsNeutral keep before :=
  fun entry he => h entry (hp.subset he)

theorem DropsNeutral.counts (h : v.DropsNeutral keep entries) :
    v.starts ((entries.filter fun entry => keep entry.2).map Prod.fst) =
        v.starts (entries.map Prod.fst) ∧
      v.ends ((entries.filter fun entry => keep entry.2).map Prod.fst) =
        v.ends (entries.map Prod.fst) := by
  induction entries with
  | nil => exact ⟨rfl, rfl⟩
  | cons entry rest ih =>
      obtain ⟨hstarts, hends⟩ := ih fun other ho => h other (List.mem_cons_of_mem _ ho)
      simp only [starts, ends] at hstarts hends ⊢
      cases hk : keep entry.2 with
      | true =>
          simp only [List.filter_cons, hk, if_true, List.map_cons, List.countP_cons, hstarts, hends,
            and_self]
      | false =>
          obtain ⟨hs, he⟩ := h entry List.mem_cons_self hk
          simp [hk, hs, he, hstarts, hends]

theorem Balanced.filter (hb : v.Balanced (entries.map Prod.fst))
    (hd : v.DropsNeutral keep entries) :
    v.Balanced ((entries.filter fun entry => keep entry.2).map Prod.fst) := by
  obtain ⟨heq, hpre⟩ := hb
  obtain ⟨hstarts, hends⟩ := hd.counts
  refine ⟨by rw [hstarts, hends, heq], fun before hp => ?_⟩
  obtain ⟨shown, hshown, rfl⟩ := List.prefix_map_iff.mp hp
  obtain ⟨whole, hwhole, rfl⟩ := List.prefix_filter_iff.mp hshown
  obtain ⟨hs, he⟩ := (hd.of_prefix hwhole).counts
  rw [hs, he]
  exact hpre _ (hwhole.map Prod.fst)

end Counts

theorem keptFrom_append (keep : Nat → Bool) (n : Nat) (first second : List Text) :
    keptFrom keep n (first ++ second) =
      keptFrom keep n first ++ keptFrom keep (n + first.length) second := by
  rw [keptFrom, List.zipIdx_append, List.filter_append]
  rfl

theorem keptFrom_cons {n : Nat} (hn : keep n = true) (line : Text) (rest : List Text) :
    keptFrom keep n (line :: rest) = (line, n) :: keptFrom keep (n + 1) rest := by
  rw [keptFrom, List.zipIdx_cons, List.filter_cons_of_pos (by exact hn)]
  rfl

theorem mem_keptLines {line : Text} {place : Nat} :
    (line, place) ∈ keptLines keep ls ↔ ls[place]? = some line ∧ keep place = true := by
  rw [keptLines, keptFrom, List.mem_filter, List.mk_mem_zipIdx_iff_getElem?]

theorem nodup_places (keep : Nat → Bool) (ls : List Text) :
    ((keptLines keep ls).map Prod.snd).Nodup := by
  have hall : (ls.zipIdx.map Prod.snd).Nodup := by
    rw [List.zipIdx_map_snd]
    exact List.nodup_range'
  exact hall.sublist (List.filter_sublist.map Prod.snd)

namespace KeepsPairs

-- Between the two lines of a pair no marker is dropped.
theorem dropsNeutral (h : v.KeepsPairs keep ls) (before after : List Text) {inner : List Text}
    (hls : ls = before ++ inner ++ after) (hb : v.Balanced inner) :
    v.DropsNeutral keep (inner.zipIdx before.length) := by
  rintro ⟨line, place⟩ he hk
  obtain ⟨hle, hline⟩ := List.mk_mem_zipIdx_iff_le_and_getElem?_sub.mp he
  have hplace : before.length + (place - before.length) = place := by omega
  constructor
  · rw [← Bool.not_eq_true]
    intro hs
    obtain ⟨k, hp⟩ := hb.settled.exists_pair hline hs
    have hkept := (h.pair _ _ (hls ▸ hp.widen before after)).1
    rw [hplace, hk] at hkept
    contradiction
  · intro hs
    obtain ⟨i, hp⟩ := hb.exists_pair_of_end hline hs
    have hkept := (h.pair _ _ (hls ▸ hp.widen before after)).2
    rw [hplace, hk] at hkept
    contradiction

theorem exists_kept (h : v.KeepsPairs keep ls) {i k : Nat} (hp : v.Pairs ls i k) :
    ∃ a b, ((keptLines keep ls).map Prod.snd)[a]? = some i ∧
      ((keptLines keep ls).map Prod.snd)[b]? = some k ∧
      v.Pairs ((keptLines keep ls).map Prod.fst) a b := by
  obtain ⟨hi, hk⟩ := h.pair i k hp
  obtain ⟨before, start, inner, stop, after, hls, rfl, rfl, hs, he, hb⟩ := pairs_iff.mp hp
  have hneutral := h.dropsNeutral (before ++ [start]) (stop :: after) (by simp [hls]) hb
  rw [List.length_append, List.length_singleton] at hneutral
  have hinner : v.Balanced ((keptFrom keep (before.length + 1) inner).map Prod.fst) :=
    Balanced.filter (by rwa [List.zipIdx_map_fst]) hneutral
  have hkept : keptLines keep ls =
      keptFrom keep 0 before ++ (start, before.length) ::
        (keptFrom keep (before.length + 1) inner ++ (stop, before.length + 1 + inner.length) ::
          keptFrom keep (before.length + 1 + inner.length + 1) after) := by
    rw [keptLines, hls, keptFrom_append, Nat.zero_add, keptFrom_cons hi, keptFrom_append,
      keptFrom_cons hk]
  rw [hkept]
  refine ⟨(keptFrom keep 0 before).length, _, by simp, ?_, pairs_iff.mpr
    ⟨_, start, _, stop, _, by rw [List.map_append, List.map_cons, List.map_append, List.map_cons],
      (List.length_map _).symm, rfl, hs, he, hinner⟩⟩
  rw [List.length_map, List.length_map, List.getElem?_map, getElem?_second]
  rfl

-- The pairs of the lines that are kept are those of all lines.
theorem pairs_iff_kept (h : v.KeepsPairs keep ls) {a b : Nat} :
    v.Pairs ((keptLines keep ls).map Prod.fst) a b ↔
      ∃ i k, ((keptLines keep ls).map Prod.snd)[a]? = some i ∧
        ((keptLines keep ls).map Prod.snd)[b]? = some k ∧ v.Pairs ls i k := by
  have hplace : ∀ {a b i : Nat}, ((keptLines keep ls).map Prod.snd)[a]? = some i →
      ((keptLines keep ls).map Prod.snd)[b]? = some i → a = b := by
    intro a b i ha hb
    have hlt := (List.getElem?_eq_some_iff.mp ha).1
    exact (List.getElem?_inj hlt (nodup_places keep ls)).mp (ha.trans hb.symm)
  constructor
  · intro hp
    obtain ⟨start, hstart, hs⟩ := hp.2.1
    rw [Option.mem_def, List.getElem?_map, Option.map_eq_some_iff] at hstart
    obtain ⟨⟨line, i⟩, hentry, rfl⟩ := hstart
    obtain ⟨hline, hkeep⟩ := mem_keptLines.mp (List.mem_of_getElem? hentry)
    obtain ⟨k, hpair⟩ := h.start i line hline hs hkeep
    obtain ⟨a', b', ha', hb', hkept⟩ := h.exists_kept hpair
    have ha : ((keptLines keep ls).map Prod.snd)[a]? = some i := by
      rw [List.getElem?_map, hentry]
      rfl
    obtain rfl := hplace ha ha'
    obtain rfl := hp.end_unique hkept
    exact ⟨i, k, ha, hb', hpair⟩
  · rintro ⟨i, k, ha, hb, hp⟩
    obtain ⟨a', b', ha', hb', hkept⟩ := h.exists_kept hp
    rwa [hplace ha ha', hplace hb hb']

end KeepsPairs

end Sections.Vocabulary
