import Sections.Check
import Sections.Proofs.Nesting.Layout
import Sections.Proofs.Text.UnitOrder

namespace Sections.Check

-- What a finding says about the line that it is located at.
def Finding.Describes (line : Text) : Finding → Prop
  | .malformedMarker => Marker.opening line = .malformed
  | .unmatchedEnd => Vocabulary.standard.IsEnd line
  | .unclosed name _ => Marker.opening line = .opens (some name)
  | .emptyName => Marker.opening line = .opens (some [])
  | .duplicate name _ => Marker.opening line = .opens (some name)

-- Line number n of some lines that are counted from a first number on.
def LineAt (first : Nat) (ls : List Text) (n : Nat) (line : Text) : Prop :=
  ∃ i, ls[i]? = some line ∧ n = first + i

theorem LineAt.head (first : Nat) (line : Text) (rest : List Text) :
    LineAt first (line :: rest) first line := ⟨0, rfl, rfl⟩

theorem LineAt.tail {first n : Nat} {line other : Text} {rest : List Text}
    (h : LineAt (first + 1) rest n line) : LineAt first (other :: rest) n line := by
  obtain ⟨i, hi, rfl⟩ := h
  exact ⟨i + 1, hi, by omega⟩

theorem LineAt.unique {first n : Nat} {ls : List Text} {line other : Text}
    (h : LineAt first ls n line) (ho : LineAt first ls n other) : line = other := by
  obtain ⟨i, hi, rfl⟩ := h
  obtain ⟨k, hk, he⟩ := ho
  have hik : i = k := by omega
  subst hik
  exact Option.some.inj (hi.symm.trans hk)

namespace Scan

-- The findings of a scan grow by warnings only.
def Warns (s later : Scan) : Prop :=
  ∃ new, later.findings = s.findings ++ new ∧ ∀ f ∈ new, f.2.severity = .warning

theorem Warns.refl (s : Scan) : s.Warns s := ⟨[], by simp, fun _ hf => absurd hf List.not_mem_nil⟩

theorem Warns.trans {s middle later : Scan} (h : s.Warns middle) (hl : middle.Warns later) :
    s.Warns later := by
  obtain ⟨first, hf, hwf⟩ := h
  obtain ⟨second, hs, hws⟩ := hl
  refine ⟨first ++ second, by rw [hs, hf, List.append_assoc], fun f hm => ?_⟩
  exact (List.mem_append.mp hm).elim (hwf f) (hws f)

theorem Warns.report {s : Scan} {n : Nat} {finding : Finding} (h : finding.severity = .warning) :
    s.Warns (s.report n finding) :=
  ⟨[(n, finding)], rfl, fun _ hf => List.mem_singleton.mp hf ▸ h⟩

theorem noteName_openAt (s : Scan) (n : Nat) (name : Text) :
    (s.noteName n name).openAt = s.openAt := by
  unfold noteName
  split <;> rfl

theorem Warns.noteName (s : Scan) (n : Nat) (name : Text) : s.Warns (s.noteName n name) := by
  unfold Scan.noteName
  split
  · exact Warns.refl s
  · exact Warns.report rfl

-- An opened section is the innermost one.
theorem openSection_openAt (s : Scan) (n : Nat) (name : Text) :
    (s.openSection n name).openAt = (n, name) :: s.openAt := by
  simp only [openSection, noteName_openAt]
  split <;> rfl

theorem Warns.openSection (s : Scan) (n : Nat) (name : Text) : s.Warns (s.openSection n name) := by
  have hempty : s.Warns (if name.isEmpty then s.report n .emptyName else s) := by
    split
    · exact Warns.report rfl
    · exact Warns.refl s
  exact hempty.trans (Warns.noteName _ n name)

theorem line_plain {line : Text} (h : Vocabulary.standard.IsPlain line) (s : Scan) (n : Nat) :
    s.line n line = s := by
  have ho : Marker.opening line = .none := h.1
  have hc : Marker.closes line = false := h.2
  simp [Scan.line, ho, hc]

theorem line_opens {line name : Text} (h : Marker.opening line = .opens (some name)) (s : Scan)
    (n : Nat) : s.line n line = s.openSection n name := by
  simp [Scan.line, h]

theorem line_end {line : Text} (h : Vocabulary.standard.IsEnd line) (s : Scan) (n : Nat) :
    s.line n line = s.closeSection n := by
  have ho : Marker.opening line = .none := h.1
  have hc : Marker.closes line = true := h.2
  simp [Scan.line, ho, hc]

theorem line_malformed {line : Text} (h : Marker.opening line = .malformed) (s : Scan) (n : Nat) :
    s.line n line = s.report n .malformedMarker := by
  simp [Scan.line, h]

theorem lines_append (n : Nat) (first second : List Text) (s : Scan) :
    lines n (first ++ second) s = lines (n + first.length) second (lines n first s) := by
  induction first generalizing n s with
  | nil => rfl
  | cons line rest ih =>
      simp only [List.cons_append, lines, ih, List.length_cons]
      rw [Nat.add_assoc, Nat.add_comm 1]

-- Lines that nest open and close their own sections only, and nothing in them is an error.
theorem lines_layout (layout : Layout .standard) (n : Nat) (s : Scan) :
    (lines n layout.lines s).openAt = s.openAt ∧ s.Warns (lines n layout.lines s) := by
  induction layout generalizing n s with
  | empty => exact ⟨rfl, Warns.refl s⟩
  | plain line hp rest ih =>
      simp only [Layout.lines, lines, line_plain hp]
      exact ih (n + 1) s
  | block start name ho inner stop he rest ihi ihr =>
      have hstart := line_opens ho s n
      obtain ⟨hio, hiw⟩ := ihi (n + 1) (s.openSection n name)
      rw [openSection_openAt] at hio
      have hstop := line_end he (lines (n + 1) inner.lines (s.openSection n name))
        (n + 1 + inner.lines.length)
      simp only [closeSection, hio] at hstop
      obtain ⟨hro, hrw⟩ := ihr (n + 1 + inner.lines.length + 1)
        { lines (n + 1) inner.lines (s.openSection n name) with openAt := s.openAt }
      simp only [Layout.lines, lines, hstart, lines_append, hstop]
      exact ⟨hro, ((Warns.openSection s n name).trans hiw).trans hrw⟩

theorem mem_report {s : Scan} {n : Nat} {finding : Finding} {f : Located} :
    f ∈ (s.report n finding).findings ↔ f ∈ s.findings ∨ f = (n, finding) := by
  simp [report]

theorem mem_noteName {s : Scan} {n : Nat} {name : Text} {f : Located}
    (h : f ∈ (s.noteName n name).findings) :
    f ∈ s.findings ∨ ∃ first, f = (n, .duplicate name first) := by
  unfold noteName at h
  split at h
  · exact Or.inl h
  · exact (mem_report.mp h).imp_right fun hf => ⟨_, hf⟩

theorem mem_openSection {s : Scan} {n : Nat} {line name : Text}
    (ho : Marker.opening line = .opens (some name)) {f : Located}
    (h : f ∈ (s.openSection n name).findings) :
    f ∈ s.findings ∨ (f.1 = n ∧ f.2.Describes line) := by
  rcases mem_noteName (s := if name.isEmpty then s.report n .emptyName else s) h with h | ⟨first, rfl⟩
  · split at h
    · rename_i he
      refine (mem_report.mp h).imp_right ?_
      rintro rfl
      rw [List.isEmpty_iff.mp he] at ho
      exact ⟨rfl, ho⟩
    · exact Or.inl h
  · exact Or.inr ⟨rfl, ho⟩

-- One line adds findings about itself only.
theorem mem_line {s : Scan} {n : Nat} {line : Text} {f : Located}
    (h : f ∈ (s.line n line).findings) : f ∈ s.findings ∨ (f.1 = n ∧ f.2.Describes line) := by
  cases Vocabulary.standard_named.kind line with
  | malformed ho =>
      rw [line_malformed ho] at h
      refine (mem_report.mp h).imp_right ?_
      rintro rfl
      exact ⟨rfl, ho⟩
  | start name ho =>
      rw [line_opens ho] at h
      exact mem_openSection ho h
  | plain hp =>
      rw [line_plain hp] at h
      exact Or.inl h
  | stop he =>
      rw [line_end he] at h
      unfold closeSection at h
      split at h
      · refine (mem_report.mp h).imp_right ?_
        rintro rfl
        exact ⟨rfl, he⟩
      · exact Or.inl h

theorem mem_line_openAt {s : Scan} {n : Nat} {line : Text} {entry : Nat × Text}
    (h : entry ∈ (s.line n line).openAt) :
    entry ∈ s.openAt ∨ (entry.1 = n ∧ Marker.opening line = .opens (some entry.2)) := by
  cases Vocabulary.standard_named.kind line with
  | malformed ho =>
      rw [line_malformed ho] at h
      exact Or.inl h
  | start name ho =>
      rw [line_opens ho, openSection_openAt] at h
      refine (List.mem_cons.mp h).symm.imp_right ?_
      rintro rfl
      exact ⟨rfl, ho⟩
  | plain hp =>
      rw [line_plain hp] at h
      exact Or.inl h
  | stop he =>
      rw [line_end he] at h
      unfold closeSection at h
      split at h
      · exact Or.inl h
      · rename_i hs
        exact Or.inl (hs ▸ List.mem_cons_of_mem _ h)

-- No finding is taken back.
theorem findings_subset_line (s : Scan) (n : Nat) (line : Text) :
    s.findings ⊆ (s.line n line).findings := by
  intro f hf
  cases Vocabulary.standard_named.kind line with
  | malformed ho =>
      rw [line_malformed ho]
      exact mem_report.mpr (Or.inl hf)
  | start name ho =>
      obtain ⟨new, hn, -⟩ := Warns.openSection s n name
      rw [line_opens ho, hn]
      exact List.mem_append_left new hf
  | plain hp => rwa [line_plain hp]
  | stop he =>
      rw [line_end he]
      unfold closeSection
      split
      · exact mem_report.mpr (Or.inl hf)
      · exact hf

theorem findings_subset_lines (n : Nat) (ls : List Text) (s : Scan) :
    s.findings ⊆ (lines n ls s).findings := by
  induction ls generalizing n s with
  | nil => exact List.Subset.refl _
  | cons line rest ih =>
      exact List.Subset.trans (findings_subset_line s n line) (ih (n + 1) (s.line n line))

theorem mem_lines {ls : List Text} {n : Nat} {s : Scan} {f : Located}
    (h : f ∈ (lines n ls s).findings) :
    f ∈ s.findings ∨ ∃ line, LineAt n ls f.1 line ∧ f.2.Describes line := by
  induction ls generalizing n s with
  | nil => exact Or.inl h
  | cons line rest ih =>
      rcases ih h with h | ⟨other, hat, hd⟩
      · refine (mem_line h).imp_right ?_
        rintro ⟨hn, hd⟩
        exact ⟨line, hn ▸ LineAt.head n line rest, hd⟩
      · exact Or.inr ⟨other, hat.tail, hd⟩

theorem mem_lines_openAt {ls : List Text} {n : Nat} {s : Scan} {entry : Nat × Text}
    (h : entry ∈ (lines n ls s).openAt) :
    entry ∈ s.openAt ∨
      ∃ line, LineAt n ls entry.1 line ∧ Marker.opening line = .opens (some entry.2) := by
  induction ls generalizing n s with
  | nil => exact Or.inl h
  | cons line rest ih =>
      rcases ih h with h | ⟨other, hat, ho⟩
      · refine (mem_line_openAt h).imp_right ?_
        rintro ⟨hn, ho⟩
        exact ⟨line, hn ▸ LineAt.head n line rest, ho⟩
      · exact Or.inr ⟨other, hat.tail, ho⟩

end Scan

end Sections.Check
