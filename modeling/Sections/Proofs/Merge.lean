import Sections.Merge
import Sections.Proofs.Replacement

namespace Sections

open Text (Listing)

-- Whole lines end with the separator already.
theorem Hook.terminated_unlines (separator : Text) (ls : List Text) :
    terminated separator (Text.unlines separator ls) = Text.unlines separator ls := by
  rcases List.eq_nil_or_concat' ls with rfl | ⟨before, last, rfl⟩
  · rfl
  · have hsuffix : separator <:+ Text.unlines separator (before ++ [last]) :=
      ⟨Text.unlines separator before ++ last, by simp⟩
    have hends : Text.endsWith (Text.unlines separator (before ++ [last])) separator = true :=
      List.isSuffixOf_iff_suffix.mpr hsuffix
    rw [terminated, hends, Bool.or_true]
    rfl

namespace Options

-- What a merge gives for two texts whose markers nest, told by their lines: the generated lines
-- with the text that follows the first start marker of each name in the existing lines, and the
-- names that both texts or only the existing one have.
structure Merges (options : Options) (generated existing : Text) (outcome : Merged) : Prop where
  text : outcome.text = Vocabulary.standard.rewriteHeads options.separator
    (fun name => (Vocabulary.standard.headLines? name (Text.lines existing)).map
      (Text.unlines options.separator))
    false (Text.lines generated)
  merged : Listing outcome.merged fun name =>
    name ∈ Vocabulary.standard.startNames (Text.lines generated) ∧
      name ∈ Vocabulary.standard.startNames (Text.lines existing)
  dropped : Listing outcome.dropped fun name =>
    name ∈ Vocabulary.standard.startNames (Text.lines existing) ∧
      name ∉ Vocabulary.standard.startNames (Text.lines generated)

theorem merge_of_parse_ok {options : Options} {generated existing : Text} {root old : Section}
    (ho : Section.parse .standard options.separator existing = .ok old)
    (h : Section.parse .standard options.separator generated = .ok root) :
    ∃ outcome, options.merge generated existing = .ok outcome ∧
      options.Merges generated existing outcome := by
  obtain ⟨replaced, hr, hreplaces⟩ := replace_of_parse_ok (old.heads []) h
  obtain ⟨layout, hl, rfl⟩ :=
    (Section.ofLines_eq_ok_iff Vocabulary.standard_named options.separator _ old).mp ho
  have hheads : ((layout.tree options.separator).heads []).newHead? options.separator = fun name =>
      (Vocabulary.standard.headLines? name (Text.lines existing)).map
        (Text.unlines options.separator) := by
    funext name
    rw [Table.newHead?, layout.get?_heads_tree, hl, Option.map_map]
    congr 1
    funext ls
    exact Hook.terminated_unlines options.separator ls
  refine ⟨⟨replaced.text, replaced.present.filter fun name =>
    (((layout.tree options.separator).heads []).get? name).isSome, replaced.unmatched⟩, ?_, ?_, ?_, ?_⟩
  · simp only [merge, readTree_of_parse_ok ho, hr]
  · rw [hreplaces.text, hheads]
  · refine (hreplaces.present.filter _).congr fun name => ?_
    rw [Table.isSome_get?, layout.mem_keys_heads_tree, hl]
  · refine (hreplaces.unmatched (Section.nodup_keys_heads _)).congr fun name => ?_
    rw [layout.mem_keys_heads_tree, hl]

-- A merge is a single pass over the generated lines. It fails where one of the texts has no tree,
-- and the existing text is looked at first.
theorem merge_by_lines (options : Options) (generated existing : Text) :
    match options.readTree existing, options.readTree generated with
    | .error e, _ => options.merge generated existing = .error e
    | .ok _, .error e => options.merge generated existing = .error e
    | .ok _, .ok _ => ∃ outcome, options.merge generated existing = .ok outcome ∧
        options.Merges generated existing outcome := by
  cases ho : Section.parse .standard options.separator existing with
  | error e => simp only [merge, readTree_of_parse_error ho]
  | ok old =>
      cases hg : Section.parse .standard options.separator generated with
      | error e =>
          simp only [merge, readTree_of_parse_ok ho, readTree_of_parse_error hg,
            replace_of_parse_error _ hg]
      | ok root =>
          simp only [readTree_of_parse_ok ho, readTree_of_parse_ok hg]
          exact merge_of_parse_ok ho hg

-- An empty head is carried over like any other.
example :
    (Options.mk ['|'.unit] .sequential).merge "SECTION-START[a]\nnew\nSECTION-END".units
        "SECTION-START[b]\nSECTION-START[a]\nSECTION-END\nkept\nSECTION-END".units =
      .ok ⟨"SECTION-START[a]|SECTION-END|".units, [['a'.unit]], [['b'.unit]]⟩ := by
  decide +kernel

end Options

end Sections
