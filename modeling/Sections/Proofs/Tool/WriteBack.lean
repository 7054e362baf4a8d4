import Sections.Proofs.Replacement
import Sections.Proofs.Settings
import Sections.Proofs.Text.ByteLines
import Sections.Proofs.Tool

namespace Sections

-- Without replacements every section keeps its head.
theorem Options.replace_nothing {options : Options} {text : Text} {root : Section}
    (h : Section.parse .standard options.separator text = .ok root) :
    ∃ replaced, options.replace [] text = .ok replaced ∧
      replaced.text = Text.unlines options.separator (Text.lines text) := by
  obtain ⟨present, -, hreplace⟩ := replace_eq [] h
  refine ⟨_, hreplace, ?_⟩
  have hslot : Slot.newHead (Table.newHead? options.separator []) = Slot.content := by
    funext slot
    cases hn : slot.name <;> simp [Slot.newHead, hn, Table.newHead?, Table.get?]
  simp only [hslot, Section.mapContent_content]
  exact Section.render_parse h

namespace Tool

variable {settings : Settings} {options : Options} {tree : FileTree} {args : Option Json}
  {path : Text} {route : Route} {bytes : Bytes}

theorem perform_replace_nothing (ho : settings.options = .ok options)
    (hc : Tool.replace.call? args = .ok (.replace (.file path) [] true))
    (hr : tree.openFile .read (settings.resolve tree path) = .ok (route, bytes))
    (hw : tree.openFile .write (settings.resolve tree path) = .ok (route, bytes))
    (hp : (options.readTree (Text.decode bytes)).isOk = true) :
    ∃ answer after, (Tool.replace.run settings args).perform tree = (.ok answer, after) ∧
      tree.Rewritten route (Text.encode
        (Text.unlines settings.lineSeparator (Text.lines (Text.decode bytes)))) after := by
  obtain ⟨root, hroot⟩ := Options.exists_readTree hp
  obtain ⟨replaced, hreplace, htext⟩ :=
    Options.replace_nothing (Options.readTree_eq_ok_iff.mp hroot)
  rw [Settings.options_separator ho] at htext
  obtain ⟨after, hafter, hrewritten⟩ := FileTree.writeText_of_openFile hw replaced.text
  refine ⟨.replaced replaced.text replaced.unmatched, after, ?_, htext ▸ hrewritten⟩
  simp only [Tool.run, hc, ToolCall.run, ToolCall.readSource, ToolCall.writeBack,
    FileWork.perform_bind, FileWork.perform_get, FileWork.perform_ofExcept,
    FileWork.perform_write_of_ok hafter, FileWork.perform_pure, Except.mapError,
    FileTree.readText_of_openFile hr, ho, hreplace]

-- A file that may be read and written to, written back without replacements, keeps its lines in
-- their order, each read and written again. A line stays as it is just if it is well formed, so the
-- bytes of a text keep all of their lines, and other bytes do not.
theorem replace_nothing_keeps_lines (ho : settings.options = .ok options)
    (hc : Tool.replace.call? args = .ok (.replace (.file path) [] true))
    (hr : tree.openFile .read (settings.resolve tree path) = .ok (route, bytes))
    (hw : tree.openFile .write (settings.resolve tree path) = .ok (route, bytes))
    (hp : (options.readTree (Text.decode bytes)).isOk = true) :
    ∃ answer after, (Tool.replace.run settings args).perform tree = (.ok answer, after) ∧
      tree.Rewritten route (Bytes.rewritten settings.lineSeparator bytes) after ∧
      (Text.WellFormed settings.lineSeparator →
        Bytes.rewritten settings.lineSeparator bytes = (Bytes.lines bytes).flatMap fun line =>
          Text.encode (Text.decode line) ++ Text.encode settings.lineSeparator) ∧
      (Text.IsTerminator settings.lineSeparator →
        Bytes.lines (Bytes.rewritten settings.lineSeparator bytes) =
          (Bytes.lines bytes).map (fun line => Text.encode (Text.decode line)) ∧
        (∀ line ∈ Bytes.lines bytes,
          Text.encode (Text.decode line) = line ↔ Bytes.WellFormed line) ∧
        (Bytes.lines (Bytes.rewritten settings.lineSeparator bytes) = Bytes.lines bytes ↔
          Bytes.WellFormed bytes)) := by
  obtain ⟨answer, after, hrun, hrewritten⟩ := perform_replace_nothing ho hc hr hw hp
  refine ⟨answer, after, hrun, ?_, fun hs => Bytes.rewritten_eq_flatMap hs bytes, fun hs =>
    ⟨Bytes.lines_rewritten hs bytes, fun line _ => ?_, Bytes.lines_rewritten_eq_iff hs⟩⟩
  · rwa [Bytes.rewritten_eq]
  · exact Bytes.wellFormed_iff_decode.symm

section Written

def feedingOptions : Options := ⟨['\n'.unit], .sequential⟩

-- A byte order mark, all three terminators, half a character in a section, and a last line that
-- is not ended.
def mixedBytes : Bytes :=
  [0xEF, 0xBB, 0xBF, 0x61, 13] ++ Text.encode "SECTION-START[é]".units ++
    [13, 10, 0xC3, 10, 13] ++ Text.encode "SECTION-END".units

theorem replace_nothing_keeps_lines_mixed :
    ∃ answer after written,
      (Tool.replace.run feeding (some (rewriting []))).perform (holding mixedBytes) =
        (.ok answer, after) ∧
      after.at? ["w".units, ['f'.unit]] = some (.file written) ∧
      Bytes.lines written = [[0xEF, 0xBB, 0xBF, 0x61], Text.encode "SECTION-START[é]".units,
        [0xEF, 0xBF, 0xBD], [], Text.encode "SECTION-END".units] := by
  have ho : feeding.options = .ok feedingOptions := rfl
  have hc : Tool.replace.call? (some (rewriting [])) =
      .ok (.replace (.file ['f'.unit]) [] true) := rfl
  have hr : (holding mixedBytes).openFile .read (feeding.resolve (holding mixedBytes) ['f'.unit]) =
      .ok (["w".units, ['f'.unit]], mixedBytes) := by decide +kernel
  have hw : (holding mixedBytes).openFile .write (feeding.resolve (holding mixedBytes) ['f'.unit]) =
      .ok (["w".units, ['f'.unit]], mixedBytes) := by decide +kernel
  have hp : (feedingOptions.readTree (Text.decode mixedBytes)).isOk = true := by decide +kernel
  obtain ⟨answer, after, hrun, hrewritten, -, hlines⟩ := replace_nothing_keeps_lines ho hc hr hw hp
  refine ⟨answer, after, _, hrun, (hrewritten.node _).trans (if_pos rfl), ?_⟩
  rw [(hlines (.inl rfl)).1]
  decide +kernel

-- A letter of a legacy encoding is no text, and is written back as three other bytes.
theorem replace_nothing_loses_legacy :
    (feedingOptions.readTree (Text.decode [0xE9, 10])).isOk = true ∧
    ∃ answer after written,
      (Tool.replace.run feeding (some (rewriting []))).perform (holding [0xE9, 10]) =
        (.ok answer, after) ∧
      after.at? ["w".units, ['f'.unit]] = some (.file written) ∧
      Bytes.lines written ≠ Bytes.lines [0xE9, 10] := by
  refine ⟨by decide +kernel, ?_⟩
  have hok : ((Tool.replace.run feeding (some (rewriting []))).perform
      (holding [0xE9, 10])).1.toOption.isSome := by decide +kernel
  have hfile : ((Tool.replace.run feeding (some (rewriting []))).perform
      (holding [0xE9, 10])).2.at? ["w".units, ['f'.unit]] =
        some (.file [0xEF, 0xBF, 0xBD, 10]) := by decide +kernel
  cases hrun : (Tool.replace.run feeding (some (rewriting []))).perform (holding [0xE9, 10]) with
  | mk result after =>
      rw [hrun] at hok hfile
      cases result with
      | error e => contradiction
      | ok answer => exact ⟨answer, after, _, rfl, hfile, by decide +kernel⟩

end Written

end Tool

end Sections
