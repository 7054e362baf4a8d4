import Sections.Proofs.FileTree
import Sections.Proofs.FileTree.Work
import Sections.Proofs.Json.Reading
import Sections.Tool

namespace Sections

open FileWork (reads_get reads_ofExcept reads_pure gives_ofExcept)

-- The path of the file to write to: that of the source, on request.
def Source.target? : Source → Bool → Option Text
  | .file path, true => some path
  | _, _ => none

def ToolCall.target? : ToolCall → Option Text
  | .replace source _ write => source.target? write
  | .merge _ source write => source.target? write
  | _ => none

namespace Tool

-- The path in a field of the arguments, if they ask to write.
def pathToWrite? (pathField : String) (args : Json) : Option Text :=
  match args.field? pathField.units, args.field? "write".units with
  | some (.string path), some (.bool true) => some path
  | _, _ => none

-- Only two tools write, each to the file of the text that it edits.
def target? : Tool → Json → Option Text
  | .replace => pathToWrite? "file_path"
  | .merge => pathToWrite? "existing_file"
  | _ => fun _ => none

variable {args : Json}

theorem target?_of_source? {textField pathField : String} {source : Source} {write : Bool}
    (hs : source? textField pathField args = some source) (hw : flag? "write" args = some write) :
    source.target? write = pathToWrite? pathField args := by
  unfold source? at hs
  unfold flag? at hw
  unfold pathToWrite?
  split at hs
  · rename_i hp
    rw [← Option.some.inj hs, hp]
    rfl
  · rename_i path _ hp
    rw [← Option.some.inj hs, hp]
    split at hw
    · rename_i hf
      rw [← Option.some.inj hw, hf]
      rfl
    · rename_i value hf
      rw [← Option.some.inj hw, hf]
      cases value <;> rfl
    · contradiction
  · contradiction

theorem target?_of_call? {tool : Tool} {args : Option Json} {call : ToolCall}
    (h : tool.call? args = .ok call) : call.target? = tool.target? (args.getD .null) := by
  cases tool with
  | replace =>
      unfold call? at h
      simp only at h
      split at h
      · rename_i hs _ hw
        rw [← Except.ok.inj h]
        exact target?_of_source? hs hw
      · contradiction
  | merge =>
      unfold call? at h
      simp only at h
      split at h
      · rename_i _ hs hw
        rw [← Except.ok.inj h]
        exact target?_of_source? hs hw
      · contradiction
  | list | check | trim =>
      cases hs : source? "text" "file_path" (args.getD .null) with
      | none => simp [call?, hs] at h
      | some source =>
          simp only [call?, hs, Option.map_some, Option.elim_some] at h
          rw [← Except.ok.inj h]
          rfl

end Tool

-- A field with the name text.
def textField? (document : Json) : Option Text :=
  match document.field? "text".units with
  | some (.string text) => some text
  | _ => none

-- The text of a response: the only item of its content holds a printed document.
def responseText? (response : Json) : Option Text :=
  match response.field? "content".units with
  | some (.array [item]) => (textField? item).bind fun written =>
      (Json.parse? written).bind textField?
  | _ => none

theorem responseText?_json {answer : Answer} {document : Json} (hd : document.Textual)
    (ha : answer.written = document.print) :
    responseText? answer.json = textField? document := by
  have htype : "type".units ≠ "text".units := by decide
  simp [responseText?, Answer.json, textField?, Json.field?, Json.lookup, htype, ha,
    Json.parse?_print hd]

-- What a call leaves of the files: all as they were, unless it gives an answer and has a file to
-- write to. Then this file alone is another, and its new text is the one in the response.
inductive ToolCall.Leaves (settings : Settings) (tree : FileTree) (target : Option Text) :
    Except ToolError Answer × FileTree → Prop where
  | failed (e : ToolError) : Leaves settings tree target (.error e, tree)
  | kept (answer : Answer) (h : target = none) : Leaves settings tree target (.ok answer, tree)
  | overwrote {path text : Text} {answer : Answer} {after : FileTree} (h : target = some path)
      (ht : responseText? answer.json = some text)
      (hw : tree.Overwritten (settings.resolve tree path) text after) :
      Leaves settings tree target (.ok answer, after)

namespace ToolCall

variable {settings : Settings} {tree : FileTree}

theorem readSource_reads (settings : Settings) (source : Source) :
    (readSource settings source).Reads := by
  cases source with
  | text text => exact reads_pure text
  | file path => exact reads_get.bind fun _ => reads_ofExcept _ _

theorem readText_of_gives {path text : Text}
    (h : (readSource settings (.file path)).Gives tree text) :
    tree.readText (settings.resolve tree path) = .ok text := by
  have hread : (readSource settings (.file path)).perform tree =
      (FileWork.ofExcept (.unreadable (settings.resolve tree path))
        (tree.readText (settings.resolve tree path))).perform tree := by
    simp [readSource]
  rw [FileWork.Gives, hread] at h
  exact gives_ofExcept.mp h

theorem writeBack_leaves {source : Source} {before : Text}
    (h : (readSource settings source).Gives tree before) (write : Bool) {text : Text}
    {answer : Answer} (ht : responseText? answer.json = some text) :
    Leaves settings tree (source.target? write)
      ((do writeBack settings source write text; return answer).perform tree) := by
  cases source with
  | text text => exact .kept _ rfl
  | file path =>
      cases write with
      | false => exact .kept _ rfl
      | true =>
          rcases FileTree.writeText_of_readText (readText_of_gives h) text with
            ⟨-, after, hw, hafter⟩ | ⟨-, hw⟩
          · simp only [writeBack, FileWork.perform_bind, FileWork.perform_get,
              FileWork.perform_write_of_ok hw]
            exact .overwrote rfl ht hafter
          · simp only [writeBack, FileWork.perform_bind, FileWork.perform_get,
              FileWork.perform_write_of_error hw]
            exact .failed _

theorem responseText?_replaced (text : Text) (unmatched : List Text) :
    responseText? (Answer.replaced text unmatched).json = some text := by
  have hnames : ["text".units, "unmatched".units].Nodup := by decide
  have hdocument : (Json.object [("text".units, .string text),
      ("unmatched".units, .ofTexts unmatched)]).Textual :=
    ⟨⟨trivial, Json.textual_ofTexts unmatched, trivial⟩, hnames⟩
  rw [responseText?_json hdocument rfl]
  simp [textField?, Json.field?, Json.lookup]

theorem responseText?_merged (merged : Merged) :
    responseText? (Answer.merged merged).json = some merged.text := by
  have hnames : ["text".units, "merged".units, "dropped".units].Nodup := by decide
  have hdocument : (Json.object [("text".units, .string merged.text),
      ("merged".units, .ofTexts merged.merged),
      ("dropped".units, .ofTexts merged.dropped)]).Textual :=
    ⟨⟨trivial, Json.textual_ofTexts merged.merged, Json.textual_ofTexts merged.dropped, trivial⟩,
      hnames⟩
  rw [responseText?_json hdocument rfl]
  simp [textField?, Json.field?, Json.lookup]

theorem run_leaves (call : ToolCall) :
    Leaves settings tree call.target? ((call.run settings).perform tree) := by
  cases call with
  | list source =>
      refine (readSource_reads settings source).perform_bind _ .failed fun text _ => ?_
      refine (reads_ofExcept _ _).perform_bind _ .failed fun options _ => ?_
      refine (reads_ofExcept _ _).perform_bind _ .failed fun root _ => ?_
      exact .kept _ rfl
  | replace source replacements write =>
      refine (readSource_reads settings source).perform_bind _ .failed fun text hs => ?_
      refine (reads_ofExcept _ _).perform_bind _ .failed fun options _ => ?_
      refine (reads_ofExcept _ _).perform_bind _ .failed fun replaced _ => ?_
      exact writeBack_leaves hs write (responseText?_replaced _ _)
  | merge other source write =>
      refine (readSource_reads settings other).perform_bind _ .failed fun generated _ => ?_
      refine (readSource_reads settings source).perform_bind _ .failed fun existing hs => ?_
      refine (reads_ofExcept _ _).perform_bind _ .failed fun options _ => ?_
      refine (reads_ofExcept _ _).perform_bind _ .failed fun merged _ => ?_
      exact writeBack_leaves hs write (responseText?_merged _)
  | check source =>
      refine (readSource_reads settings source).perform_bind _ .failed fun text _ => ?_
      exact .kept _ rfl
  | trim source =>
      refine (readSource_reads settings source).perform_bind _ .failed fun text _ => ?_
      exact .kept _ rfl

end ToolCall

section Written

-- One section after another, with line feeds.
def feeding : Settings := ⟨"/w".units, ['\n'.unit], .zero false⟩

def holding (bytes : Bytes) : FileTree :=
  ⟨["w".units], [(["w".units, ['f'.unit]], .file bytes)], []⟩

-- Asks to replace sections of the file, and to write the result back.
def rewriting (sections : List (Text × Json)) : Json :=
  .object [("file_path".units, .string ['f'.unit]), ("sections".units, .object sections),
    ("write".units, .bool true)]

def oneSection : Bytes := Text.encode "SECTION-START[a]\nSECTION-END\n".units

-- Asks for a text in the only section.
def renewing (text : Text) : Json := rewriting [(['a'.unit], .string text)]

def renewed (text : Text) : Text :=
  "SECTION-START[a]\n".units ++ text ++ "\nSECTION-END\n".units

end Written

end Sections
