import Sections.Json

namespace Sections.Server

-- A document object with field names given as literals.
def fields (entries : List (String × Json)) : Json :=
  .object (entries.map fun entry => (entry.1.units, entry.2))

def word (text : String) : Json := .string text.units

def described (kind description : String) : Json :=
  fields [("type", word kind), ("description", word description)]

-- The two ways to name a source.
def sourceProperties : List (String × Json) :=
  [("text", described "string" "Text containing SECTION-START[name] / SECTION-END markers"),
   ("file_path", described "string"
     "File to read instead of text (relative paths resolve against the base directory)")]

def writeProperty (description : String) : String × Json :=
  ("write", fields
    [("type", word "boolean"), ("description", word description), ("default", .bool false)])

def schema (properties : List (String × Json)) : Json :=
  fields [("type", word "object"), ("properties", fields properties)]

def tool (name description : String) (inputSchema : Json) : Json :=
  fields [("name", word name), ("description", word description), ("inputSchema", inputSchema)]

-- The tools on offer, with the arguments that they take.
def tools : Json :=
  fields [("tools", .array
    [tool "list_sections"
       "Parse text or file into a tree of named sections. Returns nested outline."
       (schema sourceProperties),
     tool "replace_sections"
       "Replace the content of named sections. Children and surrounding text are kept."
       (fields
         [("type", word "object"),
          ("properties", fields (sourceProperties ++
            [("sections", fields
               [("type", word "object"),
                ("additionalProperties", fields [("type", word "string")]),
                ("description", word
                  ("Map of section name to new content (e.g., " ++
                    "\x7b\"imports\": \"import x;\"\x7d)"))]),
             writeProperty "Write the result back to file_path"])),
          ("required", .array [word "sections"])]),
     tool "merge_sections"
       "Merge hand-edited sections of an existing text into newly generated text."
       (schema
         [("generated", described "string" "Newly generated text"),
          ("generated_file", described "string" "File with newly generated text"),
          ("existing", described "string" "Existing, hand-edited text"),
          ("existing_file", described "string" "Existing, hand-edited file"),
          writeProperty "Write the merged text back to existing_file"]),
     tool "check_sections"
       "Check section markers. Reports every malformed, unmatched or unclosed marker."
       (schema sourceProperties),
     tool "trim_trailing_whitespace" "Remove trailing whitespace from every line."
       (schema sourceProperties)])]

def promptName : String := "regenerate-file"

def prompts : Json :=
  fields [("prompts", .array
    [fields
      [("name", word promptName),
       ("description", word "Regenerate a file while keeping its hand-edited sections"),
       ("arguments", .array [])]])]

-- The instructions of the one prompt, for files below a directory.
def promptText (baseDir : Text) : Text :=
  "# Regenerate a File With Sections\n\nFiles under ".units ++ baseDir ++
    (" may contain hand-edited regions between\n" ++
      "SECTION-START[name] and SECTION-END lines.\n" ++
      "\n" ++
      "When regenerating such a file:\n" ++
      "1. Call check_sections on the existing file and fix reported errors\n" ++
      "2. Produce the new text with the same section markers\n" ++
      "3. Call merge_sections with generated text and existing_file\n" ++
      "4. Review \"dropped\" names before writing\n" ++
      "\n" ++
      "Never edit text between markers you did not generate.").units

def prompt (baseDir : Text) : Json :=
  fields [("messages", .array
    [fields
      [("role", word "user"),
       ("content", fields [("type", word "text"), ("text", .string (promptText baseDir))])]])]

-- What a server says of itself to the library of the protocol.
structure About where
  info : Json
  capabilities : Json
  instructions : Text

def about : About where
  info := fields [("name", word "section-editor"), ("version", word "1.0.0")]
  capabilities := fields [("tools", .object []), ("prompts", .object [])]
  instructions :=
    ("Sections open with SECTION-START[name] and close with SECTION-END. " ++
      "Use merge_sections to regenerate a file without losing hand-edited sections. " ++
      "Run check_sections first when a file fails to parse.").units

end Sections.Server
