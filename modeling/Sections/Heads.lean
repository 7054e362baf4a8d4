import Sections.Section
import Sections.Table

namespace Sections

mutual

-- Adds the head of every named section whose name is still absent, in document
-- order. Of sections with one name the first is taken.
def Section.heads : Section → Table → Table
  | ⟨name, _, head, children, _, _⟩, table =>
      headsOf children (match name with
        | none => table
        | some name => table.putNew name head)

def headsOf : List Section → Table → Table
  | [], table => table
  | child :: rest, table => headsOf rest (child.heads table)

end

end Sections
