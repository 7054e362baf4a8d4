import Sections.Edit.Session
import Sections.Main
import Sections.Server
import Sections.Proofs.Text.UnitOrder
import Sections.Proofs.Nesting.Render
import Sections.Proofs.Schedule.Moves
import Sections.Proofs.Schedule.Success
import Sections.Proofs.Contents
import Sections.Proofs.Edit.SectionEditor
import Sections.Proofs.Edit.RoundTrip
import Sections.Proofs.Edit.Rescheduling
import Sections.Proofs.Edit.Reuse
import Sections.Proofs.Nesting.Layout
import Sections.Proofs.Nesting.Reads
import Sections.Proofs.Check.Scan
import Sections.Proofs.Check.Agreement
import Sections.Proofs.Nesting.WellFormed
import Sections.Proofs.Heads
import Sections.Proofs.Nesting.MarkedHeads
import Sections.Proofs.Nesting.NewHeads
import Sections.Proofs.Nesting.TreeShape
import Sections.Proofs.Merge
import Sections.Proofs.Merge.Regeneration
import Sections.Proofs.Schedule.UnderWay
import Sections.Proofs.Schedule.Discipline
import Sections.Proofs.Schedule.Outcome
import Sections.Proofs.Schedule.Begun
import Sections.Proofs.Nesting.Brackets
import Sections.Proofs.Edit.Presence
import Sections.Proofs.Text.Utf8
import Sections.Proofs.FileTree
import Sections.Proofs.FileTree.Work
import Sections.Proofs.Tool
import Sections.Proofs.Server
import Sections.Proofs.Nesting.Parts
import Sections.Proofs.CommandLine.Writing
import Sections.Proofs.Nesting.LeftOpen
import Sections.Proofs.Check.Pairing
import Sections.Proofs.Nesting.Removal
import Sections.Proofs.Check.Repair
import Sections.Proofs.Edit.Appending
import Sections.Proofs.Number.Whole
import Sections.Proofs.Outline
import Sections.Proofs.DocumentOrder
import Sections.Proofs.Replacement.Rereading
import Sections.Proofs.Edit.Trimming
import Sections.Proofs.Schedule.OneWorker
import Sections.Proofs.CommandLine.Grammar
import Sections.Proofs.Settings
import Sections.Proofs.Tool.WriteBack
import Sections.Proofs.Text.Search
import Sections.Proofs.Marker
import Sections.Proofs.Edit.LineRule
import Sections.Proofs.Text.Terminators
import Sections.Proofs.Nesting.Linked
import Sections.Proofs.Nesting.Arrangement
