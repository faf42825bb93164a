import Respell.Text.Bytes
import Respell.Text.Lines
import Respell.Scanner
import Respell.Vocabulary
import Respell.Segment
import Respell.Edit
import Respell.Rules.Sweep
import Respell.Rules.ImportLine
import Respell.Rules.Keyword
import Respell.Rules.Attribute
import Respell.Rules.Member
import Respell.Markup
import Respell.Format.Base64
import Respell.Format.Digits
import Respell.Format.Json
import Respell.SourceMap.Vlq
import Respell.SourceMap.Mark
import Respell.SourceMap.Mappings
import Respell.SourceMap
import Respell.Respelling
import Respell.Format.Toml.Table
import Respell.Format.Toml.Reader
import Respell.Project.Settings
import Respell.Project.Path
import Respell.Project.Failure
import Respell.Project.Tree
import Respell.Project.Disk
import Respell.Project.Change
import Respell.Project.Build
import Respell.Command.Arguments
import Respell.Command.Run
import Respell.Main
import Respell.Proofs.Words
import Respell.Proofs.Cursor
import Respell.Proofs.Agreement
import Respell.Proofs.Spelling
import Respell.Proofs.Sweeps
import Respell.Proofs.KeywordEdits
import Respell.Proofs.Characters
import Respell.Proofs.Documents
import Respell.Proofs.ImportForms
import Respell.Proofs.EditShapes
import Respell.Proofs.EditOrder
import Respell.Proofs.Disjointness
import Respell.Proofs.Pieces
import Respell.Proofs.LexicalStructure
import Respell.Proofs.Lines
import Respell.Proofs.Tiling
import Respell.Proofs.Boundaries
import Respell.Proofs.NestedRegions
import Respell.Proofs.StrictReading
import Respell.Proofs.Splicing
import Respell.Proofs.RecordingOrder
import Respell.Proofs.ImportLiveness
import Respell.Proofs.TagReader
import Respell.Proofs.AttributeLiveness
import Respell.Proofs.Callees
import Respell.Proofs.MapDecoding
import Respell.Proofs.Base64Decoding
import Respell.Proofs.Places
import Respell.Proofs.Glyphs
import Respell.Proofs.MapFidelity
import Respell.Proofs.Seams
import Respell.Proofs.OutputOffsets
import Respell.Proofs.HostWords
import Respell.Proofs.MemberEdits
import Respell.Proofs.AsyncMarks
import Respell.Proofs.OutputWords
import Respell.Proofs.MemberAliases
import Respell.Proofs.OutputTags
import Respell.Proofs.BraceScans
import Respell.Proofs.MarkupTags
import Respell.Proofs.MarkupDocuments
import Respell.Proofs.ImportGrammar
import Respell.Proofs.ImportLines
import Respell.Proofs.OutputLines
import Respell.Proofs.Unchanged
import Respell.Proofs.SecondRun
import Respell.Proofs.Trees
import Respell.Proofs.Paths
import Respell.Proofs.DiskFrames
import Respell.Proofs.BuildSafety
import Respell.Proofs.TreeFiles
import Respell.Proofs.OutputNames
import Respell.Proofs.Deliveries
import Respell.Proofs.BuildWalk
import Respell.Proofs.BuildOutputs
import Respell.Proofs.SourceListing
import Respell.Proofs.OutputMarkup
import Respell.Proofs.JsonReading
import Respell.Proofs.InlineMaps
import Respell.Proofs.Nesting
import Respell.Proofs.StrictRules
import Respell.Proofs.BraceHoles
import Respell.Proofs.StrictImports
import Respell.Proofs.StrictRespelling
import Respell.Proofs.CarriageReturns
import Respell.Proofs.LineEndScans
import Respell.Proofs.LineEndings
import Respell.Proofs.Locations
