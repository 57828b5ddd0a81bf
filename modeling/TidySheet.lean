import TidySheet.Command.Run
import TidySheet.Main
import TidySheet.Proofs.Reading
import TidySheet.Proofs.Statements
import TidySheet.Proofs.Items
import TidySheet.Proofs.Lossless
import TidySheet.Proofs.WellFormed
import TidySheet.Proofs.Ink
import TidySheet.Proofs.Offsets
import TidySheet.Proofs.ValuePadding
import TidySheet.Proofs.PropertyPadding
import TidySheet.Proofs.BlockAlignment
import TidySheet.Proofs.Realignment
import TidySheet.Proofs.Relexing
import TidySheet.Proofs.ColonAlignment
import TidySheet.Proofs.Outline
import TidySheet.Proofs.Votes
import TidySheet.Proofs.Settling
import TidySheet.Proofs.Places
import TidySheet.Proofs.Recutting
import TidySheet.Proofs.BlockWalks
import TidySheet.Proofs.VendorPlaces
import TidySheet.Proofs.Spreading
import TidySheet.Proofs.ColonMoves
import TidySheet.Proofs.SpreadSheets
import TidySheet.Proofs.Stepwise
import TidySheet.Proofs.Targets
import TidySheet.Proofs.Locality
import TidySheet.Proofs.FileNames
import TidySheet.Proofs.Collection
import TidySheet.Proofs.BuiltIn
import TidySheet.Proofs.CommandRuns
import TidySheet.Proofs.BlockMarks
import TidySheet.Proofs.BlockEdits
import TidySheet.Proofs.BlockLengths
import TidySheet.Proofs.ChangeFlags
import TidySheet.Proofs.ColonColumns
import TidySheet.Proofs.Airing
import TidySheet.Proofs.Regapping
import TidySheet.Proofs.RegappedStatements
import TidySheet.Proofs.RegappedSheets
import TidySheet.Proofs.Refilling
import TidySheet.Proofs.InlinedShapes
import TidySheet.Proofs.VendorShapes
import TidySheet.Proofs.ColonShapes
import TidySheet.Proofs.Scheduling
import TidySheet.Proofs.RunCycles
import TidySheet.Proofs.DownwardWalks
import TidySheet.Proofs.Verdicts
import TidySheet.Proofs.Spans
import TidySheet.Proofs.Culprits
import TidySheet.Proofs.Namespaces
import TidySheet.Proofs.Reparsing
import TidySheet.Proofs.FinalLines
import TidySheet.Proofs.Majorities
import TidySheet.Proofs.Reblanking
import TidySheet.Proofs.NotedWalks
