import IncludeMoves.Main
import IncludeMoves.Proofs.Abort
import IncludeMoves.Proofs.AllOrNothing
import IncludeMoves.Proofs.BelowTarget
import IncludeMoves.Proofs.BuiltTrees
import IncludeMoves.Proofs.Checks
import IncludeMoves.Proofs.DryRun
import IncludeMoves.Proofs.FoundDirectives
import IncludeMoves.Proofs.JsonLines
import IncludeMoves.Proofs.ListingOrder
import IncludeMoves.Proofs.NoWarnings
import IncludeMoves.Proofs.OptionOrder
import IncludeMoves.Proofs.OwnTable
import IncludeMoves.Proofs.PathSets
import IncludeMoves.Proofs.RelativePaths
import IncludeMoves.Proofs.Repair
import IncludeMoves.Proofs.RepeatedRevision
import IncludeMoves.Proofs.SameText
import IncludeMoves.Proofs.SearchSteps
import IncludeMoves.Proofs.SecondRun
import IncludeMoves.Proofs.Settling
import IncludeMoves.Proofs.SourceSearch
import IncludeMoves.Proofs.TableTexts
import IncludeMoves.Proofs.Totals
