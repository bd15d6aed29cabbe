import LineLint.Main
import LineLint.Proofs.AddedReturns
import LineLint.Proofs.BracePairs
import LineLint.Proofs.CommentSpans
import LineLint.Proofs.CompletedImages
import LineLint.Proofs.ContinuedStatements
import LineLint.Proofs.CutOffStatements
import LineLint.Proofs.DefaultLabels
import LineLint.Proofs.DeletedLines
import LineLint.Proofs.FixConservation
import LineLint.Proofs.IgnoredInteriors
import LineLint.Proofs.InlineBodies
import LineLint.Proofs.LongestPreamble
import LineLint.Proofs.LoweredNames
import LineLint.Proofs.MatchingBraces
import LineLint.Proofs.MaximalRuns
import LineLint.Proofs.NestedBlocks
import LineLint.Proofs.NestedTags
import LineLint.Proofs.OpenBlocks
import LineLint.Proofs.OpenHeaders
import LineLint.Proofs.OptimalEdits
import LineLint.Proofs.PermutedRevisions
import LineLint.Proofs.RegisteredAnalyzers
import LineLint.Proofs.RenamedWords
import LineLint.Proofs.RepeatedFix
import LineLint.Proofs.ReportedNames
import LineLint.Proofs.RescannedLines
import LineLint.Proofs.RoundedIndentation
import LineLint.Proofs.SettledIndentation
import LineLint.Proofs.SettledSpacing
import LineLint.Proofs.SpacedArguments
import LineLint.Proofs.SpacedComments
import LineLint.Proofs.SpacedNumbers
import LineLint.Proofs.TagPlaces
import LineLint.Proofs.UnchangedFormat
import LineLint.Session
