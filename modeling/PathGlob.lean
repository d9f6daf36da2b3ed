import PathGlob.Cursor
import PathGlob.Extent
import PathGlob.Matcher
import PathGlob.Proofs.Segmentation.ComponentSegments
import PathGlob.Proofs.Segmentation.LeadingStars
import PathGlob.Proofs.Segmentation.CanonicalPieces
import PathGlob.Proofs.Segmentation.WildcardScan
import PathGlob.Proofs.Segmentation.PartConcatenation
import PathGlob.Proofs.Segmentation.PartReading
import PathGlob.Proofs.Segmentation.LastComponent
import PathGlob.Proofs.Compilation.PartDependence
import PathGlob.Proofs.Compilation.SpelledGlobstars
import PathGlob.Proofs.Matching.OrderedSplits
import PathGlob.Proofs.Matching.SearchOutcome
import PathGlob.Proofs.Matching.ItemOutcome
import PathGlob.Proofs.Matching.PreferredChoice
import PathGlob.Proofs.Matching.CompiledMatching
import PathGlob.Proofs.Matching.Acceptance
import PathGlob.Proofs.Matching.BaseSpelling
import PathGlob.Proofs.Matching.BaseFactorization
import PathGlob.Proofs.Matching.Concatenation
import PathGlob.Proofs.Matching.ComponentMatching
import PathGlob.Proofs.Matching.LeadingGlobstars
import PathGlob.Proofs.Matching.DotlessNames
import PathGlob.Proofs.Matching.TrailingDots
import PathGlob.Proofs.Matching.WholeMatches
import PathGlob.Proofs.Matching.SelfMatching
import PathGlob.Proofs.Cursors.IndexedCursors
import PathGlob.Proofs.Cursors.RunPartition
import PathGlob.Proofs.Compilation.PatternDecoding
import PathGlob.Proofs.Compilation.WildcardSpelling
import PathGlob.Proofs.Compilation.SlashedExpressions
import PathGlob.Proofs.Matching.SlashedPaths
import PathGlob.Proofs.Compilation.LiteralDirectories
import PathGlob.Proofs.Compilation.FlagEffects
import PathGlob.Proofs.Compilation.StarRuns
import PathGlob.Proofs.Matching.RepeatedGlobstars
import PathGlob.Proofs.Matching.VariantKinds
import PathGlob.Proofs.Compilation.BuildSizes
import PathGlob.Slicing
import PathGlob.Proofs.Slicing.TokenLaws
import PathGlob.Proofs.Slicing.TokenSlices
import PathGlob.Proofs.Slicing.ComponentSlices
import PathGlob.Proofs.Slicing.GlobSlices
