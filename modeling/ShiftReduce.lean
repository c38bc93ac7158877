import ShiftReduce.Symbol
import ShiftReduce.Numbering
import ShiftReduce.SymbolSet
import ShiftReduce.OrderedMap
import ShiftReduce.RuleDef
import ShiftReduce.Augment
import ShiftReduce.Json.Reader
import ShiftReduce.Json.Writer
import ShiftReduce.RuleList
import ShiftReduce.Follow
import ShiftReduce.Closure
import ShiftReduce.Sheet
import ShiftReduce.Main
import ShiftReduce.Derivation
import ShiftReduce.ParseTree
import ShiftReduce.Parser
import ShiftReduce.Proofs.FollowSets
import ShiftReduce.Proofs.Soundness
import ShiftReduce.Proofs.Completeness
import ShiftReduce.Proofs.Unambiguity
import ShiftReduce.Proofs.CanonicalCollection
import ShiftReduce.Proofs.ViablePrefixes
import ShiftReduce.Proofs.Progress
import ShiftReduce.Proofs.Halting
import ShiftReduce.Proofs.Renaming
import ShiftReduce.Proofs.UnreachableRules
import ShiftReduce.Proofs.RuleOrder
import ShiftReduce.Proofs.Safety
import ShiftReduce.Proofs.SheetRows
import ShiftReduce.Proofs.RuleListText
import ShiftReduce.Proofs.SheetText
import ShiftReduce.Proofs.Acceptance
import ShiftReduce.Proofs.AgreeingRuns
import ShiftReduce.Proofs.LeastClosures
import ShiftReduce.Proofs.FirstOfSequences
import ShiftReduce.Proofs.FirstFaults
import ShiftReduce.Proofs.CheckedNumbers
import ShiftReduce.Proofs.Rejections
import ShiftReduce.Proofs.Lossless
import ShiftReduce.Proofs.StrayTerminals
import ShiftReduce.Proofs.ItemTexts
import ShiftReduce.Proofs.AccessingSymbols
import ShiftReduce.Proofs.Worklist
import ShiftReduce.Proofs.RowKeys
import ShiftReduce.Proofs.Assembly
import ShiftReduce.Proofs.CoprimeCycles
import ShiftReduce.Proofs.CollectedItems
import ShiftReduce.Proofs.PassCounts
