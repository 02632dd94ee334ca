import Crosswalk.Main
import Crosswalk.Proofs.SchemaReadBack
import Crosswalk.Proofs.ScriptReadBack
import Crosswalk.Proofs.ChainReadBack
import Crosswalk.Proofs.SchemaExpansion
import Crosswalk.Proofs.SelectionCycles
import Crosswalk.Proofs.DeepGroups
import Crosswalk.Proofs.ColumnEnums
import Crosswalk.Proofs.RangeWarnings
import Crosswalk.Proofs.BackEdges
import Crosswalk.Proofs.InterfaceLines
import Crosswalk.Proofs.DepthReports
import Crosswalk.Proofs.GraphTypes
import Crosswalk.Proofs.GraphUnions
import Crosswalk.Proofs.QuotedValues
import Crosswalk.Proofs.MatchingClosers
import Crosswalk.Proofs.TopSplits
import Crosswalk.Proofs.PrimaryKeys
import Crosswalk.Proofs.DocComments
import Crosswalk.Proofs.InheritedFields
import Crosswalk.Proofs.ErasedText
import Crosswalk.Proofs.CrossedText
import Crosswalk.Proofs.GraphFields
import Crosswalk.Proofs.TrailingCalls
import Crosswalk.Proofs.BoundedNesting
import Crosswalk.Proofs.StableRemoval
import Crosswalk.Proofs.WrittenLiterals
import Crosswalk.Proofs.ShorterParts
import Crosswalk.Proofs.ColumnFlags
import Crosswalk.Proofs.CompleteLiterals
import Crosswalk.Proofs.JoinedChains
import Crosswalk.Proofs.RouterDocuments
import Crosswalk.Proofs.ConstantStatements
