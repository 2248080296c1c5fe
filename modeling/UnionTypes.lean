import UnionTypes.Class.Builtin
import UnionTypes.Class.Member
import UnionTypes.Json.Printer
import UnionTypes.Settings.Document
import UnionTypes.Ty.Decode
import UnionTypes.Ty.Encode
import UnionTypes.Ty.Hash
import UnionTypes.Ty.Member
import UnionTypes.Ty.Narrow
import UnionTypes.Ty.Validity
import UnionTypes.Proofs.Ty.Equality
import UnionTypes.Proofs.Ty.Flatten
import UnionTypes.Proofs.Ty.Contents
import UnionTypes.Proofs.Ty.Merge
import UnionTypes.Proofs.Ty.Decode
import UnionTypes.Proofs.Ty.Narrow
import UnionTypes.Proofs.Ty.Constructible
import UnionTypes.Proofs.Ty.Semilattice
import UnionTypes.Proofs.Ty.Exclusion
import UnionTypes.Proofs.Ty.UnionDocument
import UnionTypes.Proofs.Class.Lineage
import UnionTypes.Proofs.Class.Member
import UnionTypes.Proofs.Class.Resolve
import UnionTypes.Proofs.Ty.RoundTrip
import UnionTypes.Proofs.Ty.Member
import UnionTypes.Proofs.Ty.Reference
import UnionTypes.Proofs.Ty.Canonical
import UnionTypes.Proofs.Ty.Validity
import UnionTypes.Proofs.Class.Subclass
import UnionTypes.Proofs.Ty.Preorder
import UnionTypes.Proofs.Ty.Congruence
import UnionTypes.Proofs.Ty.FoldOrder
import UnionTypes.Proofs.Ty.Steady
import UnionTypes.Proofs.Ty.SizeCheck
import UnionTypes.Proofs.Ty.Growth
import UnionTypes.Proofs.Ty.Query
import UnionTypes.Proofs.Ty.Successive
import UnionTypes.Proofs.Ty.Noninterference
import UnionTypes.Proofs.Ty.Report
import UnionTypes.Proofs.Ty.Grouping
import UnionTypes.Proofs.Ty.Weaken
import UnionTypes.Proofs.Ty.Hash
import UnionTypes.Proofs.Ty.Completion
import UnionTypes.Proofs.Ty.Access
import UnionTypes.Proofs.Ty.Dynamic
import UnionTypes.Proofs.Ty.DecodeReport
import UnionTypes.Proofs.Warning.Delivery
