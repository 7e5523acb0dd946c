import Formula.CommandLine.Perform
import Formula.Main
import Formula.Proofs.Recognition
import Formula.Proofs.Step
import Formula.Proofs.Interruption
import Formula.Proofs.Balance
import Formula.Proofs.Course
import Formula.Proofs.Tree
import Formula.Proofs.Yielding
import Formula.Proofs.Brackets
import Formula.Proofs.Climbing
import Formula.Proofs.Substitution
import Formula.Proofs.Tiling
import Formula.Proofs.Neighbours
import Formula.Proofs.Agreement
import Formula.Proofs.Nesting
import Formula.Proofs.Truncation
import Formula.Proofs.Layout
import Formula.Proofs.Erasure
import Formula.Proofs.Omission
import Formula.Proofs.Interception
import Formula.Proofs.Placement
import Formula.Proofs.Depth
import Formula.Proofs.Heredity
import Formula.Proofs.Storage
import Formula.Proofs.Uniqueness
import Formula.Proofs.Concatenation
import Formula.Proofs.Finiteness
import Formula.Proofs.MemberNames
import Formula.Proofs.RoundTrip
import Formula.Proofs.Bits
import Formula.Proofs.Rounding
import Formula.Proofs.Packing
import Formula.Proofs.Nearest
import Formula.Proofs.Decimals
import Formula.Proofs.PlainText
import Formula.Proofs.Quotation
import Formula.Proofs.Readability
import Formula.Proofs.Comparison
import Formula.Proofs.Numerals
import Formula.Proofs.Unreadable
import Formula.Proofs.Budget
import Formula.Proofs.Extremes
import Formula.Proofs.Members
import Formula.Proofs.Reduction
