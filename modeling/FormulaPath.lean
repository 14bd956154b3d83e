import FormulaPath.Access
import FormulaPath.Bracket
import FormulaPath.Category
import FormulaPath.Completion
import FormulaPath.Datatype
import FormulaPath.Distinct
import FormulaPath.Element
import FormulaPath.Environment
import FormulaPath.Hover
import FormulaPath.Json.Token
import FormulaPath.Json.Value
import FormulaPath.Line
import FormulaPath.Model
import FormulaPath.Node
import FormulaPath.Options
import FormulaPath.Options.Reader
import FormulaPath.Path
import FormulaPath.Problem
import FormulaPath.Proposal
import FormulaPath.Region
import FormulaPath.Resolution
import FormulaPath.Rule
import FormulaPath.Schema
import FormulaPath.Scope
import FormulaPath.Suggestion
import FormulaPath.Text.Bytes
import FormulaPath.Text.Decimal
import FormulaPath.Text.NameChar
import FormulaPath.Text.LowerCase
import FormulaPath.Texts
import FormulaPath.Trail
import FormulaPath.Proofs.Chain
import FormulaPath.Proofs.Declarations
import FormulaPath.Proofs.ListValued
import FormulaPath.Proofs.Offer
import FormulaPath.Proofs.Acceptance
import FormulaPath.Proofs.Terminated
import FormulaPath.Proofs.QualifierOffer
import FormulaPath.Proofs.Continuation
import FormulaPath.Proofs.Shape
import FormulaPath.Proofs.Diagnosis
import FormulaPath.Proofs.Rendering
import FormulaPath.Proofs.ProposalOrder
import FormulaPath.Proofs.Filtering
import FormulaPath.Proofs.Reordering
import FormulaPath.Proofs.Narrowing
import FormulaPath.Proofs.LinePaths
import FormulaPath.Proofs.LineParts
import FormulaPath.Proofs.HoverNode
import FormulaPath.Proofs.CompletionEdit
import FormulaPath.Proofs.Relocation
import FormulaPath.Proofs.ByteScan
import FormulaPath.Proofs.CheckedOffsets
import FormulaPath.Proofs.Localization
import FormulaPath.Proofs.Joining
import FormulaPath.Proofs.Multiplicity
import FormulaPath.Proofs.AttributeNames
import FormulaPath.Proofs.Supertypes
import FormulaPath.Proofs.Inheritance
import FormulaPath.Proofs.Remainder
