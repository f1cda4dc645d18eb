import NormalForms.Cardinality
import NormalForms.Choices
import NormalForms.Classification
import NormalForms.Clause.Basic
import NormalForms.Clause.Formula
import NormalForms.Clause.Set
import NormalForms.Definition
import NormalForms.Encoder
import NormalForms.Event
import NormalForms.Expansion
import NormalForms.Failure
import NormalForms.Formula.Basic
import NormalForms.Formula.Basis
import NormalForms.Formula.Connective
import NormalForms.Formula.Defect
import NormalForms.Formula.Eval
import NormalForms.Formula.Order
import NormalForms.Formula.Render
import NormalForms.Formula.Variables
import NormalForms.Junction
import NormalForms.Literal
import NormalForms.Names.Numbering
import NormalForms.Names.Quota
import NormalForms.Names.Source
import NormalForms.Nnf.Basic
import NormalForms.Nnf.OfFormula
import NormalForms.Nnf.Simplify
import NormalForms.Options
import NormalForms.Proofs.Choices
import NormalForms.Proofs.Clause.Basic
import NormalForms.Proofs.Clause.Entailment
import NormalForms.Proofs.Clause.History
import NormalForms.Proofs.Clause.Legible
import NormalForms.Proofs.Clause.Minimal
import NormalForms.Proofs.Clause.Reading
import NormalForms.Proofs.Clause.Rename
import NormalForms.Proofs.Clause.Set
import NormalForms.Proofs.Clause.Subsumption
import NormalForms.Proofs.Encoding.Assert
import NormalForms.Proofs.Encoding.Clauses
import NormalForms.Proofs.Encoding.Composition
import NormalForms.Proofs.Encoding.Correct
import NormalForms.Proofs.Encoding.Encode
import NormalForms.Proofs.Encoding.Failed
import NormalForms.Proofs.Encoding.Layers
import NormalForms.Proofs.Encoding.Metered
import NormalForms.Proofs.Encoding.Proper
import NormalForms.Proofs.Encoding.Sharing
import NormalForms.Proofs.Encoding.Size
import NormalForms.Proofs.Encoding.Unsupported
import NormalForms.Proofs.Expansion.Count
import NormalForms.Proofs.Expansion.Coverage
import NormalForms.Proofs.Expansion.Invariance
import NormalForms.Proofs.Expansion.Meaning
import NormalForms.Proofs.Expansion.Plain
import NormalForms.Proofs.Expansion.Prime
import NormalForms.Proofs.Expansion.Proper
import NormalForms.Proofs.Expansion.Rename
import NormalForms.Proofs.Expansion.Threshold
import NormalForms.Proofs.Formula.Basis
import NormalForms.Proofs.Formula.Cardinality
import NormalForms.Proofs.Formula.Eval
import NormalForms.Proofs.Formula.Nodes
import NormalForms.Proofs.Formula.Occurrences
import NormalForms.Proofs.Formula.Rendering
import NormalForms.Proofs.Formula.Reshape
import NormalForms.Proofs.Formula.Scope
import NormalForms.Proofs.Formula.Shown
import NormalForms.Proofs.Formula.Strict
import NormalForms.Proofs.Formula.Variables
import NormalForms.Proofs.Junction
import NormalForms.Proofs.Names.History
import NormalForms.Proofs.Names.Numbering
import NormalForms.Proofs.Nnf.Basic
import NormalForms.Proofs.Nnf.Canonical
import NormalForms.Proofs.Nnf.OfFormula
import NormalForms.Proofs.Nnf.Reading
import NormalForms.Proofs.Nnf.Simplified
import NormalForms.Proofs.Nnf.Simplify
import NormalForms.Proofs.Symbols
import NormalForms.Proofs.Text
import NormalForms.Proofs.Transform.Cancellation
import NormalForms.Proofs.Transform.Cnf
import NormalForms.Proofs.Transform.Distribution
import NormalForms.Proofs.Transform.Dnf
import NormalForms.Proofs.Transform.Failures
import NormalForms.Proofs.Transform.Fallback
import NormalForms.Proofs.Transform.Mirror
import NormalForms.Proofs.Transform.Parts
import NormalForms.Proofs.Transform.Registered
import NormalForms.Proofs.Transform.Size
import NormalForms.Proofs.Transform.Strict
import NormalForms.Proofs.Transform.Trace
import NormalForms.Proofs.Traversal
import NormalForms.Proofs.Traversal.Balance
import NormalForms.Proofs.Traversal.Faithful
import NormalForms.StableSort
import NormalForms.Symbols
import NormalForms.Transform
import NormalForms.Traversal
import NormalForms.Var
