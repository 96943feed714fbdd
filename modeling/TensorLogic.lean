import TensorLogic.Main
import TensorLogic.Session.Recorded
import TensorLogic.Interpreter.Transcript
import TensorLogic.Proofs.Indices
import TensorLogic.Proofs.Storage
import TensorLogic.Proofs.Agreement
import TensorLogic.Proofs.View
import TensorLogic.Proofs.Cells
import TensorLogic.Proofs.Capacity
import TensorLogic.Proofs.Contraction
import TensorLogic.Proofs.Alike
import TensorLogic.Proofs.Linked
import TensorLogic.Proofs.Predicates
import TensorLogic.Proofs.Names
import TensorLogic.Proofs.Evaluation
import TensorLogic.Proofs.Extension
import TensorLogic.Proofs.Gates
import TensorLogic.Proofs.Aggregators
import TensorLogic.Proofs.Faithful
import TensorLogic.Proofs.Literals
import TensorLogic.Proofs.Compilation
import TensorLogic.Proofs.Overruns
import TensorLogic.Proofs.Built
import TensorLogic.Proofs.Listing
import TensorLogic.Proofs.Declared
import TensorLogic.Proofs.Complete
import TensorLogic.Proofs.Enumeration
import TensorLogic.Proofs.Assignments
import TensorLogic.Proofs.Staging
import TensorLogic.Proofs.Returns
import TensorLogic.Proofs.Functions
import TensorLogic.Proofs.Monoids
import TensorLogic.Proofs.Closure
import TensorLogic.Proofs.Isolation
import TensorLogic.Proofs.Places
import TensorLogic.Proofs.Outcomes
import TensorLogic.Proofs.Grammar
import TensorLogic.Proofs.Codes
import TensorLogic.Proofs.Constructible
import TensorLogic.Proofs.Columns
import TensorLogic.Proofs.Tables
import TensorLogic.Proofs.Defaults
import TensorLogic.Proofs.Scopes
import TensorLogic.Proofs.WellScoped
import TensorLogic.Proofs.SessionScopes
import TensorLogic.Proofs.Limits
import TensorLogic.Proofs.Demands
import TensorLogic.Proofs.PredicateDemands
import TensorLogic.Proofs.Traps
import TensorLogic.Proofs.Folds
import TensorLogic.Proofs.Substitutions
import TensorLogic.Proofs.Compatible
import TensorLogic.Proofs.Grids
import TensorLogic.Proofs.Comparisons
import TensorLogic.Proofs.Stabilizers
import TensorLogic.Proofs.Preservation
import TensorLogic.Proofs.ClosedSets
import TensorLogic.Proofs.Essentials
import TensorLogic.Proofs.Classical
import TensorLogic.Proofs.Counts
import TensorLogic.Proofs.Blocks
import TensorLogic.Proofs.Relabelling
import TensorLogic.Proofs.StagedFolds
import TensorLogic.Proofs.Cursor
import TensorLogic.Proofs.Ends
import TensorLogic.Proofs.Reports
import TensorLogic.Proofs.Flaws
import TensorLogic.Proofs.Acceptance
import TensorLogic.Proofs.Slices
import TensorLogic.Proofs.RowMajor
import TensorLogic.Proofs.Printed
