import ConstraintLogic.Domain.Lemmas
import ConstraintLogic.Engine
import ConstraintLogic.Goal.FiniteDomain
import ConstraintLogic.JobPool.Run
import ConstraintLogic.Proofs.Agenda.Coherence
import ConstraintLogic.Proofs.Agenda.PriorityQueue
import ConstraintLogic.Proofs.Agenda.ShiftedNumbers
import ConstraintLogic.Proofs.Constraint.Attempts
import ConstraintLogic.Proofs.Constraint.BindingOrder
import ConstraintLogic.Proofs.Constraint.FilledVariables
import ConstraintLogic.Proofs.Constraint.SpelledConstants
import ConstraintLogic.Proofs.Domain.Arithmetic
import ConstraintLogic.Proofs.Domain.Forms
import ConstraintLogic.Proofs.Domain.Images
import ConstraintLogic.Proofs.Domain.Lattice
import ConstraintLogic.Proofs.Domain.Parts
import ConstraintLogic.Proofs.Goal.AllowedIntegers
import ConstraintLogic.Proofs.Goal.Freshness
import ConstraintLogic.Proofs.Goal.Information
import ConstraintLogic.Proofs.Goal.Legibility
import ConstraintLogic.Proofs.Goal.Produced
import ConstraintLogic.Proofs.Goal.Truth
import ConstraintLogic.Proofs.JobPool.Ledger
import ConstraintLogic.Proofs.Labeling.Division
import ConstraintLogic.Proofs.Labeling.Groundness
import ConstraintLogic.Proofs.Labeling.Invariants
import ConstraintLogic.Proofs.Labeling.Partition
import ConstraintLogic.Proofs.Labeling.Tree
import ConstraintLogic.Proofs.Lists.Append
import ConstraintLogic.Proofs.Lists.Member
import ConstraintLogic.Proofs.Propagator.AllDifferent
import ConstraintLogic.Proofs.Propagator.Balance
import ConstraintLogic.Proofs.Propagator.Contraction
import ConstraintLogic.Proofs.Propagator.Display
import ConstraintLogic.Proofs.Propagator.Moves
import ConstraintLogic.Proofs.Propagator.Separation
import ConstraintLogic.Proofs.Propagator.SingleRun
import ConstraintLogic.Proofs.Propagator.Sum
import ConstraintLogic.Proofs.Propagator.SumBounds
import ConstraintLogic.Proofs.Propagator.SumSupport
import ConstraintLogic.Proofs.Propagator.Support
import ConstraintLogic.Proofs.Propagator.Table
import ConstraintLogic.Proofs.Query.Direct
import ConstraintLogic.Proofs.Query.Exactness
import ConstraintLogic.Proofs.Query.Service
import ConstraintLogic.Proofs.Report.Component
import ConstraintLogic.Proofs.Report.Contents
import ConstraintLogic.Proofs.Report.Meaning
import ConstraintLogic.Proofs.Search.Adequacy
import ConstraintLogic.Proofs.Search.Parallel
import ConstraintLogic.Proofs.Search.Safety
import ConstraintLogic.Proofs.Series.Fairness
import ConstraintLogic.Proofs.Series.Interleaving
import ConstraintLogic.Proofs.Series.Plays
import ConstraintLogic.Proofs.Series.Shuffle
import ConstraintLogic.Proofs.Solver.CallCover
import ConstraintLogic.Proofs.Solver.Calls
import ConstraintLogic.Proofs.Solver.Confluence
import ConstraintLogic.Proofs.Solver.Fixpoint
import ConstraintLogic.Proofs.Solver.History
import ConstraintLogic.Proofs.Solver.Idempotence
import ConstraintLogic.Proofs.Solver.LoadAndPost
import ConstraintLogic.Proofs.Solver.LoadClosure
import ConstraintLogic.Proofs.Solver.NarrowSteps
import ConstraintLogic.Proofs.Solver.OtherAttributes
import ConstraintLogic.Proofs.Solver.Reload
import ConstraintLogic.Proofs.Solver.Requests
import ConstraintLogic.Proofs.Solver.States
import ConstraintLogic.Proofs.Solver.Termination
import ConstraintLogic.Proofs.Solver.WriteBack
import ConstraintLogic.Proofs.Subst.Balance
import ConstraintLogic.Proofs.Subst.Exactness
import ConstraintLogic.Proofs.Subst.NormalForm
import ConstraintLogic.Proofs.Subst.Occurrence
import ConstraintLogic.Proofs.Subst.Vacancy
import ConstraintLogic.Proofs.Subst.WellFormed
import ConstraintLogic.Proofs.Term.Structural
import ConstraintLogic.Proofs.Term.Unambiguity
import ConstraintLogic.Proofs.Text.Quotation
import ConstraintLogic.Proofs.Unification.Aliases
import ConstraintLogic.Proofs.Unification.Filed
import ConstraintLogic.Proofs.Unification.MostGeneral
import ConstraintLogic.Proofs.Unification.Permutation
import ConstraintLogic.Proofs.Unification.Rounds
import ConstraintLogic.Proofs.Unification.Symmetry
import ConstraintLogic.Proofs.Unification.Termination
import ConstraintLogic.Proofs.Unification.Viability
import ConstraintLogic.Search.Derivation
import ConstraintLogic.Series.Numbers
import ConstraintLogic.Subst.Models
import ConstraintLogic.Term.ListBuilder
import ConstraintLogic.Workbench
