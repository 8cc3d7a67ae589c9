import LinearAssignment.Problem
import LinearAssignment.Proofs.CostMatrix.Defects
import LinearAssignment.Proofs.Matching.Extension
import LinearAssignment.Proofs.Problem.Document
import LinearAssignment.Proofs.Problem.Solution
import LinearAssignment.Proofs.Report.Document
import LinearAssignment.Proofs.Search.Alternation
import LinearAssignment.Proofs.Search.Deferred
import LinearAssignment.Proofs.Search.Integral
import LinearAssignment.Proofs.Search.Ledger
import LinearAssignment.Proofs.Search.Maximum
import LinearAssignment.Proofs.Search.Prereduced
import LinearAssignment.Proofs.Search.Rescaled
import LinearAssignment.Proofs.Search.Termination
import LinearAssignment.Proofs.Tableau.Adjusted
import LinearAssignment.Proofs.Tableau.Augment
import LinearAssignment.Proofs.Tableau.Ranking
import LinearAssignment.Proofs.Tableau.Scan
