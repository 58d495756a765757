import PlanarSketch.Angle
import PlanarSketch.Plane
import PlanarSketch.Document.Text
import PlanarSketch.LeastSquares.Basic
import PlanarSketch.Session.Basic
import PlanarSketch.Solver.Transcript
import PlanarSketch.Proofs.Lookup
import PlanarSketch.Proofs.Tables
import PlanarSketch.Proofs.Comparison
import PlanarSketch.Proofs.Words
import PlanarSketch.Proofs.Indices
import PlanarSketch.Proofs.Exact
import PlanarSketch.Proofs.Angle
import PlanarSketch.Proofs.Plane
import PlanarSketch.Proofs.Decimals
import PlanarSketch.Proofs.Sketch.Relabel
import PlanarSketch.Proofs.Sketch.Listing
import PlanarSketch.Proofs.Sketch.Counting
import PlanarSketch.Proofs.Document.Records
import PlanarSketch.Proofs.Document.RoundTrip
import PlanarSketch.Proofs.Linear.Lengths
import PlanarSketch.Proofs.Linear.Space
import PlanarSketch.Proofs.Linear.Closest
import PlanarSketch.Proofs.LeastSquares.Cells
import PlanarSketch.Proofs.LeastSquares.Addresses
import PlanarSketch.Proofs.LeastSquares.Operands
import PlanarSketch.Proofs.LeastSquares.Cursor
import PlanarSketch.Proofs.LeastSquares.Meaning
import PlanarSketch.Proofs.LeastSquares.Relations
import PlanarSketch.Proofs.LeastSquares.Rows
import PlanarSketch.Proofs.LeastSquares.Grammar
import PlanarSketch.Proofs.LeastSquares.Minimize
import PlanarSketch.Proofs.LeastSquares.Descent
import PlanarSketch.Proofs.LeastSquares.Solve
import PlanarSketch.Proofs.LeastSquares.Resting
import PlanarSketch.Proofs.LeastSquares.Bounds
import PlanarSketch.Proofs.LeastSquares.Columns
import PlanarSketch.Proofs.LeastSquares.Handles
import PlanarSketch.Proofs.LeastSquares.Diagnosis
import PlanarSketch.Proofs.LeastSquares.Basis
import PlanarSketch.Proofs.LeastSquares.Shares
import PlanarSketch.Proofs.LeastSquares.Threshold
import PlanarSketch.Proofs.LeastSquares.Fit
import PlanarSketch.Proofs.LeastSquares.Expansion
import PlanarSketch.Proofs.Session.Resolution
import PlanarSketch.Proofs.Session.Ownership
import PlanarSketch.Proofs.Session.Placement
import PlanarSketch.Proofs.Session.Push
import PlanarSketch.Proofs.Session.Refusal
import PlanarSketch.Proofs.Session.Operations
import PlanarSketch.Proofs.Session.Wiring
import PlanarSketch.Proofs.Session.Run
import PlanarSketch.Proofs.Session.Points
import PlanarSketch.Proofs.Session.Acceptance
import PlanarSketch.Proofs.Session.Meaning
import PlanarSketch.Proofs.Session.Unknowns
import PlanarSketch.Proofs.Session.Leftover
import PlanarSketch.Proofs.Session.Reads
import PlanarSketch.Proofs.Session.History
import PlanarSketch.Proofs.Session.ReadBack
import PlanarSketch.Proofs.Session.Entries
import PlanarSketch.Proofs.Session.Measuring
import PlanarSketch.Proofs.Session.FixedPoint
import PlanarSketch.Proofs.Session.Application
import PlanarSketch.Proofs.Session.Inputs
import PlanarSketch.Proofs.Session.Blocks
import PlanarSketch.Proofs.Session.Containment
import PlanarSketch.Proofs.Session.Radii
import PlanarSketch.Proofs.Session.Verdict
import PlanarSketch.Proofs.Session.Alike
import PlanarSketch.Proofs.Session.Undo
import PlanarSketch.Proofs.Session.Naming
import PlanarSketch.Proofs.Session.Reports
import PlanarSketch.Proofs.Session.Blame
import PlanarSketch.Proofs.Session.Outdated
import PlanarSketch.Proofs.Session.Agreement
import PlanarSketch.Proofs.Session.Measurements
import PlanarSketch.Proofs.Session.Handles
import PlanarSketch.Proofs.Session.Dependencies
import PlanarSketch.Proofs.Session.Storing
