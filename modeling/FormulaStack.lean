import FormulaStack.Arrays
import FormulaStack.Bitvector
import FormulaStack.FormulaMap
import FormulaStack.Outline
import FormulaStack.Proofs.Announcements
import FormulaStack.Proofs.Captures
import FormulaStack.Proofs.Checks
import FormulaStack.Proofs.Closings
import FormulaStack.Proofs.Connectives
import FormulaStack.Proofs.Declarations
import FormulaStack.Proofs.Disparities
import FormulaStack.Proofs.Evaluations
import FormulaStack.Proofs.Involutions
import FormulaStack.Proofs.Junctions
import FormulaStack.Proofs.Legibility
import FormulaStack.Proofs.Listings
import FormulaStack.Proofs.Losses
import FormulaStack.Proofs.Models
import FormulaStack.Proofs.Numerals
import FormulaStack.Proofs.Occurrences
import FormulaStack.Proofs.Ownership
import FormulaStack.Proofs.Partitions
import FormulaStack.Proofs.Recollections
import FormulaStack.Proofs.References
import FormulaStack.Proofs.Refusals
import FormulaStack.Proofs.Registries
import FormulaStack.Proofs.Replacements
import FormulaStack.Proofs.Residues
import FormulaStack.Proofs.Sharing
import FormulaStack.Proofs.Sizes
import FormulaStack.Proofs.Stops
import FormulaStack.Proofs.Transcripts
import FormulaStack.Proofs.ValueSorts
import FormulaStack.Proofs.Visits
import FormulaStack.Quantified
import FormulaStack.ScriptedSolver
import FormulaStack.Trace
import FormulaStack.Workbench
