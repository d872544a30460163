import Featherweight.Highlight
import Featherweight.Main
import Featherweight.Repl
import Featherweight.Proofs.Adequacy
import Featherweight.Proofs.Bare
import Featherweight.Proofs.Derivation
import Featherweight.Proofs.Parametric
import Featherweight.Proofs.Layout
import Featherweight.Proofs.Table
import Featherweight.Proofs.Soundness
import Featherweight.Proofs.Drive
import Featherweight.Proofs.Completeness
import Featherweight.Proofs.Reading
import Featherweight.Proofs.Seam
import Featherweight.Proofs.BareEval
import Featherweight.Proofs.Frames
import Featherweight.Proofs.Splitting
import Featherweight.Proofs.Nodes
import Featherweight.Proofs.Discipline
import Featherweight.Proofs.Parsed
import Featherweight.Proofs.Sessions
import Featherweight.Proofs.Range
import Featherweight.Proofs.Blame
import Featherweight.Proofs.Locality
import Featherweight.Proofs.Calls
import Featherweight.Proofs.Names
import Featherweight.Proofs.WellFormed
import Featherweight.Proofs.Items
import Featherweight.Proofs.Pairing
import Featherweight.Proofs.Viable
import Featherweight.Proofs.Placed
import Featherweight.Proofs.Rejected
import Featherweight.Proofs.Place
import Featherweight.Proofs.Positions
import Featherweight.Proofs.Relocation
import Featherweight.Proofs.Prints
import Featherweight.Proofs.SingleRoot
import Featherweight.Proofs.Brackets
import Featherweight.Proofs.Continued
import Featherweight.Proofs.Drafts
import Featherweight.Proofs.Commands
import Featherweight.Proofs.Renumbered
import Featherweight.Proofs.Reset
import Featherweight.Proofs.CommandLine
import Featherweight.Proofs.Failures
import Featherweight.Proofs.Division
import Featherweight.Proofs.Words
import Featherweight.Proofs.Lockstep
import Featherweight.Proofs.Signs
import Featherweight.Proofs.Grouping
import Featherweight.Proofs.Writes
import Featherweight.Proofs.Outline
import Featherweight.Proofs.Numerals
import Featherweight.Proofs.Legible
import Featherweight.Proofs.Dumps
import Featherweight.Proofs.Leaves
import Featherweight.Proofs.Pieces
import Featherweight.Proofs.Stretches
import Featherweight.Proofs.Colouring
import Featherweight.Proofs.Invisible
