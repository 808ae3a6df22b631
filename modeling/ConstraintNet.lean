import ConstraintNet.Term.Canonical
import ConstraintNet.Reading.Parse
import ConstraintNet.Network.Ledger
import ConstraintNet.Network.Listing
import ConstraintNet.Compile.Session
import ConstraintNet.Proofs.Store.Lawful
import ConstraintNet.Proofs.Compile.Growth
import ConstraintNet.Proofs.Compile.Texts
import ConstraintNet.Proofs.Compile.Runs
import ConstraintNet.Proofs.Compile.Simulation
import ConstraintNet.Proofs.Compile.Failures
import ConstraintNet.Proofs.Compile.Batches
import ConstraintNet.Proofs.Store.Agreement
import ConstraintNet.Proofs.Store.Names
import ConstraintNet.Proofs.Meaning.Interpretation
import ConstraintNet.Proofs.Meaning.Explanation
import ConstraintNet.Proofs.Meaning.Lowering
import ConstraintNet.Proofs.Meaning.Preservation
import ConstraintNet.Proofs.Meaning.Recovery
import ConstraintNet.Proofs.Shape.Accounts
import ConstraintNet.Proofs.Shape.Lowering
import ConstraintNet.Proofs.Shape.Scope
import ConstraintNet.Proofs.Shape.Layers
import ConstraintNet.Proofs.Layout.Origins
import ConstraintNet.Proofs.Layout.Realisation
import ConstraintNet.Proofs.Layout.Texts
import ConstraintNet.Proofs.Layout.Renumbering
import ConstraintNet.Proofs.Layout.Merging
import ConstraintNet.Proofs.Layout.Order
import ConstraintNet.Proofs.Layout.Places
import ConstraintNet.Proofs.Layout.Additions
import ConstraintNet.Proofs.Layout.Entries
import ConstraintNet.Proofs.Layout.Progress
import ConstraintNet.Proofs.Grammar.Basic
import ConstraintNet.Proofs.Grammar.Nesting
import ConstraintNet.Proofs.Reading.Place
import ConstraintNet.Proofs.Reading.Tokens
import ConstraintNet.Proofs.Reading.Verdict
import ConstraintNet.Proofs.Reading.Lists
import ConstraintNet.Proofs.Reading.Brackets
import ConstraintNet.Proofs.Reading.Leaves
import ConstraintNet.Proofs.Reading.Applications
import ConstraintNet.Proofs.Reading.Terms
import ConstraintNet.Proofs.Reading.Texts
import ConstraintNet.Proofs.Reading.Parse
import ConstraintNet.Proofs.Reading.RoundTrip
import ConstraintNet.Proofs.Reading.Compact
import ConstraintNet.Proofs.Reading.Spans
import ConstraintNet.Proofs.Reading.Locations
import ConstraintNet.Proofs.Reading.Openings
import ConstraintNet.Proofs.Store.Chronicle
import ConstraintNet.Proofs.Store.Lasting
import ConstraintNet.Proofs.Listing.Apart
import ConstraintNet.Proofs.Listing.Lines
import ConstraintNet.Proofs.Listing.Posted
import ConstraintNet.Proofs.Listing.Labels
import ConstraintNet.Proofs.Listing.Determined
import ConstraintNet.Proofs.Listing.Clashes
import ConstraintNet.Proofs.Journal.Messages
import ConstraintNet.Proofs.Journal.Notes
import ConstraintNet.Proofs.Journal.Compile
import ConstraintNet.Proofs.Reading.Levels
import ConstraintNet.Proofs.Reading.Spacing
import ConstraintNet.Proofs.Reading.Overflows
import ConstraintNet.Proofs.Store.Incidence
import ConstraintNet.Proofs.Reading.Alternatives
