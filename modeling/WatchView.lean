import WatchView.View
import WatchView.Text.Cursor
import WatchView.Proofs.Program.Meaning
import WatchView.Proofs.Program.Rest
import WatchView.Proofs.Program.Steps
import WatchView.Proofs.Program.Countdown
import WatchView.Proofs.Program.Compiled
import WatchView.Proofs.Program.Record
import WatchView.Proofs.Listing.CustomProgram
import WatchView.Proofs.Bounded
import WatchView.Proofs.Listing.CustomPaging
import WatchView.Proofs.Listing.Pages
import WatchView.Proofs.Ensures
import WatchView.Proofs.Listing.Leads
import WatchView.Proofs.Listing.Elements
import WatchView.Proofs.Listing.NodeWindows
import WatchView.Proofs.Listing.CustomWindows
import WatchView.Proofs.Listing.Shared
import WatchView.Proofs.Kept
import WatchView.Proofs.Display
import WatchView.Proofs.Listing.Frames
import WatchView.Proofs.Listing.Settled
import WatchView.Proofs.Listing.Rows
import WatchView.Proofs.Catalogue.KeptAnswers
import WatchView.Proofs.Catalogue.Precedence
import WatchView.Proofs.TypeTree.Builtin
import WatchView.Proofs.TypeTree.Reads
import WatchView.Proofs.TypeTree.Reparse
import WatchView.Proofs.TypeTree.Written
import WatchView.Proofs.Listing.Fit
import WatchView.Proofs.Listing.Made
import WatchView.Proofs.Listing.Asked
import WatchView.Proofs.Listing.Agreement
import WatchView.Proofs.Listing.Returns
import WatchView.Proofs.Evaluation.Attempts
import WatchView.Proofs.Listing.GroupWindows
import WatchView.Proofs.Listing.NodeRows
import WatchView.Proofs.Listing.InOrder
import WatchView.Proofs.TypeTree.Matching
import WatchView.Proofs.Evaluation.Tokens
import WatchView.Proofs.Evaluation.Watched
import WatchView.Proofs.Display.Levels
import WatchView.Proofs.Listing.Queries
import WatchView.Proofs.Listing.Routes
import WatchView.Proofs.Listing.NodeDeeds
import WatchView.Proofs.Program.Failures
import WatchView.Proofs.Listing.CustomDeeds
import WatchView.Proofs.Listing.Raised
import WatchView.Proofs.Listing.Frozen
import WatchView.Proofs.Listing.Turns
import WatchView.Proofs.Listing.Parted
import WatchView.Proofs.Listing.Filled
import WatchView.Proofs.Listing.Supplied
import WatchView.Proofs.Listing.Held
import WatchView.Proofs.Listing.Lasting
import WatchView.Proofs.Listing.Gathered
import WatchView.Proofs.Listing.Served
import WatchView.Proofs.Display.OwnRow
import WatchView.Proofs.Evaluation.Scratch
import WatchView.Proofs.Listing.LeftEdges
import WatchView.Proofs.Program.Items
import WatchView.Proofs.Evaluation.Snapshots
import WatchView.Proofs.Display.Still
import WatchView.Proofs.Listing.ShownScratch
import WatchView.Proofs.Evaluation.Stateless
import WatchView.Proofs.Listing.Alike
import WatchView.Proofs.Listing.Congruent
import WatchView.Proofs.Listing.Failing
import WatchView.Proofs.Listing.Contained
import WatchView.Proofs.Catalogue.Aliases
import WatchView.Proofs.Nesting
import WatchView.Proofs.Specifier
import WatchView.Proofs.WatchExpr.Brackets
import WatchView.Proofs.WatchExpr.Split
import WatchView.Proofs.WatchExpr.TopLevel
import WatchView.Proofs.Template
import WatchView.Proofs.Listing.PageSums
import WatchView.Proofs.Listing.OptionalItems
import WatchView.Proofs.Listing.OptionalNodes
import WatchView.Proofs.Display.Strings
import WatchView.Proofs.Evaluation.WholeNames
import WatchView.Proofs.Display.RawView
import WatchView.Proofs.Program.Source
import WatchView.Proofs.GivenNames
import WatchView.Proofs.Listing.ScratchNames
import WatchView.Proofs.MemberPath
import WatchView.Proofs.Views
import WatchView.Proofs.TypeTree.Abreast
import WatchView.Proofs.TypeTree.Spacing
import WatchView.Proofs.Candidates
import WatchView.Proofs.Specifier.Hexadecimal
import WatchView.Proofs.Specifier.OneReading
import WatchView.Proofs.WatchExpr.Indexed
import WatchView.Proofs.TypeTree.Phrases
import WatchView.Proofs.TypeTree.Grammar
import WatchView.Proofs.TypeTree.Derived
import WatchView.Proofs.Cursor
import WatchView.Proofs.Evaluation.NestedSizes
import WatchView.Proofs.Program.Rearmed
import WatchView.Proofs.TypeTree.Shape
