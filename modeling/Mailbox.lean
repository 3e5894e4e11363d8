import Mailbox.Main
import Mailbox.Machine.Operation
import Mailbox.Files.Matching
import Mailbox.Proofs.Machine.Invariant
import Mailbox.Proofs.Machine.ReadOnly
import Mailbox.Proofs.Machine.Exact
import Mailbox.Proofs.Machine.Writes
import Mailbox.Proofs.Machine.Ignored
import Mailbox.Proofs.Assembly.Munch
import Mailbox.Proofs.Assembly.CursorPlace
import Mailbox.Proofs.Assembly.SourceLine
import Mailbox.Proofs.Assembly.WordClass
import Mailbox.Proofs.Assembly.Grammar
import Mailbox.Proofs.Assembly.Parsing
import Mailbox.Proofs.Assembly.Faults
import Mailbox.Proofs.Assembly.Layout
import Mailbox.Proofs.Assembly.Meaning
import Mailbox.Proofs.Assembly.Emission
import Mailbox.Proofs.Assembly.Assembling
import Mailbox.Proofs.Assembly.LineText
import Mailbox.Proofs.Assembly.LabelNames
import Mailbox.Proofs.Assembly.Disassembly
import Mailbox.Proofs.Assembly.ExactSpan
import Mailbox.Proofs.Assembly.Tiling
import Mailbox.Proofs.Assembly.Joining
import Mailbox.Proofs.Assembly.WordPlace
import Mailbox.Proofs.Assembly.Positions
import Mailbox.Proofs.Assembly.Quotation
import Mailbox.Proofs.Session.Execution
import Mailbox.Proofs.Session.Pass
import Mailbox.Proofs.Session.Refinement
import Mailbox.Proofs.Session.Runs
import Mailbox.Proofs.Session.Decoration
import Mailbox.Proofs.Session.Limit
import Mailbox.Proofs.Session.Values
import Mailbox.Proofs.Session.Resume
import Mailbox.Proofs.Session.Sources
import Mailbox.Proofs.Session.LineDiscipline
import Mailbox.Proofs.Session.Answers
import Mailbox.Proofs.Session.Accounting
import Mailbox.Proofs.Session.Attendance
import Mailbox.Proofs.Session.Copying
import Mailbox.Proofs.Session.Dialogue
import Mailbox.Proofs.Image.ObjectFile
import Mailbox.Proofs.Files.Path
import Mailbox.Proofs.Files.Disk
import Mailbox.Proofs.CommandLine.Run
import Mailbox.Proofs.CommandLine.Compile
import Mailbox.Proofs.CommandLine.Arguments
import Mailbox.Proofs.CommandLine.Input
import Mailbox.Proofs.CommandLine.Tracing
import Mailbox.Proofs.CommandLine.Exit
import Mailbox.Proofs.CommandLine.Terminal
import Mailbox.Proofs.Assembly.Renaming
import Mailbox.Proofs.Assembly.WordLists
import Mailbox.Proofs.Assembly.Respelling
import Mailbox.Proofs.Assembly.Appending
import Mailbox.Proofs.Machine.Unread
import Mailbox.Proofs.Machine.Forward
import Mailbox.Proofs.Listing.Rows
import Mailbox.Proofs.Listing.ObjectListing
import Mailbox.Proofs.Machine.Polling
import Mailbox.Proofs.Session.Countdown
import Mailbox.Proofs.CommandLine.Environment
import Mailbox.Proofs.Files.Search
import Mailbox.Proofs.Files.Finding
import Mailbox.Proofs.CommandLine.Check
