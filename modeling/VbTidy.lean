import VbTidy.Text.Basic
import VbTidy.Text.Range
import VbTidy.Text.Word
import VbTidy.Text.Case
import VbTidy.Text.Lower
import VbTidy.Text.Width
import VbTidy.Text.Quoted
import VbTidy.Text.Pattern
import VbTidy.Fault
import VbTidy.Shelf
import VbTidy.Markup
import VbTidy.Script
import VbTidy.Delimiter
import VbTidy.Remark
import VbTidy.Resume
import VbTidy.Session
import VbTidy.Declaration
import VbTidy.Spacing
import VbTidy.Keyword
import VbTidy.Block
import VbTidy.Layout
import VbTidy.Align
import VbTidy.Traced
import VbTidy.Format
import VbTidy.File.Path
import VbTidy.File.Glob
import VbTidy.File.Encoding
import VbTidy.File.Tree
import VbTidy.File.Search
import VbTidy.File.Save
import VbTidy.Command.Reading
import VbTidy.Command.Usage
import VbTidy.Command.Complaint
import VbTidy.Command.Call
import VbTidy.Command.Report
import VbTidy.Command.Run
import VbTidy.Main
import VbTidy.Proofs.Cut
import VbTidy.Proofs.Sound
import VbTidy.Proofs.Squeeze
import VbTidy.Proofs.Passes
import VbTidy.Proofs.Run
import VbTidy.Proofs.Lift
import VbTidy.Proofs.Refill
import VbTidy.Proofs.Faithful
import VbTidy.Proofs.Marks
import VbTidy.Proofs.Stray
import VbTidy.Proofs.Beads
import VbTidy.Proofs.Tame
import VbTidy.Proofs.Statements
import VbTidy.Proofs.Settled
import VbTidy.Proofs.Shifted
import VbTidy.Proofs.Recased
import VbTidy.Proofs.Tally
import VbTidy.Proofs.Bookkeeping
import VbTidy.Proofs.Rejected
import VbTidy.Proofs.Faults
import VbTidy.Proofs.Batch
import VbTidy.Proofs.Masked
import VbTidy.Proofs.Unbroken
import VbTidy.Proofs.Printed
import VbTidy.Proofs.Told
import VbTidy.Proofs.Runs
import VbTidy.Proofs.Skeleton
import VbTidy.Proofs.Unstyled
import VbTidy.Proofs.Again
import VbTidy.Proofs.Verbatim
import VbTidy.Proofs.Files
import VbTidy.Proofs.Directory
import VbTidy.Proofs.Shape
import VbTidy.Proofs.Filled
import VbTidy.Proofs.Folded
import VbTidy.Proofs.Twins
import VbTidy.Proofs.Restyled
import VbTidy.Proofs.Hosts
import VbTidy.Proofs.Unfenced
import VbTidy.Proofs.StyleOnly
import VbTidy.Proofs.Recovered
import VbTidy.Proofs.Reads
import VbTidy.Proofs.Front
import VbTidy.Proofs.Columns
import VbTidy.Proofs.Aligned
import VbTidy.Proofs.Visits
import VbTidy.Proofs.Continued
import VbTidy.Proofs.Unfound
import VbTidy.Proofs.Paired
import VbTidy.Proofs.Whole
import VbTidy.Proofs.Posts
import VbTidy.Proofs.Leakproof
import VbTidy.Proofs.Joined
import VbTidy.Proofs.Nested
import VbTidy.Proofs.Operators
import VbTidy.Proofs.Spaced
import VbTidy.Proofs.Respaced
import VbTidy.Proofs.Numerals
import VbTidy.Proofs.Separated
import VbTidy.Proofs.Remarked
import VbTidy.Proofs.Wordwise
import VbTidy.Proofs.Placed
import VbTidy.Proofs.Realigned
import VbTidy.Proofs.Declared
import VbTidy.Proofs.OneName
import VbTidy.Proofs.Repadded
import VbTidy.Proofs.Blocks
import VbTidy.Proofs.Longest
import VbTidy.Proofs.OpenTag
import VbTidy.Proofs.Desk
import VbTidy.Proofs.Padded
import VbTidy.Proofs.Spelling
import VbTidy.Proofs.Reworked
import VbTidy.Proofs.LineWords
import VbTidy.Proofs.Single
import VbTidy.Proofs.Relifted
import VbTidy.Proofs.Phrases
import VbTidy.Proofs.Reread
import VbTidy.Proofs.Legible
import VbTidy.Proofs.Idempotent
