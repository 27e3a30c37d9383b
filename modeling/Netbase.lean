import Netbase.Awk.Room
import Netbase.Base64.Codec
import Netbase.Cksum.Errors
import Netbase.Col.Flush
import Netbase.Comm.Main
import Netbase.Csplit.Rewind
import Netbase.Dd.Pad
import Netbase.Dd.Position
import Netbase.Dd.Sparse
import Netbase.Diff.Editor
import Netbase.Diff.Folded
import Netbase.Diff.Ifdef
import Netbase.Diff.Tally
import Netbase.Find.Brace
import Netbase.Find.Exit
import Netbase.Find.Implied
import Netbase.Find.PlusSet
import Netbase.Fold.Buffer
import Netbase.Heapsort.Bytes
import Netbase.Humanize.Scale
import Netbase.Join.Main
import Netbase.Ksh.AltExpand
import Netbase.Ksh.BaseRun
import Netbase.Ksh.Divide
import Netbase.Ksh.Positional
import Netbase.Ksh.Qsort
import Netbase.Ksh.Skip
import Netbase.Ksh.Step
import Netbase.Ksh.TableRun
import Netbase.Locate.Bounds
import Netbase.Locate.Search
import Netbase.Patch.Fuzz
import Netbase.Patch.Indent
import Netbase.Patch.Match
import Netbase.Patch.Offset
import Netbase.Patch.Order
import Netbase.Patch.Restore
import Netbase.Patch.Swap
import Netbase.Printf.Bounded
import Netbase.Sed.Change
import Netbase.Sed.Listing
import Netbase.Sed.Occurrence
import Netbase.Sed.Process
import Netbase.Sed.Replacement
import Netbase.Sed.Translate
import Netbase.Sed.Twice
import Netbase.Setmode.Letters
import Netbase.Setmode.Pure
import Netbase.Sort.Disorder
import Netbase.Sort.Radix
import Netbase.Split.Pieces
import Netbase.Tabs.Reexpand
import Netbase.Tabs.Stops
import Netbase.Tr.Within
import Netbase.Vis.Bounded
import Netbase.Vis.Entity
import Netbase.Vis.Shown
import Netbase.Xargs.Delivery
