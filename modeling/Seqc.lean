import Seqc.Allocator
import Seqc.TableInvariants
import Seqc.Avl
import Seqc.Omap
import Seqc.PqueueRun
import Seqc.Terminals
import Seqc.Lib.Splitting
import Seqc.Str
import Seqc.SplitJoin
import Seqc.StaysEnded
import Seqc.Lib.Adaptors
import Seqc.RingbufRun
import Seqc.QueueRun
import Seqc.SetAlgebra
import Seqc.Layout
import Seqc.Lockstep
import Seqc.Growth
import Seqc.Handover
import Seqc.VecRoom
import Seqc.Ranges
import Seqc.Buffers
import Seqc.AvlHeight
import Seqc.Bstree
import Seqc.Collate
import Seqc.Replace
import Seqc.Tokens
import Seqc.List
import Seqc.Dlist
import Seqc.Owners
import Seqc.Truncation
import Seqc.Priming
import Seqc.PqueueCreate
import Seqc.VecInsert
import Seqc.Hashing
import Seqc.LongestProbe
import Seqc.Appends
import Seqc.Sift
import Seqc.Peeking
import Seqc.SliceDedup
import Seqc.VecRefines
import Seqc.Extends
import Seqc.Collects
import Seqc.SelfExtend
import Seqc.Stack
import Seqc.Drains
import Seqc.Builder
import Seqc.Sharing
import Seqc.Interchange
import Seqc.Search
import Seqc.Bytes
import Seqc.Sorting
import Seqc.Values
import Seqc.Charges
import Seqc.Renaming
