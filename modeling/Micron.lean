import Micron.Arena.Accounts
import Micron.Robin.FailedInsert
import Micron.Swiss.StackRefinement
import Micron.Swiss.HeapCopy
import Micron.Swiss.Moved
import Micron.Hopscotch.Refinement
import Micron.BTree.HashOrder
import Micron.BTree.Capacity
import Micron.Immutable.Iterator
import Micron.Itable.Runs
import Micron.Io.Unframe
import Micron.Io.Relative
import Micron.Pmap.Runs
import Micron.Art.Runs
import Micron.Rtree.Named
import Micron.Binomial.Runs
import Micron.Binomial.Handles
import Micron.Fibonacci.Runs
import Micron.Arb.Division
import Micron.Radix.RoundTrip
import Micron.Regex.DfaExec
import Micron.Regex.Rendering
import Micron.Regex.Truffle
import Micron.Regex.Capacity
import Micron.Va.Runs
import Micron.Arena.Tier
import Micron.Mpsc.Delivery
import Micron.Chrono.Calendar
import Micron.Chrono.RoundTrip
import Micron.Buddy.Refusals
import Micron.Spsc.Runs
import Micron.Mpmc.Runs
import Micron.Mpmc.Bounded
import Micron.ChaseLev.Overrun
import Micron.Sort.Sorted
import Micron.Sort.Select
import Micron.Sort.Stability
import Micron.Format.Rendered
import Micron.Hash.Adler
import Micron.Hash.CrcMirror
import Micron.Hash.Burst
import Micron.Quake.Violation
import Micron.RadixTree.Runs
import Micron.Strings.RopeIterators
import Micron.Strings.Unicode
import Micron.Strings.BoyerMoore
import Micron.Subdiv.Runs
import Micron.Vector.Edits
