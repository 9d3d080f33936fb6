import Wrouter.Lib.Search
import Wrouter.Stability
import Wrouter.Order
import Wrouter.Symbol
import Wrouter.History
import Wrouter.Cells
import Wrouter.Bounds
import Wrouter.Patterns
import Wrouter.Reach
import Wrouter.Scan
import Wrouter.References
import Wrouter.Dictionary
import Wrouter.Names
import Wrouter.Snapshot
import Wrouter.Interning
import Wrouter.Cleanup
import Wrouter.RouteSet
import Wrouter.Capacity
import Wrouter.Service
import Wrouter.Lifetimes
import Wrouter.Decode
import Wrouter.Notation
import Wrouter.Refusal
import Wrouter.ErlangReplies
import Wrouter.PythonCounts
