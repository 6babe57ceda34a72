import Miscellany.Library.Walk
import Miscellany.Library.IntrusiveList
import Miscellany.Library.BitMask
import Miscellany.EventLoop.RbTree
import Miscellany.EventLoop.RedBlack
import Miscellany.EventLoop.RbMemory
import Miscellany.EventLoop.RbShape
import Miscellany.EventLoop.RbInsert
import Miscellany.EventLoop.RbErase
import Miscellany.EventLoop.RbWalk
import Miscellany.EventLoop.Time
import Miscellany.EventLoop.Basic
import Miscellany.EventLoop.Operations
import Miscellany.EventLoop.Loop
import Miscellany.EventLoop.Invariant
import Miscellany.EventLoop.Preservation
import Miscellany.EventLoop.Activation
import Miscellany.EventLoop.Expiry
import Miscellany.EventLoop.Reachable
import Miscellany.EventLoop.Readiness
import Miscellany.EventLoop.Timers
import Miscellany.EventLoop.Dispatch
import Miscellany.EventLoop.Epoll
import Miscellany.EventLoop.Iteration
import Miscellany.EventLoop.Clock
import Miscellany.EventLoop.Persistent
import Miscellany.SkipList.Basic
import Miscellany.Library.SortedList
import Miscellany.SkipList.Invariant
import Miscellany.SkipList.Insert
import Miscellany.SkipList.Delete
import Miscellany.SkipList.Reachable
import Miscellany.EventLoop.Run
import Miscellany.EventLoop.Deadline
import Miscellany.EventLoop.AddDelete
import Miscellany.EventLoop.TimeTree
import Miscellany.EventLoop.Free
import Miscellany.EventLoop.Return
import Miscellany.EventLoop.Assign
import Miscellany.EventLoop.Effect
import Miscellany.EventLoop.Pending
import Miscellany.EventLoop.Untimed
import Miscellany.Library.Block
import Miscellany.Str.Basic
import Miscellany.Str.Refinement
import Miscellany.Http.Client
import Miscellany.Http.Discipline
import Miscellany.Http.Network
import Miscellany.Http.Chunked
import Miscellany.Http.Framing
import Miscellany.Http.ContentLength
import Miscellany.SkipList.Recursive
import Miscellany.SkipList.Search
import Miscellany.SkipList.RecursiveLevels
import Miscellany.SkipList.RecursiveInsert
import Miscellany.SkipList.RecursiveDelete
import Miscellany.SkipList.RecursiveSearch
import Miscellany.SkipList.Agreement
import Miscellany.SkipList.Calls
import Miscellany.SkipList.Towers
import Miscellany.SkipList.Free
import Miscellany.Library.OrderedTree
import Miscellany.Stree.Basic
import Miscellany.Stree.Positions
import Miscellany.Stree.Build
import Miscellany.Stree.Traversal
import Miscellany.SkipList.Level
import Miscellany.Http.Waiting
import Miscellany.Logger.Format
import Miscellany.ManualResetEvent.Basic
import Miscellany.Str.Capacity
import Miscellany.Str.Copy
import Miscellany.Stree.Rebuild
import Miscellany.Http.Headers
import Miscellany.Library.Runs
import Miscellany.Sstring.Split
import Miscellany.Library.Ledger
import Miscellany.Str.Tokens
import Miscellany.Str.TokenRuns
import Miscellany.Library.Parts
import Miscellany.Preprocess.SrcFile
import Miscellany.SkipList.RandLevel
import Miscellany.Preprocess.Reading
import Miscellany.Preprocess.Iterators
import Miscellany.Library.Decimal
import Miscellany.Sstring.Integer
import Miscellany.Library.Rounding
import Miscellany.StopWatch.Basic
import Miscellany.StopWatch.Sum
import Miscellany.IcuEncoding.Convert
import Miscellany.IcuEncoding.RoundTrip
import Miscellany.UnixSock.Echo
import Miscellany.Library.Regex
import Miscellany.Slist.Basic
import Miscellany.Preprocess.Lexer
import Miscellany.Preprocess.Pieces
import Miscellany.Preprocess.Comments
import Miscellany.Library.Transition
import Miscellany.InetServer.Sweep
import Miscellany.StopWatch.Text
import Miscellany.Library.Relinking
import Miscellany.EventLoop.ListOperations
import Miscellany.EventLoop.ListRuns
import Miscellany.EventLoop.ListLoops
import Miscellany.EventLoop.Guarded
import Miscellany.EventLoop.TestProgram
import Miscellany.Library.SortedKeys
import Miscellany.StopWatch.Accumulator
import Miscellany.Http.Conversation
