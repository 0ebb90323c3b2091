import LruCache.Lib.LinearProbing
import LruCache.Lib.Occupancy
import LruCache.Lib.Flow
import LruCache.Lib.MeanFlow
import LruCache.Lib.Draws
import LruCache.Lib.LinkedPool
import LruCache.Lib.Transition
import LruCache.Lib.BoundedFifo
import LruCache.Lib.Recency
import LruCache.Lib.Inclusion
import LruCache.Lib.History
import LruCache.Lib.Renaming
import LruCache.Lib.InsertionOrder
import LruCache.Lib.Mixing
import LruCache.Lib.Search
import LruCache.Lib.Competitive
import LruCache.Lib.Framing
import LruCache.Lib.Double
import LruCache.Cache.Model
import LruCache.Cache.Access
import LruCache.Cache.Links
import LruCache.Cache.Table
import LruCache.Cache.ProbeChain
import LruCache.Cache.Invariant
import LruCache.Cache.Start
import LruCache.Cache.Operations
import LruCache.Cache.Refinement
import LruCache.Cache.WellFormed
import LruCache.Cache.Histories
import LruCache.Cache.Frame
import LruCache.Cache.Hash
import LruCache.Cache.Occupancy
import LruCache.Cache.Probes
import LruCache.Cache.MeanCosts
import LruCache.Cache.Loops
import LruCache.Cache.Capacity
import LruCache.Cache.Serves
import LruCache.Cache.ReadThrough
import LruCache.Cache.Workloads
import LruCache.Cache.MixedWorkload
import LruCache.Cache.StressTest
import LruCache.Queue.Spsc
import LruCache.Queue.Calls
import LruCache.Queue.Invariant
import LruCache.Queue.Safety
import LruCache.Queue.Moves
import LruCache.Queue.Ordering
import LruCache.Queue.OrderingSafety
import LruCache.Async.Model
import LruCache.Async.Sequential
import LruCache.Async.Order
import LruCache.Async.Shutdown
import LruCache.Async.Backpressure
import LruCache.Text.Standard
import LruCache.Text.Registry
import LruCache.Text.Names
import LruCache.Text.Find
import LruCache.Cli.Model
import LruCache.Cli.Reference
import LruCache.Cli.Refinement
import LruCache.Cli.Termination
import LruCache.Cli.Separation
import LruCache.Cli.Equivalence
import LruCache.Web.Model
import LruCache.Web.Safety
import LruCache.Web.Requests
import LruCache.Web.Batch
import LruCache.Web.Query
import LruCache.Web.Texts
import LruCache.Web.Page
import LruCache.Web.Connections
import LruCache.Web.Simulation
import LruCache.Web.Generator
import LruCache.Web.Playback
import LruCache.Web.Network
import LruCache.Web.Flight
import LruCache.Web.Calm
import LruCache.Web.Screen
import LruCache.Web.ScreenInv
import LruCache.Web.ScreenRuns
import LruCache.Web.Solo
import LruCache.Async.Accesses
import LruCache.Async.Projection
import LruCache.Async.AccessRuns
import LruCache.Async.Liveness
import LruCache.Async.Benchmark
import LruCache.Async.BenchmarkInv
import LruCache.Async.BenchmarkEnds
