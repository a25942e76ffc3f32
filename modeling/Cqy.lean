import Cqy.Algo.Number
import Cqy.Algo.Split
import Cqy.App.Abandoned
import Cqy.App.App
import Cqy.App.Arrival
import Cqy.App.Batch
import Cqy.App.Correlation
import Cqy.App.Forwarding
import Cqy.App.Identity
import Cqy.App.Integrity
import Cqy.App.Network
import Cqy.App.Passage
import Cqy.App.Resolution
import Cqy.App.StartStop
import Cqy.App.Teardown
import Cqy.Coro.Consume
import Cqy.Coro.Generator
import Cqy.Coro.Iteration
import Cqy.Coro.Links
import Cqy.Ctx.Calls
import Cqy.Ctx.Discard
import Cqy.Ctx.Dispatch
import Cqy.Ctx.Lock
import Cqy.Ctx.Receive
import Cqy.Demo.Gate
import Cqy.Demo.Names
import Cqy.Demo.Numbering
import Cqy.Demo.Param
import Cqy.Demo.Server
import Cqy.Demo.Sessions
import Cqy.Demo.Tables
import Cqy.Entity.Aligned
import Cqy.Entity.Entity
import Cqy.Entity.Query
import Cqy.Entity.Slots
import Cqy.Entity.Stale
import Cqy.Foundation.Bytes
import Cqy.Foundation.Chain
import Cqy.Foundation.Delegation
import Cqy.Foundation.Inverse
import Cqy.Foundation.Keys
import Cqy.Foundation.Machine
import Cqy.Foundation.Mutex
import Cqy.Foundation.Numeral
import Cqy.Foundation.Redelivery
import Cqy.Foundation.SortedTable
import Cqy.Foundation.Stutter
import Cqy.Foundation.Vec
import Cqy.Node.Nodes
import Cqy.Node.SendLoop
import Cqy.Node.Shutdown
import Cqy.Node.StartUp
import Cqy.Registry.CreateCtx
import Cqy.Registry.CtxMgr
import Cqy.Registry.Lifecycle
import Cqy.Registry.NameMap
import Cqy.Rpc.Call
import Cqy.Rpc.Dispatch
import Cqy.Rpc.Transparency
import Cqy.Rpc.Typed
import Cqy.Utils.CvQueue
import Cqy.Utils.CvWait
import Cqy.Utils.Delivery
import Cqy.Utils.WakeUp
import Cqy.Wire.BodyBounds
import Cqy.Wire.Handle
import Cqy.Wire.Message
import Cqy.Wire.RoundTrip
