import GpBase.Lib.Run
import GpBase.Buffer.Queue
import GpBase.Codec.Model
import GpBase.Codec.Decode
import GpBase.Codec.Stream
import GpBase.Codec.Malformed
import GpBase.Conn.Model
import GpBase.Conn.Output
import GpBase.Lib.Bits
import GpBase.Ring.Model
import GpBase.Loop.Model
import GpBase.Loop.Wakeup
import GpBase.Ring.Fifo
import GpBase.Dictionary.Model
import GpBase.Lib.Assoc
import GpBase.Dictionary.Invariant
import GpBase.Dictionary.Spec
import GpBase.Dictionary.Map
import GpBase.Dictionary.Cursor
import GpBase.Dictionary.Scan
import GpBase.Timer.Model
import GpBase.Timer.Wheel
import GpBase.Timer.Pass
import GpBase.Timer.Exact
import GpBase.Conf.Model
import GpBase.Conf.Keep
import GpBase.Conf.Load
import GpBase.Conf.Final
import GpBase.Lib.Reserve
import GpBase.Ring.Protocol
import GpBase.Codec.Pacing
import GpBase.Conf.Links
import GpBase.Conf.Store
import GpBase.Conf.Parents
import GpBase.Conf.Document
import GpBase.Conf.Faithful
import GpBase.Conf.Reload
import GpBase.Timer.Repeat
import GpBase.Dictionary.Iterator
import GpBase.Dictionary.Iteration
import GpBase.Dictionary.SafeIteration
import GpBase.Timer.Next
import GpBase.Timer.Callback
import GpBase.Timer.Sleep
import GpBase.Server.Model
import GpBase.Conn.Interest
import GpBase.Server.Invariant
import GpBase.Server.Keep
import GpBase.Server.Refs
import GpBase.Loop.Deferred
import GpBase.Loop.Order
import GpBase.Timer.Stop
import GpBase.Lib.Intrusive
import GpBase.Pool.Model
import GpBase.Pool.Runs
import GpBase.Pool.Shutdown
import GpBase.Codec.Bounds
import GpBase.Codec.Client
import GpBase.Codec.Fragments
import GpBase.Conn.Confinement
import GpBase.Conn.Read
import GpBase.Dictionary.Quiescent
import GpBase.GpList.Model
import GpBase.GpList.Read
import GpBase.Lib.Pending
import GpBase.Pool.Lifetime
import GpBase.Ring.Copy
import GpBase.Ring.Slots
import GpBase.Timer.Linked
import GpBase.Timer.Nearest
import GpBase.Timer.PastDue
import GpBase.Hash.Siphash
import GpBase.Module.Order
import GpBase.Conf.Prune
import GpBase.Conf.Siblings
import GpBase.Conf.SetString
import GpBase.Conf.Integers
import GpBase.Conf.Outline
import GpBase.Conf.Depth
import GpBase.Conf.Room
import GpBase.Conf.Recursion
import GpBase.Conf.Dump
import GpBase.Conf.Values
import GpBase.Conf.Items
import GpBase.Conf.Sequences
import GpBase.Sync.Transfer
import GpBase.Sync.Socket
import GpBase.Ipc.Session
import GpBase.Ipc.RoundTrip
import GpBase.Ipc.Registry
import GpBase.Codec.Drain
import GpBase.Dictionary.Sampling
import GpBase.Pool.Wakeups
import GpBase.Pool.Manager
import GpBase.Buffer.Growth
import GpBase.Ipc.Footprint
import GpBase.Ipc.Tls
import GpBase.Loop.Quit
import GpBase.Timer.Teardown
import GpBase.Dictionary.Ownership
import GpBase.Server.Settle
import GpBase.Server.Views
import GpBase.Ring.Contents
import GpBase.Ring.Solo
import GpBase.Dictionary.Random
