import ConfigServer.Lib.LittleEndian
import ConfigServer.Lib.SizeT
import ConfigServer.Lib.Runs
import ConfigServer.Lib.Codec
import ConfigServer.Lib.Framing
import ConfigServer.Lib.Linearization
import ConfigServer.Memory
import ConfigServer.Protocol
import ConfigServer.ProtocolFacts
import ConfigServer.Receive
import ConfigServer.ReceiveFacts
import ConfigServer.Connection
import ConfigServer.SendQueue
import ConfigServer.Lib.Threads
import ConfigServer.Lib.CountedMap
import ConfigServer.Lib.Atom
import ConfigServer.Store
import ConfigServer.StoreFile
import ConfigServer.StoreFacts
import ConfigServer.StoreFileFacts
import ConfigServer.StoreRuns
import ConfigServer.ReplySize
import ConfigServer.Concurrent
import ConfigServer.ConcurrentFacts
import ConfigServer.Bindings
import ConfigServer.WriteRace
import ConfigServer.Persist
import ConfigServer.Snapshot
import ConfigServer.Wire
import ConfigServer.FlushFailure
import ConfigServer.ShortFile
import ConfigServer.RequestIds
import ConfigServer.SendOrder
import ConfigServer.FrameLoop
import ConfigServer.IdleClose
import ConfigServer.TornPair
import ConfigServer.Session
import ConfigServer.ReplyOrder
import ConfigServer.Fields
import ConfigServer.Statistics
import ConfigServer.Lifetime
import ConfigServer.Linearizable
import ConfigServer.Progress
import ConfigServer.Provenance
import ConfigServer.Server
import ConfigServer.SessionFacts
import ConfigServer.ServerFacts
import ConfigServer.FlushMoments
import ConfigServer.Replies
import ConfigServer.Consistency
import ConfigServer.OwnWrites
import ConfigServer.Client
import ConfigServer.System
import ConfigServer.EndToEnd
import ConfigServer.Lib.SparseArray
import ConfigServer.Lib.DurableMap
import ConfigServer.Champ
import ConfigServer.ChampFacts
import ConfigServer.ImmerMap
import ConfigServer.ChampIterator
import ConfigServer.ChampOrder
import ConfigServer.TreeStore
import ConfigServer.Durable
import ConfigServer.FileOrder
import ConfigServer.Lib.RefHeap
import ConfigServer.RefcountAtom
import ConfigServer.RefcountAtomFacts
import ConfigServer.Lib.AtomicCell
import ConfigServer.AtomRefines
import ConfigServer.AtomRetries
import ConfigServer.AtomProgress
import ConfigServer.Settled
import ConfigServer.Workload
