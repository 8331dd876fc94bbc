import Coter.Bytes.BytesCodec
import Coter.Bytes.BytesResults
import Coter.Bytes.RbufLimits
import Coter.Bytes.MsgBufRun
import Coter.Container.HeapRun
import Coter.Container.PQueueBounds
import Coter.Container.QueueRun
import Coter.Container.VecAlias
import Coter.Container.VecDtor
import Coter.Container.VecReserve
import Coter.Container.CtListObservers
import Coter.Sync.MsgQueueRun
import Coter.Sync.PopForRun
import Coter.Sync.PubSubRun
import Coter.Opt.OptRun
import Coter.Opt.HelpRun
import Coter.Encoding.Base64DecodeRun
import Coter.Encoding.HexRun
import Coter.Encoding.BcdRun
import Coter.Core.TimeRun
import Coter.Core.RandRun
import Coter.Core.StringsRun
import Coter.Crypto.Md5Run
import Coter.Crypto.Sha1Run
import Coter.Crypto.HashRun
import Coter.Sync.RefPoison
import Coter.Sync.RefTable
import Coter.Sync.RefTurns
import Coter.Sync.RefBackends
import Coter.Sync.EventRun
import Coter.Sync.ShutdownSignalRun
import Coter.Sync.RwLockRun
import Coter.Sync.TimedCallRun
import Coter.Thread.JobPoolRun
import Coter.Thread.ThPoolSlots
import Coter.Thread.ThPoolSpawn
import Coter.Sync.SemRun
import Coter.Sync.WaitGroupRun
import Coter.Sync.MsgQueueWakesRun
import Coter.Sync.RwLockTurns
import Coter.Sync.AtomicMutex
import Coter.Sync.RwLockRoles
import Coter.Sync.PubSubSharedRun
import Coter.Thread.ThPoolOrder
import Coter.Container.CtListSafe
import Coter.Core.TimeTextRun
import Coter.Lib.Mixing
import Coter.Lib.Murmur64
import Coter.Crypto.Hash64
import Coter.Core.RandSeed
import Coter.Opt.OptStages
import Coter.Container.Stack
import Coter.Encoding.BcdWidths
import Coter.Encoding.BinaryAccess
import Coter.Core.StringScans
import Coter.Sync.RefTableRun
import Coter.Sync.RefLedger
import Coter.Sync.RefTableLedger
