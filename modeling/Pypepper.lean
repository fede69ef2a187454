import Pypepper.StoreHistory
import Pypepper.StoreLinear
import Pypepper.Copies
import Pypepper.CancelFinal
import Pypepper.TerminalPersist
import Pypepper.DispatchRace
import Pypepper.CancelConverge
import Pypepper.Exclusion
import Pypepper.Redelivery
import Pypepper.Dispatch
import Pypepper.Mirror
import Pypepper.Drain
import Pypepper.ChannelConserve
import Pypepper.SseText
import Pypepper.SseRegistry
import Pypepper.SseRelease
import Pypepper.SseHistory
import Pypepper.EventSignature
import Pypepper.EventPayload
import Pypepper.RoundTrip
import Pypepper.StatusSync
import Pypepper.CancelToken
import Pypepper.RehydrateRun
import Pypepper.CodePoints
import Pypepper.FsmReference
import Pypepper.RateWindow
import Pypepper.JobStoreConfig
import Pypepper.ProgTrace
import Pypepper.SoftTimeout
import Pypepper.Retry
import Pypepper.JoinGuarantee
import Pypepper.ChannelManager
import Pypepper.Context
import Pypepper.DbUri
import Pypepper.SseRaw
import Pypepper.SseGate
import Pypepper.Monitor
import Pypepper.WorkShare
import Pypepper.WorkerPool
import Pypepper.LockedStore
import Pypepper.MadeOnce
import Pypepper.Crash
import Pypepper.SseDelivery
import Pypepper.EventMarshal
import Pypepper.DbExclusion
import Pypepper.DbClients
import Pypepper.FsmNested
import Pypepper.SchedulerFsm
import Pypepper.LockedManager
import Pypepper.PoolOutcome
