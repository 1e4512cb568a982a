import HPQueue.Library.Ring
import HPQueue.Library.LinkedChain
import HPQueue.Library.Transition
import HPQueue.Library.Threads
import HPQueue.Library.Protocol
import HPQueue.Queue.TicketOrder
import HPQueue.Queue.Wedge
import HPQueue.Queue.Leaving
import HPQueue.Queue.ResizeView
import HPQueue.Queue.EmptinessTest
import HPQueue.Queue.Handover
import HPQueue.Queue.ListShape
import HPQueue.Queue.RefusedResize
import HPQueue.Queue.GrowingQueue
import HPQueue.Queue.Fifo
import HPQueue.Queue.OneReader
import HPQueue.Queue.BackReader
import HPQueue.Queue.IdleReaders
import HPQueue.Queue.LeavingOrder
import HPQueue.Consumer.Resizing
import HPQueue.Consumer.StoppingPaused
import HPQueue.Consumer.Termination
import HPQueue.Consumer.PauseBookkeeping
import HPQueue.Queue.Serving
import HPQueue.Consumer.ServedProcessor
import HPQueue.Consumer.Attendance
import HPQueue.Base.Data
import HPQueue.Base.Trim
import HPQueue.Threading.Condition
import HPQueue.Queue.Growth
import HPQueue.Queue.ElementCount
import HPQueue.Queue.ResultReceiver
import HPQueue.Consumer.RemovedCount
import HPQueue.Library.Creation
import HPQueue.Consumer.Creation
import HPQueue.Library.Extension
import HPQueue.Consumer.OneWorker
import HPQueue.Consumer.Lifecycle
import HPQueue.Consumer.EffectivePause
import HPQueue.Consumer.StoredOnce
import HPQueue.Consumer.WakeUp
import HPQueue.Consumer.Drained
import HPQueue.Library.LockOrder
import HPQueue.Consumer.Locking
import HPQueue.Queue.HandOut
import HPQueue.Consumer.Quiescence
import HPQueue.Consumer.ResizeWaits
import HPQueue.Consumer.PauseWaits
import HPQueue.Consumer.Handshake
import HPQueue.Consumer.Staffing
import HPQueue.Consumer.Rendezvous
import HPQueue.Consumer.Progress
import HPQueue.Library.Covering
import HPQueue.Consumer.Completion
import HPQueue.Library.TwoProtocols
import HPQueue.Consumer.ResizePause
import HPQueue.Consumer.ResizeTurn
import HPQueue.Consumer.ResizeAccess
import HPQueue.Consumer.GrowingRuns
