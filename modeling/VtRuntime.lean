import VtRuntime.Utils.Decompression
import VtRuntime.Scheduler.Priority
import VtRuntime.Termination.IntegralSetFused
import VtRuntime.Termination.WaveSafety
import VtRuntime.Termination.DijkstraScholten
import VtRuntime.Termination.TerminationRecord
import VtRuntime.Termination.TerminationTest
import VtRuntime.Termination.TermAction
import VtRuntime.Termination.Finish
import VtRuntime.Termination.MakeGraph
import VtRuntime.Topos.Delivery
import VtRuntime.Topos.Convergence
import VtRuntime.Messaging.PendingSend
import VtRuntime.Messaging.PendingRecv
import VtRuntime.Group.Continuation
import VtRuntime.Group.RegionLists
import VtRuntime.Collective.Barrier
import VtRuntime.Group.DeliverToSender
import VtRuntime.Collective.ScopeOrder
import VtRuntime.Collective.Descendants
import VtRuntime.Rdma.Requests
import VtRuntime.Event.ActionsOnce
import VtRuntime.Messaging.ChainOrder
import VtRuntime.Collection.ReduceStamp
import VtRuntime.Collection.Insertion
import VtRuntime.Messaging.ChainSetTracks
import VtRuntime.Balance.Moments
import VtRuntime.Balance.TemperedBest
import VtRuntime.Balance.CommGraph
import VtRuntime.Balance.HierMinChild
import VtRuntime.Balance.HierTree
import VtRuntime.Balance.LinearModel
import VtRuntime.Balance.Subphases
import VtRuntime.Balance.LBManager
import VtRuntime.Balance.GreedyTransport
import VtRuntime.Scheduler.Queue
import VtRuntime.Rdma.PutBack
import VtRuntime.Rdma.Region
