import Compss.Lib.Run
import Compss.Lib.While
import Compss.Lib.Java
import Compss.Lib.LinkedList
import Compss.Lib.Text
import Compss.Data.Version
import Compss.Data.DataInfo
import Compss.Data.DataInfoProvider
import Compss.Data.VersionTable
import Compss.Data.Bookkeeping
import Compss.Data.Retrieval
import Compss.Scheduler.Types
import Compss.Scheduler.Action
import Compss.Scheduler.TaskScheduler
import Compss.Scheduler.Invariant
import Compss.Scheduler.Cascade
import Compss.Scheduler.ReadyCounts
import Compss.Scheduler.Reduction
import Compss.Transfers.TransfersListener
import Compss.Runtime.MultiNodeGroup
import Compss.Worker.TaskResultReader
import Compss.Lib.Custody
import Compss.Transfers.ImmediateCopy
import Compss.Worker.NIOWorker
import Compss.Transfers.NIOAgent
import Compss.Cloud.CloudProvider
import Compss.Scheduler.History
import Compss.Resources.MethodResourceDescription
import Compss.Resources.ComputingUnits
import Compss.Resources.DynamicMethodWorker
import Compss.Scheduler.Queue
import Compss.Scheduler.QueueMoves
import Compss.Runtime.TaskAnalyser
import Compss.Runtime.AccessProcessor
import Compss.Runtime.Requests
import Compss.Runtime.Consistency
import Compss.Runtime.TaskEnds
import Compss.Runtime.Failures
import Compss.Runtime.Barriers
import Compss.Runtime.Parameters
import Compss.Runtime.Links
import Compss.Executors.ExternalExecutor
import Compss.Executors.EndTask
import Compss.Python.PiperWorker
import Compss.Python.TaskCommand
import Compss.Python.TaskResult
import Compss.Python.Binding
import Compss.Python.ObjectLife
import Compss.Python.Synchronization
import Compss.Resources.Reservation
import Compss.Resources.Totals
import Compss.Resources.Hosting
import Compss.Resources.Availability
import Compss.Resources.MethodWorker
import Compss.Resources.ExecutableCores
import Compss.Resources.WorkerPool
import Compss.Scheduler.InvalidScheduling
import Compss.MultiObjective.Descriptions
import Compss.MultiObjective.GapScheduling
import Compss.MultiObjective.LocalOptimization
import Compss.MultiObjective.GapAmounts
import Compss.MultiObjective.MethodDescriptions
import Compss.MultiObjective.CommonDynamics
import Compss.MultiObjective.Timeline
import Compss.MultiObjective.DataOrder
import Compss.MultiObjective.ResourceFlow
import Compss.MultiObjective.MOScore
import Compss.MultiObjective.ScalingActions
import Compss.MultiObjective.LoadSimulation
import Compss.MultiObjective.LoadAssignment
import Compss.MultiObjective.ResourceReleases
import Compss.Lib.PriorityQueue
import Compss.Scheduler.BlockedOrder
import Compss.Lib.Base64
import Compss.Python.StringArguments
import Compss.Scheduler.Profiles
import Compss.Resources.BestDestruction
import Compss.Resources.CloudDescriptions
import Compss.Resources.CreationRequests
import Compss.Resources.Growth
import Compss.Resources.Constraints
import Compss.Resources.Creations
import Compss.Lib.Memory
import Compss.MultiObjective.GapReferences
import Compss.MultiObjective.SharedRequirements
import Compss.Lib.TreeSet
import Compss.Lib.TextOrder
import Compss.Locations.SharedDiskManager
import Compss.Locations.DataLocation
import Compss.Locations.LogicalData
import Compss.Locations.LocationSet
import Compss.Locations.MergedCopies
import Compss.Locations.FailedCopies
import Compss.Locations.HostRemoval
import Compss.Locations.SharedPaths
import Compss.Locations.MasterData
import Compss.Worker.ThreadBinder
import Compss.Worker.Occupation
import Compss.Lib.JavaText
import Compss.Data.Renamings
import Compss.Scheduler.ActionTable
import Compss.MultiObjective.PriorityActionSet
import Compss.Worker.SocketMap
import Compss.Lib.Traverse
import Compss.Runtime.CoreManager
import Compss.Runtime.EnvironmentLoader
import Compss.Runtime.IDLParser
import Compss.Lib.Layout
import Compss.Runtime.InterfaceFile
import Compss.Runtime.InterfaceItems
import Compss.Runtime.InterfaceConstraints
import Compss.Runtime.InterfaceLayout
import Compss.Lib.Monitor
import Compss.Worker.ThreadPool
import Compss.Runtime.Launches
import Compss.Runtime.Waits
import Compss.Lib.QueueReduction
import Compss.Python.Reduce
