import Residctl.Lib.Paging
import Residctl.Lib.Heap
import Residctl.Lib.Cyclic
import Residctl.Lib.Scan
import Residctl.Lib.Cells
import Residctl.Region
import Residctl.Policy
import Residctl.Declared
import Residctl.Gguf
import Residctl.Belady
import Residctl.Wp2Opt
import Residctl.Budget
import Residctl.SyncReplay
import Residctl.Accounting
import Residctl.Consumption
import Residctl.Content
import Residctl.Coverage
import Residctl.Deadlock
import Residctl.Demand
import Residctl.Depth
import Residctl.Dispatcher
import Residctl.Drain
import Residctl.ReplayEnds
import Residctl.ReplayRefines
import Residctl.Retention
import Residctl.Watchdog
import Residctl.CyclicFloor
import Residctl.NaiveBelady
import Residctl.OfflineBound
import Residctl.Wp2Checks
import Residctl.LruReplay
import Residctl.Prediction
import Residctl.Ensure
import Residctl.SyncSound
import Residctl.Counters
import Residctl.Reconcile
import Residctl.RetainRing
import Residctl.LostPunch
import Residctl.Startup
import Residctl.Inventory
import Residctl.FetchRead
import Residctl.FetchTrace
import Residctl.Metrics
import Residctl.PolicyTrace
import Residctl.Learned
import Residctl.Trace
import Residctl.CgroupStat
import Residctl.Attempts
import Residctl.BeladyHeap
import Residctl.BeladyArrays
import Residctl.BeladyMain
import Residctl.Consumer
import Residctl.DefaultReplay
import Residctl.CyclicOptimum
import Residctl.TokenPass
import Residctl.Lib.Ranking
import Residctl.Shutdown
