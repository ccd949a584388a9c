import Fscc.BulkAccess
import Fscc.StreamReady
import Fscc.Suspend
import Fscc.RxDelivery
import Fscc.RxBounds
import Fscc.RxOutcome
import Fscc.Ioctl
import Fscc.RxTimestamps
import Fscc.ClockBits
import Fscc.HostOrder
import Fscc.Initialize
import Fscc.RxDrain
import Fscc.RxRelease
import Fscc.RxDma
import Fscc.TxDma
import Fscc.TxWakeup
import Fscc.TxScan
import Fscc.TxFill
import Fscc.TxQueue
import Fscc.ReadCall
import Fscc.RxPurge
import Fscc.RxDmaAlone
import Fscc.RxWakeup
import Fscc.RingMemory
import Fscc.DriverLifecycle
import Fscc.InterruptCount
import Fscc.PortRemoval
import Fscc.Loopback
import Fscc.PortIsolation
import Fscc.TxRefinement
import Fscc.TxProgress
