import Patmos.Clocked
import Patmos.Ring
import Patmos.Frames
import Patmos.Ocp
import Patmos.MemFifo
import Patmos.CircularBuffer
import Patmos.FSharkFilter
import Patmos.FilterBuffer
import Patmos.FShark
import Patmos.FSharkCapture
import Patmos.FSharkDrop
import Patmos.FSharkPort
import Patmos.MemBlock
import Patmos.StackSim
import Patmos.StackCache
import Patmos.StackCacheRefines
import Patmos.WriteCombineBuffer
import Patmos.WriteCombineRefines
import Patmos.DataCache
import Patmos.DirectMappedLines
import Patmos.DataCacheSys
import Patmos.DataCacheTransparent
import Patmos.StackStoreLeak
import Patmos.TwoWaySetAssocDataCache
import Patmos.Exceptions
import Patmos.Forwarding
import Patmos.Multiplier
import Patmos.LocalDevices
import Patmos.MemoryManagement
import Patmos.MemoryProtection
import Patmos.Arbiter
import Patmos.ArbiterRuns
import Patmos.ICache
import Patmos.ICacheFetch
import Patmos.MCache
import Patmos.MCacheTransfer
import Patmos.FetchErrors
import Patmos.MCacheTags
import Patmos.MCacheHits
import Patmos.WriteBackCache
import Patmos.WriteBackLines
import Patmos.WriteBackRefines
import Patmos.BurstBridge
import Patmos.PriorityJoin
import Patmos.Hardlock
import Patmos.CASPM
import Patmos.TransactionalMemory
import Patmos.Transactions
import Patmos.NodeTdmArbiter
import Patmos.TdmLossless
import Patmos.SRamCtrl
import Patmos.SRamMemory
import Patmos.S4Schedule
import Patmos.S4Network
import Patmos.S4Slots
import Patmos.BubbleFifo
import Patmos.SlotCounter
import Patmos.OneWayMem
import Patmos.OneWayMirror
import Patmos.TwoWaySchedule
import Patmos.TwoWayMem
import Patmos.TwoWayAccess
import Patmos.TwoWayCorrect
import Patmos.Served
import Patmos.SharedSPM
import Patmos.SSPMAegean
import Patmos.Uart
import Patmos.UartCmp
import Patmos.UartFrame
import Patmos.UartLink
import Patmos.UartPulses
import Patmos.AXI4LiteBridge
import Patmos.RTC
import Patmos.ArrayForest
import Patmos.Compression
import Patmos.CompressionTrees
import Patmos.CompressionFormat
import Patmos.Decompression
import Patmos.CompressionStream
import Patmos.EthMacDriver
import Patmos.ArpTable
import Patmos.PtpOffset
import Patmos.NetworkInterface
import Patmos.NocLock
import Patmos.SamplingPort
