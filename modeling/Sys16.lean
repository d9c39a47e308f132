import Sys16.DcuMachine
import Sys16.DcuMemory
import Sys16.DcuGeometry
import Sys16.DcuSectorStore
import Sys16.DcuCommands
import Sys16.EventRuns
import Sys16.LittleEndian
import Sys16.StoreHistory
import Sys16.Sessions
import Sys16.ByteStore
import Sys16.PyText
import Sys16.MkfsImage
import Sys16.MkfsBlocks
import Sys16.MkfsFreeList
import Sys16.MkfsSuperblock
import Sys16.PyDict
import Sys16.HostWalk
import Sys16.Mkdisk
import Sys16.MkfsBuild
import Sys16.MkfsActs
import Sys16.MkfsFinish
import Sys16.MkfsLinks
import Sys16.Extents
import Sys16.MkfsLedger
import Sys16.MkfsInodes
import Sys16.MkfsOwners
import Sys16.MkfsWalk
import Sys16.S5Reader
import Sys16.MkfsRead
import Sys16.MkfsRoundTrip
import Sys16.MkfsNamespace
import Sys16.DcuReport
import Sys16.DcuPackShape
import Sys16.PosixPath
import Sys16.StopRequest
import Sys16.PackLayout
import Sys16.PackOverlay
import Sys16.S5BlockMap
import Sys16.S5Extract
import Sys16.MkfsKinds
import Sys16.TreeExtract
import Sys16.DcuTermination
import Sys16.PyBytes
import Sys16.Coff2Genix
import Sys16.MkfsAccounting
import Sys16.MkfsFreeInodes
import Sys16.MkfsNodes
import Sys16.LimitedRuns
import Sys16.MkfsRecursion
import Sys16.GenixTerm
import Sys16.SyncDeadline
import Sys16.BootDetect
import Sys16.EscapeInput
import Sys16.Nm32
import Sys16.DcuProvenance
import Sys16.RootVolume
import Sys16.BootSession
import Sys16.BusMap
import Sys16.BusRefinement
import Sys16.BusMemory
import Sys16.HostFiles
import Sys16.TreeRoundTrip
import Sys16.Budgets
import Sys16.MkfsCapacity
import Sys16.MkfsPacking
import Sys16.MkfsStamps
import Sys16.TreeCapacity
import Sys16.InteractiveSession
import Sys16.GreedyPatterns
import Sys16.TraceLog
import Sys16.BusCommands
import Sys16.BusInterrupt
import Sys16.ExtractInside
