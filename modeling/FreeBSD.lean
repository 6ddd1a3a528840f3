import FreeBSD.Net.BpfSafety
import FreeBSD.Net.BpfMbuf
import FreeBSD.Net.IpsecReplay
import FreeBSD.Net.IpReassCover
import FreeBSD.Kern.RmanWindow
import FreeBSD.Kern.BlistFill
import FreeBSD.Kern.LockfModes
import FreeBSD.Kern.LockfQueues
import FreeBSD.Kern.SysvSemAtomic
import FreeBSD.Kern.SysvSemSets
import FreeBSD.Kern.SysvSemBound
import FreeBSD.Kern.SysvSemCounts
import FreeBSD.Kern.SysvSemWakeup
import FreeBSD.Kern.LockmgrExcl
import FreeBSD.Kern.LockmgrWake
import FreeBSD.Kern.MbufCopy
import FreeBSD.Kern.MbufCopyback
import FreeBSD.Kern.MbufSplit
import FreeBSD.Kern.MbufDefrag
import FreeBSD.Vm.VmFindspace
import FreeBSD.Vm.VmMadvise
import FreeBSD.Net.TcpReassRuns
import FreeBSD.Kern.UnpGc
import FreeBSD.Kern.TimeoutRuns
import FreeBSD.Kern.UipcRuns
import FreeBSD.Geom.GeomMesh
import FreeBSD.Geom.SliceRuns
import FreeBSD.Geom.BdeSplit
import FreeBSD.Geom.BdeLock
import FreeBSD.Ufs.NodeAllocRuns
import FreeBSD.Ufs.AllocAddr
import FreeBSD.Security.BibaText
import FreeBSD.Sys.SplayTree
import FreeBSD.Sys.RbRuns
import FreeBSD.Kern.SwitchRuns
import FreeBSD.Net.SyncacheRuns
import FreeBSD.Net.Syncookie
import FreeBSD.Libkern.QDivRemSpec
import FreeBSD.Kern.DescripRuns
import FreeBSD.Kern.DescripFree
import FreeBSD.Kern.SbufRuns
import FreeBSD.Net.IpDnRuns
import FreeBSD.Netgraph.NgPptpgreRuns
import FreeBSD.Netgraph.NgPppOut
import FreeBSD.Netgraph.NgParseString
import FreeBSD.Kern.BlistRuns
import FreeBSD.Lib.FreeAreas
import FreeBSD.Malloc.ZallocRuns
import FreeBSD.Net.DnHeapRuns
import FreeBSD.Net.DnConfig
import FreeBSD.Net.IpFwOpts
import FreeBSD.Net.RadixFrom
import FreeBSD.Vm.UmaZone
