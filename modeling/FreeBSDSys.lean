import FreeBSDSys.Kern.ForkPid
import FreeBSDSys.Kern.LockSystem
import FreeBSDSys.Kern.RmanCorrect
import FreeBSDSys.Kern.SockbufRun
import FreeBSDSys.Kern.SysvSem
import FreeBSDSys.Kern.UnpGc
import FreeBSDSys.Net.BpfChain
import FreeBSDSys.Net.BpfScratch
import FreeBSDSys.Net.SlCompressRun
import FreeBSDSys.Net80211.ReorderAge
import FreeBSDSys.Netinet.DummynetHeap
import FreeBSDSys.Netinet.DummynetSched
import FreeBSDSys.Netinet.DummynetSum
import FreeBSDSys.Netinet.IpReassCount
import FreeBSDSys.Netinet.SackHints
import FreeBSDSys.Netinet.TcpReassRun
import FreeBSDSys.Netipsec.Replay
import FreeBSDSys.Security.LomacRun
import FreeBSDSys.Security.MlsRelabel
import FreeBSDSys.Ufs.DirhashShared
import FreeBSDSys.Ufs.FfsHash
import FreeBSDSys.Ufs.FfsRun
import FreeBSDSys.Ufs.QuotaCache
import FreeBSDSys.Ufs.QuotaFile
import FreeBSDSys.Ufs.QuotaSwitch
import FreeBSDSys.Vm.PhysCorrect
import FreeBSDSys.Vm.SwapRun
