import CPrograms.Malloc.Search
import CPrograms.Malloc.Payload
import CPrograms.UringCopy.Data
import CPrograms.UringCopy.Errors
import CPrograms.Mytbf.Signal
import CPrograms.Mytbf.Bounds
import CPrograms.Mytbf.Slots
import CPrograms.Mytbf.Unload
import CPrograms.SignalMytbf.Agreement
import CPrograms.UdpCli.SendLoop
import CPrograms.UringHttp.Descriptors
import CPrograms.UringHttp.Headers
import CPrograms.UringHttp.Paths
import CPrograms.UringHttp.Wire
import CPrograms.UringHttp.Replies
import CPrograms.UdpLoss.Losses
import CPrograms.Tun.Bounds
import CPrograms.Netlink.AttrCodec
import CPrograms.Netlink.Pairing
import CPrograms.UserNs.Exec
import CPrograms.SockEpoll.Drain
import CPrograms.Leetcode.SubsetSum
import CPrograms.RawSock.Checksums
import CPrograms.Ping.Filter
import CPrograms.BpfIter.MntFs
import CPrograms.UringTest.ReadOrder
import CPrograms.UringCat.Output
import CPrograms.UringCat.Indices
import CPrograms.SockSrv.Echo
import CPrograms.SimpleInit.Pause
import CPrograms.UseSsl.Release
import CPrograms.Basic.LongestLine
import CPrograms.Basic.ReverseLines
import CPrograms.Basic.PatternLines
import CPrograms.FileIo.Fileline
import CPrograms.UringHttp.Iovecs
import CPrograms.Netlink.RouteDatagrams
import CPrograms.Netlink.Walkers
import CPrograms.Httpd.Cgi
import CPrograms.Libbpf.StringPool
