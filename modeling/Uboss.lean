import Uboss.Core.SchedulerRing
import Uboss.Core.TimerRun
import Uboss.Module.HarborRemote
import Uboss.Core.HandleRace
import Uboss.Core.NameArray
import Uboss.Core.MessageSend
import Uboss.Core.ContextRef
import Uboss.Core.LaunchTail
import Uboss.Core.SocketAssert
import Uboss.Core.SocketStream
import Uboss.Core.SocketOrder
import Uboss.Core.SocketClose
import Uboss.Core.SocketWrite
import Uboss.Core.SocketConnecting
import Uboss.Core.SocketUdp
import Uboss.Core.SocketLedger
import Uboss.Core.NameLive
import Uboss.Module.HarborMalformed
import Uboss.Module.HarborPlain
import Uboss.Module.HarborGate
import Uboss.Module.HarborBinding
import Uboss.Module.HarborOrder
import Uboss.Module.HarborOwner
import Uboss.Module.HarborNaming
import Uboss.Service.ClusterAgree
import Uboss.Framework.Queue
import Uboss.Service.ClusterdRequest
import Uboss.Service.ClusterdApart
import Uboss.Service.ClusterdResponse
import Uboss.Lib.SeriSafe
import Uboss.Framework.OrderDispatch
import Uboss.Service.DatacenterWait
import Uboss.Service.MulticastPackage
import Uboss.Service.MulticastRemote
import Uboss.Service.ServiceGlobal
import Uboss.Framework.MsgServerRetention
import Uboss.Service.SharedataUpdate
import Uboss.Lib.StmReads
import Uboss.Lib.SeriGraph
import Uboss.Module.GateOversize
import Uboss.Module.HashIdRun
import Uboss.Lib.DesSafe
import Uboss.Lib.Base64RoundTrip
import Uboss.Lib.DiffieHellman
import Uboss.Lib.SharedataEqual
import Uboss.Lib.LuaSocketQueue
import Uboss.Framework.ServiceSleep
import Uboss.Framework.ServiceWatch
import Uboss.Lib.MongoReply
import Uboss.Lib.BsonReplace
import Uboss.Framework.HttpChunks
import Uboss.Framework.HttpLimit
import Uboss.Framework.SocketHelper
import Uboss.Framework.DnsQuery
import Uboss.Framework.LoginServer
import Uboss.Lib.Mysqlaux
import Uboss.Core.SocketReserve
import Uboss.Module.HarborQueueRun
import Uboss.Core.RwLock
import Uboss.Core.Workers
