import UdpFileProxy.Grammar
import UdpFileProxy.Lib.Fields
import UdpFileProxy.Lib.Run
import UdpFileProxy.Lib.Extension
import UdpFileProxy.Lib.Memory
import UdpFileProxy.Lib.TypedFifo
import UdpFileProxy.Protocol
import UdpFileProxy.FileProcess
import UdpFileProxy.SendPack
import UdpFileProxy.Reassembly
import UdpFileProxy.Sudp
import UdpFileProxy.Refinement
import UdpFileProxy.Delivery
import UdpFileProxy.Transfer
import UdpFileProxy.Isolation
import UdpFileProxy.Reorder
import UdpFileProxy.Lib.LinkedList
import UdpFileProxy.ThreadPool
import UdpFileProxy.Notify
import UdpFileProxy.Lib.Allotment
import UdpFileProxy.Quota
import UdpFileProxy.Config
import UdpFileProxy.FileThread
import UdpFileProxy.Manager
import UdpFileProxy.ProxyClient
import UdpFileProxy.Bandwidth
import UdpFileProxy.Lib.OrderedMap
import UdpFileProxy.ProxyServer
import UdpFileProxy.Children
import UdpFileProxy.OwnChild
import UdpFileProxy.Survivors
import UdpFileProxy.Framing
import UdpFileProxy.Encoding
import UdpFileProxy.Status
import UdpFileProxy.Registry
import UdpFileProxy.Replies
import UdpFileProxy.Limits
import UdpFileProxy.FileHelper
import UdpFileProxy.Lib.Chain
import UdpFileProxy.Moves
import UdpFileProxy.PoolThreads
import UdpFileProxy.Wakeups
import UdpFileProxy.Hostile
import UdpFileProxy.Numbers
import UdpFileProxy.Transmission
import UdpFileProxy.BatchSize
import UdpFileProxy.Marks
import UdpFileProxy.Adding
import UdpFileProxy.Sessions
import UdpFileProxy.Crashes
import UdpFileProxy.Policies
import UdpFileProxy.Removal
import UdpFileProxy.RecvFinish
import UdpFileProxy.Announcements
import UdpFileProxy.Lib.Pattern
import UdpFileProxy.Splitting
import UdpFileProxy.CopyLoop
import UdpFileProxy.Links
import UdpFileProxy.Lib.Directories
import UdpFileProxy.CreateDir
import UdpFileProxy.Losses
import UdpFileProxy.Registrations
import UdpFileProxy.Names
import UdpFileProxy.Wires
import UdpFileProxy.EndToEnd
import UdpFileProxy.Draining
import UdpFileProxy.Orphans
import UdpFileProxy.Pacing
import UdpFileProxy.Quiescence
import UdpFileProxy.Receipts
import UdpFileProxy.Service
import UdpFileProxy.Deployment
