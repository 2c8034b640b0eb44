import Ndhs.Lib.Run
import Ndhs.Lib.Ring
import Ndhs.Smc.ExpID
import Ndhs.Sup.Queue
import Ndhs.Sup.Fifo
import Ndhs.Sup.Proc
import Ndhs.Smc.Mutex
import Ndhs.Lib.Packed
import Ndhs.Smc.State
import Ndhs.Smc.StateInv
import Ndhs.Lib.Cells
import Ndhs.Smc.Table
import Ndhs.Smc.TableInv
import Ndhs.Smc.Account
import Ndhs.Smc.Segment
import Ndhs.Pipeline.Net
import Ndhs.Lib.Round
import Ndhs.Pipeline.Pipe
import Ndhs.Pipeline.Sim
import Ndhs.Pipeline.ImageType
import Ndhs.Pipeline.Serial
import Ndhs.Pipeline.Address
import Ndhs.Dca.Clients
import Ndhs.Smc.NextPage
import Ndhs.Smc.Delivery
import Ndhs.Lib.Text
import Ndhs.Sup.Options
import Ndhs.Dca.Server
import Ndhs.Dca.Contexts
import Ndhs.Dca.Readout
import Ndhs.Dca.Pixels
import Ndhs.Kwdb.Model
import Ndhs.Lib.Linked
import Ndhs.Lib.Buffer
import Ndhs.Kwdb.Spec
import Ndhs.Kwdb.Hash
import Ndhs.Kwdb.Rep
import Ndhs.Kwdb.Edit
import Ndhs.Kwdb.Refine
import Ndhs.Kwdb.Rename
import Ndhs.Kwdb.Fits
import Ndhs.Kwdb.Cards
import Ndhs.Kwdb.Header
import Ndhs.Kwdb.Scan
import Ndhs.Kwdb.Update
import Ndhs.Lib.Tiling
import Ndhs.Dsim.Geometry
import Ndhs.Lib.Endian
import Ndhs.Dsim.Encode
import Ndhs.Dsim.Channel
import Ndhs.Lib.Doubly
import Ndhs.Vm.Cache
import Ndhs.Vm.Lru
import Ndhs.Vm.Overlap
import Ndhs.Lib.Packet
import Ndhs.Pxf.MetaData
import Ndhs.Dca.HeaderData
import Ndhs.Lib.Stores
import Ndhs.Dsim.Region
import Ndhs.Pxf.PixelData
import Ndhs.Dca.PixelData
import Ndhs.Lib.Socket
import Ndhs.Col.PanHandler
import Ndhs.Col.Faults
import Ndhs.Col.Wire
import Ndhs.Lib.Pvm
import Ndhs.Mbus.Codec
import Ndhs.Mbus.Handle
import Ndhs.Sup.Tables
import Ndhs.Sup.Clean
import Ndhs.Sup.Channels
import Ndhs.Sup.Pairs
import Ndhs.Lib.Grid
import Ndhs.Smc.Rectify
import Ndhs.Dca.FileName
import Ndhs.Smc.Memory
import Ndhs.Smc.FirstPoll
import Ndhs.Smc.ByExpID
import Ndhs.Lib.Words
import Ndhs.Pxf.KeywList
import Ndhs.Sup.ClientID
import Ndhs.Col.Connect
import Ndhs.Lib.Lines
import Ndhs.Smc.Config
import Ndhs.Lib.Fill
import Ndhs.Dca.PixelRegion
import Ndhs.Lib.Sweep
import Ndhs.Smc.Voids
import Ndhs.Smc.Failure
import Ndhs.Pxf.Process
import Ndhs.Sup.QueueStat
import Ndhs.Smc.SkyFrame
import Ndhs.Lib.Stats
import Ndhs.Smc.PixelStats
import Ndhs.Smc.Rotate
import Ndhs.Sup.Neuter
import Ndhs.Col.Device
import Ndhs.Pxf.MoveStr
import Ndhs.Kwdb.Stale
import Ndhs.Kwdb.Alloc
import Ndhs.Kwdb.Carry
import Ndhs.Dsim.HeaderArea
import Ndhs.Dsim.Configured
import Ndhs.Dsim.Reserved
import Ndhs.Dsim.Names
import Ndhs.Sup.ConfigFile
import Ndhs.Sup.KeywDB
import Ndhs.Kwdb.Capacity
import Ndhs.Lib.Scan
import Ndhs.Smc.CfgString
import Ndhs.Dca.FillLoops
import Ndhs.Dca.Placement
import Ndhs.Dca.FileFormat
import Ndhs.Vm.Init
import Ndhs.Vm.Evict
import Ndhs.Vm.References
import Ndhs.Dca.ServerParams
import Ndhs.Pipeline.Order
import Ndhs.Col.Stream
import Ndhs.Dsim.ReadHeader
