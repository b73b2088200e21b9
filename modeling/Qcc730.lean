import Qcc730.Console.Groups
import Qcc730.Console.Menu
import Qcc730.Console.Parser
import Qcc730.Console.Tree
import Qcc730.DataSvc.Buffers
import Qcc730.DataSvc.Closing
import Qcc730.DataSvc.Handlers
import Qcc730.DataSvc.RawEth
import Qcc730.DataSvc.Requests
import Qcc730.DataSvc.Stream
import Qcc730.DataSvc.Tcp
import Qcc730.Flash.Descriptor
import Qcc730.Flash.Device
import Qcc730.Flash.Discipline
import Qcc730.Flash.Driver
import Qcc730.FwdTool.Binary
import Qcc730.FwdTool.Descriptor
import Qcc730.FwdTool.Layout
import Qcc730.HexFile.Blocks
import Qcc730.HexFile.Records
import Qcc730.HexFile.Regions
import Qcc730.HexFile.RoundTrip
import Qcc730.HexFile.Runs
import Qcc730.Hosted.Download
import Qcc730.Hosted.Elements
import Qcc730.Hosted.Loader
import Qcc730.Lib.Bits
import Qcc730.Lib.Bytes
import Qcc730.Lib.Circular
import Qcc730.Lib.Cmd
import Qcc730.Lib.Crc
import Qcc730.Lib.Float
import Qcc730.Lib.Fuel
import Qcc730.Lib.Linked
import Qcc730.Lib.Modular
import Qcc730.Lib.Ones
import Qcc730.Lib.Parents
import Qcc730.Lib.Phase
import Qcc730.Lib.Reach
import Qcc730.Lib.Reads
import Qcc730.Lib.Segments
import Qcc730.Lib.Slots
import Qcc730.Lib.Trace
import Qcc730.Lib.Words
import Qcc730.Nvm.Calibration
import Qcc730.Nvm.Checksum
import Qcc730.Nvm.Flash
import Qcc730.Nvm.Jtag
import Qcc730.Nvm.OtpField
import Qcc730.Nvm.Rram
import Qcc730.Ota.Body
import Qcc730.Ota.Delivery
import Qcc730.Ota.Http
import Qcc730.Ota.Tftp
import Qcc730.Qat.Answers
import Qcc730.Qat.Chain
import Qcc730.Qat.Groups
import Qcc730.Qat.Lines
import Qcc730.Qat.Numbers
import Qcc730.Qat.Parameters
import Qcc730.Qat.Parser
import Qcc730.Qat.Position
import Qcc730.Qat.Quoting
import Qcc730.Qat.Reader
import Qcc730.Qat.Scan
import Qcc730.Qat.Uart
import Qcc730.Ring.A2f
import Qcc730.Ring.Attach
import Qcc730.Ring.Context
import Qcc730.Ring.Control
import Qcc730.Ring.DataRings
import Qcc730.Ring.F2a
import Qcc730.Ring.HostIndex
import Qcc730.Ring.Messages
import Qcc730.Ring.Shortage
import Qcc730.Ring.Tables
import Qcc730.Rram.Caldata
import Qcc730.Rram.Regions
import Qcc730.Rram.Write
import Qcc730.Sbl.Attempts
import Qcc730.Sbl.Copies
import Qcc730.Sbl.Dxe
import Qcc730.Sbl.Elf
import Qcc730.Sbl.Fuses
import Qcc730.Sbl.FwdTable
import Qcc730.Sbl.Loader
import Qcc730.Sbl.Rollback
import Qcc730.Sbl.Segments
import Qcc730.Sbl.Share
import Qcc730.Sbl.Table
import Qcc730.Sbl.Transfers
import Qcc730.Sbl.Words
import Qcc730.Securefs.Storage
import Qcc730.Sleep.Counters
import Qcc730.Sleep.Deadlines
import Qcc730.Sleep.Links
import Qcc730.Sleep.List
import Qcc730.Sleep.MacTime
import Qcc730.Sleep.Order
import Qcc730.Sleep.Plan
import Qcc730.Sleep.Registration
import Qcc730.Sleep.Relink
import Qcc730.Sleep.Tick
import Qcc730.Sleep.Wake
import Qcc730.Spi.CommandLayer
import Qcc730.Timer.Adjust
import Qcc730.Timer.Clock
import Qcc730.Timer.Interrupt
import Qcc730.Timer.Order
import Qcc730.Timer.Refusal
import Qcc730.Timer.Reload
import Qcc730.Timer.Timers
import Qcc730.Upgrade.Acceptance
import Qcc730.Upgrade.Area
import Qcc730.Upgrade.Books
import Qcc730.Upgrade.Bounds
import Qcc730.Upgrade.Completion
import Qcc730.Upgrade.Containment
import Qcc730.Upgrade.Copying
import Qcc730.Upgrade.Effects
import Qcc730.Upgrade.Entries
import Qcc730.Upgrade.Erasure
import Qcc730.Upgrade.Format
import Qcc730.Upgrade.Frame
import Qcc730.Upgrade.Generator
import Qcc730.Upgrade.Handles
import Qcc730.Upgrade.Header
import Qcc730.Upgrade.History
import Qcc730.Upgrade.Images
import Qcc730.Upgrade.Indexing
import Qcc730.Upgrade.Leaks
import Qcc730.Upgrade.Ledger
import Qcc730.Upgrade.Listing
import Qcc730.Upgrade.Pairing
import Qcc730.Upgrade.Partition
import Qcc730.Upgrade.Placement
import Qcc730.Upgrade.PowerLoss
import Qcc730.Upgrade.Ranks
import Qcc730.Upgrade.Reception
import Qcc730.Upgrade.Resumption
import Qcc730.Upgrade.Session
import Qcc730.Upgrade.Threads
import Qcc730.Upgrade.Trial
import Qcc730.Upgrade.Watch
import Qcc730.Upgrade.Writing
