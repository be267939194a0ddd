import TateFirmware.Support.Run
import TateFirmware.Support.Memory
import TateFirmware.Support.Items
import TateFirmware.Support.Channel
import TateFirmware.Support.Records
import TateFirmware.Support.StringList
import TateFirmware.Support.SortedByKey
import TateFirmware.LibGeneric.CString
import TateFirmware.LibGeneric.Crc32
import TateFirmware.LibGeneric.Decimal
import TateFirmware.Mmc.Host
import TateFirmware.Mmc.Exchange
import TateFirmware.Mmc.Transfer
import TateFirmware.Mmc.Sectors
import TateFirmware.Mmc.WriteCalls
import TateFirmware.Mmc.Erase
import TateFirmware.Mmc.EraseCheck
import TateFirmware.Mmc.Cardsize
import TateFirmware.Sparse.Expander
import TateFirmware.Sparse.Expansion
import TateFirmware.Sparse.Calls
import TateFirmware.Sparse.Image
import TateFirmware.Sparse.Passes
import TateFirmware.Sparse.ChunkSizes
import TateFirmware.Disk.PartDos
import TateFirmware.Disk.PartNumbers
import TateFirmware.Disk.PartEnds
import TateFirmware.Fastboot.Interface
import TateFirmware.Fastboot.ParseEnv
import TateFirmware.Fastboot.ParseTwice
import TateFirmware.Fastboot.Flash
import TateFirmware.Fastboot.Handler
import TateFirmware.Fastboot.Dispatch
import TateFirmware.Fastboot.Descriptors
import TateFirmware.Fastboot.EfiTable
import TateFirmware.Fastboot.EfiTableLoad
import TateFirmware.Fastboot.CheckCrc
import TateFirmware.Fastboot.Download
import TateFirmware.Fastboot.FlashEnv
import TateFirmware.Fastboot.Target
import TateFirmware.Fastboot.FlashErrors
import TateFirmware.Fastboot.FlashRange
import TateFirmware.Fastboot.EraseRange
import TateFirmware.Fastboot.Multiflash
import TateFirmware.Fastboot.MultiflashCut
import TateFirmware.Sensors.InputEvents
import TateFirmware.Serial.SRecord
import TateFirmware.Serial.SaveSerial
import TateFirmware.Serial.LoadSerial
import TateFirmware.Serial.Kermit
import TateFirmware.Serial.KermitRun
import TateFirmware.Idme.Nvram
import TateFirmware.Idme.UpdateVar
import TateFirmware.Idme.SelectBoot
import TateFirmware.Idme.Selection
import TateFirmware.Idme.BoardInfo
import TateFirmware.Idme.UpdateRecord
import TateFirmware.Boot.Autoscript
import TateFirmware.Boot.Bootm
import TateFirmware.Boot.DataCrc
import TateFirmware.Boot.Atags
import TateFirmware.Boot.AtagWalk
import TateFirmware.Boot.MultiImage
import TateFirmware.Boot.MultiParts
import TateFirmware.Boot.GunzipHeader
import TateFirmware.Env.Setenv
import TateFirmware.Env.Area
import TateFirmware.Env.SetenvSpec
import TateFirmware.Env.SetenvSize
import TateFirmware.Env.Refinement
import TateFirmware.Env.GetenvR
import TateFirmware.Env.AreaReads
import TateFirmware.Env.AreaBounds
import TateFirmware.Env.Complete
import TateFirmware.Env.Image
import TateFirmware.Env.MmcEnv
import TateFirmware.Console.Devices
import TateFirmware.Console.DevicesRun
import TateFirmware.Console.NetConsole
import TateFirmware.Mtd.Partitions
import TateFirmware.Mtd.Devices
import TateFirmware.Mtd.SortAdd
import TateFirmware.Mtd.Invariant
import TateFirmware.Mtd.OpsRun
import TateFirmware.Mtd.Generate
import TateFirmware.Mtd.RoundTrip
import TateFirmware.Net.NetLoop
import TateFirmware.Net.Tftp
import TateFirmware.Net.TftpBlocks
import TateFirmware.Net.TftpRun
import TateFirmware.Net.Dhcp
import TateFirmware.Net.DhcpRun
import TateFirmware.Net.Nfs
import TateFirmware.Net.NfsRun
import TateFirmware.Net.TftpWrap
import TateFirmware.Net.Ethernet
import TateFirmware.Net.IpString
import TateFirmware.Net.Receive
import TateFirmware.Net.ReceiveBounds
import TateFirmware.Net.Arp
import TateFirmware.Net.ArpRun
import TateFirmware.Jffs2.Nodes
import TateFirmware.Jffs2.Lookup
import TateFirmware.Jffs2.Fragments
import TateFirmware.Release.Items
import TateFirmware.Release.Permissions
import TateFirmware.Audio.HdmiOut
import TateFirmware.Audio.ChannelMap
import TateFirmware.Audio.EdidCaps
import TateFirmware.Nand.WriteRead
import TateFirmware.Nand.PartitionAccess
import TateFirmware.Nand.DeviceTable
import TateFirmware.Support.Fuel
import TateFirmware.Usb.ParseConfig
import TateFirmware.Usb.ConfigRecords
import TateFirmware.Cli.Macros
import TateFirmware.Cli.ParseLine
import TateFirmware.Cli.RunCommand
import TateFirmware.Cli.Arguments
import TateFirmware.Cli.Separators
import TateFirmware.Env.RedundNand
import TateFirmware.Support.NorFlash
import TateFirmware.Env.FlashEnv
import TateFirmware.Env.FlashSlots
import TateFirmware.Env.FlashSave
import TateFirmware.Env.FlashBoot
import TateFirmware.Env.PowerLoss
import TateFirmware.Env.FlashTool
import TateFirmware.Env.FlashRun
import TateFirmware.Env.ReadBack
import TateFirmware.Sparse.RawPass
import TateFirmware.Sparse.Pieces
import TateFirmware.Support.Patch
import TateFirmware.Support.Cursor
import TateFirmware.Cli.History
import TateFirmware.Cli.LineEdit
import TateFirmware.Cli.LineEditor
import TateFirmware.Cli.LineRun
import TateFirmware.Cli.EraseLine
import TateFirmware.Cli.FindCmd
import TateFirmware.Support.CommonPrefix
import TateFirmware.Support.CutRecords
import TateFirmware.Cli.AutoComplete
import TateFirmware.Cli.Completions
import TateFirmware.Cli.AbortBoot
import TateFirmware.Serial.RecordCount
import TateFirmware.Net.Checksum
import TateFirmware.Net.NfsPath
import TateFirmware.Net.NfsCopies
import TateFirmware.Net.Cdp
import TateFirmware.Net.BootpOptions
import TateFirmware.Net.OptionScans
import TateFirmware.Support.Ring
import TateFirmware.Support.Reading
import TateFirmware.Support.Acyclic
import TateFirmware.Support.Rounds
import TateFirmware.Serial.CircBuf
import TateFirmware.Fat.Fatent
import TateFirmware.Fat.FatCache
import TateFirmware.Fat.Volume
import TateFirmware.Fat.Directory
import TateFirmware.Fat.FatRead
import TateFirmware.Fat.DirectoryEnds
import TateFirmware.Fat.ReadEnds
import TateFirmware.Fat.Contents
import TateFirmware.Fat.LongNames
import TateFirmware.Flash.Banks
import TateFirmware.Flash.Ranges
import TateFirmware.Flash.SectRanges
import TateFirmware.Flash.Write
import TateFirmware.Boot.RamSize
import TateFirmware.Support.Calendar
import TateFirmware.Support.Fields
import TateFirmware.Rtc.Date
import TateFirmware.Mtd.GenerateBounds
import TateFirmware.Jffs2.NandCache
import TateFirmware.Jffs2.BuildLists
import TateFirmware.Cramfs.Resolve
import TateFirmware.Lists.Blocks
import TateFirmware.Lists.Sequences
import TateFirmware.Pci.Auto
import TateFirmware.Power.Interactive
import TateFirmware.Flash.WriteBuff
import TateFirmware.FlatTree.Finished
import TateFirmware.Lists.BinSearch
import TateFirmware.Nand.Ecc
import TateFirmware.Nand.EccCorrect
