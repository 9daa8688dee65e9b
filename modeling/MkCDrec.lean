import MkCDrec.Lib.Directory
import MkCDrec.Lib.ShellText
import MkCDrec.Lib.Cutting
import MkCDrec.Cutstream
import MkCDrec.SplitFile
import MkCDrec.MakeIso
import MkCDrec.Backup
import MkCDrec.RestoreSplit
import MkCDrec.RoundTrip
import MkCDrec.Pieces
import MkCDrec.TarIt
import MkCDrec.Labels
import MkCDrec.GetBackup
import MkCDrec.VolumeSets
import MkCDrec.Capacity
import MkCDrec.Table
import MkCDrec.ArchiveNames
import MkCDrec.Lib.Grouping
import MkCDrec.DiskInfo
import MkCDrec.StartRestore
import MkCDrec.TapeOrder
import MkCDrec.Failures
import MkCDrec.Targets
import MkCDrec.Lib.ShellNumber
import MkCDrec.Layout
import MkCDrec.FixedSizes
import MkCDrec.Sectors
import MkCDrec.Geometry
import MkCDrec.Lib.Stretches
import MkCDrec.Enlarging
import MkCDrec.LogicalSizes
import MkCDrec.Lib.Paths
import MkCDrec.ExcludeList
import MkCDrec.DeviceNames
import MkCDrec.MetaDevices
import MkCDrec.Suffixes
import MkCDrec.Lib.Runs
import MkCDrec.Lib.Words
import MkCDrec.Renaming
import MkCDrec.Lib.Overwrite
import MkCDrec.Mediacheck
import MkCDrec.Lib.Machine
import MkCDrec.Lib.CopyLoop
import MkCDrec.Copying
import MkCDrec.Buffers
import MkCDrec.Arithmetic
import MkCDrec.MdadmConf
import MkCDrec.Formatting
import MkCDrec.ArrayFormats
import MkCDrec.Lib.Collecting
import MkCDrec.Lib.Patterns
import MkCDrec.LogicalVolumes
import MkCDrec.Lib.Script
import MkCDrec.BuildScripts
import MkCDrec.Lib.Columns
import MkCDrec.Parted
import MkCDrec.Grub
import MkCDrec.Lib.SelfFilter
import MkCDrec.Lib.Lines
import MkCDrec.MountPoints
import MkCDrec.Splitting
import MkCDrec.ShortReads
import MkCDrec.Parts
import MkCDrec.Accounting
import MkCDrec.FileArguments
import MkCDrec.Histories
import MkCDrec.Lib.Reading
import MkCDrec.Selection
import MkCDrec.Lib.Blocks
import MkCDrec.Lib.Sines
import MkCDrec.Lib.Digests
import MkCDrec.Md5
import MkCDrec.Lib.Mounting
import MkCDrec.MountLocal
import MkCDrec.Lib.Loading
import MkCDrec.InitrdModules
import MkCDrec.Pastestream
import MkCDrec.Lib.Updates
import MkCDrec.Recovering
import MkCDrec.DiskLabels
import MkCDrec.Lib.Tapes
import MkCDrec.TapeRecovery
import MkCDrec.Checksums
import MkCDrec.Cloning
import MkCDrec.TapeClone
import MkCDrec.CdRecovery
import MkCDrec.SingleRestore
