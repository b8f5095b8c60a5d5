import NestLinux.Mtd.OmapCorrect
import NestLinux.Mtd.OmapHamming
import NestLinux.Mtd.NandEccCorrect
import NestLinux.Fs.Jffs2.ReadInodeBuild
import NestLinux.Kernel.TimerRun
import NestLinux.Net.FilterSound
import NestLinux.RadixTree.GangTag
import NestLinux.Fs.Jffs2.WbufLock
import NestLinux.Fs.Jffs2.Rtime
import NestLinux.Mtd.NandBbtRecover
import NestLinux.Net.IpTablesLoad
import NestLinux.Net.IpFragmentExact
import NestLinux.Drivers.RotaryEncoder
import NestLinux.Drivers.AdbsA330
import NestLinux.Drivers.DynamicGadget
import NestLinux.Drivers.NlModel
import NestLinux.Mtd.CmdlinePart
import NestLinux.Fs.LocksEffect
import NestLinux.Fs.Flock
import NestLinux.Mm.BuddyRun
import NestLinux.Ipc.SemRun
import NestLinux.Ipc.SemAtomic
import NestLinux.RbTree.Remove
import NestLinux.Idr.Limits
import NestLinux.Idr.Next
import NestLinux.Idr.Ida
import NestLinux.Net.FilterAttr
import NestLinux.Mm.MemblockFull
import NestLinux.Mm.MemblockFind
import NestLinux.Kernel.ResourceSplit
import NestLinux.Kernel.ResourceAdjust
import NestLinux.Kernel.Bitmap
import NestLinux.Kernel.KfifoUser
import NestLinux.Drivers.ClktDpll
import NestLinux.Drivers.Lm3530
import NestLinux.Mm.UnmappedArea
import NestLinux.Kernel.Rational
import NestLinux.Kernel.TsBm
