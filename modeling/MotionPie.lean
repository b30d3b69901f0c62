import MotionPie.Support.GraphDepends.Collect
import MotionPie.Support.GraphDepends.Depth
import MotionPie.Support.GraphBuildTime.CompletedRuns
import MotionPie.Support.Scancpan.NeedDlopen
import MotionPie.Support.ExpungeGconvModules
import MotionPie.Support.Kconfig.MenuFinalize
import MotionPie.Support.Kconfig.Rearranged
import MotionPie.Support.Kconfig.Runs
import MotionPie.Support.MkUsers.Atomic
import MotionPie.Support.MkUsers.Identity
import MotionPie.Support.MkUsers.Members
import MotionPie.Support.MkUsers.Normalise
import MotionPie.Support.MkUsers.Rendered
import MotionPie.Support.MkUsers.Rerun
import MotionPie.Support.Download.Cleanup
import MotionPie.Support.Download.HashFile
import MotionPie.Support.Download.Loss
import MotionPie.Package.Motioneye.Outcome
import MotionPie.Package.Motioneye.Ipctl.Netmask
import MotionPie.Package.Motioneye.Ipctl.Unchanged
import MotionPie.Package.Motioneye.Sectors
import MotionPie.Package.Motioneye.VersionOrder
import MotionPie.Package.Generic.Dependencies
import MotionPie.Package.Generic.Freshness
import MotionPie.Package.PkgUtils.KconfigOpt
import MotionPie.Package.Makedevs.Lines
import MotionPie.Package.Makedevs.MakeDirectoryTree
import MotionPie.Package.Makedevs.LineReader
import MotionPie.Package.Makedevs.NodeBuffer
import MotionPie.Board.Common.S95motioneye
import MotionPie.Board.Common.Passwords
import MotionPie.Board.Common.S60date
import MotionPie.Board.Common.StaticIp
import MotionPie.Board.Common.Watchdogs
import MotionPie.Board.Raspberrypi.AddRemoveCameras
import MotionPie.Board.Raspberrypi.Boardctl.Preset
import MotionPie.Board.Raspberrypi.Launch
import MotionPie.Board.Raspberrypi.RaspimjpegConf.RoundTrip
import MotionPie.Board.Raspberrypi.RaspimjpegConf.Saved
import MotionPie.Board.Raspberrypi.S94streameye
import MotionPie.Board.Raspberrypi.SetStreameyeEnabled
import MotionPie.Toolchain.CopyToolchainLibRoot
import MotionPie.Toolchain.ExtToolchainWrapper.Main
import MotionPie.Writeimage
import MotionPie.Base.Ensures
import MotionPie.Base.Strtoll
import MotionPie.Support.Kconfig.Branches
import MotionPie.Support.Kconfig.CalcSymbol
import MotionPie.Support.Kconfig.Runs
