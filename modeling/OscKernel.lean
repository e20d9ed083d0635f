import OscKernel.ArchiveWalk
import OscKernel.Bootloader
import OscKernel.CanonicalPaths
import OscKernel.Chdir
import OscKernel.ExceptionFrames
import OscKernel.Exec
import OscKernel.FileIsolation
import OscKernel.FirstCome
import OscKernel.ForkInherits
import OscKernel.Framebuffer
import OscKernel.FreshMount
import OscKernel.HeapContract
import OscKernel.Heartbeat
import OscKernel.InitramfsStores
import OscKernel.InitrdCallback
import OscKernel.InvalidFrees
import OscKernel.PageReservations
import OscKernel.PageRoundTrip
import OscKernel.SchedulerKill
import OscKernel.ShellSession
import OscKernel.SignalReturn
import OscKernel.SignalRuns
import OscKernel.SlabConservation
import OscKernel.SwitchCode
import OscKernel.TaskRuns
import OscKernel.TmpfsDirectories
import OscKernel.TmpfsHoles
import OscKernel.UartPuts
import OscKernel.UartRead
import OscKernel.UartRx
import OscKernel.VfsInit
