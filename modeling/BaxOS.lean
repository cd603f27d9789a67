import BaxOS.Fs.Disjoint
import BaxOS.Fs.ListedTwice
import BaxOS.Fs.Trees
import BaxOS.Fs.GapExact
import BaxOS.Fs.Unchanged
import BaxOS.Fs.Header
import BaxOS.Fs.Truncated
import BaxOS.Fs.WalkBuffers
import BaxOS.Fs.ListExact
import BaxOS.Fs.RecentCoherent
import BaxOS.Storage.CacheExact
import BaxOS.Mem.FailsLate
import BaxOS.Mem.ShareExact
import BaxOS.Mem.VmIsolated
import BaxOS.Mem.ImagesPlaced
import BaxOS.Proc.Borrowed
import BaxOS.Proc.FutexRuns
import BaxOS.Proc.ExitTold
import BaxOS.Proc.SignalsUnseen
import BaxOS.Net.Timers
import BaxOS.Net.InputBounds
import BaxOS.Ipc.QueueRuns
import BaxOS.Ipc.PairRuns
import BaxOS.Sys.EpollRegistered
import BaxOS.Sys.ExportsWhole
import BaxOS.Sys.ExecWhole
import BaxOS.Sys.PathBuffers
import BaxOS.Console.KeysWhole
import BaxOS.Console.VgaWhole
import BaxOS.Ipc.PairBytes
import BaxOS.Ipc.PtyBytes
import BaxOS.Ipc.PtyLines
import BaxOS.Tuxpac.Order
import BaxOS.Tuxpac.Remove
import BaxOS.Tuxpac.Versions
import BaxOS.Tuxpac.Policy
import BaxOS.Tuxpac.TarExact
import BaxOS.Tuxpac.HttpExact
import BaxOS.Tuxpac.UnpackSafe
import BaxOS.Tuxpac.InflateExact
import BaxOS.Tuxpac.LzmaExact
import BaxOS.Tuxpac.UnpackSafe
