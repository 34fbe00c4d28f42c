import HavyOs.Sched.Stealing
import HavyOs.Sched.Zombies
import HavyOs.Sched.Owner
import HavyOs.Io.Matching
import HavyOs.Ipc.Pipe
import HavyOs.Lock.Deadlock
import HavyOs.Lock.Log
import HavyOs.Services.Consistency
import HavyOs.Services.Shelld
import HavyOs.Vfs.Listing
import HavyOs.Vfs.HartView
import HavyOs.Wasm.ModuleCache
import HavyOs.Tls.AppData
import HavyOs.Tls.WriteReport
import HavyOs.Tls.Framing
import HavyOs.P9.Replies
import HavyOs.P9.WriteFile
import HavyOs.P9.ReadFile
import HavyOs.P9.Readdir
import HavyOs.Net.Attended
import HavyOs.Net.Utils
import HavyOs.Net.Checksum
import HavyOs.Sched.Discipline
import HavyOs.Sched.Restart
import HavyOs.Io.Dispatch
import HavyOs.Elf.Image
import HavyOs.Wasm.Submission
import HavyOs.Bin.Lines
import HavyOs.Bin.Telnet
import HavyOs.Http.Request
import HavyOs.Http.Chunked
import HavyOs.Fs.ReadBounds
import HavyOs.Mkfs.Directories
import HavyOs.Vfs.Merge
import HavyOs.Utils.ResolvePath
import HavyOs.Fs.Names
import HavyOs.Fs.NoTrace
import HavyOs.Dtb.Devices
import HavyOs.Dtb.Bounds
import HavyOs.Dns.Parsing
