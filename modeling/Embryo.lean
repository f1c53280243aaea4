import Embryo.Alloc.Sizes
import Embryo.Block.Bounce
import Embryo.Block.Refcnt
import Embryo.Common.Chksum
import Embryo.Common.Env
import Embryo.Common.Mapenv
import Embryo.Drivers.Ata
import Embryo.Drivers.FbConsole
import Embryo.Drivers.FbFill
import Embryo.Drivers.Frames
import Embryo.Drivers.Xmit
import Embryo.Exec.Agree
import Embryo.Exec.Classes
import Embryo.Exec.Image
import Embryo.Fs.Entries
import Embryo.Fs.File
import Embryo.Fs.Listing
import Embryo.Fs.Partition
import Embryo.Fs.Sparse
import Embryo.Fs.Termio
import Embryo.Fs.Tftp
import Embryo.Fs.TftpRead
import Embryo.Fs.TftpWrite
import Embryo.Fs.Transmit
import Embryo.Fs.Walk
import Embryo.Inet.Cksum
import Embryo.Inet.Input
import Embryo.Inet.Insert
import Embryo.Inet.Options
import Embryo.Inet.Output
import Embryo.Inet.PcbConnect
import Embryo.Inet.Source
import Embryo.Kernel.Spl
import Embryo.Kernel.Uio
import Embryo.Kmem.Held
import Embryo.Kmem.Run
import Embryo.Lib.InetAddr
import Embryo.Lib.Open
import Embryo.Lib.Url
import Embryo.Lib.Vsprintf
import Embryo.Machine.Heap
import Embryo.Machine.Lockstep
import Embryo.Machine.Wire
import Embryo.Malloc.Checked
import Embryo.Net.Getconf
import Embryo.Net.Ifaof
import Embryo.Radix.Covering
import Embryo.Radix.Intern
import Embryo.Radix.Order
import Embryo.Radix.Rekey
import Embryo.Route.Gateway
import Embryo.Route.Model
import Embryo.Shell.Bang
import Embryo.Shell.Command
import Embryo.Shell.Getopt
import Embryo.Shell.Register
import Embryo.Sock.Close
import Embryo.Sock.Delivery
import Embryo.Sock.Limits
import Embryo.Sock.Payload
import Embryo.Uipc.Copydata
import Embryo.Uipc.Exhausted
import Embryo.Uipc.Intact
import Embryo.Uipc.Prepend
import Embryo.Uipc.Sharing
import Embryo.Uipc.Slice
import Embryo.Uipc.Trim
