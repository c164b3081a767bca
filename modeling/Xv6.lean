import Xv6.Console.Discipline
import Xv6.Fs.Dots
import Xv6.Fs.Full
import Xv6.Fs.Shared
import Xv6.Fs.LastPut
import Xv6.Log.Recovery
import Xv6.Log.Space
import Xv6.Grep.Lines
import Xv6.Memmove
import Xv6.Ide
import Xv6.Mp
import Xv6.Pipe.Bytes
import Xv6.Pipe.Wakeup
import Xv6.Proc.Kill
import Xv6.Proc.SleepLock
import Xv6.Sh.Runcmd
import Xv6.Sh.Words
import Xv6.Spinlock
import Xv6.Umalloc.Short
import Xv6.User.Bounds
import Xv6.User.Copy
import Xv6.User.Crontab
import Xv6.User.History
import Xv6.User.Text
import Xv6.Vm.OnDisk
import Xv6.Vm.Spaces
import Xv6.Xvedit.Find
import Xv6.Xvedit.Lines
import Xv6.Xvedit.Session
