import Mathlib.Algebra.Group.Nat.Defs

/-!
# Kernel parameters

The constants of `param.h`, `fs.h`, `stat.h` and `fcntl.h` that the modelled functions read.
-/

namespace Xv6

/-- `NINODE` — entries of the inode cache. -/
def nInode : Nat := 50

/-- `MAXOPBLOCKS` — blocks any file-system operation may log. -/
def maxOpBlocks : Nat := 10

/-- `LOGSIZE` — data blocks of the on-disk log. -/
def logSize : Nat := maxOpBlocks * 3

/-- `BSIZE` — bytes of a block. -/
def bSize : Nat := 512

/-- `NPROC` — processes. -/
def nProc : Nat := 64

/-- `NCPU` — processors. -/
def nCpu : Nat := 8

/-- `NOFILE` — open files of a process. -/
def nOFile : Nat := 16

/-- `NFILE` — open files of the system. -/
def nFile : Nat := 100

/-- `NDEV` — major device numbers. -/
def nDev : Nat := 10

/-- `ROOTDEV` — device of the root file system. -/
def rootDev : Nat := 1

end Xv6
