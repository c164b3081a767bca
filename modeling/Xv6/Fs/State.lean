import Xv6.Block
import Xv6.Lib.Prog

/-!
# State of the file system

The disk as `bread` returns it, with the inode blocks and the bitmap decoded, the inode cache, the
file table, the open ends of pipes, and of each process its current directory and descriptors. Sleep
locks of inodes are the locks of `FsProg`; of the log there is what decides its waits and panics,
the operations admitted and the blocks logged.
-/

namespace Xv6.Fs

open Function Lib

/-- `NDIRECT`. -/
def nDirect : Nat := 12

/-- `NINDIRECT`. -/
def nIndirect : Nat := bSize / 4

/-- `MAXFILE`. -/
def maxFile : Nat := nDirect + nIndirect

/-- `DIRSIZ`. -/
def dirSiz : Nat := 14

/-- `sizeof(struct dirent)`. -/
def direntSize : Nat := 2 + dirSiz

/-- `ROOTINO`. -/
def rootIno : Nat := 1

/-- `struct superblock`. -/
structure Superblock where
  size : Nat
  nblocks : Nat
  ninodes : Nat
  nlog : Nat
  logstart : Nat
  inodestart : Nat
  bmapstart : Nat

namespace Superblock

/-- `IBLOCK(i, sb)`. -/
def iblock (sb : Superblock) (inum : Nat) : Nat := inum / (bSize / 64) + sb.inodestart

/-- `BBLOCK(b, sb)`. -/
def bblock (sb : Superblock) (b : Nat) : Nat := b / (bSize * 8) + sb.bmapstart

end Superblock

/-- The values of `type` in an inode: `0`, `T_DIR`, `T_FILE` and `T_DEV`. -/
inductive FileType where
  | free
  | dir
  | file
  | dev
  deriving DecidableEq

/-- The value an `int` has in a variable of type `short`. -/
def short (value : Int) : Int := (value + 32768) % 65536 - 32768

/-- `struct dinode`. -/
structure Dinode where
  type : FileType
  major : Int
  minor : Int
  nlink : Int
  size : Nat
  addrs : Nat → Nat

/-- `memset(dip, 0, sizeof(*dip)); dip->type = type`. -/
def Dinode.fresh (type : FileType) : Dinode := ⟨type, 0, 0, 0, 0, fun _ => 0⟩

/-- The blocks of the disk by what they hold. -/
structure Disk where
  dinode : Nat → Dinode
  /-- Whether a block is marked in use. -/
  bitmap : Nat → Bool
  block : Nat → Block

/-- `struct inode`, less its lock. -/
structure Inode where
  dev : Nat
  inum : Nat
  ref : Nat
  valid : Bool
  /-- The copy of the disk inode. -/
  copy : Dinode

/-- The values of `type` in a `struct file`: `FD_NONE`, `FD_PIPE` and `FD_INODE`. -/
inductive FileKind where
  | none
  | pipe
  | inode
  deriving DecidableEq

/-- `struct file`. -/
structure File where
  kind : FileKind
  ref : Nat
  readable : Bool
  writable : Bool
  /-- Page of the pipe. -/
  pipe : Nat
  /-- Index of the cached inode. -/
  ip : Nat
  off : Nat

/-- `struct pipe` as far as files go: the ends that are open. Its page is given back to the
allocator when neither is. -/
structure Pipe where
  readopen : Bool
  writeopen : Bool

namespace Pipe

/-- Whether an end is open. -/
def isOpen (pipe : Pipe) (writable : Bool) : Bool :=
  if writable then pipe.writeopen else pipe.readopen

/-- Assign `writeopen` or `readopen`. -/
def setEnd (pipe : Pipe) (writable isOpen : Bool) : Pipe :=
  if writable then { pipe with writeopen := isOpen } else { pipe with readopen := isOpen }

end Pipe

/-- What a process has of the file system. -/
structure Proc where
  live : Bool
  /-- Index of the cached inode. -/
  cwd : Nat
  /-- Index into the file table. -/
  ofile : Nat → Option Nat

/-- The file system and its users. -/
structure State where
  disk : Disk
  /-- `icache.inode`. -/
  inode : Nat → Inode
  /-- `ftable.file`. -/
  file : Nat → File
  /-- The pipes, by the page that holds them. -/
  pipe : Nat → Pipe
  proc : Nat → Proc
  /-- `log.outstanding`. -/
  outstanding : Nat
  /-- `log.lh.block[0 .. log.lh.n)`. -/
  lh : List Nat
  /-- The blocks of each transaction that has ended, the oldest first. -/
  commits : List (List Nat)

/-- The inode number of the current directory of a process. -/
def State.cwdOf (s : State) (p : Nat) : Nat := (s.inode (s.proc p).cwd).inum

/-- The panics of the file system. -/
inductive Panic where
  /-- `"too big a transaction"`. -/
  | tooBig
  /-- `"log_write outside of trans"`. -/
  | outsideTrans
  /-- `"balloc: out of blocks"`. -/
  | outOfBlocks
  /-- `"freeing free block"`. -/
  | freeingFree
  /-- `"ialloc: no inodes"`. -/
  | ialloc
  /-- `"iget: no inodes"`. -/
  | iget
  /-- `"ilock"`. -/
  | ilock
  /-- `"ilock: no type"`. -/
  | noType
  /-- `"iunlock"`. -/
  | iunlock
  /-- `"bmap: out of range"`. -/
  | outOfRange
  /-- `"dirlookup not DIR"`. -/
  | notDir
  /-- `"dirlookup read"`. -/
  | dirlookupRead
  /-- `"dirlink read"`. -/
  | dirlinkRead
  /-- `"dirlink"`. -/
  | dirlink
  /-- `"isdirempty: readi"`. -/
  | isdirempty
  /-- `"unlink: nlink < 1"`. -/
  | nlink
  /-- `"unlink: writei"`. -/
  | unlinkWritei
  /-- `"create dots"`. -/
  | createDots
  /-- `"create: dirlink"`. -/
  | createDirlink
  /-- `"filedup"`. -/
  | filedup
  /-- `"fileclose"`. -/
  | fileclose
  /-- `"fileread"`. -/
  | fileread
  /-- `"filewrite"`. -/
  | filewrite
  /-- `"short filewrite"`. -/
  | shortFilewrite
  /-- `"init exiting"`. -/
  | initExiting
  deriving DecidableEq

/-- Code of the file system between two points. -/
abbrev FsM : Type → Type := Act State Panic

/-- Code of the file system that takes inode locks, each named by its cache index. -/
abbrev FsProg : Type → Type := Prog State Nat Panic

namespace State

/-- Assign a disk inode. -/
def setDinode (s : State) (inum : Nat) (dinode : Dinode) : State :=
  { s with disk := { s.disk with dinode := update s.disk.dinode inum dinode } }

/-- Assign a bit of the bitmap. -/
def setBit (s : State) (b : Nat) (used : Bool) : State :=
  { s with disk := { s.disk with bitmap := update s.disk.bitmap b used } }

/-- Assign a block. -/
def setBlock (s : State) (b : Nat) (block : Block) : State :=
  { s with disk := { s.disk with block := update s.disk.block b block } }

/-- Assign a cached inode. -/
def setInode (s : State) (ip : Nat) (inode : Inode) : State :=
  { s with inode := update s.inode ip inode }

/-- Assign the copy in a cached inode. -/
def setCopy (s : State) (ip : Nat) (copy : Dinode) : State :=
  s.setInode ip { s.inode ip with copy := copy }

/-- Assign an entry of the file table. -/
def setFile (s : State) (f : Nat) (file : File) : State :=
  { s with file := update s.file f file }

/-- Assign a pipe. -/
def setPipe (s : State) (q : Nat) (pipe : Pipe) : State :=
  { s with pipe := update s.pipe q pipe }

/-- Assign a process. -/
def setProc (s : State) (p : Nat) (proc : Proc) : State :=
  { s with proc := update s.proc p proc }

end State

end Xv6.Fs
