import Xv6.Fs.State

/-!
# Blocks and inodes

The first half of `fs.c`: allocation of blocks and inodes, the inode cache, and the contents of
an inode, with `log_write`, `begin_op` and `end_op` of `log.c`. A function that takes no inode
lock is an action; one that does is a program.
-/

namespace Xv6.Fs

open Function Lib

variable (sb : Superblock)

/-- `log_write` of a block; the bytes are already in the cache. -/
def logWrite (blockno : Nat) : FsM Unit := do
  let s ← get
  if s.lh.length ≥ logSize ∨ s.lh.length + 1 ≥ sb.nlog then throw .tooBig
  else if s.outstanding < 1 then throw .outsideTrans
  else set { s with lh := if blockno ∈ s.lh then s.lh else s.lh ++ [blockno] }

/-- `begin_op`. -/
def beginOp : FsProg Unit :=
  .await (fun s => s.lh.length + (s.outstanding + 1) * maxOpBlocks ≤ logSize) <|
    .lift <| modify fun s => { s with outstanding := s.outstanding + 1 }

/-- `end_op`; `commit` leaves the blocks as `bread` returns them. -/
def endOp : FsProg Unit :=
  .lift <| modify fun s =>
    { s with
      outstanding := s.outstanding - 1
      lh := if s.outstanding = 1 then [] else s.lh
      commits := if s.outstanding = 1 then s.commits ++ [s.lh] else s.commits }

/-- `bzero`. -/
def bzero (bno : Nat) : FsM Unit := do
  modify fun s => s.setBlock bno Block.zero
  logWrite sb bno

/-- `balloc`: the first block whose bit is clear. -/
def balloc : FsM Nat := do
  let s ← get
  match (List.range sb.size).find? fun b => !s.disk.bitmap b with
  | some b =>
    modify fun s => s.setBit b true
    logWrite sb (sb.bblock b)
    bzero sb b
    return b
  | none => throw .outOfBlocks

/-- `bfree`. -/
def bfree (b : Nat) : FsM Unit := do
  let s ← get
  if s.disk.bitmap b = false then throw .freeingFree
  else
    modify fun s => s.setBit b false
    logWrite sb (sb.bblock b)

/-- `iget`. -/
def iget (dev inum : Nat) : FsM Nat := do
  let s ← get
  match (List.range nInode).find? fun ip =>
      0 < (s.inode ip).ref && (s.inode ip).dev == dev && (s.inode ip).inum == inum with
  | some ip =>
    set (s.setInode ip { s.inode ip with ref := (s.inode ip).ref + 1 })
    return ip
  | none =>
    match (List.range nInode).find? fun ip => (s.inode ip).ref == 0 with
    | some ip =>
      set (s.setInode ip { s.inode ip with dev := dev, inum := inum, ref := 1, valid := false })
      return ip
    | none => throw .iget

/-- `idup`. -/
def idup (ip : Nat) : FsM Nat := do
  modify fun s => s.setInode ip { s.inode ip with ref := (s.inode ip).ref + 1 }
  return ip

/-- `ialloc`: the first free inode from 1 on. -/
def ialloc (dev : Nat) (type : FileType) : FsM Nat := do
  let s ← get
  match (List.range' 1 (sb.ninodes - 1)).find? fun inum => (s.disk.dinode inum).type == .free with
  | some inum =>
    modify fun s => s.setDinode inum (.fresh type)
    logWrite sb (sb.iblock inum)
    iget dev inum
  | none => throw .ialloc

/-- `iupdate`. -/
def iupdate (ip : Nat) : FsM Unit := do
  let s ← get
  set (s.setDinode (s.inode ip).inum (s.inode ip).copy)
  logWrite sb (sb.iblock (s.inode ip).inum)

/-- Allocate a block for `ip->addrs[k]`. -/
def ballocAddr (ip k : Nat) : FsM Nat := do
  let addr ← balloc sb
  let s ← get
  let copy := (s.inode ip).copy
  set (s.setCopy ip { copy with addrs := update copy.addrs k addr })
  return addr

/-- The part of `bmap` that looks in the indirect block. -/
def bmapIndirect (ip bn : Nat) : FsM Nat := do
  let s ← get
  let addr := (s.inode ip).copy.addrs nDirect
  if (s.disk.block addr).word bn = 0 then
    let entry ← balloc sb
    modify fun s => s.setBlock addr ((s.disk.block addr).setWord bn entry)
    logWrite sb addr
    return entry
  else return (s.disk.block addr).word bn

/-- `bmap`. -/
def bmap (ip bn : Nat) : FsM Nat := do
  let s ← get
  if bn < nDirect then
    if (s.inode ip).copy.addrs bn = 0 then ballocAddr sb ip bn
    else return (s.inode ip).copy.addrs bn
  else if bn - nDirect < nIndirect then
    if (s.inode ip).copy.addrs nDirect = 0 then
      let _ ← ballocAddr sb ip nDirect
      bmapIndirect sb ip (bn - nDirect)
    else bmapIndirect sb ip (bn - nDirect)
  else throw .outOfRange

/-- The first loop of `itrunc`. -/
def truncDirect (ip : Nat) : FsM Unit :=
  (List.range nDirect).forM fun i => do
    let s ← get
    if (s.inode ip).copy.addrs i ≠ 0 then
      bfree sb ((s.inode ip).copy.addrs i)
      let s ← get
      let copy := (s.inode ip).copy
      set (s.setCopy ip { copy with addrs := update copy.addrs i 0 })

/-- The second loop of `itrunc`, over the words of the indirect block. -/
def truncIndirect (words : Block) : FsM Unit :=
  (List.range nIndirect).forM fun j => if words.word j ≠ 0 then bfree sb (words.word j) else pure ()

/-- The part of `itrunc` that frees the indirect block. -/
def truncTree (ip : Nat) : FsM Unit := do
  let s ← get
  let addr := (s.inode ip).copy.addrs nDirect
  truncIndirect sb (s.disk.block addr)
  bfree sb addr
  let s ← get
  let copy := (s.inode ip).copy
  set (s.setCopy ip { copy with addrs := update copy.addrs nDirect 0 })

/-- `itrunc`. -/
def itrunc (ip : Nat) : FsM Unit := do
  truncDirect sb ip
  let s ← get
  if (s.inode ip).copy.addrs nDirect ≠ 0 then truncTree sb ip
  let s ← get
  set (s.setCopy ip { (s.inode ip).copy with size := 0 })
  iupdate sb ip

/-- `acquiresleep(&ip->lock)`. -/
def acquiresleep (ip : Nat) : FsProg Unit := .acquire ip (.ret ())

/-- `releasesleep(&ip->lock)`. -/
def releasesleep (ip : Nat) : FsProg Unit := .release ip (.ret ())

/-- `acquire(&icache.lock)`: another process may run before; what the lock protects is then done
in one step. -/
def acquireIcache : FsProg Unit := .await (fun _ => true) (.ret ())

/-- What `ilock` does once it has the lock. -/
def ilockRead (ip : Nat) : FsM Unit := do
  let s ← get
  if (s.inode ip).valid = false then
    let copy := s.disk.dinode (s.inode ip).inum
    set (s.setInode ip { s.inode ip with copy := copy, valid := true })
    if copy.type = .free then throw .noType

/-- `ilock`. -/
def ilock (ip : Nat) : FsProg Unit := do
  let s ← get
  if (s.inode ip).ref < 1 then .panic .ilock
  else
    acquiresleep ip
    ilockRead ip

/-- `iunlock`. -/
def iunlock (ip : Nat) : FsProg Unit :=
  .holding ip fun held => do
    let s ← get
    if held = false ∨ (s.inode ip).ref < 1 then .panic .iunlock else releasesleep ip

/-- What `iput` does to the last reference to an inode with no links. -/
def iputFree (ip : Nat) : FsM Unit := do
  itrunc sb ip
  modify fun s => s.setCopy ip { (s.inode ip).copy with type := .free }
  iupdate sb ip
  modify fun s => s.setInode ip { s.inode ip with valid := false }

/-- `iput`. -/
def iput (ip : Nat) : FsProg Unit := do
  acquiresleep ip
  let s ← get
  if (s.inode ip).valid ∧ (s.inode ip).copy.nlink = 0 then
    acquireIcache
    let s ← get
    if (s.inode ip).ref = 1 then iputFree sb ip
  releasesleep ip
  acquireIcache
  modify fun s => s.setInode ip { s.inode ip with ref := (s.inode ip).ref - 1 }

/-- `iunlockput`. -/
def iunlockput (ip : Nat) : FsProg Unit := do
  iunlock ip
  iput sb ip

/-- The loop of `readi`, with a bound on its iterations. -/
def readLoop (ip : Nat) : Nat → Nat → Nat → FsM (List UInt8)
  | 0, _, _ => pure []
  | fuel + 1, off, n =>
    if n = 0 then pure []
    else do
      let addr ← bmap sb ip (off / bSize)
      let s ← get
      let m := min n (bSize - off % bSize)
      let bytes := (List.range m).map fun t => s.disk.block addr (off % bSize + t)
      let rest ← readLoop ip fuel (off + m) (n - m)
      return bytes ++ rest

/-- `readi` of an inode that is not a device; `none` is the result `-1`. -/
def readBlocks (ip off n : Nat) : FsM (Option (List UInt8)) := do
  let s ← get
  let size := (s.inode ip).copy.size
  if off > size ∨ off + n ≥ 2 ^ 32 then return none
  else
    let n := if off + n > size then size - off else n
    let bytes ← readLoop sb ip n off n
    return some bytes

/-- The loop of `writei`, with a bound on its iterations. -/
def writeLoop (ip : Nat) : Nat → Nat → List UInt8 → FsM Unit
  | 0, _, _ => pure ()
  | fuel + 1, off, src =>
    if src = [] then pure ()
    else do
      let addr ← bmap sb ip (off / bSize)
      let m := min src.length (bSize - off % bSize)
      modify fun s => s.setBlock addr ((s.disk.block addr).store (off % bSize) (src.take m))
      logWrite sb addr
      writeLoop ip fuel (off + m) (src.drop m)

/-- `writei` of an inode that is not a device; `none` is the result `-1`. -/
def writeBlocks (ip off : Nat) (src : List UInt8) : FsM (Option Nat) := do
  let s ← get
  if off > (s.inode ip).copy.size ∨ off + src.length ≥ 2 ^ 32 then return none
  else if off + src.length > maxFile * bSize then return none
  else
    writeLoop sb ip src.length off src
    let s ← get
    if 0 < src.length ∧ off + src.length > (s.inode ip).copy.size then
      set (s.setCopy ip { (s.inode ip).copy with size := off + src.length })
      iupdate sb ip
    return some src.length

/-- The major number of the console, the only device that has functions. -/
def console : Int := 1

/-- Whether `devsw` has functions for a device. -/
def hasDriver (major : Int) : Bool := 0 ≤ major && major < nDev && major == console

/-- `consoleread` and `consolewrite` as far as the inode goes; what the device answers is given. -/
def driver {α : Type} (ip : Nat) (answer : α) : FsProg α := do
  iunlock ip
  ilock ip
  return answer

/-- `readi`; a device answers with the given bytes or with `-1`. -/
def readi (ip off n : Nat) (device : Option (List UInt8)) : FsProg (Option (List UInt8)) := do
  let s ← get
  if (s.inode ip).copy.type = .dev then
    if hasDriver (s.inode ip).copy.major then driver ip device else return none
  else readBlocks sb ip off n

/-- `writei`. -/
def writei (ip off : Nat) (src : List UInt8) : FsProg (Option Nat) := do
  let s ← get
  if (s.inode ip).copy.type = .dev then
    if hasDriver (s.inode ip).copy.major then driver ip (some src.length) else return none
  else writeBlocks sb ip off src

end Xv6.Fs
