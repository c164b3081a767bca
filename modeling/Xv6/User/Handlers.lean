import Xv6.Fs.Syscall
import Xv6.Lib.Footprint

/-!
# System calls that touch user memory

The argument fetches of `syscall.c` and the handlers of `read`, `write`, `fstat`, `pipe` and
`date` down to the functions that load or store user memory (`fileread`, `readi`, `consoleread`,
`piperead`, their counterparts for writing, `stati` and `cmostime`). Addresses are machine words,
so every sum is taken modulo `2 ^ 32`, and every byte loaded or stored is recorded. What the rest
of the kernel decides (open files, contents, how much a pipe has or takes, typed characters, the
clock) is an arbitrary `Env`.
-/

namespace Xv6.User

open Xv6.Fs (FileKind)

/-- A machine word: an `int`, a `uint` or an address. -/
abbrev Word := BitVec 32

/-- A byte of memory. -/
abbrev Byte := BitVec 8

/-- `KERNBASE`. -/
def kernbase : Nat := 0x80000000

/-- User memory, and the addresses the kernel has loaded from or stored to, latest first. -/
structure Memory where
  byte : Word → Byte
  touched : List Word

/-- Kernel code that touches user memory. -/
abbrev UserM := StateM Memory

/-- Load a byte of user memory. -/
def load (a : Word) : UserM Byte := fun m =>
  (m.byte a, { m with touched := a :: m.touched })

/-- Store a byte to user memory. -/
def store (a : Word) (b : Byte) : UserM Unit := fun m =>
  ((), { byte := Function.update m.byte a b, touched := a :: m.touched })

/-- Load consecutive bytes. -/
def loadBytes : Word → Nat → UserM (List Byte)
  | _, 0 => pure []
  | a, n + 1 => do
    let b ← load a
    let bytes ← loadBytes (a + 1) n
    return b :: bytes

/-- Store consecutive bytes. -/
def storeBytes : Word → List Byte → UserM Unit
  | _, [] => pure ()
  | a, b :: bytes => do
    store a b
    storeBytes (a + 1) bytes

/-- The bytes of a little-endian `short`. -/
def shortBytes (w : BitVec 16) : List Byte := [w.extractLsb' 0 8, w.extractLsb' 8 8]

/-- The bytes of a little-endian word. -/
def wordBytes (w : Word) : List Byte :=
  [w.extractLsb' 0 8, w.extractLsb' 8 8, w.extractLsb' 16 8, w.extractLsb' 24 8]

/-- The word of little-endian bytes. -/
def wordOf (bytes : List Byte) : Word :=
  (bytes.getD 3 0 ++ bytes.getD 2 0 ++ bytes.getD 1 0 ++ bytes.getD 0 0 : BitVec (8 + 8 + 8 + 8))

/-- Load a word. -/
def loadWord (a : Word) : UserM Word := do
  let bytes ← loadBytes a 4
  return wordOf bytes

/-- Store a word. -/
def storeWord (a w : Word) : UserM Unit := storeBytes a (wordBytes w)

/-- The calling process: its size and the user stack pointer of its trap frame. -/
structure Process where
  sz : Word
  esp : Word

/-- `struct file`, less the reference count and the objects it points to. -/
structure OpenFile where
  kind : FileKind
  readable : Bool
  writable : Bool

/-- The fields of a `struct inode` that `readi`, `writei` and `stati` read, and `f->off`. -/
structure View where
  dev : Word
  inum : Word
  type : BitVec 16
  major : BitVec 16
  nlink : BitVec 16
  size : Word
  off : Word

/-- `struct rtcdate`. -/
structure RtcDate where
  second : Word
  minute : Word
  hour : Word
  day : Word
  month : Word
  year : Word

/-- What the rest of the kernel decides during one call. -/
structure Env where
  /-- `myproc()->ofile`. -/
  ofile : Nat → Option OpenFile
  /-- The inode and the offset as the `k`-th `ilock` of the call finds them. -/
  view : Nat → View
  /-- The byte of the file at an offset. -/
  data : Word → Byte
  /-- What the pipe holds once `piperead` has waited; `none` if the process was killed. -/
  pipe : Option (List Byte)
  /-- How many bytes a pipe takes before its read end closes or the process is killed. -/
  room : Nat
  /-- The characters the console gives; the process is killed when there are no more. -/
  input : List Byte
  /-- The descriptors `sys_pipe` allocates, or `none` if it fails. -/
  fds : Option (Word × Word)
  /-- `t1` of `cmostime` after the conversion. -/
  clock : RtcDate

variable (p : Process) (env : Env)

/-- `fetchint`; `none` is the result `-1`. -/
def fetchint (addr : Word) : UserM (Option Word) :=
  if addr ≥ p.sz ∨ addr + 4 > p.sz then pure none
  else some <$> loadWord addr

/-- `argint`. -/
def argint (n : Nat) : UserM (Option Word) := fetchint p (p.esp + 4 + 4 * BitVec.ofNat 32 n)

/-- `argptr`; `size` is an `int`. -/
def argptr (n : Nat) (size : Word) : UserM (Option Word) := do
  match ← argint p n with
  | none => return none
  | some i =>
    if size.toInt < 0 ∨ i ≥ p.sz ∨ i + size > p.sz then return none
    else return some i

/-- `argfd`. -/
def argfd (n : Nat) : UserM (Option OpenFile) := do
  match ← argint p n with
  | none => return none
  | some fd => return if fd.toInt < 0 ∨ fd.toInt ≥ nOFile then none else env.ofile fd.toNat

/-- `T_DEV`. -/
def tDev : BitVec 16 := 3

/-- `C('D')`. -/
def ctrlD : Byte := 4

/-- A newline. -/
def newline : Byte := 10

/-- The loop of `consoleread` over the characters still wanted; how many it stores, or `none` if
the process is killed first. -/
def consoleLoop : Nat → Word → List Byte → UserM (Option Nat)
  | 0, _, _ => return some 0
  | _ + 1, _, [] => return none
  | n + 1, dst, c :: input =>
    if c = ctrlD then return some 0
    else do
      store dst c
      if c = newline then return some 1
      else
        let stored ← consoleLoop n (dst + 1) input
        return stored.map (· + 1)

/-- `consoleread`. -/
def consoleread (dst n : Word) : UserM Int := do
  match ← consoleLoop n.toInt.toNat dst env.input with
  | none => return -1
  | some stored => return stored

/-- `consolewrite`. -/
def consolewrite (buf n : Word) : UserM Int := do
  let _ ← loadBytes buf n.toInt.toNat
  return n.toInt

/-- The loop of `readi` over the bytes left, with a bound on its iterations. -/
def readLoop : Nat → Word → Word → Nat → UserM Unit
  | 0, _, _, _ => pure ()
  | fuel + 1, dst, off, left =>
    if left = 0 then pure ()
    else do
      let m := min left (bSize - off.toNat % bSize)
      storeBytes dst ((List.range m).map fun t => env.data (off + BitVec.ofNat 32 t))
      readLoop fuel (dst + BitVec.ofNat 32 m) (off + BitVec.ofNat 32 m) (left - m)

/-- `readi`. -/
def readi (v : View) (dst n : Word) : UserM Int := do
  if v.type = tDev then
    if Fs.hasDriver v.major.toInt then consoleread env dst n else return -1
  else if v.off > v.size ∨ v.off + n < v.off then return -1
  else
    let n := if v.off + n > v.size then v.size - v.off else n
    readLoop env n.toNat dst v.off n.toNat
    return n.toNat

/-- The loop of `writei` over the bytes left, with a bound on its iterations. -/
def writeLoop : Nat → Word → Word → Nat → UserM Unit
  | 0, _, _, _ => pure ()
  | fuel + 1, src, off, left =>
    if left = 0 then pure ()
    else do
      let m := min left (bSize - off.toNat % bSize)
      let _ ← loadBytes src m
      writeLoop fuel (src + BitVec.ofNat 32 m) (off + BitVec.ofNat 32 m) (left - m)

/-- `writei`. -/
def writei (v : View) (src n : Word) : UserM Int := do
  if v.type = tDev then
    if Fs.hasDriver v.major.toInt then consolewrite src n else return -1
  else if v.off > v.size ∨ v.off + n < v.off then return -1
  else if (v.off + n).toNat > Fs.maxFile * bSize then return -1
  else
    writeLoop n.toNat src v.off n.toNat
    return n.toNat

/-- `piperead`. -/
def piperead (addr n : Word) : UserM Int := do
  match env.pipe with
  | none => return -1
  | some bytes =>
    storeBytes addr (bytes.take n.toInt.toNat)
    return (bytes.take n.toInt.toNat).length

/-- `pipewrite`. -/
def pipewrite (addr n : Word) : UserM Int := do
  let _ ← loadBytes addr (min n.toInt.toNat env.room)
  return if env.room < n.toInt.toNat then -1 else n.toInt

/-- `fileread`; `none` is a panic. -/
def fileread (f : OpenFile) (addr n : Word) : UserM (Option Int) := do
  if f.readable = false then return some (-1)
  else
    match f.kind with
    | .pipe => some <$> piperead env addr n
    | .inode => some <$> readi env (env.view 0) addr n
    | .none => return none

/-- The loop of `filewrite` from its `k`-th turn over the bytes left, with a bound on its
iterations: whether it writes them all, or `none` for a panic. -/
def filewriteLoop : Nat → Nat → Word → Nat → UserM (Option Bool)
  | 0, _, _, left => return some (left = 0)
  | fuel + 1, k, addr, left =>
    if left = 0 then return some true
    else do
      let n1 := min left Fs.maxWrite
      let r ← writei (env.view k) addr (BitVec.ofNat 32 n1)
      if r < 0 then return some false
      else if r ≠ n1 then return none
      else filewriteLoop fuel (k + 1) (addr + BitVec.ofNat 32 n1) (left - n1)

/-- `filewrite`; `none` is a panic. -/
def filewrite (f : OpenFile) (addr n : Word) : UserM (Option Int) := do
  if f.writable = false then return some (-1)
  else
    match f.kind with
    | .pipe => some <$> pipewrite env addr n
    | .inode =>
      let wrote ← filewriteLoop env n.toInt.toNat 0 addr n.toInt.toNat
      return wrote.map fun (all : Bool) => if all ∧ 0 ≤ n.toInt then n.toInt else -1
    | .none => return none

/-- `sizeof(struct stat)`. -/
def statSize : Word := 20

/-- `stati`, with the offsets the compiler gives the fields of `struct stat`. -/
def stati (v : View) (st : Word) : UserM Unit := do
  storeWord (st + 4) v.dev
  storeWord (st + 8) v.inum
  storeBytes st (shortBytes v.type)
  storeBytes (st + 12) (shortBytes v.nlink)
  storeWord (st + 16) v.size

/-- `filestat`. -/
def filestat (f : OpenFile) (st : Word) : UserM Int := do
  if f.kind = .inode then
    stati (env.view 0) st
    return 0
  else return -1

/-- The bytes of a `struct rtcdate`. -/
def rtcdateBytes (t : RtcDate) : List Byte :=
  wordBytes t.second ++ wordBytes t.minute ++ wordBytes t.hour ++
    wordBytes t.day ++ wordBytes t.month ++ wordBytes t.year

/-- What `cmostime` does with its argument. -/
def cmostime (r : Word) : UserM Unit := do
  storeBytes r (rtcdateBytes env.clock)
  let year ← loadWord (r + 20)
  storeWord (r + 20) (year + 2000)

/-- The body that `sys_read` and `sys_write` share; `none` is a panic. -/
def transfer (act : OpenFile → Word → Word → UserM (Option Int)) : UserM (Option Int) := do
  match ← argfd p env 0 with
  | none => return some (-1)
  | some f =>
    match ← argint p 2 with
    | none => return some (-1)
    | some n =>
      match ← argptr p 1 n with
      | none => return some (-1)
      | some addr => act f addr n

/-- `sys_read`. -/
def sysRead : UserM (Option Int) := transfer p env (fileread env)

/-- `sys_write`. -/
def sysWrite : UserM (Option Int) := transfer p env (filewrite env)

/-- `sys_fstat`. -/
def sysFstat : UserM (Option Int) := do
  match ← argfd p env 0 with
  | none => return some (-1)
  | some f =>
    match ← argptr p 1 statSize with
    | none => return some (-1)
    | some st => some <$> filestat env f st

/-- `sys_pipe`; the array it fills has two `int`s. -/
def sysPipe : UserM (Option Int) := do
  match ← argptr p 0 8 with
  | none => return some (-1)
  | some fd =>
    match env.fds with
    | none => return some (-1)
    | some (fd0, fd1) =>
      storeWord fd fd0
      storeWord (fd + 4) fd1
      return some 0

/-- The pointer `sys_date` goes on with. Its size is that of the pointer `r`, not of what `r`
points to. -/
def datePtr : UserM (Option Word) := argptr p 0 4

/-- `sys_date`. -/
def sysDate : UserM (Option Int) := do
  match ← datePtr p with
  | none => return some (-1)
  | some r =>
    cmostime env r
    return some 0

/-- The system calls whose arguments point to user memory of a given size. -/
inductive Call where
  | read
  | write
  | fstat
  | pipe
  | date
  deriving DecidableEq

/-- The handler of a call. -/
def syscall : Call → UserM (Option Int)
  | .read => sysRead p env
  | .write => sysWrite p env
  | .fstat => sysFstat p env
  | .pipe => sysPipe p env
  | .date => sysDate p env

/-- The addresses of user memory that a call loads from or stores to. -/
def accesses (byte : Word → Byte) (call : Call) : List Word :=
  (syscall p env call ⟨byte, []⟩).2.touched

end Xv6.User
