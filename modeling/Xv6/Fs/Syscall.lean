import Xv6.Fs.Dir

/-!
# System calls of the file system

`file.c`, `sysfile.c` and what `fork`, `exit` and `exec` do to files, for process `p`. The results
are the return values. Arguments arrive as values: fetching them is not part of the model. The
bytes in pipes are not part of it either: what a pipe answers is given.
-/

namespace Xv6.Fs

open Lib

variable (sb : Superblock)

/-- `O_WRONLY`. -/
def oWronly : Nat := 1

/-- `O_RDWR`. -/
def oRdwr : Nat := 2

/-- `O_CREATE`. -/
def oCreate : Nat := 512

/-- `filealloc`. -/
def filealloc : FsM (Option Nat) := do
  let s ← get
  match (List.range nFile).find? fun f => (s.file f).ref == 0 with
  | some f =>
    set (s.setFile f { s.file f with ref := 1 })
    return some f
  | none => return none

/-- `filedup`. -/
def filedup (f : Nat) : FsM Unit := do
  let s ← get
  if (s.file f).ref < 1 then throw .filedup
  else set (s.setFile f { s.file f with ref := (s.file f).ref + 1 })

/-- `pipeclose`. -/
def pipeclose (q : Nat) (writable : Bool) : FsM Unit :=
  modify fun s => s.setPipe q ((s.pipe q).setEnd writable false)

/-- `fileclose`. -/
def fileclose (f : Nat) : FsProg Unit := do
  let s ← get
  if (s.file f).ref < 1 then .panic .fileclose
  else if 0 < (s.file f).ref - 1 then
    set (s.setFile f { s.file f with ref := (s.file f).ref - 1 })
  else
    let ff := s.file f
    set (s.setFile f { s.file f with ref := 0, kind := .none })
    if ff.kind = .pipe then pipeclose ff.pipe ff.writable
    else if ff.kind = .inode then
      beginOp
      iput sb ff.ip
      endOp

/-- `argfd`: the open file of a descriptor. -/
def argfd (p fd : Nat) : FsM (Option Nat) := do
  let s ← get
  return if fd < nOFile then (s.proc p).ofile fd else none

/-- Assign a descriptor. -/
def setFd (p fd : Nat) (file : Option Nat) : FsM Unit :=
  modify fun s =>
    s.setProc p { s.proc p with ofile := Function.update (s.proc p).ofile fd file }

/-- `fdalloc`. -/
def fdalloc (p f : Nat) : FsM (Option Nat) := do
  let s ← get
  match (List.range nOFile).find? fun fd => (s.proc p).ofile fd == none with
  | some fd =>
    setFd p fd (some f)
    return some fd
  | none => return none

/-- `sys_dup`. -/
def sysDup (p fd : Nat) : FsProg Int := do
  match ← argfd p fd with
  | none => return -1
  | some f =>
    match ← fdalloc p f with
    | none => return -1
    | some fd =>
      filedup f
      return fd

/-- `sys_read`, with the answer of a device or a pipe. -/
def sysRead (p fd n : Nat) (device : Option (List UInt8)) : FsProg Int := do
  match ← argfd p fd with
  | none => return -1
  | some f =>
    let s ← get
    if (s.file f).readable = false then return -1
    else if (s.file f).kind = .pipe then
      return match device with
        | some bytes => bytes.length
        | none => -1
    else if (s.file f).kind = .inode then
      ilock (s.file f).ip
      let result ← readi sb (s.file f).ip (s.file f).off n device
      let s ← get
      let read := (result.getD []).length
      set (s.setFile f { s.file f with off := (s.file f).off + read })
      iunlock (s.file f).ip
      return match result with
        | some bytes => bytes.length
        | none => -1
    else .panic .fileread

/-- The most bytes `filewrite` writes in one transaction. -/
def maxWrite : Nat := (maxOpBlocks - 1 - 1 - 2) / 2 * 512

/-- The loop of `filewrite` over the bytes left, with a bound on its iterations; whether it
wrote them all. -/
def filewriteLoop (f : Nat) : Nat → List UInt8 → FsProg Bool
  | 0, src => return src = []
  | fuel + 1, src =>
    if src = [] then return true
    else do
      let chunk := src.take maxWrite
      beginOp
      let s ← get
      ilock (s.file f).ip
      let s ← get
      let result ← writei sb (s.file f).ip (s.file f).off chunk
      let s ← get
      set (s.setFile f { s.file f with off := (s.file f).off + result.getD 0 })
      iunlock (s.file f).ip
      endOp
      match result with
      | none => return false
      | some written =>
        if written ≠ chunk.length then .panic .shortFilewrite
        else filewriteLoop f fuel (src.drop maxWrite)

/-- `sys_write`; whether a pipe takes all the bytes is given. -/
def sysWrite (p fd : Nat) (src : List UInt8) (taken : Bool) : FsProg Int := do
  match ← argfd p fd with
  | none => return -1
  | some f =>
    let s ← get
    if (s.file f).writable = false then return -1
    else if (s.file f).kind = .pipe then return if taken then src.length else -1
    else if (s.file f).kind = .inode then
      let all ← filewriteLoop sb f src.length src
      return if all then src.length else -1
    else .panic .filewrite

/-- `sys_close`. -/
def sysClose (p fd : Nat) : FsProg Int := do
  match ← argfd p fd with
  | none => return -1
  | some f =>
    setFd p fd none
    fileclose sb f
    return 0

/-- `pipealloc` with the page that `kalloc` returns; the files of the read and the write end. -/
def pipealloc (page : Option Nat) : FsProg (Option (Nat × Nat)) := do
  match ← filealloc with
  | none => return none
  | some f0 =>
    match ← filealloc with
    | none =>
      fileclose sb f0
      return none
    | some f1 =>
      match page with
      | none =>
        fileclose sb f0
        fileclose sb f1
        return none
      | some q =>
        modify fun s => s.setPipe q ⟨true, true⟩
        modify fun s => s.setFile f0 { s.file f0 with
          kind := .pipe, readable := true, writable := false, pipe := q }
        modify fun s => s.setFile f1 { s.file f1 with
          kind := .pipe, readable := false, writable := true, pipe := q }
        return some (f0, f1)

/-- `sys_pipe`. -/
def sysPipe (p : Nat) (page : Option Nat) : FsProg Int := do
  match ← pipealloc sb page with
  | none => return -1
  | some (rf, wf) =>
    match ← fdalloc p rf with
    | none =>
      fileclose sb rf
      fileclose sb wf
      return -1
    | some fd0 =>
      match ← fdalloc p wf with
      | none =>
        setFd p fd0 none
        fileclose sb rf
        fileclose sb wf
        return -1
      | some _ => return 0

/-- Add to the link count of a cached inode and write it to disk. -/
def addLink (ip : Nat) (count : Int) : FsM Unit := do
  let s ← get
  let copy := (s.inode ip).copy
  set (s.setCopy ip { copy with nlink := Fs.short (copy.nlink + count) })
  iupdate sb ip

/-- The label `bad` of `sys_link`. -/
def linkBad (ip : Nat) : FsProg Int := do
  ilock ip
  addLink sb ip (-1)
  iunlockput sb ip
  endOp
  return -1

/-- `sys_link` once it has the directory of the new name. -/
def linkInto (ip dp : Nat) (name : List UInt8) : FsProg Int := do
  ilock dp
  let s ← get
  let linked ← if (s.inode dp).dev ≠ (s.inode ip).dev then pure false
    else dirlink sb dp name (s.inode ip).inum
  if linked = false then
    iunlockput sb dp
    linkBad sb ip
  else
    iunlockput sb dp
    iput sb ip
    endOp
    return 0

/-- `sys_link`. -/
def sysLink (p : Nat) (old new : List UInt8) : FsProg Int := do
  beginOp
  match ← namei sb p old with
  | none =>
    endOp
    return -1
  | some ip =>
    ilock ip
    let s ← get
    if (s.inode ip).copy.type = .dir then
      iunlockput sb ip
      endOp
      return -1
    else
      addLink sb ip 1
      iunlock ip
      match ← nameiparent sb p new with
      | none => linkBad sb ip
      | some (dp, name) => linkInto sb ip dp name

/-- The loop of `isdirempty` over the offsets left. -/
def isdiremptyFrom (dp : Nat) : List Nat → FsProg Bool
  | [] => return true
  | off :: rest => do
    let de ← readDirent sb dp off .isdirempty
    if de.inum ≠ 0 then return false else isdiremptyFrom dp rest

/-- `isdirempty`. -/
def isdirempty (dp : Nat) : FsProg Bool := do
  let s ← get
  isdiremptyFrom sb dp (direntOffsets (2 * direntSize) (s.inode dp).copy.size)

/-- The label `bad` of `sys_unlink`. -/
def unlinkBad (dp : Nat) : FsProg Int := do
  iunlockput sb dp
  endOp
  return -1

/-- `sys_unlink` once it is to remove the entry. -/
def unlinkEntry (dp ip off : Nat) : FsProg Int := do
  let written ← writei sb dp off (List.replicate direntSize 0)
  if written ≠ some direntSize then .panic .unlinkWritei
  else
    let s ← get
    if (s.inode ip).copy.type = .dir then addLink sb dp (-1)
    iunlockput sb dp
    addLink sb ip (-1)
    iunlockput sb ip
    endOp
    return 0

/-- `sys_unlink` once it has found the entry. -/
def unlinkFound (dp ip off : Nat) : FsProg Int := do
  ilock ip
  let s ← get
  if (s.inode ip).copy.nlink < 1 then .panic .nlink
  else
    let full ← if (s.inode ip).copy.type = .dir then do
        let empty ← isdirempty sb ip
        pure !empty
      else pure false
    if full then
      iunlockput sb ip
      unlinkBad sb dp
    else unlinkEntry sb dp ip off

/-- `sys_unlink`. -/
def sysUnlink (p : Nat) (path : List UInt8) : FsProg Int := do
  beginOp
  match ← nameiparent sb p path with
  | none =>
    endOp
    return -1
  | some (dp, name) =>
    ilock dp
    if namecmp name dot = 0 ∨ namecmp name dotdot = 0 then unlinkBad sb dp
    else
      match ← dirlookup sb dp name with
      | none => unlinkBad sb dp
      | some (ip, off) => unlinkFound sb dp ip off

/-- The entries that `create` gives a new directory. -/
def createDots (dp ip : Nat) : FsProg Unit := do
  addLink sb dp 1
  let s ← get
  let self ← dirlink sb ip dot (s.inode ip).inum
  if self = false then .panic .createDots
  else
    let s ← get
    let parent ← dirlink sb ip dotdot (s.inode dp).inum
    if parent = false then .panic .createDots

/-- `create` when the name exists. -/
def createFound (dp ip : Nat) (type : FileType) : FsProg (Option Nat) := do
  iunlockput sb dp
  ilock ip
  let s ← get
  if type = .file ∧ (s.inode ip).copy.type = .file then return some ip
  else
    iunlockput sb ip
    return none

/-- How `create` gives an inode its name. -/
def createName (dp ip : Nat) (name : List UInt8) : FsProg (Option Nat) := do
  let s ← get
  let linked ← dirlink sb dp name (s.inode ip).inum
  if linked = false then .panic .createDirlink
  else
    iunlockput sb dp
    return some ip

/-- `create` when the name is new. -/
def createNew (dp : Nat) (name : List UInt8) (type : FileType) (major minor : Int) :
    FsProg (Option Nat) := do
  let s ← get
  let ip ← ialloc sb (s.inode dp).dev type
  ilock ip
  modify fun s => s.setCopy ip { (s.inode ip).copy with
    major := Fs.short major, minor := Fs.short minor, nlink := 1 }
  iupdate sb ip
  if type = .dir then createDots sb dp ip
  createName sb dp ip name

/-- `create`; the inode it returns is locked. -/
def create (p : Nat) (path : List UInt8) (type : FileType) (major minor : Int) :
    FsProg (Option Nat) := do
  match ← nameiparent sb p path with
  | none => return none
  | some (dp, name) =>
    ilock dp
    match ← dirlookup sb dp name with
    | some (ip, _) => createFound sb dp ip type
    | none => createNew sb dp name type major minor

/-- How `sys_open` finds an inode that it does not create. -/
def openExisting (p : Nat) (path : List UInt8) (omode : Nat) : FsProg (Option Nat) := do
  match ← namei sb p path with
  | none => return none
  | some ip =>
    ilock ip
    let s ← get
    if (s.inode ip).copy.type = .dir ∧ omode ≠ 0 then
      iunlockput sb ip
      return none
    else return some ip

/-- How `sys_open` gives up a locked inode. -/
def openBad (ip : Nat) : FsProg Int := do
  iunlockput sb ip
  endOp
  return -1

/-- `sys_open` once it has the inode, locked. -/
def openFile (p ip omode : Nat) : FsProg Int := do
  match ← filealloc with
  | none => openBad sb ip
  | some f =>
    match ← fdalloc p f with
    | none =>
      fileclose sb f
      openBad sb ip
    | some fd =>
      iunlock ip
      endOp
      modify fun s => s.setFile f { s.file f with
        kind := .inode, ip := ip, off := 0, readable := omode &&& oWronly = 0,
        writable := omode &&& oWronly ≠ 0 ∨ omode &&& oRdwr ≠ 0 }
      return fd

/-- `sys_open`. -/
def sysOpen (p : Nat) (path : List UInt8) (omode : Nat) : FsProg Int := do
  beginOp
  let found ← if omode &&& oCreate ≠ 0 then create sb p path .file 0 0
    else openExisting sb p path omode
  match found with
  | none =>
    endOp
    return -1
  | some ip => openFile sb p ip omode

/-- `sys_mkdir` and `sys_mknod`, by the type they create. -/
def makeNode (p : Nat) (path : List UInt8) (type : FileType) (major minor : Int) : FsProg Int := do
  beginOp
  match ← create sb p path type major minor with
  | none =>
    endOp
    return -1
  | some ip =>
    iunlockput sb ip
    endOp
    return 0

/-- `sys_mkdir`. -/
def sysMkdir (p : Nat) (path : List UInt8) : FsProg Int := makeNode sb p path .dir 0 0

/-- `sys_mknod`. -/
def sysMknod (p : Nat) (path : List UInt8) (major minor : Int) : FsProg Int :=
  makeNode sb p path .dev major minor

/-- `sys_chdir`. -/
def sysChdir (p : Nat) (path : List UInt8) : FsProg Int := do
  beginOp
  match ← namei sb p path with
  | none =>
    endOp
    return -1
  | some ip =>
    ilock ip
    let s ← get
    if (s.inode ip).copy.type ≠ .dir then
      iunlockput sb ip
      endOp
      return -1
    else
      iunlock ip
      let s ← get
      iput sb (s.proc p).cwd
      endOp
      modify fun s => s.setProc p { s.proc p with cwd := ip }
      return 0

/-- One `readi` of `exec`: an offset, a number of bytes and the answer of a device. -/
abbrev ExecRead := Nat × Nat × Option (List UInt8)

/-- `exec` as far as the file system goes. Which parts of the file it reads depends on the bytes
and on memory; they and the result are given. -/
def sysExec (p : Nat) (path : List UInt8) (reads : List ExecRead) (result : Int) : FsProg Int := do
  beginOp
  match ← namei sb p path with
  | none =>
    endOp
    return -1
  | some ip =>
    ilock ip
    reads.forM fun (off, n, device) => do
      let _ ← readi sb ip off n device
    iunlockput sb ip
    endOp
    return result

/-- `fork` as far as files go. The process that it makes, if memory and a slot of the process table
are there for one, is given. -/
def sysFork (p : Nat) : Option Nat → FsProg Int
  | none => return -1
  | some child => do
    (List.range nOFile).forM fun fd => do
      let s ← get
      match (s.proc p).ofile fd with
      | some f =>
        filedup f
        setFd child fd (some f)
      | none => pure ()
    let s ← get
    let cwd ← idup (s.proc p).cwd
    modify fun s => s.setProc child { s.proc child with live := true, cwd := cwd }
    return child

/-- The process that may not exit. -/
def initproc : Nat := 1

/-- `exit` as far as the file system goes. -/
def sysExit (p : Nat) : FsProg Int := do
  if p = initproc then .panic .initExiting
  else
    (List.range nOFile).forM fun fd => do
      let s ← get
      match (s.proc p).ofile fd with
      | some f =>
        fileclose sb f
        setFd p fd none
      | none => pure ()
    beginOp
    let s ← get
    iput sb (s.proc p).cwd
    endOp
    modify fun s => s.setProc p { s.proc p with live := false }
    return 0

/-- A system call with its arguments. -/
inductive Call where
  | «open» (path : List UInt8) (omode : Nat)
  | close (fd : Nat)
  | dup (fd : Nat)
  | read (fd n : Nat) (device : Option (List UInt8))
  | write (fd : Nat) (src : List UInt8) (taken : Bool)
  | pipe (page : Option Nat)
  | link (old new : List UInt8)
  | unlink (path : List UInt8)
  | mkdir (path : List UInt8)
  | mknod (path : List UInt8) (major minor : Int)
  | chdir (path : List UInt8)
  | exec (path : List UInt8) (reads : List ExecRead) (result : Int)
  | fork (child : Option Nat)
  | exit

/-- The code of a call of process `p`. -/
def syscall (p : Nat) : Call → FsProg Int
  | .open path omode => sysOpen sb p path omode
  | .close fd => sysClose sb p fd
  | .dup fd => sysDup p fd
  | .read fd n device => sysRead sb p fd n device
  | .write fd src taken => sysWrite sb p fd src taken
  | .pipe page => sysPipe sb p page
  | .link old new => sysLink sb p old new
  | .unlink path => sysUnlink sb p path
  | .mkdir path => sysMkdir sb p path
  | .mknod path major minor => sysMknod sb p path major minor
  | .chdir path => sysChdir sb p path
  | .exec path reads result => sysExec sb p path reads result
  | .fork child => sysFork p child
  | .exit => sysExit sb p

end Xv6.Fs
