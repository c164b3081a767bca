import Xv6.Fs.State
import Xv6.Vm.Space

/-!
# Calls that move pages

`fork`, `growproc` and what `main` does before the first process runs, over the page allocator. Of
the file table there is what `fork` copies. No call here makes or frees a pipe, `exit` and `wait`
are not modelled, and each call is one step, so that no other place holds pages.
-/

namespace Xv6.Vm

open Function Lib
open Xv6.Fs (File)

/-- States of a process; `RUNNABLE`, `RUNNING` and `SLEEPING` are one here. -/
inductive ProcState where
  | unused
  | embryo
  | live
  deriving DecidableEq

/-- `struct proc` as far as pages go. A pointer to a page directory that was freed is `none`. -/
structure Proc where
  state : ProcState
  parent : Option Nat
  kstack : Option Page
  pgdir : Option PageDir
  sz : Nat

/-- The allocator and everything that holds pages. -/
structure State where
  alloc : Alloc
  kpgdir : Option PageDir
  /-- Stacks that `startothers` gave to the other CPUs. -/
  schedStacks : List Page
  proc : Nat → Proc
  /-- Index into the file table, by process and descriptor. -/
  ofile : Nat → Nat → Option Nat
  file : Nat → File

/-- Code of the kernel. -/
abbrev SysM : Type → Type := Act State Panic

/-- Code that allocates and frees, as code of the kernel. -/
def onAlloc {α : Type} (act : AllocM α) : SysM α := fun s =>
  match act s.alloc with
  | .ok (value, alloc) => .ok (value, { s with alloc := alloc })
  | .error panic => .error panic

namespace State

/-- Assign an entry of the process table. -/
def setProc (s : State) (p : Nat) (proc : Proc) : State :=
  { s with proc := update s.proc p proc }

/-- Assign an entry of the file table. -/
def setFile (s : State) (f : Nat) (file : File) : State :=
  { s with file := update s.file f file }

/-- Assign a descriptor. -/
def setFd (s : State) (p fd : Nat) (file : Option Nat) : State :=
  { s with ofile := update s.ofile p (update (s.ofile p) fd file) }

end State

variable (layout : Layout)

/-! ### Files -/

/-- `filedup`. -/
def filedup (f : Nat) : SysM Unit := do
  let s ← get
  if (s.file f).ref < 1 then throw .filedup
  else set (s.setFile f { s.file f with ref := (s.file f).ref + 1 })

/-! ### Processes -/

/-- `kfree` of a pointer; a null pointer is below the kernel's end. -/
def kfreePtr : Option Page → AllocM Unit
  | none => throw .kfree
  | some q => kfree layout q

/-- `freevm` of a pointer. -/
def freevmPtr : Option PageDir → AllocM Unit
  | none => throw .freevmNoPgdir
  | some d => freevm layout d

/-- `allocproc`. -/
def allocproc : SysM (Option Nat) := do
  let s ← get
  match (List.range nProc).find? fun p => (s.proc p).state = .unused with
  | none => return none
  | some np =>
    match ← onAlloc kalloc with
    | none => return none
    | some kstack =>
      modify fun s => s.setProc np { s.proc np with state := .embryo, kstack := some kstack }
      return some np

/-- `fork`: the entry of the child, or nothing for −1. -/
def fork (p : Nat) : SysM (Option Nat) := do
  match ← allocproc with
  | none => return none
  | some np =>
    let s ← get
    match (s.proc p).pgdir with
    | none => throw .copyuvmPte
    | some src =>
      match ← onAlloc (copyuvm layout src (s.proc p).sz) with
      | none =>
        onAlloc (kfreePtr layout (s.proc np).kstack)
        modify fun s => s.setProc np { s.proc np with state := .unused, kstack := none }
        return none
      | some d =>
        (List.range nOFile).forM fun fd =>
          match s.ofile p fd with
          | none => pure ()
          | some f => do
            filedup f
            modify fun s => s.setFd np fd (some f)
        modify fun s => s.setProc np { s.proc np with
          state := .live, parent := some p, pgdir := some d, sz := (s.proc p).sz }
        return some np

/-- `growproc`; a process that runs has a page directory. -/
def growproc (p : Nat) (n : Int) : SysM Int := do
  let s ← get
  match (s.proc p).pgdir with
  | none => return -1
  | some d =>
    let sz := (s.proc p).sz
    let newsz := ((sz + n) % uintSize).toNat
    if n = 0 then return 0
    else
      let (sz, d) ← onAlloc
        (if n > 0 then allocuvm layout d sz newsz else deallocuvm layout d sz newsz)
      modify fun s => s.setProc p { s.proc p with pgdir := some d }
      if sz = 0 then return -1
      else
        modify fun s => s.setProc p { s.proc p with sz := sz }
        return 0

/-! ### Boot -/

/-- The pages of `freerange`, by physical addresses. -/
def rangePages (start stop : Nat) : List Page :=
  List.range' (pgroundup start / pgSize) (stop / pgSize - pgroundup start / pgSize)

/-- `freerange`. -/
@[irreducible] def freerange (start stop : Nat) : AllocM Unit :=
  (rangePages start stop).forM (kfree layout)

/-- Where `kinit1` ends and `kinit2` begins: `4*1024*1024`. -/
def kinitEnd : Nat := 4 * 1024 * 1024

/-- One turn of `startothers`; without a stack the CPU never starts and the loop does not end. -/
def startOther : SysM Unit := do
  match ← onAlloc kalloc with
  | none => throw .outOfMemory
  | some stack => modify fun s => { s with schedStacks := stack :: s.schedStacks }

/-- `inituvm`. It checks neither of its calls: without a page for the program the first process does
not run. -/
def inituvm (d : PageDir) : AllocM PageDir :=
  if layout.initcode.length ≥ pgSize then throw .inituvm
  else do
    match ← kalloc with
    | none => throw .outOfMemory
    | some mem =>
      modify fun a => a.fill mem 0
      match ← mappages d 0 pgSize (mem * pgSize) userPerm with
      | (false, _) => throw .outOfMemory
      | (true, d) =>
        modify fun a => a.store mem 0 layout.initcode
        return d

/-- `userinit`. -/
def userinit : SysM Unit := do
  match ← allocproc with
  | none => throw .outOfMemory
  | some p =>
    match ← onAlloc (setupkvm layout) with
    | none => throw .outOfMemory
    | some d =>
      let d ← onAlloc (inituvm layout d)
      modify fun s => s.setProc p { s.proc p with
        state := .live, pgdir := some d, sz := pgSize }

/-- `main` up to `mpmain`, as far as pages go. -/
def boot (ncpu : Nat) : SysM Unit := do
  onAlloc (freerange layout layout.kernelEnd kinitEnd)
  match ← onAlloc (setupkvm layout) with
  | none => throw .outOfMemory
  | some kpgdir =>
    modify fun s => { s with kpgdir := some kpgdir }
    (List.range (ncpu - 1)).forM fun _ => startOther
    onAlloc (freerange layout kinitEnd layout.phystop)
    userinit layout

/-- Memory before `main`; whatever a page holds then, `kfree` overwrites it before it is given
out. -/
def reset (refused : List Bool) : State where
  alloc := ⟨[], refused, fun _ _ => 0⟩
  kpgdir := none
  schedStacks := []
  proc _ := ⟨.unused, none, none, none, 0⟩
  ofile _ _ := none
  file _ := ⟨.none, 0, false, false, 0, 0, 0⟩

/-! ### Runs -/

/-- The state in which the first process starts. -/
def start (ncpu : Nat) (refused : List Bool) : Option State :=
  match boot layout ncpu (reset refused) with
  | .ok (_, s) => some s
  | .error _ => none

end Xv6.Vm
