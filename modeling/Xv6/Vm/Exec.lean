import Xv6.Vm.Calls

/-!
# `exec`

`exec` with all that it computes: the ELF header and the program headers as the file gives them,
the segments, the stack with the arguments, and the two ways to the label `bad`. It is written over
an interface to the rest of the kernel (`Kernel`), so that the same code runs with a file whose
bytes are given (`Sys.kernel`) and on the file system.
-/

namespace Xv6.Vm

open Function Lib

/-! ### The file -/

/-- A number of so many bytes at an offset, the least significant byte first. -/
def word (bytes : List UInt8) (off n : Nat) : Nat :=
  ((bytes.drop off).take n).foldr (fun byte rest => byte.toNat + 256 * rest) 0

/-- `struct elfhdr`, as far as `exec` looks at it. -/
structure Elfhdr where
  magic : Nat
  entry : Nat
  phoff : Nat
  phnum : Nat

/-- `sizeof(struct elfhdr)`. -/
def elfhdrSize : Nat := 52

/-- The fields at their offsets. -/
def Elfhdr.ofBytes (bytes : List UInt8) : Elfhdr :=
  ⟨word bytes 0 4, word bytes 24 4, word bytes 28 4, word bytes 44 2⟩

/-- `ELF_MAGIC`. -/
def elfMagic : Nat := 0x464C457F

/-- `struct proghdr`, as far as `exec` looks at it. -/
structure Proghdr where
  type : Nat
  off : Nat
  vaddr : Nat
  filesz : Nat
  memsz : Nat

/-- `sizeof(struct proghdr)`. -/
def proghdrSize : Nat := 32

/-- The fields at their offsets. -/
def Proghdr.ofBytes (bytes : List UInt8) : Proghdr :=
  ⟨word bytes 0 4, word bytes 4 4, word bytes 8 4, word bytes 16 4, word bytes 20 4⟩

/-- `ELF_PROG_LOAD`. -/
def elfProgLoad : Nat := 1

/-! ### Writing to user pages -/

/-- `uva2ka`; nothing is the result 0. -/
def uva2ka (d : PageDir) (uva : Nat) : AllocM (Option Page) :=
  match d.table (pdx uva) with
  | none => throw .nullPte
  | some t =>
    match t.pte (ptx uva) with
    | none => return none
    | some pte => if pte.perm.user then return some pte.page else return none

/-- The loop of `copyout`, which copies a byte or more with every turn. -/
def copyoutLoop (d : PageDir) : Nat → Nat → List UInt8 → AllocM Bool
  | 0, _, _ => return true
  | turns + 1, va, buf =>
    if buf = [] then return true
    else do
      let va0 := pgrounddown va
      match ← uva2ka d va0 with
      | none => return false
      | some page =>
        let n := min (pgSize - (va - va0)) buf.length
        modify fun a => a.store page (va - va0) (buf.take n)
        copyoutLoop d turns ((va0 + pgSize) % uintSize) (buf.drop n)

/-- `copyout`: whether it returns 0. -/
def copyout (d : PageDir) (va : Nat) (p : List UInt8) : AllocM Bool := copyoutLoop d p.length va p

/-- The page that a turn of `loaduvm` reads to. -/
def loadPage (d : PageDir) (va : Nat) : AllocM Page :=
  match d.table (pdx va) with
  | none => throw .loaduvmAddress
  | some t =>
    match t.pte (ptx va) with
    | none => throw .loaduvmPresent
    | some pte => return pte.page

/-! ### The stack -/

/-- `MAXARG`. -/
def maxArg : Nat := 32

/-- A 32-bit difference. -/
def sub32 (a b : Nat) : Nat := (a + uintSize - b % uintSize) % uintSize

/-- The loop that pushes the argument strings: where they are, and the stack pointer below them.
Nothing is a jump to `bad`. -/
def pushStrings (d : PageDir) : List (List UInt8) → Nat → Nat → AllocM (Option (List Nat × Nat))
  | [], _, sp => return some ([], sp)
  | arg :: argv, argc, sp =>
    if argc ≥ maxArg then return none
    else do
      -- `(sp - (strlen(argv[argc]) + 1)) & ~3`
      let sp := sub32 sp (arg.length + 1) / 4 * 4
      if ← copyout d sp (arg ++ [0]) then
        match ← pushStrings d argv (argc + 1) sp with
        | none => return none
        | some (rest, last) => return some (sp :: rest, last)
      else return none

/-- The bytes of a 32-bit number. -/
def bytes32 (n : Nat) : List UInt8 :=
  [.ofNat n, .ofNat (n / 256), .ofNat (n / 65536), .ofNat (n / 16777216)]

/-- `ustack`: the return address, `argc`, `argv` and the pointers to the arguments. -/
def ustack (pointers : List Nat) (sp : Nat) : List Nat :=
  0xffffffff :: pointers.length :: sub32 sp ((pointers.length + 1) * 4) :: (pointers ++ [0])

/-- The arguments on the stack: the stack pointer, or nothing for `bad`. -/
def pushArgs (d : PageDir) (sz : Nat) (argv : List (List UInt8)) : AllocM (Option Nat) := do
  match ← pushStrings d argv 0 sz with
  | none => return none
  | some (pointers, sp) =>
    let words := ustack pointers sp
    let sp := sub32 sp (words.length * 4)
    if ← copyout d sp (words.flatMap bytes32) then return some sp else return none

variable (layout : Layout)

/-- The two pages behind the program; the first one is taken from the user. -/
def userStack (d : PageDir) (sz : Nat) : AllocM (Option Nat × PageDir) := do
  let sz := pgroundup sz
  let (sz, d) ← allocuvm layout d sz (sz + 2 * pgSize)
  if sz = 0 then return (none, d)
  else
    let d ← clearpteu d (sz - 2 * pgSize)
    return (some sz, d)

/-! ### The code over the rest of the kernel -/

/-- What `exec` gives to the process: `pgdir`, `sz`, `tf->eip`, `tf->esp` and `name`. -/
structure UserImage where
  pgdir : PageDir
  sz : Nat
  eip : Nat
  esp : Nat
  name : List UInt8

/-- What `exec` calls, with inodes of type `ι`. -/
structure Kernel (m : Type → Type) (ι : Type) where
  beginOp : m Unit
  endOp : m Unit
  namei : List UInt8 → m (Option ι)
  ilock : ι → m Unit
  iunlockput : ι → m Unit
  /-- The bytes that were read; nothing for −1. -/
  readi : ι → Nat → Nat → m (Option (List UInt8))
  alloc : {α : Type} → AllocM α → m α
  /-- Commit to the user image; the old page directory. -/
  commit : UserImage → m (Option PageDir)

section Code

variable {m : Type → Type} [Monad m] {ι : Type} (kernel : Kernel m ι)

/-- The loop of `loaduvm` over the pages left. -/
def loadLoop (d : PageDir) (addr : Nat) (ip : ι) (offset sz : Nat) : Nat → Nat → m Bool
  | 0, _ => return true
  | turns + 1, i => do
    let page ← kernel.alloc (loadPage d ((addr + i) % uintSize))
    let n := if sz - i < pgSize then sz - i else pgSize
    match ← kernel.readi ip ((offset + i) % uintSize) n with
    | none => return false
    | some bytes =>
      kernel.alloc (modify fun a => a.store page 0 bytes)
      if bytes.length ≠ n then return false
      else loadLoop d addr ip offset sz turns (i + pgSize)

/-- `loaduvm`: whether it returns 0. -/
def loaduvm (d : PageDir) (addr : Nat) (ip : ι) (offset sz : Nat) : m Bool :=
  if addr % pgSize ≠ 0 then kernel.alloc (throw .loaduvmAligned)
  else loadLoop kernel d addr ip offset sz (turns 0 sz) 0

/-- The loop over the program headers left: the size, or nothing for `bad`. -/
def loadSegments (ip : ι) : Nat → PageDir → Nat → Nat → m (Option Nat × PageDir)
  | 0, d, sz, _ => return (some sz, d)
  | phnum + 1, d, sz, off => do
    match ← kernel.readi ip off proghdrSize with
    | none => return (none, d)
    | some bytes =>
      let ph := Proghdr.ofBytes bytes
      let next := (off + proghdrSize) % uintSize
      if bytes.length ≠ proghdrSize then return (none, d)
      else if ph.type ≠ elfProgLoad then loadSegments ip phnum d sz next
      else if ph.memsz < ph.filesz then return (none, d)
      else if (ph.vaddr + ph.memsz) % uintSize < ph.vaddr then return (none, d)
      else
        let (sz, d) ← kernel.alloc (allocuvm layout d sz ((ph.vaddr + ph.memsz) % uintSize))
        if sz = 0 then return (none, d)
        else if ph.vaddr % pgSize ≠ 0 then return (none, d)
        else if ← loaduvm kernel d ph.vaddr ip ph.off ph.filesz then
          loadSegments ip phnum d sz next
        else return (none, d)

/-- The label `bad`. -/
def goBad (d : Option PageDir) (ip : Option ι) : m Unit := do
  d.forM fun d => kernel.alloc (freevm layout d)
  ip.forM fun ip => do
    kernel.iunlockput ip
    kernel.endOp

/-- `exec` up to the user stack: the header, the size and the directory, or nothing if it failed. -/
def execLoad (path : List UInt8) : m (Option (Elfhdr × Nat × PageDir)) := do
  kernel.beginOp
  match ← kernel.namei path with
  | none =>
    kernel.endOp
    return none
  | some ip =>
    kernel.ilock ip
    match ← kernel.readi ip 0 elfhdrSize with
    | none =>
      goBad layout kernel none (some ip)
      return none
    | some bytes =>
      let elf := Elfhdr.ofBytes bytes
      if bytes.length ≠ elfhdrSize ∨ elf.magic ≠ elfMagic then
        goBad layout kernel none (some ip)
        return none
      else
        match ← kernel.alloc (setupkvm layout) with
        | none =>
          goBad layout kernel none (some ip)
          return none
        | some d =>
          match ← loadSegments layout kernel ip elf.phnum d 0 elf.phoff with
          | (none, d) =>
            goBad layout kernel (some d) (some ip)
            return none
          | (some sz, d) =>
            kernel.iunlockput ip
            kernel.endOp
            match ← kernel.alloc (userStack layout d sz) with
            | (none, d) =>
              goBad layout kernel (some d) none
              return none
            | (some sz, d) => return some (elf, sz, d)

/-- `safestrcpy(name, last, sizeof(name))`, where `last` is behind the last slash. -/
def progName (path : List UInt8) : List UInt8 := ((path.splitOn 47).getLastD []).take 15

/-- `exec` from the user stack on. -/
def execArgs (path : List UInt8) (argv : List (List UInt8)) (elf : Elfhdr) (sz : Nat)
    (d : PageDir) : m Int := do
  match ← kernel.alloc (pushArgs d sz argv) with
  | none =>
    goBad layout kernel (some d) none
    return -1
  | some sp =>
    let oldpgdir ← kernel.commit ⟨d, sz, elf.entry, sp, progName path⟩
    kernel.alloc (freevmPtr layout oldpgdir)
    return 0

/-- `exec`. -/
def exec (path : List UInt8) (argv : List (List UInt8)) : m Int := do
  match ← execLoad layout kernel path with
  | none => return -1
  | some (elf, sz, d) => execArgs layout kernel path argv elf sz d

end Code

/-! ### Processes with registers -/

/-- The registers of a trap frame that `exec` sets. -/
structure Trapframe where
  eip : Nat
  esp : Nat

/-- Processes and memory, with the trap frames and names of the processes. -/
structure Sys where
  vm : State
  tf : Nat → Trapframe
  name : Nat → List UInt8

/-- An inode from which so many bytes at an offset can be read, or fewer, or none if that fails. -/
structure Reader where
  read : Nat → Nat → Option (List UInt8)
  short : ∀ off n bytes, read off n = some bytes → bytes.length ≤ n

/-- `readi` of a file with the bytes. -/
def Reader.ofFile (contents : List UInt8) : Reader where
  read off n := if off > contents.length ∨ off + n ≥ uintSize then none
    else some ((contents.drop off).take n)
  short off n bytes result := by
    split at result
    · contradiction
    · cases result
      exact List.length_take_le _ _

namespace Sys

/-- Another state of the allocator. -/
def withAlloc (s : Sys) (a : Alloc) : Sys := { s with vm := { s.vm with alloc := a } }

/-- Process `p` has a new image. -/
def withImage (s : Sys) (p : Nat) (image : UserImage) : Sys where
  vm := s.vm.setProc p { s.vm.proc p with pgdir := some image.pgdir, sz := image.sz }
  tf := update s.tf p ⟨image.eip, image.esp⟩
  name := update s.name p image.name

/-- The kernel around a call of `exec` by process `p`, in which the path leads to the given file. -/
def kernel (p : Nat) (file : Option Reader) : Kernel (Act Sys Panic) Reader where
  beginOp := pure ()
  endOp := pure ()
  namei _ := pure file
  ilock _ := pure ()
  iunlockput _ := pure ()
  readi ip off n := pure (ip.read off n)
  alloc act := Act.zoom (fun s => s.vm.alloc) withAlloc act
  commit image := do
    let s ← get
    set (s.withImage p image)
    return (s.vm.proc p).pgdir

end Sys

end Xv6.Vm
