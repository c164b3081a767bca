import Mathlib.Logic.Function.Basic
import Xv6.Lib.Act
import Xv6.Param

/-!
# The page allocator and page tables

`kalloc.c` and the functions of `vm.c` that allocate, map and free pages. A page directory is a
tree: the page that holds it, its page tables with the pages that hold them, and their entries.
Pages are numbered by physical address; what a page table holds is in the tree and not among the
bytes of pages. `kalloc` may return 0 whenever the list `refused` says so, also with pages left.
-/

namespace Xv6.Vm

open Function Lib

/-- A physical page, by its number. -/
abbrev Page := Nat

/-- `PGSIZE`. -/
def pgSize : Nat := 4096

/-- `KERNBASE`. -/
def kernbase : Nat := 0x80000000

/-- Bytes of the address space. -/
def uintSize : Nat := 2 ^ 32

/-- Pages below `KERNBASE`. -/
def userPages : Nat := kernbase / pgSize

/-- `NPDENTRIES`. -/
@[irreducible] def nPdEntries : Nat := 1024

/-- `NPTENTRIES`. -/
def nPtEntries : Nat := 1024

/-- `PGROUNDUP`; sizes are at most `KERNBASE`, so the sum does not wrap. -/
def pgroundup (sz : Nat) : Nat := (sz + pgSize - 1) / pgSize * pgSize

/-- `PGROUNDDOWN`. -/
def pgrounddown (a : Nat) : Nat := a / pgSize * pgSize

/-- The turns of `for(; a < limit; a += PGSIZE)`. -/
def turns (a limit : Nat) : Nat := (limit - a + pgSize - 1) / pgSize

/-- `PDX`; the mask changes nothing in a 32-bit address. -/
def pdx (va : Nat) : Nat := va / pgSize / nPtEntries

/-- `PTX`. -/
def ptx (va : Nat) : Nat := va / pgSize % nPtEntries

/-- `PTE_W` and `PTE_U`. -/
structure Perm where
  write : Bool
  user : Bool
  deriving DecidableEq

/-- A page-table entry with `PTE_P` set. -/
structure Pte where
  page : Page
  perm : Perm
  deriving DecidableEq

/-- A page-table page. -/
structure PageTable where
  page : Page
  pte : Nat → Option Pte

/-- A page directory and what hangs off it. -/
structure PageDir where
  page : Page
  table : Nat → Option PageTable

namespace PageDir

/-- `memset(pgdir, 0, PGSIZE)`. -/
def empty (page : Page) : PageDir := ⟨page, fun _ => none⟩

/-- The entry of a virtual page. -/
def entry (d : PageDir) (v : Nat) : Option Pte :=
  (d.table (v / nPtEntries)).bind fun t => t.pte (v % nPtEntries)

/-- Assign the entry of an address, which a page table has. -/
def setPte (d : PageDir) (va : Nat) (pte : Option Pte) : PageDir :=
  { d with table := update d.table (pdx va) ((d.table (pdx va)).map fun t =>
      { t with pte := update t.pte (ptx va) pte }) }

/-- Hang an empty page table into the directory. -/
def addTable (d : PageDir) (va : Nat) (page : Page) : PageDir :=
  { d with table := update d.table (pdx va) (some ⟨page, fun _ => none⟩) }

end PageDir

/-- An entry of `kmap`. -/
structure Kmap where
  virt : Nat
  physStart : Nat
  physEnd : Nat
  perm : Perm

/-- What the linker and the machine decide: the physical address of the kernel's end, the end of
physical memory, the program of the first process, and the kernel's mappings. These lie above
`KERNBASE` and are not for users. -/
structure Layout where
  kernelEnd : Nat
  phystop : Nat
  initcode : List UInt8
  kmap : List Kmap
  above : ∀ k ∈ kmap, kernbase ≤ k.virt ∧ k.virt < uintSize ∧ k.virt % pgSize = 0
  size : ∀ k ∈ kmap, 0 < (k.physEnd + uintSize - k.physStart) % uintSize ∧
    k.virt + (k.physEnd + uintSize - k.physStart) % uintSize ≤ uintSize
  kernelOnly : ∀ k ∈ kmap, k.perm.user = false

/-- `EXTMEM`. -/
def extmem : Nat := 0x100000

/-- `KERNLINK`. -/
def kernlink : Nat := kernbase + extmem

/-- `PHYSTOP`. -/
def phystop : Nat := 0xE000000

/-- `DEVSPACE`. -/
def devspace : Nat := 0xFE000000

/-- `kmap`, for the address of the linker's `data`. -/
def kmap (data : Nat) : List Kmap :=
  [⟨kernbase, 0, extmem, ⟨true, false⟩⟩,
    ⟨kernlink, kernlink - kernbase, data - kernbase, ⟨false, false⟩⟩,
    ⟨data, data - kernbase, phystop, ⟨true, false⟩⟩,
    ⟨devspace, devspace, 0, ⟨true, false⟩⟩]

/-- The kernel as it is linked: `data` is the page boundary behind the text, and the kernel's data
ends below `PHYSTOP`. -/
def linked (kernelEnd data : Nat) (initcode : List UInt8) (text : kernlink < data)
    (top : data < kernbase + phystop) (aligned : data % pgSize = 0) : Layout where
  kernelEnd := kernelEnd
  phystop := phystop
  initcode := initcode
  kmap := kmap data
  above k listed := by
    unfold kernlink kernbase extmem at text
    unfold kernbase phystop at top
    simp only [kmap, List.mem_cons, List.not_mem_nil, or_false] at listed
    rcases listed with rfl | rfl | rfl | rfl
    · decide
    · dsimp only
      decide
    · grind [kernbase, uintSize]
    · decide
  size k listed := by
    unfold kernlink kernbase extmem at text
    unfold kernbase phystop at top
    simp only [kmap, List.mem_cons, List.not_mem_nil, or_false] at listed
    rcases listed with rfl | rfl | rfl | rfl
    · decide
    · unfold kernlink kernbase extmem uintSize
      dsimp only
      omega
    · unfold kernbase phystop uintSize
      dsimp only
      omega
    · decide
  kernelOnly k listed := by
    simp only [kmap, List.mem_cons, List.not_mem_nil, or_false] at listed
    rcases listed with rfl | rfl | rfl | rfl <;> rfl

/-- The panics and faults that end a run. -/
inductive Panic where
  | kfree
  | remap
  | freevmNoPgdir
  | copyuvmPte
  | copyuvmPresent
  | inituvm
  | loaduvmAligned
  | loaduvmAddress
  /-- `loaduvm` through an entry that is not present. -/
  | loaduvmPresent
  | clearpteu
  /-- `uva2ka` through the null pointer of `walkpgdir`. The kernel reads what the process has at
  address 0 and goes on with that; the model does not follow it. -/
  | nullPte
  | outOfMemory
  | filedup
  deriving DecidableEq

/-- `kmem`, and which of the next calls of `kalloc` return 0 whatever the list holds. -/
structure Alloc where
  freelist : List Page
  refused : List Bool
  /-- The bytes of physical memory, by page and offset. -/
  mem : Page → Nat → UInt8

/-- A page filled with one byte. -/
def Alloc.fill (a : Alloc) (v : Page) (byte : UInt8) : Alloc :=
  { a with mem := update a.mem v fun _ => byte }

/-- Bytes are copied to a page. -/
def Alloc.store (a : Alloc) (v : Page) (off : Nat) (bytes : List UInt8) : Alloc :=
  { a with mem := update a.mem v fun i =>
      if off ≤ i ∧ i < off + bytes.length then bytes.getD (i - off) 0 else a.mem v i }

/-- Code that allocates and frees pages. -/
abbrev AllocM : Type → Type := Act Alloc Panic

/-- `kalloc`. -/
def kalloc : AllocM (Option Page) := do
  let a ← get
  if a.refused.head? = some true then
    set { a with refused := a.refused.tail }
    return none
  else
    match a.freelist with
    | [] =>
      set { a with refused := a.refused.tail }
      return none
    | r :: next =>
      set { a with freelist := next, refused := a.refused.tail }
      return some r

variable (layout : Layout)

/-- `kfree`; the link in the first word of a free page is the list itself. -/
def kfree (v : Page) : AllocM Unit :=
  if v * pgSize < layout.kernelEnd ∨ v * pgSize ≥ layout.phystop then throw .kfree
  else modify fun a => { a.fill v 1 with freelist := v :: a.freelist }

/-- `walkpgdir` with `alloc` set, as far as the directory goes. -/
def walkAlloc (d : PageDir) (va : Nat) : AllocM (Option PageDir) :=
  match d.table (pdx va) with
  | some _ => return some d
  | none => do
    match ← kalloc with
    | none => return none
    | some pgtab => return some (d.addTable va pgtab)

/-- The loop of `mappages` over the pages left; whether it maps them all. -/
def mapLoop (perm : Perm) : Nat → PageDir → Nat → Nat → AllocM (Bool × PageDir)
  | 0, d, _, _ => return (true, d)
  | n + 1, d, a, pa => do
    match ← walkAlloc d a with
    | none => return (false, d)
    | some d =>
      if (d.entry (a / pgSize)).isSome then throw .remap
      else
        mapLoop perm n (d.setPte a (some ⟨pa / pgSize, perm⟩)) ((a + pgSize) % uintSize)
          (pa + pgSize)

/-- `mappages`; the loop ends when `a` is `last`. -/
def mappages (d : PageDir) (va size pa : Nat) (perm : Perm) : AllocM (Bool × PageDir) :=
  let a := pgrounddown va
  let last := pgrounddown ((va + size - 1) % uintSize)
  mapLoop perm ((last + uintSize - a) % uintSize / pgSize + 1) d a pa

/-- The loop of `deallocuvm`, with a bound on its iterations. Without a page table the next address
is that of the next one. -/
def deallocLoop (oldsz : Nat) : Nat → PageDir → Nat → AllocM PageDir
  | 0, d, _ => return d
  | fuel + 1, d, a =>
    if a < oldsz then
      match d.table (pdx a) with
      | none => deallocLoop oldsz fuel d ((pdx a + 1) * nPtEntries * pgSize)
      | some t =>
        match t.pte (ptx a) with
        | none => deallocLoop oldsz fuel d (a + pgSize)
        | some pte => do
          if pte.page = 0 then throw .kfree
          else
            kfree layout pte.page
            deallocLoop oldsz fuel (d.setPte a none) (a + pgSize)
    else return d

/-- `deallocuvm`. -/
def deallocuvm (d : PageDir) (oldsz newsz : Nat) : AllocM (Nat × PageDir) := do
  if newsz ≥ oldsz then return (oldsz, d)
  else
    let d ← deallocLoop layout oldsz (turns (pgroundup newsz) oldsz) d (pgroundup newsz)
    return (newsz, d)

/-- The loop of `freevm` over directory entries. -/
def freeTables (d : PageDir) (indices : List Nat) : AllocM Unit :=
  indices.forM fun i =>
    match d.table i with
    | some t => kfree layout t.page
    | none => pure ()

/-- `freevm`. -/
def freevm (d : PageDir) : AllocM Unit := do
  let (_, d) ← deallocuvm layout d kernbase 0
  freeTables layout d (List.range nPdEntries)
  kfree layout d.page

/-- The loop of `setupkvm` over `kmap`. -/
def mapKernel : List Kmap → PageDir → AllocM (Option PageDir)
  | [], d => return some d
  | k :: kmap, d => do
    let size := (k.physEnd + uintSize - k.physStart) % uintSize
    match ← mappages d k.virt size k.physStart k.perm with
    | (true, d) => mapKernel kmap d
    | (false, d) =>
      freevm layout d
      return none

/-- `setupkvm`. -/
def setupkvm : AllocM (Option PageDir) := do
  match ← kalloc with
  | none => return none
  | some pgdir => mapKernel layout layout.kmap (.empty pgdir)

/-- `PTE_W|PTE_U`. -/
def userPerm : Perm := ⟨true, true⟩

/-- The loop of `allocuvm` over the pages left; whether it allocates them all. -/
def allocLoop (oldsz newsz : Nat) : Nat → PageDir → Nat → AllocM (Bool × PageDir)
  | 0, d, _ => return (true, d)
  | n + 1, d, a => do
    match ← kalloc with
    | none =>
      let (_, d) ← deallocuvm layout d newsz oldsz
      return (false, d)
    | some mem =>
      modify fun a => a.fill mem 0
      match ← mappages d a pgSize (mem * pgSize) userPerm with
      | (false, d) =>
        let (_, d) ← deallocuvm layout d newsz oldsz
        kfree layout mem
        return (false, d)
      | (true, d) => allocLoop oldsz newsz n d (a + pgSize)

/-- `allocuvm`; the size `0` is an error. -/
@[irreducible] def allocuvm (d : PageDir) (oldsz newsz : Nat) : AllocM (Nat × PageDir) := do
  if newsz ≥ kernbase then return (0, d)
  else if newsz < oldsz then return (oldsz, d)
  else
    let a := pgroundup oldsz
    let (all, d) ← allocLoop layout oldsz newsz (turns a newsz) d a
    return (if all then newsz else 0, d)

/-- The loop of `copyuvm` over the pages left. -/
def copyLoop (src : PageDir) : Nat → PageDir → Nat → AllocM (Option PageDir)
  | 0, d, _ => return some d
  | n + 1, d, i =>
    match src.table (pdx i) with
    | none => throw .copyuvmPte
    | some t =>
      match t.pte (ptx i) with
      | none => throw .copyuvmPresent
      | some pte => do
        match ← kalloc with
        | none =>
          freevm layout d
          return none
        | some mem =>
          modify fun a => { a with mem := update a.mem mem (a.mem pte.page) }
          match ← mappages d i pgSize (mem * pgSize) pte.perm with
          | (false, d) =>
            kfree layout mem
            freevm layout d
            return none
          | (true, d) => copyLoop src n d (i + pgSize)

/-- `copyuvm`. -/
def copyuvm (src : PageDir) (sz : Nat) : AllocM (Option PageDir) := do
  match ← setupkvm layout with
  | none => return none
  | some d => copyLoop layout src (turns 0 sz) d 0

/-- `clearpteu`; an entry that is not present stays so. -/
def clearpteu (d : PageDir) (va : Nat) : AllocM PageDir :=
  match d.table (pdx va) with
  | none => throw .clearpteu
  | some t =>
    return d.setPte va ((t.pte (ptx va)).map fun pte =>
      { pte with perm := ⟨pte.perm.write, false⟩ })

end Xv6.Vm
