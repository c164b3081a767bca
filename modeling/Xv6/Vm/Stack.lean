import Xv6.Vm.Args

/-!
# `exec` on processes and memory

The code of `exec` around the file of a process: what its result says about the arguments, and what
`copyout` may do in the page directory that it built.
-/

namespace Xv6.Vm

open Function Lib

variable {layout : Layout} {s t : Sys} {p : Nat} {file : Option Reader} {panics : Panic → Prop}

namespace Sys

/-- The state but for the allocator and memory. -/
def Rest (s t : Sys) : Prop := t = s.withAlloc t.vm.alloc

theorem Rest.refl (s : Sys) : Rest s s := rfl

/-- The kernel around `exec` keeps to its rules. -/
theorem lawful (s : Sys) (p : Nat) (file : Option Reader) :
    Lawful (Act.logic panics) panics (kernel p file) (fun t => t.vm.alloc)
      (fun _ t => Rest s t) where
  beginOp here continued := continued _ rfl here
  endOp here continued := continued _ rfl here
  namei here failed found := by
    cases file with
    | none => exact failed _ rfl here
    | some ip => exact found ip _ rfl here
  ilock here continued := continued _ rfl here
  iunlockput here continued := continued _ rfl here
  readi here continued := continued _ _ rfl here
  alloc here ok := by
    change Act.Ok panics (Act.zoom (fun t => t.vm.alloc) withAlloc _) _ _
    rw [Act.ok_zoom]
    refine ok.mono fun value a met => met _ rfl ?_
    rw [Rest] at here ⊢
    rw [here]
    rfl

/-- The free pages of a state the kernel reaches. -/
theorem pool_of_inv {s : State} (fit : layout.Fit) (inv : Inv (handedPages layout) s) :
    Pool layout s.alloc := by
  have pages : s.alloc.free + (spacePages s.kpgdir + s.schedStacks +
      tally nProc Proc.pages s.proc) = handedPages layout := by
    rw [← inv.books.pages, census]
    grind
  have nodup := inv.nodup
  rw [← pages] at nodup
  refine ⟨Multiset.coe_nodup.mp (Multiset.nodup_add.mp nodup).1, fun q listed => ?_⟩
  apply isRam_of_handed fit.kernel fit.low fit.high
  rw [← Multiset.mem_coe, ← pages]
  exact Multiset.mem_add.mpr (.inl (Multiset.mem_coe.mpr listed))

/-- A process that can call `exec`: the free pages and those of its address space can be freed, each
of them once. -/
structure Ready (layout : Layout) (s : Sys) (p : Nat) (old : PageDir) : Prop where
  space : (s.vm.proc p).pgdir = some old
  nodup : (s.vm.alloc.free + old.pages).Nodup
  ram : ∀ q ∈ s.vm.alloc.free + old.pages, layout.IsRam q

variable {d old : PageDir} {sz : Nat} {path : List UInt8} {elf : Elfhdr} {argv : List (List UInt8)}

theorem Ready.pool (ready : Ready layout s p old) : Pool layout s.vm.alloc where
  nodup := Multiset.coe_nodup.mp (Multiset.nodup_add.mp ready.nodup).1
  ram q listed := ready.ram q (Multiset.mem_add.mpr (.inl (Multiset.mem_coe.mpr listed)))

/-- What is free while an image is built can be freed, and so can the old address space. -/
theorem Ready.ram_later {a : Alloc} (ready : Ready layout s p old)
    (built : Image s.vm.alloc d sz a) : ∀ q ∈ a.free + old.pages, layout.IsRam q := by
  intro q member
  apply ready.ram q
  rw [← built.hold.pages]
  grind

/-- In a state the kernel reaches, a process with an address space can call `exec`. -/
theorem ready_of_inv (fit : layout.Fit) (inv : Inv (handedPages layout) s.vm) (inside : p < nProc)
    (space : (s.vm.proc p).pgdir = some old) : Ready layout s p old := by
  obtain ⟨rest, split, -⟩ := tally_split inside Proc.pages s.vm.proc
  have pages : s.vm.alloc.free + old.pages + (spacePages s.vm.kpgdir + s.vm.schedStacks + rest +
      onePage (s.vm.proc p).kstack) = handedPages layout := by
    rw [← inv.books.pages, census, split, Proc.pages, space, spacePages_some]
    grind
  have nodup := inv.nodup
  rw [← pages] at nodup
  refine ⟨space, (Multiset.nodup_add.mp nodup).1, fun q member => ?_⟩
  apply isRam_of_handed fit.kernel fit.low fit.high
  rw [← Multiset.mem_coe, ← pages]
  exact Multiset.mem_add.mpr (.inl member)

/-- The commit: the process has the new image, the old one is freed, and no page of the new one
changes. -/
theorem commit_ok {image : UserImage} {post : Int → Sys → Prop} (ready : Ready layout s p old)
    (rest : Rest s t) (built : Image s.vm.alloc d sz t.vm.alloc)
    (continued : ∀ a, a.free + d.pages = s.vm.alloc.free + old.pages →
      (∀ q ∉ t.vm.alloc.free + old.pages, a.mem q = t.vm.alloc.mem q) →
      post 0 ((t.withImage p image).withAlloc a)) :
    Act.Ok panics (do
      let oldpgdir ← (kernel p file).commit image
      (kernel p file).alloc (freevmPtr layout oldpgdir)
      return (0 : Int)) post t := by
  have same : (t.vm.proc p).pgdir = some old := by
    rw [rest]
    exact ready.space
  have freed : Returns (freevm layout old) (fun _ a =>
      (∀ q ∉ t.vm.alloc.free + old.pages, a.mem q = t.vm.alloc.mem q) ∧
      a.free = t.vm.alloc.free + old.pages) t.vm.alloc :=
    (freevm_returns (ready.ram_later built)).and freevm_ok
  change Act.Ok panics (do
    let oldpgdir ← (do let s ← get; set (s.withImage p image); return (s.vm.proc p).pgdir)
    Act.zoom (fun s => s.vm.alloc) withAlloc (freevmPtr layout oldpgdir)
    return (0 : Int)) post t
  simp only [Act.ok_bind, Act.ok_get, Act.ok_set, Act.ok_pure, Act.ok_zoom, same]
  refine (freed.weaken fun _ wrong => wrong.elim).mono fun _ a after => ?_
  refine continued a ?_ after.1
  rw [after.2, ← built.hold.pages]
  grind

/-- `exec` has loaded the program and has its stack. -/
def Loaded (layout : Layout) (s : Sys) (p : Nat) (file : Option Reader) (path : List UInt8)
    (elf : Elfhdr) (sz : Nat) (d : PageDir) (t : Sys) : Prop :=
  execLoad layout (kernel p file) path s = .ok (some (elf, sz, d), t)

section

variable (loaded : Loaded layout s p file path elf sz d t)

include loaded

theorem Loaded.stacked (fit : layout.Fit) (pool : Pool layout s.vm.alloc) :
    Rest s t ∧ Stacked s.vm.alloc d sz t.vm.alloc := by
  have all : Returns (execLoad layout (kernel p file) path) (fun r u => ∀ elf sz d,
      r = some (elf, sz, d) → Rest s u ∧ Stacked s.vm.alloc d sz u.vm.alloc) s := by
    refine execLoad_wp (lawful s p file) fit pool (.refl s) ?_ ?_
    · exact fun u rest hold elf sz d wrong => absurd wrong (by simp)
    · grind
  rw [Returns, Act.Ok, loaded] at all
  exact all elf sz d rfl

/-- `exec` goes on with the arguments. -/
theorem Loaded.exec_eq :
    exec layout (kernel p file) path argv s =
      execArgs layout (kernel p file) path argv elf sz d t := by
  unfold Loaded at loaded
  simp only [exec, bind, StateT.bind, loaded, Except.bind]

/-- A fault while the arguments are pushed is one of `exec`. -/
theorem Loaded.exec_faults {panic : Panic} (faults : pushArgs d sz argv t.vm.alloc = .error panic) :
    exec layout (kernel p file) path argv s = .error panic := by
  rw [loaded.exec_eq]
  simp only [execArgs, bind, StateT.bind, Except.bind, kernel, Act.zoom, faults]

end

end Sys

/-! ### A small program -/

/-- An executable with one segment of two bytes, which is loaded at address 0. -/
def tinyProgram : List UInt8 :=
  bytes32 elfMagic ++ List.replicate 20 0 ++ bytes32 0 ++ bytes32 elfhdrSize ++
    List.replicate 12 0 ++ [1, 0] ++ List.replicate 6 0 ++
  bytes32 elfProgLoad ++ bytes32 84 ++ bytes32 0 ++ bytes32 0 ++ bytes32 2 ++ bytes32 100 ++
    bytes32 7 ++ bytes32 4096 ++ [0xeb, 0xfe]

/-- The processes of a state, with registers that nothing has set. -/
def Sys.fresh (vm : State) : Sys := ⟨vm, fun _ => ⟨0, 0⟩, fun _ => []⟩

/-- The first process of the small machine calls `exec` of the small program. -/
def tinyLoad (vm : State) : Except Panic (Option (Elfhdr × Nat × PageDir) × Sys) :=
  execLoad tinyLayout (Sys.kernel 0 (some (.ofFile tinyProgram))) [105, 110, 105, 116] (.fresh vm)

/-- What becomes of a program that was loaded. -/
def afterLoad {α : Type} (result : Except Panic (Option (Elfhdr × Nat × PageDir) × Sys))
    (next : Elfhdr → Nat → PageDir → Sys → Option α) : Option α :=
  match result with
  | .ok (some (elf, sz, d), t) => next elf sz d t
  | _ => none

theorem afterLoad_eq_some {α : Type} {value : α}
    {result : Except Panic (Option (Elfhdr × Nat × PageDir) × Sys)}
    {next : Elfhdr → Nat → PageDir → Sys → Option α} (found : afterLoad result next = some value) :
    ∃ elf sz d t, result = .ok (some (elf, sz, d), t) ∧ next elf sz d t = some value := by
  unfold afterLoad at found
  split at found
  · rename_i elf sz d t
    exact ⟨elf, sz, d, t, rfl, found⟩
  · contradiction

/-! ### `copyout` -/

/-- `copyout` returns: it has copied all the bytes to the user's pages, or it has failed; in no case
has it written to another page. -/
def Contained (d : PageDir) (va : Nat) (buf : List UInt8) (a : Alloc) : Prop :=
  Returns (copyout d va buf) (fun all a' =>
    (all = true → ∀ i < buf.length, ∃ q off, d.phys (va + i) = some (q, off) ∧
      a'.mem q off = buf.getD i 0) ∧
    ∀ q off, a'.mem q off ≠ a.mem q off → ∃ v, d.user v = some q) a

/-- In a page directory that `exec` built, `copyout` does what it should unless the first address
that is not the user's has no page table. -/
theorem copyout_contained_iff {path : List UInt8} {elf : Elfhdr} {sz va : Nat} {d : PageDir}
    {buf : List UInt8} {a : Alloc} (fit : layout.Fit) (pool : Pool layout s.vm.alloc)
    (loaded : Sys.Loaded layout s p file path elf sz d t) (inside : va < uintSize)
    (small : buf.length < uintSize) : Contained d va buf a ↔ ¬ Hole d va buf.length := by
  have image := (loaded.stacked fit pool).2.image
  have copied : Act.Ok (fun _ => Hole d va buf.length) (copyout d va buf) (CopiedTo d va buf a) a :=
    copyout_ok (image.once pool) inside (le_of_lt small)
  constructor
  · rintro contained ⟨k, below, users, absent⟩
    have both := contained.and copied
    unfold Act.Ok at both
    split at both
    · rename_i all a' _
      obtain ⟨-, n, -, copies, ends⟩ := both
      -- The copy has passed or stopped at an address that has a page table.
      have mapped : (d.phys (va + k)).isSome → d.HasTable (va + k) := fun found => by
        obtain ⟨spot, found⟩ := Option.isSome_iff_exists.mp found
        obtain ⟨user, -⟩ := PageDir.phys_eq_some.mp found
        obtain ⟨pte, entry, -⟩ := PageDir.user_eq_some.mp user
        exact Image.hasTable (by rw [entry]; rfl)
      have early (less : k < n) (bound : n ≤ buf.length) : False :=
        absent (mapped (copies.isSome (by rw [List.length_take]; omega)))
      cases all with
      | true =>
        rw [if_pos rfl] at ends
        exact early (by omega) (by omega)
      | false =>
        rw [if_neg Bool.false_ne_true] at ends
        obtain ⟨bound, forbidden, table⟩ := ends
        rcases Nat.lt_trichotomy k n with less | rfl | more
        · exact early less (by omega)
        · exact absent table
        · exact absurd (users n more) (by rw [forbidden]; simp)
    · exact both
  · intro none
    refine (copied.weaken fun _ hole => none hole).mono fun all a' result => ?_
    obtain ⟨n, -, copies, ends⟩ := result
    refine ⟨fun whole => ?_, fun q off changed => ?_⟩
    · subst whole
      rw [if_pos rfl] at ends
      rw [ends, List.take_length] at copies
      exact copies.copied
    · by_contra foreign
      refine changed (copies.rest q off fun i _ found => foreign ?_)
      exact ⟨_, (PageDir.phys_eq_some.mp found).1⟩

/-- After loading the small program: a byte for the stack page. -/
theorem copyout_contained_stack :
    ∃ vm elf d t, start tinyLayout 1 [] = some vm ∧
      Sys.Loaded tinyLayout (.fresh vm) 0 (some (.ofFile tinyProgram)) [105, 110, 105, 116] elf
        12288 d t ∧ Contained d 12000 [65] t.vm.alloc := by
  have executed : (start tinyLayout 1 []).bind (fun vm => afterLoad (tinyLoad vm)
      fun _ sz d _ => some (decide (sz = 12288 ∧ d.HasTable 12000))) = some true := by
    decide +kernel
  obtain ⟨vm, booted, found⟩ := Option.bind_eq_some_iff.mp executed
  obtain ⟨elf, sz, d, t, loaded, size⟩ := afterLoad_eq_some found
  obtain ⟨rfl, table⟩ := of_decide_eq_true (Option.some.inj size)
  refine ⟨vm, elf, d, t, booted, loaded, (copyout_contained_iff tinyLayout_fit
    (Sys.pool_of_inv tinyLayout_fit (start_inv booted)) loaded (by decide) (by decide)).mpr ?_⟩
  rintro ⟨k, less, -, absent⟩
  obtain rfl : k = 0 := Nat.lt_one_iff.mp less
  exact absent table

/-- `copyout` to an address in a region without a page table goes through a null pointer, and so
does `exec` with an argument that is longer than the image by 40 megabytes. -/
theorem copyout_null_pte :
    ∃ vm elf d t, start tinyLayout 1 [] = some vm ∧
      Sys.Loaded tinyLayout (.fresh vm) 0 (some (.ofFile tinyProgram)) [105, 110, 105, 116] elf
        12288 d t ∧ copyout d 0x90000000 [65] t.vm.alloc = .error .nullPte ∧
      ¬ Contained d 0x90000000 [65] t.vm.alloc ∧
      exec tinyLayout (Sys.kernel 0 (some (.ofFile tinyProgram))) [105, 110, 105, 116]
        [List.replicate 40000000 97] (.fresh vm) = .error .nullPte := by
  have executed : (start tinyLayout 1 []).bind (fun vm => afterLoad (tinyLoad vm)
      fun _ sz d _ => some (decide (sz = 12288 ∧ ¬ d.HasTable 0x90000000 ∧
        ¬ d.HasTable 4254979580))) = some true := by
    decide +kernel
  obtain ⟨vm, booted, found⟩ := Option.bind_eq_some_iff.mp executed
  obtain ⟨elf, sz, d, t, loaded, holds⟩ := afterLoad_eq_some found
  obtain ⟨rfl, gap, below⟩ := of_decide_eq_true (Option.some.inj holds)
  have faults : copyout d 0x90000000 [65] t.vm.alloc = .error .nullPte :=
    copyout_faults (by decide) (by simp) gap
  refine ⟨vm, elf, d, t, booted, loaded, faults, fun contained => ?_, ?_⟩
  · rw [Contained, Returns, Act.Ok, faults] at contained
    exact contained
  have place : sub32 12288 ((List.replicate 40000000 (97 : UInt8)).length + 1) / 4 * 4 =
      4254979580 := by
    rw [List.length_replicate]
    decide
  exact Sys.Loaded.exec_faults loaded (pushArgs_faults (by rw [place]; exact below))

/-! ### The arguments -/

section Arguments

variable {path : List UInt8} {argv : List (List UInt8)} {elf : Elfhdr} {sz : Nat} {d old : PageDir}
  {a₀ a a' : Alloc}

/-- What a user reads depends on the pages of the image only. -/
theorem Image.userByte_congr (image : Image a₀ d sz a) (same : ∀ q ∈ d.pages, a'.mem q = a.mem q) :
    userByte d a' = userByte d a := by
  funext va
  rw [userByte, userByte]
  cases found : d.phys va with
  | none => rfl
  | some spot =>
    rw [Option.map_some, Option.map_some, same _ (image.user_mem (PageDir.phys_eq_some.mp found).1)]

/-- Nothing is written outside the stack page. -/
theorem Wrote.other_pages (stacked : Stacked a₀ d sz a) (pool : Pool layout a₀)
    (wrote : Wrote d (sz - pgSize) sz a a') {v : Nat} {pte : Pte} (below : v < userPages)
    (other : v ≠ sz / pgSize - 1) (found : d.entry v = some pte) :
    a'.mem pte.page = a.mem pte.page := by
  funext off
  apply wrote.rest
  intro va low high same
  obtain ⟨user, -⟩ := PageDir.phys_eq_some.mp same
  obtain ⟨stack, entry, -, page⟩ := PageDir.user_eq_some.mp user
  have here := (stacked.image.process pool).once v below _ (stacked.image.user_lt user) pte stack
    found entry page.symm
  have small := stacked.below
  have aligned := stacked.aligned
  unfold kernbase at small
  unfold uintSize pgSize at *
  omega

/-- `exec` returns 0 if and only if the arguments fit in the stack page, and then the program finds
them there and the other pages are as they were loaded. -/
def PassesArguments (layout : Layout) (s : Sys) (p : Nat) (file : Option Reader)
    (path : List UInt8) (argv : List (List UInt8)) (sz : Nat) (d : PageDir) (t : Sys) : Prop :=
  Returns (exec layout (Sys.kernel p file) path argv) (fun r u => (r = 0 ↔ Fits argv) ∧
    (r = 0 → (u.vm.proc p).pgdir = some d ∧ (u.vm.proc p).sz = sz ∧
      decode (userByte d u.vm.alloc) (u.tf p).esp = some ⟨0xffffffff, argv.length, argv⟩ ∧
      ∀ v < userPages, v ≠ sz / pgSize - 1 → ∀ pte, d.entry v = some pte →
        u.vm.alloc.mem pte.page = t.vm.alloc.mem pte.page)) s

/-- The arguments of a program that loads are passed intact. -/
theorem exec_passes_arguments (fit : layout.Fit) (inv : Inv (handedPages layout) s.vm)
    (inside : p < nProc) (space : (s.vm.proc p).pgdir = some old)
    (loaded : Sys.Loaded layout s p file path elf sz d t) (few : argv.length ≤ maxArg - 1)
    (short : ∀ arg ∈ argv, arg.length < sz) (plain : ∀ arg ∈ argv, 0 ∉ arg) :
    PassesArguments layout s p file path argv sz d t := by
  have ready := Sys.ready_of_inv fit inv inside space
  obtain ⟨rest, stacked⟩ := loaded.stacked fit ready.pool
  have number : argv.length ≤ maxArg := le_trans few (Nat.sub_le _ _)
  rw [PassesArguments, Returns, Act.Ok, loaded.exec_eq]
  refine execArgs_wp (Sys.lawful s p file) ready.pool rest
    ((pushArgs_ok ready.pool stacked short).mono fun r a pushed => ⟨pushed.1.image, pushed.2⟩) ?_ ?_
  · intro a u rest' refused hold
    have tight : ¬ Fits argv := (refused.1 rfl).resolve_left (not_lt.mpr number)
    exact ⟨iff_of_false (by decide) tight, fun wrong => absurd wrong (by decide)⟩
  · intro sp u rest' image pushed
    obtain ⟨-, fits, wrote, decoded⟩ := pushed.2 sp rfl
    refine Sys.commit_ok ready rest' image fun a pages mem => ⟨iff_of_true rfl fits, fun _ => ?_⟩
    -- No page of the image is among those that `freevm` of the old address space writes to.
    have kept (q : Page) (member : q ∈ d.pages) : a.mem q = u.vm.alloc.mem q := by
      refine mem q fun freed => ?_
      have whole := ready.nodup
      rw [← image.hold.pages, add_right_comm] at whole
      exact Multiset.disjoint_left.mp (Multiset.nodup_add.mp whole).2.2 freed member
    refine ⟨?_, ?_, ?_, fun v below other pte found => ?_⟩
    · simp only [Sys.withAlloc, Sys.withImage, State.setProc, update_self]
    · simp only [Sys.withAlloc, Sys.withImage, State.setProc, update_self]
    · have register :
          (((u.withImage p ⟨d, sz, elf.entry, sp, progName path⟩).withAlloc a).tf p).esp =
          sp := by
        simp only [Sys.withAlloc, Sys.withImage, update_self]
      rw [register, ← decoded plain]
      exact congrArg (decode · sp) (image.userByte_congr kept)
    · exact (kept _ (PageDir.mem_pages below found)).trans
        (wrote.other_pages stacked ready.pool below other found)

end Arguments

/-- `ls -a` for the first process of the small machine. -/
theorem exec_passes_ls :
    ∃ vm old elf d t, start tinyLayout 1 [] = some vm ∧ (vm.proc 0).pgdir = some old ∧
      Sys.Loaded tinyLayout (.fresh vm) 0 (some (.ofFile tinyProgram)) [105, 110, 105, 116] elf
        12288 d t ∧
      PassesArguments tinyLayout (.fresh vm) 0 (some (.ofFile tinyProgram)) [105, 110, 105, 116]
        [[108, 115], [45, 97]] 12288 d t := by
  have executed : (start tinyLayout 1 []).bind (fun vm => (vm.proc 0).pgdir.bind fun _ =>
      afterLoad (tinyLoad vm) fun _ sz _ _ => some (decide (sz = 12288))) = some true := by
    decide +kernel
  obtain ⟨vm, booted, found⟩ := Option.bind_eq_some_iff.mp executed
  obtain ⟨old, space, found⟩ := Option.bind_eq_some_iff.mp found
  obtain ⟨elf, sz, d, t, loaded, size⟩ := afterLoad_eq_some found
  obtain rfl := of_decide_eq_true (Option.some.inj size)
  exact ⟨vm, old, elf, d, t, booted, space, loaded, exec_passes_arguments tinyLayout_fit
    (start_inv booted) (by decide) space loaded (by decide) (by decide) (by decide)⟩

end Xv6.Vm
