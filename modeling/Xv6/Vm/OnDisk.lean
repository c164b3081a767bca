import Xv6.Fs.Path
import Xv6.Vm.Stack

/-!
# `exec` on the file system

The code of `exec` with the file system below it: the transaction, the path, the inode with its
reference and its lock, and the bytes that `readi` finds. Every way out of it that returns −1 leaves
the process, the free pages, the inode cache and the log as they were.
-/

namespace Xv6.Vm

open Lib
open Prog (Wp wp_bind wp_get wp_lift wp_set wp_zoom)
open Xv6.Fs (FsProg Superblock Cached Kept Quiet Navigable)

/-- Processes, memory and the file system, with what a device will answer to reads. -/
structure Machine where
  fs : Fs.State
  sys : Sys
  device : List (Option (List UInt8))

/-- Code of the kernel with all its panics. -/
abbrev MachineM : Type → Type := Prog Machine Nat (Fs.Panic ⊕ Panic)

namespace Machine

/-- The file system of a machine. -/
def fsLens : Lens Machine Fs.State where
  view m := m.fs
  update m fs := { m with fs := fs }
  view_update _ _ := rfl
  update_view _ := rfl
  update_update _ _ _ := rfl

/-- The allocator and the memory of a machine. -/
def allocLens : Lens Machine Alloc where
  view m := m.sys.vm.alloc
  update m a := { m with sys := m.sys.withAlloc a }
  view_update _ _ := rfl
  update_view _ := rfl
  update_update _ _ _ := rfl

/-- Code of the file system. -/
def onFs {α : Type} (program : FsProg α) : MachineM α := program.zoom fsLens .inl

/-- Code that allocates and frees. -/
def onAlloc {α : Type} (act : AllocM α) : MachineM α :=
  (Prog.lift act : Prog Alloc Nat Panic α).zoom allocLens .inr

/-- `readi` by `exec`; a device fills at most the bytes that it is asked for. -/
def readi (sb : Superblock) (ip off n : Nat) : MachineM (Option (List UInt8)) := do
  let m ← get
  set { m with device := m.device.tail }
  onFs (Fs.readi sb ip off n (m.device.headD none |>.map (List.take n)))

/-- The kernel around a call of `exec` by process `p`. -/
def kernel (sb : Superblock) (p : Nat) : Kernel MachineM Nat where
  beginOp := onFs Fs.beginOp
  endOp := onFs Fs.endOp
  namei path := onFs (Fs.namei sb p path)
  ilock ip := onFs (Fs.ilock ip)
  iunlockput ip := onFs (Fs.iunlockput sb ip)
  readi ip off n := readi sb ip off n
  alloc act := onAlloc act
  commit image := do
    let m ← get
    set { m with sys := m.sys.withImage p image }
    return (m.sys.vm.proc p).pgdir

section Rules

variable {α : Type} {panics : Fs.Panic ⊕ Panic → Prop} {deadlocks : Nat → Prop} {m : Machine}
  {held : List Nat} {post : α → Machine → List Nat → Prop}

theorem wp_onFs {program : FsProg α} : Wp panics deadlocks (onFs program) post m held ↔
    Wp (fun error => panics (.inl error)) deadlocks program
      (fun value fs locks => post value { m with fs := fs } locks) m.fs held := wp_zoom

theorem wp_onAlloc {act : AllocM α} : Wp panics deadlocks (onAlloc act) post m held ↔
    Act.Ok (fun error => panics (.inr error)) act
      (fun value a => post value { m with sys := m.sys.withAlloc a } held) m.sys.vm.alloc :=
  wp_zoom.trans wp_lift

end Rules

end Machine

/-! ### The file system around a call -/

/-- The file system while `exec` works: `later` are the references, and `ops` operations of the log
have begun since. -/
structure Undisturbed (sb : Superblock) (refs later : Multiset Nat) (ops : Nat) (s t : Fs.State) :
    Prop where
  cached : Cached sb later t
  proc : t.proc = s.proc
  inum : ∀ ip ∈ refs, (t.inode ip).inum = (s.inode ip).inum
  filled : ∀ ip ∈ refs, (s.inode ip).valid = true → (t.inode ip).valid = true
  disk : t.disk = s.disk
  outstanding : t.outstanding = s.outstanding + ops
  lh : t.lh.length ≤ s.lh.length

namespace Undisturbed

variable {sb : Superblock} {refs later last : Multiset Nat} {ops p ip : Nat} {s t u : Fs.State}

theorem refl (cached : Cached sb refs s) : Undisturbed sb refs refs 0 s s :=
  ⟨cached, rfl, fun _ _ => rfl, fun _ _ filled => filled, rfl, rfl, le_rfl⟩

/-- Work that leaves the disk as it is. -/
theorem quiet (same : Undisturbed sb refs later ops s t) (quiet : Quiet sb refs last t u) :
    Undisturbed sb refs last ops s u where
  cached := quiet.cached
  proc := quiet.steady.proc.trans same.proc
  inum ip member := (quiet.inum member).trans (same.inum ip member)
  filled ip member filled := quiet.valid member (same.filled ip member filled)
  disk := quiet.disk.trans same.disk
  outstanding := quiet.steady.outstanding.trans same.outstanding
  lh := by
    rw [quiet.lh]
    exact same.lh

theorem begun (same : Undisturbed sb refs later ops s t) :
    Undisturbed sb refs later (ops + 1) s t.begun where
  cached := same.cached.begun
  proc := same.proc
  inum := same.inum
  filled := same.filled
  disk := same.disk
  outstanding := congrArg (· + 1) same.outstanding
  lh := same.lh

theorem ended (same : Undisturbed sb refs later (ops + 1) s t) :
    Undisturbed sb refs later ops s t.ended where
  cached := same.cached.ended
  proc := same.proc
  inum := same.inum
  filled := same.filled
  disk := same.disk
  outstanding := by
    have before := same.outstanding
    unfold Fs.State.ended
    dsimp only
    omega
  lh := by
    have before := same.lh
    unfold Fs.State.ended
    dsimp only
    split
    · exact Nat.zero_le _
    · exact before

theorem kept (same : Undisturbed sb refs later ops s t) (kept : Kept sb refs s) :
    Kept sb refs t := by
  grind [cases Undisturbed, Fs.Kept]

/-- The reference counts are the same. -/
theorem ref_eq (same : Undisturbed sb refs refs ops s t) (cached : Cached sb refs s) (ip : Nat) :
    (t.inode ip).ref = (s.inode ip).ref := by
  rw [same.cached.count, cached.count]

end Undisturbed

section Exec

variable {sb : Superblock} {refs : Multiset Nat} {m t : Machine} {p : Nat} {layout : Layout}
  {held : List Nat}

/-- How far `exec` is, as the file system shows it. -/
def atPhase (sb : Superblock) (refs : Multiset Nat) (m : Machine) (now : Phase Nat)
    (state : Machine × List Nat) : Prop :=
  state.1.sys = m.sys.withAlloc state.1.sys.vm.alloc ∧
  match now with
  | .idle => state.2 = [] ∧ Undisturbed sb refs refs 0 m.fs state.1.fs
  | .began => state.2 = [] ∧ Undisturbed sb refs refs 1 m.fs state.1.fs
  | .named ip => state.2 = [] ∧ Undisturbed sb refs (ip ::ₘ refs) 1 m.fs state.1.fs ∧
      (m.fs.disk.node sb (state.1.fs.inode ip).inum).kind ≠ .free
  | .locked ip => state.2 = [ip] ∧ Undisturbed sb refs (ip ::ₘ refs) 1 m.fs state.1.fs ∧
      (state.1.fs.inode ip).valid = true

/-- The log has room for another operation. -/
def LogRoom (s : Fs.State) : Prop := s.lh.length + (s.outstanding + 1) * maxOpBlocks ≤ logSize

/-- The file system is a kernel around `exec` that keeps to its rules. -/
theorem Machine.lawful (valid : sb.Valid) (ready : Navigable sb refs p m.fs)
    (slots : refs.toFinset.card + 2 ≤ nInode) (room : LogRoom m.fs) :
    Lawful (Prog.logic (fun _ => False) fun _ => False) (fun _ => False) (Machine.kernel sb p)
      (fun state => state.1.sys.vm.alloc) (atPhase sb refs m) where
  beginOp := by
    rintro ⟨t, held⟩ post ⟨sys, rfl, same⟩ continued
    refine wp_onFs.mpr ?_
    simp only [Fs.beginOp, Prog.wp_await, wp_lift, Act.ok_modify, decide_eq_true_eq]
    refine ⟨?_, continued (_, []) rfl ⟨sys, rfl, same.begun⟩⟩
    unfold LogRoom at room
    have lh : t.fs.lh.length ≤ m.fs.lh.length := same.lh
    have outstanding : t.fs.outstanding = m.fs.outstanding := same.outstanding
    rw [outstanding]
    omega
  endOp := by
    rintro ⟨t, held⟩ post ⟨sys, rfl, same⟩ continued
    have ends : Wp (fun _ => False) (fun _ => False) (onFs Fs.endOp)
        (fun value later locks => post value (later, locks)) t [] := by
      rw [wp_onFs, Fs.endOp_wp]
      exact continued (_, []) rfl ⟨sys, rfl, same.ended⟩
    exact ends
  namei := by
    rintro path ⟨t, held⟩ post ⟨sys, rfl, same⟩ failed found
    refine wp_onFs.mpr ?_
    have disk : t.fs.disk = m.fs.disk := same.disk
    have proc : t.fs.proc = m.fs.proc := same.proc
    have cwd : t.fs.cwdOf p = m.fs.cwdOf p := by
      rw [Fs.State.cwdOf, proc]
      exact same.inum _ ready.cwd
    apply Fs.namei_wp valid (.inr slots) same.cached (same.kept ready.kept)
    · rw [proc]
      exact ready.cwd
    · refine .inr ?_
      rw [disk]
      exact ⟨ready.whole, cwd ▸ ready.used⟩
    · intro u _ quiet
      exact failed (_, []) rfl ⟨sys, rfl, same.quiet quiet⟩
    · intro ip last u _ quiet used
      refine found ip (_, []) rfl ⟨sys, rfl, same.quiet quiet, ?_⟩
      have same : u.disk = m.fs.disk := quiet.disk.trans disk
      rw [← same]
      exact used.resolve_left id
  ilock := by
    rintro ip ⟨t, held⟩ post ⟨sys, rfl, same, used⟩ continued
    refine wp_onFs.mpr ?_
    have disk : t.fs.disk = m.fs.disk := same.disk
    rw [← disk] at used
    apply Fs.ilock_typed same.cached (Multiset.mem_cons_self ip refs) (.inr used)
    intro u quiet filled
    exact continued (_, [ip]) rfl ⟨sys, rfl, same.quiet quiet.of_cons, filled⟩
  iunlockput := by
    rintro ip ⟨t, held⟩ post ⟨sys, rfl, same, -⟩ continued
    refine wp_onFs.mpr ?_
    apply Fs.iunlockput_quiet valid same.cached (same.kept ready.kept) (by simp)
    intro u quiet
    exact continued (_, []) rfl ⟨sys, rfl, same.quiet quiet⟩
  readi := by
    rintro ip off n ⟨t, held⟩ post ⟨sys, rfl, same, filled⟩ continued
    change Wp _ _ (readi sb ip off n) _ _ _
    simp only [readi, wp_bind, wp_get, wp_set]
    refine wp_onFs.mpr ?_
    apply Fs.readi_wp same.cached (Multiset.mem_cons_self ip refs) filled
    intro r u quiet still
    exact continued r (_, [ip]) rfl ⟨sys, rfl, same.quiet quiet.of_cons, still⟩
  alloc := by
    rintro α act now ⟨t, held⟩ post ⟨sys, fs⟩ ok
    refine wp_onAlloc.mpr (ok.mono fun value a met => met (_, held) rfl ⟨?_, fs⟩)
    dsimp only at sys ⊢
    rw [sys]
    rfl

/-- Nothing shows that `exec` was called. -/
structure Invisible (m t : Machine) : Prop where
  proc : t.sys.vm.proc = m.sys.vm.proc
  tf : t.sys.tf = m.sys.tf
  name : t.sys.name = m.sys.name
  free : t.sys.vm.alloc.free = m.sys.vm.alloc.free
  ref : ∀ ip, (t.fs.inode ip).ref = (m.fs.inode ip).ref
  outstanding : t.fs.outstanding = m.fs.outstanding

theorem Invisible.of_idle (cached : Cached sb refs m.fs)
    (idle : atPhase sb refs m .idle (t, held)) (hold : Hold m.sys.vm.alloc 0 t.sys.vm.alloc) :
    held = [] ∧ Invisible m t := by
  obtain ⟨sys, none, same⟩ := idle
  dsimp only at sys none same
  have pages := hold.pages
  rw [add_zero] at pages
  refine ⟨none, ?_, ?_, ?_, pages, same.ref_eq cached, same.outstanding⟩
  all_goals rw [sys]; rfl

/-- The last part of `exec` returns: the old address space can be freed. -/
theorem Machine.commit_wp {old d : PageDir} {sz : Nat} {image : UserImage}
    {post : Int → Machine → List Nat → Prop} (ready : Sys.Ready layout m.sys p old)
    (same : t.sys = m.sys.withAlloc t.sys.vm.alloc)
    (built : Image m.sys.vm.alloc d sz t.sys.vm.alloc) (continued : ∀ u, post 0 u held) :
    Wp (fun _ => False) (fun _ => False) (do
      let oldpgdir ← (kernel sb p).commit image
      (kernel sb p).alloc (freevmPtr layout oldpgdir)
      return (0 : Int)) post t held := by
  have space : (t.sys.vm.proc p).pgdir = some old := by
    rw [same]
    exact ready.space
  change Wp _ _ (do
    let oldpgdir ← (do
      let m ← get
      set { m with sys := m.sys.withImage p image }
      return (m.sys.vm.proc p).pgdir)
    onAlloc (freevmPtr layout oldpgdir)
    return (0 : Int)) post t held
  simp only [wp_bind, wp_get, wp_set, Prog.wp_pure, space]
  exact wp_onAlloc.mpr ((freevm_returns (ready.ram_later built)).mono fun _ _ _ => continued _)

/-- A failed `exec` is invisible: with two free entries in the inode cache `exec` returns, whatever
the file holds and whenever `kalloc` fails, and if it returns −1 nothing shows that it was
called. -/
theorem failed_exec_invisible {old : PageDir} {path : List UInt8} {argv : List (List UInt8)}
    (valid : sb.Valid) (fit : layout.Fit) (ready : Navigable sb refs p m.fs)
    (slots : refs.toFinset.card + 2 ≤ nInode) (room : LogRoom m.fs)
    (inv : Inv (handedPages layout) m.sys.vm) (inside : p < nProc)
    (space : (m.sys.vm.proc p).pgdir = some old)
    (short : ∀ elf sz d t held, (execLoad layout (Machine.kernel sb p) path).run m [] =
      .done (some (elf, sz, d)) t held → ∀ arg ∈ argv, arg.length < sz) :
    ∃ r t, (exec layout (Machine.kernel sb p) path argv).run m [] = .done r t [] ∧
      (r = 0 ∨ r = -1 ∧ Invisible m t) := by
  have lawful := Machine.lawful valid ready slots room
  have process := Sys.ready_of_inv fit inv inside space
  have idle : atPhase sb refs m .idle (m, []) := ⟨rfl, rfl, .refl ready.cached⟩
  have load : Wp (fun _ => False) (fun _ => False)
      (execLoad layout (Machine.kernel sb p) path) (fun r t held =>
        (r = none → held = [] ∧ Invisible m t) ∧ ∀ elf sz d, r = some (elf, sz, d) →
          atPhase sb refs m .idle (t, held) ∧
          Stacked m.sys.vm.alloc d sz t.sys.vm.alloc) m [] := by
    refine Prog.wp_of_logic (execLoad_wp lawful fit process.pool idle ?_ ?_)
    · exact fun t idle hold => ⟨fun _ => Invisible.of_idle ready.cached idle hold, nofun⟩
    · intro elf sz d t idle stacked
      refine ⟨nofun, ?_⟩
      rintro _ _ _ ⟨⟩
      exact ⟨idle, stacked⟩
  have whole : Wp (fun _ => False) (fun _ => False)
      (exec layout (Machine.kernel sb p) path argv) (fun r t held =>
        held = [] ∧ (r = 0 ∨ r = -1 ∧ Invisible m t)) m [] := by
    refine wp_bind.mpr (load.self.mono ?_ (fun _ => id) fun _ => id)
    rintro r t held ⟨⟨failed, loaded⟩, run⟩
    cases r with
    | none => exact ⟨(failed rfl).1, .inr ⟨rfl, (failed rfl).2⟩⟩
    | some image =>
      obtain ⟨elf, sz, d⟩ := image
      obtain ⟨idle, stacked⟩ := loaded elf sz d rfl
      have pushed : Act.Ok (fun _ => False) (pushArgs d sz argv)
          (fun _ a => Image m.sys.vm.alloc d sz a ∧ True) t.sys.vm.alloc :=
        (pushArgs_ok process.pool stacked (short elf sz d t held run)).mono
          fun r a pushed => ⟨pushed.1.image, trivial⟩
      refine Prog.wp_of_logic (execArgs_wp lawful process.pool idle pushed ?_ ?_)
      · intro a u idle _ hold
        obtain ⟨none, hidden⟩ := Invisible.of_idle ready.cached idle hold
        exact ⟨none, .inr ⟨rfl, hidden⟩⟩
      · intro sp u idle image _
        refine Machine.commit_wp process idle.1 image fun _ => ⟨idle.2.1, .inl rfl⟩
  obtain ⟨r, t, held, run, none, result⟩ := whole.total
  subst none
  exact ⟨r, t, run, result⟩

end Exec

/-- `exec("/")` by the first process: a directory is not a program. -/
theorem failed_exec_invisible_directory :
    ∃ first t, start tinyLayout 1 [] = some first ∧
      (exec tinyLayout (Machine.kernel Fs.mkfsSuper 0) [47] []).run
        ⟨Fs.boot Fs.mkfsDisk, .fresh first, []⟩ [] = .done (-1) t [] ∧
      Invisible ⟨Fs.boot Fs.mkfsDisk, .fresh first, []⟩ t := by
  have executed : ((start tinyLayout 1 []).bind fun first => (first.proc 0).pgdir.bind fun _ =>
      ((exec tinyLayout (Machine.kernel Fs.mkfsSuper 0) [47] []).run
        ⟨Fs.boot Fs.mkfsDisk, .fresh first, []⟩ []).result?.map Prod.fst) = some (-1) := by
    decide +kernel
  obtain ⟨first, booted, found⟩ := Option.bind_eq_some_iff.mp executed
  obtain ⟨old, space, returned⟩ := Option.bind_eq_some_iff.mp found
  have room : LogRoom (Fs.boot Fs.mkfsDisk) := by
    unfold LogRoom
    decide
  have invisible : ∃ r t, (exec tinyLayout (Machine.kernel Fs.mkfsSuper 0) [47] []).run
      ⟨Fs.boot Fs.mkfsDisk, .fresh first, []⟩ [] = .done r t [] ∧
      (r = 0 ∨ r = -1 ∧ Invisible ⟨Fs.boot Fs.mkfsDisk, .fresh first, []⟩ t) :=
    failed_exec_invisible Fs.mkfsSuper_valid tinyLayout_fit (Fs.mkfs_navigable 0) (by decide) room
      (start_inv booted) (by decide) space (by simp)
  obtain ⟨r, t, run, result⟩ := invisible
  rw [run] at returned
  cases returned
  exact ⟨first, t, booted, run, (result.resolve_left (by decide)).2⟩

/-- With no free entry in the inode cache even `exec("/")` panics. -/
theorem exec_panics_crowded :
    ∃ first, start tinyLayout 1 [] = some first ∧
      Navigable Fs.mkfsSuper (Multiset.range nInode) 0 (Fs.crowded nInode) ∧
      (exec tinyLayout (Machine.kernel Fs.mkfsSuper 0) [47] []).run
        ⟨Fs.crowded nInode, .fresh first, []⟩ [] = .panic (.inl .iget) := by
  have executed : ((start tinyLayout 1 []).bind fun first =>
      ((exec tinyLayout (Machine.kernel Fs.mkfsSuper 0) [47] []).run
        ⟨Fs.crowded nInode, .fresh first, []⟩ []).error?) = some (.inl .iget) := by
    decide +kernel
  obtain ⟨first, booted, panicked⟩ := Option.bind_eq_some_iff.mp executed
  exact ⟨first, booted, Fs.crowded_navigable (by decide) le_rfl, Outcome.eq_panic panicked⟩

end Xv6.Vm
