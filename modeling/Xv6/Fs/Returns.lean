import Xv6.Fs.Deadlock

/-!
# What a call leaves behind

A call of a process that runs alone reserves `maxOpBlocks` blocks of the log with each `begin_op`:
no transaction of it logs more. A call on names that fails leaves the disk as it was, except that
`open` does not take back the file that it has created when it then finds no descriptor.
-/

namespace Xv6.Fs

open Lib Finset Option

variable {sb : Superblock} {s t : State} {p : Nat} {call : Call}

/-! ## Transactions -/

/-- The superblock that `mkfs` writes, with a log of another size. -/
def mkfsSuperOf (nlog : Nat) : Superblock := { mkfsSuper with nlog := nlog }

theorem mkfsSuperOf_valid (nlog : Nat) : (mkfsSuperOf nlog).Valid :=
  ⟨mkfsSuper_valid.nblocks, mkfsSuper_valid.size, mkfsSuper_valid.root, mkfsSuper_valid.ninodes⟩

/-- One block holds the bitmap. -/
theorem mkfs_bitmap (nlog : Nat) : (mkfsSuperOf nlog).bitmap = {58} := by
  have few : mkfsSuper.size ≤ 4096 := by decide
  ext b
  rw [Superblock.bitmap, mem_image, Finset.mem_singleton]
  constructor
  · rintro ⟨c, inside, rfl⟩
    have small : c < 4096 := (Finset.mem_range.mp inside).trans_le few
    show c / 4096 + 58 = 58
    omega
  · rintro rfl
    exact ⟨0, Finset.mem_range.mpr (Nat.succ_pos 999), rfl⟩

/-- What is left of the log when a call on the file system that `mkfs` makes has logged all it
may. -/
theorem mkfs_means {nlog : Nat} (enough : maxOpBlocks < nlog) :
    Means (mkfsSuperOf nlog) (fun error => error ≠ .tooBig ∧ error ≠ .outsideTrans)
      ((mkfsSuperOf nlog).logRoom - maxOpBlocks) := by
  have room : maxOpBlocks ≤ (mkfsSuperOf nlog).logRoom :=
    Nat.le_min.mpr ⟨by decide, Nat.le_sub_one_of_lt enough⟩
  refine ⟨⟨by decide, by decide, by decide⟩, .inr ?_⟩
  rw [mkfs_bitmap, Finset.card_singleton]
  unfold maxOpBlocks at *
  omega

/-- On the file system that `mkfs` lays out, whatever the size of its log beyond `maxOpBlocks`, no
call finds the log full, and each transaction of a completed call has logged at most `maxOpBlocks`
blocks. -/
theorem transactions_fit {nlog : Nat} (enough : maxOpBlocks < nlog)
    (rest : AtRest (mkfsSuperOf nlog) s) (ready : call.ready s p = true) :
    (syscall (mkfsSuperOf nlog) p call).run s [] ≠ .panic .tooBig ∧
    ∀ r t held, (syscall (mkfsSuperOf nlog) p call).run s [] = .done r t held →
      ∃ ended, t.commits = s.commits ++ ended ∧
        ∀ blocks ∈ ended, blocks.Nodup ∧ blocks.length ≤ maxOpBlocks := by
  have room : maxOpBlocks ≤ (mkfsSuperOf nlog).logRoom :=
    Nat.le_min.mpr ⟨by decide, Nat.le_sub_one_of_lt enough⟩
  have wp : Prog.Wp (fun error => error ≠ .tooBig ∧ error ≠ .outsideTrans) (fun _ => True)
      (syscall (mkfsSuperOf nlog) p call) (fun _ t _ => ∃ ended, t.commits = s.commits ++ ended ∧
        ∀ blocks ∈ ended, blocks.Nodup ∧ blocks.length ≤ maxOpBlocks) s [] := by
    have full : (fun error => error ≠ Panic.tooBig ∧ error ≠ Panic.outsideTrans) .dirlink := by
      decide
    apply syscall_rest (mkfs_means enough) (mkfsSuperOf_valid nlog) (fun _ _ _ _ _ _ => .inl full)
      rest ready (.inl (by decide)) (by decide) (by decide) (.inl fun _ => trivial)
      (fun _ _ => trivial)
    intro r t served
    obtain ⟨ended, commits, fits⟩ := served.fits.resolve_left fun expected => expected.1.1 rfl
    refine ⟨ended, commits, fun blocks member => ⟨(fits blocks member).1, ?_⟩⟩
    have left := (fits blocks member).2
    omega
  refine ⟨fun panicked => ?_, fun r t held done => wp.of_done done⟩
  rw [Prog.Wp, panicked] at wp
  exact wp.1 rfl

/-- The directory "a" is made, in a transaction of four blocks. -/
theorem transactions_fit_mkfs :
    ∃ r t held, (syscall mkfsSuper 1 (.mkdir [97])).run (boot mkfsDisk) [] = .done r t held ∧
      t.commits = [[32, 58, 60, 59]] ∧
      ∃ ended, t.commits = (boot mkfsDisk).commits ++ ended ∧
        ∀ blocks ∈ ended, blocks.Nodup ∧ blocks.length ≤ maxOpBlocks := by
  have executed : ((syscall mkfsSuper 1 (.mkdir [97])).run (boot mkfsDisk) []).result?.map
      (fun result => result.2.commits) = some [[32, 58, 60, 59]] := by decide +kernel
  obtain ⟨result, run, logged⟩ := map_eq_some_iff.mp executed
  obtain ⟨held, done⟩ := Outcome.done_of_result run
  have enough : maxOpBlocks < 30 := by decide
  have rest : AtRest (mkfsSuperOf 30) (boot mkfsDisk) := boot_rest mkfsSuper_valid mkfs_image
  have ready : (Call.mkdir [97]).ready (boot mkfsDisk) 1 = true := by decide
  have fit := transactions_fit enough rest ready
  exact ⟨result.1, result.2, held, done, logged, fit.2 _ _ held done⟩

/-! ## Failed calls -/

/-- The names, their inodes, the link counts, the sizes, the contents and the sets of inodes and
blocks in use are the same. -/
structure Untouched (sb : Superblock) (d later : Disk) : Prop where
  node : later.node sb = d.node sb
  alloc : ∀ i, later.Alloc sb i ↔ d.Alloc sb i
  size : ∀ i, d.Alloc sb i → (later.dinode i).size = (d.dinode i).size
  byte : ∀ i o, d.Alloc sb i → o < (d.dinode i).size → later.byte i o = d.byte i o
  bitmap : later.bitmap = d.bitmap

theorem Untouched.refl (sb : Superblock) (d : Disk) : Untouched sb d d :=
  ⟨rfl, fun _ => Iff.rfl, fun _ _ => rfl, fun _ _ _ _ => rfl, rfl⟩

/-- A call on names that returns -1 has changed nothing, if and only if it is no call that creates a
file under a name that is new to an existing directory. -/
theorem failed_call_untouched_iff (valid : sb.Valid) (rest : AtRest sb s)
    (ready : call.ready s p = true) (names : call.NameSpace) {held : List Nat}
    (result : (syscall sb p call).run s [] = .done (-1) t held) :
    Untouched sb s.disk t.disk ↔ ¬ call.Adds (s.disk.node sb) (s.cwdOf p) := by
  have wp : Prog.Wp Panic.Possible (fun _ => True) (syscall sb p call)
      (fun r t _ => Served sb Panic.Possible 0 p call s r t) s [] :=
    syscall_full (fun _ => .exhausted) valid rest ready (.inl .noType) .nlink .initExiting
      (.inl fun _ => trivial) (fun _ _ => trivial) fun _ _ served => served
  have served : Served sb Panic.Possible 0 p call s (-1) t := wp.of_done result
  rcases served.failed names rfl with ⟨same, old⟩ | ⟨adds, changed⟩
  · refine ⟨fun _ => old, fun _ => ?_⟩
    rw [same]
    exact .refl sb s.disk
  · exact ⟨fun untouched => absurd untouched.node changed, fun old => absurd adds old⟩

/-- The directory "/" has a name ".", so that it is not made again. -/
theorem failed_call_untouched_mkfs : ∃ t held,
    (syscall mkfsSuper 1 (.mkdir [46])).run (boot mkfsDisk) [] = .done (-1) t held ∧
    (Untouched mkfsSuper mkfsDisk t.disk ↔
      ¬ (Call.mkdir [46]).Adds (mkfsDisk.node mkfsSuper) ((boot mkfsDisk).cwdOf 1)) := by
  have executed : ((syscall mkfsSuper 1 (.mkdir [46])).run (boot mkfsDisk) []).result?.map
      Prod.fst = some (-1) := by decide +kernel
  obtain ⟨t, held, result⟩ := Outcome.eq_done executed
  exact ⟨t, held, result, failed_call_untouched_iff mkfsSuper_valid
    (boot_rest mkfsSuper_valid mkfs_image) (by decide) trivial result⟩

/-- A process has all its descriptors open on "/" and asks for a new file "a": the call fails, and
the file stays. -/
theorem failed_open_leaves_file : ∃ s t held,
    Reached mkfsSuper (boot mkfsDisk) s ∧
    (syscall mkfsSuper 1 (.open [97] oCreate)).run s [] = .done (-1) t held ∧
    lookup (s.disk.node mkfsSuper rootIno).ents [97] = none ∧
    lookup (t.disk.node mkfsSuper rootIno).ents [97] = some 2 ∧
    ¬ s.disk.Alloc mkfsSuper 2 ∧ t.disk.Alloc mkfsSuper 2 ∧
    ¬ Untouched mkfsSuper s.disk t.disk := by
  have executed : (runChecked (callStep mkfsSuper) (fun _ _ => True)
      (List.replicate nOFile (1, .open [46] 0)) (boot mkfsDisk)).map
      (fun s => decide (lookup (s.disk.node mkfsSuper rootIno).ents [97] = none ∧
        ¬ s.disk.Alloc mkfsSuper 2) &&
        (((syscall mkfsSuper 1 (.open [97] oCreate)).run s []).result?.map fun result =>
          decide (result.1 = -1 ∧
            lookup (result.2.disk.node mkfsSuper rootIno).ents [97] = some 2 ∧
            result.2.disk.Alloc mkfsSuper 2)) == some true) = some true := by
    decide +kernel
  obtain ⟨s, run, observed⟩ := map_eq_some_iff.mp executed
  obtain ⟨before, after⟩ := Bool.and_eq_true_iff.mp observed
  obtain ⟨absent, unused⟩ := of_decide_eq_true before
  obtain ⟨⟨r, t⟩, done, later⟩ := map_eq_some_iff.mp (beq_iff_eq.mp after)
  obtain ⟨rfl, present, used⟩ := of_decide_eq_true later
  obtain ⟨held, result⟩ := Outcome.done_of_result done
  exact ⟨s, t, held, reach_of_runChecked _ .start run, result, absent, present, unused, used,
    fun untouched => unused ((untouched.alloc 2).mp used)⟩

end Xv6.Fs
