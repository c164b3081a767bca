import Mathlib.Data.List.Nodup
import Xv6.Block
import Xv6.Lib.Store

/-!
# The redo log and its recovery

`log.c` commits a transaction by copying the cached blocks to the log, writing the header,
installing the copies at their home blocks and clearing the header. `recover_from_log` repeats
the installation from whatever header it finds. Both are programs of single-block reads through
the buffer cache and single-block writes; a write is atomic and writes reach the disk in program
order, which is what `Lib.Io` says of its cells. A stop loses the cache.

Three kinds of disk cover every stop: the header is empty and the home blocks are the old ones;
the header names the transaction, its copies are complete and every home block is old or new;
the header is empty and the home blocks are the new ones.
-/

namespace Xv6.Log

open Function Lib List Store

/-- `log.start` and `log.size`; the area begins with its header block. -/
structure LogArea where
  /-- Block number of the header. -/
  start : Nat
  /-- Blocks of the area, the header included. -/
  size : Nat
  /-- The header block is part of the area. -/
  header : 0 < size

/-- Whether a block number lies in the log area; every other block is a home block. -/
def LogArea.Contains (area : LogArea) (blockno : Nat) : Prop :=
  area.start ≤ blockno ∧ blockno < area.start + area.size

instance (area : LogArea) (blockno : Nat) : Decidable (area.Contains blockno) :=
  inferInstanceAs (Decidable (_ ∧ _))

/-- Kernel code between two block writes. -/
abbrev LogIo := Io Nat Block

/-- `bread` — the contents of a block as the buffer cache has them. -/
def bread (blockno : Nat) : LogIo Block := .read blockno .ret

/-- `bwrite` — one block to the cache and the disk. -/
def bwrite (blockno : Nat) (data : Block) : LogIo Unit := .write blockno data (.ret ())

/-- Loop of `write_head`: `hb->block[i] = log.lh.block[i]` from position `index` on. -/
def storeBlocks (buf : Block) (index : Nat) : List Nat → Block
  | [] => buf
  | blockno :: rest => storeBlocks (buf.setWord (index + 1) blockno) (index + 1) rest

/-- The header buffer after `write_head` has stored `n` and the first `n` block numbers; the
remaining entries keep what the buffer held. -/
def encodeHeader (buf : Block) (lh : List Nat) : Block :=
  storeBlocks (buf.setWord 0 lh.length) 0 lh

/-- The in-memory header `read_head` fills: the first `n` block numbers of the buffer. -/
def decodeHeader (buf : Block) : List Nat :=
  (range (Block.count (buf.word 0))).map fun index => buf.word (index + 1)

/-- `read_head`. -/
def readHead (area : LogArea) : LogIo (List Nat) := do
  let buf ← bread area.start
  return decodeHeader buf

/-- `write_head`. -/
def writeHead (area : LogArea) (lh : List Nat) : LogIo Unit := do
  let buf ← bread area.start
  bwrite area.start (encodeHeader buf lh)

/-- Loop of `write_log` from position `tail` on. -/
def writeLogFrom (area : LogArea) (tail : Nat) : List Nat → LogIo Unit
  | [] => return
  | blockno :: rest => do
    let _to ← bread (area.start + tail + 1)
    let source ← bread blockno
    bwrite (area.start + tail + 1) source
    writeLogFrom area (tail + 1) rest

/-- `write_log`. -/
def writeLog (area : LogArea) (lh : List Nat) : LogIo Unit := writeLogFrom area 0 lh

/-- Loop of `install_trans` from position `tail` on. -/
def installTransFrom (area : LogArea) (tail : Nat) : List Nat → LogIo Unit
  | [] => return
  | blockno :: rest => do
    let lbuf ← bread (area.start + tail + 1)
    let _dbuf ← bread blockno
    bwrite blockno lbuf
    installTransFrom area (tail + 1) rest

/-- `install_trans`. -/
def installTrans (area : LogArea) (lh : List Nat) : LogIo Unit := installTransFrom area 0 lh

/-- `commit`. -/
def commit (area : LogArea) (lh : List Nat) : LogIo Unit := do
  if 0 < lh.length then
    writeLog area lh
    writeHead area lh
    installTrans area lh
    writeHead area []

/-- `recover_from_log`. -/
def recoverFromLog (area : LogArea) : LogIo Unit := do
  let lh ← readHead area
  installTrans area lh
  writeHead area []

/-- An in-memory `log.lh` that `commit` can be given: distinct home blocks, no more than the
area has room for behind its header and the array has entries. -/
structure Transaction (area : LogArea) where
  /-- `log.lh.block[0 .. log.lh.n)`. -/
  block : List Nat
  /-- `log_write` absorbs a second write of a block. -/
  distinct : block.Nodup
  /-- Only home blocks are logged. -/
  home : ∀ blockno ∈ block, ¬ area.Contains blockno
  /-- `log.lh.n <= log.size - 1`. -/
  room : block.length ≤ area.size - 1
  /-- The array has `LOGSIZE` entries. -/
  fits : block.length ≤ logSize
  /-- Block numbers are 32-bit. -/
  machine : ∀ blockno ∈ block, blockno < 2 ^ 32

/-- The cache before `commit`: the logged blocks are pinned with their new contents, every other
block reads as the disk has it. -/
def cached (lh : List Nat) (data disk : Nat → Block) : Store Nat Block where
  view blockno := if blockno ∈ lh then data blockno else disk blockno
  disk := disk

/-- The disk contents a complete commit installs. -/
def installed (lh : List Nat) (data disk : Nat → Block) (blockno : Nat) : Block :=
  if blockno ∈ lh then data blockno else disk blockno

/-- Two disks with the same home blocks. -/
def SameHome (area : LogArea) (left right : Nat → Block) : Prop :=
  ∀ blockno, ¬ area.Contains blockno → left blockno = right blockno

/-- Reboots after a stop: each listed recovery is cut after that many writes, and one more
recovery then completes. -/
def reboot (area : LogArea) : List Nat → (Nat → Block) → Nat → Block
  | [], disk => ((recoverFromLog area).exec (.boot disk)).2.disk
  | count :: cuts, disk => reboot area cuts ((recoverFromLog area).cut count (.boot disk)).disk

/-! ## The header block -/

theorem word_storeBlocks_below (buf : Block) (index other : Nat) (lh : List Nat)
    (below : other ≤ index) : (storeBlocks buf index lh).word other = buf.word other := by
  induction lh generalizing buf index with
  | nil => rfl
  | cons blockno rest ih =>
    rw [storeBlocks, ih _ _ (by omega)]
    exact Block.word_setWord_of_ne buf blockno (by omega)

/-- The stored entries are read back. -/
theorem word_storeBlocks (buf : Block) (index position : Nat) (lh : List Nat)
    (machine : ∀ blockno ∈ lh, blockno < 2 ^ 32) (inside : position < lh.length) :
    (storeBlocks buf index lh).word (index + position + 1) = lh[position] := by
  induction lh generalizing buf index position with
  | nil => simp at inside
  | cons blockno rest ih =>
    have later : ∀ other ∈ rest, other < 2 ^ 32 := fun other member =>
      machine other (mem_cons_of_mem _ member)
    cases position with
    | zero =>
      rw [storeBlocks, word_storeBlocks_below _ _ _ _ (by omega)]
      exact Block.word_setWord_self buf _ _ (machine blockno mem_cons_self)
    | succ position =>
      have shifted := ih (buf.setWord (index + 1) blockno) (index + 1) position later
        (by simpa using inside)
      rw [storeBlocks, show index + (position + 1) + 1 = index + 1 + position + 1 by omega]
      simpa using shifted

/-- The stored count is the length of the list. -/
theorem word_encodeHeader_zero (buf : Block) (lh : List Nat) (small : lh.length < 2 ^ 32) :
    (encodeHeader buf lh).word 0 = lh.length := by
  rw [encodeHeader, word_storeBlocks_below _ _ _ _ (by omega)]
  exact Block.word_setWord_self buf 0 _ small

/-- A written header is read back as the list it was written from. -/
theorem decodeHeader_encodeHeader (buf : Block) (lh : List Nat) (fits : lh.length ≤ logSize)
    (machine : ∀ blockno ∈ lh, blockno < 2 ^ 32) : decodeHeader (encodeHeader buf lh) = lh := by
  have bound : lh.length ≤ 30 := fits
  have stored := word_encodeHeader_zero buf lh (by omega)
  have counted : Block.count ((encodeHeader buf lh).word 0) = lh.length := by
    rw [stored, Block.count, if_pos (by omega)]
  apply ext_getElem
  · simp [decodeHeader, counted]
  · intro position left right
    have entry := word_storeBlocks (buf.setWord 0 lh.length) 0 position lh machine right
    rw [zero_add] at entry
    simpa [decodeHeader, encodeHeader] using entry

/-- A header with `n = 0` names no block. -/
theorem decodeHeader_empty {buf : Block} (empty : buf.word 0 = 0) : decodeHeader buf = [] := by
  simp [decodeHeader, empty, Block.count]

/-! ## The kinds of disk a stop can leave -/

section Stops

variable {area : LogArea} {lh : List Nat} {old new disk : Nat → Block}

/-- The header is empty and the home blocks are the given ones. -/
structure Clean (area : LogArea) (home disk : Nat → Block) : Prop where
  /-- `n = 0` on disk. -/
  empty : (disk area.start).word 0 = 0
  /-- The home blocks are those of `home`. -/
  same : SameHome area disk home

/-- The header names the transaction: its copies are complete, and each home block is either
the old one or the new contents of a named block. -/
structure Committed (area : LogArea) (lh : List Nat) (old new disk : Nat → Block) : Prop where
  /-- The header reads as the transaction. -/
  header : decodeHeader (disk area.start) = lh
  /-- Log block `index` holds the contents of the block named at `index`. -/
  copies : ∀ index (inside : index < lh.length), disk (area.start + index + 1) = new lh[index]
  /-- Installation may have stopped anywhere. -/
  partly : ∀ blockno, ¬ area.Contains blockno →
    disk blockno = old blockno ∨ blockno ∈ lh ∧ disk blockno = new blockno

/-- Every disk that a stop of `commit` or of a later recovery can leave. -/
def Stopped (area : LogArea) (lh : List Nat) (old new disk : Nat → Block) : Prop :=
  Clean area old disk ∨ Committed area lh old new disk ∨
    Clean area (installed lh new old) disk

/-- `write_log` has copied the first `tail` blocks: the disk is still clean, and the cache has
the new contents of the logged blocks. -/
structure Logged (area : LogArea) (lh : List Nat) (old new : Nat → Block) (tail : Nat)
    (store : Store Nat Block) : Prop where
  /-- No home block and no header has been written. -/
  clean : Clean area old store.disk
  /-- The copies made so far. -/
  copies : ∀ index (inside : index < lh.length), index < tail →
    store.disk (area.start + index + 1) = new lh[index]
  /-- The logged blocks are pinned in the cache. -/
  pinned : ∀ blockno ∈ lh, store.view blockno = new blockno
  /-- Every other block reads as the disk has it. -/
  coherent : ∀ blockno ∉ lh, store.view blockno = store.disk blockno

/-- `install_trans` has installed the first `tail` blocks of a committed transaction. -/
structure Installing (area : LogArea) (lh : List Nat) (old new : Nat → Block) (tail : Nat)
    (store : Store Nat Block) : Prop where
  /-- The header still names the transaction. -/
  committed : Committed area lh old new store.disk
  /-- The copies as `bread` returns them. -/
  copies : ∀ index (inside : index < lh.length),
    store.view (area.start + index + 1) = new lh[index]
  /-- The home blocks installed so far. -/
  done : ∀ index (inside : index < lh.length), index < tail → store.disk lh[index] = new lh[index]

end Stops

/-! ## The phases of commit and recovery -/

section Phases

variable {area : LogArea} (lh : Transaction area) {old new : Nat → Block} {store : Store Nat Block}
  {disk : Nat → Block} {tail : Nat}

/-- A log block behind the header is inside the area. -/
theorem Transaction.contains_copy {index : Nat} (inside : index < lh.block.length) :
    area.Contains (area.start + index + 1) := by
  have room := lh.room
  exact ⟨by omega, by omega⟩

/-- A home block is not a block of the area. -/
theorem Transaction.home_ne {blockno other : Nat} (member : blockno ∈ lh.block)
    (inside : area.Contains other) : blockno ≠ other := by
  rintro rfl
  exact lh.home _ member inside

theorem LogArea.contains_start (area : LogArea) : area.Contains area.start :=
  ⟨Nat.le_refl _, by have := area.header; omega⟩

/-- One iteration of `write_log` extends the copies and keeps the disk clean. -/
theorem Logged.step (inside : tail < lh.block.length)
    (logged : Logged area lh.block old new tail store) :
    Logged area lh.block old new (tail + 1)
      (store.write (area.start + tail + 1) (store.view lh.block[tail])) where
  clean := by
    refine ⟨?_, fun blockno home => ?_⟩
    · simpa [write, update_of_ne (show area.start ≠ area.start + tail + 1 by omega)]
        using logged.clean.empty
    · have different : blockno ≠ area.start + tail + 1 := by
        rintro rfl
        exact home (lh.contains_copy inside)
      simpa [write, update_of_ne different] using logged.clean.same blockno home
  copies index bound below := by
    by_cases last : index = tail
    · subst last
      simp [write, logged.pinned _ (getElem_mem inside)]
    · have different : area.start + index + 1 ≠ area.start + tail + 1 := by omega
      simpa [write, update_of_ne different] using
        logged.copies index bound (by omega)
  pinned blockno member := by
    have different := lh.home_ne member (lh.contains_copy inside)
    simpa [write, update_of_ne different] using logged.pinned blockno member
  coherent blockno absent := by
    by_cases same : blockno = area.start + tail + 1
    · subst same
      simp [write]
    · simpa [write, update_of_ne same] using logged.coherent blockno absent

/-- `write_log` stops only in clean disks and ends with every copy made. -/
theorem writeLogFrom_spec (rest : List Nat) (tail : Nat) (store : Store Nat Block)
    (suffix : lh.block.drop tail = rest) (bound : tail ≤ lh.block.length)
    (logged : Logged area lh.block old new tail store) :
    (writeLogFrom area tail rest).Spec (Clean area old)
      (fun _ later => Logged area lh.block old new lh.block.length later) store := by
  induction rest generalizing tail store with
  | nil =>
    obtain rfl := Nat.le_antisymm bound (drop_eq_nil_iff.mp suffix)
    exact Io.spec_pure logged.clean logged
  | cons blockno rest ih =>
    have inside : tail < lh.block.length := Nat.lt_of_not_le fun beyond => by
      simp [drop_eq_nil_of_le beyond] at suffix
    rw [drop_eq_getElem_cons inside, List.cons.injEq] at suffix
    obtain ⟨rfl, suffix⟩ := suffix
    exact Io.spec_read (Io.spec_read (Io.spec_write logged.clean
      (ih (tail + 1) _ suffix inside (logged.step lh inside))))

/-- Writing the header over a complete log commits the transaction. -/
theorem Logged.commit (logged : Logged area lh.block old new lh.block.length store) :
    Installing area lh.block old new 0
      (store.write area.start (encodeHeader (store.view area.start) lh.block)) := by
  have copy (index : Nat) (inside : index < lh.block.length) :
      store.disk (area.start + index + 1) = new lh.block[index] :=
    logged.copies index inside inside
  have apart (index : Nat) : area.start + index + 1 ≠ area.start := by omega
  refine ⟨⟨?_, fun index inside => ?_, fun blockno home => ?_⟩, fun index inside => ?_,
    fun index _ below => by omega⟩
  · simpa [write] using decodeHeader_encodeHeader _ _ lh.fits lh.machine
  · simpa [write, update_of_ne (apart index)] using copy index inside
  · have different : blockno ≠ area.start := by
      rintro rfl
      exact home area.contains_start
    left
    simpa [write, update_of_ne different] using logged.clean.same blockno home
  · have absent : area.start + index + 1 ∉ lh.block := fun member =>
      lh.home _ member (lh.contains_copy inside)
    simpa [write, update_of_ne (apart index), logged.coherent _ absent] using
      copy index inside

/-- One iteration of `install_trans` installs one more home block of a committed transaction. -/
theorem Installing.step (inside : tail < lh.block.length)
    (installing : Installing area lh.block old new tail store) :
    Installing area lh.block old new (tail + 1)
      (store.write lh.block[tail] (store.view (area.start + tail + 1))) := by
  have member := getElem_mem inside
  have value : store.view (area.start + tail + 1) = new lh.block[tail] :=
    installing.copies tail inside
  have apart (other : Nat) (contained : area.Contains other) : other ≠ lh.block[tail] :=
    (lh.home_ne member contained).symm
  rw [value]
  refine ⟨⟨?_, fun index bound => ?_, fun blockno home => ?_⟩, fun index bound => ?_,
    fun index bound below => ?_⟩
  · simpa [write, update_of_ne (apart _ area.contains_start)] using
      installing.committed.header
  · simpa [write, update_of_ne (apart _ (lh.contains_copy bound))] using
      installing.committed.copies index bound
  · by_cases same : blockno = lh.block[tail]
    · subst same
      right
      exact ⟨member, by simp [write]⟩
    · simpa [write, update_of_ne same] using
        installing.committed.partly blockno home
  · simpa [write, update_of_ne (apart _ (lh.contains_copy bound))] using
      installing.copies index bound
  · by_cases last : index = tail
    · subst last
      simp [write]
    · -- The blocks are distinct, so an installed one is not written again.
      have different : lh.block[index] ≠ lh.block[tail] := fun equal =>
        last ((List.Nodup.getElem_inj_iff lh.distinct).mp equal)
      simpa [write, update_of_ne different] using
        installing.done index bound (by omega)

/-- `install_trans` stops only in committed disks and ends with every home block installed. -/
theorem installTransFrom_spec (rest : List Nat) (tail : Nat) (store : Store Nat Block)
    (suffix : lh.block.drop tail = rest) (bound : tail ≤ lh.block.length)
    (installing : Installing area lh.block old new tail store) :
    (installTransFrom area tail rest).Spec (Committed area lh.block old new)
      (fun _ later => Installing area lh.block old new lh.block.length later) store := by
  induction rest generalizing tail store with
  | nil =>
    obtain rfl := Nat.le_antisymm bound (drop_eq_nil_iff.mp suffix)
    exact Io.spec_pure installing.committed installing
  | cons blockno rest ih =>
    have inside : tail < lh.block.length := Nat.lt_of_not_le fun beyond => by
      simp [drop_eq_nil_of_le beyond] at suffix
    rw [drop_eq_getElem_cons inside, List.cons.injEq] at suffix
    obtain ⟨rfl, suffix⟩ := suffix
    exact Io.spec_read (Io.spec_read (Io.spec_write installing.committed
      (ih (tail + 1) _ suffix inside (installing.step lh inside))))

/-- A complete installation has the home blocks of the finished transaction. -/
theorem Installing.same (installing : Installing area lh.block old new lh.block.length store) :
    SameHome area store.disk (installed lh.block new old) := by
  intro blockno home
  by_cases member : blockno ∈ lh.block
  · obtain ⟨index, inside, rfl⟩ := getElem_of_mem member
    simp [installed, member, installing.done index inside inside]
  · rcases installing.committed.partly blockno home with kept | ⟨present, _⟩
    · simp [installed, member, kept]
    · exact absurd present member

variable {home : Nat → Block}

/-- Clearing the header leaves a clean disk with the same home blocks. -/
theorem clean_clear (same : SameHome area store.disk home) :
    Clean area home (store.write area.start (encodeHeader (store.view area.start) [])).disk where
  empty := by
    simpa [write] using word_encodeHeader_zero (store.view area.start) [] (by decide)
  same blockno outside := by
    have different : blockno ≠ area.start := by
      rintro rfl
      exact outside area.contains_start
    simpa [write, update_of_ne different] using same blockno outside

/-- Installing a committed transaction and clearing the header stops only in committed disks
or in the finished one. -/
theorem install_clear_spec (store : Store Nat Block)
    (installing : Installing area lh.block old new 0 store) :
    (do installTrans area lh.block; writeHead area [] : LogIo Unit).Spec
      (fun disk => Committed area lh.block old new disk ∨
        Clean area (installed lh.block new old) disk)
      (fun _ later => Clean area (installed lh.block new old) later.disk) store := by
  have install := installTransFrom_spec lh lh.block 0 store (by simp) (by omega) installing
  refine Io.spec_bind (install.mono (fun _ => .inl) (fun _ _ => id)) ?_
  intro _ later installing
  have cleared := clean_clear (installing.same lh)
  exact Io.spec_read (Io.spec_write_last (.inl installing.committed) (.inr cleared) cleared)

/-- Every stop of `commit` on a clean disk is one of the three kinds, and a complete commit has
installed the cached contents of the logged blocks. -/
theorem commit_spec {data : Nat → Block} (clean : (disk area.start).word 0 = 0) :
    (commit area lh.block).Spec (Stopped area lh.block disk data)
      (fun _ later => SameHome area later.disk (installed lh.block data disk))
      (cached lh.block data disk) := by
  have start : Clean area disk disk := ⟨clean, fun _ _ => rfl⟩
  by_cases empty : lh.block.length = 0
  · grind [commit, Io.spec_pure, cached, installed, Stopped, SameHome]
  · have logged : Logged area lh.block disk data 0 (cached lh.block data disk) :=
      ⟨start, fun index _ below => by omega, fun blockno member => if_pos member,
        fun blockno absent => if_neg absent⟩
    rw [commit, if_pos (by omega)]
    have copy := writeLogFrom_spec lh lh.block 0 _ (by simp) (by omega) logged
    refine Io.spec_bind (copy.mono (fun _ => .inl) (fun _ _ => id)) ?_
    intro _ later logged
    have committed := logged.commit lh
    have finish := install_clear_spec lh _ committed
    exact Io.spec_read (Io.spec_write (.inl logged.clean)
      (finish.mono (fun _ => .inr) (fun _ _ clean => clean.same)))

/-- Recovery of a clean disk changes no home block. -/
theorem recover_clean (clean : Clean area home disk) :
    (recoverFromLog area).Spec (Clean area home) (fun _ later => Clean area home later.disk)
      (.boot disk) := by
  have header : decodeHeader ((boot disk).view area.start) = [] :=
    decodeHeader_empty clean.empty
  have cleared : Clean area home ((boot disk).write area.start
      (encodeHeader ((boot disk).view area.start) [])).disk := clean_clear clean.same
  refine Io.spec_read ?_
  beta_reduce
  rw [header]
  exact Io.spec_read (Io.spec_write_last clean cleared cleared)

/-- Recovery of a committed disk stops only in committed disks and completes the transaction. -/
theorem recover_committed (committed : Committed area lh.block old new disk) :
    (recoverFromLog area).Spec
      (fun disk => Committed area lh.block old new disk ∨
        Clean area (installed lh.block new old) disk)
      (fun _ later => Clean area (installed lh.block new old) later.disk) (.boot disk) := by
  have header : decodeHeader ((boot disk).view area.start) = lh.block := committed.header
  have installing : Installing area lh.block old new 0 (.boot disk) :=
    ⟨committed, committed.copies, fun index _ below => by omega⟩
  refine Io.spec_read ?_
  beta_reduce
  rw [header]
  exact install_clear_spec lh _ installing

/-- A cut recovery stays among the three kinds of disk, and keeps a finished transaction. -/
theorem recover_cut (stopped : Stopped area lh.block old new disk) (count : Nat) :
    Stopped area lh.block old new ((recoverFromLog area).cut count (.boot disk)).disk := by
  rcases stopped with clean | committed | clean
  · exact .inl ((recover_clean clean).1 count)
  · exact .inr ((recover_committed lh committed).1 count)
  · exact .inr (.inr ((recover_clean clean).1 count))

/-- However often recovery is cut, one that completes leaves the old or the new home blocks
under an empty header. -/
theorem reboot_clean (cuts : List Nat) (stopped : Stopped area lh.block old new disk) :
    Clean area old (reboot area cuts disk) ∨
      Clean area (installed lh.block new old) (reboot area cuts disk) := by
  induction cuts generalizing disk with
  | nil =>
    rcases stopped with clean | committed | clean
    · exact .inl (recover_clean clean).2
    · exact .inr (recover_committed lh committed).2
    · exact .inr (recover_clean clean).2
  | cons count cuts ih => exact ih (recover_cut lh stopped count)

/-- Crash atomicity: on a disk with an empty log header, stop `commit` of any transaction with
any cached contents after any number of block writes, run any number of recoveries that are cut
in turn, and one that completes. The home blocks are then all as before the commit or all as a
complete commit leaves them, which is with the cached contents of the logged blocks, and the
header is empty. -/
theorem commit_crash_atomic (disk data : Nat → Block) (clean : (disk area.start).word 0 = 0)
    (stop : Nat) (cuts : List Nat) :
    let before := cached lh.block data disk
    let after := ((commit area lh.block).exec before).2.disk
    let final := reboot area cuts ((commit area lh.block).cut stop before).disk
    (SameHome area final disk ∨ SameHome area final after) ∧ (final area.start).word 0 = 0 ∧
      SameHome area after (installed lh.block data disk) := by
  have spec : (commit area lh.block).Spec (Stopped area lh.block disk data) _ _ :=
    commit_spec lh clean
  have complete := spec.2
  rcases reboot_clean lh cuts (spec.1 stop) with clean | clean
  · exact ⟨.inl clean.same, clean.empty, complete⟩
  · refine ⟨.inr fun blockno home => ?_, clean.empty, complete⟩
    rw [clean.same blockno home, complete blockno home]

/-- The area `mkfs` lays out, with a transaction of an inode block and a data block cut while
its second copy is written, and a recovery cut before it clears the header. -/
theorem commit_crash_atomic_mkfs :
    let area : LogArea := ⟨2, 30, by decide⟩
    let lh : Transaction area :=
      ⟨[32, 59], by decide, by decide, by decide, by decide, by decide⟩
    let before := cached lh.block (fun blockno _ => UInt8.ofNat blockno) (fun _ => Block.zero)
    let after := ((commit area lh.block).exec before).2.disk
    let final := reboot area [0] ((commit area lh.block).cut 1 before).disk
    (Block.zero.word 0 = 0) ∧
    (SameHome area final (fun _ => Block.zero) ∨ SameHome area final after) ∧
      (final area.start).word 0 = 0 ∧
      SameHome area after (installed lh.block (fun blockno _ => UInt8.ofNat blockno)
        (fun _ => Block.zero)) :=
  ⟨rfl, commit_crash_atomic _ _ _ rfl 1 [0]⟩

end Phases

end Xv6.Log
