import Xv6.Fs.Inode

/-!
# Ownership of blocks

The block numbers stored in an inode stand in places: `addrs[0 .. NDIRECT]` and the words of the
indirect block. `Owned` is the law of the disk: what stands in the places of the allocated inodes
are the data blocks marked in use, each in one place. Each way in which the code changes the disk
has a lemma that says that it keeps the law, which numbers it changes and which bytes of which
inode.
-/

namespace Xv6.Fs

open Function

/-- Places of an inode: its direct blocks, its indirect block and the words of that block. -/
def nPlaces : Nat := nDirect + 1 + nIndirect

/-- The place of the nth block of an inode. -/
def place (bn : Nat) : Nat := if bn < nDirect then bn else bn + 1

theorem place_lt {bn : Nat} (inside : bn < maxFile) : place bn < nPlaces := by
  unfold place nPlaces maxFile at *
  split <;> omega

theorem place_div_lt {off : Nat} (inside : off < maxFile * bSize) :
    place (off / bSize) < nPlaces := by
  apply place_lt
  apply Nat.div_lt_of_lt_mul
  rw [mul_comm]
  exact inside

theorem place_ne (bn : Nat) : place bn ≠ nDirect := by
  unfold place
  split <;> omega

theorem place_inj {bn other : Nat} (same : place bn = place other) : bn = other := by
  unfold place at same
  split at same <;> split at same <;> omega

/-- What `mkfs` guarantees of a superblock: there are blocks before the data blocks, and the block
and inode numbers fit where they are stored. -/
structure Superblock.Valid (sb : Superblock) : Prop where
  nblocks : sb.nblocks < sb.size
  size : sb.size ≤ 2 ^ 32
  root : rootIno < sb.ninodes
  ninodes : sb.ninodes ≤ 2 ^ 16

/-- A block that can hold data of an inode. -/
def Superblock.IsData (sb : Superblock) (b : Nat) : Prop := sb.size - sb.nblocks ≤ b ∧ b < sb.size

theorem Superblock.Valid.data_ne_zero {sb : Superblock} (valid : sb.Valid) {b : Nat}
    (data : sb.IsData b) : b ≠ 0 := by
  have := valid.nblocks
  have := data.1
  omega

namespace Disk

/-- The block number in a place of an inode; zero if there is none. -/
def addr (d : Disk) (i k : Nat) : Nat :=
  if k ≤ nDirect then (d.dinode i).addrs k
  else if (d.dinode i).addrs nDirect = 0 then 0
  else (d.block ((d.dinode i).addrs nDirect)).word (k - nDirect - 1)

/-- An inode number in use on the disk. -/
def Alloc (sb : Superblock) (d : Disk) (i : Nat) : Prop :=
  rootIno ≤ i ∧ i < sb.ninodes ∧ (d.dinode i).type ≠ .free

/-- A byte of the contents of an inode; where there is no block, zero. -/
def byte (d : Disk) (i off : Nat) : UInt8 :=
  if d.addr i (place (off / bSize)) = 0 then 0
  else d.block (d.addr i (place (off / bSize))) (off % bSize)

/-- An inode has a block for its nth block. -/
def Mapped (d : Disk) (i bn : Nat) : Prop := d.addr i (place bn) ≠ 0

end Disk

/-- The places of the allocated inodes hold the data blocks in use, each once. -/
structure Owned (sb : Superblock) (d : Disk) : Prop where
  data : ∀ i k, d.Alloc sb i → k < nPlaces → d.addr i k ≠ 0 →
    sb.IsData (d.addr i k) ∧ d.bitmap (d.addr i k) = true
  once : ∀ i k j l, d.Alloc sb i → d.Alloc sb j → k < nPlaces → l < nPlaces → d.addr i k ≠ 0 →
    d.addr i k = d.addr j l → i = j ∧ k = l
  used : ∀ b, sb.IsData b → d.bitmap b = true → ∃ i k, d.Alloc sb i ∧ k < nPlaces ∧ d.addr i k = b
  other : ∀ b, b < sb.size - sb.nblocks → d.bitmap b = true

namespace Owned

variable {sb : Superblock} {d later : Disk} (owned : Owned sb d)

include owned

/-- Only the numbers in the places of the allocated inodes and the bitmap matter. -/
theorem congr (alloc : ∀ i, later.Alloc sb i ↔ d.Alloc sb i)
    (addr : ∀ i k, d.Alloc sb i → k < nPlaces → later.addr i k = d.addr i k)
    (bitmap : later.bitmap = d.bitmap) : Owned sb later := by
  constructor <;> grind [cases Owned]

variable {i k b : Nat}

/-- A free data block goes into an empty place. -/
theorem add (valid : sb.Valid) (isAlloc : d.Alloc sb i) (inside : k < nPlaces)
    (empty : d.addr i k = 0) (data : sb.IsData b) (free : d.bitmap b = false)
    (alloc : ∀ i, later.Alloc sb i ↔ d.Alloc sb i) (here : later.addr i k = b)
    (elsewhere : ∀ j l, d.Alloc sb j → l < nPlaces → (j, l) ≠ (i, k) →
      later.addr j l = d.addr j l) (bitmap : later.bitmap = update d.bitmap b true) :
    Owned sb later := by
  have unused {j l : Nat} (allocated : d.Alloc sb j) (within : l < nPlaces) :
      d.addr j l ≠ b := by
    intro same
    have nonzero : d.addr j l ≠ 0 := same ▸ valid.data_ne_zero data
    have marked := (owned.data j l allocated within nonzero).2
    rw [same, free] at marked
    contradiction
  constructor
  · intro j l allocated within present
    have before := (alloc j).mp allocated
    by_cases same : (j, l) = (i, k)
    · cases same
      rw [here, bitmap, update_self]
      exact ⟨data, rfl⟩
    · rw [elsewhere j l before within same] at present ⊢
      rw [bitmap, update_of_ne (unused before within)]
      exact owned.data j l before within present
  · intro j l j' l' first second within within' present same
    have left := (alloc j).mp first
    have right := (alloc j').mp second
    by_cases one : (j, l) = (i, k)
    · grind
    · rw [elsewhere j l left within one] at present same
      by_cases two : (j', l') = (i, k)
      all_goals grind [cases Owned]
  · intro c isData marked
    by_cases same : c = b
    · exact ⟨i, k, (alloc i).mpr isAlloc, inside, here.trans same.symm⟩
    · rw [bitmap, update_of_ne same] at marked
      grind [cases Owned, cases Superblock.Valid, Superblock.IsData]
  · intro c before
    rw [bitmap]
    by_cases same : c = b
    · rw [same, update_self]
    · rw [update_of_ne same]
      exact owned.other c before

/-- Places of one inode are emptied and their blocks marked free. -/
theorem remove (emptied : Nat → Prop) (isAlloc : d.Alloc sb i)
    (alloc : ∀ i, later.Alloc sb i ↔ d.Alloc sb i)
    (here : ∀ k < nPlaces, emptied k → later.addr i k = 0)
    (elsewhere : ∀ j k, d.Alloc sb j → k < nPlaces → ¬ (j = i ∧ emptied k) →
      later.addr j k = d.addr j k)
    (bitmap : ∀ b, later.bitmap b = true ↔
      d.bitmap b = true ∧ ∀ k < nPlaces, emptied k → d.addr i k ≠ 0 → d.addr i k ≠ b) :
    Owned sb later := by
  have kept {j k : Nat} (allocated : d.Alloc sb j) (inside : k < nPlaces)
      (present : later.addr j k ≠ 0) : ¬ (j = i ∧ emptied k) := by
    rintro ⟨rfl, gone⟩
    exact present (here k inside gone)
  constructor
  all_goals grind [cases Owned, Superblock.IsData]

/-- A block marked free is in no place. -/
theorem addr_ne_free (isAlloc : d.Alloc sb i) (inside : k < nPlaces) (positive : b ≠ 0)
    (free : d.bitmap b = false) : d.addr i k ≠ b := by
  intro same
  have marked := (owned.data i k isAlloc inside (same ▸ positive)).2
  rw [same, free] at marked
  contradiction

end Owned

/-! ## The changes the code makes -/

namespace Disk

variable {sb : Superblock} {d : Disk} {n off l : Nat} {later : Disk}

theorem nDirect_lt : nDirect < nPlaces := by decide

theorem addr_nDirect (d : Disk) (i : Nat) : d.addr i nDirect = (d.dinode i).addrs nDirect :=
  if_pos (Nat.le_refl _)

/-- The number in a place depends on the inode's own numbers and on its indirect block. -/
theorem addr_congr {i k : Nat}
    (addrs : ∀ k ≤ nDirect, (later.dinode i).addrs k = (d.dinode i).addrs k)
    (block : (d.dinode i).addrs nDirect ≠ 0 →
      later.block ((d.dinode i).addrs nDirect) = d.block ((d.dinode i).addrs nDirect)) :
    later.addr i k = d.addr i k := by
  grind [addr]

/-- A byte depends on the number in its place and on that block. -/
theorem byte_congr {i : Nat}
    (addr : later.addr i (place (off / bSize)) = d.addr i (place (off / bSize)))
    (block : d.addr i (place (off / bSize)) ≠ 0 →
      later.block (d.addr i (place (off / bSize))) = d.block (d.addr i (place (off / bSize)))) :
    later.byte i off = d.byte i off := by
  unfold byte
  rw [addr]
  split
  · rfl
  · rename_i present
    rw [block present]

/-- The disk after `balloc` returned `b` for `addrs[k]` of an inode. -/
def addDirect (d : Disk) (i k b : Nat) : Disk where
  dinode := update d.dinode i
    { d.dinode i with addrs := update (d.dinode i).addrs k b }
  bitmap := update d.bitmap b true
  block := update d.block b Block.zero

/-- The disk after `balloc` returned `b` for word `j` of the indirect block of an inode. -/
def addIndirect (d : Disk) (i j b : Nat) : Disk where
  dinode := d.dinode
  bitmap := update d.bitmap b true
  block :=
    let block := update d.block b Block.zero
    let a := (d.dinode i).addrs nDirect
    update block a ((block a).setWord j b)

/-- The disk after bytes were stored in a block. -/
def store (d : Disk) (c start : Nat) (bytes : List UInt8) : Disk :=
  { d with block := update d.block c ((d.block c).store start bytes) }

section Add

variable {i k j b : Nat} (owned : Owned sb d) (isAlloc : d.Alloc sb i) (positive : b ≠ 0)
  (free : d.bitmap b = false)

theorem alloc_addDirect (n : Nat) : (d.addDirect i k b).Alloc sb n ↔ d.Alloc sb n := by
  unfold Alloc addDirect
  by_cases same : n = i
  · simp [same]
  · simp [same]

theorem alloc_addIndirect (n : Nat) : (d.addIndirect i j b).Alloc sb n ↔ d.Alloc sb n := Iff.rfl

include owned positive free in
/-- The indirect block of an allocated inode is not the block just allocated. -/
theorem indirect_ne (allocated : d.Alloc sb n) : (d.dinode n).addrs nDirect ≠ b := by
  rw [← addr_nDirect]
  exact owned.addr_ne_free allocated nDirect_lt positive free

theorem addr_addDirect_self (low : k ≤ nDirect) : (d.addDirect i k b).addr i k = b := by
  simp [addr, addDirect, low]

include owned positive free in
theorem addr_addDirect_of_ne (low : k ≤ nDirect) (empty : (d.dinode i).addrs k = 0)
    (allocated : d.Alloc sb n) (different : (n, l) ≠ (i, k)) :
    (d.addDirect i k b).addr n l = d.addr n l := by
  have indirect := indirect_ne owned positive free allocated
  by_cases same : n = i
  · subst same
    have other : l ≠ k := fun equal => different (by rw [equal])
    have dinode : (d.addDirect n k b).dinode n =
        { d.dinode n with addrs := update (d.dinode n).addrs k b } :=
      update_self ..
    unfold addr
    rw [dinode]
    by_cases direct : l ≤ nDirect
    · simp [direct, other]
    · simp only [direct, if_false]
      by_cases self : k = nDirect
      · -- The indirect block is new: all its words are zero.
        subst self
        simp [empty, positive, addDirect]
      · rw [update_of_ne (Ne.symm self)]
        simp only [addDirect]
        rw [update_of_ne indirect]
  · apply addr_congr
    · intro k _
      simp [addDirect, same]
    · intro _
      exact update_of_ne indirect ..

include owned positive free in
theorem byte_addDirect (low : k ≤ nDirect) (empty : (d.dinode i).addrs k = 0)
    (allocated : d.Alloc sb n) (inside : off < maxFile * bSize) :
    (d.addDirect i k b).byte n off = d.byte n off := by
  have within := place_div_lt inside
  by_cases same : (n, place (off / bSize)) = (i, k)
  · cases same
    unfold byte
    rw [addr_addDirect_self low, if_neg positive]
    rw [show d.addr n (place (off / bSize)) = 0 from (if_pos low).trans empty, if_pos rfl]
    simp [addDirect, Block.zero]
  · apply byte_congr
    · exact addr_addDirect_of_ne owned positive free low empty allocated same
    · intro _
      exact update_of_ne (owned.addr_ne_free allocated within positive free) ..

include owned positive free isAlloc in
theorem addr_addIndirect_self (bound : b < 2 ^ 32) (present : (d.dinode i).addrs nDirect ≠ 0) :
    (d.addIndirect i j b).addr i (nDirect + 1 + j) = b := by
  have indirect := indirect_ne owned positive free isAlloc
  have high : ¬ nDirect + 1 + j ≤ nDirect := by omega
  have index : nDirect + 1 + j - nDirect - 1 = j := by omega
  unfold addr
  simp only [high, if_false, addIndirect, present, index, update_self]
  exact Block.word_setWord_self _ _ _ bound

include owned positive free isAlloc in
theorem addr_addIndirect_of_ne (present : (d.dinode i).addrs nDirect ≠ 0)
    (allocated : d.Alloc sb n) (different : (n, l) ≠ (i, nDirect + 1 + j)) :
    (d.addIndirect i j b).addr n l = d.addr n l := by
  have indirect := indirect_ne owned positive free allocated
  by_cases same : n = i
  · subst same
    have other : l ≠ nDirect + 1 + j := fun equal => different (by rw [equal])
    unfold addr
    by_cases direct : l ≤ nDirect
    · simp only [direct, if_true, addIndirect]
    · have index : l - nDirect - 1 ≠ j := by omega
      simp only [direct, if_false, addIndirect, present, update_self]
      rw [Block.word_setWord_of_ne _ _ index, update_of_ne indirect]
  · apply addr_congr
    · intro k _
      rfl
    · intro there
      have distinct : (d.dinode n).addrs nDirect ≠ (d.dinode i).addrs nDirect := by
        intro equal
        rw [← addr_nDirect] at there equal
        rw [← addr_nDirect d i] at equal
        exact same (owned.once n nDirect i nDirect allocated isAlloc nDirect_lt nDirect_lt there
          equal).1
      simp only [addIndirect]
      rw [update_of_ne distinct, update_of_ne indirect]

include owned positive free isAlloc in
theorem byte_addIndirect (bound : b < 2 ^ 32) (present : (d.dinode i).addrs nDirect ≠ 0)
    (empty : d.addr i (nDirect + 1 + j) = 0) (allocated : d.Alloc sb n)
    (within : off < maxFile * bSize) : (d.addIndirect i j b).byte n off = d.byte n off := by
  have range := place_div_lt within
  have indirect := indirect_ne owned positive free isAlloc
  by_cases same : (n, place (off / bSize)) = (i, nDirect + 1 + j)
  · obtain ⟨rfl, index⟩ := Prod.mk.inj same
    unfold byte
    rw [index, addr_addIndirect_self owned isAlloc positive free bound present,
      if_neg positive, empty, if_pos rfl]
    simp only [addIndirect]
    rw [update_of_ne (Ne.symm indirect), update_self]
    rfl
  · apply byte_congr
    · exact addr_addIndirect_of_ne owned isAlloc positive free present allocated same
    · intro there
      have fresh := owned.addr_ne_free allocated range positive free
      have distinct : d.addr n (place (off / bSize)) ≠ (d.dinode i).addrs nDirect := by
        intro equal
        rw [← addr_nDirect] at equal
        exact place_ne _ (owned.once n _ i nDirect allocated isAlloc range nDirect_lt there equal).2
      simp only [addIndirect]
      rw [update_of_ne distinct, update_of_ne fresh]

end Add

section Store

variable {i bn start : Nat} {bytes : List UInt8} (owned : Owned sb d) (isAlloc : d.Alloc sb i)
  (inside : bn < maxFile) (mapped : d.Mapped i bn)

theorem alloc_store {c : Nat} (n : Nat) : (d.store c start bytes).Alloc sb n ↔ d.Alloc sb n :=
  Iff.rfl

include owned isAlloc inside in
/-- Bytes stored in a data block change no number in any place. -/
theorem addr_store (allocated : d.Alloc sb n) :
    (d.store (d.addr i (place bn)) start bytes).addr n l = d.addr n l := by
  apply addr_congr
  · intro k _
    rfl
  · intro there
    apply update_of_ne
    grind [addr_nDirect, place_ne, nDirect_lt, place_lt, cases Owned]

include owned isAlloc inside mapped in
/-- Bytes stored in the nth block of an inode are the bytes of the inode there. -/
theorem byte_store (allocated : d.Alloc sb n) (within : off < maxFile * bSize) :
    (d.store (d.addr i (place bn)) start bytes).byte n off =
      if n = i ∧ off / bSize = bn then
        (d.block (d.addr i (place bn))).store start bytes (off % bSize)
      else d.byte n off := by
  have range := place_div_lt within
  unfold byte
  rw [addr_store owned isAlloc inside allocated]
  by_cases here : n = i ∧ off / bSize = bn
  · obtain ⟨rfl, rfl⟩ := here
    rw [if_neg mapped, if_pos ⟨rfl, rfl⟩]
    simp [store]
  · rw [if_neg here]
    by_cases empty : d.addr n (place (off / bSize)) = 0
    · rw [if_pos empty, if_pos empty]
    · rw [if_neg empty, if_neg empty]
      have other : d.addr n (place (off / bSize)) ≠ d.addr i (place bn) := by
        intro equal
        obtain ⟨rfl, same⟩ :=
          owned.once n _ i _ allocated isAlloc range (place_lt inside) empty equal
        exact here ⟨rfl, place_inj same⟩
      simp only [store]
      rw [update_of_ne other]

end Store

/-- The disk after an inode was written. -/
def setDinode (d : Disk) (i : Nat) (dinode : Dinode) : Disk :=
  { d with dinode := update d.dinode i dinode }

theorem setDinode_self (d : Disk) (i : Nat) : d.setDinode i (d.dinode i) = d := by
  simp [setDinode]

section SetDinode

variable {i : Nat} {dinode : Dinode}

theorem alloc_setDinode (isAlloc : d.Alloc sb i) (type : dinode.type ≠ .free) (n : Nat) :
    (d.setDinode i dinode).Alloc sb n ↔ d.Alloc sb n := by
  unfold Alloc setDinode
  grind [Alloc]

theorem addr_setDinode (addrs : dinode.addrs = (d.dinode i).addrs) (n k : Nat) :
    (d.setDinode i dinode).addr n k = d.addr n k := by
  by_cases same : n = i
  · subst same
    apply addr_congr
    · intro k _
      simp [setDinode, addrs]
    · intro _
      rfl
  · apply addr_congr
    · intro k _
      simp [setDinode, same]
    · intro _
      rfl

theorem byte_setDinode (addrs : dinode.addrs = (d.dinode i).addrs) (n off : Nat) :
    (d.setDinode i dinode).byte n off = d.byte n off :=
  byte_congr (addr_setDinode addrs n _) fun _ => rfl

end SetDinode

end Disk

namespace Owned

variable {sb : Superblock} {d : Disk} {i k j b : Nat} {dinode : Dinode} (owned : Owned sb d)

include owned

/-- A block allocated for `addrs[k]`. -/
theorem addDirect (valid : sb.Valid) (isAlloc : d.Alloc sb i) (data : sb.IsData b)
    (free : d.bitmap b = false) (low : k ≤ nDirect) (empty : (d.dinode i).addrs k = 0) :
    Owned sb (d.addDirect i k b) := by
  have positive := valid.data_ne_zero data
  refine owned.add valid isAlloc ?_ ?_ data free Disk.alloc_addDirect
    (Disk.addr_addDirect_self low) ?_ rfl
  · exact Nat.lt_of_le_of_lt low Disk.nDirect_lt
  · exact (if_pos low).trans empty
  · intro n l allocated _ different
    exact Disk.addr_addDirect_of_ne owned positive free low empty allocated different

/-- A block allocated for a word of the indirect block. -/
theorem addIndirect (valid : sb.Valid) (isAlloc : d.Alloc sb i) (data : sb.IsData b)
    (free : d.bitmap b = false) (inside : j < nIndirect)
    (present : (d.dinode i).addrs nDirect ≠ 0) (empty : d.addr i (nDirect + 1 + j) = 0) :
    Owned sb (d.addIndirect i j b) := by
  have positive := valid.data_ne_zero data
  have bound : b < 2 ^ 32 := Nat.lt_of_lt_of_le data.2 valid.size
  refine owned.add valid isAlloc ?_ empty data free Disk.alloc_addIndirect
    (Disk.addr_addIndirect_self owned isAlloc positive free bound present) ?_ rfl
  all_goals grind [nPlaces, Disk.addr_addIndirect_of_ne]

/-- Bytes stored in a data block. -/
theorem store (isAlloc : d.Alloc sb i) {bn start : Nat} {bytes : List UInt8}
    (inside : bn < maxFile) : Owned sb (d.store (d.addr i (place bn)) start bytes) :=
  owned.congr Disk.alloc_store
    (fun _ _ allocated _ => Disk.addr_store owned isAlloc inside allocated) rfl

/-- An inode that has no blocks may become allocated or free. -/
theorem setEmpty (valid : sb.Valid) (before : d.Alloc sb i → ∀ k < nPlaces, d.addr i k = 0)
    (after : ∀ k ≤ nDirect, dinode.addrs k = 0) : Owned sb (d.setDinode i dinode) := by
  have empty (k : Nat) : (d.setDinode i dinode).addr i k = 0 := by
    unfold Disk.addr Disk.setDinode
    simp only [update_self, after nDirect (Nat.le_refl _), if_true]
    split
    · rename_i low
      exact after k low
    · rfl
  have others {n : Nat} (different : n ≠ i) :
      ((d.setDinode i dinode).Alloc sb n ↔ d.Alloc sb n) ∧
        ∀ k, (d.setDinode i dinode).addr n k = d.addr n k := by
    constructor
    · simp [Disk.Alloc, Disk.setDinode, different]
    · intro k
      apply Disk.addr_congr
      · intro k _
        simp [Disk.setDinode, different]
      · intro _
        rfl
  constructor
  · intro n k allocated inside present
    by_cases same : n = i
    · rw [same, empty] at present
      contradiction
    · rw [(others same).2] at present ⊢
      exact owned.data n k ((others same).1.mp allocated) inside present
  · grind [cases Owned]
  · intro b data marked
    obtain ⟨n, k, allocated, inside, found⟩ := owned.used b data marked
    grind [cases Superblock.Valid, Superblock.IsData]
  · exact owned.other

/-- An inode written with the same block numbers. -/
theorem setDinode (isAlloc : d.Alloc sb i) (type : dinode.type ≠ .free)
    (addrs : dinode.addrs = (d.dinode i).addrs) : Owned sb (d.setDinode i dinode) :=
  owned.congr (Disk.alloc_setDinode isAlloc type) (fun n k _ _ => Disk.addr_setDinode addrs n k) rfl

end Owned

end Xv6.Fs
