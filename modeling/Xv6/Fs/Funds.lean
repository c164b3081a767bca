import Mathlib.Data.Finset.Card
import Xv6.Fs.Owner

/-!
# What an operation uses up

A transaction has room in the log for a bounded number of blocks, and the disk has a bounded number
of free ones. An operation is given a set of blocks that it may log, the bitmap among them, and a
number of further blocks whose numbers are not known yet. Where running out is expected anyway,
nothing has to be there.
-/

namespace Xv6.Fs

open Function Lib Act Finset List

/-- The panics by which the code reports that something has run out. -/
inductive Panic.Exhausted : Panic → Prop where
  | tooBig : Exhausted .tooBig
  | outsideTrans : Exhausted .outsideTrans
  | outOfBlocks : Exhausted .outOfBlocks
  | ialloc : Exhausted .ialloc
  | iget : Exhausted .iget
  | dirlink : Exhausted .dirlink

/-- The disk with the copy of a cached inode in place. -/
def State.view (s : State) (ip : Nat) : Disk := s.disk.setDinode (s.inode ip).inum (s.inode ip).copy

/-! ## The log -/

/-- How many blocks `log_write` admits to a transaction. -/
def Superblock.logRoom (sb : Superblock) : Nat := min logSize (sb.nlog - 1)

/-- In a transaction after those of `past` the blocks logged are `known`, and the log has room for
all that are known and for `more` others. -/
structure Logs (sb : Superblock) (past : List (List Nat)) (known : Finset Nat) (more : Nat)
    (s : State) : Prop where
  past : s.commits = past
  admitted : 0 < s.outstanding
  nodup : s.lh.Nodup
  logged : ∀ b ∈ s.lh, b ∈ known
  bitmap : ∀ b < sb.size, sb.bblock b ∈ known
  room : known.card + more < sb.logRoom

/-- The log has room, or an overflow is expected. -/
def Ledger (sb : Superblock) (panics : Panic → Prop) (past : List (List Nat)) (known : Finset Nat)
    (more : Nat) (s : State) : Prop :=
  panics .tooBig ∧ panics .outsideTrans ∨ Logs sb past known more s

section Log

variable {sb : Superblock} {panics : Panic → Prop} {s t : State} {past : List (List Nat)}
  {known larger : Finset Nat} {more fewer : Nat}

theorem Logs.length_add_lt (logs : Logs sb past known more s) :
    s.lh.length + more < sb.logRoom := by
  have subset : s.lh.toFinset ⊆ known := fun b member => logs.logged b (List.mem_toFinset.mp member)
  have count := Finset.card_le_card subset
  rw [List.toFinset_card_of_nodup logs.nodup] at count
  have room := logs.room
  omega

namespace Ledger

theorem congr (ledger : Ledger sb panics past known more s) (lh : t.lh = s.lh)
    (commits : t.commits = s.commits) (outstanding : t.outstanding = s.outstanding) :
    Ledger sb panics past known more t := by
  rcases ledger with expected | logs
  · exact .inl expected
  · refine .inr ⟨commits.trans logs.past, ?_, ?_, ?_, logs.bitmap, logs.room⟩
    · rw [outstanding]
      exact logs.admitted
    · rw [lh]
      exact logs.nodup
    · rw [lh]
      exact logs.logged

/-- More blocks are known, and no more in all. -/
theorem mono (ledger : Ledger sb panics past known more s) (subset : known ⊆ larger)
    (sum : larger.card + fewer ≤ known.card + more) : Ledger sb panics past larger fewer s :=
  ledger.imp_right fun logs => ⟨logs.past, logs.admitted, logs.nodup, fun b member =>
    subset (logs.logged b member), fun b inside => subset (logs.bitmap b inside),
    lt_of_le_of_lt sum logs.room⟩

/-- The number of a further block becomes known. -/
theorem add (ledger : Ledger sb panics past known (more + 1) s) (b : Nat) :
    Ledger sb panics past (insert b known) more s := by
  have card := card_insert_le b known
  exact ledger.mono (Finset.subset_insert b known) (by omega)

end Ledger

/-- `log_write` of a block that is known. -/
theorem logWrite_ok {blockno : Nat} {post : Unit → State → Prop}
    (ledger : Ledger sb panics past known more s)
    (member : Logs sb past known more s → blockno ∈ known)
    (continued : ∀ lh, Ledger sb panics past known more { s with lh := lh } →
      post () { s with lh := lh }) :
    Ok panics (logWrite sb blockno) post s := by
  simp only [logWrite, ok_bind, ok_get, ok_ite, ok_throw, ok_set]
  rcases ledger with expected | logs
  · split
    · exact expected.1
    · split
      · exact expected.2
      · exact continued _ (.inl expected)
  · have length := Nat.lt_min.mp (lt_of_le_of_lt (Nat.le_add_right ..) logs.length_add_lt)
    have admitted := logs.admitted
    rw [if_neg (by omega), if_neg (by omega)]
    apply continued
    refine .inr ⟨logs.past, admitted, ?_, ?_, logs.bitmap, logs.room⟩
    all_goals grind [cases Logs]

end Log

/-! ## The free blocks of the disk -/

/-- How many blocks are free. -/
def Disk.freeBlocks (sb : Superblock) (d : Disk) : Nat :=
  ((Finset.range sb.size).filter fun b => d.bitmap b = false).card

section Balloc

variable {sb : Superblock} {panics : Panic → Prop} {s : State} {past : List (List Nat)}
  {known : Finset Nat} {more spare : Nat}

theorem Disk.freeBlocks_update {d later : Disk} {b : Nat} (inside : b < sb.size)
    (free : d.bitmap b = false) (bitmap : later.bitmap = update d.bitmap b true) :
    later.freeBlocks sb + 1 = d.freeBlocks sb := by
  have member : b ∈ (Finset.range sb.size).filter fun b => d.bitmap b = false :=
    Finset.mem_filter.mpr ⟨Finset.mem_range.mpr inside, free⟩
  have others : ((Finset.range sb.size).filter fun c => later.bitmap c = false) =
      ((Finset.range sb.size).filter fun c => d.bitmap c = false).erase b := by
    ext c
    rw [mem_erase, Finset.mem_filter, Finset.mem_filter, bitmap, update_apply]
    by_cases same : c = b
    · simp [same]
    · simp [same]
  rw [Disk.freeBlocks, others]
  exact Finset.card_erase_add_one member

/-- `balloc` takes a free block and clears it. -/
theorem balloc_ok {post : Nat → State → Prop} (ledger : Ledger sb panics past known (more + 1) s)
    (stock : panics .outOfBlocks ∨ spare + 1 ≤ s.disk.freeBlocks sb)
    (other : ∀ b, b < sb.size - sb.nblocks → s.disk.bitmap b = true)
    (continued : ∀ b lh disk, sb.IsData b → s.disk.bitmap b = false →
      disk = { s.disk with
        bitmap := update s.disk.bitmap b true
        block := update s.disk.block b Block.zero } →
      Ledger sb panics past (insert b known) more { s with disk := disk, lh := lh } →
      (panics .outOfBlocks ∨ spare ≤ disk.freeBlocks sb) →
      post b { s with disk := disk, lh := lh }) :
    Ok panics (balloc sb) post s := by
  simp only [balloc, ok_bind, ok_get]
  split
  · rename_i b found
    have free := find?_some found
    have inside := List.mem_range.mp (mem_of_find?_eq_some found)
    simp only [Bool.not_eq_true'] at free
    have data : sb.IsData b := by
      refine ⟨Nat.le_of_not_lt fun before => ?_, inside⟩
      rw [other b before] at free
      contradiction
    simp only [ok_bind, ok_modify, bzero, ok_pure]
    have budget : Ledger sb panics past (insert b known) more (s.setBit b true) :=
      (ledger.add b).congr rfl rfl rfl
    apply logWrite_ok budget fun logs => logs.bitmap b inside
    intro _ later
    refine logWrite_ok (later.congr rfl rfl rfl) (fun _ => Finset.mem_insert_self b known)
      fun lh last => ?_
    refine continued b lh _ data free rfl last (stock.imp_right fun enough => ?_)
    exact Nat.le_of_succ_le_succ (enough.trans_eq (Disk.freeBlocks_update inside free rfl).symm)
  · rename_i none
    refine stock.resolve_right fun enough => ?_
    obtain ⟨b, member⟩ := Finset.card_pos.mp (lt_of_lt_of_le (Nat.succ_pos spare) enough)
    grind

end Balloc

/-! ## The blocks of an inode -/

/-- The blocks at those of the places that have one. -/
def filled (places : Finset Nat) (addr : Nat → Nat) : Finset Nat :=
  (places.filter (addr · ≠ 0)).image addr

/-- How many of the places have no block. -/
def missing (places : Finset Nat) (addr : Nat → Nat) : Nat := (places.filter (addr · = 0)).card

section Places

variable {places : Finset Nat} {addr later : Nat → Nat} {k b : Nat}

theorem mem_filled (member : k ∈ places) (present : addr k ≠ 0) : addr k ∈ filled places addr :=
  mem_image_of_mem addr (Finset.mem_filter.mpr ⟨member, present⟩)

theorem filled_congr (same : ∀ k ∈ places, later k = addr k) :
    filled places later = filled places addr := by
  grind [filled]

theorem missing_congr (same : ∀ k ∈ places, later k = addr k) :
    missing places later = missing places addr := by
  unfold missing
  rw [Finset.filter_congr fun k member => by rw [same k member]]

/-- A place gets a block. -/
theorem filled_fill (member : k ∈ places) (empty : addr k = 0) (here : later k = b)
    (positive : b ≠ 0) (elsewhere : ∀ l ≠ k, later l = addr l) :
    filled places later = insert b (filled places addr) := by
  grind [filled]

theorem missing_fill (member : k ∈ places) (empty : addr k = 0) (here : later k = b)
    (positive : b ≠ 0) (elsewhere : ∀ l ≠ k, later l = addr l) :
    missing places later + 1 = missing places addr := by
  have among : k ∈ places.filter (addr · = 0) := Finset.mem_filter.mpr ⟨member, empty⟩
  have others : places.filter (later · = 0) = (places.filter (addr · = 0)).erase k := by
    ext l
    rw [mem_erase, Finset.mem_filter, Finset.mem_filter]
    by_cases same : l = k
    · simp [same, here, positive]
    · simp [same, elsewhere l same]
  rw [missing, others]
  exact Finset.card_erase_add_one among

theorem card_filled_add_missing (places : Finset Nat) (addr : Nat → Nat) :
    (filled places addr).card + missing places addr ≤ places.card := by
  have image : ((places.filter (addr · ≠ 0)).image addr).card ≤ (places.filter (addr · ≠ 0)).card :=
    card_image_le
  have split : (places.filter (addr · = 0)).card + (places.filter (addr · ≠ 0)).card =
      places.card := card_filter_add_card_filter_not _
  unfold filled missing
  omega

end Places

/-- The numbers of the blocks of a cached inode. -/
def State.addr (s : State) (ip : Nat) : Nat → Nat := (s.view ip).addr (s.inode ip).inum

/-- What a write to a cached inode may use: room in the log for the blocks at some places, and
blocks for those of these and of further places that have none. -/
structure Funds (sb : Superblock) (panics : Panic → Prop) (past : List (List Nat))
    (known places wider : Finset Nat) (more spare ip : Nat) (s : State) : Prop where
  log : Ledger sb panics past (known ∪ filled places (s.addr ip))
    (missing places (s.addr ip) + more) s
  among : places ⊆ wider
  stock : panics .outOfBlocks ∨ missing wider (s.addr ip) + spare ≤ s.disk.freeBlocks sb

namespace Funds

variable {sb : Superblock} {panics : Panic → Prop} {past : List (List Nat)}
  {known places wider : Finset Nat} {more spare ip k b : Nat} {s t : State}

theorem of_ledger (ledger : Ledger sb panics past known (places.card + more) s)
    (among : places ⊆ wider)
    (stock : panics .outOfBlocks ∨ missing wider (s.addr ip) + spare ≤ s.disk.freeBlocks sb) :
    Funds sb panics past known places wider more spare ip s := by
  refine ⟨ledger.mono subset_union_left ?_, among, stock⟩
  have union := card_union_le known (filled places (s.addr ip))
  have both := card_filled_add_missing places (s.addr ip)
  omega

/-- What is left after a write. -/
theorem ledger (funds : Funds sb panics past known places wider more spare ip s) :
    Ledger sb panics past (known ∪ filled places (s.addr ip)) more s :=
  funds.log.mono (Finset.Subset.refl _) (by omega)

/-- A step that allocates nothing and logs what is known. -/
theorem step (funds : Funds sb panics past known places wider more spare ip s)
    (ledger : Ledger sb panics past (known ∪ filled places (s.addr ip))
      (missing places (s.addr ip) + more) t)
    (bitmap : t.disk.bitmap = s.disk.bitmap) (addr : ∀ k ∈ wider, t.addr ip k = s.addr ip k) :
    Funds sb panics past known places wider more spare ip t where
  log := by
    grind [filled_congr, missing_congr, cases Funds]
  among := funds.among
  stock := by
    rw [missing_congr addr]
    unfold Disk.freeBlocks
    rw [bitmap]
    exact funds.stock

end Funds

end Xv6.Fs
