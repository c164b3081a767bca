import Mathlib.Data.List.GetD
import Xv6.Fs.Funds

/-!
# Contents of inodes

What `balloc`, `bfree`, `bmap`, `itrunc`, `readi` and `writei` do to the disk, for an inode in the
cache. While one of them runs the cached copy may be ahead of the disk, so the law of ownership
is stated of the disk with the copy in place, and the disk itself has it again at the end.
-/

namespace Xv6.Fs

open Function Lib Finset Disk
open Act (Ok ok_bind ok_get ok_ite ok_modify ok_pure ok_set)

section Actions

variable {sb : Superblock} {panics : Panic → Prop} {s : State} {past : List (List Nat)}
  {known : Finset Nat} {more : Nat} (ledger : Ledger sb panics past known more s)
  {post : Unit → State → Prop}

include ledger

theorem bfree_ok {b : Nat} (marked : s.disk.bitmap b = true) (inside : b < sb.size)
    (continued : ∀ lh disk, disk = { s.disk with bitmap := update s.disk.bitmap b false } →
      Ledger sb panics past known more { s with disk := disk, lh := lh } →
      post () { s with disk := disk, lh := lh }) : Ok panics (bfree sb b) post s := by
  simp only [bfree, ok_bind, ok_get, marked, Bool.true_eq_false, if_false, ok_modify]
  exact logWrite_ok (ledger.congr rfl rfl rfl) (fun logs => logs.bitmap b inside)
    fun lh later => continued lh _ rfl later

/-- `iupdate` of a copy that was assigned. -/
theorem iupdate_ok {ip : Nat} {copy : Dinode} (here : sb.iblock (s.inode ip).inum ∈ known)
    (continued : ∀ lh, Ledger sb panics past known more { s with lh := lh } →
      post () { s.setCopy ip copy with disk := (s.setCopy ip copy).view ip, lh := lh }) :
    Ok panics (iupdate sb ip) post (s.setCopy ip copy) := by
  have budget : Ledger sb panics past known more ((s.setCopy ip copy).setDinode
      ((s.setCopy ip copy).inode ip).inum ((s.setCopy ip copy).inode ip).copy) :=
    ledger.congr rfl rfl rfl
  have inum : ((s.setCopy ip copy).inode ip).inum = (s.inode ip).inum := by
    simp [State.setCopy, State.setInode]
  simp only [iupdate, ok_bind, ok_get, ok_set]
  exact logWrite_ok budget (fun _ => inum ▸ here) fun lh later =>
    continued lh (later.congr rfl rfl rfl)

end Actions

/-! ## Allocation of the blocks of an inode -/

/-- Two states that agree on everything but the disk blocks, one inode and the log. -/
structure Frame (ip : Nat) (s t : State) : Prop where
  inode : ∀ j ≠ ip, t.inode j = s.inode j
  slot : t.inode ip = { s.inode ip with copy := (t.inode ip).copy }
  dinode : ∀ i ≠ (s.inode ip).inum, t.disk.dinode i = s.disk.dinode i
  file : t.file = s.file
  pipe : t.pipe = s.pipe
  proc : t.proc = s.proc
  outstanding : t.outstanding = s.outstanding

theorem Frame.inum {ip : Nat} {s t : State} (frame : Frame ip s t) :
    (t.inode ip).inum = (s.inode ip).inum := by
  rw [frame.slot]

theorem Frame.refl (ip : Nat) (s : State) : Frame ip s s :=
  ⟨fun _ _ => rfl, rfl, fun _ _ => rfl, rfl, rfl, rfl, rfl⟩

theorem Frame.trans {ip : Nat} {s t u : State} (first : Frame ip s t) (second : Frame ip t u) :
    Frame ip s u where
  inode j different := (second.inode j different).trans (first.inode j different)
  slot := by
    rw [second.slot, first.slot]
  dinode i different := by
    rw [second.dinode i (by rw [first.inum]; exact different), first.dinode i different]
  file := second.file.trans first.file
  pipe := second.pipe.trans first.pipe
  proc := second.proc.trans first.proc
  outstanding := second.outstanding.trans first.outstanding

/-- The disk blocks, the bitmap and the log are no part of the frame. -/
theorem Frame.withDisk (ip : Nat) (s : State) {disk : Disk} (lh : List Nat)
    (dinode : disk.dinode = s.disk.dinode) : Frame ip s { s with disk := disk, lh := lh } :=
  ⟨fun _ _ => rfl, rfl, fun _ _ => congrFun dinode _, rfl, rfl, rfl, rfl⟩

/-- Nor is the copy of the inode. -/
theorem Frame.setCopy {ip : Nat} {s : State} {disk : Disk} {lh : List Nat} {copy : Dinode}
    (dinode : disk.dinode = s.disk.dinode) :
    Frame ip s (State.setCopy { s with disk := disk, lh := lh } ip copy) where
  inode j different := update_of_ne different ..
  slot := by simp [State.setCopy, State.setInode]
  dinode i _ := congrFun dinode i
  file := rfl
  pipe := rfl
  proc := rfl
  outstanding := rfl

/-- The allocated inodes are the same when the types are. -/
theorem alloc_view_iff {sb : Superblock} {ip : Nat} {s t : State} (frame : Frame ip s t)
    (disk : t.disk.dinode = s.disk.dinode) (type : (t.inode ip).copy.type = (s.inode ip).copy.type)
    (n : Nat) : (t.view ip).Alloc sb n ↔ (s.view ip).Alloc sb n := by
  unfold Disk.Alloc State.view setDinode
  rw [disk, frame.inum]
  by_cases same : n = (s.inode ip).inum
  · simp [same, type]
  · simp [same]

/-- The blocks of an inode are changing: so far only the numbers in its cached copy have, of all
inodes, and the law of ownership holds of the disk with the copy in place. -/
structure Assigned (sb : Superblock) (ip : Nat) (s t : State) : Prop where
  frame : Frame ip s t
  disk : t.disk.dinode = s.disk.dinode
  fields : (t.inode ip).copy = { (s.inode ip).copy with addrs := (t.inode ip).copy.addrs }
  owned : Owned sb (t.view ip)

namespace Assigned

variable {sb : Superblock} {ip : Nat} {s t u : State}

theorem alloc_iff (assigned : Assigned sb ip s t) (n : Nat) :
    (t.view ip).Alloc sb n ↔ (s.view ip).Alloc sb n :=
  alloc_view_iff assigned.frame assigned.disk (by rw [assigned.fields]) n

theorem refl (owned : Owned sb (s.view ip)) : Assigned sb ip s s := ⟨.refl ip s, rfl, rfl, owned⟩

theorem trans (first : Assigned sb ip s t) (second : Assigned sb ip t u) : Assigned sb ip s u where
  frame := first.frame.trans second.frame
  disk := second.disk.trans first.disk
  fields := by rw [second.fields, first.fields]
  owned := second.owned

end Assigned

/-- Blocks were allocated for an inode: no byte of any inode changed. -/
structure Grown (sb : Superblock) (ip : Nat) (s t : State) : Prop extends Assigned sb ip s t where
  byte : ∀ n off, (s.view ip).Alloc sb n → off < maxFile * bSize →
    (t.view ip).byte n off = (s.view ip).byte n off
  mapped : ∀ n bn, (s.view ip).Alloc sb n → (s.view ip).Mapped n bn → (t.view ip).Mapped n bn

namespace Grown

variable {sb : Superblock} {ip : Nat} {s t u : State}

theorem refl (owned : Owned sb (s.view ip)) : Grown sb ip s s :=
  ⟨.refl owned, fun _ _ _ _ => rfl, fun _ _ _ mapped => mapped⟩

theorem trans (first : Grown sb ip s t) (second : Grown sb ip t u) : Grown sb ip s u where
  toAssigned := first.toAssigned.trans second.toAssigned
  byte n off allocated inside := by
    rw [second.byte n off ((first.alloc_iff n).mpr allocated) inside,
      first.byte n off allocated inside]
  mapped n bn allocated mapped :=
    second.mapped n bn ((first.alloc_iff n).mpr allocated) (first.mapped n bn allocated mapped)

/-- A block allocated for `addrs[k]` of the copy. -/
theorem direct {k b : Nat} (lh : List Nat) (valid : sb.Valid) (owned : Owned sb (s.view ip))
    (isAlloc : (s.view ip).Alloc sb (s.inode ip).inum) (low : k ≤ nDirect)
    (empty : (s.inode ip).copy.addrs k = 0) (data : sb.IsData b) (free : s.disk.bitmap b = false)
    (result : t = State.setCopy { s with
        disk := { s.disk with
          bitmap := update s.disk.bitmap b true
          block := update s.disk.block b Block.zero }
        lh := lh } ip
      { (s.inode ip).copy with addrs := update (s.inode ip).copy.addrs k b }) :
    Grown sb ip s t ∧ t.view ip = (s.view ip).addDirect (s.inode ip).inum k b := by
  have positive := valid.data_ne_zero data
  have frame : Frame ip s t := by
    rw [result]
    exact .setCopy rfl
  have slot : t.inode ip = { s.inode ip with copy :=
      { (s.inode ip).copy with addrs := update (s.inode ip).copy.addrs k b } } := by
    rw [result]
    exact update_self ..
  have view : t.view ip = (s.view ip).addDirect (s.inode ip).inum k b := by
    unfold State.view
    rw [slot, result]
    simp [State.setCopy, State.setInode, setDinode, addDirect]
  have dinode : ((s.view ip).dinode (s.inode ip).inum).addrs k = 0 := by
    simp [State.view, setDinode, empty]
  refine ⟨⟨⟨frame, ?_, ?_, ?_⟩, ?_, ?_⟩, view⟩
  · rw [result]
    rfl
  · rw [slot]
  · rw [view]
    exact owned.addDirect valid isAlloc data free low dinode
  · intro n off allocated inside
    rw [view]
    exact byte_addDirect owned positive free low dinode allocated inside
  · intro n bn allocated mapped
    rw [view]
    unfold Disk.Mapped at mapped ⊢
    rw [addr_addDirect_of_ne owned positive free low dinode allocated]
    · exact mapped
    · intro same
      cases same
      exact mapped ((if_pos low).trans dinode)

/-- A block allocated for a word of the indirect block. -/
theorem indirect {j b : Nat} (lh : List Nat) (valid : sb.Valid) (owned : Owned sb (s.view ip))
    (isAlloc : (s.view ip).Alloc sb (s.inode ip).inum) (inside : j < nIndirect)
    (present : (s.inode ip).copy.addrs nDirect ≠ 0)
    (empty : (s.disk.block ((s.inode ip).copy.addrs nDirect)).word j = 0) (data : sb.IsData b)
    (free : s.disk.bitmap b = false) (result : t = { s with
      disk := { s.disk with
        bitmap := update s.disk.bitmap b true
        block :=
          let block := update s.disk.block b Block.zero
          let a := (s.inode ip).copy.addrs nDirect
          update block a ((block a).setWord j b) }
      lh := lh }) :
    Grown sb ip s t ∧ t.view ip = (s.view ip).addIndirect (s.inode ip).inum j b := by
  have positive := valid.data_ne_zero data
  have bound : b < 2 ^ 32 := lt_of_lt_of_le data.2 valid.size
  have dinode : (s.view ip).dinode (s.inode ip).inum = (s.inode ip).copy := update_self ..
  have view : t.view ip = (s.view ip).addIndirect (s.inode ip).inum j b := by
    unfold addIndirect
    rw [dinode, result]
    rfl
  have there : ((s.view ip).dinode (s.inode ip).inum).addrs nDirect ≠ 0 := by
    rw [dinode]
    exact present
  have zero : (s.view ip).addr (s.inode ip).inum (nDirect + 1 + j) = 0 := by
    have high : ¬ nDirect + 1 + j ≤ nDirect := by omega
    have index : nDirect + 1 + j - nDirect - 1 = j := by omega
    unfold addr
    rw [if_neg high, if_neg there, dinode, index]
    exact empty
  refine ⟨⟨⟨result ▸ .withDisk ip s lh rfl, ?_, ?_, ?_⟩, ?_, ?_⟩, view⟩
  · rw [result]
  · rw [result]
  · rw [view]
    exact owned.addIndirect valid isAlloc data free inside there zero
  · intro n off allocated within
    rw [view]
    exact byte_addIndirect owned isAlloc positive free bound there zero allocated within
  · intro n bn allocated mapped
    rw [view]
    unfold Disk.Mapped at mapped ⊢
    rw [addr_addIndirect_of_ne owned isAlloc positive free there allocated]
    · exact mapped
    · intro same
      obtain ⟨rfl, index⟩ := Prod.mk.inj same
      rw [index] at mapped
      exact mapped zero

end Grown

section Bmap

variable {sb : Superblock} {panics : Panic → Prop} {s : State} {ip bn k : Nat}
  {post : Nat → State → Prop}

/-- Where `bmap` looks for the number of a block. -/
theorem addr_view_low (low : bn < nDirect) :
    (s.view ip).addr (s.inode ip).inum (place bn) = (s.inode ip).copy.addrs bn := by
  have index : place bn = bn := if_pos low
  have inside : bn ≤ nDirect := le_of_lt low
  simp [addr, index, inside, State.view, setDinode]

theorem addr_view_high (high : ¬ bn < nDirect) :
    (s.view ip).addr (s.inode ip).inum (place bn) =
      if (s.inode ip).copy.addrs nDirect = 0 then 0
      else (s.disk.block ((s.inode ip).copy.addrs nDirect)).word (bn - nDirect) := by
  have index : place bn = bn + 1 := if_neg high
  have outside : ¬ bn + 1 ≤ nDirect := by omega
  have word : bn + 1 - nDirect - 1 = bn - nDirect := by omega
  simp [addr, index, outside, word, State.view, setDinode]

/-- `bmap` of a block that the inode has changes nothing. -/
theorem bmap_mapped (inside : bn < maxFile) (mapped : (s.view ip).Mapped (s.inode ip).inum bn)
    (continued : post ((s.view ip).addr (s.inode ip).inum (place bn)) s) :
    Ok panics (bmap sb ip bn) post s := by
  unfold Disk.Mapped at mapped
  grind [bmap, bmapIndirect, ok_bind, ok_get, ok_pure, addr_view_low, addr_view_high,
    maxFile]

/-- The places that `bmap` looks at for a block. -/
def placesOf (bn : Nat) : Finset Nat := if bn < nDirect then {place bn} else {place bn, nDirect}

theorem place_mem_placesOf (bn : Nat) : place bn ∈ placesOf bn := by
  unfold placesOf
  split
  · exact Finset.mem_singleton_self _
  · exact Finset.mem_insert_self _ _

theorem nDirect_mem_placesOf (high : ¬ bn < nDirect) : nDirect ∈ placesOf bn := by
  rw [placesOf, if_neg high]
  exact Finset.mem_insert_of_mem (Finset.mem_singleton_self _)

/-- A place of an inode gets the block that `balloc` took. -/
theorem Funds.fill {past : List (List Nat)} {known places wider : Finset Nat} {more spare b : Nat}
    {t : State} (ledger : Ledger sb panics past (insert b (known ∪ filled places (s.addr ip)))
      (missing places (s.addr ip) - 1 + more) t) (among : places ⊆ wider)
    (stock : panics .outOfBlocks ∨ missing wider (s.addr ip) - 1 + spare ≤ t.disk.freeBlocks sb)
    (member : k ∈ places) (empty : s.addr ip k = 0) (here : t.addr ip k = b) (positive : b ≠ 0)
    (elsewhere : ∀ l ≠ k, t.addr ip l = s.addr ip l) :
    Funds sb panics past known places wider more spare ip t := by
  have fewer := missing_fill member empty here positive elsewhere
  have fewerWide := missing_fill (among member) empty here positive elsewhere
  have count : missing places (s.addr ip) - 1 = missing places (t.addr ip) := by omega
  have wide : missing wider (s.addr ip) - 1 = missing wider (t.addr ip) := by omega
  rw [count] at ledger
  rw [wide] at stock
  refine ⟨?_, among, stock⟩
  rw [filled_fill member empty here positive elsewhere, union_insert]
  exact ledger

variable {past : List (List Nat)} {known places wider : Finset Nat} {more spare : Nat}
  (valid : sb.Valid) (funds : Funds sb panics past known places wider more spare ip s)
  (owned : Owned sb (s.view ip)) (isAlloc : (s.view ip).Alloc sb (s.inode ip).inum)

omit valid isAlloc in
include funds owned in
/-- `balloc` for a place that has no block. -/
theorem Funds.balloc_ok (member : k ∈ places) (empty : s.addr ip k = 0)
    (continued : ∀ b lh disk, sb.IsData b → s.disk.bitmap b = false →
      disk = { s.disk with
        bitmap := update s.disk.bitmap b true
        block := update s.disk.block b Block.zero } →
      Ledger sb panics past (insert b (known ∪ filled places (s.addr ip)))
        (missing places (s.addr ip) - 1 + more) { s with disk := disk, lh := lh } →
      (panics .outOfBlocks ∨ missing wider (s.addr ip) - 1 + spare ≤ disk.freeBlocks sb) →
      post b { s with disk := disk, lh := lh }) : Ok panics (balloc sb) post s := by
  have positive : ∀ {among : Finset Nat}, k ∈ among → 0 < missing among (s.addr ip) :=
    fun inside => Finset.card_pos.mpr ⟨k, Finset.mem_filter.mpr ⟨inside, empty⟩⟩
  have few := positive member
  have wide := positive (funds.among member)
  apply Fs.balloc_ok _ _ owned.other continued
  all_goals grind [cases Funds]

include valid funds owned isAlloc

theorem ballocAddr_ok (low : k ≤ nDirect) (member : k ∈ places)
    (empty : (s.inode ip).copy.addrs k = 0) (continued : ∀ b t, b ≠ 0 → Grown sb ip s t →
      t.view ip = (s.view ip).addDirect (s.inode ip).inum k b →
      Funds sb panics past known places wider more spare ip t → post b t) :
    Ok panics (ballocAddr sb ip k) post s := by
  have vacant : s.addr ip k = 0 := by
    simp [State.addr, addr, low, State.view, setDinode, empty]
  simp only [ballocAddr, ok_bind, ok_get, ok_set, ok_pure]
  refine funds.balloc_ok owned member vacant fun b lh disk data free result ledger stock => ?_
  subst result
  obtain ⟨grown, view⟩ := Grown.direct lh valid owned isAlloc low empty data free rfl
  have positive := valid.data_ne_zero data
  have dinode : ((s.view ip).dinode (s.inode ip).inum).addrs k = 0 := by
    simp [State.view, setDinode, empty]
  refine continued b _ positive grown view
    (.fill (ledger.congr rfl rfl rfl) funds.among stock member vacant ?_ positive ?_)
  · unfold State.addr
    rw [view, grown.frame.inum]
    exact addr_addDirect_self low
  · intro l other
    unfold State.addr
    rw [view, grown.frame.inum]
    exact addr_addDirect_of_ne owned positive free low dinode isAlloc fun same =>
      other (Prod.mk.inj same).2

theorem bmapIndirect_ok (inside : bn < maxFile) (high : ¬ bn < nDirect)
    (among : placesOf bn ⊆ places) (present : (s.inode ip).copy.addrs nDirect ≠ 0)
    (continued : ∀ t, Grown sb ip s t → (t.view ip).Mapped (s.inode ip).inum bn →
      Funds sb panics past known places wider more spare ip t →
      post ((t.view ip).addr (s.inode ip).inum (place bn)) t) :
    Ok panics (bmapIndirect sb ip (bn - nDirect)) post s := by
  have within : bn - nDirect < nIndirect := by
    unfold maxFile at inside
    omega
  have index : place bn = nDirect + 1 + (bn - nDirect) := by
    rw [show place bn = bn + 1 from if_neg high]
    omega
  have here : (s.view ip).addr (s.inode ip).inum (place bn) =
      (s.disk.block ((s.inode ip).copy.addrs nDirect)).word (bn - nDirect) := by
    rw [addr_view_high high, if_neg present]
  simp only [bmapIndirect, ok_bind, ok_get, ok_ite, ok_pure]
  by_cases empty : (s.disk.block ((s.inode ip).copy.addrs nDirect)).word (bn - nDirect) = 0
  · rw [if_pos empty]
    have member : place bn ∈ places := among (place_mem_placesOf bn)
    have vacant : s.addr ip (place bn) = 0 := here.trans empty
    refine funds.balloc_ok owned member vacant fun b lh disk data free result ledger stock => ?_
    subst result
    simp only [ok_modify]
    have top : s.addr ip nDirect = (s.inode ip).copy.addrs nDirect := by
      simp [State.addr, addr, State.view, setDinode]
    refine logWrite_ok (ledger.congr rfl rfl rfl) (fun _ => ?_) fun lh later => ?_
    · grind [mem_filled, nDirect_mem_placesOf]
    obtain ⟨grown, view⟩ :=
      Grown.indirect lh valid owned isAlloc within present empty data free rfl
    have positive := valid.data_ne_zero data
    have bound : b < 2 ^ 32 := lt_of_lt_of_le data.2 valid.size
    have there : ((s.view ip).dinode (s.inode ip).inum).addrs nDirect ≠ 0 := by
      simpa [State.view, setDinode] using present
    have found := addr_addIndirect_self owned isAlloc positive free bound there
      (j := bn - nDirect)
    rw [← view, ← index] at found
    have elsewhere (l : Nat) (other : l ≠ place bn) :=
      (congrArg (fun d => d.addr (s.inode ip).inum l) view).trans
        (addr_addIndirect_of_ne owned isAlloc positive free there isAlloc fun same =>
          other ((Prod.mk.inj same).2.trans index.symm))
    have result := continued _ grown (by
      unfold Disk.Mapped
      rw [found]
      exact positive) (.fill (later.congr rfl rfl rfl) funds.among stock member vacant found
        positive elsewhere)
    rw [found] at result
    exact result
  · rw [if_neg empty]
    have result := continued s (.refl owned) (by
      unfold Disk.Mapped
      rw [here]
      exact empty) funds
    rw [here] at result
    exact result

/-- `bmap` returns the number of the block, which the inode has from then on. -/
theorem bmap_ok (inside : bn < maxFile) (among : placesOf bn ⊆ places)
    (continued : ∀ t, Grown sb ip s t → (t.view ip).Mapped (s.inode ip).inum bn →
      ((s.view ip).Mapped (s.inode ip).inum bn → t = s) →
      Funds sb panics past known places wider more spare ip t →
      post ((t.view ip).addr (s.inode ip).inum (place bn)) t) :
    Ok panics (bmap sb ip bn) post s := by
  by_cases mapped : (s.view ip).Mapped (s.inode ip).inum bn
  · exact bmap_mapped inside mapped (continued s (.refl owned) mapped (fun _ => rfl) funds)
  simp only [bmap, ok_bind, ok_get, ok_ite, ok_pure]
  by_cases low : bn < nDirect
  · grind [Disk.Mapped, addr_view_low, place, place_mem_placesOf, ballocAddr_ok,
      addr_addDirect_self]
  · have within : bn - nDirect < nIndirect := by
      unfold maxFile at inside
      omega
    rw [if_neg low, if_pos within]
    by_cases empty : (s.inode ip).copy.addrs nDirect = 0
    · rw [if_pos empty]
      refine ballocAddr_ok valid funds owned isAlloc le_rfl
        (among (nDirect_mem_placesOf low)) empty fun b t positive grown view later => ?_
      have slot := grown.frame.inum
      have present : (t.inode ip).copy.addrs nDirect ≠ 0 := by
        have dinode : (t.view ip).addr (t.inode ip).inum nDirect =
            (t.inode ip).copy.addrs nDirect := by
          simp [addr, State.view, setDinode]
        rw [← dinode, slot, view, addr_addDirect_self le_rfl]
        exact positive
      have allocated : (t.view ip).Alloc sb (t.inode ip).inum := by
        rw [slot, grown.alloc_iff]
        exact isAlloc
      refine bmapIndirect_ok valid later grown.owned allocated inside low among present
        fun u further isMapped last => ?_
      rw [slot] at isMapped ⊢
      exact continued u (grown.trans further) isMapped (fun before => absurd before mapped) last
    grind [bmapIndirect_ok]

end Bmap

/-! ## Reading -/

section Read

variable {sb : Superblock} {panics : Panic → Prop} {s : State} {ip n off : Nat}
  {post : Option (List UInt8) → State → Prop}

/-- The bytes of an inode from an offset on. -/
def Disk.bytes (d : Disk) (i off n : Nat) : List UInt8 :=
  (List.range n).map fun t => d.byte i (off + t)

theorem Disk.bytes_length (d : Disk) (i off n : Nat) : (d.bytes i off n).length = n := by
  simp [Disk.bytes]

theorem Disk.bytes_append (d : Disk) (i off m n : Nat) :
    d.bytes i off m ++ d.bytes i (off + m) n = d.bytes i off (m + n) := by
  simp only [Disk.bytes, List.range_add, List.map_append, List.map_map, Function.comp_def,
    add_assoc]

/-- The bytes that one iteration of the loops of `readi` and `writei` handles are in one block. -/
theorem chunk_div {m t : Nat} (inside : t < m) (short : m ≤ bSize - off % bSize) :
    (off + t) / bSize = off / bSize ∧ (off + t) % bSize = off % bSize + t := by
  grind [bSize]

theorem chunk_pos (off : Nat) (positive : n ≠ 0) : 0 < min n (bSize - off % bSize) := by
  have rest := Nat.mod_lt off (show 0 < bSize by decide)
  omega

/-- The loop of `readi` over blocks that the inode has. -/
theorem readLoop_ok {fuel : Nat} {post : List UInt8 → State → Prop} (enough : n ≤ fuel)
    (inside : off + n ≤ maxFile * bSize)
    (mapped : ∀ o, off ≤ o → o < off + n → (s.view ip).Mapped (s.inode ip).inum (o / bSize))
    (continued : post ((s.view ip).bytes (s.inode ip).inum off n) s) :
    Ok panics (readLoop sb ip fuel off n) post s := by
  induction fuel generalizing off n post with
  | zero =>
    obtain rfl : n = 0 := by omega
    exact continued
  | succ fuel ih =>
    rw [readLoop]
    by_cases empty : n = 0
    · subst empty
      rw [if_pos rfl]
      exact continued
    · have positive := chunk_pos off empty
      have first : off / bSize < maxFile := by
        apply Nat.div_lt_of_lt_mul
        rw [mul_comm]
        omega
      have here := mapped off le_rfl (by omega)
      simp only [if_neg empty, ok_bind]
      apply bmap_mapped first here
      simp only [ok_get, ok_pure]
      have chunk : (List.range (min n (bSize - off % bSize))).map (fun t =>
          s.disk.block ((s.view ip).addr (s.inode ip).inum (place (off / bSize)))
            (off % bSize + t)) =
          (s.view ip).bytes (s.inode ip).inum off (min n (bSize - off % bSize)) := by
        apply List.map_congr_left
        intro t member
        obtain ⟨quotient, remainder⟩ :=
          chunk_div (List.mem_range.mp member) (min_le_right n (bSize - off % bSize))
        unfold Disk.byte
        rw [quotient, remainder, if_neg here]
        rfl
      rw [chunk]
      apply ih
      all_goals grind [bytes_append]

/-- Every block below the size of an inode is there, and the size is one a file can have. -/
structure Disk.Sized (d : Disk) (i : Nat) : Prop where
  size : (d.dinode i).size ≤ maxFile * bSize
  mapped : ∀ o < (d.dinode i).size, d.Mapped i (o / bSize)

theorem view_dinode (s : State) (ip : Nat) :
    (s.view ip).dinode (s.inode ip).inum = (s.inode ip).copy := update_self ..

/-- `readi` returns the bytes of the inode up to its size, if it has the blocks they are in. -/
theorem readBlocks_part (size : (s.inode ip).copy.size ≤ maxFile * bSize)
    (mapped : ∀ o, off ≤ o → o < off + min n ((s.inode ip).copy.size - off) →
      (s.view ip).Mapped (s.inode ip).inum (o / bSize))
    (refused : off > (s.inode ip).copy.size ∨ off + n ≥ 2 ^ 32 → post none s)
    (continued : off ≤ (s.inode ip).copy.size → post (some ((s.view ip).bytes (s.inode ip).inum off
      (min n ((s.inode ip).copy.size - off)))) s) :
    Ok panics (readBlocks sb ip off n) post s := by
  grind [readBlocks, ok_bind, ok_get, ok_pure, readLoop_ok]

theorem readBlocks_ok (sized : (s.view ip).Sized (s.inode ip).inum)
    (refused : off > (s.inode ip).copy.size ∨ off + n ≥ 2 ^ 32 → post none s)
    (continued : off ≤ (s.inode ip).copy.size → post (some ((s.view ip).bytes (s.inode ip).inum off
      (min n ((s.inode ip).copy.size - off)))) s) :
    Ok panics (readBlocks sb ip off n) post s := by
  grind [view_dinode, readBlocks_part, cases Disk.Sized]

end Read

/-! ## Writing -/

/-- Bytes were written to an inode at an offset; its size is not yet adjusted. -/
structure Wrote (sb : Superblock) (ip off : Nat) (src : List UInt8) (s t : State) : Prop extends
    Assigned sb ip s t where
  byte : ∀ n o, (s.view ip).Alloc sb n → o < maxFile * bSize → (t.view ip).byte n o =
    if n = (s.inode ip).inum ∧ off ≤ o ∧ o < off + src.length then src.getD (o - off) 0
    else (s.view ip).byte n o
  mapped : ∀ n bn, (s.view ip).Alloc sb n → (s.view ip).Mapped n bn → (t.view ip).Mapped n bn
  covered : ∀ o, off ≤ o → o < off + src.length → (t.view ip).Mapped (s.inode ip).inum (o / bSize)
  stays : (∀ o, off ≤ o → o < off + src.length → (s.view ip).Mapped (s.inode ip).inum (o / bSize)) →
    (t.inode ip).copy = (s.inode ip).copy

section Write

variable {sb : Superblock} {panics : Panic → Prop} {s u : State} {ip m : Nat} {src : List UInt8}
  {t : State} {off : Nat}

/-- Writing nothing. -/
theorem Wrote.nil (owned : Owned sb (s.view ip)) : Wrote sb ip off [] s s := by
  refine ⟨.refl owned, fun n o _ _ => ?_, fun _ _ _ mapped => mapped, ?_, fun _ => rfl⟩
  all_goals grind

/-- The bytes of an inode after a chunk was stored in one of its blocks. -/
theorem chunk_byte {d : Disk} {i o : Nat} {bytes : List UInt8} (mapped : d.Mapped i (off / bSize))
    (short : m ≤ bSize - off % bSize) (length : bytes.length = m) :
    (if i = i ∧ o / bSize = off / bSize then
      (d.block (d.addr i (place (off / bSize)))).store (off % bSize) bytes (o % bSize)
      else d.byte i o) =
    if i = i ∧ off ≤ o ∧ o < off + m then bytes.getD (o - off) 0 else d.byte i o := by
  simp only [true_and]
  by_cases inside : off ≤ o ∧ o < off + m
  · obtain ⟨quotient, remainder⟩ := chunk_div (t := o - off) (by omega) short
    grind [Block.store_apply]
  grind [bSize, Block.store_apply, Disk.byte, Disk.Mapped]

/-- One chunk: the block is allocated if need be and the bytes are stored in it. -/
theorem Wrote.chunk (lh : List Nat) (isAlloc : (s.view ip).Alloc sb (s.inode ip).inum)
    (grown : Grown sb ip s t) (isMapped : (t.view ip).Mapped (s.inode ip).inum (off / bSize))
    (kept : (s.view ip).Mapped (s.inode ip).inum (off / bSize) → t = s) (positive : 0 < m)
    (short : m ≤ bSize - off % bSize) (within : m ≤ src.length) (inside : off / bSize < maxFile)
    (result : u = { t.setBlock ((t.view ip).addr (s.inode ip).inum (place (off / bSize)))
      ((t.disk.block ((t.view ip).addr (s.inode ip).inum (place (off / bSize)))).store (off % bSize)
        (src.take m)) with lh := lh }) : Wrote sb ip off (src.take m) s u := by
  have slot : u.inode = t.inode := by
    rw [result]
    rfl
  have view : u.view ip = (t.view ip).store
      ((t.view ip).addr (s.inode ip).inum (place (off / bSize))) (off % bSize) (src.take m) := by
    unfold State.view
    rw [slot, result]
    rfl
  have allocated : (t.view ip).Alloc sb (s.inode ip).inum := (grown.alloc_iff _).mpr isAlloc
  have length : (src.take m).length = m := by
    rw [List.length_take]
    omega
  refine ⟨⟨?_, ?_, ?_, ?_⟩, ?_, ?_, ?_, ?_⟩
  · rw [result]
    exact grown.frame.trans (.withDisk ip t lh rfl)
  · rw [result]
    exact grown.disk
  · rw [slot]
    exact grown.fields
  · rw [view]
    exact grown.owned.store allocated inside
  · intro n o isAlloc range
    have present := (grown.alloc_iff n).mpr isAlloc
    rw [view, byte_store grown.owned allocated inside isMapped present range,
      ← grown.byte n o isAlloc range, length]
    by_cases here : n = (s.inode ip).inum
    · subst here
      exact chunk_byte isMapped short length
    · rw [if_neg (fun both => here both.1), if_neg (fun both => here both.1)]
  · intro n bn isAlloc mapped
    have before := grown.mapped n bn isAlloc mapped
    unfold Disk.Mapped at before ⊢
    rw [view, addr_store grown.owned allocated inside ((grown.alloc_iff n).mpr isAlloc)]
    exact before
  all_goals grind [bSize, Disk.Mapped, addr_store, cases Grown, cases Assigned]

/-- A write after a write. -/
theorem Wrote.append {more : List UInt8} (isAlloc : (s.view ip).Alloc sb (s.inode ip).inum)
    (first : Wrote sb ip off src s t) (second : Wrote sb ip (off + src.length) more t u) :
    Wrote sb ip off (src ++ more) s u := by
  have inum := first.frame.inum
  refine ⟨first.toAssigned.trans second.toAssigned, ?_, ?_, ?_, ?_⟩
  · intro n o allocated inside
    rw [second.byte n o ((first.alloc_iff n).mpr allocated) inside,
      first.byte n o allocated inside, inum, List.length_append]
    by_cases here : n = (s.inode ip).inum
    · simp only [here, true_and]
      by_cases before : o < off
      · rw [if_neg (by omega), if_neg (by omega), if_neg (by omega)]
      · by_cases early : o < off + src.length
        · rw [if_neg (by omega), if_pos (by omega), if_pos (by omega),
            List.getD_append _ _ _ _ (by omega)]
        · by_cases late : o < off + src.length + more.length
          all_goals grind
    · simp [here]
  · intro n bn allocated mapped
    exact second.mapped n bn ((first.alloc_iff n).mpr allocated)
      (first.mapped n bn allocated mapped)
  · intro o lower upper
    rw [List.length_append] at upper
    by_cases early : o < off + src.length
    · exact second.mapped _ _ ((first.alloc_iff _).mpr isAlloc) (first.covered o lower early)
    · rw [← inum]
      exact second.covered o (by omega) (by omega)
  grind [cases Wrote, cases Assigned]

/-- The loop of `writei` writes the bytes. -/
theorem writeLoop_ok {past : List (List Nat)} {known places wider : Finset Nat}
    {more spare fuel : Nat} {post : Unit → State → Prop} (valid : sb.Valid)
    (funds : Funds sb panics past known places wider more spare ip s)
    (owned : Owned sb (s.view ip)) (isAlloc : (s.view ip).Alloc sb (s.inode ip).inum)
    (enough : src.length ≤ fuel) (inside : off + src.length ≤ maxFile * bSize)
    (among : ∀ o, off ≤ o → o < off + src.length → placesOf (o / bSize) ⊆ places)
    (continued : ∀ t, Wrote sb ip off src s t →
      Funds sb panics past known places wider more spare ip t → post () t) :
    Ok panics (writeLoop sb ip fuel off src) post s := by
  induction fuel generalizing s off src post with
  | zero =>
    obtain rfl : src = [] := List.eq_nil_of_length_eq_zero (by omega)
    exact continued s (.nil owned) funds
  | succ fuel ih =>
    rw [writeLoop]
    by_cases empty : src = []
    · subst empty
      rw [if_pos rfl]
      exact continued s (.nil owned) funds
    · have nonempty : src.length ≠ 0 := fun zero => empty (List.eq_nil_of_length_eq_zero zero)
      have positive := chunk_pos off nonempty
      have first : off / bSize < maxFile := by
        apply Nat.div_lt_of_lt_mul
        rw [mul_comm]
        omega
      simp only [if_neg empty, ok_bind]
      have here := among off le_rfl (by omega)
      refine bmap_ok valid funds owned isAlloc first here fun t grown isMapped kept later => ?_
      simp only [ok_modify]
      have block : (t.view ip).addr (s.inode ip).inum (place (off / bSize)) =
          t.addr ip (place (off / bSize)) := by
        rw [State.addr, grown.frame.inum]
      refine logWrite_ok (later.log.congr rfl rfl rfl) (fun _ => ?_) fun lh last => ?_
      · rw [block]
        exact Finset.mem_union_right known (mem_filled (here (place_mem_placesOf _))
          (block ▸ isMapped))
      have wrote := Wrote.chunk lh isAlloc grown isMapped kept positive
        (min_le_right src.length (bSize - off % bSize)) (min_le_left _ _) first rfl
      have length : (src.take (min src.length (bSize - off % bSize))).length =
          min src.length (bSize - off % bSize) := by
        rw [List.length_take]
        omega
      refine ih ?_ wrote.owned ?_ ?_ ?_ ?_ ?_
      · refine later.step (last.congr rfl rfl rfl) rfl fun k _ => ?_
        have allocated : (t.view ip).Alloc sb (s.inode ip).inum := (grown.alloc_iff _).mpr isAlloc
        show addr ((t.view ip).store _ _ _) (t.inode ip).inum k = _
        rw [State.addr, grown.frame.inum]
        exact addr_store grown.owned allocated first allocated
      · rw [wrote.frame.inum, wrote.alloc_iff]
        exact isAlloc
      · rw [List.length_drop]
        omega
      · rw [List.length_drop]
        omega
      · intro o lower upper
        rw [List.length_drop] at upper
        exact among o (by omega) (by omega)
      grind [Wrote.append, List.take_append_drop]

end Write

/-- The copy of a cached inode is what the disk has. -/
def State.Synced (s : State) (ip : Nat) : Prop :=
  s.disk.dinode (s.inode ip).inum = (s.inode ip).copy

theorem State.Synced.view {s : State} {ip : Nat} (synced : s.Synced ip) : s.view ip = s.disk := by
  unfold State.view
  rw [← synced]
  exact setDinode_self ..

/-- `writei` wrote bytes to an inode at an offset. -/
structure Updated (sb : Superblock) (ip off : Nat) (src : List UInt8) (s t : State) : Prop where
  frame : Frame ip s t
  synced : t.Synced ip
  fields : (t.inode ip).copy = { (s.inode ip).copy with
    size := max (s.inode ip).copy.size (off + src.length), addrs := (t.inode ip).copy.addrs }
  owned : Owned sb t.disk
  byte : ∀ n o, s.disk.Alloc sb n → o < maxFile * bSize → t.disk.byte n o =
    if n = (s.inode ip).inum ∧ off ≤ o ∧ o < off + src.length then src.getD (o - off) 0
    else s.disk.byte n o
  mapped : ∀ n bn, s.disk.Alloc sb n → s.disk.Mapped n bn → t.disk.Mapped n bn
  sized : t.disk.Sized (s.inode ip).inum

section WriteBlocks

variable {sb : Superblock} {panics : Panic → Prop} {s : State} {ip off : Nat} {src : List UInt8}
  {t : State}

/-- The end of `writei` when the write stayed within the size. -/
theorem Wrote.within (synced : s.Synced ip) (isAlloc : s.disk.Alloc sb (s.inode ip).inum)
    (sized : s.disk.Sized (s.inode ip).inum) (wrote : Wrote sb ip off src s t)
    (short : off + src.length ≤ (s.inode ip).copy.size) : Updated sb ip off src s t := by
  have size : (s.disk.dinode (s.inode ip).inum).size = (s.inode ip).copy.size := by rw [synced]
  have mapped := sized.mapped
  rw [size] at mapped
  have copy : (t.inode ip).copy = (s.inode ip).copy := by
    apply wrote.stays
    intro o _ upper
    rw [synced.view]
    exact mapped o (by omega)
  have later : t.Synced ip := by
    unfold State.Synced
    rw [wrote.disk, wrote.frame.inum, copy]
    exact synced
  have owned := wrote.owned
  have byte := wrote.byte
  have grown := wrote.mapped
  rw [later.view] at owned
  simp only [later.view, synced.view] at byte grown
  refine ⟨wrote.frame, later, ?_, owned, byte, grown, ?_, ?_⟩
  all_goals grind [cases Disk.Sized, cases Wrote, cases Assigned]

/-- A new size of the inode, written to the disk. -/
theorem setSize_frame (size : Nat) (lh : List Nat)
    (result : t = { s.setCopy ip { (s.inode ip).copy with size := size } with
      disk := (s.setCopy ip { (s.inode ip).copy with size := size }).view ip
      lh := lh }) :
    Frame ip s t ∧ t.Synced ip ∧
      t.inode ip = { s.inode ip with copy := { (s.inode ip).copy with size := size } } ∧
      t.disk = (s.view ip).setDinode (s.inode ip).inum
        { (s.inode ip).copy with size := size } := by
  have slot : t.inode ip = { s.inode ip with copy := { (s.inode ip).copy with size := size } } := by
    rw [result]
    exact update_self ..
  have disk : t.disk = (s.view ip).setDinode (s.inode ip).inum
      { (s.inode ip).copy with size := size } := by
    rw [result]
    simp [State.view, State.setCopy, State.setInode, setDinode]
  have copied : Frame ip s (s.setCopy ip { (s.inode ip).copy with size := size }) := .setCopy rfl
  refine ⟨⟨?_, by rw [slot], ?_, ?_, ?_, ?_, ?_⟩, ?_, slot, disk⟩
  · rw [result]
    exact copied.inode
  · intro i different
    rw [disk]
    simp [setDinode, State.view, different]
  · rw [result]
    rfl
  · rw [result]
    rfl
  · rw [result]
    rfl
  · rw [result]
    rfl
  · unfold State.Synced
    rw [disk, slot]
    exact update_self ..

/-- The end of `writei` when the write went beyond the size. -/
theorem Wrote.extended {u : State} (lh : List Nat) (synced : s.Synced ip)
    (isAlloc : s.disk.Alloc sb (s.inode ip).inum) (sized : s.disk.Sized (s.inode ip).inum)
    (start : off ≤ (s.inode ip).copy.size) (inside : off + src.length ≤ maxFile * bSize)
    (wrote : Wrote sb ip off src s t) (long : (s.inode ip).copy.size ≤ off + src.length)
    (result : u = { (t.setCopy ip { (t.inode ip).copy with size := off + src.length }) with
      disk := (t.setCopy ip { (t.inode ip).copy with size := off + src.length }).view ip
      lh := lh }) : Updated sb ip off src s u := by
  have inum := wrote.frame.inum
  obtain ⟨frame, later, slot, disk⟩ := setSize_frame _ lh result
  rw [inum] at disk
  have dinode : (t.view ip).dinode (s.inode ip).inum = (t.inode ip).copy := by
    rw [← inum]
    exact view_dinode t ip
  have addrs : ({ (t.inode ip).copy with size := off + src.length } : Dinode).addrs =
      ((t.view ip).dinode (s.inode ip).inum).addrs := by
    rw [dinode]
  have allocated : (t.view ip).Alloc sb (s.inode ip).inum := by
    rw [wrote.alloc_iff, synced.view]
    exact isAlloc
  have type : (t.inode ip).copy.type ≠ .free := by
    have := allocated.2.2
    rwa [dinode] at this
  have grown (n bn : Nat) (present : s.disk.Alloc sb n) (mapped : s.disk.Mapped n bn) :
      u.disk.Mapped n bn := by
    unfold Disk.Mapped at mapped ⊢
    rw [disk, addr_setDinode addrs]
    have before := wrote.mapped n bn
    rw [synced.view] at before
    exact before present mapped
  refine ⟨wrote.frame.trans frame, later, ?_, ?_, ?_, grown, ?_, ?_⟩
  · rw [slot, wrote.fields, Nat.max_eq_right long]
  · rw [disk]
    exact wrote.owned.setDinode allocated type addrs
  · grind [byte_setDinode, synced.view, cases Wrote, cases Assigned]
  · rw [disk]
    simp only [setDinode, update_self]
    exact inside
  · intro o below
    have size : (u.disk.dinode (s.inode ip).inum).size = off + src.length := by
      rw [disk]
      simp [setDinode]
    grind [Disk.Mapped, addr_setDinode, cases Disk.Sized, cases Wrote, cases Assigned,
      State.Synced]

/-- `writei` of an inode that is not a device. -/
theorem writeBlocks_ok {past : List (List Nat)} {known places wider : Finset Nat}
    {more spare : Nat} {post : Option Nat → State → Prop} (valid : sb.Valid)
    (funds : Funds sb panics past known places wider more spare ip s)
    (here : sb.iblock (s.inode ip).inum ∈ known)
    (among : ∀ o, off ≤ o → o < off + src.length → placesOf (o / bSize) ⊆ places)
    (owned : Owned sb s.disk) (synced : s.Synced ip) (isAlloc : s.disk.Alloc sb (s.inode ip).inum)
    (sized : s.disk.Sized (s.inode ip).inum)
    (refused : off > (s.inode ip).copy.size ∨ off + src.length > maxFile * bSize → post none s)
    (continued : ∀ t, off ≤ (s.inode ip).copy.size → off + src.length ≤ maxFile * bSize →
      Updated sb ip off src s t → Funds sb panics past known places wider more spare ip t →
      post (some src.length) t) : Ok panics (writeBlocks sb ip off src) post s := by
  simp only [writeBlocks, ok_bind, ok_get, ok_ite, ok_pure]
  have limit : maxFile * bSize < 2 ^ 32 := by decide
  by_cases bad : off > (s.inode ip).copy.size ∨ off + src.length ≥ 2 ^ 32
  · rw [if_pos bad]
    apply refused
    omega
  rw [if_neg bad]
  by_cases large : off + src.length > maxFile * bSize
  · rw [if_pos large]
    exact refused (.inr large)
  rw [if_neg large]
  have start : off ≤ (s.inode ip).copy.size := by omega
  have inside : off + src.length ≤ maxFile * bSize := by omega
  rw [← synced.view] at owned
  have present := isAlloc
  rw [← synced.view] at present
  refine writeLoop_ok valid funds owned present le_rfl inside among
    fun t wrote later => ?_
  have size : (t.inode ip).copy.size = (s.inode ip).copy.size := by rw [wrote.fields]
  rw [size]
  by_cases long : 0 < src.length ∧ off + src.length > (s.inode ip).copy.size
  · rw [if_pos long]
    simp only [ok_set]
    have logged : sb.iblock (t.inode ip).inum ∈ known ∪ filled places (t.addr ip) := by
      rw [wrote.frame.inum]
      exact Finset.mem_union_left _ here
    refine iupdate_ok later.log logged fun lh last => ?_
    refine continued _ start inside ?_ (later.step (last.congr rfl rfl rfl) rfl fun k _ => ?_)
    · exact wrote.extended lh synced isAlloc sized start inside (by omega) rfl
    · simp [State.addr, addr, State.view, setDinode, State.setCopy, State.setInode]
  · rw [if_neg long]
    exact continued t start inside (wrote.within synced isAlloc sized (by omega)) later

end WriteBlocks

/-! ## Truncation -/

/-- Numbers of an inode were cleared and their blocks freed. -/
structure Pruned (sb : Superblock) (ip : Nat) (gone : List Nat) (s t : State) : Prop extends
    Assigned sb ip s t where
  block : t.disk.block = s.disk.block
  addrs : ∀ k, (t.inode ip).copy.addrs k = if k ∈ gone then 0 else (s.inode ip).copy.addrs k

namespace Pruned

variable {sb : Superblock} {ip : Nat} {s t u : State} {gone more : List Nat}

theorem refl (owned : Owned sb (s.view ip)) : Pruned sb ip [] s s :=
  ⟨.refl owned, rfl, fun _ => by simp⟩

theorem append (first : Pruned sb ip gone s t) (second : Pruned sb ip more t u) :
    Pruned sb ip (gone ++ more) s u where
  toAssigned := first.toAssigned.trans second.toAssigned
  block := second.block.trans first.block
  addrs k := by
    rw [second.addrs, first.addrs]
    by_cases late : k ∈ more
    · simp [late]
    · simp [late]

/-- A state that differs in the bitmap and in cleared numbers of one inode. -/
theorem of_cleared (emptied : Nat → Prop) (owned : Owned sb (s.view ip))
    (isAlloc : (s.view ip).Alloc sb (s.inode ip).inum) (lh : List Nat) (bitmap : Nat → Bool)
    {k : Nat} (low : k ≤ nDirect) (here : ∀ l, emptied l ↔ l = k ∨ k = nDirect ∧ nDirect < l)
    (cleared : ∀ b, bitmap b = true ↔ s.disk.bitmap b = true ∧ ∀ l < nPlaces, emptied l →
      (s.view ip).addr (s.inode ip).inum l ≠ 0 → (s.view ip).addr (s.inode ip).inum l ≠ b)
    (result : t = State.setCopy { s with disk := { s.disk with bitmap := bitmap }, lh := lh } ip
      { (s.inode ip).copy with addrs := update (s.inode ip).copy.addrs k 0 }) :
    Pruned sb ip [k] s t := by
  have slot : t.inode ip = { s.inode ip with copy :=
      { (s.inode ip).copy with addrs := update (s.inode ip).copy.addrs k 0 } } := by
    rw [result]
    exact update_self ..
  have frame : Frame ip s t := by
    rw [result]
    exact .setCopy rfl
  have disk : t.disk.dinode = s.disk.dinode := by
    rw [result]
    rfl
  have block : t.disk.block = s.disk.block := by
    rw [result]
    rfl
  have dinode : (t.view ip).dinode (s.inode ip).inum = { (s.inode ip).copy with
      addrs := update (s.inode ip).copy.addrs k 0 } := by
    rw [← frame.inum, view_dinode, slot]
  refine ⟨⟨frame, disk, by rw [slot], ?_⟩, block, fun l => ?_⟩
  · refine owned.remove emptied isAlloc ?_ ?_ ?_ ?_
    · exact alloc_view_iff frame disk (by rw [slot])
    · intro l _ gone
      unfold addr
      rw [dinode]
      rcases (here l).mp gone with rfl | ⟨rfl, high⟩
      · simp [low]
      · simp [not_le.mpr high]
    · intro n l _ _ kept
      by_cases same : n = (s.inode ip).inum
      · subst same
        have other : l ≠ k := fun equal => kept ⟨rfl, (here l).mpr (.inl equal)⟩
        unfold addr
        rw [dinode, view_dinode]
        by_cases direct : l ≤ nDirect
        · simp [direct, other]
        · have indirect : k ≠ nDirect := fun equal =>
            kept ⟨rfl, (here l).mpr (.inr ⟨equal, not_le.mp direct⟩)⟩
          simp only [direct, if_false, update_of_ne (Ne.symm indirect)]
          rw [show (t.view ip).block = (s.view ip).block from block]
      · apply addr_congr
        · intro k _
          simp [State.view, setDinode, frame.inum, same, disk]
        · intro _
          exact congrFun block _
    · intro b
      rw [show (t.view ip).bitmap = bitmap by rw [result]; rfl]
      exact cleared b
  · rw [slot]
    by_cases same : l = k
    · simp [same]
    · simp [same]

end Pruned

section Itrunc

variable {sb : Superblock} {panics : Panic → Prop} {s : State} {ip : Nat} {past : List (List Nat)}
  {known : Finset Nat} {more : Nat} (ledger : Ledger sb panics past known more s)
  {post : Unit → State → Prop} {list : List Nat}

include ledger

/-- The first loop of `itrunc`, over the listed direct blocks. -/
theorem truncDirect_ok (owned : Owned sb (s.view ip))
    (isAlloc : (s.view ip).Alloc sb (s.inode ip).inum) (low : ∀ k ∈ list, k < nDirect)
    (continued : ∀ t, Pruned sb ip list s t → Ledger sb panics past known more t → post () t) :
    Ok panics (list.forM fun i => do
      let s ← get
      if (s.inode ip).copy.addrs i ≠ 0 then
        bfree sb ((s.inode ip).copy.addrs i)
        let s ← get
        let copy := (s.inode ip).copy
        set (s.setCopy ip { copy with addrs := update copy.addrs i 0 })) post s := by
  induction list generalizing s post with
  | nil => exact continued s (.refl owned) ledger
  | cons k rest ih =>
    have direct : k ≤ nDirect := le_of_lt (low k List.mem_cons_self)
    have rest_low : ∀ k ∈ rest, k < nDirect := fun k member =>
      low k (List.mem_cons_of_mem _ member)
    have here : (s.view ip).addr (s.inode ip).inum k = (s.inode ip).copy.addrs k := by
      simp [addr, direct, view_dinode]
    show Ok panics (_ >>= fun _ => _) post s
    simp only [ok_bind, ok_get, ok_ite, ok_pure, ok_set]
    by_cases present : (s.inode ip).copy.addrs k ≠ 0
    · rw [if_pos present]
      have inside : k < nPlaces := lt_of_le_of_lt direct nDirect_lt
      have owner := owned.data _ k isAlloc inside (by rw [here]; exact present)
      rw [here] at owner
      refine bfree_ok ledger owner.2 owner.1.2 fun lh disk result later => ?_
      subst result
      have emptied (l : Nat) : l = k ↔ l = k ∨ k = nDirect ∧ nDirect < l := by
        have := low k List.mem_cons_self
        omega
      have cleared (b : Nat) :
          update s.disk.bitmap ((s.inode ip).copy.addrs k) false b = true ↔
            s.disk.bitmap b = true ∧ ∀ l < nPlaces, l = k →
              (s.view ip).addr (s.inode ip).inum l ≠ 0 →
              (s.view ip).addr (s.inode ip).inum l ≠ b := by
        by_cases same : b = (s.inode ip).copy.addrs k
        · grind
        · grind
      have pruned := Pruned.of_cleared (· = k) owned isAlloc lh _ direct emptied cleared rfl
      refine ih ?_ pruned.owned ?_ rest_low ?_
      · exact later.congr rfl rfl rfl
      · rw [pruned.frame.inum, pruned.alloc_iff]
        exact isAlloc
      · intro t further
        exact continued t (pruned.append further)
    · rw [if_neg present]
      have zero : (s.inode ip).copy.addrs k = 0 := not_not.mp present
      refine ih ledger owned isAlloc rest_low fun t later => ?_
      refine continued t ⟨later.toAssigned, later.block, ?_⟩
      intro l
      rw [later.addrs]
      by_cases same : l = k
      · simp [same, zero]
      · simp [same]

/-- The second loop of `itrunc`, over the listed words of the indirect block. -/
theorem truncIndirect_ok {words : Block}
    (marked : ∀ j ∈ list, words.word j ≠ 0 → s.disk.bitmap (words.word j) = true)
    (inside : ∀ j ∈ list, words.word j ≠ 0 → words.word j < sb.size)
    (distinct : list.Pairwise fun j l => words.word j ≠ 0 → words.word j ≠ words.word l)
    (continued : ∀ lh bitmap, (∀ b, bitmap b = true ↔ s.disk.bitmap b = true ∧
      ∀ j ∈ list, words.word j ≠ 0 → words.word j ≠ b) →
      Ledger sb panics past known more
        { s with disk := { s.disk with bitmap := bitmap }, lh := lh } →
      post () { s with disk := { s.disk with bitmap := bitmap }, lh := lh }) :
    Ok panics (list.forM fun j =>
      if words.word j ≠ 0 then bfree sb (words.word j) else pure ()) post s := by
  induction list generalizing s post with
  | nil => exact continued s.lh s.disk.bitmap (fun b => by simp) ledger
  | cons j rest ih =>
    rw [List.pairwise_cons] at distinct
    show Ok panics (_ >>= fun _ => _) post s
    simp only [ok_bind, ok_ite, ok_pure]
    by_cases present : words.word j ≠ 0
    · rw [if_pos present]
      refine bfree_ok ledger (marked j List.mem_cons_self present)
        (inside j List.mem_cons_self present) fun lh disk result later => ?_
      subst result
      grind
    grind

/-- The part of `itrunc` that frees the indirect block and the blocks it names. -/
theorem truncTree_ok (owned : Owned sb (s.view ip))
    (isAlloc : (s.view ip).Alloc sb (s.inode ip).inum)
    (present : (s.inode ip).copy.addrs nDirect ≠ 0)
    (continued : ∀ t, Pruned sb ip [nDirect] s t → Ledger sb panics past known more t → post () t) :
    Ok panics (truncTree sb ip) post s := by
  have top : (s.view ip).addr (s.inode ip).inum nDirect = (s.inode ip).copy.addrs nDirect := by
    simp [addr, view_dinode]
  have word (j : Nat) : (s.view ip).addr (s.inode ip).inum (nDirect + 1 + j) =
      (s.disk.block ((s.inode ip).copy.addrs nDirect)).word j := by
    have high : ¬ nDirect + 1 + j ≤ nDirect := by omega
    have index : nDirect + 1 + j - nDirect - 1 = j := by omega
    unfold addr
    rw [view_dinode, if_neg high, if_neg present, index]
    rfl
  have range {j : Nat} (member : j ∈ List.range nIndirect) : nDirect + 1 + j < nPlaces := by
    have := List.mem_range.mp member
    unfold nPlaces
    omega
  simp only [truncTree, truncIndirect, ok_bind, ok_get, ok_set]
  refine truncIndirect_ok ledger ?_ ?_ ?_ ?_
  · intro j member positive
    rw [← word] at positive ⊢
    exact (owned.data _ _ isAlloc (range member) positive).2
  · intro j member positive
    rw [← word] at positive ⊢
    exact (owned.data _ _ isAlloc (range member) positive).1.2
  · grind [List.Pairwise.imp_of_mem, List.nodup_range, cases Owned]
  · intro lh bitmap cleared freed
    have distinct (j : Nat) (member : j ∈ List.range nIndirect)
        (positive : (s.disk.block ((s.inode ip).copy.addrs nDirect)).word j ≠ 0) :
        (s.disk.block ((s.inode ip).copy.addrs nDirect)).word j ≠
          (s.inode ip).copy.addrs nDirect := by
      rw [← word, ← top]
      rw [← word] at positive
      intro equal
      have := (owned.once _ _ _ _ isAlloc isAlloc (range member) nDirect_lt positive equal).2
      omega
    have before := owned.data _ _ isAlloc nDirect_lt (by rw [top]; exact present)
    rw [top] at before
    refine bfree_ok freed ((cleared _).mpr ⟨before.2, distinct⟩) before.1.2
      fun lh disk result later => ?_
    subst result
    refine continued _ ?_ (later.congr rfl rfl rfl)
    refine Pruned.of_cleared (nDirect ≤ ·) owned isAlloc lh
      (update bitmap ((s.inode ip).copy.addrs nDirect) false) le_rfl
      (fun l => by omega) (fun b => ?_) rfl
    by_cases same : b = (s.inode ip).copy.addrs nDirect
    · grind [nDirect_lt]
    · rw [update_of_ne same, cleared b]
      refine and_congr_right fun _ => ⟨fun others l inside high positive => ?_,
        fun others j member positive => ?_⟩
      · by_cases root : l = nDirect
        · rw [root, top]
          exact Ne.symm same
        · obtain ⟨j, rfl⟩ : ∃ j, l = nDirect + 1 + j := ⟨l - nDirect - 1, by omega⟩
          rw [word] at positive ⊢
          refine others j (List.mem_range.mpr ?_) positive
          unfold nPlaces at inside
          omega
      · rw [← word] at positive ⊢
        exact others _ (range member) (by omega) positive

end Itrunc

/-- `itrunc` discarded the contents of an inode. -/
structure Truncated (sb : Superblock) (ip : Nat) (s t : State) : Prop where
  frame : Frame ip s t
  synced : t.Synced ip
  block : t.disk.block = s.disk.block
  fields : (t.inode ip).copy =
    { (s.inode ip).copy with size := 0, addrs := (t.inode ip).copy.addrs }
  addrs : ∀ k ≤ nDirect, (t.inode ip).copy.addrs k = 0
  owned : Owned sb t.disk

section Free

variable {sb : Superblock} {panics : Panic → Prop} {s : State} {ip : Nat} {past : List (List Nat)}
  {known : Finset Nat} {more : Nat} {post : Unit → State → Prop}

/-- The end of `itrunc`. -/
theorem Pruned.truncated {t u : State} {gone : List Nat} (lh : List Nat)
    (isAlloc : (s.view ip).Alloc sb (s.inode ip).inum) (pruned : Pruned sb ip gone s t)
    (empty : ∀ k ≤ nDirect, (t.inode ip).copy.addrs k = 0)
    (result : u = { t.setCopy ip { (t.inode ip).copy with size := 0 } with
      disk := (t.setCopy ip { (t.inode ip).copy with size := 0 }).view ip
      lh := lh }) : Truncated sb ip s u := by
  have inum := pruned.frame.inum
  obtain ⟨frame, later, slot, disk⟩ := setSize_frame 0 lh result
  rw [inum] at disk
  have dinode : (t.view ip).dinode (s.inode ip).inum = (t.inode ip).copy := by
    rw [← inum]
    exact view_dinode t ip
  have allocated : (t.view ip).Alloc sb (s.inode ip).inum := (pruned.alloc_iff _).mpr isAlloc
  have type : (t.inode ip).copy.type ≠ .free := by
    have := allocated.2.2
    rwa [dinode] at this
  refine ⟨pruned.frame.trans frame, later, ?_, ?_, ?_, ?_⟩
  · rw [disk]
    exact pruned.block
  · rw [slot, pruned.fields]
  · intro k low
    rw [slot]
    exact empty k low
  · rw [disk]
    exact pruned.owned.setDinode allocated type (by rw [dinode])

theorem itrunc_ok (ledger : Ledger sb panics past known more s)
    (here : sb.iblock (s.inode ip).inum ∈ known) (owned : Owned sb (s.view ip))
    (isAlloc : (s.view ip).Alloc sb (s.inode ip).inum)
    (continued : ∀ t, Truncated sb ip s t → Ledger sb panics past known more t → post () t) :
    Ok panics (itrunc sb ip) post s := by
  simp only [itrunc, truncDirect, ok_bind]
  refine truncDirect_ok ledger owned isAlloc (fun k member => List.mem_range.mp member)
    fun t pruned pruning => ?_
  have direct (k : Nat) (low : k < nDirect) : (t.inode ip).copy.addrs k = 0 := by
    rw [pruned.addrs, if_pos (List.mem_range.mpr low)]
  have allocated : (t.view ip).Alloc sb (t.inode ip).inum := by
    rw [pruned.frame.inum, pruned.alloc_iff]
    exact isAlloc
  simp only [ok_get, ok_ite]
  by_cases present : (t.inode ip).copy.addrs nDirect ≠ 0
  · rw [if_pos present]
    simp only [ok_bind, ok_get, ok_set]
    refine truncTree_ok pruning pruned.owned allocated present fun u further freeing => ?_
    have all := pruned.append further
    refine iupdate_ok freeing (by rw [all.frame.inum]; exact here) fun lh later =>
      continued _ (all.truncated lh isAlloc ?_ rfl) (later.congr rfl rfl rfl)
    grind [cases Pruned, cases Assigned]
  · rw [if_neg present]
    simp only [ok_bind, ok_get, ok_set]
    refine iupdate_ok pruning (by rw [pruned.frame.inum]; exact here) fun lh later =>
      continued _ (pruned.truncated lh isAlloc ?_ rfl) (later.congr rfl rfl rfl)
    intro k low
    by_cases last : k = nDirect
    · rw [last]
      exact not_not.mp present
    · exact direct k (by omega)

end Free

/-- `iput` freed an inode: it is free on the disk and its cache entry no longer valid. -/
structure Freed (sb : Superblock) (ip : Nat) (s t : State) : Prop where
  inode : ∀ j ≠ ip, t.inode j = s.inode j
  slot : t.inode ip = { s.inode ip with copy := (t.inode ip).copy, valid := false }
  type : (t.disk.dinode (s.inode ip).inum).type = .free
  dinode : ∀ i ≠ (s.inode ip).inum, t.disk.dinode i = s.disk.dinode i
  block : t.disk.block = s.disk.block
  file : t.file = s.file
  pipe : t.pipe = s.pipe
  proc : t.proc = s.proc
  outstanding : t.outstanding = s.outstanding
  owned : Owned sb t.disk

section IputFree

variable {sb : Superblock} {panics : Panic → Prop} {s : State} {ip : Nat}

theorem iputFree_ok {past : List (List Nat)} {known : Finset Nat} {more : Nat}
    {post : Unit → State → Prop} (valid : sb.Valid) (ledger : Ledger sb panics past known more s)
    (here : sb.iblock (s.inode ip).inum ∈ known) (owned : Owned sb (s.view ip))
    (isAlloc : (s.view ip).Alloc sb (s.inode ip).inum)
    (continued : ∀ t, Freed sb ip s t → Ledger sb panics past known more t → post () t) :
    Ok panics (iputFree sb ip) post s := by
  simp only [iputFree, ok_bind, ok_modify]
  refine itrunc_ok ledger here owned isAlloc fun t truncated later => ?_
  have inum := truncated.frame.inum
  refine iupdate_ok later (by rw [inum]; exact here) fun lh last =>
    continued _ ?_ (last.congr rfl rfl rfl)
  have disk : (t.setCopy ip { (t.inode ip).copy with type := .free }).view ip =
      t.disk.setDinode (s.inode ip).inum { (t.inode ip).copy with type := .free } := by
    simp [State.view, State.setCopy, State.setInode, setDinode, inum]
  have dinode : t.disk.dinode (s.inode ip).inum = (t.inode ip).copy := by
    rw [← inum]
    exact truncated.synced
  have empty (k : Nat) : t.disk.addr (s.inode ip).inum k = 0 := by
    unfold addr
    rw [dinode]
    split
    · rename_i low
      exact truncated.addrs k low
    · rw [if_pos (truncated.addrs nDirect le_rfl)]
  refine ⟨?_, ?_, ?_, ?_, ?_, ?_, ?_, ?_, ?_, ?_⟩
  · intro j different
    simp only [State.setInode, State.setCopy, ne_eq, different, not_false_eq_true,
      update_of_ne]
    exact truncated.frame.inode j different
  · simp only [State.setInode, State.setCopy, update_self]
    rw [truncated.frame.slot]
  · simp only [State.setInode, disk]
    simp [setDinode]
  · intro i different
    simp only [State.setInode, disk]
    simp only [setDinode, ne_eq, different, not_false_eq_true, update_of_ne]
    exact truncated.frame.dinode i different
  · simp only [State.setInode, disk]
    exact truncated.block
  · exact truncated.frame.file
  · exact truncated.frame.pipe
  · exact truncated.frame.proc
  · exact truncated.frame.outstanding
  · simp only [State.setInode, disk]
    exact truncated.owned.setEmpty valid (fun _ k _ => empty k) truncated.addrs

end IputFree

end Xv6.Fs
