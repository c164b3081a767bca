import Xv6.Fs.Returns
import Xv6.Lib.Splice

/-!
# Files as byte arrays

`writei` splices bytes into the contents of an inode and leaves all other contents; `readi` returns
a part of the contents and changes nothing.
-/

namespace Xv6.Fs

open Function Lib Prog Finset List

/-- The contents of an inode. -/
def Disk.contents (d : Disk) (i : Nat) : List UInt8 := d.bytes i 0 (d.dinode i).size

theorem Disk.contents_length (d : Disk) (i : Nat) : (d.contents i).length = (d.dinode i).size :=
  d.bytes_length i 0 _

theorem Disk.contents_getElem? (d : Disk) (i k : Nat) :
    (d.contents i)[k]? = if k < (d.dinode i).size then some (d.byte i k) else none := by
  grind [contents, bytes]

/-- The bytes that `readi` returns are a part of the contents. -/
theorem Disk.bytes_eq_contents (d : Disk) (i off n : Nat) :
    d.bytes i off (min n ((d.dinode i).size - off)) = ((d.contents i).drop off).take n := by
  ext1 k
  rw [bytes, getElem?_map]
  grind [contents_getElem?]

/-- A cached inode that is no device, with a block for each part of its contents. -/
structure Loaded (sb : Superblock) (ip : Nat) (s : State) : Prop where
  owned : Owned sb s.disk
  synced : s.Synced ip
  alloc : s.disk.Alloc sb (s.inode ip).inum
  sized : s.disk.Sized (s.inode ip).inum
  plain : (s.inode ip).copy.type ≠ .dev

section Write

variable {sb : Superblock} {panics : Panic → Prop} {deadlocks : Nat → Prop} {s t : State}
  {ip off : Nat} {src : List UInt8} {held : List Nat}
  {post : Option (List UInt8) → State → List Nat → Prop} {device : Option (List UInt8)} {n : Nat}

/-- What a write does to the contents. -/
structure Spliced (sb : Superblock) (ip off : Nat) (src : List UInt8) (s t : State) : Prop where
  contents : t.disk.contents (s.inode ip).inum =
    splice (s.disk.contents (s.inode ip).inum) off src
  size : (t.disk.dinode (s.inode ip).inum).size =
    max (s.disk.dinode (s.inode ip).inum).size (off + src.length)
  others : ∀ i, i ≠ (s.inode ip).inum → s.disk.Alloc sb i →
    (s.disk.dinode i).size ≤ maxFile * bSize → t.disk.dinode i = s.disk.dinode i ∧
      t.disk.contents i = s.disk.contents i

theorem Updated.spliced (updated : Updated sb ip off src s t) (loaded : Loaded sb ip s)
    (start : off ≤ (s.inode ip).copy.size) (inside : off + src.length ≤ maxFile * bSize) :
    Spliced sb ip off src s t := by
  have size : (t.disk.dinode (s.inode ip).inum).size =
      max (s.disk.dinode (s.inode ip).inum).size (off + src.length) := by
    have synced := updated.synced
    rw [State.Synced, updated.frame.inum] at synced
    rw [synced, updated.fields, loaded.synced]
  rw [← loaded.synced] at start
  refine ⟨?_, size, ?_⟩
  · ext1 k
    rw [getElem?_splice (by rw [Disk.contents_length]; exact start), Disk.contents_getElem?, size,
      Disk.contents_getElem?]
    have low := loaded.sized.size
    by_cases within : off ≤ k ∧ k < off + src.length
    all_goals grind [cases Updated, cases Loaded]
  · intro i other isAlloc small
    have same := updated.frame.dinode i other
    refine ⟨same, ?_⟩
    ext1 k
    grind [Disk.contents_getElem?, cases Updated]

/-- `writei` of an inode that is no device, at an offset in the file. -/
theorem writei_spliced {past : List (List Nat)} {known wider : Finset Nat} {more spare : Nat}
    {post : Option Nat → State → List Nat → Prop} (valid : sb.Valid) (loaded : Loaded sb ip s)
    (funds : Funds sb panics past known (touched off src.length) wider more spare ip s)
    (here : sb.iblock (s.inode ip).inum ∈ known) (start : off ≤ (s.inode ip).copy.size)
    (refused : ¬ off + src.length ≤ maxFile * bSize → post none s held)
    (continued : ∀ t, off + src.length ≤ maxFile * bSize → Updated sb ip off src s t →
      Spliced sb ip off src s t →
      Funds sb panics past known (touched off src.length) wider more spare ip t →
      post (some src.length) t held) :
    Wp panics deadlocks (writei sb ip off src) post s held := by
  simp only [writei, wp_bind, wp_get, wp_ite, wp_pure, wp_liftM]
  rw [if_neg loaded.plain]
  apply writeBlocks_ok valid funds here (fun o => placesOf_subset_touched) loaded.owned
    loaded.synced loaded.alloc loaded.sized
  · exact fun bad => refused (by omega)
  · exact fun t _ inside updated later =>
      continued t inside updated (updated.spliced loaded start inside) later

/-- `readi` of an inode that is no device. -/
theorem readi_sized (synced : s.Synced ip) (sized : s.disk.Sized (s.inode ip).inum)
    (plain : (s.inode ip).copy.type ≠ .dev) (start : off ≤ (s.inode ip).copy.size)
    (small : off + n < 2 ^ 32)
    (continued : post (some (((s.disk.contents (s.inode ip).inum).drop off).take n)) s held) :
    Wp panics deadlocks (readi sb ip off n device) post s held := by
  grind [synced.view, State.Synced, readi, wp_bind, wp_get, wp_liftM, readBlocks_ok,
    Disk.bytes_eq_contents, cases Disk.Sized]

theorem readi_contents (loaded : Loaded sb ip s) (start : off ≤ (s.inode ip).copy.size)
    (small : off + n < 2 ^ 32)
    (continued : post (some (((s.disk.contents (s.inode ip).inum).drop off).take n)) s held) :
    Wp panics deadlocks (readi sb ip off n device) post s held :=
  readi_sized loaded.synced loaded.sized loaded.plain start small continued

/-- There is enough for a write: in an open transaction, room in the log for the inode, the bitmap
and the blocks that the bytes use, and a free block for each of these that has to be allocated. -/
structure Spare (sb : Superblock) (ip off n : Nat) (s : State) : Prop where
  admitted : 0 < s.outstanding
  nodup : s.lh.Nodup
  log : (insert (sb.iblock (s.inode ip).inum) (s.lh.toFinset ∪ sb.bitmap) ∪
    filled (touched off n) (s.addr ip)).card + missing (touched off n) (s.addr ip) < sb.logRoom
  free : missing (touched off n) (s.addr ip) ≤ s.disk.freeBlocks sb

theorem Spare.funds (spare : Spare sb ip off n s) :
    Funds sb panics s.commits (insert (sb.iblock (s.inode ip).inum) (s.lh.toFinset ∪ sb.bitmap))
      (touched off n) (touched off n) 0 0 ip s := by
  refine ⟨.inr ⟨rfl, spare.admitted, spare.nodup, ?_, ?_, spare.log⟩, Finset.Subset.refl _,
    .inr spare.free⟩
  · intro b logged
    exact Finset.mem_union_left _ (Finset.mem_insert_of_mem
      (Finset.mem_union_left _ (List.mem_toFinset.mpr logged)))
  · intro b inside
    exact Finset.mem_union_left _ (Finset.mem_insert_of_mem
      (Finset.mem_union_right _ (mem_image_of_mem _ (Finset.mem_range.mpr inside))))

/-- An inode that is no device is a byte array. When there is room in the log and on the disk,
`writei` writes all bytes at the offset, extends the file where they pass its end, and leaves the
contents of every other inode. `readi` returns the bytes from the offset on, no more than there are,
and changes nothing. -/
theorem byte_array (valid : sb.Valid) (loaded : Loaded sb ip s)
    (start : off ≤ (s.inode ip).copy.size) :
    (∀ src : List UInt8, off + src.length ≤ maxFile * bSize → Spare sb ip off src.length s →
      ∃ t, (writei sb ip off src).run s [ip] = .done (some src.length) t [ip] ∧
        Spliced sb ip off src s t) ∧
    ∀ n device, off + n < 2 ^ 32 →
      ∃ bytes, (readi sb ip off n device).run s [ip] = .done (some bytes) s [ip] ∧
        bytes = ((s.disk.contents (s.inode ip).inum).drop off).take n ∧
        bytes.length = min n ((s.inode ip).copy.size - off) := by
  refine ⟨?_, ?_⟩
  · intro src inside spare
    have wp : Wp (fun _ => False) (fun _ => False) (writei sb ip off src)
        (fun r t held => r = some src.length ∧ held = [ip] ∧ Spliced sb ip off src s t) s [ip] :=
      writei_spliced valid loaded spare.funds (Finset.mem_insert_self ..) start (absurd inside)
        fun t _ _ spliced _ => ⟨rfl, rfl, spliced⟩
    obtain ⟨_, t, _, done, rfl, rfl, spliced⟩ := wp.total
    exact ⟨t, done, spliced⟩
  · intro n device small
    have wp : Wp (fun _ => False) (fun _ => False) (readi sb ip off n device)
        (fun r t held => r = some (((s.disk.contents (s.inode ip).inum).drop off).take n) ∧ t = s ∧
          held = [ip]) s [ip] :=
      readi_contents loaded start small ⟨rfl, rfl, rfl⟩
    obtain ⟨_, _, _, done, rfl, rfl, rfl⟩ := wp.total
    refine ⟨_, done, rfl, ?_⟩
    rw [length_take, length_drop, Disk.contents_length, loaded.synced]

end Write

/-- The image that `mkfs` makes, with an open file that has no name and no contents. -/
def nameless : State :=
  { boot mkfsDisk with
    disk := mkfsDisk.setDinode 2 (.fresh .file)
    inode := fun ip => if ip = 0 then ⟨rootDev, 2, 1, true, .fresh .file⟩
      else ⟨0, 0, 0, false, .fresh .free⟩
    outstanding := 1 }

theorem nameless_loaded : Loaded mkfsSuper 0 nameless where
  owned := (mkfs_image.sound.fresh mkfsSuper_valid (by decide)).owned
  synced := show update mkfsDisk.dinode 2 (Dinode.fresh .file) 2 = .fresh .file from
    update_self ..
  alloc := by decide
  sized := (mkfs_image.sound.fresh mkfsSuper_valid (by decide)).sized 2 (by decide)
  plain := by decide

theorem nameless_spare : Spare mkfsSuper 0 0 3 nameless where
  admitted := by decide
  nodup := nodup_nil
  log := by
    rw [show mkfsSuper.bitmap = {58} from mkfs_bitmap 30]
    decide +kernel
  free := by decide +kernel

/-- Three bytes are written to an empty file. -/
theorem byte_array_nameless :
    ∃ t, (writei mkfsSuper 0 0 [7, 8, 9]).run nameless [0] = .done (some 3) t [0] ∧
      t.disk.contents 2 = [7, 8, 9] := by
  obtain ⟨t, done, spliced⟩ :=
    (byte_array mkfsSuper_valid nameless_loaded (Nat.le_refl 0)).1 [7, 8, 9] (by decide)
      nameless_spare
  exact ⟨t, done, spliced.contents⟩

/-- There are blocks enough for a write of 28 blocks, but the log has no room for so many. -/
theorem big_write_panics :
    Loaded mkfsSuper 0 nameless ∧ 28 * bSize ≤ maxFile * bSize ∧
      28 * 2 ≤ nameless.disk.freeBlocks mkfsSuper ∧
      (writei mkfsSuper 0 0 (List.replicate (28 * bSize) 7)).run nameless [0] = .panic .tooBig :=
  ⟨nameless_loaded, by decide, by decide +kernel, Outcome.eq_panic (by decide +kernel)⟩

end Xv6.Fs
