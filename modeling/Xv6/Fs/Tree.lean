import Xv6.Fs.Content
import Xv6.Fs.Dir

/-!
# Directories on the disk

The entries of a directory as a list, the node an inode number stands for, and the law `Sound` of
a disk on which the loops over directories never panic. For each change that the code makes to
the disk there is a lemma that says which node it changes and one that says that the law stays.
-/

namespace Xv6.Fs

open Function List

theorem short_of_mem {value : Int} (low : -32768 ≤ value) (high : value < 32768) :
    short value = value := by
  unfold short
  omega

theorem short_short (value : Int) : short (short value) = short value := by
  unfold short
  omega

variable {de : Dirent}

theorem Dirent.encode_length (length : de.name.length = dirSiz) :
    de.encode.length = direntSize := by
  simp [encode, length, direntSize]
  omega

/-- Reading an entry that was written. -/
theorem Dirent.decode_encode (bound : de.inum < 2 ^ 16) : Dirent.decode de.encode = de := by
  obtain ⟨inum, name⟩ := de
  simp only [encode, decode, getD_cons_zero, getD_cons_succ, drop_succ_cons,
    drop_zero, Dirent.mk.injEq, and_true]
  have low : (UInt8.ofNat inum).toNat = inum % 256 := by simp
  have high : (UInt8.ofNat (inum / 256)).toNat = inum / 256 % 256 := by simp
  rw [low, high]
  simp only at bound
  omega

theorem strncpy_length (t : List UInt8) (n : Nat) : (strncpy t n).length = n := by
  grind [takeWhile_sublist, length_take_le, strncpy]

namespace Disk

/-- The entry of a directory at an index. -/
def entry (d : Disk) (i k : Nat) : Dirent :=
  .decode (d.bytes i (direntSize * k) direntSize)

/-- The entries of a directory, free ones included. -/
def ents (d : Disk) (i : Nat) : List Dirent :=
  (range ((d.dinode i).size / direntSize)).map (d.entry i)

theorem ents_length (d : Disk) (i : Nat) : (d.ents i).length = (d.dinode i).size / direntSize := by
  simp [ents]

theorem ents_getElem? (d : Disk) (i k : Nat) :
    (d.ents i)[k]? = if k < (d.dinode i).size / direntSize then some (d.entry i k) else none := by
  grind [ents]

/-- Directories with the same bytes and size have the same entries. -/
theorem ents_congr {d later : Disk} {i : Nat} (size : (later.dinode i).size = (d.dinode i).size)
    (byte : ∀ o < (d.dinode i).size, later.byte i o = d.byte i o) : later.ents i = d.ents i := by
  unfold ents
  rw [size]
  apply map_congr_left
  intro k member
  have inside := List.mem_range.mp member
  unfold entry bytes
  congr 1
  apply map_congr_left
  intro t within
  apply byte
  have positive : 0 < direntSize := by decide
  have := List.mem_range.mp within
  have := Nat.div_mul_le_self (d.dinode i).size direntSize
  have : direntSize * (k + 1) ≤ direntSize * ((d.dinode i).size / direntSize) :=
    Nat.mul_le_mul_left _ inside
  rw [Nat.mul_succ, mul_comm direntSize ((d.dinode i).size / direntSize)] at this
  omega

end Disk

/-- What an inode number stands for. -/
structure Node where
  kind : FileType
  nlink : Int
  /-- The entries of a directory. -/
  ents : List Dirent

/-- A free inode number. -/
def Node.free : Node := ⟨.free, 0, []⟩

namespace Disk

variable {sb : Superblock} {d later : Disk} {i : Nat}

instance (sb : Superblock) (d : Disk) (i : Nat) : Decidable (d.Alloc sb i) :=
  inferInstanceAs (Decidable (_ ∧ _ ∧ _))

/-- The node of an inode number. -/
def node (sb : Superblock) (d : Disk) (i : Nat) : Node :=
  if d.Alloc sb i then
    ⟨(d.dinode i).type, (d.dinode i).nlink, if (d.dinode i).type = .dir then d.ents i else []⟩
  else .free

/-- The loops over directories of a sound disk never panic. -/
structure Sound (sb : Superblock) (d : Disk) : Prop where
  owned : Owned sb d
  sized : ∀ i, d.Alloc sb i → d.Sized i
  nlink : ∀ i, d.Alloc sb i → short (d.dinode i).nlink = (d.dinode i).nlink
  whole : ∀ i, d.Alloc sb i → (d.dinode i).type = .dir → direntSize ∣ (d.dinode i).size
  named : ∀ i, d.Alloc sb i → (d.dinode i).type = .dir → ∀ e ∈ d.ents i, e.inum < sb.ninodes

/-- Inodes with the same header and bytes are the same node, and as sound as before. -/
structure Same (d later : Disk) (i : Nat) : Prop where
  type : (later.dinode i).type = (d.dinode i).type
  nlink : (later.dinode i).nlink = (d.dinode i).nlink
  size : (later.dinode i).size = (d.dinode i).size
  byte : ∀ o < maxFile * bSize, later.byte i o = d.byte i o
  mapped : ∀ bn, d.Mapped i bn → later.Mapped i bn

theorem Same.alloc_iff (same : Same d later i) : later.Alloc sb i ↔ d.Alloc sb i := by
  unfold Alloc
  rw [same.type]

theorem Same.ents (same : Same d later i) (sized : d.Sized i) : later.ents i = d.ents i :=
  ents_congr same.size fun o below => same.byte o (lt_of_lt_of_le below sized.size)

theorem Same.node (same : Same d later i) (sound : Sound sb d) : later.node sb i = d.node sb i := by
  unfold Disk.node
  by_cases isAlloc : d.Alloc sb i
  · rw [if_pos isAlloc, if_pos (same.alloc_iff.mpr isAlloc), same.type, same.nlink,
      same.ents (sound.sized i isAlloc)]
  · rw [if_neg isAlloc, if_neg (fun allocated => isAlloc (same.alloc_iff.mp allocated))]

/-- The law of a disk on which all inodes but one are the same. -/
theorem Sound.change (sound : Sound sb d) (owned : Owned sb later)
    (others : ∀ n, n ≠ i → d.Alloc sb n → Same d later n)
    (free : ∀ n, n ≠ i → later.Alloc sb n → d.Alloc sb n) (sized : later.Alloc sb i → later.Sized i)
    (nlink : later.Alloc sb i → short (later.dinode i).nlink = (later.dinode i).nlink)
    (whole : later.Alloc sb i → (later.dinode i).type = .dir → direntSize ∣ (later.dinode i).size)
    (named : later.Alloc sb i → (later.dinode i).type = .dir →
      ∀ e ∈ later.ents i, e.inum < sb.ninodes) : Sound sb later := by
  constructor
  · exact owned
  · intro n allocated
    constructor <;> grind [cases Sound, cases Same, cases Sized]
  · grind [cases Sound, cases Same]
  · grind [cases Sound, cases Same]
  · intro n allocated type
    by_cases here : n = i
    · subst here
      exact named allocated type
    · have before := free n here allocated
      have same := others n here before
      rw [same.type] at type
      rw [same.ents (sound.sized n before)]
      exact sound.named n before type

end Disk

/-! ## Writing an entry -/

/-- The entries after one was written at an index, at most the first index behind them. -/
def setEnt (ents : List Dirent) (k : Nat) (e : Dirent) : List Dirent :=
  if k < ents.length then ents.set k e else ents ++ [e]

theorem mem_setEnt {ents : List Dirent} {k : Nat} {e other : Dirent}
    (member : other ∈ setEnt ents k e) : other ∈ ents ∨ other = e := by
  unfold setEnt at member
  split at member
  · exact mem_or_eq_of_mem_set member
  · simpa using member

theorem setEnt_getElem? {ents : List Dirent} {k : Nat} {e : Dirent} (inside : k ≤ ents.length)
    (l : Nat) : (setEnt ents k e)[l]? = if l = k then some e else ents[l]? := by
  unfold setEnt
  by_cases within : k < ents.length
  · grind
  · rw [if_neg within]
    have last : k = ents.length := by omega
    by_cases same : l = k
    · rw [if_pos same, same, last]
      simp
    · rw [if_neg same]
      by_cases before : l < ents.length
      · rw [getElem?_append_left before]
      · rw [getElem?_eq_none (by simp; omega), getElem?_eq_none (by omega)]

section Updated

variable {sb : Superblock} {s t : State} {ip off : Nat} {src : List UInt8}
  (updated : Updated sb ip off src s t) (synced : s.Synced ip)

include synced

include updated

omit synced in
/-- A write leaves every other inode as it was. -/
theorem Updated.same {n : Nat} (different : n ≠ (s.inode ip).inum) (isAlloc : s.disk.Alloc sb n) :
    Disk.Same s.disk t.disk n := by
  have dinode := updated.frame.dinode n different
  constructor <;> grind [cases Updated]

/-- The header of the inode written to. -/
theorem Updated.dinode :
    t.disk.dinode (s.inode ip).inum = { s.disk.dinode (s.inode ip).inum with
      size := max (s.disk.dinode (s.inode ip).inum).size (off + src.length)
      addrs := (t.inode ip).copy.addrs } := by
  grind [updated.frame.inum, cases Updated, State.Synced]

theorem Updated.alloc_iff (n : Nat) : t.disk.Alloc sb n ↔ s.disk.Alloc sb n := by
  by_cases here : n = (s.inode ip).inum
  · subst here
    unfold Disk.Alloc
    rw [updated.dinode synced]
  · unfold Disk.Alloc
    rw [updated.frame.dinode n here]

theorem Updated.nlink_short (sound : s.disk.Sound sb)
    (isAlloc : s.disk.Alloc sb (s.inode ip).inum) :
    short (t.disk.dinode (s.inode ip).inum).nlink = (t.disk.dinode (s.inode ip).inum).nlink := by
  rw [updated.dinode synced]
  exact sound.nlink _ isAlloc

/-- A write to a file that is not a directory changes no node. -/
theorem Updated.node_file (sound : s.disk.Sound sb)
    (type : (s.disk.dinode (s.inode ip).inum).type ≠ .dir) (n : Nat) :
    t.disk.node sb n = s.disk.node sb n := by
  unfold Disk.node
  by_cases isAlloc : s.disk.Alloc sb n
  · by_cases here : n = (s.inode ip).inum
    · subst here
      rw [if_pos isAlloc, if_pos ((updated.alloc_iff synced _).mpr isAlloc),
        updated.dinode synced]
      simp [type]
    · have same := updated.same here isAlloc
      rw [if_pos isAlloc, if_pos (same.alloc_iff.mpr isAlloc), same.type, same.nlink,
        same.ents (sound.sized n isAlloc)]
  · rw [if_neg isAlloc,
      if_neg (fun allocated => isAlloc ((updated.alloc_iff synced n).mp allocated))]

theorem Updated.sound_file (sound : s.disk.Sound sb)
    (type : (s.disk.dinode (s.inode ip).inum).type ≠ .dir) : t.disk.Sound sb := by
  have notDir : (t.disk.dinode (s.inode ip).inum).type ≠ .dir := by
    rw [updated.dinode synced]
    exact type
  refine sound.change (i := (s.inode ip).inum) updated.owned ?_ ?_ ?_ ?_ ?_ ?_
  · exact fun n different isAlloc => updated.same different isAlloc
  · exact fun n _ allocated => (updated.alloc_iff synced n).mp allocated
  · exact fun _ => updated.sized
  · exact fun allocated => updated.nlink_short synced sound
      ((updated.alloc_iff synced _).mp allocated)
  · exact fun _ isDir => absurd isDir notDir
  · exact fun _ isDir => absurd isDir notDir

end Updated

section UpdatedDir

variable {sb : Superblock} {s t : State} {ip k : Nat} {e : Dirent}
  (updated : Updated sb ip (direntSize * k) e.encode s t)

include updated

omit updated in
/-- The entries cover a directory. -/
theorem Disk.Sound.size_eq {d : Disk} {i : Nat} (sound : d.Sound sb) (isAlloc : d.Alloc sb i)
    (type : (d.dinode i).type = .dir) : (d.dinode i).size = direntSize * (d.ents i).length := by
  rw [Disk.ents_length, Nat.mul_div_cancel' (sound.whole i isAlloc type)]

/-- Writing an entry at its offset in a directory sets the entry. -/
theorem Updated.ents (synced : s.Synced ip) (isAlloc : s.disk.Alloc sb (s.inode ip).inum)
    (whole : direntSize ∣ (s.disk.dinode (s.inode ip).inum).size)
    (length : e.name.length = dirSiz) (bound : e.inum < 2 ^ 16)
    (inside : k ≤ (s.disk.ents (s.inode ip).inum).length) :
    t.disk.ents (s.inode ip).inum = setEnt (s.disk.ents (s.inode ip).inum) k e := by
  have encoded := Dirent.encode_length length
  have before : (s.disk.dinode (s.inode ip).inum).size =
      direntSize * (s.disk.ents (s.inode ip).inum).length := by
    rw [Disk.ents_length, Nat.mul_div_cancel' whole]
  have within := updated.sized.size
  have positive : 0 < direntSize := by decide
  have after : (t.disk.dinode (s.inode ip).inum).size =
      direntSize * max (s.disk.ents (s.inode ip).inum).length (k + 1) := by
    rw [updated.dinode synced]
    show max (s.disk.dinode (s.inode ip).inum).size (direntSize * k + e.encode.length) = _
    rw [encoded, before, ← Nat.mul_succ, Nat.mul_max_mul_left]
  -- every byte of an entry below the new size is written or as before
  have bytes : ∀ l < max (s.disk.ents (s.inode ip).inum).length (k + 1),
      t.disk.entry (s.inode ip).inum l = if l = k then e else s.disk.entry (s.inode ip).inum l := by
    intro l small
    have last : direntSize * (l + 1) ≤ maxFile * bSize := by
      refine le_trans (Nat.mul_le_mul_left _ small) ?_
      rw [← after]
      exact within
    have read : ∀ o < direntSize, t.disk.byte (s.inode ip).inum (direntSize * l + o) =
        if l = k then e.encode.getD o 0
        else s.disk.byte (s.inode ip).inum (direntSize * l + o) := by
      intro o low
      rw [updated.byte _ _ isAlloc (by rw [Nat.mul_succ] at last; omega), encoded]
      by_cases here : l = k
      · subst here
        rw [if_pos rfl, if_pos ⟨rfl, by omega, by omega⟩, Nat.add_sub_cancel_left]
      · rw [if_neg here, if_neg]
        rintro ⟨_, first, last⟩
        have sixteen : direntSize = 16 := rfl
        rw [sixteen] at low first last
        omega
    unfold Disk.entry Disk.bytes
    by_cases here : l = k
    · rw [if_pos here]
      have whole : (range direntSize).map
          (fun o => t.disk.byte (s.inode ip).inum (direntSize * l + o)) = e.encode := by
        apply ext_getElem
        · simp [encoded]
        · grind
      rw [whole, Dirent.decode_encode bound]
    · rw [if_neg here]
      congr 1
      apply map_congr_left
      intro o low
      rw [read o (List.mem_range.mp low), if_neg here]
  apply ext_getElem?
  intro l
  rw [setEnt_getElem? inside, Disk.ents_getElem?, Disk.ents_getElem?, after,
    Nat.mul_div_cancel_left _ positive, ← Disk.ents_length]
  grind

/-- The one node that writing an entry changes. -/
theorem Updated.node_dir (synced : s.Synced ip) (sound : s.disk.Sound sb)
    (isAlloc : s.disk.Alloc sb (s.inode ip).inum)
    (type : (s.disk.dinode (s.inode ip).inum).type = .dir) (length : e.name.length = dirSiz)
    (bound : e.inum < 2 ^ 16) (inside : k ≤ (s.disk.ents (s.inode ip).inum).length) :
    t.disk.node sb = update (s.disk.node sb) (s.inode ip).inum
      { s.disk.node sb (s.inode ip).inum with
        ents := setEnt (s.disk.node sb (s.inode ip).inum).ents k e } := by
  funext n
  by_cases here : n = (s.inode ip).inum
  · subst here
    have ents := updated.ents synced isAlloc (sound.whole _ isAlloc type) length bound inside
    have dinode := updated.dinode synced
    grind [Disk.node, Disk.Alloc]
  · rw [update_of_ne here]
    by_cases allocated : s.disk.Alloc sb n
    · exact (updated.same here allocated).node sound
    · unfold Disk.node
      rw [if_neg allocated, if_neg fun later => allocated ((updated.alloc_iff synced n).mp later)]

theorem Updated.sound_dir (synced : s.Synced ip) (sound : s.disk.Sound sb)
    (isAlloc : s.disk.Alloc sb (s.inode ip).inum)
    (type : (s.disk.dinode (s.inode ip).inum).type = .dir) (length : e.name.length = dirSiz)
    (named : e.inum < sb.ninodes) (valid : sb.Valid)
    (inside : k ≤ (s.disk.ents (s.inode ip).inum).length) : t.disk.Sound sb := by
  have bound : e.inum < 2 ^ 16 := lt_of_lt_of_le named valid.ninodes
  refine sound.change (i := (s.inode ip).inum) updated.owned ?_ ?_ ?_ ?_ ?_ ?_
  · exact fun n different allocated => updated.same different allocated
  · exact fun n _ allocated => (updated.alloc_iff synced n).mp allocated
  · exact fun _ => updated.sized
  · exact fun _ => updated.nlink_short synced sound isAlloc
  · intro _ _
    rw [updated.dinode synced]
    show direntSize ∣ max (s.disk.dinode (s.inode ip).inum).size (direntSize * k + e.encode.length)
    rw [Dirent.encode_length length, sound.size_eq isAlloc type, ← Nat.mul_succ,
      Nat.mul_max_mul_left]
    exact Nat.dvd_mul_right ..
  · intro _ _ other member
    rw [updated.ents synced isAlloc (sound.whole _ isAlloc type) length bound inside] at member
    cases mem_setEnt member with
    | inl before => exact sound.named _ isAlloc type other before
    | inr added => exact added ▸ named

end UpdatedDir

/-! ## Freeing, allocating and linking -/

section Header

variable {sb : Superblock} {s t : State} {ip n : Nat} {d : Disk} {i : Nat} {dinode : Dinode}
  {type : FileType}

section

variable (freed : Freed sb ip s t)

include freed

theorem Freed.same (different : n ≠ (s.inode ip).inum) : Disk.Same s.disk t.disk n := by
  constructor <;> grind [Disk.addr_congr, Disk.byte_congr, Disk.Mapped, cases Freed]

theorem Freed.not_alloc : ¬ t.disk.Alloc sb (s.inode ip).inum :=
  fun allocated => allocated.2.2 freed.type

theorem Freed.node (sound : s.disk.Sound sb) :
    t.disk.node sb = update (s.disk.node sb) (s.inode ip).inum .free := by
  funext n
  by_cases here : n = (s.inode ip).inum
  · subst here
    rw [update_self, Disk.node, if_neg freed.not_alloc]
  · rw [update_of_ne here]
    exact (freed.same here).node sound

theorem Freed.sound (sound : s.disk.Sound sb) : t.disk.Sound sb := by
  refine sound.change (i := (s.inode ip).inum) freed.owned ?_ ?_ ?_ ?_ ?_ ?_
  · exact fun n different _ => freed.same different
  all_goals grind [cases Freed, Disk.Alloc]

end

theorem Disk.same_setDinode (different : n ≠ i) : Disk.Same d (d.setDinode i dinode) n := by
  have same : (d.setDinode i dinode).dinode n = d.dinode n := update_of_ne different ..
  have addr : ∀ k, (d.setDinode i dinode).addr n k = d.addr n k := by
    intro k
    exact Disk.addr_congr (fun k _ => by rw [same]) (fun _ => rfl)
  refine ⟨by rw [same], by rw [same], by rw [same], ?_, ?_⟩
  · intro o _
    exact Disk.byte_congr (addr _) (fun _ => rfl)
  · intro bn mapped
    unfold Disk.Mapped
    rw [addr]
    exact mapped

/-- What `ialloc` does to the nodes. -/
theorem Disk.node_fresh (sound : d.Sound sb) (inside : rootIno ≤ i ∧ i < sb.ninodes)
    (used : type ≠ .free) :
    (d.setDinode i (.fresh type)).node sb =
      update (d.node sb) i ⟨type, 0, []⟩ := by
  funext n
  by_cases here : n = i
  · subst here
    have header : (d.setDinode n (.fresh type)).dinode n = .fresh type := update_self ..
    have allocated : (d.setDinode n (.fresh type)).Alloc sb n := by
      refine ⟨inside.1, inside.2, ?_⟩
      rw [header]
      exact used
    have none : (d.setDinode n (.fresh type)).ents n = [] := by
      unfold Disk.ents
      rw [header]
      simp [Dinode.fresh]
    rw [update_self, Disk.node, if_pos allocated, none, header]
    unfold Dinode.fresh
    split <;> rfl
  · rw [update_of_ne here]
    exact (Disk.same_setDinode here).node sound

theorem Disk.Sound.fresh (sound : d.Sound sb) (valid : sb.Valid)
    (unused : (d.dinode i).type = .free) : (d.setDinode i (.fresh type)).Sound sb := by
  have header : (d.setDinode i (.fresh type)).dinode i = .fresh type := update_self ..
  have owned : Owned sb (d.setDinode i (.fresh type)) :=
    sound.owned.setEmpty valid (fun isAlloc => absurd unused isAlloc.2.2) (fun _ _ => rfl)
  refine sound.change (i := i) owned ?_ ?_ ?_ ?_ ?_ ?_
  · exact fun n different _ => Disk.same_setDinode different
  · exact fun n different allocated => (Disk.same_setDinode different).alloc_iff.mp allocated
  · intro _
    constructor
    · rw [header]
      exact Nat.zero_le _
    · intro o below
      rw [header] at below
      exact absurd below (Nat.not_lt_zero o)
  · intro _
    rw [header]
    rfl
  · intro _ _
    rw [header]
    exact Nat.dvd_zero _
  · intro _ _ e member
    unfold Disk.ents at member
    rw [header] at member
    exact absurd member (by simp [Dinode.fresh])

/-- An inode header that has the same type, size and addresses, and a link count that fits. -/
structure Dinode.Alike (dinode later : Dinode) : Prop where
  type : later.type = dinode.type
  size : later.size = dinode.size
  addrs : later.addrs = dinode.addrs
  nlink : short later.nlink = later.nlink

theorem Disk.alloc_alike (alike : (d.dinode i).Alike dinode) (n : Nat) :
    (d.setDinode i dinode).Alloc sb n ↔ d.Alloc sb n := by
  by_cases here : n = i
  · subst here
    have header : (d.setDinode n dinode).dinode n = dinode := update_self ..
    unfold Disk.Alloc
    rw [header, alike.type]
  · exact (Disk.same_setDinode here).alloc_iff

theorem Disk.ents_alike (alike : (d.dinode i).Alike dinode) :
    (d.setDinode i dinode).ents i = d.ents i := by
  have header : (d.setDinode i dinode).dinode i = dinode := update_self ..
  apply Disk.ents_congr
  · rw [header, alike.size]
  · intro o _
    exact Disk.byte_setDinode alike.addrs i o

/-- What a change of the link count does to the nodes. -/
theorem Disk.node_alike (sound : d.Sound sb) (isAlloc : d.Alloc sb i)
    (alike : (d.dinode i).Alike dinode) :
    (d.setDinode i dinode).node sb =
      update (d.node sb) i { d.node sb i with nlink := dinode.nlink } := by
  funext n
  by_cases here : n = i
  · subst here
    have header : (d.setDinode n dinode).dinode n = dinode := update_self ..
    rw [update_self]
    unfold Disk.node
    rw [if_pos isAlloc, if_pos ((Disk.alloc_alike alike n).mpr isAlloc), Disk.ents_alike alike,
      header, alike.type]
  · rw [update_of_ne here]
    exact (Disk.same_setDinode here).node sound

theorem Disk.Sound.alike (sound : d.Sound sb) (isAlloc : d.Alloc sb i)
    (alike : (d.dinode i).Alike dinode) : (d.setDinode i dinode).Sound sb := by
  have header : (d.setDinode i dinode).dinode i = dinode := update_self ..
  have used : dinode.type ≠ .free := by
    rw [alike.type]
    exact isAlloc.2.2
  refine sound.change (i := i) (sound.owned.setDinode isAlloc used alike.addrs) ?_ ?_ ?_ ?_ ?_
    ?_
  · exact fun n different _ => Disk.same_setDinode different
  · exact fun n different allocated => (Disk.same_setDinode different).alloc_iff.mp allocated
  · intro _
    constructor
    · rw [header, alike.size]
      exact (sound.sized i isAlloc).size
    · intro o below
      rw [header, alike.size] at below
      unfold Disk.Mapped
      rw [Disk.addr_setDinode alike.addrs]
      exact (sound.sized i isAlloc).mapped o below
  all_goals grind [Disk.ents_alike, cases Sound, cases Dinode.Alike]

end Header

end Xv6.Fs
