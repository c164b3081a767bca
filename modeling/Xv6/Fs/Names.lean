import Xv6.Fs.Lookup

/-!
# Names as operations on the nodes

What `create`, `sys_link` and `sys_unlink` do to the nodes, and the theorem that `create`, by a
process that runs alone, makes a node or leaves the disk as it is.
-/

namespace Xv6.Fs

open Function Lib Prog List

/-! ## Operations on the nodes -/

/-- The inode numbers that references stand for. -/
def State.inums (s : State) (refs : Multiset Nat) : Multiset Nat :=
  refs.map fun ip => (s.inode ip).inum

/-- An inode that has no links and is not in use is freed. -/
def settle (used : Multiset Nat) (tree : Nat → Node) (i : Nat) : Nat → Node :=
  if (tree i).nlink = 0 ∧ i ∉ used then update tree i .free else tree

/-- The node that `create` makes. -/
def newNode (type : FileType) (d i : Nat) : Node where
  kind := type
  nlink := 1
  ents := if type = .dir then [⟨i, strncpy dot dirSiz⟩, ⟨d, strncpy dotdot dirSiz⟩] else []

/-- A directory in which an inode gets a name. -/
def named (node : Node) (i : Nat) (name : List UInt8) : Node :=
  { node with ents := setEnt node.ents (freeIndex node.ents) ⟨i, strncpy name dirSiz⟩ }

/-- A node with links added. -/
def linked (node : Node) (count : Int) : Node := { node with nlink := short (node.nlink + count) }

/-- The bytes that `sys_unlink` writes. -/
def noEntry : Dirent := ⟨0, replicate dirSiz 0⟩

/-- A directory in which an entry is cleared. -/
def cleared (node : Node) (k : Nat) : Node := { node with ents := setEnt node.ents k noEntry }

/-- A new inode `i` gets a name in the directory `d`. -/
def createTree (tree : Nat → Node) (d i : Nat) (name : List UInt8) (type : FileType) :
    Nat → Node :=
  update (update tree i (newNode type d i)) d
    (named (if type = .dir then linked (tree d) 1 else tree d) i name)

/-- The inode `i` gets another name in the directory `d`. -/
def linkTree (tree : Nat → Node) (d i : Nat) (name : List UInt8) : Nat → Node :=
  update (update tree i (linked (tree i) 1)) d (named (tree d) i name)

/-- The inode `i` loses its name, the entry `k` of the directory `d`. -/
def unlinkTree (tree : Nat → Node) (d k i : Nat) : Nat → Node :=
  update
    (update tree d
      (if (tree i).kind = .dir then linked (cleared (tree d) k) (-1) else cleared (tree d) k))
    i (linked (tree i) (-1))

/-- A directory that holds at most its first two entries. -/
def isEmptyDir (ents : List Dirent) : Bool := (ents.drop 2).all fun e => e.inum == 0

section Settle

variable {used later : Multiset Nat} {d i : Nat}

/-- Freeing one inode and changing another do not interfere. -/
theorem settle_update {tree : Nat → Node} {node : Node} (different : d ≠ i) :
    update (settle (i ::ₘ used) tree d) i node =
      settle used (update tree i node) d := by
  grind [settle, update_comm]

/-- Nothing in use is freed. -/
theorem settle_mem {tree : Nat → Node} (member : i ∈ used) : settle used tree d i = tree i := by
  unfold settle
  grind

/-- Settling one inode leaves the others. -/
theorem settle_of_ne {tree : Nat → Node} (different : i ≠ d) : settle used tree d i = tree i := by
  unfold settle
  split
  · exact update_of_ne different ..
  · rfl

variable {sb : Superblock} {refs : Multiset Nat} {s t : State} {ip : Nat}

/-- What dropping a reference does to the nodes. -/
theorem Put.tree (put : Put sb refs ip s t) (cached : Cached sb (ip ::ₘ refs) s)
    (kept : Kept sb (ip ::ₘ refs) s) :
    t.disk.node sb = settle (s.inums refs) (s.disk.node sb) (s.inode ip).inum := by
  have member := Multiset.mem_cons_self ip refs
  have used : (s.inode ip).inum ∈ s.inums refs ↔ ip ∈ refs := by
    unfold State.inums
    rw [Multiset.mem_map]
    constructor
    · intro ⟨jp, among, same⟩
      exact cached.once jp (Multiset.mem_cons_of_mem among) ip member same ▸ among
    · exact fun among => ⟨ip, among, rfl⟩
  have disk := put.disk
  simp only [settle, used]
  split at disk
  · rename_i last
    rw [if_pos ⟨by rw [← cached.copy_nlink member last.2.1]; exact last.2.2, last.1⟩]
    exact disk
  · rename_i stays
    rw [disk]
    split
    · rename_i unlinked
      -- the inode is not kept by an entry, so its number is free
      by_cases free : (s.disk.node sb (s.inode ip).inum).kind = .free
      · grind [Disk.node, Disk.node_alloc]
      · obtain ⟨jp, among, same, valid⟩ := kept _ free unlinked.1
        have equal := cached.once jp among ip member same
        subst equal
        refine absurd ⟨unlinked.2, valid, ?_⟩ stays
        rw [cached.copy_nlink member valid]
        exact unlinked.1
    · rfl

/-- What is still in use is what it was. -/
theorem Put.node {jp : Nat} (put : Put sb refs ip s t) (cached : Cached sb (ip ::ₘ refs) s)
    (kept : Kept sb (ip ::ₘ refs) s) (member : jp ∈ refs) :
    t.disk.node sb (t.inode jp).inum = s.disk.node sb (s.inode jp).inum := by
  rw [put.steady.inum jp member, put.tree cached kept]
  exact settle_mem (Multiset.mem_map.mpr ⟨jp, member, rfl⟩)

/-- Work of a process that keeps the law of the cache, the listed references, and the inodes
without links that are in use. -/
structure Work (sb : Superblock) (refs later : Multiset Nat) (s t : State) : Prop where
  cached : Cached sb later t
  steady : Steady refs s t
  kept : Kept sb later t

/-- Work that goes on with the same references in place. -/
theorem Work.andThen {middle : Multiset Nat} {u : State} (first : Work sb refs middle s t)
    (second : Work sb refs later t u) : Work sb refs later s u :=
  ⟨second.cached, first.steady.trans second.steady, second.kept⟩

/-- Fewer references were in place as well. -/
theorem Work.mono {more : Multiset Nat} (work : Work sb more later s t)
    (fewer : ∀ jp ∈ refs, jp ∈ more) : Work sb refs later s t :=
  ⟨work.cached, work.steady.mono fewer, work.kept⟩

/-- Another reference was there all along. -/
theorem Work.of_cons (work : Work sb (ip ::ₘ refs) later s t) : Work sb refs later s t :=
  work.mono fun _ => Multiset.mem_cons_of_mem

/-- Dropping a reference is such work. -/
theorem Put.work (put : Put sb refs ip s t) (before : Cached sb (ip ::ₘ refs) s)
    (kept : Kept sb (ip ::ₘ refs) s) : Work sb refs refs s t :=
  ⟨put.cached, put.steady, kept.put before put⟩

end Settle

section Isdirempty

variable {sb : Superblock} {panics : Panic → Prop} {deadlocks : Nat → Prop}
  {refs : Multiset Nat} {s : State} {held : List Nat} {dp : Nat}
  {post : Bool → State → List Nat → Prop}

/-- The offsets behind `.` and `..`. -/
theorem direntOffsets_two (count : Nat) : direntOffsets (2 * direntSize) (direntSize * count) =
    (List.range' 2 (count - 2)).map (direntSize * ·) := by
  have sixteen : direntSize = 16 := rfl
  have whole : (direntSize * count - 2 * direntSize + (direntSize - 1)) / direntSize =
      count - 2 := by
    rw [sixteen]
    omega
  grind [direntOffsets, List.range'_eq_map_range, map_congr_left]

/-- The loop of `isdirempty` from an index on. -/
theorem isdiremptyFrom_wp {k count : Nat} (opened : Opened sb refs s dp)
    (reach : k + count = (s.dirents sb dp).length)
    (continued : post (((s.dirents sb dp).drop k).all fun e => e.inum == 0) s held) :
    Wp panics deadlocks
      (isdiremptyFrom sb dp ((List.range' k count).map (direntSize * ·))) post s held := by
  induction count generalizing k with
  | zero =>
    rw [drop_of_length_le (by omega)] at continued
    exact continued
  | succ count ih =>
    have inside : k < (s.dirents sb dp).length := by omega
    rw [drop_eq_getElem_cons inside, all_cons] at continued
    simp only [List.range'_succ, map_cons, isdiremptyFrom, wp_bind]
    apply readDirent_wp opened (getElem?_eq_getElem inside)
    grind [wp_pure]

/-- `isdirempty` looks at every other entry. -/
theorem isdirempty_wp (opened : Opened sb refs s dp)
    (continued : post (isEmptyDir (s.dirents sb dp)) s held) :
    Wp panics deadlocks (isdirempty sb dp) post s held := by
  simp only [isdirempty, wp_bind, wp_get]
  rw [opened.size, direntOffsets_two]
  by_cases long : 2 ≤ (s.dirents sb dp).length
  · exact isdiremptyFrom_wp opened (by omega) continued
  · rw [Nat.sub_eq_zero_of_le (by omega)]
    rw [isEmptyDir, drop_of_length_le (by omega)] at continued
    exact continued

end Isdirempty

/-! ## Making a node -/

section Create

variable {sb : Superblock} {panics : Panic → Prop} {deadlocks : Nat → Prop}
  {refs : Multiset Nat} {s t : State} {held : List Nat} {dp ip : Nat}
  {post : Option Nat → State → List Nat → Prop} {past : List (List Nat)} {known : Finset Nat}
  {more : Nat} {type : FileType} {name : List UInt8} {major minor : Int} {node : Node}

/-- Changing the node of an open directory is such work. -/
theorem Opened.work (opened : Opened sb refs s dp) (kept : Kept sb refs s)
    (changed : Changed sb refs (s.inode dp).inum node s t) : Work sb refs refs s t :=
  ⟨changed.cached, changed.steady,
    kept.changed changed fun _ => ⟨dp, opened.member, rfl, opened.valid⟩⟩

/-- A directory stays open while nodes change that are not made something else. -/
theorem Opened.changed (opened : Opened sb refs s dp) {i : Nat}
    (changed : Changed sb refs i node s t) (kind : node.kind = (s.disk.node sb i).kind) :
    Opened sb refs t dp := by
  refine ⟨changed.cached, opened.member, changed.steady.valid dp opened.member opened.valid, ?_⟩
  rw [changed.tree, changed.steady.inum dp opened.member]
  grind [cases Opened]

/-- Inodes without links are kept while a node is made that has one. -/
theorem Kept.made {i : Nat} (kept : Kept sb refs s) (steady : Steady refs s t)
    (tree : t.disk.node sb = update (s.disk.node sb) i node) (some : node.nlink ≠ 0) :
    Kept sb (ip ::ₘ refs) t := by
  intro n taken nlink
  rw [tree] at taken nlink
  by_cases here : n = i
  · rw [here, update_self] at nlink
    exact absurd nlink some
  · rw [update_of_ne here] at taken nlink
    obtain ⟨jp, among, inum, isValid⟩ := kept n taken nlink
    exact ⟨jp, Multiset.mem_cons_of_mem among, (steady.inum jp among).trans inum,
      steady.valid jp among isValid⟩

/-- Blocks, inodes and cache entries may run out. -/
structure Scarce (panics : Panic → Prop) : Prop where
  blocks : panics .outOfBlocks
  inodes : panics .ialloc
  slots : panics .iget

/-- Running out may panic. -/
theorem Scarce.of_full (full : ∀ error, Panic.Exhausted error → panics error) : Scarce panics :=
  ⟨full _ .outOfBlocks, full _ .ialloc, full _ .iget⟩

/-- A directory has room for an entry, or its overflow is expected. -/
def Roomy (panics : Panic → Prop) (ents : List Dirent) : Prop :=
  panics .dirlink ∨ direntSize * (freeIndex ents + 1) ≤ maxFile * bSize

/-- The directory to which a path leads has room for the name if it lacks it. -/
def RoomFor (panics : Panic → Prop) (tree : Nat → Node) (cwd : Nat) (path : List UInt8) : Prop :=
  ∀ d name, resolve tree true cwd path = some (d, name) → lookup (tree d).ents name = none →
    Roomy panics (tree d).ents

/-- A path leads to no directory that lacks its last name. -/
def Taken (tree : Nat → Node) (cwd : Nat) (path : List UInt8) : Prop :=
  ∀ d name, resolve tree true cwd path = some (d, name) → lookup (tree d).ents name ≠ none

/-- The entries that `create` gives a new directory. -/
theorem createDots_wp {post : Unit → State → List Nat → Prop} (valid : sb.Valid)
    (scarce : Scarce panics) (ledger : Ledger sb panics past known (4 + more) s)
    (hereDp : sb.iblock (s.inode dp).inum ∈ known) (hereIp : sb.iblock (s.inode ip).inum ∈ known)
    (dir : Opened sb refs s dp) (new : Opened sb refs s ip) (kept : Kept sb refs s)
    (owned : ∀ jp ∈ held, jp ∈ refs) (different : (s.inode dp).inum ≠ (s.inode ip).inum)
    (empty : s.dirents sb ip = []) (continued : ∀ t, Work sb refs refs s t →
      t.disk.node sb = update (update (s.disk.node sb) (s.inode dp).inum
        (linked (s.disk.node sb (s.inode dp).inum) 1)) (s.inode ip).inum
        { s.disk.node sb (s.inode ip).inum with ents :=
          [⟨(s.inode ip).inum, strncpy dot dirSiz⟩, ⟨(s.inode dp).inum, strncpy dotdot dirSiz⟩] } →
      (∃ larger, known ⊆ larger ∧ Ledger sb panics past larger more t) → post () t held) :
    Wp panics deadlocks (createDots sb dp ip) post s held := by
  have inside : ∀ {jp : Nat}, jp ∈ refs → (s.inode jp).inum < sb.ninodes :=
    fun member => (dir.cached.inum _ member).2.2
  simp only [createDots, wp_bind, wp_liftM, wp_get]
  apply addLink_ok ledger hereDp dir.cached dir.member dir.valid
  intro t1 parent _ ledger1
  have new1 : Opened sb refs t1 ip := new.changed parent rfl
  have work1 := dir.work kept parent
  have inum1 : (t1.inode ip).inum = (s.inode ip).inum := parent.steady.inum ip new.member
  have ents1 : t1.dirents sb ip = [] := by
    unfold State.dirents
    rw [parent.tree, inum1, update_of_ne (Ne.symm different)]
    exact empty
  have ledger1 : Ledger sb panics past known (2 + (2 + more)) t1 := by
    rw [← add_assoc]
    exact ledger1
  apply dirlink_wp (m := 0) valid (.inl scarce.slots) ledger1 (by rw [inum1]; exact hereIp)
    (fun _ => .inl scarce.blocks) (fun _ => .inr (by rw [ents1]; decide)) new1
    work1.kept (by rw [inum1]; exact inside new.member) owned
  · intro k e jp found
    rw [ents1] at found
    exact absurd found (by simp [lookup])
  · intro k e u found
    rw [ents1] at found
    exact absurd found (by simp [lookup])
  · intro t2 known2 _ self subset2 ledger2 _
    have work2 := new1.work work1.kept self
    rw [ents1, inum1] at self
    have new2 : Opened sb refs t2 ip := new1.changed self (by rfl)
    have dot2 : t2.dirents sb ip = [⟨(s.inode ip).inum, strncpy dot dirSiz⟩] := by
      unfold State.dirents
      rw [self.tree, self.steady.inum ip new.member, inum1, update_self]
      rfl
    have inum2 : (t2.inode dp).inum = (s.inode dp).inum :=
      (self.steady.inum dp dir.member).trans (parent.steady.inum dp dir.member)
    have nonzero : (s.inode ip).inum ≠ 0 :=
      Nat.pos_iff_ne_zero.mp (new.cached.inum ip new.member).2.1
    have other : lookup (t2.dirents sb ip) dotdot = none := by
      have unlike : namecmp dotdot (strncpy dot dirSiz) ≠ 0 := by decide
      rw [dot2]
      simp [lookup, hit, unlike]
    have second : freeIndex (t2.dirents sb ip) = 1 := by
      rw [dot2]
      simp [freeIndex, nonzero]
    simp only [Bool.true_eq_false, if_false, wp_bind, wp_get]
    rw [inum2]
    have same : (t2.inode ip).inum = (s.inode ip).inum :=
      (self.steady.inum ip new.member).trans inum1
    apply dirlink_wp (m := 0) valid (.inl scarce.slots) ledger2
      (subset2 (by rw [same]; exact hereIp)) (fun _ => .inl scarce.blocks)
      (fun _ => .inr (by rw [second]; decide)) new2 work2.kept (inside dir.member) owned
    · intro k e jp found
      rw [other] at found
      exact absurd found (by simp)
    · intro k e u found
      rw [other] at found
      exact absurd found (by simp)
    · intro t3 known3 _ up subset3 ledger3 _
      simp only [Bool.true_eq_false, if_false]
      refine continued t3 ((work1.andThen work2).andThen (new2.work work2.kept up)) ?_
        ⟨known3, subset2.trans subset3, ledger3⟩
      rw [up.tree, second, dot2, same, self.tree, parent.tree]
      simp only [update_self, update_of_ne (Ne.symm different),
        update_idem]
      rfl

/-- Who is held stays the same. -/
theorem inums_congr {more : Multiset Nat} (fewer : ∀ jp ∈ refs, jp ∈ more)
    (steady : Steady more s t) : t.inums refs = s.inums refs :=
  Multiset.map_congr rfl fun jp member => steady.inum jp (fewer jp member)

/-- How `create` gives a locked inode its name. -/
theorem createName_wp (valid : sb.Valid) (scarce : Scarce panics)
    (ledger : Ledger sb panics past known (2 + more) s)
    (here : sb.iblock (s.inode dp).inum ∈ known) (room : Roomy panics (s.dirents sb dp))
    (dir : Opened sb (ip ::ₘ dp ::ₘ refs) s dp) (kept : Kept sb (ip ::ₘ dp ::ₘ refs) s)
    (absent : lookup (s.dirents sb dp) name = none) (different : ip ≠ dp)
    (continued : ∀ t, Work sb (ip ::ₘ refs) (ip ::ₘ refs) s t →
      t.disk.node sb = settle (s.inums (ip ::ₘ refs)) (update (s.disk.node sb)
        (s.inode dp).inum (named (s.disk.node sb (s.inode dp).inum) (s.inode ip).inum name))
        (s.inode dp).inum →
      (∃ larger, known ⊆ larger ∧ Ledger sb panics past larger more t) → post (some ip) t [ip]) :
    Wp panics deadlocks (createName sb dp ip name) post s [ip, dp] := by
  have member : ip ∈ ip ::ₘ dp ::ₘ refs := Multiset.mem_cons_self ip _
  have fewer : ∀ jp ∈ ip ::ₘ refs, jp ∈ ip ::ₘ dp ::ₘ refs := by
    intro jp among
    rw [Multiset.cons_swap]
    exact Multiset.mem_cons_of_mem among
  simp only [createName, wp_bind, wp_get]
  apply dirlink_wp (m := 0) valid (.inl scarce.slots) ledger here
    (fun _ => .inl scarce.blocks) (fun _ => room) dir kept (dir.cached.inum ip member).2.2
  · intro jp locked
    cases mem_pair.mp locked with
    | inl same => exact same ▸ member
    | inr same => exact same ▸ dir.member
  · intro k e jp found
    rw [absent] at found
    exact absurd found (by simp)
  · intro k e u found
    rw [absent] at found
    exact absurd found (by simp)
  · intro t larger _ entered subset later _
    have work : Work sb (ip ::ₘ dp ::ₘ refs) (dp ::ₘ ip ::ₘ refs) s t := by
      rw [Multiset.cons_swap dp]
      exact dir.work kept entered
    have erased : [ip, dp].erase dp = [ip] := by simp [different]
    simp only [Bool.true_eq_false, if_false, wp_bind]
    have dpInum : (t.inode dp).inum = (s.inode dp).inum := entered.steady.inum dp dir.member
    apply iunlockput_wp valid work.cached
      (fun _ => ⟨later, subset (by rw [dpInum]; exact here)⟩) (by simp)
      (by simp [erased, Ne.symm different])
    intro u put spent
    rw [erased]
    refine continued u ((work.mono fewer).andThen (put.work work.cached work.kept)) ?_
      ⟨larger, subset, spent later⟩
    rw [put.tree work.cached work.kept, inums_congr fewer entered.steady, entered.tree,
      entered.steady.inum dp dir.member]
    rfl

/-- A held inode may still be written. -/
def Paid (sb : Superblock) (panics : Panic → Prop) (past : List (List Nat)) (more ip : Nat)
    (t : State) : Prop :=
  ∃ known, sb.iblock (t.inode ip).inum ∈ known ∧ Ledger sb panics past known more t

/-- `create` has allocated the inode `i`, which it holds as `ip` next to the directory `dp`. -/
structure Allocated (sb : Superblock) (refs : Multiset Nat) (dp ip i : Nat) (s t : State) : Prop
    extends Work sb (dp ::ₘ refs) (ip ::ₘ dp ::ₘ refs) s t where
  free : (s.disk.node sb i).kind = .free
  inum : (t.inode ip).inum = i
  valid : (t.inode ip).valid = true

/-- `create` has made a node that has a name in the directory `dp`. -/
structure Named (sb : Superblock) (refs : Multiset Nat) (dp : Nat) (name : List UInt8)
    (type : FileType) (ip : Nat) (s t : State) : Prop extends Work sb refs (ip ::ₘ refs) s t where
  valid : (t.inode ip).valid = true
  free : (s.disk.node sb (t.inode ip).inum).kind = .free
  tree : t.disk.node sb = settle (t.inums (ip ::ₘ refs)) (createTree (s.disk.node sb)
    (s.inode dp).inum (t.inode ip).inum name type) (s.inode dp).inum

namespace Allocated

variable {i : Nat} {u : State} (new : Allocated sb refs dp ip i s t)
  (dir : Opened sb (dp ::ₘ refs) s dp)

include new

/-- Work that leaves both inodes in place. -/
theorem andThen (work : Work sb (ip ::ₘ dp ::ₘ refs) (ip ::ₘ dp ::ₘ refs) t u) :
    Allocated sb refs dp ip i s u where
  toWork := new.toWork.andThen work.of_cons
  free := new.free
  inum := (work.steady.inum ip (Multiset.mem_cons_self ip _)).trans new.inum
  valid := work.steady.valid ip (Multiset.mem_cons_self ip _) new.valid

include dir

/-- The inode of the directory was not free. -/
theorem apart : (s.inode dp).inum ≠ i := by
  intro same
  have kind := dir.kind
  rw [same, new.free] at kind
  exact absurd kind (by decide)

/-- A new inode is not its parent. -/
theorem different : ip ≠ dp := by
  rintro rfl
  exact new.apart dir ((new.steady.inum ip dir.member).symm.trans new.inum)

/-- The directory is still open. -/
theorem opened (kind : (t.disk.node sb (s.inode dp).inum).kind = .dir) :
    Opened sb (ip ::ₘ dp ::ₘ refs) t dp where
  cached := new.cached
  member := Multiset.mem_cons_of_mem dir.member
  valid := new.steady.valid dp dir.member dir.valid
  kind := by rw [new.steady.inum dp dir.member, kind]

end Allocated

section New

variable {i : Nat} (valid : sb.Valid) (scarce : Scarce panics)
  (room : Roomy panics (s.dirents sb dp)) (dir : Opened sb (dp ::ₘ refs) s dp)
  (absent : lookup (s.dirents sb dp) name = none)
  (continued : ∀ ip t, Named sb refs dp name type ip s t → Paid sb panics past more ip t →
    post (some ip) t [ip])

include valid scarce room dir absent continued

/-- `create` once the new node is complete. -/
theorem createNamed_wp (new : Allocated sb refs dp ip i s t)
    (ledger : Ledger sb panics past known (2 + more) t) (hereIp : sb.iblock i ∈ known)
    (hereDp : sb.iblock (s.inode dp).inum ∈ known)
    (tree : t.disk.node sb = update (update (s.disk.node sb) i (newNode type (s.inode dp).inum i))
      (s.inode dp).inum (if type = .dir then linked (s.disk.node sb (s.inode dp).inum) 1
        else s.disk.node sb (s.inode dp).inum)) :
    Wp panics deadlocks (createName sb dp ip name) post t [ip, dp] := by
  have dpInum : (t.inode dp).inum = (s.inode dp).inum := new.steady.inum dp dir.member
  have parent : t.disk.node sb (s.inode dp).inum =
      if type = .dir then linked (s.disk.node sb (s.inode dp).inum) 1
      else s.disk.node sb (s.inode dp).inum := by
    rw [tree, update_self]
  have ents : t.dirents sb dp = s.dirents sb dp := by
    unfold State.dirents
    rw [dpInum, parent]
    split <;> rfl
  have still : Opened sb (ip ::ₘ dp ::ₘ refs) t dp :=
    new.opened dir (by rw [parent]; split <;> exact dir.kind)
  apply createName_wp valid scarce ledger (dpInum ▸ hereDp) (ents ▸ room) still new.kept
    (ents ▸ absent) (new.different dir)
  rintro u work treeU ⟨larger, subset, later⟩
  have inum : (u.inode ip).inum = i :=
    (work.steady.inum ip (Multiset.mem_cons_self ip refs)).trans new.inum
  refine continued ip u ⟨new.toWork.of_cons.andThen work.of_cons,
    work.steady.valid ip (Multiset.mem_cons_self ip refs) new.valid, inum ▸ new.free, ?_⟩
    ⟨larger, inum ▸ subset hereIp, later⟩
  rw [treeU, inums_congr (fun _ among => among) work.steady, dpInum, parent, new.inum, inum, tree,
    update_idem]
  rfl

/-- `create` once the new inode has its first link. -/
theorem createEntries_wp (new : Allocated sb refs dp ip i s t)
    (ledger : Ledger sb panics past known (6 + more) t) (hereIp : sb.iblock i ∈ known)
    (hereDp : sb.iblock (s.inode dp).inum ∈ known)
    (tree : t.disk.node sb = update (s.disk.node sb) i ⟨type, 1, []⟩) :
    Wp panics deadlocks (do
      if type = .dir then createDots sb dp ip
      createName sb dp ip name) post t [ip, dp] := by
  have apart := new.apart dir
  have dpInum : (t.inode dp).inum = (s.inode dp).inum := new.steady.inum dp dir.member
  have parent : t.disk.node sb (s.inode dp).inum = s.disk.node sb (s.inode dp).inum := by
    rw [tree, update_of_ne apart]
  have child : t.disk.node sb (t.inode ip).inum = ⟨type, 1, []⟩ := by
    rw [tree, new.inum, update_self]
  simp only [wp_bind, wp_ite]
  split
  · rename_i isDir
    have dots : Ledger sb panics past known (4 + (2 + more)) t := by
      rw [← add_assoc]
      exact ledger
    have still : Opened sb (ip ::ₘ dp ::ₘ refs) t dp := new.opened dir (by rw [parent, dir.kind])
    have made : Opened sb (ip ::ₘ dp ::ₘ refs) t ip :=
      ⟨new.cached, Multiset.mem_cons_self ip _, new.valid, by rw [child, isDir]⟩
    apply createDots_wp valid scarce dots (dpInum ▸ hereDp) (new.inum ▸ hereIp) still made new.kept
    · grind
    · rw [dpInum, new.inum]
      exact apart
    · rw [State.dirents, child]
    · rintro u work treeU ⟨larger, subset, later⟩
      apply createNamed_wp valid scarce room dir absent continued (new.andThen work) later
        (subset hereIp) (subset hereDp)
      rw [treeU, child, dpInum, new.inum, parent, tree, if_pos isDir, newNode, if_pos isDir]
      grind
  · rename_i notDir
    apply createNamed_wp valid scarce room dir absent continued new
      (ledger.mono (Finset.Subset.refl _) (by omega)) hereIp hereDp
    rw [tree, if_neg notDir, newNode, if_neg notDir]
    grind

/-- `create` of a name that the directory does not have. -/
theorem createNew_wp (ledger : Ledger sb panics past known (8 + more) s)
    (kept : Kept sb (dp ::ₘ refs) s) (used : type ≠ .free) :
    Wp panics deadlocks (createNew sb dp name type major minor) post s [dp] := by
  simp only [createNew, wp_bind, wp_get, wp_liftM, wp_modify]
  rw [(dir.cached.inum dp dir.member).1]
  have ledger0 :
      Ledger sb panics past (insert (sb.iblock (s.inode dp).inum) known) (6 + more + 1) s :=
    Ledger.add (by rw [show 6 + more + 1 + 1 = 8 + more by omega]; exact ledger) _
  apply ialloc_ok valid ledger0 (.inl scarce.slots) (.inl scarce.inodes) dir.cached used
  intro ip t1 free tree1 cached1 steady1 _ ledger1
  have member : ip ∈ ip ::ₘ dp ::ₘ refs := Multiset.mem_cons_self ip _
  apply ilock_wp cached1 member
  · intro unused
    have kind : (t1.disk.node sb (t1.inode ip).inum).kind = .free := dinode_free unused
    rw [tree1, update_self] at kind
    exact absurd kind used
  · intro locked
    obtain rfl := List.mem_singleton.mp locked
    have kind := dir.kind
    rw [← steady1.inum ip dir.member, free] at kind
    exact absurd kind (by decide)
  · intro _ t2 filled valid2
    have inum2 : (t2.inode ip).inum = (t1.inode ip).inum := filled.inum member
    refine iupdate_ok (filled.ledger ledger1) (by rw [inum2]; simp) fun lh later => ?_
    have begun := filled.cached.assign { (t2.inode ip).copy with
      major := short major, minor := short minor, nlink := 1 } lh member valid2
      ⟨rfl, rfl, rfl, rfl⟩ rfl
    have tree3 := begun.tree
    rw [inum2, filled.disk, tree1, update_self, update_idem] at tree3
    have steady3 := steady1.trans (filled.steady.trans begun.steady).of_cons
    have new : Allocated sb refs dp ip (t1.inode ip).inum s _ :=
      ⟨⟨begun.cached, steady3, kept.made steady3 tree3 Int.one_ne_zero⟩, free,
        (begun.steady.inum ip member).trans inum2, begun.steady.valid ip member valid2⟩
    have rest : Wp panics deadlocks _ post _ [ip, dp] := createEntries_wp valid scarce room dir
      absent continued new (later.congr rfl rfl rfl) (by simp) (by simp) tree3
    simpa only [wp_bind, wp_ite, wp_pure] using rest

end New

/-- A node was made at a path. -/
structure Created (sb : Superblock) (refs : Multiset Nat) (cwd : Nat) (path : List UInt8)
    (type : FileType) (ip : Nat) (s t : State) : Prop extends Work sb refs (ip ::ₘ refs) s t where
  valid : (t.inode ip).valid = true
  tree : ∃ d name, resolve (s.disk.node sb) true cwd path = some (d, name) ∧
    (s.disk.node sb d).kind = .dir ∧ lookup (s.disk.node sb d).ents name = none ∧
    (s.disk.node sb (t.inode ip).inum).kind = .free ∧
    t.disk.node sb = settle (t.inums (ip ::ₘ refs))
      (createTree (s.disk.node sb) d (t.inode ip).inum name type) d

/-- `create` finds the name. -/
theorem createFound_wp (valid : sb.Valid) (cached : Cached sb (ip ::ₘ dp ::ₘ refs) s)
    (kept : Kept sb refs s)
    (typed : panics .noType ∨ (s.disk.node sb (s.inode ip).inum).kind ≠ .free)
    (failed : ∀ t, Quiet sb refs refs s t → post none t [])
    (existing : ∀ t, Quiet sb refs (ip ::ₘ refs) s t → (t.inode ip).valid = true →
      (t.disk.node sb (t.inode ip).inum).kind = .file → post (some ip) t [ip]) :
    Wp panics deadlocks (createFound sb dp ip type) post s [dp] := by
  have member := Multiset.mem_cons_self ip refs
  have swapped : Cached sb (dp ::ₘ ip ::ₘ refs) s := by
    rw [Multiset.cons_swap]
    exact cached
  simp only [createFound, wp_bind]
  apply iunlockput_quiet valid swapped kept.cons (by simp)
  intro t given
  rw [← given.disk, ← given.inum member] at typed
  apply ilock_typed given.cached member typed
  intro u locked filled
  have toU : Quiet sb refs (ip ::ₘ refs) s u := given.of_cons.andThen locked.of_cons
  simp only [wp_get, wp_ite, wp_bind, wp_pure]
  split
  · rename_i isFile
    apply existing u toU filled
    rw [← locked.cached.copy_type member filled]
    exact isFile.2
  · apply iunlockput_quiet valid locked.cached (kept.quiet toU) (by simp)
    intro v dropped
    exact failed v (toU.andThen dropped)

/-- `create` by a process that runs alone. -/
theorem create_wp {p : Nat} {path : List UInt8} (valid : sb.Valid) (scarce : Scarce panics)
    (ledger : Ledger sb panics past known (8 + more) s)
    (room : RoomFor panics (s.disk.node sb) (s.cwdOf p) path)
    (cached : Cached sb refs s) (kept : Kept sb refs s) (cwd : (s.proc p).cwd ∈ refs)
    (typed : Typed sb panics (s.cwdOf p) s) (used : type ≠ .free)
    (failed : ∀ t, Taken (s.disk.node sb) (s.cwdOf p) path →
      Quiet sb refs refs s t → post none t [])
    (existing : ∀ ip t, Taken (s.disk.node sb) (s.cwdOf p) path →
      Quiet sb refs (ip ::ₘ refs) s t → (t.inode ip).valid = true →
      (t.disk.node sb (t.inode ip).inum).kind = .file → post (some ip) t [ip])
    (created : ∀ ip t, Created sb refs (s.cwdOf p) path type ip s t →
      Paid sb panics past more ip t → post (some ip) t [ip]) :
    Wp panics deadlocks (create sb p path type major minor) post s [] := by
  simp only [create, wp_bind]
  apply nameiparent_wp valid (.inl scarce.slots) cached kept cwd typed
  · intro t missing quiet
    refine failed t (fun d name resolved => ?_) quiet
    exact absurd (resolved.symm.trans missing) (Option.some_ne_none _)
  · intro dp name d t1 resolved locks
    simp only [wp_bind]
    apply locks
    intro t2 toT2 dir2 inum2
    have ents2 : t2.dirents sb dp = (s.disk.node sb d).ents := by
      rw [State.dirents, toT2.disk, inum2]
    have isDir : (s.disk.node sb d).kind = .dir := by
      rw [← inum2, ← toT2.disk]
      exact dir2.kind
    apply dirlookup_wp (.inl scarce.slots) dir2
    · intro absent
      have room2 : Roomy panics (t2.dirents sb dp) := by
        rw [ents2] at absent ⊢
        exact room _ _ resolved absent
      apply createNew_wp valid scarce room2 dir2 absent ?_ (toT2.ledger ledger)
        (kept.quiet toT2).cons used
      intro ip t3 named paid
      have free := named.free
      have tree3 := named.tree
      rw [toT2.disk] at free tree3
      rw [inum2] at tree3
      exact created ip t3 ⟨⟨named.cached, toT2.steady.trans named.steady, named.kept⟩, named.valid,
        d, name, resolved, isDir, ents2 ▸ absent, free, tree3⟩ paid
    · intro k e ip t3 hit entry nonzero got inum
      have toT3 : Quiet sb refs (ip ::ₘ dp ::ₘ refs) s t3 := toT2.andThen got.of_cons
      rw [ents2] at hit entry
      have taken : Taken (s.disk.node sb) (s.cwdOf p) path := by
        intro d' name' again
        obtain ⟨rfl, rfl⟩ := Prod.mk.inj (Option.some.inj (again.symm.trans resolved))
        rw [hit]
        exact Option.some_ne_none k
      apply createFound_wp valid got.cached (kept.quiet toT3)
      · refine typed.imp_right fun whole => ?_
        rw [inum, toT3.disk]
        exact whole.1 d isDir e (mem_of_getElem? entry) nonzero
      · exact fun t4 quiet => failed t4 taken (toT3.andThen quiet)
      · exact fun t4 quiet => existing ip t4 taken (toT3.andThen quiet)

end Create

end Xv6.Fs
