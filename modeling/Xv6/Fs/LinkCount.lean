import Mathlib.Algebra.Order.BigOperators.Group.Finset
import Mathlib.Order.Interval.Finset.Nat
import Xv6.Fs.Fsck

/-!
# Link counts

The link count of an inode is the number of directory entries for it that are not called `.`, in
every state that calls lead to while no removed directory is in use. The law of the name space
counts names and subdirectories; here the entries themselves are counted, which needs that a
directory is named in its parent and that no other entry is called `.`. The count never comes near
the largest `short`, because the entries have to fit on the disk.
-/

namespace Xv6.Fs

open Function Lib Multiset Finset List

/-- The entries of a node for an inode, without those called `.`. -/
def Node.entriesFor (node : Node) (i : Nat) : Nat :=
  if node.kind = .dir then node.ents.countP fun e => e.inum = i ∧ namecmp dot e.name ≠ 0 else 0

/-- The entries of all directories for an inode, without those called `.`. -/
def entriesFor (n : Nat) (tree : Nat → Node) (i : Nat) : Nat :=
  ∑ j ∈ Finset.range n, (tree j).entriesFor i

/-- A directory without links. -/
def Node.Removed (node : Node) : Prop := node.kind = .dir ∧ node.nlink = 0

instance (node : Node) : Decidable node.Removed := inferInstanceAs (Decidable (_ ∧ _))

/-- An open file refers to the inode. -/
def State.IsOpen (s : State) (i : Nat) : Prop :=
  ∃ f < nFile, 0 < (s.file f).ref ∧ (s.file f).kind = .inode ∧ (s.inode (s.file f).ip).inum = i

/-- No removed directory is the current directory of a process or open. -/
def State.NoRemoved (sb : Superblock) (s : State) : Prop :=
  (∀ p < nProc, (s.proc p).live = true → ¬ (s.disk.node sb (s.cwdOf p)).Removed) ∧
    ∀ f < nFile, 0 < (s.file f).ref → (s.file f).kind = .inode →
      ¬ (s.disk.node sb (s.inode (s.file f).ip).inum).Removed

instance (sb : Superblock) (s : State) : Decidable (s.NoRemoved sb) :=
  inferInstanceAs (Decidable (_ ∧ _))

/-! ## Comparing names -/

section Names

variable {p q name t : List UInt8} {n : Nat}

theorem strncmp_self (p : List UInt8) (n : Nat) : strncmp p p n = 0 := by
  induction n generalizing p with
  | zero => rfl
  | succ n ih =>
    rw [strncmp]
    split
    · exact ih p.tail
    · exact Int.sub_self _

theorem strncmp_symm (same : strncmp p q n = 0) : strncmp q p n = 0 :=
  strncmp_trans (strncmp_self q n) same

/-- What is behind the terminator does not matter. -/
theorem strncmp_ended {u : List UInt8} (ended : t.headD 0 = 0) (also : u.headD 0 = 0)
    (p : List UInt8) (n : Nat) : strncmp p t n = strncmp p u n := by
  cases n with
  | zero => rfl
  | succ n =>
    rw [strncmp, strncmp, ended, also, if_neg, if_neg]
    · exact fun both => both.1 both.2
    · exact fun both => both.1 both.2

theorem strncpy_cons {c : UInt8} (nonzero : c ≠ 0) (t : List UInt8) (n : Nat) :
    strncpy (c :: t) (n + 1) = c :: strncpy t n := by
  simp [strncpy, nonzero]

theorem strncpy_ended (ended : t.headD 0 = 0) (n : Nat) : (strncpy t n).headD 0 = 0 := by
  cases n with
  | zero => rfl
  | succ n =>
    cases t with
    | nil => rfl
    | cons c t =>
      obtain rfl : c = 0 := ended
      rfl

/-- A copied name compares as the name. -/
theorem strncmp_strncpy (p t : List UInt8) (n : Nat) :
    strncmp p (strncpy t n) n = strncmp p t n := by
  induction n generalizing p t with
  | zero => rfl
  | succ n ih =>
    by_cases ended : t.headD 0 = 0
    · exact strncmp_ended (strncpy_ended ended _) ended p _
    · cases t with
      | nil => exact absurd rfl ended
      | cons c t =>
        have nonzero : c ≠ 0 := ended
        rw [strncpy_cons nonzero, strncmp, strncmp]
        show (if p.headD 0 ≠ 0 ∧ p.headD 0 = c then strncmp p.tail (strncpy t n) n else _) =
          if p.headD 0 ≠ 0 ∧ p.headD 0 = c then strncmp p.tail t n else _
        rw [ih]
        rfl

/-- A name that no entry has is not the name of an entry. -/
theorem not_named_of_absent {ents : List Dirent} {e : Dirent} {special : List UInt8}
    (member : e ∈ ents) (nonzero : e.inum ≠ 0) (called : namecmp special e.name = 0)
    (absent : lookup ents name = none) : namecmp special (strncpy name dirSiz) ≠ 0 := by
  intro isSpecial
  have same : namecmp name e.name = 0 := by
    refine strncmp_trans (strncmp_symm ?_) (strncmp_symm called)
    rw [← strncmp_strncpy]
    exact isSpecial
  have isHit := findIdx?_eq_none_iff.mp absent _ member
  rw [hit, same] at isHit
  simp [nonzero] at isHit

/-- A directory that has no entry for a name is not asked for `.`. -/
theorem Node.Dotted.not_dot {node : Node} {i : Nat} (dotted : node.Dotted i) (nonzero : i ≠ 0)
    (absent : Fs.lookup node.ents name = none) : namecmp dot (strncpy name dirSiz) ≠ 0 := by
  obtain ⟨first, self, called⟩ := dotted.self
  exact not_named_of_absent (mem_of_getElem? self) nonzero called absent

end Names

/-! ## Parents and names -/

/-- No entry behind the first two is called `.`. -/
def Node.Plain (node : Node) : Prop :=
  ∀ k e, 2 ≤ k → node.ents[k]? = some e → e.inum ≠ 0 → namecmp dot e.name ≠ 0

/-- A directory is named in its parent, the root is its own, and no other entry is called `.`. -/
structure Rooted (tree : Nat → Node) : Prop where
  root : (tree rootIno).parent = rootIno
  above : ∀ d, ∀ j ∈ (tree d).targets, (tree j).kind = .dir → (tree j).parent = d
  plain : ∀ d, (tree d).kind = .dir → (tree d).Plain

section Parents

variable {n d i k : Nat} {tree later : Nat → Node} {name : List UInt8} (rooted : Rooted tree)
  {e : Dirent}

include rooted

variable {node after : Node}

omit rooted in
theorem Node.Plain.setEnt (plain : node.Plain) (inside : k ≤ node.ents.length)
    (called : e.inum ≠ 0 → namecmp dot e.name ≠ 0) (ents : after.ents = Fs.setEnt node.ents k e) :
    after.Plain := by
  grind [setEnt_getElem?, Plain]

section

variable (linked : Linked n tree)

include linked

theorem Rooted.gains (gains : Gains tree later d i)
    (plain : ∀ d, (later d).kind = .dir → (later d).Plain) : Rooted later := by
  have old : ∀ j, (tree j).kind = .dir → j ≠ i := by
    rintro j kind rfl
    exact (gains.same (by rw [kind]; decide)).2 kind
  have other := old rootIno linked.root
  refine ⟨?_, ?_, plain⟩
  · rw [gains.parents rootIno other ((gains.kind rootIno other).trans linked.root)]
    exact rooted.root
  · intro c j member kind
    by_cases new : j = i
    · subst new
      rw [gains.above kind]
      by_contra apart
      rw [gains.elsewhere c (Ne.symm apart)] at member
      have same := gains.same (linked.named j (linked.mem_names member))
      exact same.2 (same.1.symm.trans kind)
    grind [cases Rooted, cases Gains]

theorem Rooted.loses (loses : Loses tree later d i)
    (plain : ∀ d, (later d).kind = .dir → (later d).Plain) : Rooted later := by
  constructor <;> grind [cases Rooted, cases Linked, cases Loses]

theorem Rooted.settle (used : Multiset Nat) (i : Nat) : Rooted (settle used tree i) := by
  unfold Fs.settle
  split
  · rename_i unlinked
    have node : ∀ j ≠ i, update tree i .free j = tree j :=
      fun j other => update_of_ne other ..
    have dirs : ∀ j, (update tree i .free j).kind = .dir → j ≠ i := by
      rintro j kind rfl
      rw [update_self] at kind
      exact absurd kind (by decide)
    refine ⟨?_, ?_, ?_⟩
    · grind [links, cases Rooted, cases Linked]
    · intro c j member kind
      have other := dirs j kind
      rw [node j other] at kind ⊢
      by_cases here : c = i
      · rw [here, update_self] at member
        exact absurd member (notMem_zero j)
      · rw [node c here] at member
        exact rooted.above c j member kind
    · intro c kind
      have other := dirs c kind
      rw [node c other] at kind ⊢
      exact rooted.plain c kind
  · exact rooted

/-- The names of a new entry. -/
theorem Rooted.plain_named (isDir : (tree d).kind = .dir)
    (absent : lookup (tree d).ents name = none) (ents : after.ents = (named (tree d) i name).ents) :
    after.Plain := by
  have called := (linked.dotted d isDir).not_dot (linked.nonzero (by rw [isDir]; decide)) absent
  exact (rooted.plain d isDir).setEnt (freeIndex_le _) (fun _ => called) ents

end

omit rooted in
theorem newNode_plain (type : FileType) (d i : Nat) : (newNode type d i).Plain := by
  grind [newNode, Node.Plain]

omit rooted in
theorem inum_of_empty {ents : List Dirent} (empty : isEmptyDir ents = true) (two : 2 ≤ k)
    (found : ents[k]? = some e) : e.inum = 0 := by
  obtain ⟨l, rfl⟩ := Nat.exists_eq_add_of_le two
  rw [← getElem?_drop] at found
  have zero := List.all_eq_true.mp empty e (mem_of_getElem? found)
  rwa [beq_iff_eq] at zero

omit rooted in
theorem plain_of_empty (empty : isEmptyDir node.ents = true) : node.Plain :=
  fun _ _ two found nonzero => absurd (inum_of_empty empty two found) nonzero

theorem Rooted.plain_create {type : FileType} (linked : Linked n tree)
    (isDir : (tree d).kind = .dir) (absent : lookup (tree d).ents name = none) :
    ∀ c, (createTree tree d i name type c).kind = .dir →
      (createTree tree d i name type c).Plain := by
  intro c
  unfold createTree
  rw [update_apply]
  split
  · intro _
    apply rooted.plain_named linked isDir absent (i := i)
    split <;> rfl
  · rw [update_apply]
    split
    · exact fun _ => newNode_plain type d i
    · exact rooted.plain c

theorem Rooted.plain_link (linked : Linked n tree) (isDir : (tree d).kind = .dir)
    (absent : lookup (tree d).ents name = none) :
    ∀ c, (linkTree tree d i name c).kind = .dir → (linkTree tree d i name c).Plain := by
  intro c
  unfold linkTree
  rw [update_apply]
  split
  · exact fun _ => rooted.plain_named linked isDir absent rfl
  · rw [update_apply]
    split
    · exact rooted.plain i
    · exact rooted.plain c

theorem Rooted.plain_unlink (isDir : (tree d).kind = .dir) (inside : k ≤ (tree d).ents.length) :
    ∀ c, (unlinkTree tree d k i c).kind = .dir → (unlinkTree tree d k i c).Plain := by
  have here : ∀ after : Node, after.ents = (cleared (tree d) k).ents → after.Plain :=
    fun after ents => (rooted.plain d isDir).setEnt inside (fun nonzero => absurd rfl nonzero) ents
  intro c
  unfold unlinkTree
  rw [update_apply]
  split
  · exact rooted.plain i
  · rw [update_apply]
    split
    · intro _
      apply here
      split <;> rfl
    · exact rooted.plain c

end Parents

/-! ## Counting entries -/

section Count

variable {n i j : Nat} {tree : Nat → Node}

theorem count_refer (ents : List Dirent) (nonzero : i ≠ 0) :
    (ents.map fun e => refer e.inum).sum.count i = ents.countP fun e => e.inum = i := by
  induction ents with
  | nil => rfl
  | cons e rest ih =>
    rw [List.map_cons, List.sum_cons, count_add, ih, List.countP_cons, refer, add_comm]
    grind [Multiset.count_singleton_self, Multiset.count_eq_zero, Multiset.mem_singleton]

/-- The entries of a directory for an inode: `..` and the names. -/
theorem entriesFor_dir {node : Node} (isDir : node.kind = .dir) (dotted : node.Dotted j)
    (plain : node.Plain) (nonzero : i ≠ 0) :
    node.entriesFor i = (if node.parent = i then 1 else 0) + node.targets.count i := by
  obtain ⟨first, self, isDot⟩ := dotted.self
  obtain ⟨second, above, isDotdot⟩ := dotted.parent
  have notDot : namecmp dot second ≠ 0 := fun same =>
    absurd (strncmp_trans same isDotdot) (by decide)
  have split : node.ents = ⟨j, first⟩ :: ⟨node.parent, second⟩ :: node.ents.drop 2 := by
    cases ents : node.ents with
    | nil =>
      rw [ents] at self
      exact absurd self (by simp)
    | cons a tail =>
      cases tail with
      | nil =>
        rw [ents] at above
        exact absurd above (by simp)
      | cons b tail =>
        rw [ents] at self above
        rw [← Option.some.inj self, ← Option.some.inj above]
        rfl
  grind [List.countP_congr, mem_iff_getElem?, Node.entriesFor, Node.targets, entInums,
    count_refer, Node.Plain]

/-- The directories whose parent an inode is. -/
def children (n : Nat) (tree : Nat → Node) (i : Nat) : Finset Nat :=
  (Finset.range n).filter fun j => (tree j).kind = .dir ∧ (tree j).parent = i

theorem entriesFor_eq (linked : Linked n tree) (rooted : Rooted tree) (nonzero : i ≠ 0) :
    entriesFor n tree i = (names n tree).count i + (children n tree i).card := by
  unfold entriesFor names references children
  rw [count_tally, card_filter, ← sum_add_distrib]
  apply sum_congr rfl
  intro j _
  by_cases isDir : (tree j).kind = .dir
  · rw [entriesFor_dir isDir (linked.dotted j isDir) (rooted.plain j isDir) nonzero, add_comm]
    simp only [isDir, true_and, id]
  · rw [Node.entriesFor, if_neg isDir, if_neg (fun both => isDir both.1), id, targets_of_ne isDir,
      count_zero]

/-- When every directory has links, the children of a directory are its subdirectories. -/
theorem card_children (linked : Linked n tree) (rooted : Rooted tree)
    (has : ∀ j, (tree j).kind = .dir → (tree j).nlink ≠ 0) :
    (children n tree i).card = subdirs tree i + if i = rootIno then 1 else 0 := by
  have rootless : rootIno ∉ names n tree := by
    have once := linked.once rootIno linked.root
    rw [if_pos rfl] at once
    rw [← Multiset.count_eq_zero]
    omega
  -- a directory other than the root is a child where it is named
  have child : ∀ j, (tree j).kind = .dir → j ≠ rootIno →
      ((tree j).parent = i ↔ j ∈ (tree i).targets) := by
    intro j kind notRoot
    refine ⟨?_, fun member => rooted.above i j member kind⟩
    rintro rfl
    have named := (linked.root_or_named kind (has j kind)).resolve_left notRoot
    obtain ⟨d, _, member⟩ := mem_references.mp named
    rw [rooted.above d j member kind]
    exact member
  have nodup : ((tree i).targets.filter fun j => (tree j).kind = .dir).Nodup := by
    rw [Multiset.nodup_iff_count_le_one]
    intro j
    rw [Multiset.count_filter]
    split
    · rename_i kind
      have once := linked.once j kind
      have part : (tree i).targets.count j ≤ (names n tree).count j := by
        by_cases isDir : (tree i).kind = .dir
        · obtain ⟨rest, all, _⟩ := tally_split (linked.below isDir) id fun d => (tree d).targets
          unfold names references
          rw [all, count_add]
          exact Nat.le_add_right ..
        · rw [targets_of_ne isDir, count_zero]
          exact Nat.zero_le _
      omega
    · exact Nat.zero_le 1
  have split : children n tree i =
      ((tree i).targets.filter fun j => (tree j).kind = .dir).toFinset ∪
        if i = rootIno then {rootIno} else ∅ := by
    ext j
    rw [children, Finset.mem_filter, Finset.mem_range, Finset.mem_union, Multiset.mem_toFinset,
      Multiset.mem_filter]
    by_cases isRoot : j = rootIno
    · grind [cases Linked, cases Rooted]
    · grind [cases Linked]
  rw [split, card_union_of_disjoint, Multiset.toFinset_card_of_nodup nodup, subdirs,
    countP_eq_card_filter]
  · split <;> rfl
  · rw [Finset.disjoint_right]
    intro j member
    split at member
    · rw [Finset.mem_singleton.mp member, Multiset.mem_toFinset, Multiset.mem_filter]
      exact fun both => rootless (linked.mem_names both.1)
    · exact absurd member (notMem_empty j)

/-- The link counts are the numbers of entries when every directory has links. -/
theorem nlink_eq_entriesFor (linked : Linked n tree) (rooted : Rooted tree)
    (has : ∀ j, (tree j).kind = .dir → (tree j).nlink ≠ 0) (used : (tree i).kind ≠ .free) :
    (tree i).nlink = entriesFor n tree i := by
  rw [linked.count i used, links, entriesFor_eq linked rooted (linked.nonzero used),
    card_children linked rooted has, add_assoc]

end Count

/-! ## The space for entries -/

/-- The number of entries of a directory. -/
def Node.length (node : Node) : Nat := if node.kind = .dir then node.ents.length else 0

section Space

variable {sb : Superblock} {d : Disk} {i : Nat}

/-- Where an entry is on the disk: its block and its place in the block. -/
def Disk.spot (d : Disk) (entry : Σ _ : Nat, Nat) : Nat × Nat :=
  (d.addr entry.1 (place (entry.2 / (bSize / direntSize))), entry.2 % (bSize / direntSize))

/-- The block of an entry. -/
theorem Disk.Sound.entry_block (sound : d.Sound sb) {j m : Nat}
    (within : m < (d.node sb j).length) :
    d.Alloc sb j ∧ place (m / (bSize / direntSize)) < nPlaces ∧
      d.addr j (place (m / (bSize / direntSize))) ≠ 0 := by
  unfold Node.length at within
  split at within
  · rename_i isDir
    have isAlloc : d.Alloc sb j := Disk.alloc_of_node (by rw [isDir]; decide)
    have type : (d.dinode j).type = .dir := by
      rw [Disk.node, if_pos isAlloc] at isDir
      exact isDir
    rw [Disk.node_dir isAlloc type, Disk.ents_length] at within
    obtain ⟨most, mapped⟩ := sound.sized j isAlloc
    have offset : m * direntSize < (d.dinode j).size := by
      unfold direntSize dirSiz at within ⊢
      omega
    have same : m * direntSize / bSize = m / (bSize / direntSize) := by
      unfold direntSize dirSiz bSize
      omega
    have block := mapped _ offset
    rw [same] at block
    refine ⟨isAlloc, ?_, block⟩
    rw [← same]
    exact place_div_lt (lt_of_lt_of_le offset most)
  · exact absurd within (Nat.not_lt_zero m)

/-- All entries have different places on the disk. -/
theorem Disk.Sound.length_le (sound : d.Sound sb) :
    ∑ j ∈ Finset.range sb.ninodes, (d.node sb j).length ≤ sb.nblocks * (bSize / direntSize) := by
  have all : ((Finset.range sb.ninodes).sigma fun j => Finset.range (d.node sb j).length).card =
      ∑ j ∈ Finset.range sb.ninodes, (d.node sb j).length := by
    rw [Finset.card_sigma]
    exact sum_congr rfl fun j _ => Finset.card_range _
  have room : (Finset.Ico (sb.size - sb.nblocks) sb.size ×ˢ
      Finset.range (bSize / direntSize)).card ≤ sb.nblocks * (bSize / direntSize) := by
    rw [Finset.card_product, Nat.card_Ico, Finset.card_range]
    exact Nat.mul_le_mul_right _ (by omega)
  rw [← all]
  refine le_trans (card_le_card_of_injOn d.spot ?_ ?_) room
  · rintro ⟨j, m⟩ member
    obtain ⟨_, within⟩ := Finset.mem_sigma.mp member
    obtain ⟨isAlloc, inside, block⟩ := sound.entry_block (Finset.mem_range.mp within)
    obtain ⟨data, _⟩ := sound.owned.data j _ isAlloc inside block
    refine Finset.mem_product.mpr ⟨Finset.mem_Ico.mpr data, Finset.mem_range.mpr ?_⟩
    exact Nat.mod_lt _ (by decide)
  · rintro ⟨j, m⟩ member ⟨k, l⟩ other same
    obtain ⟨_, within⟩ := Finset.mem_sigma.mp member
    obtain ⟨_, among⟩ := Finset.mem_sigma.mp other
    obtain ⟨isAlloc, inside, block⟩ := sound.entry_block (Finset.mem_range.mp within)
    obtain ⟨also, low, _⟩ := sound.entry_block (Finset.mem_range.mp among)
    obtain ⟨address, rest⟩ := Prod.mk.inj same
    obtain ⟨rfl, index⟩ := sound.owned.once j _ k _ isAlloc also inside low block address
    grind [place_inj, Nat.div_add_mod]

theorem Disk.Sound.entriesFor_le (sound : d.Sound sb) :
    entriesFor sb.ninodes (d.node sb) i ≤ sb.nblocks * (bSize / direntSize) := by
  refine le_trans (Finset.sum_le_sum fun j _ => ?_) sound.length_le
  unfold Node.entriesFor Node.length
  split
  · exact countP_le_length
  · exact Nat.le_refl 0

end Space

/-! ## Runs -/

/-- A walk to the parent of the last element ends at a directory. -/
theorem walk_dir {tree : Nat → Node} {fuel i d : Nat} {path name last : List UInt8}
    (found : walk tree true fuel i path name = some (d, last)) : (tree d).kind = .dir := by
  induction fuel generalizing i path name with
  | zero => exact absurd found (by simp [walk])
  | succ fuel ih =>
    grind [walk]

section Calls

variable {sb : Superblock} {s t : State} {cwd : Nat} {call : Call} {world : World}
  {tree later : Nat → Node} {good : Node → Prop}

theorem inParent_of (all : ∀ d, (tree d).kind = .dir → good (tree d)) (path : List UInt8) :
    InParent tree cwd path good := by
  unfold InParent
  split
  · rename_i d name resolved
    exact fun _ => all d (walk_dir resolved)
  · trivial

theorem atPath_of (all : ∀ i, good (tree i)) (path : List UInt8) : AtPath tree cwd path good := by
  unfold AtPath
  split
  · exact all _
  · trivial

/-- A call is proper when every directory has links and no count is at its limit. -/
theorem Call.proper_of (has : ∀ d, (tree d).kind = .dir → (tree d).nlink ≠ 0)
    (small : ∀ i, (tree i).nlink ≠ 32767) : call.Proper tree cwd := by
  cases call with
  | «open» path omode => exact fun _ => inParent_of has path
  | mkdir path =>
    grind [inParent_of, Proper]
  | mknod path major minor =>
    show InParent tree cwd path fun node => node.nlink ≠ 0
    exact inParent_of has path
  | link old new => exact ⟨inParent_of has new, atPath_of small old⟩
  | _ => trivial

/-- A proper call keeps the parents of directories. -/
theorem TreeOp.rooted (op : TreeOp sb cwd call world later)
    (linked : Linked sb.ninodes world.tree) (rooted : Rooted world.tree)
    (range : ∀ i, short (world.tree i).nlink = (world.tree i).nlink)
    (proper : call.Proper world.tree cwd) : Linked sb.ninodes later ∧ Rooted later := by
  refine op.keep Rooted.settle linked range proper rooted ?_ ?_
  · rintro d i name _ isDir _ absent gains _ (⟨type, rfl⟩ | rfl)
    · exact rooted.gains linked gains (rooted.plain_create linked isDir absent)
    · exact rooted.gains linked gains (rooted.plain_link linked isDir absent)
  · intro path name d k e _ _ isDir _ entry loses
    have inside := le_of_lt (List.getElem?_eq_some_iff.mp entry).1
    exact rooted.loses linked loses (rooted.plain_unlink isDir inside)

/-- A directory in use has links when no removed one is in use. -/
theorem State.NoRemoved.has (noRemoved : s.NoRemoved sb) (rest : AtRest sb s) :
    ∀ j, (s.disk.node sb j).kind = .dir → (s.disk.node sb j).nlink ≠ 0 := by
  intro j isDir zero
  obtain ⟨ip, member, inum, _⟩ := rest.kept j (by rw [isDir]; decide) zero
  have removed : (s.disk.node sb (s.inode ip).inum).Removed := inum ▸ ⟨isDir, zero⟩
  cases mem_add.mp member with
  | inl cwd =>
    obtain ⟨p, inside, own⟩ := mem_tally.mp cwd
    rw [Proc.cwds] at own
    split at own
    · rename_i live
      rw [Multiset.mem_singleton.mp own] at removed
      exact noRemoved.1 p inside live removed
    · exact absurd own (notMem_zero ip)
  | inr isOpen =>
    obtain ⟨f, inside, own⟩ := mem_tally.mp isOpen
    grind [File.inodes, Multiset.mem_singleton, NoRemoved]

/-- An inode in use that is no directory is open: no process has it as its current directory. -/
theorem AtRest.isOpen (rest : AtRest sb s) {ip : Nat} (member : ip ∈ s.users)
    (plain : (s.disk.node sb (s.inode ip).inum).kind ≠ .dir) : s.IsOpen (s.inode ip).inum := by
  cases mem_add.mp member with
  | inl cwd => exact absurd (rest.home ip cwd) plain
  | inr isOpen =>
    obtain ⟨f, inside, own⟩ := mem_tally.mp isOpen
    grind [File.inodes, Multiset.mem_singleton, State.IsOpen]

end Calls

/-- An image as `mkfs` lays it out, with any files. -/
structure Laid (d : Disk) : Prop where
  consistent : Consistent mkfsSuper d
  rooted : Rooted (d.node mkfsSuper)

section Exact

variable {s t : State} {d : Disk} {event : Nat × Call}

/-- The law of the link counts between two calls. -/
structure Exact (s : State) : Prop where
  rest : AtRest mkfsSuper s
  linked : Linked mkfsSuper.ninodes (s.disk.node mkfsSuper)
  rooted : Rooted (s.disk.node mkfsSuper)

theorem Exact.nlink (exact : Exact s) (noRemoved : s.NoRemoved mkfsSuper) {i : Nat}
    (used : (s.disk.node mkfsSuper i).kind ≠ .free) :
    (s.disk.node mkfsSuper i).nlink =
      entriesFor mkfsSuper.ninodes (s.disk.node mkfsSuper) i :=
  nlink_eq_entriesFor exact.linked exact.rooted (noRemoved.has exact.rest) used

/-- There is no room for as many entries as a `short` can count. -/
theorem Exact.small (exact : Exact s) (noRemoved : s.NoRemoved mkfsSuper) (i : Nat) :
    (s.disk.node mkfsSuper i).nlink ≠ 32767 := by
  by_cases free : (s.disk.node mkfsSuper i).kind = .free
  · have unused : s.disk.node mkfsSuper i = .free := by
      rw [Disk.node, if_neg]
      exact fun isAlloc => Disk.node_alloc isAlloc free
    rw [unused]
    decide
  · have most := exact.rest.cached.sound.entriesFor_le (i := i)
    rw [exact.nlink noRemoved free]
    have room : mkfsSuper.nblocks * (bSize / direntSize) = 30112 := by decide
    omega

theorem Exact.step (exact : Exact s) (noRemoved : s.NoRemoved mkfsSuper)
    (moves : callStep mkfsSuper s event = some t) : Exact t := by
  obtain ⟨later, tree, op, shifts⟩ := callStep_rest mkfsSuper_valid exact.rest moves
  have proper : event.2.Proper (s.disk.node mkfsSuper) (s.cwdOf event.1) :=
    Call.proper_of (noRemoved.has exact.rest) (exact.small noRemoved)
  obtain ⟨linked, rooted⟩ := op.rooted exact.linked exact.rooted exact.rest.range proper
  obtain ⟨linkedT, rootedT⟩ := Shift.keep Rooted.settle shifts linked rooted
  exact ⟨later, linkedT, rootedT⟩

/-- In every state that completed calls lead to while no removed directory is in use, the link
count of an allocated inode is the number of directory entries for it that are not called `.`, and
an inode without such an entry is open. -/
theorem link_counts (laid : Laid d)
    (reached : Reach (callStep mkfsSuper) (fun s _ => s.NoRemoved mkfsSuper) (boot d) s)
    (noRemoved : s.NoRemoved mkfsSuper) :
    ∀ i, s.disk.Alloc mkfsSuper i →
      (s.disk.dinode i).nlink = entriesFor mkfsSuper.ninodes (s.disk.node mkfsSuper) i ∧
        (entriesFor mkfsSuper.ninodes (s.disk.node mkfsSuper) i = 0 → s.IsOpen i) := by
  have consistent := laid.consistent
  have exact := reached.invariant Exact
    ⟨boot_rest mkfsSuper_valid consistent.image, consistent.linked, laid.rooted⟩
    fun _ _ _ before allowed moves => before.step allowed moves
  intro i isAlloc
  have used := Disk.node_alloc isAlloc
  have count := exact.nlink noRemoved used
  refine ⟨?_, ?_⟩
  · rw [← count, Disk.node, if_pos isAlloc]
  · intro none
    rw [none] at count
    obtain ⟨ip, member, rfl, _⟩ := exact.rest.kept i used count
    apply exact.rest.isOpen member
    exact fun isDir => noRemoved.has exact.rest _ isDir count

theorem mkfs_laid : Laid mkfsDisk := by
  refine ⟨mkfs_consistent, mkfs_onlyRoot.parent, ?_, ?_⟩
  · intro d j member
    rw [mkfs_onlyRoot.targets] at member
    exact absurd member (notMem_zero j)
  · intro d isDir
    rw [mkfs_onlyRoot.dir isDir]
    exact plain_of_empty (by decide +kernel)

/-- A directory and a file in it, which is unlinked while it is open. -/
theorem link_counts_mkfs : ∃ s,
    Reach (callStep mkfsSuper) (fun s _ => s.NoRemoved mkfsSuper) (boot mkfsDisk) s ∧
      s.NoRemoved mkfsSuper ∧ s.disk.Alloc mkfsSuper 3 ∧ (s.disk.dinode rootIno).nlink = 2 ∧
      ∀ i, s.disk.Alloc mkfsSuper i →
        (s.disk.dinode i).nlink = entriesFor mkfsSuper.ninodes (s.disk.node mkfsSuper) i ∧
          (entriesFor mkfsSuper.ninodes (s.disk.node mkfsSuper) i = 0 → s.IsOpen i) := by
  obtain ⟨s, reached, noRemoved, isAlloc, nlink⟩ :
      ∃ s, Reach (callStep mkfsSuper) (fun s _ => s.NoRemoved mkfsSuper) (boot mkfsDisk) s ∧
        s.NoRemoved mkfsSuper ∧ s.disk.Alloc mkfsSuper 3 ∧ (s.disk.dinode rootIno).nlink = 2 :=
    exists_reach [(1, .mkdir [97]), (1, .open [97, 47, 102] oCreate),
      (1, .unlink [97, 47, 102])] (by decide +kernel)
  exact ⟨s, reached, noRemoved, isAlloc, nlink, link_counts mkfs_laid reached noRemoved⟩

end Exact

end Xv6.Fs
