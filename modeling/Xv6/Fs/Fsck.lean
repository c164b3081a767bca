import Xv6.Fs.Namespace

/-!
# Lost inodes and dangling entries

What a check of the whole file system looks for, in every state that completed calls lead to: an
inode that no name leads to, and an entry that stands for a free inode. Both can come about, the
first when a name is put in a directory that has been removed, the second also when a directory
is removed that is still the parent of one that was removed before.
-/

namespace Xv6.Fs

open Function Lib Multiset List

/-- An entry other than `.` in a directory stands for an inode: the parent is a directory, and it
is the root or has a name. -/
structure Parented (n : Nat) (tree : Nat → Node) : Prop where
  kind : ∀ i, (tree i).kind = .dir → (tree (tree i).parent).kind = .dir
  named : ∀ i, (tree i).kind = .dir →
    (tree i).parent = rootIno ∨ (tree i).parent ∈ names n tree
  apart : ∀ i, (tree i).kind = .dir → i ≠ rootIno → (tree i).parent ≠ i

/-- An image as `fsck` wants it. -/
structure Consistent (sb : Superblock) (d : Disk) : Prop where
  sound : d.Sound sb
  linked : Linked sb.ninodes (d.node sb)
  parented : Parented sb.ninodes (d.node sb)
  used : ∀ i, (d.node sb i).kind ≠ .free → (d.node sb i).nlink ≠ 0

theorem Consistent.image {sb : Superblock} {d : Disk} (consistent : Consistent sb d) : Image sb d :=
  ⟨consistent.sound, consistent.linked.root, consistent.used⟩

/-! ## The image that `mkfs` makes -/

/-- The root is the only inode and an empty directory. -/
structure OnlyRoot (tree : Nat → Node) : Prop where
  only : ∀ i, (tree i).kind ≠ .free → i = rootIno
  root : (tree rootIno).kind = .dir
  dotted : (tree rootIno).Dotted rootIno
  parent : (tree rootIno).parent = rootIno
  nlink : (tree rootIno).nlink = 1
  empty : (tree rootIno).targets = 0

section Root

variable {n : Nat} {tree : Nat → Node} (onlyRoot : OnlyRoot tree)

include onlyRoot

theorem OnlyRoot.dir {i : Nat} (isDir : (tree i).kind = .dir) : i = rootIno :=
  onlyRoot.only i (by rw [isDir]; decide)

theorem OnlyRoot.targets (i : Nat) : (tree i).targets = 0 := by
  by_cases isDir : (tree i).kind = .dir
  · rw [onlyRoot.dir isDir]
    exact onlyRoot.empty
  · exact targets_of_ne isDir

theorem OnlyRoot.names (n : Nat) : Fs.names n tree = 0 := by
  unfold Fs.names references tally
  apply Finset.sum_eq_zero
  exact fun i _ => onlyRoot.targets i

theorem OnlyRoot.linked (inside : rootIno < n) : Linked n tree := by
  have none := onlyRoot.names n
  constructor
  · intro i used
    rw [onlyRoot.only i used]
    exact ⟨le_rfl, inside⟩
  · exact onlyRoot.root
  · intro i isDir
    rw [onlyRoot.dir isDir]
    exact onlyRoot.dotted
  · intro i member
    rw [none] at member
    exact absurd member (notMem_zero i)
  · intro i used
    rw [onlyRoot.only i used, onlyRoot.nlink, links, none, subdirs, onlyRoot.empty]
    rfl
  · intro i isDir
    rw [onlyRoot.dir isDir, none]
    decide
  · intro i isDir notRoot _
    exact absurd (onlyRoot.dir isDir) notRoot
  · intro i used _
    rw [onlyRoot.only i used]
    exact .root

theorem OnlyRoot.parented : Parented n tree := by
  constructor <;> grind [cases OnlyRoot]

end Root

theorem mkfs_dotted : (mkfsDisk.node mkfsSuper rootIno).Dotted rootIno := by
  refine ⟨⟨strncpy dot dirSiz, ?_, ?_⟩, ⟨strncpy dotdot dirSiz, ?_, ?_⟩, ?_⟩ <;> decide +kernel

theorem mkfs_onlyRoot : OnlyRoot (mkfsDisk.node mkfsSuper) where
  only i used := mkfsDisk_alloc (Disk.alloc_of_node used)
  root := mkfs_image.root
  dotted := mkfs_dotted
  parent := by decide +kernel
  nlink := by decide
  empty := targets_of_empty (by decide +kernel)

theorem mkfs_consistent : Consistent mkfsSuper mkfsDisk :=
  ⟨mkfs_image.sound, mkfs_onlyRoot.linked mkfsSuper_valid.root, mkfs_onlyRoot.parented,
    mkfs_image.linked⟩

/-! ## Runs of proper calls -/

/-- The call is proper in the state in which it is made. -/
def ProperCall (sb : Superblock) (s : State) (event : Nat × Call) : Prop :=
  event.2.Proper (s.disk.node sb) (s.cwdOf event.1)

instance (sb : Superblock) (s : State) (event : Nat × Call) : Decidable (ProperCall sb s event) :=
  inferInstanceAs (Decidable (Call.Proper ..))

section Runs

variable {sb : Superblock} {s t : State} {d : Disk} {event : Nat × Call}

/-- The counts on a sound disk are in range. -/
theorem AtRest.range (rest : AtRest sb s) (i : Nat) :
    short (s.disk.node sb i).nlink = (s.disk.node sb i).nlink := by
  unfold Disk.node
  split
  · rename_i isAlloc
    exact rest.cached.sound.nlink i isAlloc
  · rfl

theorem callStep_linked (valid : sb.Valid) (rest : AtRest sb s)
    (linked : Linked sb.ninodes (s.disk.node sb)) (proper : ProperCall sb s event)
    (moves : callStep sb s event = some t) : Linked sb.ninodes (t.disk.node sb) := by
  obtain ⟨_, tree, op, shifts⟩ := callStep_rest valid rest moves
  exact Shift.linked shifts (op.linked linked rest.range proper)

/-- The law of the name space in every state that proper calls lead to. -/
theorem reached_linked (valid : sb.Valid) (consistent : Consistent sb d)
    (reached : Reach (callStep sb) (ProperCall sb) (boot d) s) :
    AtRest sb s ∧ Linked sb.ninodes (s.disk.node sb) := by
  refine reached.invariant (fun s => AtRest sb s ∧ Linked sb.ninodes (s.disk.node sb))
    ⟨boot_rest valid consistent.image, consistent.linked⟩ ?_
  intro s event t before proper moves
  exact ⟨(callStep_rest valid before.1 moves).1,
    callStep_linked valid before.1 before.2 proper moves⟩

end Runs

/-! ## Lost inodes -/

/-- The inode numbers in the entries of a directory. -/
def Node.entries (node : Node) : Multiset Nat :=
  if node.kind = .dir then (node.ents.map fun e => refer e.inum).sum else 0

/-- Directory entries lead from the root to the inode. -/
def Disk.Found (sb : Superblock) (d : Disk) (i : Nat) : Prop :=
  Reachable (fun j => (d.node sb j).entries) rootIno i

/-- Every process has the root as its current directory and no file is open. -/
def State.Quiescent (s : State) : Prop :=
  (∀ p < nProc, (s.proc p).live = true → s.cwdOf p = rootIno) ∧
    ∀ f < nFile, 0 < (s.file f).ref → (s.file f).kind ≠ .inode

instance (s : State) : Decidable s.Quiescent := inferInstanceAs (Decidable (_ ∧ _))

section Lost

variable {sb : Superblock} {s : State} {d : Disk}

theorem mem_entries {node : Node} {i : Nat} (member : i ∈ node.targets) : i ∈ node.entries := by
  unfold Node.targets at member
  unfold Node.entries
  split at member
  · rename_i isDir
    rw [if_pos isDir, ← take_append_drop 2 node.ents, map_append, sum_append]
    exact mem_add.mpr (.inr member)
  · exact absurd member (notMem_zero i)

theorem State.Quiescent.users (quiescent : s.Quiescent) {ip : Nat} (member : ip ∈ s.users) :
    (s.inode ip).inum = rootIno := by
  cases mem_add.mp member with
  | inl cwd =>
    obtain ⟨p, inside, own⟩ := mem_tally.mp cwd
    rw [Proc.cwds] at own
    split at own
    · rename_i live
      rw [Multiset.mem_singleton.mp own]
      exact quiescent.1 p inside live
    · exact absurd own (notMem_zero ip)
  | inr isOpen =>
    obtain ⟨f, inside, own⟩ := mem_tally.mp isOpen
    grind [File.inodes, Quiescent]

/-- In every state that proper calls lead to, when every process is in the root directory and no
file is open, directory entries lead from the root to every allocated inode. -/
theorem no_lost_inodes (valid : sb.Valid) (consistent : Consistent sb d)
    (reached : Reach (callStep sb) (ProperCall sb) (boot d) s) (quiescent : s.Quiescent) :
    ∀ i, s.disk.Alloc sb i → s.disk.Found sb i := by
  intro i isAlloc
  obtain ⟨rest, linked⟩ := reached_linked valid consistent reached
  have used := Disk.node_alloc isAlloc
  have nlink : (s.disk.node sb i).nlink ≠ 0 := by
    intro zero
    obtain ⟨ip, member, inum, _⟩ := rest.kept i used zero
    have isRoot : i = rootIno := inum.symm.trans (quiescent.users member)
    rw [linked.count i used, links, if_pos isRoot] at zero
    omega
  exact (linked.reached i used nlink).mono fun j k member => mem_entries member

/-- A directory with a file in it. -/
theorem no_lost_inodes_mkfs :
    ∃ s, Reach (callStep mkfsSuper) (ProperCall mkfsSuper) (boot mkfsDisk) s ∧
      s.Quiescent ∧ s.disk.Alloc mkfsSuper 3 ∧ s.disk.Found mkfsSuper 3 := by
  obtain ⟨s, reached, quiescent, isAlloc⟩ :
      ∃ s, Reach (callStep mkfsSuper) (ProperCall mkfsSuper) (boot mkfsDisk) s ∧
        s.Quiescent ∧ s.disk.Alloc mkfsSuper 3 :=
    exists_reach [(1, .mkdir [97]), (1, .open [97, 47, 102] oCreate), (1, .close 0)]
      (by decide +kernel)
  exact ⟨s, reached, quiescent, isAlloc,
    no_lost_inodes mkfsSuper_valid mkfs_consistent reached quiescent 3 isAlloc⟩

/-- A file created in a removed directory is lost when the process leaves the directory. -/
theorem lost_inode_mkfs : ∃ s, Reached mkfsSuper (boot mkfsDisk) s ∧ s.Quiescent ∧
    s.disk.Alloc mkfsSuper 3 ∧ ¬ s.disk.Found mkfsSuper 3 := by
  obtain ⟨s, reached, quiescent, isAlloc, entries⟩ : ∃ s, Reached mkfsSuper (boot mkfsDisk) s ∧
      s.Quiescent ∧ s.disk.Alloc mkfsSuper 3 ∧
        (s.disk.node mkfsSuper rootIno).entries = {rootIno, rootIno} :=
    exists_reach [(1, .mkdir [97]), (1, .chdir [97]), (1, .unlink [47, 97]),
      (1, .open [102] oCreate), (1, .close 0), (1, .chdir [47])] (by decide +kernel)
  refine ⟨s, reached, quiescent, isAlloc, ?_⟩
  -- the entries of the root lead nowhere else
  have only : ∀ i, s.disk.Found mkfsSuper i → i = rootIno := by
    intro i found
    induction found with
    | root => rfl
    | next _ edge ih =>
      rw [ih, entries] at edge
      simpa using edge
  exact fun found => absurd (only 3 found) (by decide)

end Lost

/-! ## Dangling entries -/

/-- The inode number in the entry that `unlink` is asked to remove. -/
def removed (tree : Nat → Node) (cwd : Nat) (path : List UInt8) : Option Nat := do
  let (d, name) ← resolve tree true cwd path
  let k ← lookup (tree d).ents name
  return (entAt (tree d).ents k).inum

/-- The call removes no directory that is the parent of another one. -/
def Call.KeepsParents (n : Nat) (tree : Nat → Node) (cwd : Nat) : Call → Prop
  | .unlink path => ∀ i ∈ removed tree cwd path, (tree i).kind = .dir →
    ∀ j < n, (tree j).kind = .dir → j ≠ i → (tree j).parent ≠ i
  | _ => True

instance (n : Nat) (tree : Nat → Node) (cwd : Nat) (call : Call) :
    Decidable (call.KeepsParents n tree cwd) :=
  match call with
  | .unlink path => inferInstanceAs (Decidable (∀ i ∈ removed tree cwd path, _))
  | .open _ _ | .close _ | .dup _ | .read _ _ _ | .write _ _ _ | .pipe _ | .link _ _ | .mkdir _
  | .mknod _ _ _ | .chdir _ | .exec _ _ _ | .fork _ | .exit => inferInstanceAs (Decidable True)

section Parents

variable {n d i : Nat} {tree later : Nat → Node} (parented : Parented n tree)
  (linked : Linked n tree)

include linked

include parented

theorem Parented.gains (gains : Gains tree later d i) (apart : i ≠ d)
    (isDir : (tree d).kind = .dir) (has : (tree d).nlink ≠ 0) : Parented n later := by
  have kindD : (later d).kind = .dir := (gains.kind d (Ne.symm apart)).trans isDir
  have more : names n later = i ::ₘ names n tree :=
    references_cons (linked.below isDir) gains.here gains.elsewhere
  -- a directory stays one
  have stays : ∀ j, (tree j).kind = .dir → (later j).kind = .dir := by
    intro j kind
    by_cases new : j = i
    · subst new
      have same := gains.same (by rw [kind]; decide)
      exact absurd kind same.2
    · exact (gains.kind j new).trans kind
  constructor
  · intro j kind
    by_cases new : j = i
    all_goals grind [cases Parented, cases Gains]
  · intro j kind
    rw [more]
    by_cases new : j = i
    · rw [new] at kind ⊢
      rw [gains.above kind]
      exact (linked.root_or_named isDir has).imp_right Multiset.mem_cons_of_mem
    · rw [gains.parents j new kind]
      rw [gains.kind j new] at kind
      exact (parented.named j kind).imp_right Multiset.mem_cons_of_mem
  · intro j kind notRoot
    by_cases new : j = i
    all_goals grind [cases Parented, cases Gains]

theorem Parented.loses (loses : Loses tree later d i) (isDir : (tree d).kind = .dir)
    (unused : (tree i).kind = .dir → ∀ j, (tree j).kind = .dir → j ≠ i → (tree j).parent ≠ i) :
    Parented n later := by
  have fewer : names n tree = i ::ₘ names n later :=
    references_cons (linked.below isDir) loses.here fun j other => (loses.elsewhere j other).symm
  have notRoot : i ≠ rootIno := by
    rintro rfl
    have once := linked.once rootIno linked.root
    rw [fewer, Multiset.count_cons_self, if_pos rfl] at once
    omega
  have other : ∀ j, (tree j).kind = .dir → (tree j).parent ≠ i := by
    intro j kind same
    have above := parented.kind j kind
    rw [same] at above
    by_cases own : j = i
    · exact parented.apart j kind (own ▸ notRoot) (same.trans own.symm)
    · exact unused above j kind own same
  constructor <;> grind [cases Parented, cases Loses]

/-- No directory has an inode without links as its parent. -/
theorem Parented.settle (used : Multiset Nat) (i : Nat) : Parented n (settle used tree i) := by
  unfold Fs.settle
  split
  · rename_i unlinked
    -- the inode that is freed is no one's parent
    have other : ∀ j, (tree j).kind = .dir → (tree j).parent ≠ i := by
      intro j kind same
      have above := parented.kind j kind
      have named := parented.named j kind
      rw [same] at above named
      have count := linked.count i (by rw [above]; decide)
      rw [unlinked.1, links] at count
      cases named with
      | inl isRoot =>
        rw [if_pos isRoot] at count
        omega
      | inr member =>
        have := count_pos.mpr member
        omega
    have leaf : (tree i).targets = 0 := by
      by_cases isDir : (tree i).kind = .dir
      · by_contra some
        obtain ⟨j, member⟩ := exists_mem_of_ne_zero some
        exact (nlink_of_targets linked.count linked.empty member).2 unlinked.1
      · exact targets_of_ne isDir
    have same : names n (update tree i .free) = names n tree := by
      unfold names
      congr 1
      funext j
      rw [update_apply]
      split
      · rename_i here
        rw [here, leaf]
        rfl
      · rfl
    have node : ∀ j ≠ i, update tree i .free j = tree j :=
      fun j different => update_of_ne different ..
    have dirs : ∀ j, (update tree i .free j).kind = .dir → j ≠ i := by
      rintro j kind rfl
      rw [update_self] at kind
      exact absurd kind (by decide)
    constructor <;> grind [cases Parented]
  · exact parented

/-- No entry dangles when the law of the name space holds and every parent has a name. -/
theorem Parented.noDangling : NoDangling tree := by
  intro d isDir e member nonzero
  have dotted := linked.dotted d isDir
  obtain ⟨k, entry⟩ := mem_iff_getElem?.mp member
  obtain ⟨_, self, _⟩ := dotted.self
  obtain ⟨_, above, _⟩ := dotted.parent
  rcases Nat.lt_or_ge k 2 with low | two
  · have cases : k = 0 ∨ k = 1 := by omega
    grind [cases Parented]
  · apply linked.named
    apply linked.mem_names (d := d)
    rw [cleared_targets isDir two entry nonzero]
    exact Multiset.mem_cons_self _ _

end Parents

section Runs

variable {sb : Superblock} {s t : State} {d : Disk} {event : Nat × Call} {cwd : Nat} {call : Call}
  {world : World} {later : Nat → Node}

/-- The call is proper and removes no directory that is the parent of another one. -/
def OrderlyCall (sb : Superblock) (s : State) (event : Nat × Call) : Prop :=
  ProperCall sb s event ∧
    event.2.KeepsParents sb.ninodes (s.disk.node sb) (s.cwdOf event.1)

instance (sb : Superblock) (s : State) (event : Nat × Call) : Decidable (OrderlyCall sb s event) :=
  inferInstanceAs (Decidable (_ ∧ _))

theorem removed_eq {tree : Nat → Node} {path name : List UInt8} {d k : Nat} {e : Dirent}
    (resolved : resolve tree true cwd path = some (d, name))
    (found : lookup (tree d).ents name = some k) (entry : (tree d).ents[k]? = some e) :
    removed tree cwd path = some e.inum := by
  simp [removed, resolved, found, entAt, entry]

/-- An orderly call keeps the parents. -/
theorem TreeOp.parented (op : TreeOp sb cwd call world later)
    (linked : Linked sb.ninodes world.tree) (parented : Parented sb.ninodes world.tree)
    (range : ∀ i, short (world.tree i).nlink = (world.tree i).nlink)
    (proper : call.Proper world.tree cwd) (keeps : call.KeepsParents sb.ninodes world.tree cwd) :
    Linked sb.ninodes later ∧ Parented sb.ninodes later := by
  refine op.keep Parented.settle linked range proper parented ?_ ?_
  · intro d i name later isDir has _ gains apart _
    exact parented.gains linked gains apart isDir has
  · rintro path name d k e rfl resolved isDir found entry loses
    refine parented.loses linked loses isDir fun sub j kind other => ?_
    exact keeps e.inum (removed_eq resolved found entry) sub j (linked.below kind) kind other

/-- In every state that orderly calls lead to. -/
theorem reached_parented (valid : sb.Valid) (consistent : Consistent sb d)
    (reached : Reach (callStep sb) (OrderlyCall sb) (boot d) s) :
    AtRest sb s ∧ Linked sb.ninodes (s.disk.node sb) ∧
      Parented sb.ninodes (s.disk.node sb) := by
  refine reached.invariant (fun s => AtRest sb s ∧ Linked sb.ninodes (s.disk.node sb) ∧
      Parented sb.ninodes (s.disk.node sb))
    ⟨boot_rest valid consistent.image, consistent.linked, consistent.parented⟩ ?_
  rintro s event t ⟨rest, linked, parented⟩ ⟨proper, keeps⟩ moves
  obtain ⟨later, tree, op, shifts⟩ := callStep_rest valid rest moves
  obtain ⟨linked, parented⟩ := op.parented linked parented rest.range proper keeps
  exact ⟨later, Shift.keep Parented.settle shifts linked parented⟩

/-- Path lookup finds no free inode in a state at rest in which no entry dangles. -/
theorem AtRest.typed {panics : Panic → Prop} (rest : AtRest sb s)
    (whole : NoDangling (s.disk.node sb)) (root : (s.disk.node sb rootIno).kind = .dir) {p : Nat}
    (inside : p < nProc) (live : (s.proc p).live = true) :
    Typed sb panics (s.cwdOf p) s := by
  refine .inr ⟨whole, ?_⟩
  rintro i (rfl | rfl)
  · rw [root]
    decide
  · exact rest.counted.live _ (AtRest.cwd_mem inside live)

/-- In every state that orderly calls lead to, every entry in use of an allocated directory names
an allocated inode, and no call ends in the panic of `ilock` at a free inode. -/
theorem no_dangling_entries (valid : sb.Valid) (consistent : Consistent sb d)
    (reached : Reach (callStep sb) (OrderlyCall sb) (boot d) s) :
    NoDangling (s.disk.node sb) ∧
      ∀ p call, call.ready s p = true → (syscall sb p call).run s [] ≠ .panic .noType := by
  obtain ⟨rest, linked, parented⟩ := reached_parented valid consistent reached
  have whole := parented.noDangling linked
  refine ⟨whole, ?_⟩
  intro p call ready panicked
  obtain ⟨inside, live⟩ := Call.inside_of_ready ready
  have wp : Prog.Wp (· ≠ .noType) (fun _ => True) (syscall sb p call) (fun _ _ _ => True) s [] := by
    apply syscall_full _ valid rest ready (rest.typed whole linked.root inside live) (by decide)
      (by decide) (.inl fun _ => trivial) (fun _ _ => trivial) (fun _ _ _ => trivial)
    rintro error exhausted rfl
    cases exhausted
  rw [Prog.Wp, panicked] at wp
  exact wp rfl

/-- A directory is removed after the one in it. -/
theorem no_dangling_entries_mkfs : ∃ s,
    Reach (callStep mkfsSuper) (OrderlyCall mkfsSuper) (boot mkfsDisk) s ∧
      (s.disk.node mkfsSuper 3).kind = .dir ∧ NoDangling (s.disk.node mkfsSuper) := by
  obtain ⟨s, reached, kind⟩ :
      ∃ s, Reach (callStep mkfsSuper) (OrderlyCall mkfsSuper) (boot mkfsDisk) s ∧
        (s.disk.node mkfsSuper 3).kind = .dir :=
    exists_reach [(1, .mkdir [97]), (1, .mkdir [97, 47, 98]), (1, .chdir [97, 47, 98]),
      (1, .unlink [47, 97, 47, 98])] (by decide +kernel)
  exact ⟨s, reached, kind, (no_dangling_entries mkfsSuper_valid mkfs_consistent reached).1⟩

/-- A directory is removed while it is the parent of a removed directory in use: the entry `..` of
that directory dangles, and looking it up panics. -/
theorem dangling_entry_mkfs : ∃ s, Reached mkfsSuper (boot mkfsDisk) s ∧
    ¬ NoDangling (s.disk.node mkfsSuper) ∧ (Call.chdir dotdot).ready s 1 = true ∧
      (syscall mkfsSuper 1 (.chdir dotdot)).run s [] = .panic .noType := by
  obtain ⟨s, reached, kind, entry, free, ready, outcome⟩ :
      ∃ s, Reached mkfsSuper (boot mkfsDisk) s ∧ (s.disk.node mkfsSuper 3).kind = .dir ∧
        (s.disk.node mkfsSuper 3).ents[1]? = some ⟨2, strncpy dotdot dirSiz⟩ ∧
        (s.disk.node mkfsSuper 2).kind = .free ∧ (Call.chdir dotdot).ready s 1 = true ∧
        ((syscall mkfsSuper 1 (.chdir dotdot)).run s []).error? = some .noType :=
    exists_reach [(1, .mkdir [97]), (1, .mkdir [97, 47, 98]), (1, .chdir [97, 47, 98]),
      (1, .unlink [47, 97, 47, 98]), (1, .unlink [47, 97])] (by decide +kernel)
  refine ⟨s, reached, ?_, ready, Outcome.eq_panic outcome⟩
  exact fun whole => whole 3 kind _ (mem_of_getElem? entry) (by decide) free

end Runs

end Xv6.Fs
