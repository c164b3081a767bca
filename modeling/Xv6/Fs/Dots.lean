import Xv6.Fs.LinkCount

/-!
# The entries "." and ".."

`isdirempty` skips the first two entries of a directory without looking at their names. This is
right as long as these two, and no others, are "." and "..": `create` writes them there, `dirlink`
refuses a name that is present and `sys_unlink` refuses to remove the two names.
-/

namespace Xv6.Fs

open Function Lib List

/-- "." and ".." are the first two entries of directory `i` and stand nowhere else. -/
structure Node.Dots (node : Node) (i : Nat) : Prop where
  dotted : node.Dotted i
  only : ∀ k e, 2 ≤ k → node.ents[k]? = some e → e.inum ≠ 0 →
    namecmp dot e.name ≠ 0 ∧ namecmp dotdot e.name ≠ 0

/-- A live entry other than "." and "..". -/
def Node.HasName (node : Node) : Prop :=
  ∃ e ∈ node.ents, e.inum ≠ 0 ∧ namecmp dot e.name ≠ 0 ∧ namecmp dotdot e.name ≠ 0

/-- Every directory has "." and ".." in their places. -/
def Dots (tree : Nat → Node) : Prop := ∀ i, (tree i).kind = .dir → i ≠ 0 ∧ (tree i).Dots i

namespace Node.Dots

variable {node later : Node} {i k : Nat} {name : List UInt8} (dots : node.Dots i)

include dots

theorem congr (ents : later.ents = node.ents) : later.Dots i := by
  obtain ⟨⟨self, parent, nonzero⟩, only⟩ := dots
  unfold Node.parent at parent nonzero
  rw [← ents] at self parent nonzero only
  exact ⟨⟨self, parent, nonzero⟩, only⟩

/-- Writing an entry behind the first two. -/
theorem setEnt {e : Dirent} (two : 2 ≤ k) (inside : k ≤ node.ents.length)
    (called : e.inum ≠ 0 → namecmp dot e.name ≠ 0 ∧ namecmp dotdot e.name ≠ 0)
    (ents : later.ents = Fs.setEnt node.ents k e) : later.Dots i where
  dotted := (dots.dotted.setEnt two inside ents).1
  only := by
    grind [setEnt_getElem?, cases Dots]

/-- `dirlink` of a name that is absent. -/
theorem named {j : Nat} (nonzero : i ≠ 0) (absent : lookup node.ents name = none)
    (ents : later.ents = (Fs.named node j name).ents) : later.Dots i := by
  obtain ⟨first, self, isDot⟩ := dots.dotted.self
  obtain ⟨second, parent, isDotdot⟩ := dots.dotted.parent
  apply dots.setEnt (dots.dotted.freeIndex nonzero).1 (freeIndex_le _) _ ents
  intro _
  exact ⟨not_named_of_absent (mem_of_getElem? self) nonzero isDot absent,
    not_named_of_absent (mem_of_getElem? parent) dots.dotted.nonzero isDotdot absent⟩

/-- Removing an entry that is not one of the two. -/
theorem cleared (notDot : namecmp name dot ≠ 0) (notDotdot : namecmp name dotdot ≠ 0)
    (found : lookup node.ents name = some k) (ents : later.ents = (Fs.cleared node k).ents) :
    later.Dots i := by
  obtain ⟨e, entry, -⟩ := lookup_some found
  have inside : k < node.ents.length := (List.getElem?_eq_some_iff.mp entry).1
  exact dots.setEnt (dots.dotted.lookup notDot notDotdot found) inside.le
    (fun nonzero => absurd rfl nonzero) ents

/-- `isdirempty` answers whether the directory contains a name. -/
theorem isEmptyDir_iff : isEmptyDir node.ents = true ↔ ¬ node.HasName := by
  rw [isEmptyDir, List.all_eq_true]
  constructor
  · rintro empty ⟨e, member, nonzero, notDot, notDotdot⟩
    obtain ⟨k, entry⟩ := mem_iff_getElem?.mp member
    rcases k with _ | _ | k
    · obtain ⟨name, self, isDot⟩ := dots.dotted.self
      rw [entry] at self
      exact notDot (Option.some.inj self ▸ isDot)
    · obtain ⟨name, parent, isDotdot⟩ := dots.dotted.parent
      rw [entry] at parent
      exact notDotdot (Option.some.inj parent ▸ isDotdot)
    · have behind : e ∈ node.ents.drop 2 :=
        mem_iff_getElem?.mpr ⟨k, by rw [getElem?_drop, add_comm, entry]⟩
      exact nonzero (by simpa using empty e behind)
  grind [mem_iff_getElem?, cases Dots, HasName]

end Node.Dots

variable {i p : Nat} {t : State}

theorem newNode_dots {d : Nat} (nonzero : d ≠ 0) : (newNode .dir d i).Dots i where
  dotted := newNode_dotted d i nonzero
  only k e two found := by
    rw [newNode, if_pos rfl, getElem?_eq_none (by simpa using two)] at found
    exact absurd found (by simp)

section Steps

variable {sb : Superblock} {cwd d : Nat} {call : Call} {world : World} {tree later : Nat → Node}
  {name : List UInt8}

theorem Dots.settle (dots : Dots tree) (used : Multiset Nat) (i : Nat) :
    Dots (Fs.settle used tree i) := by
  intro j isDir
  rcases settle_node used tree i j with same | free
  · rw [same] at isDir ⊢
    exact dots j isDir
  · rw [free] at isDir
    exact absurd isDir (by decide)

theorem Dots.create {type : FileType} (dots : Dots tree) (isDir : (tree d).kind = .dir)
    (absent : lookup (tree d).ents name = none) (inside : i ≠ 0) :
    Dots (createTree tree d i name type) := by
  intro j
  obtain ⟨nonzero, parent⟩ := dots d isDir
  rw [createTree, update_apply]
  split
  · rename_i here
    intro _
    rw [here]
    refine ⟨nonzero, parent.named nonzero absent (j := i) ?_⟩
    split <;> rfl
  · rw [update_apply]
    split
    · rename_i here
      intro newDir
      obtain rfl : type = .dir := newDir
      rw [here]
      exact ⟨inside, newNode_dots nonzero⟩
    · exact dots j

theorem Dots.link (dots : Dots tree) (isDir : (tree d).kind = .dir)
    (absent : lookup (tree d).ents name = none) : Dots (linkTree tree d i name) := by
  intro j
  obtain ⟨nonzero, parent⟩ := dots d isDir
  rw [linkTree, update_apply]
  split
  · rename_i here
    intro _
    rw [here]
    exact ⟨nonzero, parent.named nonzero absent rfl⟩
  · rw [update_apply]
    split
    · rename_i here
      intro child
      rw [here]
      exact ⟨(dots i child).1, (dots i child).2.congr rfl⟩
    · exact dots j

theorem Dots.unlink {k : Nat} (dots : Dots tree) (isDir : (tree d).kind = .dir)
    (notDot : namecmp name dot ≠ 0) (notDotdot : namecmp name dotdot ≠ 0)
    (found : lookup (tree d).ents name = some k) : Dots (unlinkTree tree d k i) := by
  intro j
  obtain ⟨nonzero, parent⟩ := dots d isDir
  rw [unlinkTree, update_apply]
  split
  · rename_i here
    intro child
    rw [here]
    exact ⟨(dots i child).1, (dots i child).2.congr rfl⟩
  · rw [update_apply]
    split
    · rename_i here
      intro _
      rw [here]
      refine ⟨nonzero, parent.cleared notDot notDotdot found ?_⟩
      split <;> rfl
    · exact dots j

/-- No call moves "." and ".." or writes them a second time. -/
theorem TreeOp.dots (op : TreeOp sb cwd call world later) (dots : Dots world.tree) :
    Dots later := by
  cases op with
  | same => exact dots
  | create concerns resolved isDir absent inside free =>
    exact (dots.create isDir absent (ne_of_gt inside.1)).settle _ _
  | link concerns source used plain resolved isDir absent =>
    exact ((dots.link isDir absent).settle _ _).settle _ _
  | unlink concerns resolved isDir notDot notDotdot found entry nonzero apart used linked empty =>
    exact ((dots.unlink isDir notDot notDotdot found).settle _ _).settle _ _

theorem Effect.dots {s : State} (effect : Effect sb p call s t) (dots : Dots (s.disk.node sb)) :
    Dots (t.disk.node sb) := by
  obtain ⟨tree, op, shifts⟩ := effect
  intro i isDir
  rcases Shift.node shifts i with same | free
  · have here : t.disk.node sb i = tree i := same
    rw [here] at isDir ⊢
    exact op.dots dots i isDir
  · have here : t.disk.node sb i = .free := free
    rw [here] at isDir
    exact absurd isDir (by decide)

end Steps

section Runs

variable {sb : Superblock} {d : Disk} {s : State} {held : List Nat}

theorem reached_dots (valid : sb.Valid) (image : Image sb d) (dots : Dots (d.node sb))
    (reached : Reached sb (boot d) s) : AtRest sb s ∧ Dots (s.disk.node sb) := by
  refine reached.invariant (fun s => AtRest sb s ∧ Dots (s.disk.node sb))
    ⟨boot_rest valid image, dots⟩ ?_
  intro s event t before _ moves
  obtain ⟨rest, effect⟩ := callStep_rest valid before.1 moves
  exact ⟨rest, effect.dots before.2⟩

/-- `isdirempty` of a locked directory. -/
theorem isdirempty_iff {refs : Multiset Nat} {dp : Nat} (opened : Opened sb refs s dp)
    (dots : Dots (s.disk.node sb)) :
    ∃ empty, (isdirempty sb dp).run s held = .done empty s held ∧
      (empty = true ↔ ¬ (s.disk.node sb (s.inode dp).inum).HasName) := by
  have wp : Prog.Wp (fun _ => False) (fun _ => False) (isdirempty sb dp)
      (fun empty t later => empty = isEmptyDir (s.dirents sb dp) ∧ t = s ∧ later = held) s held :=
    isdirempty_wp opened ⟨rfl, rfl, rfl⟩
  obtain ⟨empty, t, later, result, rfl, rfl, rfl⟩ := wp.total
  exact ⟨_, result, (dots _ opened.kind).2.isEmptyDir_iff⟩

/-- A call of `unlink` that succeeds removes a name of a file or of a directory without names. -/
theorem unlink_removes_empty {path : List UInt8} (valid : sb.Valid) (rest : AtRest sb s)
    (dots : Dots (s.disk.node sb)) (ready : (Call.unlink path).ready s p = true)
    (result : (syscall sb p (.unlink path)).run s [] = .done 0 t held) :
    ∃ i, removed (s.disk.node sb) (s.cwdOf p) path = some i ∧
      ((s.disk.node sb i).kind = .dir → ¬ (s.disk.node sb i).HasName) := by
  obtain ⟨inside, live⟩ := Call.inside_of_ready ready
  have wp : Prog.Wp Panic.Possible (fun _ => True) (sysUnlink sb p path)
      (fun r _ _ => r = 0 → ∃ i, removed (s.disk.node sb) (s.cwdOf p) path = some i ∧
        ((s.disk.node sb i).kind = .dir → ¬ (s.disk.node sb i).HasName)) s [] := by
    have full : ∀ error, Panic.Exhausted error → Panic.Possible error := fun _ => .exhausted
    apply sysUnlink_wp valid (.of_full full _ 2) (full _ .outOfBlocks) (.of_full full (4 + 0))
      rest.idle rest.cached rest.kept (AtRest.cwd_mem inside live) (.inl .noType) .nlink
      (.inl fun _ => trivial)
    · exact fun _ _ _ _ failed => absurd failed (by decide)
    · intro t unlinked _ _ _
      obtain ⟨d, name, k, e, resolved, isDir, notDot, notDotdot, found, entry, nonzero, apart,
        used, linked, empty, tree⟩ := unlinked.tree
      refine ⟨e.inum, removed_eq resolved found entry, fun child => ?_⟩
      exact (dots _ child).2.isEmptyDir_iff.mp (empty child)
  exact wp.of_done result rfl

/-- In every state that calls lead to, "." and ".." are the first two entries of every allocated
directory and stand nowhere else, so `isdirempty` finds out whether a directory contains a name,
and `unlink` removes no directory that does. -/
theorem only_empty_directories_removed (valid : sb.Valid) (image : Image sb d)
    (laid : ∀ i, (d.node sb i).kind = .dir → (d.node sb i).Dots i)
    (reached : Reached sb (boot d) s) :
    (∀ i, s.disk.Alloc sb i → (s.disk.dinode i).type = .dir → (s.disk.node sb i).Dots i) ∧
    (∀ refs t dp held, Opened sb refs t dp → t.disk = s.disk →
      ∃ empty, (isdirempty sb dp).run t held = .done empty t held ∧
        (empty = true ↔ ¬ (s.disk.node sb (t.inode dp).inum).HasName)) ∧
    ∀ p path t held, (Call.unlink path).ready s p = true →
      (syscall sb p (.unlink path)).run s [] = .done 0 t held →
      ∃ i, removed (s.disk.node sb) (s.cwdOf p) path = some i ∧
        ((s.disk.node sb i).kind = .dir → ¬ (s.disk.node sb i).HasName) := by
  have dots : Dots (d.node sb) := by
    intro i isDir
    have used : (d.node sb i).kind ≠ .free := by rw [isDir]; decide
    exact ⟨ne_of_gt (Disk.alloc_of_node used).1, laid i isDir⟩
  obtain ⟨rest, dots⟩ := reached_dots valid image dots reached
  refine ⟨?_, ?_, ?_⟩
  · intro i isAlloc type
    have isDir : (s.disk.node sb i).kind = .dir := by rw [Disk.node, if_pos isAlloc, type]
    exact (dots i isDir).2
  · intro refs t dp held opened disk
    rw [← disk] at dots ⊢
    exact isdirempty_iff opened dots
  · exact fun p path t held ready result => unlink_removes_empty valid rest dots ready result

theorem mkfs_dots (isDir : (mkfsDisk.node mkfsSuper i).kind = .dir) :
    (mkfsDisk.node mkfsSuper i).Dots i := by
  rw [mkfs_onlyRoot.dir isDir]
  have empty : isEmptyDir (mkfsDisk.node mkfsSuper rootIno).ents = true := by decide +kernel
  exact ⟨mkfs_dotted, fun _ _ two found nonzero =>
    absurd (inum_of_empty empty two found) nonzero⟩

/-- A directory with a name in it and an empty one, which `unlink` removes. -/
theorem only_empty_directories_removed_mkfs : ∃ s, Reached mkfsSuper (boot mkfsDisk) s ∧
    s.disk.Alloc mkfsSuper 2 ∧ (s.disk.node mkfsSuper 2).Dots 2 ∧
    removed (s.disk.node mkfsSuper) (s.cwdOf 1) [98] = some 4 ∧
    (s.disk.node mkfsSuper 4).kind = .dir ∧ ¬ (s.disk.node mkfsSuper 4).HasName := by
  obtain ⟨s, reached, isAlloc, type, names, isDir, ready, returned⟩ :
      ∃ s, Reached mkfsSuper (boot mkfsDisk) s ∧ s.disk.Alloc mkfsSuper 2 ∧
        (s.disk.dinode 2).type = .dir ∧
        removed (s.disk.node mkfsSuper) (s.cwdOf 1) [98] = some 4 ∧
        (s.disk.node mkfsSuper 4).kind = .dir ∧ (Call.unlink [98]).ready s 1 = true ∧
        ((syscall mkfsSuper 1 (.unlink [98])).run s []).result?.map Prod.fst = some 0 :=
    exists_reach [(1, .mkdir [97]), (1, .open [97, 47, 102] oCreate), (1, .mkdir [98])]
      (by decide +kernel)
  obtain ⟨dots, -, unlinked⟩ := only_empty_directories_removed mkfsSuper_valid mkfs_image
    (fun _ => mkfs_dots) reached
  obtain ⟨t, held, result⟩ := Outcome.eq_done returned
  obtain ⟨i, found, empty⟩ := unlinked 1 [98] t held ready result
  obtain rfl : 4 = i := Option.some.inj (names.symm.trans found)
  exact ⟨s, reached, isAlloc, dots 2 isAlloc type, names, isDir, empty isDir⟩

end Runs

end Xv6.Fs
