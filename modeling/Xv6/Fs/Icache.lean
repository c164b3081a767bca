import Xv6.Fs.Syscall
import Xv6.Fs.Tree

/-!
# The inode cache

`Cached` is the law of the inode cache under the references that exist to its entries, wherever
they are kept. Every operation on the cache has a rule that says what becomes of the references
and of the nodes on the disk; what an entry knows of its inode is a fact about the node.
-/

namespace Xv6.Fs

open Function Lib Prog Act Finset Multiset List

/-- The inode cache when there are the listed references to its entries. -/
structure Cached (sb : Superblock) (refs : Multiset Nat) (s : State) : Prop where
  sound : s.disk.Sound sb
  count : ∀ ip, (s.inode ip).ref = refs.count ip
  inside : ∀ ip ∈ refs, ip < nInode
  inum : ∀ ip ∈ refs, (s.inode ip).dev = rootDev ∧ rootIno ≤ (s.inode ip).inum ∧
    (s.inode ip).inum < sb.ninodes
  once : ∀ ip ∈ refs, ∀ jp ∈ refs, (s.inode ip).inum = (s.inode jp).inum → ip = jp
  valid : ∀ ip ∈ refs, (s.inode ip).valid = true →
    s.Synced ip ∧ (s.inode ip).copy.type ≠ .free

/-- What stays while a process works: the tables, and what the referenced entries stand for. -/
structure Steady (refs : Multiset Nat) (s t : State) : Prop where
  file : t.file = s.file
  pipe : t.pipe = s.pipe
  proc : t.proc = s.proc
  outstanding : t.outstanding = s.outstanding
  inum : ∀ ip ∈ refs, (t.inode ip).inum = (s.inode ip).inum
  valid : ∀ ip ∈ refs, (s.inode ip).valid = true → (t.inode ip).valid = true

namespace Steady

variable {refs more : Multiset Nat} {s t u : State}

/-- Nothing happens. -/
theorem refl (refs : Multiset Nat) (s : State) : Steady refs s s :=
  ⟨rfl, rfl, rfl, rfl, fun _ _ => rfl, fun _ _ valid => valid⟩

/-- One change after another. -/
theorem trans (first : Steady refs s t) (second : Steady refs t u) : Steady refs s u where
  file := second.file.trans first.file
  pipe := second.pipe.trans first.pipe
  proc := second.proc.trans first.proc
  outstanding := second.outstanding.trans first.outstanding
  inum ip member := (second.inum ip member).trans (first.inum ip member)
  valid ip member valid := second.valid ip member (first.valid ip member valid)

/-- What stays for some references stays for fewer. -/
theorem mono (steady : Steady more s t) (fewer : ∀ ip ∈ refs, ip ∈ more) : Steady refs s t where
  file := steady.file
  pipe := steady.pipe
  proc := steady.proc
  outstanding := steady.outstanding
  inum ip member := steady.inum ip (fewer ip member)
  valid ip member := steady.valid ip (fewer ip member)

/-- What stays with a further reference stays without it. -/
theorem of_cons {ip : Nat} (steady : Steady (ip ::ₘ refs) s t) : Steady refs s t :=
  steady.mono fun _ member => Multiset.mem_cons_of_mem member

end Steady

namespace Cached

variable {sb : Superblock} {refs later : Multiset Nat} {s t : State} {ip : Nat}
  (cached : Cached sb refs s)

include cached

/-- An inode that is held has a reference. -/
theorem ref_pos (member : ip ∈ refs) : 0 < (s.inode ip).ref := by
  rw [cached.count]
  exact count_pos.mpr member

/-- A reference that is counted is held by someone. -/
theorem mem_of_pos (positive : 0 < (s.inode ip).ref) : ip ∈ refs := by
  rw [cached.count] at positive
  exact count_pos.mp positive

/-- A copy that is valid is that of an allocated inode. -/
theorem alloc (member : ip ∈ refs) (valid : (s.inode ip).valid = true) :
    s.disk.Alloc sb (s.inode ip).inum := by
  obtain ⟨synced, used⟩ := cached.valid ip member valid
  obtain ⟨_, low, high⟩ := cached.inum ip member
  refine ⟨low, high, ?_⟩
  rw [synced]
  exact used

/-- An entry that is valid knows the header of its node. -/
theorem copy_type (member : ip ∈ refs) (valid : (s.inode ip).valid = true) :
    (s.inode ip).copy.type = (s.disk.node sb (s.inode ip).inum).kind := by
  rw [Disk.node, if_pos (cached.alloc member valid), (cached.valid ip member valid).1]

/-- The links in the copy are those on the disk. -/
theorem copy_nlink (member : ip ∈ refs) (valid : (s.inode ip).valid = true) :
    (s.inode ip).copy.nlink = (s.disk.node sb (s.inode ip).inum).nlink := by
  rw [Disk.node, if_pos (cached.alloc member valid), (cached.valid ip member valid).1]

/-- References to entries that stand for the same inodes as before. -/
theorem congr (sound : t.disk.Sound sb) (count : ∀ ip, (t.inode ip).ref = later.count ip)
    (fewer : ∀ ip ∈ later, ip ∈ refs) (dev : ∀ ip ∈ later, (t.inode ip).dev = (s.inode ip).dev)
    (inum : ∀ ip ∈ later, (t.inode ip).inum = (s.inode ip).inum)
    (valid : ∀ ip ∈ later, (t.inode ip).valid = true →
      t.Synced ip ∧ (t.inode ip).copy.type ≠ .free) : Cached sb later t where
  sound := sound
  count := count
  inside ip member := cached.inside ip (fewer ip member)
  inum ip member := by
    rw [dev ip member, inum ip member]
    exact cached.inum ip (fewer ip member)
  once ip member jp other same := by
    rw [inum ip member, inum jp other] at same
    exact cached.once ip (fewer ip member) jp (fewer jp other) same
  valid := valid

end Cached

/-- Work of a process that leaves the disk as it is and the listed references in place. -/
structure Quiet (sb : Superblock) (refs later : Multiset Nat) (s t : State) : Prop where
  cached : Cached sb later t
  steady : Steady refs s t
  disk : t.disk = s.disk
  lh : t.lh = s.lh
  commits : t.commits = s.commits

namespace Quiet

variable {sb : Superblock} {refs middle later : Multiset Nat} {s t u : State} {ip : Nat}

/-- Nothing happens. -/
theorem refl (cached : Cached sb refs s) : Quiet sb refs refs s s :=
  ⟨cached, .refl refs s, rfl, rfl, rfl⟩

/-- One quiet stretch after another. -/
theorem trans (first : Quiet sb refs middle s t) (second : Quiet sb middle later t u)
    (fewer : ∀ ip ∈ refs, ip ∈ middle) : Quiet sb refs later s u :=
  ⟨second.cached, first.steady.trans (second.steady.mono fewer), second.disk.trans first.disk,
    second.lh.trans first.lh, second.commits.trans first.commits⟩

/-- Work that goes on with the same references in place. -/
theorem andThen (first : Quiet sb refs middle s t) (second : Quiet sb refs later t u) :
    Quiet sb refs later s u :=
  ⟨second.cached, first.steady.trans second.steady, second.disk.trans first.disk,
    second.lh.trans first.lh, second.commits.trans first.commits⟩

/-- Another reference was there all along. -/
theorem of_cons (quiet : Quiet sb (ip ::ₘ refs) later s t) : Quiet sb refs later s t :=
  ⟨quiet.cached, quiet.steady.of_cons, quiet.disk, quiet.lh, quiet.commits⟩

/-- The inode that is held stays the same one. -/
theorem inum (quiet : Quiet sb refs later s t) (member : ip ∈ refs) :
    (t.inode ip).inum = (s.inode ip).inum :=
  quiet.steady.inum ip member

/-- A copy that is held stays valid. -/
theorem valid (quiet : Quiet sb refs later s t) (member : ip ∈ refs)
    (valid : (s.inode ip).valid = true) : (t.inode ip).valid = true :=
  quiet.steady.valid ip member valid

/-- A quiet stretch logs nothing. -/
theorem ledger {panics : Panic → Prop} {past : List (List Nat)} {known : Finset Nat} {more : Nat}
    (quiet : Quiet sb refs later s t) (ledger : Ledger sb panics past known more s) :
    Ledger sb panics past known more t :=
  ledger.congr quiet.lh quiet.commits quiet.steady.outstanding

end Quiet

/-! ## Nodes -/

namespace Disk

variable {sb : Superblock} {d : Disk} {i : Nat}

/-- The node of an allocated inode. -/
theorem node_alloc (isAlloc : d.Alloc sb i) : (d.node sb i).kind ≠ .free := by
  rw [Disk.node, if_pos isAlloc]
  exact isAlloc.2.2

/-- An inode with a node is allocated. -/
theorem alloc_of_node (used : (d.node sb i).kind ≠ .free) : d.Alloc sb i := by
  unfold Disk.node at used
  split at used
  · assumption
  · exact absurd rfl used

/-- The entries of a directory's node are those it stores. -/
theorem node_dir (isAlloc : d.Alloc sb i) (type : (d.dinode i).type = .dir) :
    (d.node sb i).ents = d.ents i := by
  rw [Disk.node, if_pos isAlloc, if_pos type]

end Disk

section Rules

variable {sb : Superblock} {panics : Panic → Prop} {refs : Multiset Nat} {s : State} {i : Nat}

/-! ## References -/

/-- The inodes after one was changed. -/
theorem setInode_inode (s : State) (ip jp : Nat) (inode : Inode) :
    (s.setInode ip inode).inode jp = if jp = ip then inode else s.inode jp :=
  update_apply s.inode ip inode jp

/-- A slot with another number of references. -/
def State.setRef (s : State) (ip ref : Nat) : State := s.setInode ip { s.inode ip with ref := ref }

/-- The inodes after a change of a reference count. -/
theorem setRef_inode (s : State) (ip ref jp : Nat) :
    (s.setRef ip ref).inode jp =
      if jp = ip then { s.inode ip with ref := ref } else s.inode jp :=
  setInode_inode ..

/-- A reference count is no part of what stays. -/
theorem setRef_steady (s : State) (ip ref : Nat) : Steady refs s (s.setRef ip ref) := by
  refine ⟨rfl, rfl, rfl, rfl, ?_, ?_⟩
  all_goals grind [setRef_inode]

/-- The references and their counts change together. -/
theorem Cached.setRef {later : Multiset Nat} {ip ref : Nat} (cached : Cached sb refs s)
    (here : later.count ip = ref) (others : ∀ jp ≠ ip, later.count jp = refs.count jp)
    (fewer : ∀ jp ∈ later, jp ∈ refs) : Cached sb later (s.setRef ip ref) := by
  refine cached.congr cached.sound ?_ fewer ?_ ?_ ?_
  · grind [setRef_inode, cases Cached]
  · intro jp _
    rw [setRef_inode]
    split
    · rename_i same
      rw [same]
    · rfl
  · exact (setRef_steady s ip ref).inum
  · intro jp member
    have before := cached.valid jp (fewer jp member)
    unfold State.Synced at *
    rw [setRef_inode]
    split
    · rename_i same
      subst same
      exact before
    · exact before

/-- Another reference to an entry. -/
theorem Cached.dup {ip : Nat} (cached : Cached sb refs s) (member : ip ∈ refs) :
    Cached sb (ip ::ₘ refs) (s.setRef ip ((s.inode ip).ref + 1)) := by
  refine cached.setRef ?_ ?_ ?_
  all_goals grind [Multiset.count_cons_self, Multiset.count_cons_of_ne, cases Cached]

/-- `idup` adds a reference. -/
theorem idup_ok {ip : Nat} {post : Nat → State → Prop} (cached : Cached sb refs s)
    (member : ip ∈ refs) (continued : ∀ t, Quiet sb refs (ip ::ₘ refs) s t → post ip t) :
    Ok panics (idup ip) post s := by
  simp only [idup, ok_bind, ok_modify, ok_pure]
  exact continued _ ⟨cached.dup member, setRef_steady s ip _, rfl, rfl, rfl⟩

/-- A reference to an entry that had none. -/
theorem Cached.claim (ip : Nat) (inode : Inode) (cached : Cached sb refs s) (fresh : ip ∉ refs)
    (small : ip < nInode) (dev : inode.dev = rootDev) (low : rootIno ≤ inode.inum)
    (high : inode.inum < sb.ninodes) (ref : inode.ref = 1) (valid : inode.valid = false)
    (apart : ∀ jp ∈ refs, (s.inode jp).inum ≠ inode.inum) :
    Cached sb (ip ::ₘ refs) (s.setInode ip inode) := by
  have other : ∀ jp ∈ refs, jp ≠ ip := fun jp member same => fresh (same ▸ member)
  constructor
  · exact cached.sound
  · grind [setInode_inode, Multiset.count_cons_self, Multiset.count_eq_zero,
      Multiset.count_cons_of_ne, cases Cached]
  · grind [cases Cached]
  · grind [setInode_inode, cases Cached]
  · grind [setInode_inode, cases Cached]
  · intro jp member
    unfold State.Synced
    rw [setInode_inode]
    cases Multiset.mem_cons.mp member with
    | inl same =>
      rw [if_pos same, valid]
      exact fun isTrue => absurd isTrue (by decide)
    | inr before =>
      rw [if_neg (other jp before)]
      exact cached.valid jp before

/-- Who holds other inodes sees no change. -/
theorem setInode_steady {ip : Nat} (fresh : ip ∉ refs) (inode : Inode) :
    Steady refs s (s.setInode ip inode) := by
  have other : ∀ jp ∈ refs, (s.setInode ip inode).inode jp = s.inode jp := by
    intro jp member
    have different : jp ≠ ip := fun same => fresh (same ▸ member)
    rw [setInode_inode, if_neg different]
  refine ⟨rfl, rfl, rfl, rfl, ?_, ?_⟩
  · intro jp member
    rw [other jp member]
  · intro jp member valid
    rw [other jp member]
    exact valid

/-- The inode cache has entries for `n` more inodes, or an overflow is expected. -/
def Slots (panics : Panic → Prop) (refs : Multiset Nat) (n : Nat) : Prop :=
  panics .iget ∨ refs.toFinset.card + n ≤ nInode

/-- A full cache may panic. -/
theorem Slots.of_full (full : ∀ error, Panic.Exhausted error → panics error) (refs : Multiset Nat)
    (n : Nat) : Slots panics refs n :=
  .inl (full _ .iget)

/-- One entry was taken. -/
theorem Slots.cons {n ip : Nat} (slots : Slots panics refs (n + 1)) :
    Slots panics (ip ::ₘ refs) n := by
  refine slots.imp_right fun enough => ?_
  have card := card_insert_le ip refs.toFinset
  rw [Multiset.toFinset_cons]
  omega

/-- Fewer entries are needed. -/
theorem Slots.mono {n fewer : Nat} (slots : Slots panics refs n) (less : fewer ≤ n) :
    Slots panics refs fewer :=
  slots.imp_right fun enough => by omega

/-- While there are entries to spare, one is unused. -/
theorem Slots.unused (slots : Slots panics refs 1) (cached : Cached sb refs s)
    (none : ((List.range nInode).find? fun ip => (s.inode ip).ref == 0) = none) : panics .iget := by
  refine slots.resolve_right fun enough => ?_
  have all : Finset.range nInode ⊆ refs.toFinset := by
    intro ip inside
    have used := find?_eq_none.mp none ip (List.mem_range.mpr (Finset.mem_range.mp inside))
    rw [beq_iff_eq] at used
    exact Multiset.mem_toFinset.mpr (cached.mem_of_pos (Nat.pos_of_ne_zero used))
  have card := Finset.card_le_card all
  rw [Finset.card_range] at card
  omega

/-- `iget` finds the inode in the cache, or takes an entry for it. -/
theorem iget_ok {inum : Nat} {post : Nat → State → Prop} (slots : Slots panics refs 1)
    (cached : Cached sb refs s) (low : rootIno ≤ inum) (high : inum < sb.ninodes)
    (continued : ∀ ip t, Quiet sb refs (ip ::ₘ refs) s t → (t.inode ip).inum = inum → post ip t) :
    Ok panics (iget rootDev inum) post s := by
  simp only [iget, ok_bind, ok_get]
  cases found : (List.range nInode).find? fun ip =>
      0 < (s.inode ip).ref && (s.inode ip).dev == rootDev && (s.inode ip).inum == inum with
  | some ip =>
    have matched := find?_some found
    simp only [Bool.and_eq_true, decide_eq_true_eq, beq_iff_eq] at matched
    obtain ⟨⟨positive, _⟩, same⟩ := matched
    simp only [ok_bind, ok_set, ok_pure]
    apply continued ip _
      ⟨cached.dup (cached.mem_of_pos positive), setRef_steady s ip _, rfl, rfl, rfl⟩
    rw [setRef_inode, if_pos rfl]
    exact same
  | none =>
    simp only
    cases unused : (List.range nInode).find? fun ip => (s.inode ip).ref == 0 with
    | none => exact slots.unused cached unused
    | some ip =>
      have zero := find?_some unused
      rw [beq_iff_eq] at zero
      have small := List.mem_range.mp (mem_of_find?_eq_some unused)
      have fresh : ip ∉ refs := by
        intro member
        have := cached.ref_pos member
        omega
      have apart : ∀ jp ∈ refs, (s.inode jp).inum ≠ inum := by
        intro jp member same
        have refused := find?_eq_none.mp found jp
          (List.mem_range.mpr (cached.inside jp member))
        apply refused
        simp [cached.ref_pos member, (cached.inum jp member).1, same]
      simp only [ok_bind, ok_set, ok_pure]
      have claimed := cached.claim ip
        { s.inode ip with dev := rootDev, inum := inum, ref := 1, valid := false } fresh small rfl
        low high rfl rfl apart
      apply continued ip _ ⟨claimed, setInode_steady fresh _, rfl, rfl, rfl⟩
      rw [setInode_inode, if_pos rfl]

/-! ## Locks -/

/-- An entry after `ilock` has read its inode. -/
def State.fill (s : State) (ip : Nat) : State :=
  s.setInode ip { s.inode ip with copy := s.disk.dinode (s.inode ip).inum, valid := true }

/-- The inodes after one was read from the disk. -/
theorem fill_inode (s : State) (ip jp : Nat) : (s.fill ip).inode jp =
    if jp = ip then { s.inode ip with copy := s.disk.dinode (s.inode ip).inum, valid := true }
    else s.inode jp :=
  setInode_inode ..

/-- Reading an inode is no change for who holds it. -/
theorem fill_steady (s : State) (ip : Nat) : Steady refs s (s.fill ip) := by
  refine ⟨rfl, rfl, rfl, rfl, ?_, ?_⟩
  all_goals grind [fill_inode]

/-- Reading an inode keeps the cache in order. -/
theorem Cached.fill {ip : Nat} (cached : Cached sb refs s)
    (used : (s.disk.dinode (s.inode ip).inum).type ≠ .free) : Cached sb refs (s.fill ip) := by
  refine cached.congr cached.sound ?_ (fun _ member => member) ?_ (fill_steady s ip).inum ?_
  · intro jp
    rw [fill_inode]
    split
    · rename_i same
      rw [same]
      exact cached.count ip
    · exact cached.count jp
  · intro jp _
    rw [fill_inode]
    split
    · rename_i same
      rw [same]
    · rfl
  · intro jp member
    have before := cached.valid jp member
    unfold State.Synced at *
    rw [fill_inode]
    split
    · exact fun _ => ⟨rfl, used⟩
    · exact before

section Locks

variable {deadlocks : Nat → Prop} {held : List Nat} {ip : Nat}
  {post : Unit → State → List Nat → Prop} {past : List (List Nat)} {known : Finset Nat} {more : Nat}
  {t : State}

/-- `ilock` reads the inode when it has to, and takes its lock. -/
theorem ilock_wp (cached : Cached sb refs s) (member : ip ∈ refs)
    (missing : (s.disk.dinode (s.inode ip).inum).type = .free → panics .noType)
    (busy : ip ∈ held → deadlocks ip)
    (continued : ip ∉ held → ∀ t, Quiet sb refs refs s t → (t.inode ip).valid = true →
      post () t (ip :: held)) : Wp panics deadlocks (ilock ip) post s held := by
  have filled : (s.disk.dinode (s.inode ip).inum).type ≠ .free → ip ∉ held →
      post () (s.fill ip) (ip :: held) := by
    intro used free
    apply continued free _ ⟨cached.fill used, fill_steady s ip, rfl, rfl, rfl⟩
    rw [fill_inode, if_pos rfl]
  have positive := cached.ref_pos member
  simp only [ilock, acquiresleep, ilockRead, wp_bind, wp_get, wp_ite, wp_ret,
    wp_acquire, wp_liftM, ok_bind, ok_get, ok_ite, ok_set, ok_throw,
    ok_pure]
  rw [if_neg (by omega)]
  by_cases member' : ip ∈ held
  · rw [if_pos member']
    exact busy member'
  · rw [if_neg member']
    cases valid : (s.inode ip).valid with
    | true => exact continued member' s (.refl cached) valid
    | false =>
      rw [if_pos rfl]
      split
      · rename_i unused
        exact missing unused
      · rename_i used
        exact filled used member'

/-- `iunlock` of a lock that is held. -/
theorem iunlock_wp (cached : Cached sb refs s) (member : ip ∈ refs) (locked : ip ∈ held)
    (continued : post () s (held.erase ip)) :
    Wp panics deadlocks (iunlock ip) post s held := by
  have positive := cached.ref_pos member
  grind [iunlock, releasesleep, wp_holding, wp_bind, wp_get, wp_release,
    wp_ret]

/-- What `iput` does to a reference: an inode that it was the last one to and that has no links is
freed. -/
structure Put (sb : Superblock) (refs : Multiset Nat) (ip : Nat) (s t : State) : Prop where
  cached : Cached sb refs t
  steady : Steady refs s t
  disk : if ip ∉ refs ∧ (s.inode ip).valid = true ∧ (s.inode ip).copy.nlink = 0
    then t.disk.node sb = update (s.disk.node sb) (s.inode ip).inum .free
    else t.disk = s.disk
  log : ¬ (ip ∉ refs ∧ (s.inode ip).valid = true ∧ (s.inode ip).copy.nlink = 0) →
    t.lh = s.lh ∧ t.commits = s.commits

/-- A reference is given back. -/
theorem Cached.drop (cached : Cached sb (ip ::ₘ refs) s) :
    Cached sb refs (s.setRef ip ((s.inode ip).ref - 1)) := by
  refine cached.setRef ?_ ?_ fun jp => Multiset.mem_cons_of_mem
  · rw [cached.count, Multiset.count_cons_self, Nat.add_sub_cancel]
  · exact fun jp different => (Multiset.count_cons_of_ne different refs).symm

/-- Freeing an inode keeps the cache in order. -/
theorem Cached.freed (cached : Cached sb refs s) (member : ip ∈ refs) (freed : Freed sb ip s t) :
    Cached sb refs t := by
  have slot : ∀ jp, (t.inode jp).dev = (s.inode jp).dev ∧ (t.inode jp).inum = (s.inode jp).inum ∧
      (t.inode jp).ref = (s.inode jp).ref := by
    intro jp
    by_cases same : jp = ip
    · subst same
      rw [freed.slot]
      exact ⟨rfl, rfl, rfl⟩
    · rw [freed.inode jp same]
      exact ⟨rfl, rfl, rfl⟩
  refine cached.congr (freed.sound cached.sound) ?_ (fun _ member => member) ?_ ?_ ?_
  · intro jp
    rw [(slot jp).2.2]
    exact cached.count jp
  · exact fun jp _ => (slot jp).1
  · exact fun jp _ => (slot jp).2.1
  grind [cases Cached, cases Freed, State.Synced]

/-- Dropping a reference without freeing anything. -/
theorem Put.of_drop (cached : Cached sb (ip ::ₘ refs) s)
    (kept : ¬ (ip ∉ refs ∧ (s.inode ip).valid = true ∧ (s.inode ip).copy.nlink = 0)) :
    Put sb refs ip s (s.setRef ip ((s.inode ip).ref - 1)) := by
  refine ⟨cached.drop, setRef_steady s ip _, ?_, fun _ => ⟨rfl, rfl⟩⟩
  rw [if_neg kept]
  rfl

/-- Dropping the last reference to an inode with no links. -/
theorem Put.of_freed (cached : Cached sb (ip ::ₘ refs) s) (last : ip ∉ refs)
    (valid : (s.inode ip).valid = true) (nlink : (s.inode ip).copy.nlink = 0)
    (freed : Freed sb ip s t) : Put sb refs ip s (t.setRef ip ((t.inode ip).ref - 1)) := by
  have member := Multiset.mem_cons_self ip refs
  have untouched : ∀ jp ∈ refs, t.inode jp = s.inode jp :=
    fun jp other => freed.inode jp fun same => last (same ▸ other)
  refine ⟨(cached.freed member freed).drop, ?_, ?_, fun kept => absurd ⟨last, valid, nlink⟩ kept⟩
  · refine Steady.trans (t := t) ?_ (setRef_steady t ip _)
    constructor <;> grind [cases Freed]
  · rw [if_pos ⟨last, valid, nlink⟩]
    exact freed.node cached.sound

/-- The reference is the last one to an inode without links. -/
def State.Frees (s : State) (refs : Multiset Nat) (ip : Nat) : Prop :=
  ip ∉ refs ∧ (s.inode ip).valid = true ∧ (s.inode ip).copy.nlink = 0

/-- `iput`; the log is needed when the inode is freed. -/
theorem iput_wp (valid : sb.Valid) (cached : Cached sb (ip ::ₘ refs) s) (ledger : s.Frees refs ip →
      Ledger sb panics past known more s ∧ sb.iblock (s.inode ip).inum ∈ known)
    (busy : ip ∈ held → deadlocks ip) (continued : ip ∉ held → ∀ t, Put sb refs ip s t →
      (Ledger sb panics past known more s → Ledger sb panics past known more t) → post () t held) :
    Wp panics deadlocks (iput sb ip) post s held := by
  have member := Multiset.mem_cons_self ip refs
  have single : (s.inode ip).ref = 1 ↔ ip ∉ refs := by
    rw [cached.count, Multiset.count_cons_self, ← Multiset.count_eq_zero]
    omega
  simp only [iput, acquiresleep, releasesleep, acquireIcache, wp_bind, wp_get,
    wp_ite, wp_ret, wp_acquire, wp_liftM, wp_await, wp_release,
    wp_modify, true_and, List.erase_cons_head]
  by_cases locked : ip ∈ held
  · rw [if_pos locked]
    exact busy locked
  · rw [if_neg locked]
    have dropped : ¬ (ip ∉ refs ∧ (s.inode ip).valid = true ∧ (s.inode ip).copy.nlink = 0) →
        post () (s.setRef ip ((s.inode ip).ref - 1)) held :=
      fun kept => continued locked _ (.of_drop cached kept) fun ledger => ledger.congr rfl rfl rfl
    split
    · rename_i unlinked
      split
      · rename_i last
        have synced := (cached.valid ip member unlinked.1).1
        obtain ⟨ledger, here⟩ := ledger ⟨single.mp last, unlinked⟩
        refine iputFree_ok valid ledger here ?_ ?_ ?_
        · rw [synced.view]
          exact cached.sound.owned
        · rw [synced.view]
          exact cached.alloc member unlinked.1
        · intro t freed later
          exact continued locked _ (.of_freed cached (single.mp last) unlinked.1 unlinked.2 freed)
            fun _ => later.congr rfl rfl rfl
      · rename_i shared
        exact dropped fun kept => shared (single.mpr kept.1)
    · rename_i linked
      exact dropped fun kept => linked kept.2

/-- `iunlockput` is `iunlock` and `iput`. -/
theorem iunlockput_wp (valid : sb.Valid) (cached : Cached sb (ip ::ₘ refs) s)
    (ledger : s.Frees refs ip →
      Ledger sb panics past known more s ∧ sb.iblock (s.inode ip).inum ∈ known)
    (locked : ip ∈ held) (once : ip ∉ held.erase ip) (continued : ∀ t, Put sb refs ip s t →
      (Ledger sb panics past known more s → Ledger sb panics past known more t) →
      post () t (held.erase ip)) : Wp panics deadlocks (iunlockput sb ip) post s held := by
  grind [iunlockput, wp_bind, iunlock_wp, iput_wp]

end Locks

/-! ## Changes of one inode -/

/-- What a process does to an inode that it has locked: one node changes. -/
structure Changed (sb : Superblock) (refs : Multiset Nat) (i : Nat) (node : Node) (s t : State) :
    Prop where
  cached : Cached sb refs t
  steady : Steady refs s t
  tree : t.disk.node sb = update (s.disk.node sb) i node

section Change

variable {ip off : Nat} {t : State} {past : List (List Nat)} {known : Finset Nat} {more : Nat}
  {src : List UInt8}

/-- The disk as the cache sees it after a change of a copy. -/
theorem setCopy_view (s : State) (ip : Nat) (copy : Dinode) :
    (s.setCopy ip copy).view ip = s.disk.setDinode (s.inode ip).inum copy := by
  unfold State.view State.setCopy
  rw [setInode_inode, if_pos rfl]
  rfl

/-- A change of one inode's copy is steady. -/
theorem Frame.steady (frame : Frame ip s t) : Steady refs s t := by
  constructor <;> grind [cases Frame]

/-- A change of one inode that reaches the disk keeps the cache in order. -/
theorem Cached.frame (cached : Cached sb refs s) (member : ip ∈ refs) (frame : Frame ip s t)
    (sound : t.disk.Sound sb) (synced : t.Synced ip) (used : (t.inode ip).copy.type ≠ .free) :
    Cached sb refs t := by
  have slot : ∀ jp, (t.inode jp).dev = (s.inode jp).dev ∧
      (t.inode jp).ref = (s.inode jp).ref := by
    intro jp
    by_cases same : jp = ip
    · subst same
      rw [frame.slot]
      exact ⟨rfl, rfl⟩
    · rw [frame.inode jp same]
      exact ⟨rfl, rfl⟩
  refine cached.congr sound ?_ (fun _ member => member) ?_ frame.steady.inum ?_
  all_goals grind [cases Cached, cases Frame, State.Synced]

/-- An inode header is assigned and written to disk. -/
theorem Cached.assign (copy : Dinode) (lh : List Nat) (cached : Cached sb refs s)
    (member : ip ∈ refs) (valid : (s.inode ip).valid = true) (alike : (s.inode ip).copy.Alike copy)
    (result : t = { s.setCopy ip copy with disk := (s.setCopy ip copy).view ip, lh := lh }) :
    Changed sb refs (s.inode ip).inum
      { s.disk.node sb (s.inode ip).inum with nlink := copy.nlink } s t := by
  obtain ⟨synced, used⟩ := cached.valid ip member valid
  have isAlloc := cached.alloc member valid
  have slot : t.inode ip = { s.inode ip with copy := copy } := by
    rw [result]
    exact update_self ..
  have disk : t.disk = s.disk.setDinode (s.inode ip).inum copy := by
    rw [result]
    exact setCopy_view s ip copy
  have frame : Frame ip s t := by
    refine ⟨?_, ?_, ?_, by rw [result]; rfl, by rw [result]; rfl, by rw [result]; rfl,
      by rw [result]; rfl⟩
    · intro jp different
      rw [result]
      exact update_of_ne different ..
    · rw [slot]
    · intro i different
      rw [disk]
      exact update_of_ne different ..
  have same : (s.disk.dinode (s.inode ip).inum).Alike copy := by
    rw [synced]
    exact alike
  refine ⟨cached.frame member frame ?_ ?_ ?_, frame.steady, ?_⟩
  · rw [disk]
    exact cached.sound.alike isAlloc same
  · unfold State.Synced
    rw [slot, disk]
    exact update_self ..
  · rw [slot]
    show copy.type ≠ .free
    rw [alike.type]
    exact used
  · rw [disk]
    exact Disk.node_alike cached.sound isAlloc same

/-- The disk with the links of an inode counted. -/
def Disk.addLink (d : Disk) (i : Nat) (count : Int) : Disk :=
  d.setDinode i { d.dinode i with nlink := short ((d.dinode i).nlink + count) }

/-- A link that is counted and taken back. -/
theorem Disk.addLink_addLink {d : Disk} (range : short (d.dinode i).nlink = (d.dinode i).nlink) :
    (d.addLink i 1).addLink i (-1) = d := by
  have back : short (short ((d.dinode i).nlink + 1) + -1) = (d.dinode i).nlink := by
    unfold short at *
    omega
  have dinode : (d.addLink i 1).dinode i =
      { d.dinode i with nlink := short ((d.dinode i).nlink + 1) } := update_self ..
  rw [addLink, dinode]
  simp only [addLink, setDinode, back, update_idem]
  exact setDinode_self d i

/-- A link count is changed in the copy and on the disk. -/
theorem addLink_ok {count : Int} {post : Unit → State → Prop}
    (ledger : Ledger sb panics past known more s) (here : sb.iblock (s.inode ip).inum ∈ known)
    (cached : Cached sb refs s) (member : ip ∈ refs) (valid : (s.inode ip).valid = true)
    (continued : ∀ t, Changed sb refs (s.inode ip).inum
      { s.disk.node sb (s.inode ip).inum with
        nlink := short ((s.disk.node sb (s.inode ip).inum).nlink + count) } s t →
      t.disk = s.disk.addLink (s.inode ip).inum count →
      Ledger sb panics past known more t → post () t) :
    Ok panics (addLink sb ip count) post s := by
  simp only [addLink, ok_bind, ok_get, ok_set]
  refine iupdate_ok ledger here fun lh later => continued _ ?_ ?_ (later.congr rfl rfl rfl)
  · rw [← cached.copy_nlink member valid]
    exact cached.assign { (s.inode ip).copy with nlink := short ((s.inode ip).copy.nlink + count) }
      lh member valid ⟨rfl, rfl, rfl, short_short _⟩ rfl
  · rw [Disk.addLink, (cached.valid ip member valid).1]
    exact setCopy_view s ip _

/-- A write leaves the type alone. -/
theorem Updated.used (updated : Updated sb ip off src s t) (used : (s.inode ip).copy.type ≠ .free) :
    (t.inode ip).copy.type ≠ .free := by
  rw [updated.fields]
  exact used

/-- A write to a file that is not a directory. -/
theorem Cached.updated_file (cached : Cached sb refs s) (member : ip ∈ refs)
    (valid : (s.inode ip).valid = true) (type : (s.inode ip).copy.type ≠ .dir)
    (updated : Updated sb ip off src s t) :
    Cached sb refs t ∧ Steady refs s t ∧ t.disk.node sb = s.disk.node sb := by
  obtain ⟨synced, used⟩ := cached.valid ip member valid
  have notDir : (s.disk.dinode (s.inode ip).inum).type ≠ .dir := by
    rw [synced]
    exact type
  refine ⟨?_, updated.frame.steady, funext (updated.node_file synced cached.sound notDir)⟩
  exact cached.frame member updated.frame (updated.sound_file synced cached.sound notDir)
    updated.synced (updated.used used)

/-- An entry written to a directory. -/
theorem Cached.updated_dir {k : Nat} {e : Dirent} (valid : sb.Valid) (cached : Cached sb refs s)
    (member : ip ∈ refs) (filled : (s.inode ip).valid = true)
    (type : (s.inode ip).copy.type = .dir) (length : e.name.length = dirSiz)
    (named : e.inum < sb.ninodes) (inside : k ≤ (s.disk.ents (s.inode ip).inum).length)
    (updated : Updated sb ip (direntSize * k) e.encode s t) :
    Changed sb refs (s.inode ip).inum { s.disk.node sb (s.inode ip).inum with
      ents := setEnt (s.disk.node sb (s.inode ip).inum).ents k e } s t := by
  obtain ⟨synced, used⟩ := cached.valid ip member filled
  have isAlloc := cached.alloc member filled
  have isDir : (s.disk.dinode (s.inode ip).inum).type = .dir := by
    rw [synced]
    exact type
  refine ⟨?_, updated.frame.steady, ?_⟩
  · exact cached.frame member updated.frame
      (updated.sound_dir synced cached.sound isAlloc isDir length named valid inside)
      updated.synced (updated.used used)
  · exact updated.node_dir synced cached.sound isAlloc isDir length
      (lt_of_lt_of_le named valid.ninodes) inside

/-- `ialloc` gives out a free inode number. -/
theorem ialloc_ok {type : FileType} {post : Nat → State → Prop} (valid : sb.Valid)
    (ledger : Ledger sb panics past known (more + 1) s) (slots : Slots panics refs 1)
    (inodes : panics .ialloc ∨ ∃ i, rootIno ≤ i ∧ i < sb.ninodes ∧ (s.disk.dinode i).type = .free)
    (cached : Cached sb refs s) (used : type ≠ .free)
    (continued : ∀ ip t, (s.disk.node sb (t.inode ip).inum).kind = .free →
      t.disk.node sb = update (s.disk.node sb) (t.inode ip).inum ⟨type, 0, []⟩ →
      Cached sb (ip ::ₘ refs) t → Steady refs s t → t.disk.bitmap = s.disk.bitmap →
      Ledger sb panics past (insert (sb.iblock (t.inode ip).inum) known) more t → post ip t) :
    Ok panics (ialloc sb rootDev type) post s := by
  simp only [ialloc, ok_bind, ok_get]
  cases found : (List.range' 1 (sb.ninodes - 1)).find?
      fun inum => (s.disk.dinode inum).type == .free with
  | none =>
    refine inodes.resolve_right ?_
    rintro ⟨i, low, high, unused⟩
    have inside : i ∈ List.range' 1 (sb.ninodes - 1) := by
      rw [List.mem_range'_1]
      exact ⟨low, by omega⟩
    exact find?_eq_none.mp found i inside (by rw [unused]; rfl)
  | some i =>
    have unused := find?_some found
    rw [beq_iff_eq] at unused
    have member := mem_of_find?_eq_some found
    rw [List.mem_range'_1] at member
    have inside : rootIno ≤ i ∧ i < sb.ninodes := ⟨member.1, by omega⟩
    simp only [ok_bind, ok_modify]
    have budget : Ledger sb panics past (insert (sb.iblock i) known) more
        (s.setDinode i (.fresh type)) :=
      (ledger.add (sb.iblock i)).congr rfl rfl rfl
    refine logWrite_ok budget (fun _ => Finset.mem_insert_self _ _) fun lh later => ?_
    have fresh : Cached sb refs { s.setDinode i (.fresh type) with lh := lh } := by
      refine cached.congr (cached.sound.fresh valid unused) cached.count (fun _ member => member)
        (fun _ _ => rfl) (fun _ _ => rfl) ?_
      intro jp other filled
      obtain ⟨synced, taken⟩ := cached.valid jp other filled
      have different : (s.inode jp).inum ≠ i := by
        intro same
        rw [← synced, same] at taken
        exact taken unused
      refine ⟨?_, taken⟩
      show update s.disk.dinode i (.fresh type) (s.inode jp).inum = (s.inode jp).copy
      rw [update_of_ne different]
      exact synced
    have free : (s.disk.node sb i).kind = .free := by
      rw [Disk.node, if_neg fun isAlloc => isAlloc.2.2 unused]
      rfl
    apply iget_ok slots fresh inside.1 inside.2
    intro ip t got inum
    apply continued ip t
    · rw [inum]
      exact free
    · rw [inum, got.disk]
      exact Disk.node_fresh cached.sound inside used
    · exact got.cached
    · have steady := got.steady
      exact ⟨steady.file, steady.pipe, steady.proc, steady.outstanding, steady.inum, steady.valid⟩
    · rw [got.disk]
      rfl
    · rw [inum]
      exact got.ledger later

end Change

/-! ## Inodes without links -/

/-- Every inode that has no links is referenced, through an entry that is valid. -/
def Kept (sb : Superblock) (refs : Multiset Nat) (s : State) : Prop :=
  ∀ i, (s.disk.node sb i).kind ≠ .free → (s.disk.node sb i).nlink = 0 →
    ∃ ip ∈ refs, (s.inode ip).inum = i ∧ (s.inode ip).valid = true

section Kept

variable {ip : Nat} {t : State} {more : Multiset Nat} {post : Unit → State → List Nat → Prop}

section

variable (kept : Kept sb refs s)

include kept

/-- More references keep as much. -/
theorem Kept.mono (fewer : ∀ ip ∈ refs, ip ∈ more) : Kept sb more s := by
  intro i used nlink
  obtain ⟨ip, member, rest⟩ := kept i used nlink
  exact ⟨ip, fewer ip member, rest⟩

/-- A further reference keeps as much. -/
theorem Kept.cons : Kept sb (ip ::ₘ refs) s :=
  kept.mono fun _ => Multiset.mem_cons_of_mem

/-- Nothing is lost while no node changes. -/
theorem Kept.steady (steady : Steady refs s t) (tree : t.disk.node sb = s.disk.node sb) :
    Kept sb refs t := by
  intro i used nlink
  rw [tree] at used nlink
  grind [cases Steady, Kept]

/-- A quiet stretch loses nothing. -/
theorem Kept.quiet (quiet : Quiet sb refs more s t) : Kept sb refs t :=
  kept.steady quiet.steady (by rw [quiet.disk])

/-- Nothing is lost by a change of a node that is held, or that has links. -/
theorem Kept.changed {node : Node} (changed : Changed sb refs i node s t)
    (locked : node.nlink = 0 → ∃ ip ∈ refs, (s.inode ip).inum = i ∧ (s.inode ip).valid = true) :
    Kept sb refs t := by
  intro n used nlink
  have source : ∃ ip ∈ refs, (s.inode ip).inum = n ∧ (s.inode ip).valid = true := by
    rw [changed.tree] at used nlink
    by_cases here : n = i
    · subst here
      rw [update_self] at nlink
      exact locked nlink
    · rw [update_of_ne here] at used nlink
      exact kept n used nlink
  obtain ⟨ip, member, inum, valid⟩ := source
  exact ⟨ip, member, (changed.steady.inum ip member).trans inum,
    changed.steady.valid ip member valid⟩

end

/-- An inode whose only reference is dropped has links, or is freed. -/
theorem Kept.put (kept : Kept sb (ip ::ₘ refs) s) (cached : Cached sb (ip ::ₘ refs) s)
    (put : Put sb refs ip s t) : Kept sb refs t := by
  have member := Multiset.mem_cons_self ip refs
  intro i used nlink
  have disk := put.disk
  -- the entry that kept the inode is still there unless it is the one that is dropped
  have carried : (s.disk.node sb i).kind ≠ .free → (s.disk.node sb i).nlink = 0 →
      (∃ jp ∈ refs, (t.inode jp).inum = i ∧ (t.inode jp).valid = true) ∨
        ip ∉ refs ∧ (s.inode ip).inum = i ∧ (s.inode ip).valid = true := by
    intro used nlink
    obtain ⟨jp, among, inum, valid⟩ := kept i used nlink
    by_cases stays : jp ∈ refs
    · exact .inl ⟨jp, stays, (put.steady.inum jp stays).trans inum,
        put.steady.valid jp stays valid⟩
    · grind
  split at disk
  · rename_i last
    rw [disk] at used nlink
    by_cases here : i = (s.inode ip).inum
    · subst here
      rw [update_self] at used
      exact absurd rfl used
    grind
  · rename_i linked
    rw [disk] at used nlink
    cases carried used nlink with
    | inl found => exact found
    | inr gone =>
      refine absurd ⟨gone.1, gone.2.2, ?_⟩ linked
      rw [cached.copy_nlink member gone.2.2, gone.2.1]
      exact nlink

/-- Dropping a reference frees nothing when the inodes without links are kept by others. -/
theorem Kept.not_frees (kept : Kept sb refs s) (cached : Cached sb (ip ::ₘ refs) s) :
    ¬ s.Frees refs ip := by
  rintro ⟨last, valid, nlink⟩
  have member := Multiset.mem_cons_self ip refs
  rw [cached.copy_nlink member valid] at nlink
  have used := Disk.node_alloc (cached.alloc member valid)
  grind [cases Cached, Kept]

/-- An `iput` that frees nothing is quiet. -/
theorem Put.quiet (put : Put sb refs ip s t) (cached : Cached sb (ip ::ₘ refs) s)
    (kept : Kept sb refs s) : Quiet sb refs refs s t := by
  have stays := kept.not_frees cached
  have disk := put.disk
  rw [if_neg] at disk
  · exact ⟨put.cached, put.steady, disk, (put.log stays).1, (put.log stays).2⟩
  · exact stays

variable {deadlocks : Nat → Prop} {held : List Nat}

/-- `iput` of a reference that is not the last one to an inode without links. -/
theorem iput_quiet (valid : sb.Valid) (cached : Cached sb (ip ::ₘ refs) s) (kept : Kept sb refs s)
    (busy : ip ∈ held → deadlocks ip)
    (continued : ip ∉ held → ∀ t, Quiet sb refs refs s t → post () t held) :
    Wp panics deadlocks (iput sb ip) post s held := by
  have unneeded : s.Frees refs ip → Ledger sb panics [] ∅ 0 s ∧
      sb.iblock (s.inode ip).inum ∈ (∅ : Finset Nat) :=
    fun frees => absurd frees (kept.not_frees cached)
  apply iput_wp valid cached unneeded busy
  exact fun free t put _ => continued free t (put.quiet cached kept)

/-- `iunlockput` of such a reference, to the inode that was locked last. -/
theorem iunlockput_quiet (valid : sb.Valid) (cached : Cached sb (ip ::ₘ refs) s)
    (kept : Kept sb refs s) (once : ip ∉ held)
    (continued : ∀ t, Quiet sb refs refs s t → post () t held) :
    Wp panics deadlocks (iunlockput sb ip) post s (ip :: held) := by
  grind [iunlockput, wp_bind, iunlock_wp, iput_quiet]

end Kept

end Rules

end Xv6.Fs
