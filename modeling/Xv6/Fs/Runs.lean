import Xv6.Fs.Calls
import Xv6.Lib.Run

/-!
# Runs of completed calls

Processes make calls one after the other, each of which completes before the next begins. A run
starts when the first process has opened the root directory of an image. `reached_atRest` is the
law of every state reached; that no block is lost or owned twice is part of it.
-/

namespace Xv6.Fs

open Lib Prog Multiset Finset

/-- A process makes a call when it exists; `fork` is given a process that does not, `pipe` a page
that holds no pipe. -/
def Call.ready (s : State) (p : Nat) : Call → Bool
  | .fork (some child) => p < nProc && (s.proc p).live && (child < nProc && !(s.proc child).live)
  | .pipe (some q) =>
    p < nProc && (s.proc p).live && (!(s.pipe q).readopen && !(s.pipe q).writeopen)
  | _ => p < nProc && (s.proc p).live

/-- A call of a process that completes. -/
def callStep (sb : Superblock) (s : State) : Nat × Call → Option State
  | (p, call) =>
    if call.ready s p then
      match (syscall sb p call).run s [] with
      | .done _ t [] => some t
      | _ => none
    else none

/-- The states that completed calls lead to. -/
abbrev Reached (sb : Superblock) (start t : State) : Prop :=
  Reach (callStep sb) (fun _ _ => True) start t

/-- The first process with the root as its current directory. -/
def boot (d : Disk) : State where
  disk := d
  inode ip := if ip = 0 then ⟨rootDev, rootIno, 1, false, .fresh .free⟩
    else ⟨0, 0, 0, false, .fresh .free⟩
  file _ := ⟨.none, 0, false, false, 0, 0, 0⟩
  pipe _ := ⟨false, false⟩
  proc p := ⟨p = initproc, 0, fun _ => none⟩
  outstanding := 0
  lh := []
  commits := []

/-- What a run needs of the image. -/
structure Image (sb : Superblock) (d : Disk) : Prop where
  sound : d.Sound sb
  root : (d.node sb rootIno).kind = .dir
  linked : ∀ i, (d.node sb i).kind ≠ .free → (d.node sb i).nlink ≠ 0

/-- The superblock that `mkfs` writes. -/
def mkfsSuper : Superblock := ⟨1000, 941, 200, 30, 2, 32, 58⟩

/-- The block of the root directory that `mkfs` writes. -/
def mkfsRoot : Block :=
  (Block.zero.store 0 (Dirent.encode ⟨rootIno, strncpy dot dirSiz⟩)).store direntSize
    (Dirent.encode ⟨rootIno, strncpy dotdot dirSiz⟩)

/-- The image that `mkfs` makes when it is given no files. -/
def mkfsDisk : Disk where
  dinode i := if i = rootIno then ⟨.dir, 0, 0, 1, bSize, fun k => if k = 0 then 59 else 0⟩
    else .fresh .free
  bitmap b := b < 60
  block b := if b = 59 then mkfsRoot else Block.zero

theorem mkfsSuper_valid : mkfsSuper.Valid := ⟨by decide, by decide, by decide, by decide⟩

theorem mkfsDisk_alloc {i : Nat} (isAlloc : mkfsDisk.Alloc mkfsSuper i) : i = rootIno := by
  by_contra other
  apply isAlloc.2.2
  show (if i = rootIno then _ else _ : Dinode).type = .free
  rw [if_neg other]
  rfl

theorem mkfsDisk_addr {k : Nat} (present : mkfsDisk.addr rootIno k ≠ 0) :
    k = 0 ∧ mkfsDisk.addr rootIno k = 59 := by
  by_cases first : k = 0
  · rw [first]
    exact ⟨rfl, rfl⟩
  · refine absurd ?_ present
    unfold Disk.addr
    split
    · show (if k = 0 then 59 else 0) = 0
      rw [if_neg first]
    · rfl

theorem mkfs_owned : Owned mkfsSuper mkfsDisk := by
  constructor
  · intro i k isAlloc _ present
    obtain rfl := mkfsDisk_alloc isAlloc
    rw [(mkfsDisk_addr present).2]
    exact ⟨⟨by decide, by decide⟩, by decide⟩
  · grind [mkfsDisk_alloc, mkfsDisk_addr]
  · intro b data marked
    have below : b < 60 := of_decide_eq_true marked
    have above : 59 ≤ b := data.1
    obtain rfl : b = 59 := by omega
    exact ⟨rootIno, 0, ⟨by decide, by decide, by decide⟩, by decide, rfl⟩
  · intro b low
    have below : b < 59 := low
    exact decide_eq_true (by omega)

/-- What `mkfs` makes is an image to start from. -/
theorem mkfs_image : Image mkfsSuper mkfsDisk := by
  refine ⟨⟨mkfs_owned, ?_, ?_, ?_, ?_⟩, by decide, ?_⟩
  · intro i isAlloc
    obtain rfl := mkfsDisk_alloc isAlloc
    refine ⟨by decide, ?_⟩
    intro o inside
    have small : o < bSize := inside
    rw [Nat.div_eq_of_lt small]
    show mkfsDisk.addr rootIno (place 0) ≠ 0
    decide
  · intro i isAlloc
    obtain rfl := mkfsDisk_alloc isAlloc
    decide
  · intro i isAlloc _
    obtain rfl := mkfsDisk_alloc isAlloc
    decide
  · intro i isAlloc isDir
    obtain rfl := mkfsDisk_alloc isAlloc
    decide +kernel
  · intro i used
    obtain rfl := mkfsDisk_alloc (Disk.alloc_of_node used)
    decide

/-- The call is a link under a name by which a directory finds itself. -/
def Call.LinksSelf (tree : Nat → Node) (cwd : Nat) (call : Call) : Prop :=
  ∃ old new, call = .link old new ∧ SelfLink tree cwd old new

section

variable {sb : Superblock} {panics : Panic → Prop} {deadlocks : Nat → Prop} {s t : State} {p : Nat}
  {call : Call} {post : Int → State → List Nat → Prop} {d : Disk}

theorem Call.inside_of_ready (ready : call.ready s p = true) :
    p < nProc ∧ (s.proc p).live = true := by
  cases call with
  | fork child => cases child <;> simp_all [Call.ready]
  | pipe page => cases page <;> simp_all [Call.ready]
  | _ => simp_all [Call.ready]

theorem Call.page_of_ready {page : Option Nat} (ready : (Call.pipe page).ready s p = true) :
    ∀ q, page = some q → (s.pipe q).readopen = false ∧ (s.pipe q).writeopen = false := by
  rintro q rfl
  simp_all [Call.ready]

theorem Call.child_of_ready {child : Nat} (ready : (Call.fork (some child)).ready s p = true) :
    child < nProc ∧ (s.proc child).live = false := by
  simp_all [Call.ready]

/-- The calls that enter a new name, with its path. -/
def Call.Enters : Call → List UInt8 → Prop
  | .open path omode, other => other = path ∧ omode &&& oCreate ≠ 0
  | .mkdir path, other => other = path
  | .mknod path _ _, other => other = path
  | .link _ new, other => other = new
  | _, _ => False

/-- Every call between two states at rest. -/
theorem syscall_rest {more : Nat} (means : Means sb panics more) (valid : sb.Valid)
    (room : ∀ path, call.Enters path →
      RoomFor panics (s.disk.node sb) (s.cwdOf p) path) (rest : AtRest sb s)
    (ready : call.ready s p = true) (typed : Typed sb panics (s.cwdOf p) s)
    (counted : panics .nlink) (isInit : panics .initExiting)
    (loops : (∀ ip, deadlocks ip) ∨ NoSelf (s.disk.node sb))
    (busy : call.LinksSelf (s.disk.node sb) (s.cwdOf p) → ∀ ip, deadlocks ip)
    (continued : ∀ r t, Served sb panics more p call s r t → post r t []) :
    Wp panics deadlocks (syscall sb p call) post s [] := by
  obtain ⟨inside, live⟩ := Call.inside_of_ready ready
  cases call with
  | «open» path omode =>
    exact open_rest means valid rest inside live (fun creates => room path ⟨rfl, creates⟩) typed
      fun r t served _ => continued r t served
  | close fd => exact close_rest means valid rest inside live continued
  | dup fd => exact dup_rest rest inside live continued
  | read fd n device => exact read_rest rest inside live continued
  | write fd src taken => exact write_rest means valid rest inside live continued
  | pipe page => exact pipe_rest means valid rest inside live (Call.page_of_ready ready) continued
  | link old new =>
    exact link_rest means valid (room new rfl) rest inside live typed
      (fun self => busy ⟨old, new, rfl, self⟩) continued
  | unlink path => exact unlink_rest means valid rest inside live typed counted loops continued
  | mkdir path =>
    have concerns : (Call.mkdir path).Creates path .dir := ⟨rfl, rfl⟩
    exact makeNode_rest means valid (room path rfl) rest inside live typed (by decide) concerns
      continued
  | mknod path major minor =>
    have concerns : (Call.mknod path major minor).Creates path .dev := ⟨rfl, rfl⟩
    exact makeNode_rest means valid (room path rfl) rest inside live typed (by decide) concerns
      continued
  | chdir path => exact chdir_rest means valid rest inside live typed continued
  | exec path reads result => exact exec_rest means valid rest inside live typed continued
  | fork child =>
    cases child with
    | none => exact continued _ s (.same _ rest id)
    | some child =>
      obtain ⟨new, unused⟩ := Call.child_of_ready ready
      exact fork_rest rest inside live new unused continued
  | exit => exact exit_rest means valid rest inside live (fun _ => isInit) continued

/-- Every call between two states at rest, when whatever it uses may run out. -/
theorem syscall_full (full : ∀ error, Panic.Exhausted error → panics error) (valid : sb.Valid)
    (rest : AtRest sb s) (ready : call.ready s p = true)
    (typed : Typed sb panics (s.cwdOf p) s) (counted : panics .nlink)
    (isInit : panics .initExiting) (loops : (∀ ip, deadlocks ip) ∨ NoSelf (s.disk.node sb))
    (busy : call.LinksSelf (s.disk.node sb) (s.cwdOf p) → ∀ ip, deadlocks ip)
    (continued : ∀ r t, Served sb panics 0 p call s r t → post r t []) :
    Wp panics deadlocks (syscall sb p call) post s [] :=
  syscall_rest (.of_full full 0) valid (fun _ _ _ _ _ _ => .inl (full _ .dirlink)) rest ready typed
    counted isInit loops busy continued

/-- The panics that calls can end in, whatever the names in the image are. -/
inductive Panic.Possible : Panic → Prop where
  | exhausted {error : Panic} (exhausted : error.Exhausted) : Possible error
  | noType : Possible .noType
  | nlink : Possible .nlink
  | initExiting : Possible .initExiting

/-- What a call of any kind comes to when nothing is known of the names. -/
theorem syscall_wp (valid : sb.Valid) (rest : AtRest sb s) (ready : call.ready s p = true) :
    Wp Panic.Possible (fun _ => True) (syscall sb p call)
      (fun _ t held => held = [] ∧ AtRest sb t ∧ Effect sb p call s t) s [] := by
  apply syscall_full (fun _ => .exhausted) valid rest ready (.inl .noType) .nlink .initExiting
    (.inl fun _ => trivial) (fun _ _ => trivial)
  exact fun _ t served => ⟨rfl, served.rest, served.effect⟩

/-- A completed call leads from rest to rest. -/
theorem callStep_rest (valid : sb.Valid) (rest : AtRest sb s) {event : Nat × Call}
    (moves : callStep sb s event = some t) : AtRest sb t ∧ Effect sb event.1 event.2 s t := by
  obtain ⟨p, call⟩ := event
  rw [callStep] at moves
  split at moves
  · rename_i ready
    have wp := syscall_wp valid rest ready
    grind [Wp]
  · contradiction

theorem boot_cwds (d : Disk) : (boot d).cwds = {0} := by
  unfold State.cwds tally
  rw [sum_eq_single initproc]
  · rfl
  · intro p _ other
    rw [Proc.cwds, if_neg]
    simpa [boot] using other
  · exact fun absent => absurd (Finset.mem_range.mpr (by decide)) absent

theorem boot_fds (d : Disk) : (boot d).fds = 0 := by
  unfold State.fds tally
  apply Finset.sum_eq_zero
  intro p _
  rw [Proc.fds]
  split
  · unfold tally
    apply Finset.sum_eq_zero
    exact fun _ _ => rfl
  · rfl

theorem boot_opens (d : Disk) : (boot d).opens = 0 := by
  unfold State.opens tally
  apply Finset.sum_eq_zero
  exact fun _ _ => rfl

theorem boot_ends (d : Disk) : (boot d).ends = 0 := by
  unfold State.ends tally
  apply Finset.sum_eq_zero
  exact fun _ _ => rfl

theorem boot_inode (d : Disk) (ip : Nat) : ((boot d).inode ip).ref = ({0} : Multiset Nat).count ip ∧
    ((boot d).inode ip).valid = false := by
  rw [Multiset.count_singleton]
  simp only [boot]
  split <;> exact ⟨rfl, rfl⟩

theorem boot_rest (valid : sb.Valid) (image : Image sb d) : AtRest sb (boot d) := by
  have low : rootIno < sb.ninodes := valid.root
  have only : ∀ ip ∈ ({0} : Multiset Nat), ip = 0 := fun ip => Multiset.mem_singleton.mp
  have users : (boot d).cwds + (boot d).opens = {0} := by
    rw [boot_cwds, boot_opens, Multiset.add_zero]
  refine ⟨⟨?_, ?_, ?_, ?_, ?_, ?_, ?_, ?_, ?_⟩, ⟨rfl, rfl⟩, fun _ _ _ _ => rfl, ?_⟩
  · rw [users]
    refine ⟨image.sound, fun ip => (boot_inode d ip).1, ?_, ?_, ?_, ?_⟩
    · intro ip member
      rw [only ip member]
      decide
    · intro ip member
      rw [only ip member]
      exact ⟨rfl, le_rfl, low⟩
    all_goals grind [boot_inode]
  · exact fun i used nlink => absurd nlink (image.linked i used)
  · rw [users]
    intro ip member
    rw [only ip member]
    show (d.node sb rootIno).kind ≠ .free
    rw [image.root]
    decide
  · intro f
    rw [boot_fds, count_zero]
    rfl
  · rw [boot_fds]
    exact fun f member => absurd member (notMem_zero f)
  · rw [boot_fds]
    exact fun f member => absurd member (notMem_zero f)
  · exact fun f _ => rfl
  · rw [boot_fds]
    exact fun f member => absurd member (notMem_zero f)
  · intro q writable
    rw [boot_ends, count_zero]
    cases writable <;> rfl
  · rw [boot_cwds]
    intro ip member
    rw [only ip member]
    exact image.root

/-- The law of every state that completed calls lead to. -/
theorem reached_atRest {allowed : State → Nat × Call → Prop} (valid : sb.Valid)
    (image : Image sb d) (reached : Reach (callStep sb) allowed (boot d) s) : AtRest sb s :=
  reached.invariant (AtRest sb) (boot_rest valid image)
    fun _ _ _ rest _ moves => (callStep_rest valid rest moves).1

/-- In every state that completed calls lead to, each block number stored in an allocated inode or
its indirect block is a data block marked in use, stands in one place only, and every data block
marked in use stands in one; no call then frees a free block. -/
theorem block_ownership (valid : sb.Valid) {d : Disk} (image : Image sb d)
    (reached : Reached sb (boot d) s) :
    Owned sb s.disk ∧
      ∀ p call, call.ready s p = true → (syscall sb p call).run s [] ≠ .panic .freeingFree := by
  have rest := reached_atRest valid image reached
  refine ⟨rest.cached.sound.owned, ?_⟩
  intro p call ready panicked
  have wp := syscall_wp valid rest ready
  rw [Wp, panicked] at wp
  cases wp with
  | exhausted exhausted => cases exhausted

/-- A file is created, written, unlinked while it is open and closed. -/
theorem block_ownership_mkfs : ∃ s, Reached mkfsSuper (boot mkfsDisk) s ∧
    s.disk.bitmap 60 = false ∧ Owned mkfsSuper s.disk ∧
    ∀ p call, call.ready s p = true →
      (syscall mkfsSuper p call).run s [] ≠ .panic .freeingFree := by
  obtain ⟨s, reached, freed⟩ : ∃ s, Reached mkfsSuper (boot mkfsDisk) s ∧
      s.disk.bitmap 60 = false :=
    exists_reach [(1, .open [97] (oCreate ||| oRdwr)), (1, .write 0 [104, 105] true),
      (1, .unlink [97]), (1, .close 0)] (by decide +kernel)
  exact ⟨s, reached, freed, block_ownership mkfsSuper_valid mkfs_image reached⟩

/-! ## Reference counts -/

/-- The descriptors that refer to an open file. -/
def State.slots (s : State) (f : Nat) : Finset (Nat × Nat) :=
  (Finset.range nProc ×ˢ Finset.range nOFile).filter fun (p, fd) => (s.proc p).ofile fd = some f

/-- The open files that refer to a cached inode. -/
def State.openFiles (s : State) (ip : Nat) : Finset Nat :=
  (Finset.range nFile).filter fun f =>
    0 < (s.file f).ref ∧ (s.file f).kind = .inode ∧ (s.file f).ip = ip

/-- The processes whose current directory a cached inode is. -/
def State.workers (s : State) (ip : Nat) : Finset Nat :=
  (Finset.range nProc).filter fun p => (s.proc p).live = true ∧ (s.proc p).cwd = ip

/-- An open file for an end of a pipe. -/
def State.HasEnd (s : State) (q : Nat) (writable : Bool) : Prop :=
  ∃ f < nFile, 0 < (s.file f).ref ∧ (s.file f).kind = .pipe ∧ (s.file f).pipe = q ∧
    (s.file f).writable = writable

theorem count_heldBy (file : Option Nat) (f : Nat) :
    (heldBy file).count f = if file = some f then 1 else 0 := by
  cases file with
  | none => rfl
  | some g =>
    rw [heldBy, Option.elim_some, Multiset.count_singleton]
    simp only [Option.some.injEq, eq_comm]

/-- Only processes that exist have descriptors, so that all slots can be counted. -/
theorem Vacant.count_fds (vacant : Vacant s.proc) (f : Nat) : s.fds.count f = (s.slots f).card := by
  unfold State.fds State.slots
  rw [count_tally, card_filter, sum_product]
  apply sum_congr rfl
  grind [Proc.fds, count_tally, count_heldBy, count_zero, Finset.sum_eq_zero, Vacant]

theorem count_opens (s : State) (ip : Nat) : s.opens.count ip = (s.openFiles ip).card := by
  apply count_tally_eq_card
  grind [File.inodes, Multiset.count_singleton, count_zero]

theorem count_cwds (s : State) (ip : Nat) : s.cwds.count ip = (s.workers ip).card := by
  apply count_tally_eq_card
  grind [Proc.cwds, Multiset.count_singleton, count_zero]

theorem Counted.hasEnd {others names : Multiset Nat} (counted : Counted sb others names s)
    (q : Nat) (writable : Bool) : (s.pipe q).isOpen writable = true ↔ s.HasEnd q writable := by
  have law := counted.pipes q writable
  have held : (q, writable) ∈ s.ends ↔ s.HasEnd q writable := by
    unfold State.ends State.HasEnd
    rw [mem_tally]
    refine exists_congr fun f => and_congr_right fun _ => ?_
    unfold File.ends
    split
    · rename_i isPipe
      rw [Multiset.mem_singleton, Prod.mk.injEq]
      simp only [isPipe, true_and, eq_comm]
    · rename_i other
      simp only [notMem_zero, false_iff]
      exact fun holds => other ⟨holds.1, holds.2.1⟩
  rw [← held, ← count_pos, law]
  cases (s.pipe q).isOpen writable <;> decide

/-- In every state that completed calls lead to, the count of an open file is the number of
descriptors that refer to it, the count of a cached inode is the number of open files and of
current directories that refer to it, an unused file has no type, and an end of a pipe is open
exactly while an open file is for it. -/
theorem reference_counts (valid : sb.Valid) {d : Disk} (image : Image sb d)
    (reached : Reached sb (boot d) s) :
    (∀ f, (s.file f).ref = (s.slots f).card) ∧
    (∀ ip, (s.inode ip).ref = (s.openFiles ip).card + (s.workers ip).card) ∧
    (∀ f, (s.file f).ref = 0 → (s.file f).kind = .none) ∧
    ∀ q, ((s.pipe q).readopen = true ↔ s.HasEnd q false) ∧
      ((s.pipe q).writeopen = true ↔ s.HasEnd q true) := by
  have rest := reached_atRest valid image reached
  refine ⟨?_, ?_, rest.counted.closed, ?_⟩
  · intro f
    rw [rest.counted.count, rest.vacant.count_fds]
  · intro ip
    rw [rest.cached.count, State.users, count_add, count_opens, count_cwds, add_comm]
  · exact fun q => ⟨rest.counted.hasEnd q false, rest.counted.hasEnd q true⟩

/-- A process makes a pipe and another process, which closes the read end. -/
theorem reference_counts_mkfs : ∃ s, Reached mkfsSuper (boot mkfsDisk) s ∧
    ((s.file 0).ref = 1 ∧ (s.file 1).ref = 2 ∧ (s.inode 0).ref = 2 ∧
      (s.pipe 7).readopen = true) ∧
    (∀ f, (s.file f).ref = (s.slots f).card) ∧
    (∀ ip, (s.inode ip).ref = (s.openFiles ip).card + (s.workers ip).card) ∧
    (∀ f, (s.file f).ref = 0 → (s.file f).kind = .none) ∧
    ∀ q, ((s.pipe q).readopen = true ↔ s.HasEnd q false) ∧
      ((s.pipe q).writeopen = true ↔ s.HasEnd q true) := by
  obtain ⟨s, reached, counts⟩ : ∃ s, Reached mkfsSuper (boot mkfsDisk) s ∧
      ((s.file 0).ref = 1 ∧ (s.file 1).ref = 2 ∧ (s.inode 0).ref = 2 ∧
        (s.pipe 7).readopen = true) :=
    exists_reach [(1, .pipe (some 7)), (1, .fork (some 2)), (2, .close 0)] (by decide +kernel)
  exact ⟨s, reached, counts, reference_counts mkfsSuper_valid mkfs_image reached⟩

/-- In every state that completed calls lead to, no two entries of the inode cache in use stand for
one inode, and an entry that has been read is a copy of an allocated inode of the disk. -/
theorem inode_cache_coherent (valid : sb.Valid) {d : Disk} (image : Image sb d)
    (reached : Reached sb (boot d) s) {ip : Nat} (used : 0 < (s.inode ip).ref) :
    (∀ jp, 0 < (s.inode jp).ref → (s.inode jp).inum = (s.inode ip).inum → jp = ip) ∧
    ((s.inode ip).valid = true → s.Synced ip ∧ (s.inode ip).copy.type ≠ .free) := by
  have cached := (reached_atRest valid image reached).cached
  have member := cached.mem_of_pos used
  exact ⟨fun jp also => cached.once jp (cached.mem_of_pos also) ip member, cached.valid ip member⟩

/-- A file is open. -/
theorem inode_cache_coherent_mkfs : ∃ s, Reached mkfsSuper (boot mkfsDisk) s ∧
    (s.inode 1).valid = true ∧ s.Synced 1 := by
  obtain ⟨s, reached, used, read⟩ : ∃ s, Reached mkfsSuper (boot mkfsDisk) s ∧
      0 < (s.inode 1).ref ∧ (s.inode 1).valid = true :=
    exists_reach [(1, .open [97] (oCreate ||| oRdwr))] (by decide +kernel)
  have coherent := inode_cache_coherent mkfsSuper_valid mkfs_image reached used
  exact ⟨s, reached, read, (coherent.2 read).1⟩

end

end Xv6.Fs
