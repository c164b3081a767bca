import Xv6.Fs.Links
import Xv6.Lib.Tally

/-!
# Files and processes

The references that the file table and the processes hold. `Counted` says that the counts in the
inode cache and in the file table are those references; `World` is what is left of a state when
only the nodes and the inodes in use are looked at.
-/

namespace Xv6.Fs

open Lib Prog Act Multiset Function List

/-! ## References -/

/-- The reference that a descriptor holds. -/
def heldBy (ofile : Option Nat) : Multiset Nat := ofile.elim 0 fun f => {f}

/-- The reference that an open file holds. -/
def File.inodes (file : File) : Multiset Nat :=
  if 0 < file.ref ∧ file.kind = .inode then {file.ip} else 0

/-- The end of a pipe that an open file holds. -/
def File.ends (file : File) : Multiset (Nat × Bool) :=
  if 0 < file.ref ∧ file.kind = .pipe then {(file.pipe, file.writable)} else 0

namespace Proc

/-- The reference of a process to its current directory. -/
def cwds (proc : Proc) : Multiset Nat := if proc.live then {proc.cwd} else 0

/-- The references of a process to open files. -/
def fds (proc : Proc) : Multiset Nat := if proc.live then tally nOFile heldBy proc.ofile else 0

end Proc

namespace State

/-- The references of all processes to their current directories. -/
def cwds (s : State) : Multiset Nat := tally nProc Proc.cwds s.proc

/-- The references of all processes to open files. -/
def fds (s : State) : Multiset Nat := tally nProc Proc.fds s.proc

/-- The references of all open files. -/
def opens (s : State) : Multiset Nat := tally nFile File.inodes s.file

/-- The ends of pipes that open files hold. -/
def ends (s : State) : Multiset (Nat × Bool) := tally nFile File.ends s.file

end State

/-- The references to inodes are the listed ones and those of the open files; the references to
open files are the listed ones; an end of a pipe is open when one file holds it. -/
structure Counted (sb : Superblock) (others names : Multiset Nat) (s : State) : Prop where
  cached : Cached sb (others + s.opens) s
  kept : Kept sb (others + s.opens) s
  live : ∀ ip ∈ others + s.opens, (s.disk.node sb (s.inode ip).inum).kind ≠ .free
  count : ∀ f, (s.file f).ref = names.count f
  inside : ∀ f ∈ names, f < nFile
  kind : ∀ f ∈ names, (s.file f).kind ≠ .none
  closed : ∀ f, (s.file f).ref = 0 → (s.file f).kind = .none
  writable : ∀ f ∈ names, (s.file f).kind = .inode → (s.file f).writable = true →
    (s.disk.node sb (s.inode (s.file f).ip).inum).kind ≠ .dir
  pipes : ∀ q writable, s.ends.count (q, writable) = ((s.pipe q).isOpen writable).toNat

namespace Counted

variable {sb : Superblock} {others later names : Multiset Nat} {s t : State} {f : Nat}
  (counted : Counted sb others names s)

include counted

theorem ref_pos (member : f ∈ names) : 0 < (s.file f).ref := by
  rw [counted.count]
  exact count_pos.mpr member

/-- The inode of an open file is referenced. -/
theorem mem_opens (member : f ∈ names) (isInode : (s.file f).kind = .inode) :
    (s.file f).ip ∈ s.opens := by
  rw [State.opens, mem_tally]
  refine ⟨f, counted.inside f member, ?_⟩
  rw [File.inodes, if_pos ⟨counted.ref_pos member, isInode⟩]
  exact Multiset.mem_singleton_self _

/-- Work that leaves the tables and the kinds of the inodes in use. -/
theorem after (cached : Cached sb (later + t.opens) t) (kept : Kept sb (later + t.opens) t)
    (file : t.file = s.file) (pipe : t.pipe = s.pipe)
    (inum : ∀ ip ∈ s.opens, (t.inode ip).inum = (s.inode ip).inum)
    (kind : ∀ ip ∈ s.opens, (t.disk.node sb (s.inode ip).inum).kind =
      (s.disk.node sb (s.inode ip).inum).kind)
    (live : ∀ ip ∈ later, (t.disk.node sb (t.inode ip).inum).kind ≠ .free) :
    Counted sb later names t := by
  have opens : t.opens = s.opens := by
    unfold State.opens
    rw [file]
  have ends : t.ends = s.ends := by
    unfold State.ends
    rw [file]
  refine ⟨cached, kept, ?_, by rw [file]; exact counted.count, counted.inside,
    by rw [file]; exact counted.kind, by rw [file]; exact counted.closed, ?_,
    by rw [ends, pipe]; exact counted.pipes⟩
  · grind [cases Counted]
  · intro f member
    rw [file]
    intro isInode
    have isOpen := counted.mem_opens member isInode
    rw [inum _ isOpen, kind _ isOpen]
    exact counted.writable f member isInode

end Counted

/-! ## The name space -/

/-- The nodes and the inodes in use. -/
structure World where
  tree : Nat → Node
  used : Multiset Nat

/-- What a state is to the name space when there are the listed references. -/
def State.world (sb : Superblock) (refs : Multiset Nat) (s : State) : World :=
  ⟨s.disk.node sb, s.inums refs⟩

/-- A change of the inodes in use. -/
inductive Shift : World → World → Prop where
  | take {tree : Nat → Node} {used : Multiset Nat} (i : Nat) (live : (tree i).kind ≠ .free) :
    Shift ⟨tree, used⟩ ⟨tree, i ::ₘ used⟩
  | drop {tree : Nat → Node} {used : Multiset Nat} (i : Nat) :
    Shift ⟨tree, i ::ₘ used⟩ ⟨settle used tree i, used⟩

section Fileclose

variable {sb : Superblock} {panics : Panic → Prop} {deadlocks : Nat → Prop}
  {others names : Multiset Nat} {s t : State} {f ip : Nat} {file : File} {later : Multiset Nat}

theorem opens_eq (file : t.file = s.file) : t.opens = s.opens := by
  unfold State.opens
  rw [file]

theorem world_eq {refs : Multiset Nat} (tree : t.disk.node sb = s.disk.node sb)
    (inum : ∀ ip ∈ refs, (t.inode ip).inum = (s.inode ip).inum) :
    t.world sb refs = s.world sb refs := by
  unfold State.world State.inums
  rw [tree, Multiset.map_congr rfl inum]

/-- Work that leaves the nodes and the references. -/
theorem shifts_of_eq (tree : t.world sb (others + s.opens) = s.world sb (others + s.opens))
    (opens : t.opens = s.opens) :
    Relation.ReflTransGen Shift (s.world sb (others + s.opens))
      (t.world sb (others + t.opens)) := by
  rw [opens, tree]

/-- Giving back a reference leaves what the others refer to. -/
theorem Counted.kind_put {jp : Nat} (counted : Counted sb (ip ::ₘ others) names s)
    (put : Put sb (others + s.opens) ip s t) (member : jp ∈ others) :
    (t.disk.node sb (t.inode jp).inum).kind = (s.disk.node sb (s.inode jp).inum).kind := by
  have user : jp ∈ others + s.opens := mem_add.mpr (.inl member)
  rw [put.node (cons_add ip .. ▸ counted.cached) (cons_add ip .. ▸ counted.kept) user]

/-- Giving back a reference. -/
theorem Counted.put (counted : Counted sb (ip ::ₘ others) names s)
    (put : Put sb (others + s.opens) ip s t) :
    Counted sb others names t ∧
      Shift (s.world sb (ip ::ₘ others + s.opens)) (t.world sb (others + t.opens)) := by
  have cached : Cached sb (ip ::ₘ (others + s.opens)) s := by
    rw [← cons_add]
    exact counted.cached
  have kept : Kept sb (ip ::ₘ (others + s.opens)) s := by
    rw [← cons_add]
    exact counted.kept
  have opens : t.opens = s.opens := opens_eq put.steady.file
  have inums : t.inums (others + s.opens) = s.inums (others + s.opens) :=
    inums_congr (fun _ among => among) put.steady
  refine ⟨counted.after (by rw [opens]; exact put.cached)
    (by rw [opens]; exact kept.put cached put) put.steady.file put.steady.pipe ?_ ?_ ?_, ?_⟩
  · exact fun jp among => put.steady.inum jp (mem_add.mpr (.inr among))
  · intro jp among
    have user : jp ∈ others + s.opens := mem_add.mpr (.inr among)
    rw [← put.node cached kept user, put.steady.inum jp user]
  · intro jp among
    rw [counted.kind_put put among]
    exact counted.live jp (mem_add.mpr (.inl (Multiset.mem_cons_of_mem among)))
  · unfold State.world
    rw [opens, put.tree cached kept, inums, cons_add, State.inums, Multiset.map_cons]
    exact .drop _

theorem setFile_file (s : State) (f g : Nat) (file : File) :
    (s.setFile f file).file g = if g = f then file else s.file g :=
  update_apply s.file f file g

theorem update_isOpen (pipe : Nat → Pipe) (p q : Nat) (writer writable isOpen : Bool) :
    (update pipe p ((pipe p).setEnd writer isOpen) q).isOpen writable =
      if (q, writable) = (p, writer) then isOpen else (pipe q).isOpen writable := by
  grind [Pipe.setEnd, Pipe.isOpen]

/-- The law of the cache and the file table says nothing of processes and the log. -/
theorem Counted.of_eq (counted : Counted sb others names s) (disk : t.disk = s.disk)
    (inode : t.inode = s.inode) (file : t.file = s.file) (pipe : t.pipe = s.pipe) :
    Counted sb others names t := by
  have opens : t.opens = s.opens := opens_eq file
  refine counted.after ?_ ?_ file pipe (fun _ _ => by rw [inode]) (fun _ _ => by rw [disk]) ?_
  · rw [opens]
    exact counted.cached.of_eq disk inode
  · unfold Kept
    rw [opens, disk, inode]
    exact counted.kept
  · intro ip member
    rw [disk, inode]
    exact counted.live ip (mem_add.mpr (.inl member))

/-- An entry of the file table is assigned. -/
theorem Counted.entry {files : Multiset Nat} (counted : Counted sb others names s)
    (disk : t.disk = s.disk) (inode : t.inode = s.inode)
    (assigned : t.file = update s.file f file)
    (refs : later + t.opens = others + s.opens) (here : file.ref = files.count f)
    (elsewhere : ∀ g ≠ f, files.count g = names.count g)
    (used : 0 < file.ref → f < nFile ∧ file.kind ≠ .none)
    (closed : file.ref = 0 → file.kind = .none)
    (plain : 0 < file.ref → file.kind = .inode → file.writable = true →
      (s.disk.node sb (s.inode file.ip).inum).kind ≠ .dir)
    (pipes : ∀ q writable, t.ends.count (q, writable) = ((t.pipe q).isOpen writable).toNat) :
    Counted sb later files t := by
  have entry : ∀ g, t.file g = if g = f then file else s.file g := by
    intro g
    rw [assigned]
    exact update_apply ..
  have positive : f ∈ files → 0 < file.ref := by
    intro member
    rw [here]
    exact count_pos.mpr member
  have old : ∀ g ∈ files, g ≠ f → g ∈ names := by
    intro g member other
    rw [← count_pos, ← elsewhere g other]
    exact count_pos.mpr member
  constructor
  · rw [refs]
    exact counted.cached.of_eq disk inode
  all_goals grind [Kept, cases Counted]

/-- What an entry refers to does not depend on how often it is used. -/
theorem File.used_eq {ref : Nat} (before : 0 < file.ref) (after : 0 < ref) :
    ({ file with ref := ref } : File).inodes = file.inodes ∧
      ({ file with ref := ref } : File).ends = file.ends := by
  constructor
  · unfold File.inodes
    simp only [before, after, true_and]
  · unfold File.ends
    simp only [before, after, true_and]

/-- An entry of the file table that refers to the same is assigned. -/
theorem Counted.assign (counted : Counted sb others names s)
    (inodes : file.inodes = (s.file f).inodes) (ends : file.ends = (s.file f).ends)
    (ip : file.ip = (s.file f).ip) (kind : file.kind = (s.file f).kind)
    (writable : file.writable = (s.file f).writable) (here : file.ref = later.count f)
    (elsewhere : ∀ g ≠ f, later.count g = names.count g) (fewer : 0 < file.ref → f ∈ names)
    (closed : file.ref = 0 → file.kind = .none) : Counted sb others later (s.setFile f file) := by
  have opens : (s.setFile f file).opens = s.opens := tally_same inodes
  have same : (s.setFile f file).ends = s.ends := tally_same ends
  refine counted.entry rfl rfl rfl (by rw [opens]) here elsewhere ?_ closed ?_ ?_
  · intro positive
    rw [kind]
    exact ⟨counted.inside f (fewer positive), counted.kind f (fewer positive)⟩
  · intro positive
    rw [kind, writable, ip]
    exact counted.writable f (fewer positive)
  · rw [same]
    exact counted.pipes

/-- The entry that `fileclose` leaves. -/
def File.unused (file : File) : File := { file with ref := 0, kind := .none }

theorem File.unused_inodes (file : File) : file.unused.inodes = 0 :=
  if_neg fun both => absurd both.1 (lt_irrefl 0)

theorem File.unused_ends (file : File) : file.unused.ends = 0 :=
  if_neg fun both => absurd both.1 (lt_irrefl 0)

section Last

variable (counted : Counted sb others (f ::ₘ names) s) (last : (s.file f).ref - 1 = 0)

include counted last

/-- The last reference to an open file is given up. -/
theorem Counted.release (disk : t.disk = s.disk) (inode : t.inode = s.inode)
    (file : t.file = update s.file f (s.file f).unused)
    (refs : later + t.opens = others + s.opens)
    (pipes : ∀ q writable, t.ends.count (q, writable) = ((t.pipe q).isOpen writable).toNat) :
    Counted sb later names t := by
  have none : names.count f = 0 := by
    have count := counted.count f
    rw [Multiset.count_cons_self] at count
    omega
  refine counted.entry disk inode file refs none.symm ?_ ?_ (fun _ => rfl) ?_ pipes
  · exact fun g other => (Multiset.count_cons_of_ne other names).symm
  · exact fun positive => absurd positive (lt_irrefl 0)
  · exact fun positive => absurd positive (lt_irrefl 0)

/-- The last reference to an open inode leaves the reference of the file. -/
theorem Counted.releaseInode (isInode : (s.file f).kind = .inode) :
    Counted sb ((s.file f).ip ::ₘ others) names (s.setFile f (s.file f).unused) ∧
      s.opens = (s.file f).ip ::ₘ (s.setFile f (s.file f).unused).opens := by
  have member := Multiset.mem_cons_self f names
  obtain ⟨rest, before, assign⟩ := tally_split (counted.inside f member) File.inodes s.file
  rw [File.inodes, if_pos ⟨counted.ref_pos member, isInode⟩] at before
  have after : (s.setFile f (s.file f).unused).opens = rest := by
    refine (assign _).trans ?_
    rw [File.unused_inodes, Multiset.zero_add]
  have opens : s.opens = (s.file f).ip ::ₘ rest := before
  have ends : (s.setFile f (s.file f).unused).ends = s.ends := by
    apply tally_same
    rw [File.unused_ends, File.ends, if_neg]
    rw [isInode]
    exact fun both => absurd both.2 (by decide)
  refine ⟨counted.release last rfl rfl rfl ?_ ?_, by rw [after]; exact opens⟩
  · rw [after, opens, cons_add, add_cons]
  · rw [ends]
    exact counted.pipes

/-- The last reference to the end of a pipe closes it. -/
theorem Counted.releasePipe (isPipe : (s.file f).kind = .pipe)
    (result : t = (s.setFile f (s.file f).unused).setPipe (s.file f).pipe
      ((s.pipe (s.file f).pipe).setEnd (s.file f).writable false)) :
    Counted sb others names t ∧ t.opens = s.opens := by
  have member := Multiset.mem_cons_self f names
  have opens : t.opens = s.opens := by
    rw [result]
    apply tally_same
    rw [File.unused_inodes, File.inodes, if_neg]
    rw [isPipe]
    exact fun both => absurd both.2 (by decide)
  obtain ⟨rest, before, assign⟩ := tally_split (counted.inside f member) File.ends s.file
  rw [File.ends, if_pos ⟨counted.ref_pos member, isPipe⟩] at before
  have ends : t.ends = rest := by
    rw [result]
    refine (assign _).trans ?_
    rw [File.unused_ends, Multiset.zero_add]
  have pipe : t.pipe = update s.pipe (s.file f).pipe
      ((s.pipe (s.file f).pipe).setEnd (s.file f).writable false) := result ▸ rfl
  refine ⟨counted.release last (result ▸ rfl) (result ▸ rfl) (result ▸ rfl) (by rw [opens]) ?_,
    opens⟩
  · intro q writable
    have law : (tally nFile File.ends s.file).count (q, writable) = _ := counted.pipes q writable
    rw [before, count_add, Multiset.count_singleton] at law
    rw [ends, pipe, update_isOpen]
    grind [Bool.toNat_le]

end Last

/-- `fileclose` by a process that runs alone. -/
theorem fileclose_wp {more : Nat} (valid : sb.Valid) (capacity : Capacity sb panics (1 + more))
    {post : Unit → State → List Nat → Prop} (idle : s.Idle)
    (counted : Counted sb others (f ::ₘ names) s)
    (continued : ∀ t, Counted sb others names t → t.proc = s.proc → t.Idle →
      (∀ ip ∈ others, (t.inode ip).inum = (s.inode ip).inum) →
      Relation.ReflTransGen Shift (s.world sb (others + s.opens)) (t.world sb (others + t.opens)) →
      Fits sb panics s.commits more t → post () t []) :
    Wp panics deadlocks (fileclose sb f) post s [] := by
  have member := Multiset.mem_cons_self f names
  have positive := counted.ref_pos member
  simp only [fileclose, wp_bind, wp_get, wp_ite]
  rw [if_neg (by omega)]
  by_cases shared : 0 < (s.file f).ref - 1
  · rw [if_pos shared]
    simp only [wp_set]
    obtain ⟨inodes, ends⟩ := File.used_eq positive shared
    have opens : (s.setFile f { s.file f with ref := (s.file f).ref - 1 }).opens = s.opens :=
      tally_same inodes
    refine continued _ (counted.assign inodes ends rfl rfl rfl ?_ ?_ (fun _ => member) ?_) rfl idle
      (fun _ _ => rfl) ?_ (.refl sb panics more s)
    · show (s.file f).ref - 1 = names.count f
      rw [counted.count, Multiset.count_cons_self, Nat.add_sub_cancel]
    · exact fun g different => (Multiset.count_cons_of_ne different names).symm
    · intro zero
      exact absurd zero (Nat.pos_iff_ne_zero.mp shared)
    · rw [opens]
      exact .refl
  · rw [if_neg shared]
    have last : (s.file f).ref - 1 = 0 := by omega
    cases kind : (s.file f).kind with
    | none => exact absurd kind (counted.kind f member)
    | pipe =>
      simp only [wp_set, if_true, wp_liftM, pipeclose, ok_modify]
      obtain ⟨later, opens⟩ := counted.releasePipe last kind rfl
      exact continued _ later rfl idle (fun _ _ => rfl)
        (shifts_of_eq (world_eq rfl fun _ _ => rfl) opens) (.refl sb panics more s)
    | inode =>
      obtain ⟨released, opens⟩ := counted.releaseInode last kind
      have moved : (s.file f).ip ::ₘ others + (s.setFile f (s.file f).unused).opens =
          others + s.opens := by
        rw [opens, cons_add, add_cons]
      have begun : Counted sb ((s.file f).ip ::ₘ others) names
          (s.setFile f (s.file f).unused).begun := released.of_eq rfl rfl rfl rfl
      have idle' : (s.setFile f (s.file f).unused).Idle := idle
      have cached := begun.cached
      rw [cons_add] at cached
      simp only [wp_set, reduceCtorEq, if_false, if_true, endOp_wp]
      apply beginOp_wp idle'
      have budget : Ledger sb panics s.commits (insert (sb.iblock ((s.setFile f
          (s.file f).unused).begun.inode (s.file f).ip).inum) sb.bitmap) more
          (s.setFile f (s.file f).unused).begun :=
        (idle'.ledger (capacity.mono (by omega))).add _
      apply iput_wp valid cached (fun _ => ⟨budget, Finset.mem_insert_self ..⟩)
        (fun among => absurd among (by simp))
      intro _ t put kept
      obtain ⟨later, shift⟩ := begun.put put
      refine continued _ (later.of_eq rfl rfl rfl rfl) put.steady.proc (idle'.ended put.steady) ?_
        (.single ?_) (idle'.fits put.steady (kept budget))
      · exact fun ip among => put.steady.inum ip (mem_add.mpr (.inl among))
      · rw [← moved]
        exact shift

end Fileclose

/-! ## Descriptors -/

section Descriptors

variable {sb : Superblock} {panics : Panic → Prop} {others names : Multiset Nat} {s : State}
  {p fd f : Nat} {post : Option Nat → State → Prop} {t : State} {proc : Nat → Proc} {entry : Proc}

/-- A process that does not exist has no descriptors, which `fork` relies on. -/
def Vacant (proc : Nat → Proc) : Prop :=
  ∀ q, (proc q).live = false → ∀ fd < nOFile, (proc q).ofile fd = none

theorem Vacant.update (vacant : Vacant proc)
    (empty : entry.live = false → ∀ fd < nOFile, entry.ofile fd = none) :
    Vacant (Function.update proc p entry) := by
  intro q
  rw [update_apply]
  split
  · exact empty
  · exact vacant q

/-- A process that exists is assigned. -/
theorem Vacant.assign (vacant : Vacant proc) (live : entry.live = true) :
    Vacant (Function.update proc p entry) :=
  vacant.update fun dead => absurd (live.symm.trans dead) (by decide)

/-- A descriptor is assigned. -/
def State.withFd (s : State) (p fd : Nat) (file : Option Nat) : State :=
  s.setProc p { s.proc p with ofile := update (s.proc p).ofile fd file }

theorem Vacant.withFd {file : Option Nat} (vacant : Vacant s.proc)
    (live : (s.proc p).live = true) : Vacant (s.withFd p fd file).proc :=
  vacant.assign live

theorem setFd_ok {file : Option Nat} {post : Unit → State → Prop}
    (continued : post () (s.withFd p fd file)) : Ok panics (setFd p fd file) post s := continued

theorem withFd_cwds (s : State) (p fd : Nat) (file : Option Nat) :
    (s.withFd p fd file).cwds = s.cwds := tally_same rfl

/-- The references of one descriptor and those of the others. -/
theorem withFd_fds (inside : p < nProc) (live : (s.proc p).live = true) (small : fd < nOFile) :
    ∃ rest, s.fds = heldBy ((s.proc p).ofile fd) + rest ∧
      ∀ file, (s.withFd p fd file).fds = heldBy file + rest := by
  obtain ⟨rest, before, assign⟩ := tally_split inside Proc.fds s.proc
  obtain ⟨own, mine, change⟩ := tally_split small heldBy (s.proc p).ofile
  refine ⟨own + rest, ?_, ?_⟩
  · unfold State.fds
    rw [before, Proc.fds, if_pos live, mine, Multiset.add_assoc]
  · intro file
    refine (assign _).trans ?_
    grind [Proc.fds]

/-- A descriptor that was not in use. -/
theorem withFd_new (inside : p < nProc) (live : (s.proc p).live = true) (small : fd < nOFile)
    (unset : (s.proc p).ofile fd = none) (f : Nat) :
    (s.withFd p fd (some f)).fds = f ::ₘ s.fds := by
  obtain ⟨rest, before, assign⟩ := withFd_fds inside live small
  rw [unset] at before
  rw [assign, before]
  exact congrArg (f ::ₘ ·) (Multiset.zero_add rest).symm

theorem withFd_back (unset : (s.proc p).ofile fd = none) (file : Option Nat) :
    (s.withFd p fd file).withFd p fd none = s := by
  have self : (s.withFd p fd file).proc p =
      { s.proc p with ofile := update (s.proc p).ofile fd file } :=
    update_self ..
  have same : ({ s.proc p with
      ofile := update (update (s.proc p).ofile fd file) fd none } : Proc) =
      s.proc p := by
    rw [update_idem, ← unset, update_eq_self]
  rw [State.withFd, self, same]
  unfold State.withFd State.setProc
  rw [update_idem, update_eq_self]

/-- A descriptor in use refers to a file. -/
theorem fd_mem (inside : p < nProc) (live : (s.proc p).live = true) (small : fd < nOFile)
    (found : (s.proc p).ofile fd = some f) : f ∈ s.fds := by
  obtain ⟨rest, before, _⟩ := withFd_fds inside live small
  rw [before, found]
  exact mem_add.mpr (.inl (Multiset.mem_singleton_self f))

theorem argfd_ok (absent : post none s)
    (found : ∀ f, fd < nOFile → (s.proc p).ofile fd = some f → post (some f) s) :
    Ok panics (argfd p fd) post s := by
  simp only [argfd, ok_bind, ok_get, ok_pure]
  by_cases small : fd < nOFile
  · rw [if_pos small]
    cases file : (s.proc p).ofile fd with
    | none => exact absent
    | some f => exact found f small file
  · rw [if_neg small]
    exact absent

theorem fdalloc_ok (absent : post none s) (found : ∀ fd, fd < nOFile → (s.proc p).ofile fd = none →
      post (some fd) (s.withFd p fd (some f))) : Ok panics (fdalloc p f) post s := by
  simp only [fdalloc, ok_bind, ok_get]
  cases unused : (List.range nOFile).find? fun fd => (s.proc p).ofile fd == none with
  | none => exact absent
  | some fd =>
    have none := find?_some unused
    rw [beq_iff_eq] at none
    exact found fd (List.mem_range.mp (mem_of_find?_eq_some unused)) none

theorem filealloc_ok (absent : post none s) (found : ∀ f, f < nFile → (s.file f).ref = 0 →
      post (some f) (s.setFile f { s.file f with ref := 1 })) : Ok panics filealloc post s := by
  simp only [filealloc, ok_bind, ok_get]
  cases unused : (List.range nFile).find? fun f => (s.file f).ref == 0 with
  | none => exact absent
  | some f =>
    have zero := find?_some unused
    rw [beq_iff_eq] at zero
    exact found f (List.mem_range.mp (mem_of_find?_eq_some unused)) zero

theorem filedup_ok {post : Unit → State → Prop} (counted : Counted sb others names s)
    (member : f ∈ names) (continued : Counted sb others (f ::ₘ names)
        (s.setFile f { s.file f with ref := (s.file f).ref + 1 }) →
      (s.setFile f { s.file f with ref := (s.file f).ref + 1 }).opens = s.opens →
      post () (s.setFile f { s.file f with ref := (s.file f).ref + 1 })) :
    Ok panics (filedup f) post s := by
  have positive := counted.ref_pos member
  obtain ⟨inodes, ends⟩ := File.used_eq positive (Nat.succ_pos (s.file f).ref)
  simp only [filedup, ok_bind, ok_get, ok_ite, ok_set]
  rw [if_neg (by omega)]
  refine continued (counted.assign inodes ends rfl rfl rfl ?_ ?_ (fun _ => member) ?_)
    (tally_same inodes)
  all_goals grind [Multiset.count_cons_self, Multiset.count_cons_of_ne, cases Counted]

section Unused

variable (inside : f < nFile) (unused : (s.file f).ref = 0) {file : File}

include inside unused

/-- An unused entry of the file table is taken. -/
theorem Counted.take {later : Multiset Nat} (counted : Counted sb others names s)
    (disk : t.disk = s.disk) (inode : t.inode = s.inode)
    (assigned : t.file = update s.file f file)
    (refs : later + t.opens = others + s.opens) (ref : file.ref = 1) (kind : file.kind ≠ .none)
    (plain : file.kind = .inode → file.writable = true →
      (s.disk.node sb (s.inode file.ip).inum).kind ≠ .dir)
    (pipes : ∀ q writable, t.ends.count (q, writable) = ((t.pipe q).isOpen writable).toNat) :
    Counted sb later (f ::ₘ names) t := by
  have none : names.count f = 0 := (counted.count f).symm.trans unused
  refine counted.entry disk inode assigned refs ?_ ?_ (fun _ => ⟨inside, kind⟩) ?_ (fun _ => plain)
    pipes
  · rw [ref, Multiset.count_cons_self, none]
  · exact fun g other => Multiset.count_cons_of_ne other names
  · intro zero
    omega

/-- An unused entry of the file table takes over a reference. -/
theorem Counted.install {ip : Nat} (counted : Counted sb (ip ::ₘ others) names s)
    (ref : file.ref = 1) (kind : file.kind = .inode) (ipEq : file.ip = ip)
    (plain : file.writable = true → (s.disk.node sb (s.inode ip).inum).kind ≠ .dir) :
    Counted sb others (f ::ₘ names) (s.setFile f file) ∧
      (s.setFile f file).opens = ip ::ₘ s.opens := by
  obtain ⟨rest, before, assign⟩ := tally_split inside File.inodes s.file
  rw [File.inodes, if_neg (by omega), Multiset.zero_add] at before
  have opens : (s.setFile f file).opens = ip ::ₘ s.opens := by
    refine (assign _).trans ?_
    rw [File.inodes, if_pos ⟨by omega, kind⟩, ipEq, State.opens, before]
    rfl
  have ends : (s.setFile f file).ends = s.ends := by
    apply tally_same
    rw [File.ends, if_neg, File.ends, if_neg (by omega)]
    rw [kind]
    exact fun both => absurd both.2 (by decide)
  refine ⟨counted.take inside unused rfl rfl rfl ?_ ref ?_ ?_ ?_, opens⟩
  · rw [opens, cons_add, add_cons]
  · rw [kind]
    decide
  · rw [ipEq]
    exact fun _ => plain
  · rw [ends]
    exact counted.pipes

/-- An unused entry of the file table takes a closed end of a pipe. -/
theorem Counted.openEnd (counted : Counted sb others names s) (ref : file.ref = 1)
    (kind : file.kind = .pipe) (closed : (s.pipe file.pipe).isOpen file.writable = false)
    (result : t = (s.setFile f file).setPipe file.pipe
      ((s.pipe file.pipe).setEnd file.writable true)) :
    Counted sb others (f ::ₘ names) t ∧ t.opens = s.opens := by
  obtain ⟨rest, before, assign⟩ := tally_split inside File.ends s.file
  rw [File.ends, if_neg (by omega), Multiset.zero_add] at before
  have opens : t.opens = s.opens := by
    rw [result]
    apply tally_same
    rw [File.inodes, if_neg, File.inodes, if_neg (by omega)]
    rw [kind]
    exact fun both => absurd both.2 (by decide)
  have ends : t.ends = {(file.pipe, file.writable)} + s.ends := by
    rw [result]
    refine (assign _).trans ?_
    rw [File.ends, if_pos ⟨by omega, kind⟩, State.ends, before]
  have pipe : t.pipe = update s.pipe file.pipe
      ((s.pipe file.pipe).setEnd file.writable true) := result ▸ rfl
  refine ⟨counted.take inside unused (result ▸ rfl) (result ▸ rfl) (result ▸ rfl)
    (by rw [opens]) ref ?_ ?_ ?_, opens⟩
  · rw [kind]
    decide
  · rw [kind]
    exact fun isInode => absurd isInode (by decide)
  · intro q writable
    have law := counted.pipes q writable
    rw [ends, count_add, Multiset.count_singleton, pipe, update_isOpen]
    grind

end Unused

/-- The two entries that `pipealloc` makes of unused ones. -/
theorem Counted.openPipe {f0 f1 q : Nat} {reader writer : File}
    (counted : Counted sb others names s) (low0 : f0 < nFile) (low1 : f1 < nFile)
    (free0 : (s.file f0).ref = 0) (free1 : (s.file f1).ref = 0) (apart : f0 ≠ f1)
    (shut : ∀ writable, (s.pipe q).isOpen writable = false)
    (reads : reader.ref = 1 ∧ reader.kind = .pipe ∧ reader.writable = false ∧ reader.pipe = q)
    (writes : writer.ref = 1 ∧ writer.kind = .pipe ∧ writer.writable = true ∧ writer.pipe = q)
    (disk : t.disk = s.disk) (inode : t.inode = s.inode)
    (file : t.file = update (update s.file f0 reader) f1 writer)
    (pipe : t.pipe = update s.pipe q ⟨true, true⟩) :
    Counted sb others (f0 ::ₘ f1 ::ₘ names) t ∧ t.opens = s.opens := by
  obtain ⟨refR, kindR, readOnly, pipeR⟩ := reads
  obtain ⟨refW, kindW, writeOnly, pipeW⟩ := writes
  obtain ⟨first, opens0⟩ := counted.openEnd low0 free0 refR kindR
    (by rw [pipeR]; exact shut _) rfl
  rw [pipeR, readOnly] at first opens0
  have other : f1 ≠ f0 := Ne.symm apart
  have free : (((s.setFile f0 reader).setPipe q ((s.pipe q).setEnd false true)).file f1).ref =
      0 := by
    show (update s.file f0 reader f1).ref = 0
    rw [update_of_ne other]
    exact free1
  have closed : (((s.setFile f0 reader).setPipe q ((s.pipe q).setEnd false true)).pipe
      writer.pipe).isOpen writer.writable = false := by
    rw [pipeW, writeOnly]
    refine (update_isOpen s.pipe q q false true true).trans ?_
    rw [if_neg (by simp)]
    exact shut true
  obtain ⟨second, opens1⟩ := first.openEnd low1 free refW kindW closed rfl
  have both : t.pipe = update (update s.pipe q ((s.pipe q).setEnd false true)) q
      ((update s.pipe q ((s.pipe q).setEnd false true) q).setEnd true true) := by
    rw [pipe, update_idem, update_self]
    rfl
  rw [pipeW, writeOnly] at second opens1
  refine ⟨?_, (opens_eq file).trans (opens1.trans opens0)⟩
  rw [Multiset.cons_swap]
  exact second.of_eq disk inode file both

theorem setFile_comm {g : Nat} {file other : File} (apart : f ≠ g) :
    (s.setFile f file).setFile g other = (s.setFile g other).setFile f file := by
  unfold State.setFile
  rw [update_comm apart]

/-- `fileclose` of an entry that `filealloc` has just given. -/
theorem fileclose_new {deadlocks : Nat → Prop} {post : Unit → State → List Nat → Prop}
    {held : List Nat} (made : t = s.setFile f { s.file f with ref := 1 })
    (unused : (s.file f).ref = 0) (closed : (s.file f).kind = .none) (continued : post () s held) :
    Wp panics deadlocks (fileclose sb f) post t held := by
  have entry : t.file f = { s.file f with ref := 1 } := by
    rw [made, setFile_file, if_pos rfl]
  have back : t.setFile f { t.file f with ref := 0, kind := .none } = s := by
    have same : { t.file f with ref := 0, kind := .none } = s.file f := by
      rw [entry, ← unused, ← closed]
    rw [same, made]
    unfold State.setFile
    simp only [update_idem, update_eq_self]
  have once : (t.file f).ref = 1 := by rw [entry]
  have kind : (t.file f).kind = .none := by rw [entry, closed]
  simp only [fileclose, wp_bind, wp_get, wp_ite, wp_set, once, kind]
  show post () (t.setFile f { t.file f with ref := 0, kind := .none }) held
  rw [back]
  exact continued

end Descriptors

end Xv6.Fs
