import Xv6.Fs.Names

/-!
# Adding and removing names

The theorems that `sys_unlink` and `sys_link`, by a process that runs alone, remove or add a name
or leave the nodes as they are.
-/

namespace Xv6.Fs

open Function Lib Prog Finset List

/-! ## Operations of the log -/

section Op

variable {sb : Superblock} {panics : Panic → Prop} {deadlocks : Nat → Prop}
  {refs later : Multiset Nat} {s t : State} {held : List Nat}
  {post : Unit → State → List Nat → Prop} {more : Nat} {past : List (List Nat)}

/-- No operation is in progress and nothing is logged. -/
def State.Idle (s : State) : Prop := s.outstanding = 0 ∧ s.lh = []

/-- After `begin_op`. -/
def State.begun (s : State) : State := { s with outstanding := s.outstanding + 1 }

/-- After `end_op`. -/
def State.ended (s : State) : State :=
  { s with
    outstanding := s.outstanding - 1
    lh := if s.outstanding = 1 then [] else s.lh
    commits := if s.outstanding = 1 then s.commits ++ [s.lh] else s.commits }

/-- `begin_op` when no operation runs. -/
theorem beginOp_wp (idle : s.Idle) (continued : post () s.begun held) :
    Wp panics deadlocks beginOp post s held := by
  simp only [beginOp, wp_await, wp_lift, Act.ok_modify]
  refine ⟨?_, continued⟩
  rw [idle.1, idle.2]
  decide

/-- `end_op` commits. -/
@[simp] theorem endOp_wp : Wp panics deadlocks endOp post s held ↔ post () s.ended held :=
  Iff.rfl

/-- The log is no part of the law of the cache. -/
theorem Cached.of_eq (cached : Cached sb refs s) (disk : t.disk = s.disk)
    (inode : t.inode = s.inode) : Cached sb refs t := by
  constructor <;> grind [State.Synced, cases Cached]

/-- `begin_op` leaves the cache alone. -/
theorem Cached.begun (cached : Cached sb refs s) : Cached sb refs s.begun := cached.of_eq rfl rfl

/-- `end_op` leaves the cache alone. -/
theorem Cached.ended (cached : Cached sb refs s) : Cached sb refs s.ended := cached.of_eq rfl rfl

/-- What stays during an operation. -/
theorem Steady.ended (steady : Steady refs s.begun t) : Steady refs s t.ended where
  file := steady.file
  pipe := steady.pipe
  proc := steady.proc
  outstanding := by
    show t.outstanding - 1 = s.outstanding
    rw [steady.outstanding]
    exact Nat.add_sub_cancel ..
  inum := steady.inum
  valid := steady.valid

/-- One operation runs. -/
theorem State.Idle.outstanding (idle : s.Idle) (steady : Steady refs s.begun t) :
    t.outstanding = 1 := by
  rw [steady.outstanding]
  show s.outstanding + 1 = 1
  rw [idle.1]

/-- Behind it none runs. -/
theorem State.Idle.ended (idle : s.Idle) (steady : Steady refs s.begun t) : t.ended.Idle := by
  refine ⟨?_, ?_⟩
  · show t.outstanding - 1 = 0
    rw [idle.outstanding steady]
  · show (if t.outstanding = 1 then [] else t.lh) = []
    rw [if_pos (idle.outstanding steady)]

/-- The blocks of the bitmap. -/
def Superblock.bitmap (sb : Superblock) : Finset Nat := (Finset.range sb.size).image sb.bblock

/-- The log has room for the bitmap and for `more` blocks, or an overflow is expected. -/
def Capacity (sb : Superblock) (panics : Panic → Prop) (more : Nat) : Prop :=
  panics .tooBig ∧ panics .outsideTrans ∨ sb.bitmap.card + more < sb.logRoom

/-- A full log may panic. -/
theorem Capacity.of_full (full : ∀ error, Panic.Exhausted error → panics error) (more : Nat) :
    Capacity sb panics more :=
  .inl ⟨full _ .tooBig, full _ .outsideTrans⟩

/-- Fewer blocks fit too. -/
theorem Capacity.mono {fewer : Nat} (capacity : Capacity sb panics more) (less : fewer ≤ more) :
    Capacity sb panics fewer :=
  capacity.imp_right fun room => by omega

/-- An operation begins with an empty log. -/
theorem State.Idle.ledger (idle : s.Idle) (capacity : Capacity sb panics more) :
    Ledger sb panics s.commits sb.bitmap more s.begun := by
  refine capacity.imp_right fun room => ⟨rfl, Nat.succ_pos _, ?_, ?_, ?_, room⟩
  · show s.lh.Nodup
    rw [idle.2]
    exact nodup_nil
  · intro b logged
    change b ∈ s.lh at logged
    rw [idle.2] at logged
    exact absurd logged not_mem_nil
  · exact fun b inside => mem_image_of_mem sb.bblock (Finset.mem_range.mpr inside)

/-- Each transaction that ended after those of `past` logged its blocks once and left room for
`more` blocks in the log. -/
def Fits (sb : Superblock) (panics : Panic → Prop) (past : List (List Nat)) (more : Nat)
    (t : State) : Prop :=
  panics .tooBig ∧ panics .outsideTrans ∨
    ∃ ended, t.commits = past ++ ended ∧ ∀ lh ∈ ended, lh.Nodup ∧ lh.length + more < sb.logRoom

/-- What was logged fits. -/
theorem State.Idle.fits {known : Finset Nat} (idle : s.Idle) (steady : Steady refs s.begun t)
    (ledger : Ledger sb panics past known more t) : Fits sb panics past more t.ended := by
  refine ledger.imp_right fun logs => ⟨[t.lh], ?_, ?_⟩
  · show (if t.outstanding = 1 then t.commits ++ [t.lh] else t.commits) = past ++ [t.lh]
    rw [if_pos (idle.outstanding steady), logs.past]
  · intro lh member
    rw [List.mem_singleton.mp member]
    exact ⟨logs.nodup, logs.length_add_lt⟩

/-- Nothing was logged. -/
theorem Fits.refl (sb : Superblock) (panics : Panic → Prop) (more : Nat) (s : State) :
    Fits sb panics s.commits more s :=
  .inr ⟨[], (append_nil _).symm, fun _ member => absurd member not_mem_nil⟩

/-- One operation after another. -/
theorem Fits.trans (first : Fits sb panics past more s) (second : Fits sb panics s.commits more t) :
    Fits sb panics past more t := by
  grind [Fits]

/-- The operation of the log is no part of the work. -/
theorem Work.ended (work : Work sb refs later s.begun t) : Work sb refs later s t.ended :=
  ⟨work.cached.ended, work.steady.ended, work.kept⟩

/-- The disk is as it was. -/
structure Unchanged (sb : Superblock) (refs : Multiset Nat) (s t : State) : Prop
    extends Work sb refs refs s t where
  disk : t.disk = s.disk

/-- Work that leaves the disk keeps the inodes without links. -/
theorem Quiet.work (quiet : Quiet sb refs refs s t) (kept : Kept sb refs s) :
    Work sb refs refs s t :=
  ⟨quiet.cached, quiet.steady, kept.quiet quiet⟩

end Op

/-! ## Removing a name -/

section Unlink

variable {sb : Superblock} {panics : Panic → Prop} {deadlocks : Nat → Prop}
  {past : List (List Nat)} {known : Finset Nat} {more k : Nat} {refs : Multiset Nat} {s t : State}
  {dp ip : Nat} {post : Int → State → List Nat → Prop}

/-- No entry but `.` and `..` names the directory that holds it. -/
def NoSelf (tree : Nat → Node) : Prop :=
  ∀ d name k e, (tree d).kind = .dir → namecmp name dot ≠ 0 → namecmp name dotdot ≠ 0 →
    lookup (tree d).ents name = some k → (tree d).ents[k]? = some e → e.inum ≠ d

/-- A name was removed. -/
structure Unlinked (sb : Superblock) (refs : Multiset Nat) (cwd : Nat) (path : List UInt8)
    (s t : State) : Prop extends Work sb refs refs s t where
  tree : ∃ d name k e, resolve (s.disk.node sb) true cwd path = some (d, name) ∧
    (s.disk.node sb d).kind = .dir ∧ namecmp name dot ≠ 0 ∧ namecmp name dotdot ≠ 0 ∧
    lookup (s.disk.node sb d).ents name = some k ∧ (s.disk.node sb d).ents[k]? = some e ∧
    e.inum ≠ 0 ∧ e.inum ≠ d ∧ (s.disk.node sb e.inum).kind ≠ .free ∧
    1 ≤ (s.disk.node sb e.inum).nlink ∧
    ((s.disk.node sb e.inum).kind = .dir → isEmptyDir (s.disk.node sb e.inum).ents = true) ∧
    t.disk.node sb = settle (t.inums refs) (settle (t.inums refs)
      (unlinkTree (s.disk.node sb) d k e.inum) d) e.inum

/-- An erased entry is all zeros. -/
theorem noEntry_encode : noEntry.encode = List.replicate direntSize 0 := by decide

section

variable (valid : sb.Valid)

include valid

/-- The label `bad` of `sys_unlink`. -/
theorem unlinkBad_wp (cached : Cached sb (dp ::ₘ refs) s) (kept : Kept sb refs s)
    (continued : ∀ t, Quiet sb refs refs s t → post (-1) t.ended []) :
    Wp panics deadlocks (unlinkBad sb dp) post s [dp] := by
  grind [unlinkBad, wp_bind, endOp_wp, wp_pure, iunlockput_quiet]

/-- `sys_unlink` once it has changed the directory. -/
theorem unlinkDrop_wp (ledger : Ledger sb panics past known more t)
    (hereDp : sb.iblock (s.inode dp).inum ∈ known) (hereIp : sb.iblock (s.inode ip).inum ∈ known)
    (work : Work sb (ip ::ₘ dp ::ₘ refs) (ip ::ₘ dp ::ₘ refs) s t) (different : ip ≠ dp)
    (apart : (s.inode dp).inum ≠ (s.inode ip).inum) (filled : (s.inode ip).valid = true)
    (tree : t.disk.node sb = update (s.disk.node sb) (s.inode dp).inum
      (if (s.disk.node sb (s.inode ip).inum).kind = .dir
        then linked (cleared (s.disk.node sb (s.inode dp).inum) k) (-1)
        else cleared (s.disk.node sb (s.inode dp).inum) k))
    (continued : ∀ t, Work sb refs refs s t →
      t.disk.node sb = settle (t.inums refs) (settle (t.inums refs) (unlinkTree (s.disk.node sb)
        (s.inode dp).inum k (s.inode ip).inum) (s.inode dp).inum) (s.inode ip).inum →
      (∃ larger, Ledger sb panics past larger more t) → post 0 t.ended []) :
    Wp panics deadlocks (do
      iunlockput sb dp
      addLink sb ip (-1)
      iunlockput sb ip
      endOp
      return 0) post t [ip, dp] := by
  have member : ip ∈ ip ::ₘ refs := Multiset.mem_cons_self ip _
  have dpMember : dp ∈ ip ::ₘ dp ::ₘ refs :=
    Multiset.mem_cons_of_mem (Multiset.mem_cons_self dp refs)
  have fewer : ∀ jp ∈ ip ::ₘ refs, jp ∈ ip ::ₘ dp ::ₘ refs := by
    intro jp among
    rw [Multiset.cons_swap]
    exact Multiset.mem_cons_of_mem among
  have swapped : Work sb (ip ::ₘ dp ::ₘ refs) (dp ::ₘ ip ::ₘ refs) s t := by
    rw [Multiset.cons_swap dp]
    exact work
  have erased : [ip, dp].erase dp = [ip] := by simp [different]
  simp only [wp_bind, wp_liftM, endOp_wp, wp_pure]
  apply iunlockput_wp valid swapped.cached
    (fun _ => ⟨ledger, (work.steady.inum dp dpMember).symm ▸ hereDp⟩) (by simp)
    (by simp [erased, Ne.symm different])
  intro t1 put later
  have work1 : Work sb (ip ::ₘ refs) (ip ::ₘ refs) s t1 :=
    (swapped.mono fewer).andThen (put.work swapped.cached swapped.kept)
  have tree1 := put.tree swapped.cached swapped.kept
  rw [inums_congr fewer work.steady, tree, work.steady.inum dp dpMember] at tree1
  have node1 : t1.disk.node sb (s.inode ip).inum = s.disk.node sb (s.inode ip).inum := by
    rw [tree1, settle_of_ne (Ne.symm apart), update_of_ne (Ne.symm apart)]
  have valid1 : (t1.inode ip).valid = true := work1.steady.valid ip member filled
  rw [erased]
  apply addLink_ok (later ledger) ((work1.steady.inum ip member).symm ▸ hereIp) work1.cached member
    valid1
  intro t2 changed _ ledger2
  have work2 : Work sb (ip ::ₘ refs) (ip ::ₘ refs) s t2 := work1.andThen
    ⟨changed.cached, changed.steady, work1.kept.changed changed fun _ => ⟨ip, member, rfl, valid1⟩⟩
  apply iunlockput_wp valid work2.cached
    (fun _ => ⟨ledger2, (work2.steady.inum ip member).symm ▸ hereIp⟩) (List.mem_singleton_self ip)
    (by simp)
  intro t3 last later3
  have work3 : Work sb refs refs s t3 :=
    work2.of_cons.andThen (last.work work2.cached work2.kept)
  rw [List.erase_cons_head]
  refine continued t3 work3 ?_ ⟨known, later3 ledger2⟩
  have inums : s.inums (ip ::ₘ refs) = (s.inode ip).inum ::ₘ s.inums refs :=
    Multiset.map_cons ..
  rw [last.tree work2.cached work2.kept, changed.tree, work1.steady.inum ip member, node1,
    work2.steady.inum ip member, tree1, inums, settle_update apart,
    inums_congr (fun _ => Multiset.mem_cons_of_mem) work2.steady,
    inums_congr (fun _ among => among) work3.steady]
  rfl

/-- `sys_unlink` once it is to remove the entry. -/
theorem unlinkEntry_wp (blocks : panics .outOfBlocks)
    (ledger : Ledger sb panics past known (4 + more) s)
    (dir : Opened sb (ip ::ₘ dp ::ₘ refs) s dp) (kept : Kept sb (ip ::ₘ dp ::ₘ refs) s)
    (filled : (s.inode ip).valid = true) (different : ip ≠ dp)
    (inside : k < (s.dirents sb dp).length) (continued : ∀ t, Work sb refs refs s t →
      t.disk.node sb = settle (t.inums refs) (settle (t.inums refs) (unlinkTree (s.disk.node sb)
        (s.inode dp).inum k (s.inode ip).inum) (s.inode dp).inum) (s.inode ip).inum →
      (∃ larger, Ledger sb panics past larger more t) → post 0 t.ended []) :
    Wp panics deadlocks (unlinkEntry sb dp ip (direntSize * k)) post s [ip, dp] := by
  have member : ip ∈ ip ::ₘ dp ::ₘ refs := Multiset.mem_cons_self ip _
  have apart : (s.inode dp).inum ≠ (s.inode ip).inum :=
    fun same => different (dir.cached.once ip member dp dir.member same.symm)
  have all : Ledger sb panics past known (2 + more + 1 + 1) s :=
    ledger.mono (Finset.Subset.refl known) (by omega)
  have dpKnown := Finset.mem_insert_of_mem (b := sb.iblock (s.inode ip).inum)
    (Finset.mem_insert_self (sb.iblock (s.inode dp).inum) known)
  have ipKnown := Finset.mem_insert_self (sb.iblock (s.inode ip).inum)
    (insert (sb.iblock (s.inode dp).inum) known)
  simp only [unlinkEntry, wp_bind]
  rw [← noEntry_encode]
  apply writeDirent_wp (m := 0) valid ((all.add _).add _) dpKnown (.inl blocks) dir (by decide)
    (Nat.lt_trans (by decide) valid.root) (le_of_lt inside)
  · intro last
    omega
  · intro t1 larger clear bigger ledger1 _
    have kind : (t1.inode ip).copy.type = (s.disk.node sb (s.inode ip).inum).kind := by
      have valid1 := clear.steady.valid ip member filled
      rw [clear.cached.copy_type member valid1, clear.tree, clear.steady.inum ip member,
        update_of_ne (Ne.symm apart)]
    have work1 := dir.work kept clear
    rw [if_neg (not_not.mpr rfl), wp_bind, wp_get, wp_ite]
    split
    · rename_i isDir
      have dir1 : Opened sb (ip ::ₘ dp ::ₘ refs) t1 dp := dir.changed clear rfl
      rw [wp_bind, wp_liftM]
      apply addLink_ok ledger1 ((clear.steady.inum dp dir.member).symm ▸ bigger dpKnown)
        clear.cached dir.member dir1.valid
      intro t2 fewerLinks _ ledger2
      apply unlinkDrop_wp valid ledger2 (bigger dpKnown) (bigger ipKnown)
        (work1.andThen (dir1.work work1.kept fewerLinks)) different apart filled ?_ continued
      rw [fewerLinks.tree, clear.steady.inum dp dir.member, clear.tree, update_self,
        update_idem, if_pos (kind ▸ isDir)]
      rfl
    · rename_i notDir
      apply unlinkDrop_wp valid ledger1 (bigger dpKnown) (bigger ipKnown) work1 different apart
        filled ?_ continued
      rw [clear.tree, if_neg (kind ▸ notDir)]
      rfl

/-- `sys_unlink` once it has found the entry. -/
theorem unlinkFound_wp (blocks : panics .outOfBlocks)
    (ledger : Ledger sb panics past known (4 + more) s)
    (dir : Opened sb (ip ::ₘ dp ::ₘ refs) s dp) (kept : Kept sb refs s)
    (inside : k < (s.dirents sb dp).length)
    (typed : panics .noType ∨ (s.disk.node sb (s.inode ip).inum).kind ≠ .free)
    (counted : panics .nlink) (busy : ip = dp → deadlocks ip)
    (failed : ∀ t, Quiet sb refs refs s t → post (-1) t.ended [])
    (continued : ∀ t, (s.inode ip).inum ≠ (s.inode dp).inum →
      (s.disk.node sb (s.inode ip).inum).kind ≠ .free →
      1 ≤ (s.disk.node sb (s.inode ip).inum).nlink →
      ((s.disk.node sb (s.inode ip).inum).kind = .dir →
        isEmptyDir (s.disk.node sb (s.inode ip).inum).ents = true) →
      Work sb refs refs s t →
      t.disk.node sb = settle (t.inums refs) (settle (t.inums refs) (unlinkTree (s.disk.node sb)
        (s.inode dp).inum k (s.inode ip).inum) (s.inode dp).inum) (s.inode ip).inum →
      (∃ larger, Ledger sb panics past larger more t) → post 0 t.ended []) :
    Wp panics deadlocks (unlinkFound sb dp ip (direntSize * k)) post s [dp] := by
  have member : ip ∈ ip ::ₘ dp ::ₘ refs := Multiset.mem_cons_self ip _
  simp only [unlinkFound, wp_bind]
  apply ilock_wp dir.cached member
  · intro free
    exact typed.resolve_right fun used => used (dinode_free free)
  · exact fun locked => busy (List.mem_singleton.mp locked)
  · intro unlocked t1 locked filled
    have different : ip ≠ dp := fun same => unlocked (List.mem_singleton.mpr same)
    have apart : (s.inode ip).inum ≠ (s.inode dp).inum :=
      fun same => different (dir.cached.once ip member dp dir.member same)
    have toT1 : Quiet sb refs (ip ::ₘ dp ::ₘ refs) s t1 := locked.of_cons.of_cons
    have kept1 : Kept sb refs t1 := kept.quiet toT1
    have dir1 : Opened sb (ip ::ₘ dp ::ₘ refs) t1 dp := dir.quiet locked dir.member
    have node1 : t1.disk.node sb (t1.inode ip).inum = s.disk.node sb (s.inode ip).inum := by
      rw [locked.disk, locked.inum member]
    have type := locked.cached.copy_type member filled
    have nlink := locked.cached.copy_nlink member filled
    rw [node1] at type nlink
    have used : (s.disk.node sb (s.inode ip).inum).kind ≠ .free := by
      rw [← node1]
      exact Disk.node_alloc (locked.cached.alloc member filled)
    simp only [wp_get, wp_ite]
    split
    · exact counted
    · rename_i enough
      have many : 1 ≤ (s.disk.node sb (s.inode ip).inum).nlink := by
        rw [← nlink]
        omega
      -- both ways on from the test of the directory
      have refuse : Wp panics deadlocks (do
          iunlockput sb ip
          unlinkBad sb dp) post t1 [ip, dp] := by
        simp only [wp_bind]
        apply iunlockput_quiet valid locked.cached kept1.cons (by simp [different])
        intro t2 dropped
        have toT2 : Quiet sb refs (dp ::ₘ refs) s t2 := toT1.andThen dropped.of_cons
        apply unlinkBad_wp valid dropped.cached (kept.quiet toT2)
        exact fun t3 quiet => failed t3 (toT2.andThen quiet)
      have remove : ((s.disk.node sb (s.inode ip).inum).kind = .dir →
          isEmptyDir (s.disk.node sb (s.inode ip).inum).ents = true) →
          Wp panics deadlocks (unlinkEntry sb dp ip (direntSize * k)) post t1 [ip, dp] := by
        intro empty
        apply unlinkEntry_wp valid blocks (locked.ledger ledger) dir1 kept1.cons.cons filled
          different (dir.ents_quiet locked ▸ inside)
        intro t2 work2 tree2 ledger2
        rw [locked.disk, locked.inum member, locked.inum dir.member] at tree2
        exact continued t2 apart used many empty
          ⟨work2.cached, toT1.steady.trans work2.steady, work2.kept⟩ tree2 ledger2
      by_cases isDir : (t1.inode ip).copy.type = .dir
      · have child1 : Opened sb (ip ::ₘ dp ::ₘ refs) t1 ip := by
          refine ⟨locked.cached, member, filled, ?_⟩
          rw [node1, ← type]
          exact isDir
        grind [State.dirents, wp_bind, isdirempty_wp]
      · rw [if_neg isDir]
        exact remove fun isDir' => absurd (type.trans isDir') isDir

/-- `sys_unlink` by a process that runs alone. -/
theorem sysUnlink_wp (slots : Slots panics refs 2) (blocks : panics .outOfBlocks)
    (capacity : Capacity sb panics (4 + more)) {p : Nat} {path : List UInt8} (idle : s.Idle)
    (cached : Cached sb refs s) (kept : Kept sb refs s) (cwd : (s.proc p).cwd ∈ refs)
    (typed : Typed sb panics (s.cwdOf p) s) (counted : panics .nlink)
    (loops : (∀ ip, deadlocks ip) ∨ NoSelf (s.disk.node sb))
    (failed : ∀ t, Unchanged sb refs s t → t.Idle → Fits sb panics s.commits more t →
      post (-1) t [])
    (continued : ∀ t, Unlinked sb refs (s.cwdOf p) path s t → t.Idle →
      Fits sb panics s.commits more t → post 0 t []) :
    Wp panics deadlocks (sysUnlink sb p path) post s [] := by
  have keptB : Kept sb refs s.begun := kept
  have ledger := idle.ledger capacity
  have unused : Ledger sb panics s.commits sb.bitmap more s.begun :=
    ledger.mono (Finset.Subset.refl _) (by omega)
  have giveUp : ∀ t, Quiet sb refs refs s.begun t → post (-1) t.ended [] := fun t quiet =>
    failed _ ⟨(quiet.work keptB).ended, quiet.disk⟩ (idle.ended quiet.steady)
      (idle.fits quiet.steady (quiet.ledger unused))
  simp only [sysUnlink, wp_bind]
  apply beginOp_wp idle
  apply nameiparent_wp valid slots cached.begun keptB cwd typed
  · intro t _ quiet
    simp only [endOp_wp, wp_bind, wp_pure]
    exact giveUp t quiet
  · intro dp name d t1 resolved locks
    simp only [wp_bind]
    apply locks
    intro t2 toT2 dir2 inum2
    have give : Wp panics deadlocks (unlinkBad sb dp) post t2 [dp] := by
      apply unlinkBad_wp valid dir2.cached (keptB.quiet toT2)
      exact fun t3 quiet => giveUp t3 (toT2.andThen quiet)
    simp only [wp_ite]
    by_cases dots : namecmp name dot = 0 ∨ namecmp name dotdot = 0
    · rw [if_pos dots]
      exact give
    · rw [if_neg dots]
      obtain ⟨notDot, notDotdot⟩ := not_or.mp dots
      have ents2 : t2.dirents sb dp = (s.disk.node sb d).ents := by
        rw [State.dirents, toT2.disk, inum2]
        rfl
      have kind : (s.disk.node sb d).kind = .dir := by
        have isDir := dir2.kind
        rw [toT2.disk, inum2] at isDir
        exact isDir
      simp only [wp_bind]
      apply dirlookup_wp slots.cons dir2
      · exact fun _ => give
      · intro k e ip t3 hit entry nonzero got inum
        rw [ents2] at hit entry
        have toT3 : Quiet sb refs (ip ::ₘ dp ::ₘ refs) s.begun t3 := toT2.andThen got.of_cons
        have dir3 : Opened sb (ip ::ₘ dp ::ₘ refs) t3 dp :=
          dir2.quiet got (Multiset.mem_cons_of_mem dir2.member)
        have dirInum : (t3.inode dp).inum = d := (got.inum dir2.member).trans inum2
        have tree3 : t3.disk.node sb = s.disk.node sb := by
          rw [toT3.disk]
          rfl
        apply unlinkFound_wp valid blocks (toT3.ledger ledger) dir3 (keptB.quiet toT3)
        · rw [dir2.ents_quiet got, ents2]
          exact (List.getElem?_eq_some_iff.mp entry).1
        · refine typed.imp_right fun whole => ?_
          rw [inum, tree3]
          exact whole.1 _ kind e (mem_of_getElem? entry) nonzero
        · exact counted
        · intro same
          refine loops.elim (fun all => all ip) fun noSelf => ?_
          refine absurd ?_ (noSelf _ name k e kind notDot notDotdot hit entry)
          rw [← inum, same, dirInum]
        · exact fun t4 quiet => giveUp t4 (toT3.andThen quiet)
        · intro t4 apart used many empty work4 tree4 ledger4
          obtain ⟨larger, ledger4⟩ := ledger4
          rw [inum, tree3] at used many empty
          rw [inum, dirInum] at apart
          rw [inum, tree3, dirInum] at tree4
          have toT4 : Work sb refs refs s.begun t4 :=
            ⟨work4.cached, toT3.steady.trans work4.steady, work4.kept⟩
          refine continued _ ⟨toT4.ended, ?_⟩ (idle.ended toT4.steady)
            (idle.fits toT4.steady ledger4)
          exact ⟨_, name, k, e, resolved, kind, notDot, notDotdot, hit, entry, nonzero, apart,
            used, many, empty, tree4⟩

end

end Unlink

/-! ## Adding a name -/

section Link

variable {sb : Superblock} {panics : Panic → Prop} {deadlocks : Nat → Prop}
  {past : List (List Nat)} {known : Finset Nat} {more p : Nat} {refs : Multiset Nat} {s t : State}
  {dp ip : Nat} {post : Int → State → List Nat → Prop} {old new : List UInt8} {tree : Nat → Node}

/-- Only the kinds and the entries of the nodes matter to a walk. -/
theorem walk_congr {later : Nat → Node} (kind : ∀ i, (later i).kind = (tree i).kind)
    (ents : ∀ i, (later i).ents = (tree i).ents) (parent : Bool) (fuel i : Nat)
    (path name : List UInt8) :
    walk later parent fuel i path name = walk tree parent fuel i path name := by
  induction fuel generalizing i path name with
  | zero => rfl
  | succ fuel ih => simp only [walk, kind, ents, ih]

/-- `link` is asked for a name under which a directory finds itself. -/
def SelfLink (tree : Nat → Node) (cwd : Nat) (old new : List UInt8) : Prop :=
  ∃ i last d name k e, resolve tree false cwd old = some (i, last) ∧ (tree i).kind ≠ .dir ∧
    resolve tree true cwd new = some (d, name) ∧ lookup (tree d).ents name = some k ∧
    (tree d).ents[k]? = some e ∧ e.inum = d

/-- Why `sys_link` fails: there is nothing to link, or no directory to link it in, or the name is
taken. -/
def LinkRefused (tree : Nat → Node) (cwd : Nat) (old new : List UInt8) : Prop :=
  ∀ i last d name, resolve tree false cwd old = some (i, last) → (tree i).kind ≠ .dir →
    resolve tree true cwd new = some (d, name) →
    ∃ k e, lookup (tree d).ents name = some k ∧ (tree d).ents[k]? = some e ∧ e.inum ≠ d

/-- A `link` that is refused does not wait for itself. -/
theorem LinkRefused.not_self {cwd : Nat} (refused : LinkRefused tree cwd old new) :
    ¬ SelfLink tree cwd old new := by
  grind [SelfLink, LinkRefused]

/-- A name was added. -/
structure LinkMade (sb : Superblock) (refs : Multiset Nat) (cwd : Nat) (old new : List UInt8)
    (s t : State) : Prop extends Work sb refs refs s t where
  tree : ∃ i last d name, resolve (s.disk.node sb) false cwd old = some (i, last) ∧
    (s.disk.node sb i).kind ≠ .free ∧ (s.disk.node sb i).kind ≠ .dir ∧
    resolve (s.disk.node sb) true cwd new = some (d, name) ∧ (s.disk.node sb d).kind = .dir ∧
    lookup (s.disk.node sb d).ents name = none ∧
    t.disk.node sb = settle (t.inums refs) (settle (t.inums refs)
      (linkTree (s.disk.node sb) d i name) d) i

/-- Another inode in use. -/
theorem settle_cons {used : Multiset Nat} {d i : Nat} (different : d ≠ i) :
    settle (i ::ₘ used) tree d = settle used tree d := by
  grind [settle]

/-- `sys_link` has counted the link to come. -/
structure Counting (sb : Superblock) (refs later : Multiset Nat) (ip : Nat) (s t : State) :
    Prop where
  cached : Cached sb later t
  steady : Steady refs s t
  valid : (t.inode ip).valid = true
  disk : t.disk = s.disk.addLink (t.inode ip).inum 1
  tree : t.disk.node sb = update (s.disk.node sb) (t.inode ip).inum
    (linked (s.disk.node sb (t.inode ip).inum) 1)
  range : short (s.disk.dinode (t.inode ip).inum).nlink =
    (s.disk.dinode (t.inode ip).inum).nlink
  used : (s.disk.node sb (t.inode ip).inum).kind ≠ .free
  plain : (s.disk.node sb (t.inode ip).inum).kind ≠ .dir

namespace Counting

variable {middle later : Multiset Nat} {u : State} (counting : Counting sb refs middle ip s t)

include counting

/-- Work that leaves the disk. -/
theorem quiet (quiet : Quiet sb (ip ::ₘ refs) later t u) : Counting sb refs later ip s u := by
  have inum := quiet.inum (Multiset.mem_cons_self ip refs)
  refine ⟨quiet.cached, counting.steady.trans quiet.steady.of_cons,
    quiet.valid (Multiset.mem_cons_self ip refs) counting.valid, ?_, ?_, ?_, ?_, ?_⟩
  all_goals rw [inum]
  · rw [quiet.disk, counting.disk]
  · rw [quiet.disk, counting.tree]
  · exact counting.range
  · exact counting.used
  · exact counting.plain

/-- The inode is in use, whether or not it had links before. -/
theorem kept (kept : Kept sb refs s) : Kept sb (ip ::ₘ refs) t := by
  intro n used nlink
  by_cases here : n = (t.inode ip).inum
  · exact ⟨ip, Multiset.mem_cons_self ip refs, here.symm, counting.valid⟩
  · rw [counting.tree, update_of_ne here] at used nlink
    obtain ⟨jp, among, inum, valid⟩ := kept n used nlink
    exact ⟨jp, Multiset.mem_cons_of_mem among, (counting.steady.inum jp among).trans inum,
      counting.steady.valid jp among valid⟩

/-- Counting a link changes no type. -/
theorem kind (n : Nat) : (t.disk.node sb n).kind = (s.disk.node sb n).kind := by
  rw [counting.tree, update_apply]
  split
  · rename_i here
    rw [here]
    rfl
  · rfl

/-- Counting a link changes no entry. -/
theorem ents (n : Nat) : (t.disk.node sb n).ents = (s.disk.node sb n).ents := by
  rw [counting.tree, update_apply]
  split
  · rename_i here
    rw [here]
    rfl
  · rfl

end Counting

/-- `sys_link` counts the link. -/
theorem linkCount_ok {post : Unit → State → Prop} (ledger : Ledger sb panics past known more t)
    (here : sb.iblock (t.inode ip).inum ∈ known) (quiet : Quiet sb refs (ip ::ₘ refs) s t)
    (filled : (t.inode ip).valid = true) (plain : (s.disk.node sb (t.inode ip).inum).kind ≠ .dir)
    (continued : ∀ u, Counting sb refs (ip ::ₘ refs) ip s u →
      (u.inode ip).inum = (t.inode ip).inum → Ledger sb panics past known more u → post () u) :
    Act.Ok panics (addLink sb ip 1) post t := by
  have member := Multiset.mem_cons_self ip refs
  have isAlloc := quiet.cached.alloc member filled
  apply addLink_ok ledger here quiet.cached member filled
  intro u counted disk later
  have inum : (u.inode ip).inum = (t.inode ip).inum := counted.steady.inum ip member
  refine continued u ⟨counted.cached, quiet.steady.trans counted.steady.of_cons,
    counted.steady.valid ip member filled, ?_, ?_, ?_, ?_, ?_⟩ inum later
  all_goals rw [inum]
  · rw [disk, quiet.disk]
  · rw [counted.tree, quiet.disk]
    rfl
  · exact quiet.disk ▸ quiet.cached.sound.nlink _ isAlloc
  · exact quiet.disk ▸ Disk.node_alloc isAlloc
  · exact plain

/-- The label `bad` of `sys_link`: the link that was counted is taken back. -/
theorem linkBad_wp (valid : sb.Valid) (ledger : Ledger sb panics past known more t)
    (here : sb.iblock (t.inode ip).inum ∈ known) (kept : Kept sb refs s)
    (counting : Counting sb refs (ip ::ₘ refs) ip s t)
    (continued : ∀ u, Unchanged sb refs s u → Ledger sb panics past known more u →
      post (-1) u.ended []) :
    Wp panics deadlocks (linkBad sb ip) post t [] := by
  have member := Multiset.mem_cons_self ip refs
  simp only [linkBad, wp_bind, wp_liftM, endOp_wp, wp_pure]
  apply ilock_typed counting.cached member
    (.inr (Disk.node_alloc (counting.cached.alloc member counting.valid)))
  intro t1 locked filled1
  apply addLink_ok (locked.ledger ledger) ((locked.inum member).symm ▸ here) locked.cached member
    filled1
  intro t2 changed disk2 ledger2
  rw [locked.disk, locked.inum member, counting.disk, Disk.addLink_addLink counting.range]
    at disk2
  have steady2 : Steady refs s t2 :=
    counting.steady.trans (locked.steady.trans changed.steady).of_cons
  have kept2 : Kept sb refs t2 := kept.steady steady2 (by rw [disk2])
  apply iunlockput_quiet valid changed.cached kept2 (by simp)
  intro t3 dropped
  exact continued t3 ⟨⟨dropped.cached, steady2.trans dropped.steady, kept2.quiet dropped⟩,
    dropped.disk.trans disk2⟩ (dropped.ledger ledger2)

section Into

variable {name : List UInt8} (valid : sb.Valid)
  (ledger : Ledger sb panics past known (3 + more) t)
  (here : sb.iblock (t.inode ip).inum ∈ known) (kept : Kept sb refs s)
  (counting : Counting sb refs (dp ::ₘ ip ::ₘ refs) ip s t)
  (dir : Opened sb (dp ::ₘ ip ::ₘ refs) t dp)

/-- `sys_link` once the directory has the entry. -/
theorem linkDone_wp {larger : Finset Nat} {u : State} (valid : sb.Valid)
    (ledger : Ledger sb panics past larger more u)
    (hereDp : sb.iblock (t.inode dp).inum ∈ larger) (hereIp : sb.iblock (t.inode ip).inum ∈ larger)
    (work : Work sb (dp ::ₘ ip ::ₘ refs) (dp ::ₘ ip ::ₘ refs) t u)
    (apart : (t.inode dp).inum ≠ (t.inode ip).inum)
    (continued : ∀ v, Work sb refs refs t v → v.disk.node sb = settle (v.inums refs)
      (settle (v.inums refs) (u.disk.node sb) (t.inode dp).inum) (t.inode ip).inum →
      (∃ larger, Ledger sb panics past larger more v) → post 0 v.ended []) :
    Wp panics deadlocks (do
      iunlockput sb dp
      iput sb ip
      endOp
      return 0) post u [dp] := by
  have member : dp ∈ dp ::ₘ ip ::ₘ refs := Multiset.mem_cons_self dp _
  have ipMember := Multiset.mem_cons_self ip refs
  simp only [wp_bind, endOp_wp, wp_pure]
  apply iunlockput_wp valid work.cached
    (fun _ => ⟨ledger, (work.steady.inum dp member).symm ▸ hereDp⟩)
    (List.mem_singleton_self dp) (by simp)
  intro t1 put later
  have work1 : Work sb (ip ::ₘ refs) (ip ::ₘ refs) t t1 :=
    work.of_cons.andThen (put.work work.cached work.kept)
  have tree1 := put.tree work.cached work.kept
  rw [List.erase_cons_head]
  apply iput_wp valid work1.cached
    (fun _ => ⟨later ledger, (work1.steady.inum ip ipMember).symm ▸ hereIp⟩)
    (fun among => absurd among (by simp))
  intro _ t2 last later2
  have work2 : Work sb refs refs t t2 :=
    work1.of_cons.andThen (last.work work1.cached work1.kept)
  refine continued t2 work2 ?_ ⟨larger, later2 (later ledger)⟩
  have inums : t.inums (ip ::ₘ refs) = (t.inode ip).inum ::ₘ t.inums refs :=
    Multiset.map_cons ..
  rw [last.tree work1.cached work1.kept, tree1, work1.steady.inum ip ipMember,
    work.steady.inum dp member, inums_congr (fun _ => Multiset.mem_cons_of_mem) work.steady, inums,
    settle_cons apart, inums_congr (fun _ => Multiset.mem_cons_of_mem) work1.steady,
    inums_congr (fun _ among => among) work2.steady]

include valid ledger here kept counting dir

/-- `sys_link` once it has the directory of the new name. -/
theorem linkInto_wp (slots : Slots panics (dp ::ₘ ip ::ₘ refs) 1)
    (stock : panics .outOfBlocks ∨ 2 ≤ t.disk.freeBlocks sb)
    (room : lookup (s.disk.node sb (t.inode dp).inum).ents name = none →
      Roomy panics (s.disk.node sb (t.inode dp).inum).ents)
    (busy : ∀ k e, lookup (s.disk.node sb (t.inode dp).inum).ents name = some k →
      (s.disk.node sb (t.inode dp).inum).ents[k]? = some e → e.inum = (t.inode dp).inum →
      deadlocks dp)
    (failed : ∀ k e u, lookup (s.disk.node sb (t.inode dp).inum).ents name = some k →
      (s.disk.node sb (t.inode dp).inum).ents[k]? = some e → e.inum ≠ (t.inode dp).inum →
      Unchanged sb refs s u → Ledger sb panics past known more u → post (-1) u.ended [])
    (continued : ∀ u, lookup (s.disk.node sb (t.inode dp).inum).ents name = none →
      Work sb refs refs s u → u.disk.node sb = settle (u.inums refs) (settle (u.inums refs)
        (linkTree (s.disk.node sb) (t.inode dp).inum (t.inode ip).inum name) (t.inode dp).inum)
        (t.inode ip).inum →
      (∃ larger, Ledger sb panics past larger more u) → post 0 u.ended []) :
    Wp panics deadlocks (linkInto sb ip dp name) post t [] := by
  have ipMember : ip ∈ dp ::ₘ ip ::ₘ refs :=
    Multiset.mem_cons_of_mem (Multiset.mem_cons_self ip refs)
  have apart : (t.inode dp).inum ≠ (t.inode ip).inum := by
    intro same
    have kind := dir.kind
    rw [counting.kind, same] at kind
    exact counting.plain kind
  have parent : t.disk.node sb (t.inode dp).inum = s.disk.node sb (t.inode dp).inum := by
    rw [counting.tree, update_of_ne apart]
  rw [linkInto, wp_bind]
  apply dir.ilock_wp (by simp)
  intro t1 locked dir1
  have keptT : Kept sb (ip ::ₘ refs) t := counting.kept kept
  have kept1 : Kept sb (dp ::ₘ ip ::ₘ refs) t1 := (keptT.quiet locked.of_cons).cons
  have dpInum : (t1.inode dp).inum = (t.inode dp).inum := locked.inum dir.member
  have ents1 : t1.dirents sb dp = (s.disk.node sb (t.inode dp).inum).ents := by
    rw [dir.ents_quiet locked, State.dirents, parent]
  have devs : ¬ (t1.inode dp).dev ≠ (t1.inode ip).dev := by
    rw [(locked.cached.inum dp dir.member).1, (locked.cached.inum ip ipMember).1]
    exact fun different => different rfl
  have budget : Ledger sb panics past (insert (sb.iblock (t1.inode dp).inum) known) (2 + more)
      t1 := (locked.ledger (ledger.mono (Finset.Subset.refl known) (by omega))).add _
  have dpKnown := Finset.mem_insert_self (sb.iblock (t1.inode dp).inum) known
  rw [wp_bind, wp_get]
  dsimp only
  rw [if_neg devs, wp_bind]
  apply dirlink_wp (m := 0) valid slots budget dpKnown ?_ (ents1 ▸ room) dir1 kept1
    (locked.cached.inum ip ipMember).2.2
  · exact fun jp among => List.mem_singleton.mp among ▸ dir.member
  · intro k e jp found entry among same
    rw [ents1] at found entry
    rw [List.mem_singleton.mp among, dpInum] at same
    exact List.mem_singleton.mp among ▸ busy k e found entry same.symm
  · intro k e t2 hit entry others searched
    rw [ents1] at hit entry
    have other : e.inum ≠ (t.inode dp).inum :=
      fun same => others dp (List.mem_singleton_self dp) (dpInum.trans same.symm)
    have toT2 : Quiet sb (dp ::ₘ ip ::ₘ refs) (dp ::ₘ ip ::ₘ refs) t t2 :=
      locked.andThen searched
    rw [if_pos rfl, wp_bind]
    apply iunlockput_quiet valid searched.cached (keptT.quiet toT2.of_cons) (by simp)
    intro t3 given
    have toT3 : Quiet sb (ip ::ₘ refs) (ip ::ₘ refs) t t3 := toT2.of_cons.andThen given
    have unused : Ledger sb panics past known more t :=
      ledger.mono (Finset.Subset.refl known) (by omega)
    apply linkBad_wp valid (toT3.ledger unused)
      ((toT3.inum (Multiset.mem_cons_self ip refs)).symm ▸ here) kept (counting.quiet toT3)
    exact fun u => failed k e u hit entry other
  · intro t2 larger absent added bigger ledger2 _
    have work2 : Work sb (dp ::ₘ ip ::ₘ refs) (dp ::ₘ ip ::ₘ refs) t t2 :=
      (locked.work keptT.cons).andThen (dir1.work kept1 added)
    rw [ents1] at absent
    rw [if_neg (by decide)]
    apply linkDone_wp valid ledger2 (dpInum ▸ bigger dpKnown)
      (bigger (Finset.mem_insert_of_mem here)) work2 apart
    intro u work tree
    refine continued u absent ⟨work.cached, counting.steady.trans work.steady, work.kept⟩ ?_
    rw [tree, added.tree, dpInum, locked.inum ipMember, locked.disk, parent, ents1, counting.tree]
    rfl
  · intro _
    refine stock.imp_right fun enough => ?_
    rw [locked.disk]
    exact (State.lacks_le t1 dp _).trans enough

end Into

/-- `sys_link` once it has counted the link. -/
theorem linkNew_wp (valid : sb.Valid) (slots : Slots panics refs 3)
    (ledger : Ledger sb panics past known (3 + more) t) (here : sb.iblock (t.inode ip).inum ∈ known)
    (stock : panics .outOfBlocks ∨ 2 ≤ t.disk.freeBlocks sb)
    (room : RoomFor panics (s.disk.node sb) (s.cwdOf p) new)
    (kept : Kept sb refs s) (cwd : (s.proc p).cwd ∈ refs) (typed : Typed sb panics (s.cwdOf p) s)
    (counting : Counting sb refs (ip ::ₘ refs) ip s t) (busy : ∀ d name k e,
      resolve (s.disk.node sb) true (s.cwdOf p) new = some (d, name) →
      lookup (s.disk.node sb d).ents name = some k → (s.disk.node sb d).ents[k]? = some e →
      e.inum = d → ∀ jp, deadlocks jp)
    (failed : ∀ u, (∀ d name,
      resolve (s.disk.node sb) true (s.cwdOf p) new = some (d, name) →
      ∃ k e, lookup (s.disk.node sb d).ents name = some k ∧
        (s.disk.node sb d).ents[k]? = some e ∧ e.inum ≠ d) →
      Unchanged sb refs s u → (∃ larger, Ledger sb panics past larger more u) →
      post (-1) u.ended [])
    (continued : ∀ d name u,
      resolve (s.disk.node sb) true (s.cwdOf p) new = some (d, name) →
      (s.disk.node sb d).kind = .dir → lookup (s.disk.node sb d).ents name = none →
      Work sb refs refs s u → u.disk.node sb = settle (u.inums refs) (settle (u.inums refs)
        (linkTree (s.disk.node sb) d (t.inode ip).inum name) d) (t.inode ip).inum →
      (∃ larger, Ledger sb panics past larger more u) → post 0 u.ended []) :
    Wp panics deadlocks (do
      match ← nameiparent sb p new with
      | none => linkBad sb ip
      | some (dp, name) => linkInto sb ip dp name) post t [] := by
  have member := Multiset.mem_cons_self ip refs
  have home : t.cwdOf p = s.cwdOf p := by
    rw [State.cwdOf, State.cwdOf, counting.steady.proc, counting.steady.inum _ cwd]
  have cwdT : (t.proc p).cwd ∈ ip ::ₘ refs := by
    rw [counting.steady.proc]
    exact Multiset.mem_cons_of_mem cwd
  have resolves : resolve (t.disk.node sb) true (t.cwdOf p) new =
      resolve (s.disk.node sb) true (s.cwdOf p) new := by
    rw [home]
    exact walk_congr counting.kind counting.ents ..
  have typedT : Typed sb panics (t.cwdOf p) t := by
    refine typed.imp_right fun whole => ⟨fun d isDir e among nonzero => ?_, fun i among => ?_⟩
    · rw [counting.kind] at isDir ⊢
      rw [counting.ents] at among
      exact whole.1 d isDir e among nonzero
    · rw [counting.kind]
      exact whole.2 i (home ▸ among)
  rw [wp_bind, nameiparent]
  apply namex_wp valid slots.cons counting.cached (counting.kept kept) cwdT typedT
  · intro u missing searched
    rw [resolves] at missing
    apply linkBad_wp valid (searched.ledger ledger) ((searched.inum member).symm ▸ here) kept
      (counting.quiet searched)
    intro v unchanged later
    refine failed v (fun d name again => ?_) unchanged
      ⟨_, later.mono (Finset.Subset.refl _) (by omega)⟩
    exact absurd (again.symm.trans missing) (Option.some_ne_none _)
  · intro dp name u resolved searched opened
    have dir := opened rfl
    have inum := searched.inum member
    rw [resolves] at resolved
    apply linkInto_wp valid (searched.ledger ledger) (inum.symm ▸ here) kept
      (counting.quiet searched) dir slots.cons.cons (searched.disk ▸ stock) (room _ name resolved)
    · exact fun k e hit entry same => busy _ name k e resolved hit entry same dp
    · intro k e v hit entry apart unchanged later
      refine failed v (fun d name' again => ?_) unchanged ⟨_, later⟩
      obtain ⟨rfl, rfl⟩ := Prod.mk.inj (Option.some.inj (again.symm.trans resolved))
      exact ⟨k, e, hit, entry, apart⟩
    · intro v absent work tree
      rw [inum] at tree
      exact continued _ name v resolved ((counting.quiet searched).kind _ ▸ dir.kind) absent work
        tree

/-- `sys_link` by a process that runs alone. -/
theorem sysLink_wp (valid : sb.Valid) (slots : Slots panics refs 3)
    (capacity : Capacity sb panics (4 + more))
    (stock : panics .outOfBlocks ∨ 2 ≤ s.disk.freeBlocks sb)
    (room : RoomFor panics (s.disk.node sb) (s.cwdOf p) new) (idle : s.Idle)
    (cached : Cached sb refs s) (kept : Kept sb refs s) (cwd : (s.proc p).cwd ∈ refs)
    (typed : Typed sb panics (s.cwdOf p) s)
    (busy : SelfLink (s.disk.node sb) (s.cwdOf p) old new → ∀ ip, deadlocks ip)
    (failed : ∀ t, LinkRefused (s.disk.node sb) (s.cwdOf p) old new →
      Unchanged sb refs s t → t.Idle → Fits sb panics s.commits more t → post (-1) t [])
    (continued : ∀ t, LinkMade sb refs (s.cwdOf p) old new s t → t.Idle →
      Fits sb panics s.commits more t → post 0 t []) :
    Wp panics deadlocks (sysLink sb p old new) post s [] := by
  have keptB : Kept sb refs s.begun := kept
  have ledger := idle.ledger capacity
  have giveUp : ∀ t, LinkRefused (s.disk.node sb) (s.cwdOf p) old new →
      Unchanged sb refs s.begun t → (∃ larger, Ledger sb panics s.commits larger more t) →
      post (-1) t.ended [] := by
    rintro t refused unchanged ⟨larger, ledgerT⟩
    exact failed _ refused ⟨unchanged.toWork.ended, unchanged.disk⟩ (idle.ended unchanged.steady)
      (idle.fits unchanged.steady ledgerT)
  have quietly : ∀ t, LinkRefused (s.disk.node sb) (s.cwdOf p) old new →
      Quiet sb refs refs s.begun t → post (-1) t.ended [] := fun t refused quiet =>
    giveUp t refused ⟨quiet.work keptB, quiet.disk⟩
      ⟨_, quiet.ledger (ledger.mono (Finset.Subset.refl _) (by omega))⟩
  rw [sysLink, wp_bind]
  apply beginOp_wp idle
  rw [wp_bind]
  apply namei_wp valid (slots.mono (by decide)) cached.begun keptB cwd typed
  · intro t missing quiet
    refine quietly t (fun i last d name source => ?_) quiet
    exact absurd (source.symm.trans missing) (Option.some_ne_none _)
  · intro ip last t1 resolved found used
    have source : ∀ i other, resolve (s.disk.node sb) false (s.cwdOf p) old =
        some (i, other) → i = (t1.inode ip).inum :=
      fun i other again => congrArg Prod.fst (Option.some.inj (again.symm.trans resolved))
    have member := Multiset.mem_cons_self ip refs
    rw [wp_bind]
    apply ilock_typed found.cached member used
    intro t2 locked filled
    have toT2 : Quiet sb refs (ip ::ₘ refs) s.begun t2 := found.andThen locked.of_cons
    have inum2 : (t2.inode ip).inum = (t1.inode ip).inum := locked.inum member
    have kind : (t2.inode ip).copy.type = (s.disk.node sb (t2.inode ip).inum).kind :=
      toT2.disk ▸ locked.cached.copy_type member filled
    rw [wp_bind, wp_get, wp_ite]
    by_cases isDir : (t2.inode ip).copy.type = .dir
    · rw [if_pos isDir, wp_bind]
      apply iunlockput_quiet valid locked.cached (keptB.quiet toT2) (by simp)
      intro t3 dropped
      refine quietly t3 (fun i other d name again plain => ?_) (toT2.andThen dropped)
      rw [source i other again, ← inum2, ← kind] at plain
      exact absurd isDir plain
    · rw [if_neg isDir, wp_bind, wp_liftM]
      have budget : Ledger sb panics s.commits (insert (sb.iblock (t2.inode ip).inum) sb.bitmap)
          (3 + more) t2 := (toT2.ledger (ledger.mono (Finset.Subset.refl _) (by omega))).add _
      have here := Finset.mem_insert_self (sb.iblock (t2.inode ip).inum) sb.bitmap
      apply linkCount_ok budget here toT2 filled (kind ▸ isDir)
      intro t3 counting inum3 ledger3
      rw [wp_bind]
      apply iunlock_wp counting.cached member (List.mem_singleton_self ip)
      rw [List.erase_cons_head]
      apply linkNew_wp (s := s.begun) valid slots ledger3 (inum3.symm ▸ here) ?_ room keptB cwd
        typed counting
      · intro d name k e target hit entry same
        refine busy ⟨_, last, d, name, k, e, resolved, ?_, target, hit, entry, same⟩
        exact inum2 ▸ kind ▸ isDir
      · exact fun u refused => giveUp u fun i other d name _ _ => refused d name
      · rintro d name u target isDir' absent work tree ⟨larger, later⟩
        rw [inum3, inum2] at tree
        refine continued _ ⟨work.ended, ?_⟩ (idle.ended work.steady)
          (idle.fits work.steady later)
        have used := counting.used
        have plain := counting.plain
        rw [inum3, inum2] at used plain
        exact ⟨_, last, d, name, resolved, used, plain, target, isDir', absent, tree⟩
      · rw [counting.disk]
        exact stock

end Link

end Xv6.Fs
