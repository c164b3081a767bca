import Mathlib.Data.Finset.Card
import Xv6.Fs.Inode
import Xv6.Lib.Run
import Xv6.Lib.Spin

/-!
# Concurrent droppers of one inode

Any number of processes execute `iput` on one cached inode that has no links, each `acquire` and
`release` of `ip->lock` and of `icache.lock` a step of its own. `iput` decides whether it drops the
last reference in one critical section and drops it in a later one. Two processes can so each see
the other's reference; the theorem says when the last reference frees the inode all the same.
-/

namespace Xv6.Fs.LastPut

open Function Lib Finset
open Act (Ok ok_bind ok_get ok_ite ok_set)

/-! ## Freeing the inode -/

/-- A disk inode that is free and has no contents. -/
structure Emptied (dinode : Dinode) : Prop where
  type : dinode.type = .free
  size : dinode.size = 0
  addrs : ∀ k ≤ nDirect, dinode.addrs k = 0

/-- The cached inode still stands for the same disk inode, with as many references. -/
structure Keeps (ip : Nat) (s t : State) : Prop where
  ref : (t.inode ip).ref = (s.inode ip).ref
  inum : (t.inode ip).inum = (s.inode ip).inum

section Free

variable {sb : Superblock} {ip b : Nat} {s : State}

/-- Code that may panic: what holds if it does not. -/
abbrev Then {α : Type} (act : FsM α) (post : α → State → Prop) (s : State) : Prop :=
  Ok (fun _ => True) act post s

theorem logWrite_then {post : Unit → State → Prop} (continued : ∀ lh, post () { s with lh := lh }) :
    Then (logWrite sb b) post s := by
  simp only [logWrite, ok_bind, ok_get, ok_ite, Act.ok_throw, ok_set]
  split
  · trivial
  · split
    · trivial
    · exact continued _

theorem bfree_then : Then (bfree sb b) (fun _ t => t.inode = s.inode) s := by
  simp only [bfree, ok_bind, ok_get, ok_ite, Act.ok_throw, Act.ok_modify]
  split
  · trivial
  · exact logWrite_then fun _ => rfl

/-- `iupdate` writes the copy to the disk. -/
theorem iupdate_then : Then (iupdate sb ip)
    (fun _ t => t.inode = s.inode ∧ t.disk.dinode (s.inode ip).inum = (s.inode ip).copy) s := by
  simp only [iupdate, ok_bind, ok_get, ok_set]
  exact logWrite_then fun _ => ⟨rfl, by simp [State.setDinode]⟩

theorem setCopy_copy (copy : Dinode) : ((s.setCopy ip copy).inode ip).copy = copy := by
  simp [State.setCopy, State.setInode]

/-- Assigning the copy keeps the rest of the cached inode. -/
theorem Keeps.setCopy {t u : State} (keeps : Keeps ip s t) (same : u.inode = t.inode)
    (copy : Dinode) : Keeps ip s (u.setCopy ip copy) where
  ref := by simpa [State.setCopy, State.setInode, same] using keeps.ref
  inum := by simpa [State.setCopy, State.setInode, same] using keeps.inum

theorem Keeps.congr {t u : State} (keeps : Keeps ip s t) (same : u.inode = t.inode) :
    Keeps ip s u where
  ref := by rw [same, keeps.ref]
  inum := by rw [same, keeps.inum]

/-- The first loop clears the direct addresses. -/
theorem truncDirect_then : Then (truncDirect sb ip)
    (fun _ t => Keeps ip s t ∧ ∀ k < nDirect, (t.inode ip).copy.addrs k = 0) s := by
  -- what is no longer in the list has been cleared
  refine (Act.ok_forM (fun rest t => Keeps ip s t ∧
    ∀ k < nDirect, k ∉ rest → (t.inode ip).copy.addrs k = 0) ?_ ?_).mono ?_
  · exact ⟨⟨rfl, rfl⟩, fun k low outside => absurd (List.mem_range.mpr low) outside⟩
  · intro i rest t inv
    obtain ⟨keeps, cleared⟩ := inv
    simp only [ok_bind, ok_get, ok_ite, Act.ok_pure]
    split
    · refine bfree_then.mono ?_
      intro _ u same
      refine ⟨keeps.setCopy same _, ?_⟩
      intro k low outside
      rw [setCopy_copy, same]
      by_cases here : k = i
      · simp [here]
      · have := cleared k low (by simp [here, outside])
        simpa [here] using this
    grind
  · intro _ t inv
    exact ⟨inv.1, fun k low => inv.2 k low (by simp)⟩

theorem truncIndirect_then {words : Block} :
    Then (truncIndirect sb words) (fun _ t => t.inode = s.inode) s := by
  refine Act.ok_forM (fun _ (t : State) => t.inode = s.inode) rfl ?_
  grind [Act.ok_pure, bfree_then]

/-- The indirect block is freed and its address cleared. -/
theorem truncTree_then : Then (truncTree sb ip) (fun _ t => Keeps ip s t ∧
      (t.inode ip).copy.addrs = update (s.inode ip).copy.addrs nDirect 0) s := by
  simp only [truncTree, ok_bind, ok_get]
  refine truncIndirect_then.mono ?_
  intro _ t first
  refine bfree_then.mono ?_
  intro _ u second
  have keeps : Keeps ip s s := ⟨rfl, rfl⟩
  refine ⟨keeps.setCopy (second.trans first) _, ?_⟩
  rw [setCopy_copy, second, first]

/-- `itrunc` leaves neither size nor addresses. -/
theorem itrunc_then : Then (itrunc sb ip) (fun _ t => Keeps ip s t ∧ (t.inode ip).copy.size = 0 ∧
      ∀ k ≤ nDirect, (t.inode ip).copy.addrs k = 0) s := by
  have finish (t : State) (keeps : Keeps ip s t)
      (cleared : ∀ k ≤ nDirect, (t.inode ip).copy.addrs k = 0) :
      Then (do set (t.setCopy ip { (t.inode ip).copy with size := 0 }); iupdate sb ip)
        (fun _ t => Keeps ip s t ∧ (t.inode ip).copy.size = 0 ∧
          ∀ k ≤ nDirect, (t.inode ip).copy.addrs k = 0) t := by
    simp only [ok_bind, ok_set]
    refine iupdate_then.mono ?_
    intro _ u result
    refine ⟨(keeps.setCopy rfl _).congr result.1, ?_⟩
    rw [result.1, setCopy_copy]
    exact ⟨rfl, cleared⟩
  simp only [itrunc, ok_bind, ok_get, ok_ite]
  refine truncDirect_then.mono ?_
  intro _ t direct
  obtain ⟨keeps, low⟩ := direct
  split
  · refine truncTree_then.mono ?_
    intro _ u tree
    refine finish u ⟨tree.1.ref.trans keeps.ref, tree.1.inum.trans keeps.inum⟩ ?_
    intro k le
    rw [tree.2]
    by_cases here : k = nDirect
    · simp [here]
    · simpa [here] using low k (by omega)
  · rename_i zero
    refine finish t keeps ?_
    intro k le
    by_cases here : k = nDirect
    · simpa [here] using zero
    · exact low k (by omega)

/-- The inode is free on the disk and has no contents there. -/
theorem iputFree_then : Then (iputFree sb ip)
    (fun _ t => Keeps ip s t ∧ Emptied (t.disk.dinode (s.inode ip).inum)) s := by
  simp only [iputFree, ok_bind, Act.ok_modify]
  refine itrunc_then.mono ?_
  intro _ t truncated
  obtain ⟨keeps, size, addrs⟩ := truncated
  refine iupdate_then.mono ?_
  intro _ u result
  obtain ⟨slots, written⟩ := result
  have typed := (keeps.setCopy rfl _).congr slots
  rw [(keeps.setCopy rfl _).inum, setCopy_copy] at written
  constructor
  · exact ⟨by simpa [State.setInode] using typed.ref, by simpa [State.setInode] using typed.inum⟩
  · show Emptied (u.disk.dinode (s.inode ip).inum)
    rw [written]
    exact ⟨rfl, size, addrs⟩

end Free

/-! ## The droppers -/

/-- Where a process stands in `iput`. -/
inductive Pc where
  /-- About to `acquiresleep(&ip->lock)`. -/
  | call
  /-- At `if (ip->valid && ip->nlink == 0)`. -/
  | test
  /-- About to `acquire(&icache.lock)`. -/
  | enter
  /-- About to read `ip->ref` and `release(&icache.lock)`. -/
  | look
  /-- At `if (r == 1)`. -/
  | choose (r : Nat)
  /-- About to `releasesleep(&ip->lock)`. -/
  | unlock
  /-- About to `acquire(&icache.lock)` again. -/
  | drop
  /-- About to `ip->ref--` and `release(&icache.lock)`. -/
  | dec
  /-- Not in `iput`. -/
  | done
  deriving DecidableEq

/-- The counters at which a process holds `ip->lock`. -/
def Pc.locked : Pc → Bool
  | test | enter | look | choose _ | unlock => true
  | _ => false

/-- The counters at which a process has decided and has not yet dropped its reference. -/
def Pc.pending : Pc → Bool
  | drop | dec => true
  | _ => false

/-- The counters from which a process still looks at the count, or frees the inode. -/
def Pc.coming : Pc → Bool
  | call | test | enter | look | choose 1 => true
  | _ => false

/-- A cached inode and the processes that drop it. -/
structure Puts where
  fs : State
  /-- Holder of `ip->lock`. -/
  lock : Option Nat
  /-- Holder of `icache.lock`. -/
  icache : Option Nat
  pc : Nat → Pc

/-- Move one process. -/
def Puts.goto (s : Puts) (p : Nat) (pc : Pc) : Puts := { s with pc := update s.pc p pc }

section Steps

variable (sb : Superblock) (ip : Nat)

/-- The next step of a process in `iput`; none if it waits, has returned or panics. -/
def putStep (s : Puts) (p : Nat) : Option Puts :=
  let inode := s.fs.inode ip
  match s.pc p with
  | .call => if s.lock = none then some { s.goto p .test with lock := some p } else none
  | .test => some (s.goto p (if inode.valid = true ∧ inode.copy.nlink = 0 then .enter else .unlock))
  | .enter => if s.icache = none then some { s.goto p .look with icache := some p } else none
  | .look => some { s.goto p (.choose inode.ref) with icache := none }
  | .choose r =>
    if r = 1 then
      match iputFree sb ip s.fs with
      | .ok (_, fs) => some { s.goto p .unlock with fs := fs }
      | .error _ => none
    else some (s.goto p .unlock)
  | .unlock => some { s.goto p .drop with lock := none }
  | .drop => if s.icache = none then some { s.goto p .dec with icache := some p } else none
  | .dec => some { s.goto p .done with
      fs := s.fs.setInode ip { inode with ref := inode.ref - 1 }
      icache := none }
  | .done => none

/-- The first `n` processes call `iput`. -/
def calls (n : Nat) (fs : State) : Puts where
  fs := fs
  lock := none
  icache := none
  pc := fun p => if p < n then .call else .done

/-- How many processes are at a counter with a property. -/
def standing (n : Nat) (counts : Pc → Bool) (pc : Nat → Pc) : Nat :=
  ((Finset.range n).filter fun p => counts (pc p)).card

/-- A process that looks at the count finds its own reference alone, or another one that no
process is about to drop. -/
def Unhurried (n : Nat) (s : Puts) (p : Nat) : Prop :=
  s.pc p = .look →
    (s.fs.inode ip).ref = 1 ∨ standing n Pc.pending s.pc + 1 < (s.fs.inode ip).ref

instance (n : Nat) (s : Puts) (p : Nat) : Decidable (Unhurried ip n s p) :=
  inferInstanceAs (Decidable (_ → _))

end Steps

/-- The counters of a process that still has its reference. -/
def Pc.live (pc : Pc) : Bool := pc ≠ .done

section Count

variable {n p : Nat} {pc : Nat → Pc} {new : Pc}

/-- A process that keeps its reference. -/
theorem standing_live_keep (old : (pc p).live) (kept : new.live) :
    standing n Pc.live (update pc p new) = standing n Pc.live pc := by
  unfold standing
  congr 1
  apply Finset.filter_congr
  intro q _
  by_cases here : q = p
  · simp [here, old, kept]
  · simp [here]

/-- A process that drops its reference. -/
theorem standing_live_done (inside : p < n) (old : (pc p).live) :
    standing n Pc.live (update pc p .done) + 1 = standing n Pc.live pc := by
  have member : p ∈ (Finset.range n).filter fun q => (pc q).live := by simp [inside, old]
  rw [standing, standing, ← Finset.card_erase_add_one member]
  congr 2
  ext q
  by_cases here : q = p
  · simp [here, Pc.live]
  · simp [here]

/-- Some other process has its reference and is not about to drop it. -/
theorem exists_of_standing (few : standing n Pc.pending pc + 1 < standing n Pc.live pc) :
    ∃ q, q ≠ p ∧ (pc q).live ∧ ¬(pc q).pending := by
  by_contra! all
  have below : (Finset.range n).filter (fun q => (pc q).live) ⊆
      insert p ((Finset.range n).filter fun q => (pc q).pending) := by
    intro q member
    obtain ⟨inside, live⟩ := Finset.mem_filter.mp member
    by_cases here : q = p
    · simp [here]
    · exact Finset.mem_insert_of_mem (Finset.mem_filter.mpr ⟨inside, all q here live⟩)
  have le : standing n Pc.live pc ≤ standing n Pc.pending pc + 1 :=
    (Finset.card_le_card below).trans (card_insert_le _ _)
  omega

/-- Nobody has a reference. -/
theorem not_live_of_standing (none : standing n Pc.live pc = 0) {q : Nat} (inside : q < n) :
    ¬(pc q).live := by
  have empty := filter_eq_empty_iff.mp (Finset.card_eq_zero.mp none)
  exact empty (Finset.mem_range.mpr inside)

end Count

/-- The locks are held where the code holds them, the references are counted, and while the inode
is not free somebody will look at the count or keeps a reference. -/
structure PutInv (ip n others inum : Nat) (s : Puts) : Prop where
  lock : Guards s.lock (fun pc => pc.locked) s.pc
  outside : ∀ p, (s.pc p).live → p < n
  ref : (s.fs.inode ip).ref = others + standing n Pc.live s.pc
  same : (s.fs.inode ip).inum = inum
  last : Emptied (s.fs.disk.dinode inum) ∨
    ((s.fs.inode ip).valid = true ∧ (s.fs.inode ip).copy.nlink = 0 ∧
      (0 < others ∨ ∃ p, (s.pc p).coming))

namespace PutInv

variable {sb : Superblock} {ip n others inum p : Nat} {s t : Puts} {new : Pc}
  (h : PutInv ip n others inum s)

include h

theorem outside_update (old : (s.pc p).live) (q : Nat) (live : (update s.pc p new q).live) :
    q < n := by
  by_cases here : q = p
  · rw [here]
    exact h.outside p old
  · rw [update_of_ne here] at live
    exact h.outside q live

/-- A process moves on with its reference and the inode unchanged. -/
theorem moved (old : (s.pc p).live) (live : new.live) (fs : t.fs = s.fs)
    (pc : t.pc = update s.pc p new) (lock : Guards t.lock (fun pc => pc.locked) t.pc)
    (coming : (s.fs.inode ip).valid = true ∧ (s.fs.inode ip).copy.nlink = 0 →
      ((s.pc p).coming → new.coming) ∨ 0 < others ∨ ∃ q, q ≠ p ∧ (s.pc q).coming) :
    PutInv ip n others inum t where
  lock := lock
  outside := by
    rw [pc]
    exact h.outside_update old
  ref := by rw [fs, pc, standing_live_keep old live, h.ref]
  same := by rw [fs, h.same]
  last := by
    rw [fs, pc]
    refine h.last.imp_right ?_
    rintro ⟨valid, nlink, someone⟩
    refine ⟨valid, nlink, ?_⟩
    have other {q : Nat} (ne : q ≠ p) (there : (s.pc q).coming) :
        ∃ q, (update s.pc p new q).coming :=
      ⟨q, by rwa [update_of_ne ne]⟩
    rcases coming ⟨valid, nlink⟩ with own | kept | ⟨q, ne, there⟩
    · rcases someone with kept | ⟨q, there⟩
      · exact .inl kept
      · by_cases here : q = p
        · exact .inr ⟨p, by rw [update_self]; exact own (here ▸ there)⟩
        · exact .inr (other here there)
    · exact .inl kept
    · exact .inr (other ne there)

/-- The process that holds `ip->lock` looks at the count. Unless it sees its own reference alone,
another process has yet to call `acquiresleep`. -/
theorem look (here : s.pc p = .look) (unhurried : Unhurried ip n s p) :
    (s.fs.inode ip).ref = 1 ∨ 0 < others ∨ ∃ q, q ≠ p ∧ (s.pc q).coming := by
  rcases unhurried here with alone | few
  · exact .inl alone
  · rw [h.ref] at few
    by_cases kept : 0 < others
    · exact .inr (.inl kept)
    · have more : standing n Pc.pending s.pc + 1 < standing n Pc.live s.pc := by omega
      obtain ⟨q, ne, live, waits⟩ := exists_of_standing (p := p) more
      have unlocked : ¬(s.pc q).locked := fun there =>
        ne (h.lock.exclusive there (by rw [here]; rfl))
      refine .inr (.inr ⟨q, ne, ?_⟩)
      cases there : s.pc q with
      | choose r => simp [there, Pc.locked] at unlocked
      | _ => simp_all [Pc.locked, Pc.pending, Pc.live, Pc.coming]

/-- The last reference is dropped by a process that has freed the inode. -/
theorem free (here : s.pc p = .choose 1) {fs : State} {value : Unit}
    (freed : iputFree sb ip s.fs = .ok (value, fs)) :
    PutInv ip n others inum { s.goto p .unlock with fs := fs } := by
  have result : Then (iputFree sb ip) _ s.fs := iputFree_then
  rw [Then, Ok, freed] at result
  obtain ⟨keeps, emptied⟩ := result
  have old : (s.pc p).live := by rw [here]; rfl
  exact {
    lock := h.lock.keep (by rw [here]; rfl)
    outside := h.outside_update old
    ref := by
      show (fs.inode ip).ref = others + standing n Pc.live (update s.pc p .unlock)
      rw [keeps.ref, h.ref, standing_live_keep old rfl]
    same := by rw [keeps.inum, h.same]
    last := .inl (h.same ▸ emptied) }

/-- A process drops its reference. -/
theorem dec (here : s.pc p = .dec) :
    PutInv ip n others inum { s.goto p .done with
      fs := s.fs.setInode ip { s.fs.inode ip with ref := (s.fs.inode ip).ref - 1 }
      icache := none } := by
  have old : (s.pc p).live := by rw [here]; rfl
  have one := standing_live_done (h.outside p old) old
  exact {
    lock := h.lock.keep (by rw [here]; rfl)
    outside := h.outside_update old
    ref := by
      have ref := h.ref
      simp only [State.setInode, update_self, Puts.goto]
      omega
    same := by simpa [State.setInode] using h.same
    last := by
      simp only [State.setInode, update_self, Puts.goto]
      refine h.last.imp_right ?_
      rintro ⟨valid, nlink, someone⟩
      refine ⟨valid, nlink, someone.imp_right ?_⟩
      rintro ⟨q, there⟩
      have ne : q ≠ p := by
        rintro rfl
        simp [here, Pc.coming] at there
      exact ⟨q, by rwa [update_of_ne ne]⟩ }

/-- One step of one process. -/
theorem step (unhurried : Unhurried ip n s p) (moves : putStep sb ip s p = some t) :
    PutInv ip n others inum t := by
  unfold putStep at moves
  cases here : s.pc p with
  | call =>
    simp only [here] at moves
    split at moves
    · rename_i free
      cases moves
      refine h.moved (by rw [here]; rfl) rfl rfl rfl ?_ fun _ => .inl fun _ => rfl
      exact (free ▸ h.lock).acquire rfl
    · contradiction
  | test =>
    simp only [here] at moves
    cases moves
    split
    · exact h.moved (by rw [here]; rfl) rfl rfl rfl (h.lock.keep (by rw [here]; rfl))
        fun _ => .inl fun _ => rfl
    · rename_i skipped
      exact h.moved (by rw [here]; rfl) rfl rfl rfl (h.lock.keep (by rw [here]; rfl))
        fun unlinked => absurd unlinked skipped
  | enter =>
    simp only [here] at moves
    split at moves
    · cases moves
      exact h.moved (by rw [here]; rfl) rfl rfl rfl (h.lock.keep (by rw [here]; rfl))
        fun _ => .inl fun _ => rfl
    · contradiction
  | look =>
    simp only [here] at moves
    cases moves
    refine h.moved (by rw [here]; rfl) rfl rfl rfl (h.lock.keep (by rw [here]; rfl)) ?_
    intro _
    refine (h.look here unhurried).imp_left ?_
    intro alone _
    rw [alone]
    rfl
  | choose r =>
    simp only [here] at moves
    split at moves
    · rename_i one
      subst one
      split at moves
      · rename_i freed
        cases moves
        exact h.free here freed
      · contradiction
    · rename_i more
      cases moves
      refine h.moved (by rw [here]; rfl) rfl rfl rfl (h.lock.keep (by rw [here]; rfl)) ?_
      refine fun _ => .inl ?_
      intro coming
      rw [here] at coming
      unfold Pc.coming at coming
      split at coming <;> simp_all
  | unlock =>
    simp only [here] at moves
    cases moves
    refine h.moved (by rw [here]; rfl) rfl rfl rfl ?_ fun _ => .inl ?_
    · exact h.lock.release (by rw [here]; rfl) (by decide)
    · rw [here]
      exact fun coming => absurd coming (by simp [Pc.coming])
  | drop =>
    simp only [here] at moves
    split at moves
    · cases moves
      refine h.moved (by rw [here]; rfl) rfl rfl rfl (h.lock.keep (by rw [here]; rfl)) ?_
      rw [here]
      exact fun _ => .inl fun coming => absurd coming (by simp [Pc.coming])
    · contradiction
  | dec =>
    simp only [here] at moves
    cases moves
    exact h.dec here
  | done =>
    simp only [here] at moves
    contradiction

end PutInv

section Main

variable {sb : Superblock} {ip n others : Nat} {fs : State} {s : Puts}

theorem calls_inv (cached : 0 < (fs.inode ip).ref) (valid : (fs.inode ip).valid = true)
    (unlinked : (fs.inode ip).copy.nlink = 0) (counted : (fs.inode ip).ref = others + n) :
    PutInv ip n others (fs.inode ip).inum (calls n fs) where
  lock p := by
    show none = some p ↔ _
    simp only [calls]
    split <;> simp [Pc.locked]
  outside p live := by
    by_contra inside
    simp [calls, inside, Pc.live] at live
  ref := by
    grind [standing, Pc.live, calls, filter_true_of_mem]
  same := rfl
  last := by
    refine .inr ⟨valid, unlinked, ?_⟩
    by_cases kept : 0 < others
    · exact .inl kept
    · have inside : 0 < n := by omega
      exact .inr ⟨0, by simp [calls, inside, Pc.coming]⟩

/-- Any number of processes drop references to a cached inode without links, and others may keep
some. If no process looks at the count while every other reference is about to be dropped, the
inode is free on the disk and has no contents there when no reference is left. -/
theorem last_reference_frees (cached : 0 < (fs.inode ip).ref) (valid : (fs.inode ip).valid = true)
    (unlinked : (fs.inode ip).copy.nlink = 0) (counted : (fs.inode ip).ref = others + n)
    (reached : Reach (putStep sb ip) (Unhurried ip n) (calls n fs) s)
    (dropped : (s.fs.inode ip).ref = 0) : Emptied (s.fs.disk.dinode (fs.inode ip).inum) := by
  have inv : PutInv ip n others (fs.inode ip).inum s :=
    reached.invariant _ (calls_inv cached valid unlinked counted)
      fun _ _ _ inv unhurried moves => inv.step unhurried moves
  have ref := inv.ref
  rcases inv.last with emptied | ⟨_, _, kept | ⟨p, coming⟩⟩
  · exact emptied
  · omega
  · have live : (s.pc p).live := by
      unfold Pc.coming at coming
      split at coming <;> simp_all [Pc.live]
    exact absurd live (not_live_of_standing (by omega) (inv.outside p live))

end Main

/-- A disk of a thousand blocks, as `mkfs` lays it out. -/
def imageSuper : Superblock := ⟨1000, 941, 200, 30, 2, 32, 58⟩

/-- A file with one block that two processes have open and that has been unlinked. -/
def openFile : Dinode := ⟨.file, 0, 0, 0, 512, fun k => if k = 0 then 60 else 0⟩

/-- Its inode is cached, inside a transaction. -/
def openTwice : State where
  disk := ⟨fun inum => if inum = 2 then openFile else .fresh .free, fun _ => true,
    fun _ => Block.zero⟩
  inode := fun _ => ⟨1, 2, 2, true, openFile⟩
  file := fun _ => ⟨.none, 0, false, false, 0, 0, 0⟩
  pipe := fun _ => ⟨false, false⟩
  proc := fun _ => ⟨false, 0, fun _ => none⟩
  outstanding := 1
  lh := []
  commits := []

/-- One process after the other: the second frees the inode. -/
theorem last_reference_frees_openTwice : ∃ s,
    Reach (putStep imageSuper 0) (Unhurried 0 2) (calls 2 openTwice) s ∧
      (s.fs.inode 0).ref = 0 ∧ Emptied (s.fs.disk.dinode 2) := by
  obtain ⟨s, reached, dropped⟩ :
      ∃ s, Reach (putStep imageSuper 0) (Unhurried 0 2) (calls 2 openTwice) s ∧
        (s.fs.inode 0).ref = 0 :=
    exists_reach [0, 0, 0, 0, 0, 0, 0, 0, 1, 1, 1, 1, 1, 1, 1, 1] (by decide +kernel)
  exact ⟨s, reached, dropped, last_reference_frees (by decide) rfl rfl
    (show 2 = 0 + 2 from rfl) reached dropped⟩

/-- Each process looks at the count before the other drops its reference. Neither frees the inode,
and no reference is left. -/
theorem iput_both_see_two : ∃ s,
    Reach (putStep imageSuper 0) (fun _ _ => True) (calls 2 openTwice) s ∧
      (s.fs.inode 0).ref = 0 ∧ (s.fs.inode 0).copy.nlink = 0 ∧
      (s.fs.disk.dinode 2).nlink = 0 ∧ (s.fs.disk.dinode 2).type = .file :=
  exists_reach [0, 0, 0, 0, 0, 0, 1, 1, 1, 1, 1, 1, 0, 0, 1, 1] (by decide +kernel)

end Xv6.Fs.LastPut
