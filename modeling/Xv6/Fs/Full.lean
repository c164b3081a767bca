import Mathlib.Order.Interval.Finset.Nat
import Xv6.Fs.Directory
import Xv6.Fs.Path

/-!
# Directories that are full

`dirlink` ignores that `writei` refuses to make a file larger than `MAXFILE * BSIZE`: it panics.
A directory reaches that size by links alone, with blocks and inodes to spare, so the condition
that a call needs is about the directory that gets the name.
-/

namespace Xv6.Fs

open Function Lib Finset Option List
open Prog (Wp)

/-! ## Directories with room -/

/-- The directory to which a path leads, if it lacks the last name, has a free entry or can still
grow by one. -/
def HasRoom (tree : Nat → Node) (cwd : Nat) (path : List UInt8) : Prop :=
  ∀ d name, resolve tree true cwd path = some (d, name) → lookup (tree d).ents name = none →
    (∃ e ∈ (tree d).ents, e.inum = 0) ∨
      direntSize * ((tree d).ents.length + 1) ≤ maxFile * bSize

section Room

variable {sb : Superblock} {d : Disk} {s : State} {p : Nat} {call : Call} {path : List UInt8}
  {panics : Panic → Prop}

/-- No directory has more entries than fit into the largest file. -/
theorem Disk.Sound.ents_le (sound : d.Sound sb) (i : Nat) :
    direntSize * (d.node sb i).ents.length ≤ maxFile * bSize := by
  unfold Disk.node
  split
  · rename_i isAlloc
    dsimp only
    split
    · rw [Disk.ents_length]
      exact (Nat.mul_div_le _ _).trans (sound.sized i isAlloc).1
    · exact Nat.zero_le _
  · exact Nat.zero_le _

theorem HasRoom.roomFor {cwd : Nat} (sound : d.Sound sb) (room : HasRoom (d.node sb) cwd path) :
    RoomFor panics (d.node sb) cwd path := by
  intro i name resolved absent
  rcases room i name resolved absent with free | growing
  · have below := freeIndex_lt free
    exact .inr ((Nat.mul_le_mul_left _ below).trans (sound.ents_le i))
  · have below := freeIndex_le (d.node sb i).ents
    exact .inr ((Nat.mul_le_mul_left _ (Nat.succ_le_succ below)).trans growing)

/-- A call that enters a name into a directory with room. -/
theorem enters_wp {deadlocks : Nat → Prop} (means : Means sb panics 0) (valid : sb.Valid)
    (rest : AtRest sb s) (enters : call.Enters path) (ready : call.ready s p = true)
    (room : HasRoom (s.disk.node sb) (s.cwdOf p) path) (typed : Typed sb panics (s.cwdOf p) s)
    (busy : call.LinksSelf (s.disk.node sb) (s.cwdOf p) → ∀ ip, deadlocks ip) :
    Wp panics deadlocks (syscall sb p call) (fun _ _ held => held = []) s [] := by
  obtain ⟨inside, live⟩ := Call.inside_of_ready ready
  have fits : RoomFor panics (s.disk.node sb) (s.cwdOf p) path := room.roomFor rest.cached.sound
  cases call with
  | «open» name omode =>
    obtain ⟨rfl, creates⟩ := enters
    exact open_rest means valid rest inside live (fun _ => fits) typed (fun _ _ _ _ => rfl)
  | link old new =>
    obtain rfl := enters
    exact link_rest means valid fits rest inside live typed
      (fun self => busy ⟨old, _, rfl, self⟩) (fun _ _ _ => rfl)
  | mkdir name =>
    obtain rfl := enters
    have concerns : (Call.mkdir path).Creates path .dir := ⟨rfl, rfl⟩
    exact makeNode_rest means valid fits rest inside live typed (by decide) concerns
      (fun _ _ _ => rfl)
  | mknod name major minor =>
    obtain rfl := enters
    have concerns : (Call.mknod path major minor).Creates path .dev := ⟨rfl, rfl⟩
    exact makeNode_rest means valid fits rest inside live typed (by decide) concerns
      (fun _ _ _ => rfl)
  | _ => exact enters.elim

/-- In every reachable state, a call that enters a name into a directory with room does not end in
the panic of `dirlink`. If no lookup meets a free inode and the call does not wait for itself, it
returns, unless blocks, inodes, cache entries or the log run out. -/
theorem room_no_overflow (valid : sb.Valid) (image : Image sb d) (reached : Reached sb (boot d) s)
    (enters : call.Enters path) (ready : call.ready s p = true)
    (room : HasRoom (s.disk.node sb) (s.cwdOf p) path) :
    (syscall sb p call).run s [] ≠ .panic .dirlink ∧
    (NoDangling (s.disk.node sb) → (s.disk.node sb rootIno).kind = .dir →
      ¬ call.LinksSelf (s.disk.node sb) (s.cwdOf p) →
      (∃ r t, (syscall sb p call).run s [] = .done r t []) ∨
      ∃ error, (syscall sb p call).run s [] = .panic error ∧ error.Exhausted ∧
        error ≠ .dirlink) := by
  have rest := reached_atRest valid image reached
  constructor
  · intro panicked
    have means : Means sb (· ≠ Panic.dirlink) 0 :=
      ⟨⟨by decide, by decide, by decide⟩, .inl ⟨by decide, by decide⟩⟩
    have wp : Wp (· ≠ Panic.dirlink) (fun _ => True) (syscall sb p call)
        (fun _ _ held => held = []) s [] :=
      enters_wp means valid rest enters ready room (.inl (by decide)) (fun _ _ => trivial)
    rw [Wp, panicked] at wp
    exact wp rfl
  · intro whole root apart
    obtain ⟨inside, live⟩ := Call.inside_of_ready ready
    have means : Means sb (fun error => error.Exhausted ∧ error ≠ Panic.dirlink) 0 :=
      ⟨⟨⟨.outOfBlocks, by decide⟩, ⟨.ialloc, by decide⟩, ⟨.iget, by decide⟩⟩,
        .inl ⟨⟨.tooBig, by decide⟩, ⟨.outsideTrans, by decide⟩⟩⟩
    have wp : Wp (fun error => error.Exhausted ∧ error ≠ Panic.dirlink) (fun _ => False)
        (syscall sb p call) (fun _ _ held => held = []) s [] :=
      enters_wp means valid rest enters ready room (rest.typed whole root inside live)
        (fun self => absurd self apart)
    rw [Wp] at wp
    cases outcome : (syscall sb p call).run s [] with
    | done r t held =>
      rw [outcome] at wp
      obtain rfl := wp
      exact .inl ⟨r, t, rfl⟩
    | panic error =>
      rw [outcome] at wp
      exact .inr ⟨error, rfl, wp⟩
    | deadlock ip =>
      rw [outcome] at wp
      exact wp.elim
    | asleep =>
      rw [outcome] at wp
      exact wp.elim

/-- A directory is made in a new directory, which has its two entries and grows by one. -/
theorem room_no_overflow_mkfs : ∃ s, Reached mkfsSuper (boot mkfsDisk) s ∧
    (s.disk.node mkfsSuper 2).ents.length = 2 ∧
    HasRoom (s.disk.node mkfsSuper) (s.cwdOf initproc) [97, 47, 98] ∧
    (syscall mkfsSuper initproc (.mkdir [97, 47, 98])).run s [] ≠ .panic .dirlink := by
  obtain ⟨s, reached, ready, two, parent⟩ : ∃ s, Reached mkfsSuper (boot mkfsDisk) s ∧
      (Call.mkdir [97, 47, 98]).ready s initproc = true ∧
      (s.disk.node mkfsSuper 2).ents.length = 2 ∧
      resolve (s.disk.node mkfsSuper) true (s.cwdOf initproc) [97, 47, 98] = some (2, [98]) :=
    exists_reach [(initproc, .mkdir [97])] (by decide +kernel)
  have room : HasRoom (s.disk.node mkfsSuper) (s.cwdOf initproc) [97, 47, 98] := by
    intro d name resolved _
    rw [parent] at resolved
    cases resolved
    rw [two]
    exact .inr (by decide)
  have enters : (Call.mkdir [97, 47, 98]).Enters [97, 47, 98] := rfl
  exact ⟨s, reached, two, room,
    (room_no_overflow mkfsSuper_valid mkfs_image reached enters ready room).1⟩

end Room

/-! ## Filling the root directory -/

/-- A letter, by its number. -/
def letter (k : Nat) : UInt8 := .ofNat (97 + k)

/-- The names that fill a directory: its own two, then words of three letters. -/
def label : Nat → List UInt8
  | 0 => dot
  | 1 => dotdot
  | k + 2 => [letter (k % 26), letter (k / 26 % 26), letter (k / 676)]

theorem letter_toNat {k : Nat} (low : k < 26) : (letter k).toNat = 97 + k :=
  UInt8.toNat_ofNat_of_lt' (show 97 + k < 256 by omega)

theorem letter_ne {k : Nat} (low : k < 26) {c : UInt8} (before : c.toNat < 97) : c ≠ letter k := by
  rintro rfl
  rw [letter_toNat low] at before
  omega

theorem letter_injective {j k : Nat} (lowJ : j < 26) (lowK : k < 26)
    (same : letter j = letter k) : j = k := by
  have values := congrArg UInt8.toNat same
  rw [letter_toNat lowJ, letter_toNat lowK] at values
  omega

/-- A label of letters has no byte before them. -/
theorem not_mem_label {k : Nat} (few : k < 17576) {c : UInt8} (before : c.toNat < 97) :
    c ∉ label (k + 2) := by
  grind [label, letter_ne]

theorem label_plain {k : Nat} (few : k < 17576) : 0 ∉ label k := by
  rcases k with _ | _ | k
  · decide
  · decide
  · exact not_mem_label (by omega) (by decide)

theorem label_take (k : Nat) : (label k).take dirSiz = label k := by
  rcases k with _ | _ | k <;> rfl

/-- No label comes twice. -/
theorem label_injective {j k : Nat} (less : j < k) (few : k < 17576) : label j ≠ label k := by
  intro same
  rcases k with _ | _ | k
  · omega
  · obtain rfl : j = 0 := by omega
    exact absurd same (by decide)
  · have dots : (46 : UInt8) ∉ label (k + 2) := not_mem_label (by omega) (by decide)
    rcases j with _ | _ | j
    · exact dots (same ▸ (by decide : (46 : UInt8) ∈ label 0))
    · exact dots (same ▸ (by decide : (46 : UInt8) ∈ label 1))
    · simp only [label, List.cons.injEq, and_true] at same
      have first := letter_injective (Nat.mod_lt _ (by decide)) (Nat.mod_lt _ (by decide)) same.1
      have second := letter_injective (Nat.mod_lt _ (by decide)) (Nat.mod_lt _ (by decide))
        same.2.1
      have third := letter_injective (show j / 676 < 26 by omega) (show k / 676 < 26 by omega)
        same.2.2
      omega

/-- Different labels stand for different names. -/
theorem namecmp_label {j k : Nat} (fewJ : j < 17576) (fewK : k < 17576) :
    namecmp (label k) (strncpy (label j) dirSiz) = 0 ↔ k = j := by
  have keys : nameKey (strncpy (label j) dirSiz) = nameKey (label j) := nameKey_nameKey _
  grind [namecmp_eq_zero_iff, nameKey_eq_iff, label_plain, label_take, label_injective]

/-- The first `n` entries of a directory are in use, with the first labels as their names. -/
structure Filled (n : Nat) (ents : List Dirent) : Prop where
  used : ∀ k < n, ents[k]? = some ⟨if k < 2 then rootIno else 2, strncpy (label k) dirSiz⟩
  free : ∀ k e, n ≤ k → ents[(k : Nat)]? = some e → e.inum = 0

namespace Filled

variable {n m k : Nat} {ents : List Dirent} (filled : Filled n ents) {e : Dirent}

include filled

theorem length_le : n ≤ ents.length := by
  by_contra short
  have last := filled.used ents.length (by omega)
  rw [getElem?_eq_none le_rfl] at last
  cases last

theorem inum_eq (low : k < n) (entry : ents[k]? = some e) : e.inum = 1 ∨ e.inum = 2 := by
  rw [filled.used k low, Option.some.injEq] at entry
  subst entry
  dsimp only
  split
  · exact .inl rfl
  · exact .inr rfl

theorem freeIndex_eq : freeIndex ents = n := by
  have atLeast := filled.length_le
  unfold freeIndex
  cases found : ents.findIdx? fun e => e.inum == 0 with
  | none =>
    rw [getD_none]
    by_contra longer
    have inside : n < ents.length := by omega
    have present := findIdx?_eq_none_iff.mp found ents[n] (getElem_mem inside)
    rw [filled.free n _ (Nat.le_refl n) (getElem?_eq_getElem inside)] at present
    cases present
  | some k =>
    obtain ⟨inside, isFree, before⟩ := findIdx?_eq_some_iff_getElem.mp found
    rw [beq_iff_eq] at isFree
    rw [getD_some]
    rcases Nat.lt_trichotomy k n with less | equal | more
    · have used := filled.inum_eq less (getElem?_eq_getElem inside)
      omega
    · exact equal
    · have zero := filled.free n _ (Nat.le_refl n) (getElem?_eq_getElem (by omega))
      exact absurd (beq_iff_eq.mpr zero) (before n more)

/-- A label is found where it was put. -/
theorem hit_iff (few : n ≤ 17576) (fewM : m < 17576) (entry : ents[k]? = some e) :
    hit (label m) e = true ↔ k < n ∧ k = m := by
  unfold hit
  rw [Bool.and_eq_true, decide_eq_true_iff, beq_iff_eq]
  by_cases low : k < n
  · have used := filled.inum_eq low entry
    grind [namecmp_label, cases Filled]
  · have zero := filled.free k e (by omega) entry
    exact ⟨fun both => absurd zero both.1, fun both => absurd both.1 low⟩

theorem lookup_none (beyond : n ≤ m) (few : m < 17576) : lookup ents (label m) = none := by
  apply findIdx?_eq_none_iff.mpr
  intro e member
  obtain ⟨k, entry⟩ := mem_iff_getElem?.mp member
  rw [← Bool.not_eq_true, filled.hit_iff (by omega) few entry]
  omega

theorem lookup_some (within : m < n) (few : n ≤ 17576) : lookup ents (label m) = some m := by
  have inside : m < ents.length := within.trans_le filled.length_le
  refine findIdx?_eq_some_iff_getElem.mpr ⟨inside, ?_, ?_⟩
  · exact (filled.hit_iff few (by omega) (getElem?_eq_getElem inside)).mpr ⟨within, rfl⟩
  · intro k before
    rw [filled.hit_iff few (by omega) (getElem?_eq_getElem (before.trans inside))]
    omega

/-- The next label is added. -/
theorem add (more : 2 ≤ n) :
    Filled (n + 1) (setEnt ents (freeIndex ents) ⟨2, strncpy (label n) dirSiz⟩) := by
  constructor <;> grind [filled.freeIndex_eq, setEnt_getElem?, cases Filled]

end Filled

theorem components_label {k : Nat} (few : k < 17576) :
    components (label (k + 2)) = [label (k + 2)] := by
  have plain : ∀ c ∈ label (k + 2), c ≠ slash := by
    rintro c member rfl
    exact not_mem_label few (by decide) member
  rw [components, runs_plain plain (by simp [label]), List.map_singleton, label_take]

theorem startOf_label (k cwd : Nat) : startOf cwd (label (k + 2)) = cwd := by
  have different : some (letter (k % 26)) ≠ some slash := by
    intro same
    exact letter_ne (Nat.mod_lt k (by decide)) (by decide) (Option.some.inj same).symm
  exact if_neg different

/-- The root directory has the first labels as its names, and all but two are those of one device.
There are no other inodes. -/
structure Crowd (n : Nat) (tree : Nat → Node) : Prop where
  root : (tree rootIno).kind = .dir ∧ (tree rootIno).nlink = 1
  ents : Filled n (tree rootIno).ents
  file : tree 2 = ⟨.dev, (n - 2 : Nat), []⟩
  others : ∀ i, i ≠ rootIno → i ≠ 2 → (tree i).kind = .free

namespace Crowd

variable {n : Nat} {tree : Nat → Node} (crowd : Crowd n tree)

include crowd

theorem resolve_parent {k : Nat} (few : k < 17576) :
    resolve tree true rootIno (label (k + 2)) = some (rootIno, label (k + 2)) := by
  refine (walk_true_iff le_rfl).mpr ⟨[], components_label few, ?_, crowd.root.1⟩
  rw [startOf_label]
  rfl

theorem resolve_file (some : 2 < n) (few : n ≤ 17576) :
    ∃ last, resolve tree false rootIno (label 2) = .some (2, last) := by
  have found : (resolve tree false rootIno (label 2)).map Prod.fst = .some 2 := by
    rw [resolve, walk_false_eq le_rfl, components_label (by decide),
      startOf_label, foldlM_cons, descend, if_pos crowd.root.1,
      crowd.ents.lookup_some some few, map_some, entAt, getD_eq_getElem?_getD,
      crowd.ents.used 2 some]
    rfl
  obtain ⟨⟨i, last⟩, result, rfl⟩ := map_eq_some_iff.mp found
  exact ⟨last, result⟩

theorem noDangling : NoDangling tree := by
  intro d isDir e member used
  obtain rfl : d = rootIno := by
    grind [cases Crowd]
  obtain ⟨k, entry⟩ := mem_iff_getElem?.mp member
  have low : k < n := by
    by_contra high
    exact used (crowd.ents.free k e (by omega) entry)
  rcases crowd.ents.inum_eq low entry with isRoot | isFile
  · rw [isRoot, show (1 : Nat) = rootIno from rfl, crowd.root.1]
    decide
  · rw [isFile, crowd.file]
    dsimp only
    decide

/-- The device gets the next label. -/
theorem add (more : 2 ≤ n) (few : n < 2 ^ 15) :
    Crowd (n + 1) (linkTree tree rootIno 2 (label n)) where
  root := by
    rw [linkTree, update_self]
    exact crowd.root
  ents := by
    rw [linkTree, update_self]
    exact crowd.ents.add more
  file := by
    rw [linkTree, update_of_ne (by decide), update_self, crowd.file, linked]
    dsimp only
    rw [short_of_mem (by omega) (by omega), Node.mk.injEq]
    exact ⟨rfl, by omega, rfl⟩
  others := by
    intro i notRoot notFile
    rw [linkTree, update_of_ne notRoot, update_of_ne notFile]
    exact crowd.others i notRoot notFile

/-- Nothing is freed. -/
theorem settled (some : 2 < n) (used : Multiset Nat) :
    settle used (settle used tree rootIno) 2 = tree := by
  have root : settle used tree rootIno = tree := by
    rw [settle, if_neg]
    rw [crowd.root.2]
    exact fun both => absurd both.1 (by decide)
  rw [root, settle, if_neg]
  rw [crowd.file]
  dsimp only
  omega

end Crowd

/-- The blocks that a few inodes do not have are free. -/
theorem Owned.le_freeBlocks {sb : Superblock} {d : Disk} (valid : sb.Valid) (owned : Owned sb d)
    {among : Finset Nat} (few : ∀ i, d.Alloc sb i → i ∈ among) :
    sb.nblocks ≤ d.freeBlocks sb + among.card * nPlaces := by
  let places := among ×ˢ Finset.range nPlaces
  have covered : Finset.Ico (sb.size - sb.nblocks) sb.size ⊆
      ((Finset.range sb.size).filter fun b => d.bitmap b = false) ∪
        places.image fun at_ => d.addr at_.1 at_.2 := by
    intro b member
    obtain ⟨low, high⟩ := Finset.mem_Ico.mp member
    rw [Finset.mem_union, Finset.mem_filter, Finset.mem_range, mem_image]
    cases marked : d.bitmap b with
    | false => exact .inl ⟨high, rfl⟩
    | true =>
      obtain ⟨i, k, isAlloc, inside, addr⟩ := owned.used b ⟨low, high⟩ marked
      exact .inr ⟨(i, k), Finset.mem_product.mpr ⟨few i isAlloc, Finset.mem_range.mpr inside⟩, addr⟩
  calc sb.nblocks = (Finset.Ico (sb.size - sb.nblocks) sb.size).card := by
        have fits := valid.nblocks
        rw [Nat.card_Ico]
        omega
    _ ≤ _ := Finset.card_le_card covered
    _ ≤ d.freeBlocks sb + (places.image fun at_ => d.addr at_.1 at_.2).card :=
        card_union_le _ _
    _ ≤ d.freeBlocks sb + places.card := Nat.add_le_add_left card_image_le _
    _ = d.freeBlocks sb + among.card * nPlaces := by
        rw [Finset.card_product, Finset.card_range]

/-- The first process has given a device the labels from the third to the `n`-th. -/
structure Stuffed (n : Nat) (s : State) : Prop where
  reached : Reached mkfsSuper (boot mkfsDisk) s
  crowd : Crowd n (s.disk.node mkfsSuper)
  users : s.users = {0}
  live : (s.proc initproc).live = true
  cwd : (s.proc initproc).cwd = 0
  home : s.cwdOf initproc = rootIno

namespace Stuffed

variable {n : Nat} {s : State} (stuffed : Stuffed n s)

include stuffed

theorem rest : AtRest mkfsSuper s :=
  reached_atRest mkfsSuper_valid mkfs_image stuffed.reached

theorem unused {i : Nat} (notRoot : i ≠ rootIno) (notFile : i ≠ 2) :
    ¬ s.disk.Alloc mkfsSuper i := by
  intro isAlloc
  have free := stuffed.crowd.others i notRoot notFile
  rw [Disk.node, if_pos isAlloc] at free
  exact isAlloc.2.2 free

theorem freeBlocks : 2 ≤ s.disk.freeBlocks mkfsSuper := by
  have few : ∀ i, s.disk.Alloc mkfsSuper i → i ∈ ({1, 2} : Finset Nat) := by
    intro i isAlloc
    rw [mem_insert, Finset.mem_singleton]
    by_contra other
    exact stuffed.unused (fun same => other (.inl same)) (fun same => other (.inr same)) isAlloc
  have free := stuffed.rest.cached.sound.owned.le_freeBlocks mkfsSuper_valid few
  have places : ({1, 2} : Finset Nat).card * nPlaces = 282 := by decide
  have blocks : mkfsSuper.nblocks = 941 := rfl
  omega

theorem ready (old new : List UInt8) : (Call.link old new).ready s initproc = true := by
  show (decide (initproc < nProc) && (s.proc initproc).live) = true
  rw [stuffed.live]
  rfl

/-- What the next link comes to. -/
theorem link_wp {panics : Panic → Prop} {post : Int → State → List Nat → Prop} (some : 2 < n)
    (few : n < 17576) (room : Roomy panics (s.disk.node mkfsSuper rootIno).ents)
    (continued : ∀ t, Cached mkfsSuper s.users t → Steady s.users s t →
      t.disk.node mkfsSuper = linkTree (s.disk.node mkfsSuper) rootIno 2 (label n) → post 0 t []) :
    Wp panics (fun _ => False) (sysLink mkfsSuper initproc (label 2) (label n)) post s [] := by
  obtain ⟨m, rfl⟩ : ∃ m, n = m + 2 := ⟨n - 2, by omega⟩
  have rest := stuffed.rest
  have crowd := stuffed.crowd
  have home : (s.cwdOf initproc) = rootIno := stuffed.home
  have parent := crowd.resolve_parent (show m < 17576 by omega)
  have absent := crowd.ents.lookup_none le_rfl few
  obtain ⟨last, source⟩ := crowd.resolve_file some (by omega)
  have slots : s.users.toFinset.card + 3 ≤ nInode := by
    rw [stuffed.users]
    decide
  have capacity : Capacity mkfsSuper panics (4 + 0) := by
    right
    rw [show mkfsSuper.bitmap = {58} from mkfs_bitmap 30]
    decide
  have roomFor : RoomFor panics (s.disk.node mkfsSuper)
      (s.cwdOf initproc) (label (m + 2)) := by
    intro d name resolved _
    rw [home, parent] at resolved
    cases resolved
    exact room
  apply sysLink_wp mkfsSuper_valid (.inr slots) capacity (.inr stuffed.freeBlocks) roomFor
    rest.idle rest.cached rest.kept (AtRest.cwd_mem (by decide) stuffed.live)
    (rest.typed crowd.noDangling crowd.root.1 (by decide) stuffed.live)
  · grind [SelfLink]
  · intro t refused
    rw [home] at refused
    have isDev : (s.disk.node mkfsSuper 2).kind ≠ .dir := by
      rw [crowd.file]
      dsimp only
      decide
    obtain ⟨k, e, found, -⟩ := refused 2 last rootIno _ source isDev parent
    rw [absent] at found
    cases found
  · intro t made _ _
    obtain ⟨i, other, d, name, sourceT, -, -, resolved, -, -, tree⟩ := made.tree
    rw [home, source] at sourceT
    rw [home, parent] at resolved
    cases sourceT
    cases resolved
    rw [(crowd.add (by omega) (by omega)).settled (by omega)] at tree
    exact continued t made.cached made.steady tree

/-- The next label is added. -/
theorem add (some : 2 < n) (few : n < 4480) : ∃ t, Stuffed (n + 1) t := by
  have wp : Wp (fun _ => False) (fun _ => False)
      (syscall mkfsSuper initproc (.link (label 2) (label n)))
      (fun _ t held => held = [] ∧ Steady s.users s t ∧
        t.disk.node mkfsSuper = linkTree (s.disk.node mkfsSuper) rootIno 2 (label n)) s [] := by
    apply stuffed.link_wp some (by omega)
    · right
      rw [stuffed.crowd.ents.freeIndex_eq]
      unfold direntSize dirSiz maxFile nDirect nIndirect bSize
      omega
    · exact fun t _ steady tree => ⟨rfl, steady, tree⟩
  obtain ⟨r, t, held, result, rfl, steady, tree⟩ := wp.total
  have moves : callStep mkfsSuper s (initproc, .link (label 2) (label n)) = .some t := by
    rw [callStep, if_pos (stuffed.ready _ _), result]
  refine ⟨t, .next _ stuffed.reached trivial moves, ?_, ?_, ?_, ?_, ?_⟩
  · rw [tree]
    exact stuffed.crowd.add (by omega) (by omega)
  · rw [← stuffed.users, State.users, State.users, State.cwds, State.cwds, State.opens,
      State.opens, steady.proc, steady.file]
  · rw [steady.proc]
    exact stuffed.live
  · rw [steady.proc]
    exact stuffed.cwd
  · have member : 0 ∈ s.users := by
      rw [stuffed.users]
      exact Multiset.mem_singleton_self 0
    have home := stuffed.home
    rw [State.cwdOf, stuffed.cwd] at home
    rw [State.cwdOf, steady.proc, stuffed.cwd, steady.inum 0 member, home]

omit stuffed in
/-- The largest directory has no room for another. -/
theorem overflow (stuffed : Stuffed 4480 s) :
    (syscall mkfsSuper initproc (.link (label 2) (label 4480))).run s [] = .panic .dirlink := by
  have wp : Wp (· = Panic.dirlink) (fun _ => False)
      (syscall mkfsSuper initproc (.link (label 2) (label 4480))) (fun _ _ _ => False) s [] := by
    have expected : Roomy (· = Panic.dirlink) (s.disk.node mkfsSuper rootIno).ents := .inl rfl
    apply stuffed.link_wp (by decide) (by decide) expected
    intro t cached _ tree
    have added := stuffed.crowd.add (by decide) (by decide)
    rw [← tree] at added
    have longer := added.ents.length_le
    have largest := cached.sound.ents_le rootIno
    unfold direntSize dirSiz maxFile nDirect nIndirect bSize at largest
    omega
  grind [Wp]

end Stuffed

/-- The first label of letters is that of a new device. -/
theorem stuffed_three : ∃ s, Stuffed 3 s := by
  have executed : (callStep mkfsSuper (boot mkfsDisk) (initproc, .mknod (label 2) 1 1)).map
      (fun s => decide ((s.disk.node mkfsSuper rootIno).kind = .dir ∧
        (s.disk.node mkfsSuper rootIno).nlink = 1 ∧
        (s.disk.node mkfsSuper rootIno).ents = ([⟨1, strncpy (label 0) dirSiz⟩,
          ⟨1, strncpy (label 1) dirSiz⟩, ⟨2, strncpy (label 2) dirSiz⟩] ++
            List.replicate 29 ⟨0, List.replicate dirSiz 0⟩ : List Dirent) ∧
        (s.disk.node mkfsSuper 2).kind = .dev ∧ (s.disk.node mkfsSuper 2).nlink = 1 ∧
        (s.disk.node mkfsSuper 2).ents = [] ∧
        (∀ i < mkfsSuper.ninodes, i ≠ rootIno → i ≠ 2 → (s.disk.dinode i).type = .free) ∧
        s.users = {0} ∧ (s.proc initproc).live = true ∧ (s.proc initproc).cwd = 0 ∧
        s.cwdOf initproc = rootIno)) = some true := by
    decide +kernel
  obtain ⟨s, moves, observed⟩ := map_eq_some_iff.mp executed
  obtain ⟨kind, nlink, ents, type, links, empty, free, users, live, cwd, home⟩ :=
    of_decide_eq_true observed
  have file : s.disk.node mkfsSuper 2 = ⟨.dev, 1, []⟩ :=
    calc s.disk.node mkfsSuper 2 = ⟨(s.disk.node mkfsSuper 2).kind,
          (s.disk.node mkfsSuper 2).nlink, (s.disk.node mkfsSuper 2).ents⟩ := rfl
      _ = ⟨.dev, 1, []⟩ := by rw [type, links, empty]
  refine ⟨s, .next _ .start trivial moves, ⟨⟨kind, nlink⟩, ?_, file, ?_⟩, users, live, cwd, home⟩
  · rw [ents]
    constructor
    · intro k low
      rcases k with _ | _ | _ | k
      · rfl
      · rfl
      · rfl
      · omega
    grind
  · intro i notRoot notFile
    rw [Disk.node, if_neg]
    · rfl
    · exact fun isAlloc => isAlloc.2.2 (free i isAlloc.2.1 notRoot notFile)

theorem exists_stuffed (n : Nat) (few : n + 3 ≤ 4480) : ∃ s, Stuffed (n + 3) s := by
  induction n with
  | zero => exact stuffed_three
  | succ n ih =>
    obtain ⟨s, stuffed⟩ := ih (by omega)
    exact stuffed.add (by omega) (by omega)

/-- A process fills the root directory with links to one device; the next link panics, with blocks
and inodes to spare. -/
theorem full_directory_panics : ∃ s, Reached mkfsSuper (boot mkfsDisk) s ∧
    2 ≤ s.disk.freeBlocks mkfsSuper ∧
    (∃ i, rootIno ≤ i ∧ i < mkfsSuper.ninodes ∧ (s.disk.dinode i).type = .free) ∧
    (Call.link (label 2) (label 4480)).ready s initproc = true ∧
    lookup (s.disk.node mkfsSuper rootIno).ents (label 4480) = none ∧
    (syscall mkfsSuper initproc (.link (label 2) (label 4480))).run s [] = .panic .dirlink := by
  obtain ⟨s, stuffed⟩ := exists_stuffed 4477 le_rfl
  refine ⟨s, stuffed.reached, stuffed.freeBlocks, ⟨3, by decide, by decide, ?_⟩, stuffed.ready _ _,
    stuffed.crowd.ents.lookup_none le_rfl (by decide), stuffed.overflow⟩
  by_contra used
  exact stuffed.unused (by decide) (by decide) ⟨by decide, by decide, used⟩

end Xv6.Fs
