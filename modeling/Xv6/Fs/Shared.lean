import Mathlib.Algebra.Order.BigOperators.Group.Finset
import Xv6.Fs.Bytes

/-!
# Writes through a shared file

Processes that share a file in the file table share its offset. `filewrite` locks the inode for one
chunk at a time: in every interleaving the chunks follow one another in the file, and the chunks of
one call keep their order.
-/

namespace Xv6.Fs

open Function Lib Finset
open Prog (Wp wp_bind wp_get)

/-- One iteration of the loop of `filewrite`: a chunk is written at the offset of the file while its
inode is locked. -/
def filewriteChunk (sb : Superblock) (f : Nat) (chunk : List UInt8) : FsProg (Option Nat) := do
  beginOp
  let s ← get
  ilock (s.file f).ip
  let s ← get
  let result ← writei sb (s.file f).ip (s.file f).off chunk
  let s ← get
  set (s.setFile f { s.file f with off := (s.file f).off + result.getD 0 })
  iunlock (s.file f).ip
  endOp
  return result

/-- What the loop of `filewrite` does after a chunk. -/
def filewriteNext (sb : Superblock) (f fuel : Nat) (src : List UInt8) :
    Option Nat → FsProg Bool
  | none => return false
  | some written =>
    if written ≠ (src.take maxWrite).length then .panic .shortFilewrite
    else filewriteLoop sb f fuel (src.drop maxWrite)

theorem filewriteLoop_succ (sb : Superblock) (f fuel : Nat) (src : List UInt8) :
    filewriteLoop sb f (fuel + 1) src =
      if src = [] then pure true
      else filewriteChunk sb f (src.take maxWrite) >>= filewriteNext sb f fuel src := by
  rw [filewriteLoop]
  split
  · rfl
  · simp only [filewriteChunk, bind_assoc, pure_bind]
    rfl

/-- The inode number behind an open file. -/
def State.target (s : State) (f : Nat) : Nat := (s.inode (s.file f).ip).inum

/-- A chunk uses at most four blocks and the indirect block. -/
theorem card_touched_chunk (off : Nat) {n : Nat} (short : n ≤ maxWrite) :
    (touched off n).card ≤ 5 := by
  have few : (n - 1) / bSize ≤ 2 :=
    (Nat.div_le_div_right (Nat.sub_le_sub_right short 1)).trans (by decide)
  exact (card_touched off n).trans (Nat.add_le_add_right few 3)

theorem touched_subset {off n start m : Nat} (lower : off ≤ start) (upper : start + m ≤ off + n) :
    touched start m ⊆ touched off n := by
  intro k among
  obtain ⟨o, inside, used⟩ := mem_biUnion.mp among
  have below := Finset.mem_range.mp inside
  exact placesOf_subset_touched (by omega) (by omega) used

section Chunk

variable {sb : Superblock} {panics : Panic → Prop} {deadlocks : Nat → Prop} {s t : State} {f : Nat}
  {chunk : List UInt8} {wider : Finset Nat} {post : Option Nat → State → List Nat → Prop}

/-- Between two steps, a file that is open for writing on a regular file, with its offset in it. -/
structure Sharing (sb : Superblock) (f : Nat) (s : State) : Prop where
  rest : AtRest sb s
  isOpen : f ∈ s.fds
  isInode : (s.file f).kind = .inode
  writable : (s.file f).writable = true
  regular : (s.disk.node sb (s.target f)).kind = .file
  off : (s.file f).off ≤ (s.disk.dinode (s.target f)).size

/-- A chunk has been written at the offset, which has moved behind it. -/
structure Advanced (sb : Superblock) (f : Nat) (chunk : List UInt8) (s t : State) : Prop where
  sharing : Sharing sb f t
  target : t.target f = s.target f
  off : (t.file f).off = (s.file f).off + chunk.length
  contents : t.disk.contents (s.target f) =
    splice (s.disk.contents (s.target f)) (s.file f).off chunk
  others : ∀ i, i ≠ s.target f → s.disk.Alloc sb i →
    t.disk.dinode i = s.disk.dinode i ∧ t.disk.contents i = s.disk.contents i

/-- The inode behind the file when it is locked. -/
theorem Sharing.loaded (sharing : Sharing sb f s)
    (locked : Quiet sb s.users s.users s.begun t) (filled : (t.inode (s.file f).ip).valid = true) :
    Loaded sb (s.file f).ip t ∧ (t.inode (s.file f).ip).copy.type = .file ∧
      (t.inode (s.file f).ip).inum = s.target f := by
  have member := sharing.rest.ip_mem sharing.isOpen sharing.isInode
  have inum : (t.inode (s.file f).ip).inum = s.target f := locked.inum member
  have isAlloc := locked.cached.alloc member filled
  have type : (t.inode (s.file f).ip).copy.type = .file := by
    rw [locked.cached.copy_type member filled, inum, locked.disk]
    exact sharing.regular
  refine ⟨⟨locked.cached.sound.owned, (locked.cached.valid _ member filled).1, isAlloc,
    locked.cached.sound.sized _ isAlloc, ?_⟩, type, inum⟩
  rw [type]
  decide

/-- The offset is moved and the transaction ends. -/
theorem Sharing.advanced (sharing : Sharing sb f s) (steady : Steady s.users s.begun t)
    (cached : Cached sb s.users t) (tree : t.disk.node sb = s.disk.node sb)
    (contents : t.disk.contents (s.target f) =
      splice (s.disk.contents (s.target f)) (s.file f).off chunk)
    (others : ∀ i, i ≠ s.target f → s.disk.Alloc sb i →
      t.disk.dinode i = s.disk.dinode i ∧ t.disk.contents i = s.disk.contents i) :
    Advanced sb f chunk s
      (t.setFile f { t.file f with off := (t.file f).off + chunk.length }).ended := by
  have rest := sharing.rest
  have member := rest.ip_mem sharing.isOpen sharing.isInode
  have kept : Kept sb s.users s.begun := rest.kept
  have keptT : Kept sb s.users t := kept.steady steady tree
  obtain ⟨restT, -⟩ := rest.after ⟨cached.ended, steady.ended, keptT⟩
    (rest.idle.ended steady) (fun _ _ _ => by
      show (t.disk.node sb _).kind = _
      rw [tree])
  obtain ⟨later, -⟩ := restT.seek f ((t.file f).off + chunk.length)
  have file : t.file = s.file := steady.file
  -- the state after `end_op`
  obtain ⟨u, result⟩ : ∃ u, u = (t.setFile f
    { t.file f with off := (t.file f).off + chunk.length }).ended := ⟨_, rfl⟩
  have entry : u.file f = { s.file f with off := (s.file f).off + chunk.length } := by
    rw [result, ← file]
    exact update_self ..
  have target : u.target f = s.target f := by
    rw [State.target, entry, result]
    exact steady.inum _ member
  have disk : u.disk = t.disk := by
    rw [result]
    rfl
  have proc : u.proc = s.proc := by
    rw [result]
    exact steady.proc
  have size : (s.file f).off + chunk.length ≤ (t.disk.dinode (s.target f)).size := by
    rw [← Disk.contents_length, contents,
      length_splice (by rw [Disk.contents_length]; exact sharing.off)]
    exact le_max_right ..
  rw [← result]
  refine ⟨⟨?_, ?_, ?_, ?_, ?_, ?_⟩, target, ?_, ?_, ?_⟩
  · rw [result]
    exact later
  · rw [State.fds, proc]
    exact sharing.isOpen
  · rw [entry]
    exact sharing.isInode
  · rw [entry]
    exact sharing.writable
  · rw [target, disk, tree]
    exact sharing.regular
  · rw [target, disk, entry]
    exact size
  · rw [entry]
  · rw [disk]
    exact contents
  · rw [disk]
    exact others

theorem Advanced.refl (sharing : Sharing sb f s) : Advanced sb f [] s s :=
  ⟨sharing, rfl, rfl, splice_nil.symm, fun _ _ _ => ⟨rfl, rfl⟩⟩

theorem Advanced.trans {more : List UInt8} {u : State} (first : Advanced sb f chunk s t)
    (second : Advanced sb f more t u) (start : (s.file f).off ≤ (s.disk.dinode (s.target f)).size) :
    Advanced sb f (chunk ++ more) s u := by
  constructor <;> grind [splice_append, Disk.contents_length, Disk.Alloc, cases Advanced]

/-- The end of a chunk of `filewrite`, of which `part` was written. -/
theorem Sharing.unlock_wp {r : Option Nat} {part : List UInt8} (sharing : Sharing sb f s)
    (steady : Steady s.users s.begun t) (cached : Cached sb s.users t)
    (tree : t.disk.node sb = s.disk.node sb) (count : r.getD 0 = part.length)
    (contents : t.disk.contents (s.target f) =
      splice (s.disk.contents (s.target f)) (s.file f).off part)
    (others : ∀ i, i ≠ s.target f → s.disk.Alloc sb i →
      t.disk.dinode i = s.disk.dinode i ∧ t.disk.contents i = s.disk.contents i)
    (continued : ∀ u, Advanced sb f part s u → u.disk = t.disk → post r u []) :
    Wp panics deadlocks (do
      let s ← get
      set (s.setFile f { s.file f with off := (s.file f).off + r.getD 0 })
      iunlock (s.file f).ip
      endOp
      return r) post t [(s.file f).ip] := by
  have member := sharing.rest.ip_mem sharing.isOpen sharing.isInode
  have same : (t.file f).ip = (s.file f).ip := by
    rw [steady.file]
    rfl
  have cachedU := cached.of_eq (t := t.setFile f
    { t.file f with off := (t.file f).off + part.length }) rfl rfl
  have erased : [(s.file f).ip].erase (t.file f).ip = [] := by
    rw [same, List.erase_cons_head]
  simp only [wp_bind, wp_get, Prog.wp_set, Prog.wp_pure, endOp_wp]
  rw [count]
  apply iunlock_wp cachedU (same ▸ member) (List.mem_singleton.mpr same)
  rw [erased]
  exact continued _ (sharing.advanced steady cached tree contents others) rfl

/-- One locked chunk of `filewrite`: all of it is written, or none of a chunk that passes the
largest size of a file. -/
theorem filewriteChunk_wp (valid : sb.Valid)
    (capacity : Capacity sb panics ((touched (s.file f).off chunk.length).card + 1))
    (sharing : Sharing sb f s) (among : touched (s.file f).off chunk.length ⊆ wider)
    (stock : panics .outOfBlocks ∨ missing wider (s.disk.addr (s.target f)) ≤ s.disk.freeBlocks sb)
    (refused : ¬ (s.file f).off + chunk.length ≤ maxFile * bSize →
      ∀ t, Advanced sb f [] s t → post none t [])
    (continued : ∀ t, (s.file f).off + chunk.length ≤ maxFile * bSize → Advanced sb f chunk s t →
      (panics .outOfBlocks ∨ missing wider (t.disk.addr (s.target f)) ≤ t.disk.freeBlocks sb) →
      post (some chunk.length) t []) :
    Wp panics deadlocks (filewriteChunk sb f chunk) post s [] := by
  have rest := sharing.rest
  have member := rest.ip_mem sharing.isOpen sharing.isInode
  have cachedB : Cached sb s.users s.begun := rest.cached.begun
  rw [filewriteChunk, wp_bind]
  apply beginOp_wp rest.idle
  rw [wp_bind, wp_get, wp_bind]
  apply ilock_typed cachedB member (.inr (rest.counted.live _ member))
  intro t locked filled
  obtain ⟨loaded, type, inum⟩ := sharing.loaded locked filled
  have file : t.file = s.file := locked.steady.file
  have disk : t.disk = s.disk := locked.disk
  have size : (t.inode (s.file f).ip).copy.size = (s.disk.dinode (s.target f)).size := by
    rw [← loaded.synced, inum, disk]
  have addr : t.addr (s.file f).ip = s.disk.addr (s.target f) := by
    rw [State.addr, loaded.synced.view, inum, disk]
  have budget : Ledger sb panics s.commits
      (insert (sb.iblock (t.inode (s.file f).ip).inum) sb.bitmap)
      ((touched (s.file f).off chunk.length).card + 0) t :=
    (locked.ledger (rest.idle.ledger capacity)).add _
  have funds : Funds sb panics s.commits (insert (sb.iblock (t.inode (s.file f).ip).inum) sb.bitmap)
      (touched (s.file f).off chunk.length) wider 0 0 (s.file f).ip t := by
    refine .of_ledger budget among ?_
    rw [addr, disk]
    exact stock
  rw [wp_bind, wp_get, wp_bind, file]
  apply writei_spliced valid loaded funds (Finset.mem_insert_self ..) (size ▸ sharing.off)
  · intro large
    exact sharing.unlock_wp locked.steady locked.cached (by rw [disk]) rfl
      (by rw [disk, splice_nil]) (fun _ _ _ => by rw [disk]; exact ⟨rfl, rfl⟩)
      fun u advanced _ => refused large u advanced
  · intro u inside updated spliced later
    have isFile : (t.inode (s.file f).ip).copy.type ≠ .dir := by simp [type]
    obtain ⟨cached, steady, tree⟩ := locked.cached.updated_file member filled isFile updated
    have contents := spliced.contents
    have others := spliced.others
    have left := later.stock
    rw [inum, disk] at contents others
    rw [State.addr, updated.synced.view, updated.frame.inum, inum] at left
    refine sharing.unlock_wp (locked.steady.trans steady) cached (by rw [tree, disk]) rfl contents
      (fun i other isAlloc => others i other isAlloc (rest.cached.sound.sized i isAlloc).size) ?_
    exact fun v advanced same => continued v inside advanced (same ▸ left)

/-- The loop of `filewrite` of a process that runs alone. -/
theorem filewriteLoop_wp {fuel : Nat} {src : List UInt8} (valid : sb.Valid)
    (capacity : sb.bitmap.card + 6 < sb.logRoom) (sharing : Sharing sb f s)
    (enough : src.length ≤ fuel) (inside : (s.file f).off + src.length ≤ maxFile * bSize)
    (among : touched (s.file f).off src.length ⊆ wider)
    (stock : missing wider (s.disk.addr (s.target f)) ≤ s.disk.freeBlocks sb) :
    Wp (fun _ => False) (fun _ => False) (filewriteLoop sb f fuel src)
      (fun all t held => all = true ∧ held = [] ∧ Advanced sb f src s t) s [] := by
  induction fuel generalizing s src with
  | zero =>
    obtain rfl := List.length_eq_zero_iff.mp (Nat.le_zero.mp enough)
    exact ⟨rfl, rfl, .refl sharing⟩
  | succ fuel ih =>
    rw [filewriteLoop_succ, Prog.wp_ite]
    split
    · rename_i empty
      subst empty
      exact ⟨rfl, rfl, .refl sharing⟩
    · rename_i nonempty
      have positive : 0 < src.length := List.length_pos_iff.mpr nonempty
      have most : 0 < maxWrite := by decide
      have first : (src.take maxWrite).length = min maxWrite src.length := List.length_take
      have rest : (src.drop maxWrite).length = src.length - maxWrite := List.length_drop
      have room : (touched (s.file f).off (src.take maxWrite).length).card ≤ 5 :=
        card_touched_chunk _ (List.length_take_le ..)
      rw [wp_bind]
      apply filewriteChunk_wp valid (.inr (by omega)) sharing
        ((touched_subset le_rfl (by omega)).trans among) (.inr stock) (by omega)
      intro t _ advanced left
      have off := advanced.off
      rw [filewriteNext, if_neg (by simp)]
      have later : touched (t.file f).off (src.drop maxWrite).length ⊆ wider :=
        (touched_subset (by omega) (by omega)).trans among
      rw [← advanced.target] at left
      refine (ih advanced.sharing (by omega) (by omega) later (left.resolve_left id)).mono ?_
        (fun _ => id) (fun _ => id)
      rintro all u held ⟨rfl, rfl, further⟩
      have both := advanced.trans further sharing.off
      rw [List.take_append_drop] at both
      exact ⟨rfl, rfl, both⟩

end Chunk

/-! ## Interleaved calls -/

/-- Calls of `filewrite` through one file: the file system, the bytes that each process has still to
write, and of a call that has returned whether it wrote them all. -/
structure Writers where
  fs : State
  left : Nat → List UInt8
  returned : Nat → Option Bool

/-- A process whose call has not returned goes once through the loop of `filewrite`; `none` stands
for a panic or an endless wait. -/
def Writers.turn (sb : Superblock) (f : Nat) (w : Writers) (p : Nat) : Option Writers :=
  if w.returned p ≠ none then some w
  else if w.left p = [] then some { w with returned := update w.returned p (some true) }
  else
    match (filewriteChunk sb f ((w.left p).take maxWrite)).run w.fs [] with
    | .done none t [] => some ⟨t, w.left, update w.returned p (some false)⟩
    | .done (some written) t [] =>
      if written ≠ ((w.left p).take maxWrite).length then none
      else some ⟨t, update w.left p ((w.left p).drop maxWrite), w.returned⟩
    | _ => none

section Turns

variable {sb : Superblock} {f p : Nat} {procs : Finset Nat} {src : Nat → List UInt8} {s : State}
  {chunks : List (Nat × List UInt8)} {w : Writers}

/-- What the calls have done so far, with the chunks in the order in which they were written, each
with the process that wrote it. -/
structure Interleaved (sb : Superblock) (f : Nat) (procs : Finset Nat) (src : Nat → List UInt8)
    (s : State) (chunks : List (Nat × List UInt8)) (w : Writers) : Prop where
  small : ∀ c ∈ chunks, c.2.length ≤ maxWrite
  order : ∀ p, (chunks.filter (·.1 = p)).flatMap Prod.snd ++ w.left p = src p
  total : (chunks.flatMap Prod.snd).length + ∑ p ∈ procs, (w.left p).length =
    ∑ p ∈ procs, (src p).length
  written : Advanced sb f (chunks.flatMap Prod.snd) s w.fs
  returned : ∀ p all, w.returned p = some all → all = true ∧ w.left p = []

/-- There are free blocks for what the calls have still to write. -/
def Writers.Stocked (sb : Superblock) (procs : Finset Nat) (src : Nat → List UInt8) (off i : Nat)
    (w : Writers) : Prop :=
  missing (touched off (∑ p ∈ procs, (src p).length)) (w.fs.disk.addr i) ≤ w.fs.disk.freeBlocks sb

/-- Another chunk is written. -/
theorem Interleaved.extend (inv : Interleaved sb f procs src s chunks w)
    (start : (s.file f).off ≤ (s.disk.dinode (s.target f)).size) (member : p ∈ procs)
    (running : w.returned p = none) {chunk rest : List UInt8} {t : State}
    (split : w.left p = chunk ++ rest) (short : chunk.length ≤ maxWrite)
    (advanced : Advanced sb f chunk w.fs t) :
    Interleaved sb f procs src s (chunks ++ [(p, chunk)])
      ⟨t, update w.left p rest, w.returned⟩ := by
  have flat : (chunks ++ [(p, chunk)]).flatMap Prod.snd = chunks.flatMap Prod.snd ++ chunk := by
    simp
  refine ⟨?_, ?_, ?_, flat ▸ inv.written.trans advanced start, ?_⟩
  · grind [cases Interleaved]
  · grind [cases Interleaved]
  · have before := inv.total
    have sum : ∑ q ∈ procs.erase p, (update w.left p rest q).length =
        ∑ q ∈ procs.erase p, (w.left q).length :=
      sum_congr rfl fun q among => by
        rw [update_of_ne (ne_of_mem_erase among)]
    grind [add_sum_erase]
  grind [cases Interleaved]

/-- One turn of a process. -/
theorem Interleaved.turn (valid : sb.Valid) (capacity : sb.bitmap.card + 6 < sb.logRoom)
    (inv : Interleaved sb f procs src s chunks w)
    (stocked : w.Stocked sb procs src (s.file f).off (s.target f))
    (start : (s.file f).off ≤ (s.disk.dinode (s.target f)).size)
    (fits : (s.file f).off + ∑ p ∈ procs, (src p).length ≤ maxFile * bSize) (member : p ∈ procs) :
    ∃ later more, w.turn sb f p = some later ∧ Interleaved sb f procs src s more later ∧
      later.Stocked sb procs src (s.file f).off (s.target f) ∧
      (∀ q ≠ p, later.left q = w.left q ∧ later.returned q = w.returned q) ∧
      (later.returned p = none → w.returned p = none ∧
        (later.left p).length < (w.left p).length) := by
  by_cases running : w.returned p = none
  case neg =>
    refine ⟨w, chunks, if_pos running, inv, stocked, fun _ _ => ⟨rfl, rfl⟩, fun none => ?_⟩
    exact absurd none running
  rw [Writers.turn, if_neg (by simpa using running)]
  by_cases empty : w.left p = []
  · rw [if_pos empty]
    refine ⟨_, chunks, rfl, { inv with returned := ?_ }, stocked, ?_, ?_⟩
    all_goals grind [cases Interleaved]
  rw [if_neg empty]
  obtain ⟨chunk, part⟩ : ∃ chunk, chunk = (w.left p).take maxWrite := ⟨_, rfl⟩
  have split : w.left p = chunk ++ (w.left p).drop maxWrite := by
    rw [part, List.take_append_drop]
  have short : chunk.length ≤ maxWrite := part ▸ List.length_take_le ..
  have bound : (chunks.flatMap Prod.snd).length + chunk.length ≤ ∑ q ∈ procs, (src q).length := by
    have total := inv.total
    have own : (w.left p).length ≤ ∑ q ∈ procs, (w.left q).length :=
      Finset.single_le_sum (f := fun q => (w.left q).length) (fun _ _ => Nat.zero_le _) member
    have length := congrArg List.length split
    rw [List.length_append] at length
    omega
  have off := inv.written.off
  have room : (touched (w.fs.file f).off chunk.length).card + 1 ≤ 6 :=
    Nat.succ_le_succ (card_touched_chunk _ short)
  have wp : Wp (fun _ => False) (fun _ => False) (filewriteChunk sb f chunk)
      (fun r t held => r = some chunk.length ∧ held = [] ∧ Advanced sb f chunk w.fs t ∧
        Writers.Stocked sb procs src (s.file f).off (s.target f) ⟨t, w.left, w.returned⟩)
      w.fs [] := by
    have among : touched (w.fs.file f).off chunk.length ⊆
        touched (s.file f).off (∑ q ∈ procs, (src q).length) :=
      touched_subset (by omega) (by omega)
    apply filewriteChunk_wp valid (.inr (by omega)) inv.written.sharing among
    · rw [inv.written.target]
      exact .inr stocked
    · omega
    · intro t _ advanced stock
      rw [inv.written.target] at stock
      exact ⟨rfl, rfl, advanced, stock.resolve_left id⟩
  obtain ⟨_, t, _, done, rfl, rfl, advanced, stock⟩ := wp.total
  rw [← part, done]
  dsimp only
  rw [if_neg (by simp)]
  refine ⟨_, _, rfl, inv.extend start member running split short advanced, stock, ?_, ?_⟩
  · exact fun q other => ⟨update_of_ne other .., rfl⟩
  · intro _
    refine ⟨running, ?_⟩
    dsimp only
    rw [update_self, List.length_drop]
    have positive : 0 < (w.left p).length := List.length_pos_iff.mpr empty
    have most : 0 < maxWrite := by decide
    omega

/-- Any number of turns. -/
theorem Interleaved.turns (valid : sb.Valid) (capacity : sb.bitmap.card + 6 < sb.logRoom)
    (inv : Interleaved sb f procs src s chunks w)
    (stocked : w.Stocked sb procs src (s.file f).off (s.target f))
    (start : (s.file f).off ≤ (s.disk.dinode (s.target f)).size)
    (fits : (s.file f).off + ∑ p ∈ procs, (src p).length ≤ maxFile * bSize) (schedule : List Nat)
    (members : ∀ p ∈ schedule, p ∈ procs) :
    ∃ later more, schedule.foldlM (Writers.turn sb f) w = some later ∧
      Interleaved sb f procs src s more later ∧
      ∀ p, later.returned p = none → w.returned p = none ∧
        schedule.count p + (later.left p).length ≤ (w.left p).length := by
  induction schedule generalizing w chunks with
  | nil => exact ⟨w, chunks, rfl, inv, fun p running => ⟨running, by simp⟩⟩
  | cons p schedule ih =>
    obtain ⟨middle, some, moved, invM, stockedM, same, fewer⟩ :=
      inv.turn valid capacity stocked start fits (members p List.mem_cons_self)
    grind

/-- Processes write through one open file of a regular file, in any interleaving of their chunks,
and there is room for all: the bytes of the chunks follow one another from the offset on, those of
each call in order, and every call returns with all its bytes written. A call by itself does what
one `writei` of all its bytes does, if that returns. -/
theorem shared_writes (valid : sb.Valid) (capacity : sb.bitmap.card + 6 < sb.logRoom)
    (sharing : Sharing sb f s) (procs : Finset Nat) (src : Nat → List UInt8)
    (fits : (s.file f).off + ∑ p ∈ procs, (src p).length ≤ maxFile * bSize)
    (free : missing (touched (s.file f).off (∑ p ∈ procs, (src p).length))
      (s.disk.addr (s.target f)) ≤ s.disk.freeBlocks sb) :
    (∀ schedule : List Nat, (∀ p ∈ schedule, p ∈ procs) →
      ∃ w chunks, schedule.foldlM (Writers.turn sb f) ⟨s, src, fun _ => none⟩ = some w ∧
        Interleaved sb f procs src s chunks w ∧
        (∀ p ∈ procs, (src p).length < schedule.count p → w.returned p = some true) ∧
        ((∀ p ∈ procs, w.returned p ≠ none) →
          (w.fs.file f).off = (s.file f).off + ∑ p ∈ procs, (src p).length)) ∧
    ∀ p ∈ procs, ∃ t, (filewriteLoop sb f (src p).length (src p)).run s [] = .done true t [] ∧
      Advanced sb f (src p) s t ∧
      ∀ r u held, (filewriteChunk sb f (src p)).run s [] = .done r u held →
        r = some (src p).length ∧ (u.file f).off = (t.file f).off ∧
          u.disk.contents (s.target f) = t.disk.contents (s.target f) := by
  have empty : Interleaved sb f procs src s [] ⟨s, src, fun _ => none⟩ :=
    ⟨fun _ among => absurd among List.not_mem_nil, fun _ => rfl, zero_add _, .refl sharing,
      fun _ _ done => absurd done (by simp)⟩
  refine ⟨?_, ?_⟩
  · intro schedule members
    obtain ⟨w, chunks, ran, inv, counts⟩ :=
      empty.turns valid capacity free sharing.off fits schedule members
    refine ⟨w, chunks, ran, inv, ?_, ?_⟩
    · intro p _ many
      cases finished : w.returned p with
      | none =>
        have count := (counts p finished).2
        dsimp only at count
        omega
      | some all => rw [(inv.returned p all finished).1]
    · intro finished
      have none : ∑ p ∈ procs, (w.left p).length = 0 := by
        refine Finset.sum_eq_zero fun p member => ?_
        obtain ⟨all, done⟩ := Option.ne_none_iff_exists'.mp (finished p member)
        rw [(inv.returned p all done).2]
        rfl
      have total := inv.total
      rw [inv.written.off]
      omega
  · intro p member
    have own : (src p).length ≤ ∑ q ∈ procs, (src q).length :=
      Finset.single_le_sum (f := fun q => (src q).length) (fun _ _ => Nat.zero_le _) member
    have alone := filewriteLoop_wp valid capacity sharing (Nat.le_refl (src p).length) (by omega)
      (touched_subset le_rfl (by omega)) free
    obtain ⟨_, t, _, done, rfl, rfl, advanced⟩ := alone.total
    refine ⟨t, done, advanced, ?_⟩
    intro r u held whole
    have wp : Wp (fun _ => True) (fun _ => True) (filewriteChunk sb f (src p))
        (fun r u _ => r = some (src p).length ∧ Advanced sb f (src p) s u) s [] :=
      filewriteChunk_wp valid (.inl ⟨trivial, trivial⟩) sharing (Finset.Subset.refl _)
        (.inl trivial) (by omega) fun u _ advanced _ => ⟨rfl, advanced⟩
    obtain ⟨result, other⟩ := wp.of_done whole
    exact ⟨result, other.off.trans advanced.off.symm, other.contents.trans advanced.contents.symm⟩

end Turns

/-! ## A file of the first process -/

/-- The file that the first process opens is one that it can share. -/
def State.Shares (sb : Superblock) (s : State) : Prop :=
  (s.proc initproc).live = true ∧ (s.proc initproc).ofile 0 = some 0 ∧
    (s.file 0).kind = .inode ∧ (s.file 0).writable = true ∧
    (s.disk.node sb (s.target 0)).kind = .file ∧
    (s.file 0).off ≤ (s.disk.dinode (s.target 0)).size

instance (sb : Superblock) (s : State) : Decidable (s.Shares sb) :=
  inferInstanceAs (Decidable (_ ∧ _))

theorem State.Shares.sharing {sb : Superblock} {s : State} (shares : s.Shares sb)
    (rest : AtRest sb s) : Sharing sb 0 s :=
  ⟨rest, fd_mem (by decide) shares.1 (by decide) shares.2.1, shares.2.2.1, shares.2.2.2.1,
    shares.2.2.2.2.1, shares.2.2.2.2.2⟩

/-- Two processes write a byte each to a new file that they share. -/
theorem shared_writes_mkfs : ∃ s w chunks, Sharing mkfsSuper 0 s ∧
    [1, 2, 1, 2, 2].foldlM (Writers.turn mkfsSuper 0) ⟨s, fun p => [UInt8.ofNat p], fun _ => none⟩ =
      some w ∧
    Interleaved mkfsSuper 0 {1, 2} (fun p => [UInt8.ofNat p]) s chunks w ∧
    w.returned 1 = some true ∧ w.returned 2 = some true := by
  have executed : (callStep mkfsSuper (boot mkfsDisk) (1, .open [102] 514)).map (fun s => decide
      (s.Shares mkfsSuper ∧ (s.file 0).off + 2 ≤ maxFile * bSize ∧
        missing (touched (s.file 0).off 2) (s.disk.addr (s.target 0)) ≤
          s.disk.freeBlocks mkfsSuper)) = some true := by decide +kernel
  obtain ⟨s, opened, holds⟩ := Option.map_eq_some_iff.mp executed
  obtain ⟨shares, fits, free⟩ := of_decide_eq_true holds
  have rest := (callStep_rest mkfsSuper_valid (boot_rest mkfsSuper_valid mkfs_image) opened).1
  have capacity : mkfsSuper.bitmap.card + 6 < mkfsSuper.logRoom := by
    rw [show mkfsSuper.bitmap = {58} from mkfs_bitmap 30]
    decide
  have sum : ∑ p ∈ ({1, 2} : Finset Nat), [UInt8.ofNat p].length = 2 := rfl
  rw [← sum] at fits free
  obtain ⟨w, chunks, ran, inv, returned, -⟩ := (shared_writes mkfsSuper_valid capacity
    (shares.sharing rest) {1, 2} (fun p => [UInt8.ofNat p]) fits free).1 [1, 2, 1, 2, 2] (by decide)
  exact ⟨s, w, chunks, shares.sharing rest, ran, inv, returned 1 (by decide) (by decide),
    returned 2 (by decide) (by decide)⟩

/-- A disk with no block left. -/
def fullSuper : Superblock := { mkfsSuper with size := 60, nblocks := 1 }

theorem fullSuper_valid : fullSuper.Valid := ⟨by decide, by decide, by decide, by decide⟩

theorem full_owned : Owned fullSuper mkfsDisk where
  data i k isAlloc inside present := by
    obtain ⟨data, marked⟩ := mkfs_owned.data i k isAlloc inside present
    exact ⟨⟨data.1, of_decide_eq_true marked⟩, marked⟩
  once := mkfs_owned.once
  used b data marked := by
    have below : b < 60 := data.2
    exact mkfs_owned.used b ⟨data.1, below.trans (by decide)⟩ marked
  other := mkfs_owned.other

theorem full_image : Image fullSuper mkfsDisk :=
  ⟨{ mkfs_image.sound with owned := full_owned }, mkfs_image.root, mkfs_image.linked⟩

/-- On a disk with no block left, a write of one byte through a shared file panics. -/
theorem shared_write_full_disk : ∃ s, Sharing fullSuper 0 s ∧
    (s.file 0).off + 1 ≤ maxFile * bSize ∧
    (filewriteChunk fullSuper 0 [7]).run s [] = .panic .outOfBlocks ∧
    Writers.turn fullSuper 0 ⟨s, fun _ => [7], fun _ => none⟩ 1 = none := by
  have executed : (callStep fullSuper (boot mkfsDisk) (1, .open [102] 514)).map (fun s => decide
      (s.Shares fullSuper ∧ (s.file 0).off + 1 ≤ maxFile * bSize ∧
        ((filewriteChunk fullSuper 0 [7]).run s []).error? = some .outOfBlocks)) = some true := by
    decide +kernel
  obtain ⟨s, opened, holds⟩ := Option.map_eq_some_iff.mp executed
  obtain ⟨shares, fits, failed⟩ := of_decide_eq_true holds
  have rest := (callStep_rest fullSuper_valid (boot_rest fullSuper_valid full_image) opened).1
  have panicked := Outcome.eq_panic failed
  refine ⟨s, shares.sharing rest, fits, panicked, ?_⟩
  have run : (filewriteChunk fullSuper 0 (List.take maxWrite [7])).run s [] =
      .panic .outOfBlocks := panicked
  rw [Writers.turn, if_neg (by simp), if_neg (by simp), run]

end Xv6.Fs
