import Xv6.Fs.Shared
import Xv6.Xvedit.File

/-!
# Writing over a file: `save_file` and `cp`

Both open their target with `O_CREATE`, which does not truncate it, and write from its start on.
What they write is then the front of the file, and of a longer old file the rest remains.
Opening and writing an open file of the file system refine the two functions on bytes used here.
-/

namespace Xv6.User.Copy

open Lib Xv6.Fs Xv6.Xvedit List Prog

/-- An open file. -/
structure OpenFile where
  contents : List UInt8
  off : Nat

/-- `sys_open` with `O_CREATE`: a new file is empty, and one that exists stays as it is. -/
def openFile (old : Option (List UInt8)) : OpenFile := ⟨old.getD [], 0⟩

namespace OpenFile

/-- The loop of `filewrite`, with `writei` at the offset; `fuel` bounds the number of turns. -/
def writeLoop : Nat → OpenFile → List UInt8 → OpenFile
  | 0, f, _ => f
  | fuel + 1, f, bytes =>
    let chunk := bytes.take maxWrite
    if chunk = [] then f
    else if f.off + chunk.length > maxBytes then f
    else writeLoop fuel ⟨splice f.contents f.off chunk, f.off + chunk.length⟩ (bytes.drop maxWrite)

/-- `write`. -/
def write (f : OpenFile) (bytes : List UInt8) : OpenFile := writeLoop bytes.length f bytes

/-- The file as it is when `written` has been written from its start on. -/
def rewritten (old written : List UInt8) : OpenFile :=
  ⟨written ++ old.drop written.length, written.length⟩

/-- The loop writes over the old bytes. -/
theorem writeLoop_rewritten (old : List UInt8) (fuel : Nat) (written bytes : List UInt8) :
    writeLoop fuel (rewritten old written) bytes =
      rewritten old (Xvedit.writeLoop fuel written bytes) := by
  induction fuel generalizing written bytes with
  | zero => rfl
  | succ fuel ih =>
    have step : (⟨splice (rewritten old written).contents (rewritten old written).off
        (bytes.take maxWrite), (rewritten old written).off + (bytes.take maxWrite).length⟩ :
          OpenFile) = rewritten old (written ++ bytes.take maxWrite) := by
      simp [rewritten, splice, drop_append]
    rw [writeLoop, Xvedit.writeLoop, step, ih]
    grind [rewritten]

/-- `write` writes over the old bytes. -/
theorem write_rewritten (old written bytes : List UInt8) :
    (rewritten old written).write bytes = rewritten old (Xvedit.write written bytes) :=
  writeLoop_rewritten old bytes.length written bytes

end OpenFile

/-! ## The file system -/

section Refinement

variable {sb : Superblock} {panics : Panic → Prop} {deadlocks : Nat → Prop} {f fuel : Nat}
  {s t : State} {src chunk : List UInt8} {all : Bool} {held : List Nat}

/-- An open file of the file system as a program sees it. -/
def view (f : Nat) (s : State) : OpenFile := ⟨s.disk.contents (s.target f), (s.file f).off⟩

/-- A chunk as a program sees it. -/
theorem view_advanced (advanced : Advanced sb f chunk s t) :
    view f t = ⟨splice (view f s).contents (view f s).off chunk,
      (view f s).off + chunk.length⟩ := by
  rw [view, advanced.target, advanced.contents, advanced.off]
  rfl

/-- The loop of `filewrite` in the file system and that over bytes. -/
theorem filewriteLoop_view (valid : sb.Valid) (capacity : Capacity sb panics 6)
    (blocks : panics .outOfBlocks) (sharing : Sharing sb f s) :
    Wp panics deadlocks (Fs.filewriteLoop sb f fuel src) (fun _ t _ =>
      Sharing sb f t ∧ view f t = (view f s).writeLoop fuel src) s [] := by
  induction fuel generalizing s src with
  | zero => exact ⟨sharing, rfl⟩
  | succ fuel ih =>
    rw [filewriteLoop_succ, wp_ite]
    split
    · rename_i empty
      exact ⟨sharing, by rw [OpenFile.writeLoop, empty, take_nil, if_pos rfl]⟩
    · rename_i nonempty
      have some : src.take maxWrite ≠ [] := by
        rw [ne_eq, take_eq_nil_iff]
        exact not_or.mpr ⟨by decide, nonempty⟩
      have few := card_touched_chunk (s.file f).off (length_take_le maxWrite src)
      rw [wp_bind]
      apply filewriteChunk_wp valid (capacity.mono (by omega)) sharing (Finset.Subset.refl _)
        (.inl blocks)
      · intro large u advanced
        have full : (view f s).off + (src.take maxWrite).length > maxBytes :=
          Nat.lt_of_not_le large
        refine ⟨advanced.sharing, ?_⟩
        rw [view_advanced advanced, OpenFile.writeLoop, if_neg some, if_pos full, splice_nil]
        rfl
      · intro u inside advanced _
        have fits : ¬ (view f s).off + (src.take maxWrite).length > maxBytes :=
          not_lt.mpr inside
        rw [filewriteNext, if_neg (by simp), OpenFile.writeLoop, if_neg some, if_neg fits,
          ← view_advanced advanced]
        exact ih advanced.sharing

/-- `write` through an open file of the file system does to its bytes and its offset what the
programs below take it to do, when it returns. -/
theorem write_refines (valid : sb.Valid) (sharing : Sharing sb f s)
    (done : (Fs.filewriteLoop sb f src.length src).run s [] = .done all t held) :
    Sharing sb f t ∧ view f t = (view f s).write src := by
  have wp : Wp (fun _ => True) (fun _ => True) (Fs.filewriteLoop sb f src.length src) _ s [] :=
    filewriteLoop_view valid (.inl ⟨trivial, trivial⟩) trivial sharing
  exact wp.of_done done

/-- `sys_open` of a file that exists leaves its bytes and starts in front of them. -/
theorem open_refines {p omode : Nat} {path : List UInt8} {r : Int} (valid : sb.Valid)
    (rest : AtRest sb s) (inside : p < nProc) (live : (s.proc p).live = true)
    (old : ¬ (Call.open path omode).Adds (s.disk.node sb) (s.cwdOf p)) (success : 0 ≤ r)
    (done : (sysOpen sb p path omode).run s [] = .done r t held) :
    ∃ f, (t.proc p).ofile r.toNat = some f ∧
      view f t = openFile (some (s.disk.contents (t.target f))) := by
  have wp : Wp (fun _ => True) (fun _ => True) (sysOpen sb p path omode)
      (fun r t _ => Opening sb p (.open path omode) s r t) s [] :=
    open_rest (.of_full (fun _ _ => trivial) 0) valid rest inside live
      (fun _ _ _ _ _ => .inl trivial) (.inl trivial) fun _ _ _ opening => opening
  obtain ⟨f, fd, off, adds | disk⟩ := wp.of_done done success
  · exact absurd adds old
  · exact ⟨f, fd, by rw [view, disk, off]; rfl⟩

end Refinement

/-- What is written is all of the file exactly if the old file was not longer. -/
theorem rewritten_contents_eq_iff {old written : List UInt8} :
    (OpenFile.rewritten old written).contents = written ↔ old.length ≤ written.length := by
  simp [OpenFile.rewritten]

/-! ## `save_file` -/

/-- `save_file` to a file with the given contents, or to none. -/
def saveOver (old : Option (List UInt8)) (lines : List (List UInt8)) : List UInt8 :=
  (lines.foldl (fun f line => f.write (cString line ++ [Xvedit.newline])) (openFile old)).contents

/-- `SAVE` writes over the old file. -/
theorem saveOver_eq (old : Option (List UInt8)) (lines : List (List UInt8)) :
    saveOver old lines = (OpenFile.rewritten (old.getD []) (writeLines lines)).contents := by
  have all : ∀ written, lines.foldl (fun f line => f.write (cString line ++ [Xvedit.newline]))
      (OpenFile.rewritten (old.getD []) written) = .rewritten (old.getD [])
      (lines.foldl (fun file line => write file (cString line ++ [Xvedit.newline])) written) := by
    induction lines with
    | nil => exact fun _ => rfl
    | cons line lines ih =>
      intro written
      rw [foldl_cons, OpenFile.write_rewritten, ih, foldl_cons]
  exact congrArg OpenFile.contents (all [])

/-- The two targets hold the lines afterwards, whatever they held before, exactly if neither was
longer and the lines fit into a file. -/
theorem save_replaces_iff {lines : List (List UInt8)} {old other : Option (List UInt8)}
    (noNul : ∀ line ∈ lines, 0 ∉ line) (size : (old.getD []).length ≤ maxBytes)
    (size' : (other.getD []).length ≤ maxBytes) :
    (saveOver old lines = saveOver other lines ∧ saveOver old lines = full lines) ↔
      (old.getD []).length ≤ (full lines).length ∧ (other.getD []).length ≤ (full lines).length ∧
        (full lines).length ≤ maxBytes := by
  have one : ∀ old : Option (List UInt8), (old.getD []).length ≤ maxBytes →
      (saveOver old lines = full lines ↔
        (old.getD []).length ≤ (full lines).length ∧ (full lines).length ≤ maxBytes) := by
    intro old size
    rw [saveOver_eq]
    by_cases fits : (full lines).length ≤ maxBytes
    · rw [writeLines_fits noNul fits, rewritten_contents_eq_iff]
      exact (and_iff_left fits).symm
    · -- a file never gets longer than the largest one
      refine iff_of_false (fun same => fits ?_) fun both => fits both.2
      have := writeLines_length lines
      rw [← same, OpenFile.rewritten, length_append, length_drop]
      omega
  have left := one old size
  have right := one other size'
  grind

theorem save_replaces_iff_shorter : saveOver (some [97]) [[98], [99]] = saveOver none [[98], [99]] ∧
    saveOver (some [97]) [[98], [99]] = full [[98], [99]] :=
  (save_replaces_iff (by decide) (by decide) (by decide)).mpr (by decide)

/-- Of an old file of four bytes the last two remain. -/
theorem save_leaves_tail : saveOver (some [97, 98, 99, 100]) [[101]] = [101, 10, 99, 100] ∧
    saveOver none [[101]] = full [[101]] := by decide

/-! ## `cp` -/

/-- The loop of `cp`; the pieces are what `read` returns, up to the end of the source. -/
def cpLoop : List (List UInt8) → OpenFile → OpenFile
  | [], f => f
  | piece :: rest, f => if 0 < piece.length then cpLoop rest (f.write piece) else f

/-- `cp` to a file with the given contents, or to none. -/
def cp (pieces : List (List UInt8)) (old : Option (List UInt8)) : List UInt8 :=
  (cpLoop pieces (openFile old)).contents

/-- Nothing is cut off below the limit. -/
theorem write_fits {file bytes : List UInt8} (fits : file.length + bytes.length ≤ maxBytes) :
    write file bytes = file ++ bytes := by
  obtain ⟨k, stored, written⟩ := write_written file bytes
  have most := written.most
  rcases written.stop with all | ⟨-, full⟩
  · rw [stored, all, take_length]
  · omega

/-- The loop of `cp` writes over the old file. -/
theorem cpLoop_eq (old : List UInt8) (pieces : List (List UInt8)) (written : List UInt8)
    (some : ∀ piece ∈ pieces, piece ≠ [])
    (fits : written.length + pieces.flatten.length ≤ maxBytes) :
    cpLoop pieces (.rewritten old written) = .rewritten old (written ++ pieces.flatten) := by
  induction pieces generalizing written with
  | nil => rw [cpLoop, flatten_nil, append_nil]
  | cons piece rest ih =>
    rw [flatten_cons, length_append] at fits
    rw [cpLoop, if_pos (List.length_pos_iff.mpr (some piece mem_cons_self)),
      OpenFile.write_rewritten, write_fits (by omega), ih, flatten_cons, append_assoc]
    · exact fun piece member => some piece (mem_cons_of_mem _ member)
    · rw [length_append]
      omega

/-- `cp` makes the target equal to the source exactly if the target was not longer, however the
reads split the source; the writes of a source that is a file all succeed. -/
theorem cp_copies_iff {source : List UInt8} {pieces : List (List UInt8)} (old : Option (List UInt8))
    (size : source.length ≤ maxBytes) (split : pieces.flatten = source)
    (some : ∀ piece ∈ pieces, piece ≠ []) :
    cp pieces old = source ↔ (old.getD []).length ≤ source.length := by
  subst split
  have start : openFile old = .rewritten (old.getD []) [] := rfl
  rw [cp, start, cpLoop_eq _ _ _ some (by simpa using size), nil_append,
    rewritten_contents_eq_iff]

theorem cp_copies_iff_two : cp [[97], [98, 99]] (some [100]) = [97, 98, 99] :=
  (cp_copies_iff (some [100]) (by decide) rfl (by decide)).mpr (by decide)

/-- The end of a longer target remains. -/
theorem cp_leaves_tail : cp [[97]] (some [98, 99]) = [97, 99] := by decide

end Xv6.User.Copy
