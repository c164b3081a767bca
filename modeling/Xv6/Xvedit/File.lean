import Mathlib.Data.List.Induction
import Xv6.Fs.Syscall
import Xv6.Umalloc.Malloc

/-!
# Loading and saving files in `xvedit`

`read_file` and `save_file` of `xvedit.c`, as far as bytes and lines go. `read_file` collects the
file in a buffer, 512 bytes at a time, and cuts it in front of every newline; `save_file` ends
every line with a newline. The two agree only where the newline at the end cannot be written:
`write` takes `maxWrite` bytes at a time and refuses those that do not fit into a file of the
maximal size.

The buffer has no terminator. `strlen` counts on behind it, and `read_file` looks at the byte
behind its end; where the buffer ends at the break of the process, both are page faults. Reads
behind the break and stores behind a block end a run of the model.
-/

namespace Xv6.Xvedit

open Xv6.Fs Option List

/-- `'\n'`. -/
def newline : UInt8 := 10

/-- The string at the start of some bytes: up to the first NUL. -/
def cString (bytes : List UInt8) : List UInt8 := bytes.takeWhile (· ≠ 0)

/-- The memory that a call of `read_file` meets and does not initialise. -/
structure Memory where
  /-- Byte `i` of the buffer that the `k`-th `malloc` returns. -/
  fresh : Nat → Nat → UInt8
  /-- The bytes behind that buffer, up to the break, at the time when they are read. -/
  beyond : Nat → List UInt8

/-- What `strlen` counts: the string may go on behind the buffer. -/
def Memory.string (memory : Memory) (k : Nat) (buf : List UInt8) : Option (List UInt8) :=
  if 0 ∈ buf ++ memory.beyond k then some (cString (buf ++ memory.beyond k)) else none

/-- `memmove(buf + offset, bytes, …)`. What does not fit goes behind the buffer. -/
def overwrite (buf : List UInt8) (offset : Nat) (bytes : List UInt8) : List UInt8 :=
  (buf.take offset ++ bytes ++ buf.drop (offset + bytes.length)).take buf.length

/-- The body of the reading loop: `temp` holds `total` bytes, and `read` returned `chunk`. -/
def grow (memory : Memory) (k : Nat) (temp : List UInt8) (total : Nat) (chunk : List UInt8) :
    Option (List UInt8) :=
  let tempBuf := (range (total + chunk.length)).map (memory.fresh (k + 1))
  (if temp.head? ≠ some 0 then memory.string k temp else some []).bind fun string =>
    if string.length ≤ Umalloc.room (total + chunk.length) then
      some (overwrite (overwrite tempBuf 0 string) total chunk)
    else none

/-- The reading loop; `fuel` bounds the number of reads. The result is `tempBuf`, `total` and the
number of reads. -/
def readLoop (memory : Memory) :
    Nat → Nat → List UInt8 → Nat → List UInt8 → Option (List UInt8 × Nat × Nat)
  | 0, k, temp, total, _ => some (temp, total, k)
  | fuel + 1, k, temp, total, file =>
    let chunk := file.take 512
    if chunk = [] then some (temp, total, k)
    else do
      let tempBuf ← grow memory k temp total chunk
      readLoop memory fuel (k + 1) tempBuf (total + chunk.length) (file.drop 512)

/-- The cutting loop: `slice` is what stands between `offset` and `i`. -/
def cut (slice : List UInt8) : List UInt8 → List (List UInt8)
  | [] => [slice]
  | c :: rest => if c = newline then slice :: cut [c] rest else cut (slice ++ [c]) rest

/-- `ln->line`: a newline at the front is skipped. -/
def toLine (slice : List UInt8) : List UInt8 :=
  if (cString slice).head? = some newline then (cString slice).tail else cString slice

/-- The lines that `read_file` puts into the list. -/
def readLines (memory : Memory) (file : List UInt8) : Option (List (List UInt8)) := do
  let (tempBuf, total, k) ← readLoop memory file.length 0 [memory.fresh 0 0] 0 file
  -- `tempBuf[total]` is read before `i` is compared with `total`
  if total < (tempBuf ++ memory.beyond k).length then
    some ((cut [] (tempBuf.take total)).map toLine)
  else none

/-- The largest size of a file. -/
def maxBytes : Nat := maxFile * bSize

/-- The loop of `filewrite` at the end of a file; `fuel` bounds the number of turns. -/
def writeLoop : Nat → List UInt8 → List UInt8 → List UInt8
  | 0, file, _ => file
  | fuel + 1, file, bytes =>
    let chunk := bytes.take maxWrite
    if chunk = [] then file
    else if file.length + chunk.length > maxBytes then file
    else writeLoop fuel (file ++ chunk) (bytes.drop maxWrite)

/-- `write` at the end of a file. -/
def write (file bytes : List UInt8) : List UInt8 := writeLoop bytes.length file bytes

/-- The writes of `save_file` to a file that does not exist. -/
def writeLines (lines : List (List UInt8)) : List UInt8 :=
  lines.foldl (fun file line => write file (cString line ++ [newline])) []

/-! ## Loading -/

theorem cString_of_noNul {bytes : List UInt8} (noNul : 0 ∉ bytes) : cString bytes = bytes := by
  induction bytes with
  | nil => rfl
  | cons byte rest ih =>
    grind [cString, takeWhile_cons_of_pos]

/-- The string in buffer `k` ends before the break and fits into the next block; the first buffer,
of one byte, may also hold a NUL. -/
def Memory.Copies (memory : Memory) (k total : Nat) : Prop :=
  k = 0 ∧ memory.fresh 0 0 = 0 ∨ 0 ∈ memory.beyond k ∧
    max 1 (512 * k) + (cString (memory.beyond k)).length ≤ Umalloc.room total

/-- The buffers lie so that a file can be loaded: the string in each ends in time, and there is a
byte behind the last one. -/
structure Memory.Loads (memory : Memory) (file : List UInt8) : Prop where
  copies : ∀ k, 512 * k < file.length → memory.Copies k (min (512 * (k + 1)) file.length)
  behind : file ≠ [] → memory.beyond ((file.length + 511) / 512) ≠ []

/-- The reading loop as far as the heap goes: a buffer of one chunk more, and the old one is
freed. -/
def buffers (program : Umalloc.Program) :
    Nat → Nat → Nat → Umalloc.Heap → Option (Nat × Umalloc.Heap)
  | 0, _, temp, s => some (temp, s)
  | more + 1, k, temp, s => do
    let (tempBuf, s) ← Umalloc.malloc program s (512 * (k + 1)) [true]
    buffers program more (k + 1) tempBuf (← Umalloc.free s temp)

/-- A program whose break is at the end of a page when it starts. -/
def editor : Umalloc.Program := ⟨2048, 8192, Nat.le_of_ble_eq_true rfl,
  Nat.le_of_ble_eq_true rfl, Nat.le_of_ble_eq_true rfl⟩

/-- When it has allocated `contents`, the buffer for 12800 bytes ends at the break, also once the
next buffer has been allocated. -/
theorem buffer_at_break : (do
    let (_, s) ← Umalloc.malloc editor (Umalloc.initial editor fun _ => ⟨0, 0⟩).heap 16 [true]
    let (temp, s) ← Umalloc.malloc editor s 1 [true]
    let (temp, s) ← buffers editor 25 0 temp s
    let (_, s) ← Umalloc.malloc editor s 13312 [true]
    some (temp + 12800, s.brk)) = some (73728, 73728) := by
  decide +kernel

section Load

variable {memory : Memory} {k n offset : Nat} {buf bytes chunk file read : List UInt8}
  {lines : List (List UInt8)}

theorem cString_append (noNul : 0 ∉ buf) : cString (buf ++ bytes) = buf ++ cString bytes :=
  takeWhile_append_of_pos fun _ member =>
    decide_eq_true (ne_of_mem_of_not_mem member noNul)

theorem overwrite_length (inside : offset ≤ buf.length) :
    (overwrite buf offset bytes).length = buf.length := by
  simp only [overwrite, length_take, length_append, length_drop]
  omega

/-- What is written at the front is read there. -/
theorem take_overwrite (inside : n ≤ buf.length) (within : n ≤ bytes.length) :
    (overwrite buf 0 bytes).take n = bytes.take n := by
  rw [overwrite, take_take, Nat.min_eq_left inside, take_zero, nil_append,
    take_append_of_le_length within]

/-- Writing up to the end of the buffer. -/
theorem overwrite_rest (ends : offset + bytes.length = buf.length) :
    overwrite buf offset bytes = buf.take offset ++ bytes := by
  rw [overwrite, ends, drop_length, append_nil, take_of_length_le]
  simp only [length_append, length_take]
  omega

/-- The buffer that holds what has been read; the first one is not initialised. -/
def Memory.buffer (memory : Memory) (read : List UInt8) : List UInt8 :=
  if read = [] then [memory.fresh 0 0] else read

/-- If the string in it can be copied, the next buffer holds the old bytes and the new ones. -/
theorem grow_eq_some_iff (noNul : 0 ∉ read) (count : read.length = 512 * k) {next : List UInt8} :
    grow memory k (memory.buffer read) read.length chunk = some next ↔
      memory.Copies k (read.length + chunk.length) ∧ next = read ++ chunk := by
  have held : ∀ string, read.length ≤ string.length → string.take read.length = read →
      overwrite (overwrite ((range (read.length + chunk.length)).map (memory.fresh (k + 1))) 0
        string) read.length chunk = read ++ chunk := fun string most front => by
    rw [overwrite_rest (by simp [overwrite_length]), take_overwrite (by simp) most, front]
  rw [grow, bind_eq_some_iff]
  by_cases zero : (memory.buffer read).head? = some 0
  · have none : read = [] := by
      by_contra some
      rw [Memory.buffer, if_neg some] at zero
      exact noNul (mem_of_head? zero)
    subst none
    have first : k = 0 ∧ memory.fresh 0 0 = 0 :=
      ⟨by rw [length_nil] at count; omega, Option.some.inj zero⟩
    rw [if_neg (not_not.mpr zero), Memory.Copies, and_iff_right (.inl first)]
    simp only [Option.some.injEq, exists_eq_left', held [] (Nat.le_refl _) rfl]
    simp [eq_comm]
  · have plain : 0 ∉ memory.buffer read := by
      grind [Memory.buffer]
    have size : (memory.buffer read).length = max 1 (512 * k) := by
      grind [Memory.buffer]
    have front : (memory.buffer read).take read.length = read := by
      grind [Memory.buffer]
    have first : ¬(k = 0 ∧ memory.fresh 0 0 = 0) := by
      grind [Memory.buffer]
    rw [if_pos zero, Memory.string, cString_append plain, Memory.Copies, or_iff_right first]
    grind

/-- The strings in the buffers from one on can be copied. -/
def Memory.CopiesFrom (memory : Memory) (k : Nat) (file : List UInt8) : Prop :=
  ∀ j, k ≤ j → 512 * j < file.length → memory.Copies j (min (512 * (j + 1)) file.length)

/-- What the loop leaves when so much has been read. -/
def Memory.collected (memory : Memory) (read : List UInt8) : List UInt8 × Nat × Nat :=
  (memory.buffer read, read.length, (read.length + 511) / 512)

/-- At the end of the file there is nothing more to copy. -/
theorem readLoop_done {result : List UInt8 × Nat × Nat} (count : k = (read.length + 511) / 512) :
    some (memory.buffer read, read.length, k) = some result ↔
      memory.CopiesFrom k read ∧ result = memory.collected read := by
  rw [some_inj, eq_comm, Memory.collected, ← count]
  exact (and_iff_right fun j late inside => by omega).symm

/-- The loop collects the whole file. -/
theorem readLoop_eq_some_iff (fuel : Nat) (enough : file.length ≤ fuel) (noNul : 0 ∉ read ++ file)
    (count : k = (read.length + 511) / 512) (whole : file = [] ∨ read.length = 512 * k)
    {result : List UInt8 × Nat × Nat} :
    readLoop memory fuel k (memory.buffer read) read.length file = some result ↔
      memory.CopiesFrom k (read ++ file) ∧ result = memory.collected (read ++ file) := by
  induction fuel generalizing k read file with
  | zero =>
    obtain rfl := length_eq_zero_iff.mp (Nat.le_zero.mp enough)
    rw [append_nil]
    exact readLoop_done count
  | succ fuel ih =>
    rw [readLoop]
    split
    · rename_i empty
      obtain rfl : file = [] := by simpa using empty
      rw [append_nil]
      exact readLoop_done count
    · rename_i more
      have size : (file.take 512).length = min 512 file.length := length_take
      have some : 0 < file.length := length_pos_iff.mpr fun none => more (by rw [none]; rfl)
      have start : read.length = 512 * k := by grind
      have own : 0 ∉ read := fun member => noNul (mem_append_left _ member)
      have all : read ++ file = read ++ file.take 512 ++ file.drop 512 := by simp
      have next : memory.buffer (read ++ file.take 512) = read ++ file.take 512 := by
        simp [Memory.buffer, more]
      have later := @ih (k + 1) (file.drop 512) (read ++ file.take 512)
        (by rw [length_drop]; omega) (all ▸ noNul)
        (by rw [length_append, size]; omega)
        (by
          rw [drop_eq_nil_iff, length_append, size]
          omega)
      rw [next, ← all, @length_append _ read (file.take 512)] at later
      have most : read.length + (file.take 512).length =
          min (512 * (k + 1)) (read ++ file).length := by
        rw [size, length_append]
        omega
      refine bind_eq_some_iff.trans ⟨?_, ?_⟩
      · rintro ⟨tempBuf, grew, moves⟩
        obtain ⟨copies, rfl⟩ := (grow_eq_some_iff own start).mp grew
        obtain ⟨others, same⟩ := later.mp moves
        rw [most] at copies
        refine ⟨fun j late inside => ?_, same⟩
        obtain rfl | later := Nat.eq_or_lt_of_le late
        · exact copies
        · exact others j later inside
      · rintro ⟨copies, same⟩
        refine ⟨_, (grow_eq_some_iff own start).mpr ⟨?_, rfl⟩, later.mpr ⟨?_, same⟩⟩
        · rw [most]
          exact copies k (Nat.le_refl _) (by rw [length_append]; omega)
        · exact fun j late => copies j (by omega)

theorem cut_ne_nil (slice file : List UInt8) : cut slice file ≠ [] := by
  induction file generalizing slice with
  | nil => exact cons_ne_nil _ _
  | cons c rest ih => grind [cut]

theorem readLines_ne_nil (moves : readLines memory file = some lines) : lines ≠ [] := by
  grind [readLines, cut_ne_nil, bind_eq_some_iff, map_eq_nil_iff]

theorem toLine_plain (noNul : 0 ∉ bytes) (plain : newline ∉ bytes) : toLine bytes = bytes := by
  have first : bytes.head? ≠ some newline := fun found => plain (mem_of_head? found)
  rw [toLine, cString_of_noNul noNul, if_neg first]

theorem toLine_newline (noNul : 0 ∉ bytes) : toLine (newline :: bytes) = bytes := by
  grind [newline, toLine, cString_of_noNul]

/-- Cutting in front of newlines and skipping them is splitting at newlines. The second part is
about a slice that begins with the newline it was cut at. -/
theorem cut_toLine (slice : List UInt8) (noNul : 0 ∉ slice ++ file) (plain : newline ∉ slice) :
    (cut slice file).map toLine = (slice ++ file).splitOn newline ∧
      (cut (newline :: slice) file).map toLine = (slice ++ file).splitOn newline := by
  have own : 0 ∉ slice := fun member => noNul (mem_append_left _ member)
  induction file generalizing slice with
  | nil =>
    rw [append_nil, splitOn_eq_singleton plain]
    exact ⟨congrArg ([·]) (toLine_plain own plain), congrArg ([·]) (toLine_newline own)⟩
  | cons c rest ih =>
    by_cases ends : c = newline
    · grind [splitOn_append_cons_self_of_not_mem, cut, toLine_plain, toLine_newline]
    · have longer : slice ++ c :: rest = slice ++ [c] ++ rest := by simp
      grind [cut]

/-- The lines of a file without NUL are what stands between its newlines. -/
theorem readLines_eq_some_iff (noNul : 0 ∉ file) :
    readLines memory file = some lines ↔ memory.Loads file ∧ lines = file.splitOn newline := by
  have lines_eq := (cut_toLine [] (by simpa using noNul) (by simp)).1
  have loop := @readLoop_eq_some_iff memory 0 file [] _ (Nat.le_refl _) noNul rfl (.inr rfl)
  have bound (k : Nat) : file.length < (memory.buffer file ++ memory.beyond k).length ↔
      (file ≠ [] → memory.beyond k ≠ []) := by
    by_cases none : file = [] <;> simp [Memory.buffer, none, length_pos_iff]
  have taken : (memory.buffer file).take file.length = file := by
    grind [Memory.buffer]
  refine bind_eq_some_iff.trans ⟨?_, ?_⟩
  · rintro ⟨result, read, moves⟩
    obtain ⟨copies, rfl⟩ := loop.mp read
    dsimp only [Memory.collected, nil_append] at moves
    obtain ⟨inside, same⟩ := ite_none_right_eq_some.mp moves
    rw [taken, lines_eq] at same
    exact ⟨⟨fun k => copies k (Nat.zero_le k), (bound _).mp inside⟩, (Option.some.inj same).symm⟩
  · rintro ⟨loads, rfl⟩
    refine ⟨_, loop.mpr ⟨fun j _ => loads.copies j, rfl⟩, ?_⟩
    dsimp only [Memory.collected, nil_append]
    rw [if_pos ((bound _).mpr loads.behind), taken, lines_eq]
    rfl

end Load

/-! ## Saving -/

section Save

variable {file bytes last : List UInt8} {lines init : List (List UInt8)}

/-- `write` stores the first `k` bytes: all of them, or whole chunks up to one that does not fit. -/
structure Written (file bytes : List UInt8) (k : Nat) : Prop where
  most : k ≤ bytes.length
  fits : file.length ≤ maxBytes → file.length + k ≤ maxBytes
  stop : k = bytes.length ∨ k % maxWrite = 0 ∧
    maxBytes < file.length + k + min maxWrite (bytes.length - k)

theorem writeLoop_written (fuel : Nat) (enough : bytes.length ≤ fuel) :
    ∃ k, writeLoop fuel file bytes = file ++ bytes.take k ∧ Written file bytes k := by
  have positive : 0 < maxWrite := by decide
  induction fuel generalizing file bytes with
  | zero =>
    obtain rfl := length_eq_zero_iff.mp (Nat.le_zero.mp enough)
    exact ⟨0, by simp [writeLoop], by simp, by simp, .inl rfl⟩
  | succ fuel ih =>
    rw [writeLoop]
    have size : (bytes.take maxWrite).length = min maxWrite bytes.length := length_take
    split
    · rename_i empty
      have nothing : bytes.length = 0 := by
        rw [empty, length_nil] at size
        omega
      exact ⟨0, by simp, by simp, by simp, .inl nothing.symm⟩
    rename_i more
    split
    · rename_i full
      refine ⟨0, by simp, by simp, by simp, .inr ⟨Nat.zero_mod _, ?_⟩⟩
      rw [size] at full
      simpa using full
    · rename_i room
      have shorter : (bytes.drop maxWrite).length ≤ fuel := by
        have := length_pos_iff.mpr more
        rw [length_drop]
        omega
      obtain ⟨k, stored, most, fits, stop⟩ :=
        @ih (file ++ bytes.take maxWrite) (bytes.drop maxWrite) shorter
      rw [length_append, size] at fits stop
      rw [length_drop] at most stop
      rw [size] at room
      refine ⟨min maxWrite bytes.length + k, ?_, by omega, fun _ => ?_, ?_⟩
      · have later : bytes.take (min maxWrite bytes.length + k) =
            bytes.take maxWrite ++ (bytes.drop maxWrite).take k := by
          rw [take_add, ← take_eq_take_min]
          by_cases long : maxWrite ≤ bytes.length
          · rw [Nat.min_eq_left long]
          · rw [drop_of_length_le (by omega), drop_of_length_le (by omega)]
        rw [stored, later, append_assoc]
      · have := fits (by omega)
        omega
      · rcases stop with all | ⟨whole, next⟩
        · exact .inl (by omega)
        · by_cases long : maxWrite ≤ bytes.length
          · refine .inr ⟨?_, ?_⟩
            · rw [Nat.min_eq_left long, Nat.add_mod_left]
              exact whole
            · omega
          · exact .inl (by omega)

theorem write_written (file bytes : List UInt8) :
    ∃ k, write file bytes = file ++ bytes.take k ∧ Written file bytes k :=
  writeLoop_written bytes.length (Nat.le_refl _)

/-- What `save_file` means to write. -/
def full (lines : List (List UInt8)) : List UInt8 := lines.flatMap (· ++ [newline])

theorem writeLines_append (noNul : 0 ∉ last) :
    writeLines (init ++ [last]) = write (writeLines init) (last ++ [newline]) := by
  simp [writeLines, cString_of_noNul noNul]

theorem writeLines_length (lines : List (List UInt8)) : (writeLines lines).length ≤ maxBytes := by
  induction lines using reverseRecOn with
  | nil => exact Nat.zero_le _
  | append_singleton init last ih =>
    rw [writeLines, foldl_append, List.foldl_cons, foldl_nil, ← writeLines]
    obtain ⟨k, stored, written⟩ := write_written (writeLines init) (cString last ++ [newline])
    have := written.fits ih
    have := written.most
    rw [stored, length_append, length_take]
    omega

/-- A file that is not too long is written as a whole. -/
theorem writeLines_fits (noNul : ∀ line ∈ lines, 0 ∉ line) (fits : (full lines).length ≤ maxBytes) :
    writeLines lines = full lines := by
  induction lines using reverseRecOn with
  | nil => rfl
  | append_singleton init last ih =>
    have split : full (init ++ [last]) = full init ++ (last ++ [newline]) := by simp [full]
    rw [split, length_append] at fits
    have before := ih (fun line member => noNul line (mem_append_left _ member)) (by omega)
    obtain ⟨k, stored, written⟩ := write_written (writeLines init) (last ++ [newline])
    rw [writeLines_append (noNul last (by simp)), stored, before, split]
    rw [before] at written
    rcases written.stop with all | ⟨_, next⟩
    · rw [all, take_length]
    · have := written.most
      omega

theorem intercalate_append (init : List (List UInt8)) (last : List UInt8) :
    [newline].intercalate (init ++ [last]) = full init ++ last := by
  induction init with
  | nil => simp [full]
  | cons line rest ih =>
    rw [cons_append, intercalate_cons_of_ne_nil (by simp), ih]
    simp [full]

/-- The file that is saved lacks the last newline exactly if that newline is a chunk of its own
and the rest fills a file of the maximal size. -/
theorem writeLines_eq_iff (noNul : ∀ line ∈ init ++ [last], 0 ∉ line) :
    writeLines (init ++ [last]) = [newline].intercalate (init ++ [last]) ↔
      ([newline].intercalate (init ++ [last])).length = maxBytes ∧ last.length % maxWrite = 0 := by
  have chunk : maxWrite = 1536 := rfl
  have before : ∀ line ∈ init, 0 ∉ line := fun line member =>
    noNul line (mem_append_left _ member)
  obtain ⟨k, stored, written⟩ := write_written (writeLines init) (last ++ [newline])
  have fits := written.fits (writeLines_length init)
  have most := written.most
  have stop := written.stop
  rw [length_append, length_singleton] at most stop
  rw [chunk] at stop ⊢
  rw [writeLines_append (noNul last (by simp)), stored, intercalate_append, length_append]
  constructor
  · intro same
    have lengths := congrArg List.length same
    rw [length_append, length_append, length_take, length_append,
      length_singleton, Nat.min_eq_left most] at lengths
    -- nothing was lost before the last line: what is lost does not fit, and then neither does more
    grind [writeLines_fits]
  · rintro ⟨size, multiple⟩
    have whole := writeLines_fits before (by omega)
    rw [whole] at fits stop
    have line : k = last.length := by omega
    rw [whole, line, take_left]

theorem writeLines_noNul (noNul : ∀ line ∈ lines, 0 ∉ line) : 0 ∉ writeLines lines := by
  induction lines using reverseRecOn with
  | nil => exact not_mem_nil
  | append_singleton init last ih =>
    have none := noNul last (by simp)
    obtain ⟨k, stored, _⟩ := write_written (writeLines init) (last ++ [newline])
    rw [writeLines_append none, stored, mem_append, not_or]
    refine ⟨ih fun line member => noNul line (mem_append_left _ member), fun member => ?_⟩
    rcases mem_append.mp (mem_of_mem_take member) with inside | last
    · exact none inside
    · exact absurd (List.mem_singleton.mp last) (by decide)

end Save

/-- A file of the maximal size whose last line is a whole number of chunks long. -/
def FullToTheChunk (file : List UInt8) : Prop :=
  file.length = maxBytes ∧
    ∃ last, (file.splitOn newline).getLast? = some last ∧ last.length % maxWrite = 0

theorem intercalate_noNul {lines : List (List UInt8)} :
    0 ∉ [newline].intercalate lines ↔ ∀ line ∈ lines, 0 ∉ line := by
  induction lines with
  | nil => simp
  | cons line rest ih =>
    rcases eq_or_ne rest [] with rfl | more
    · simp
    grind [newline, intercalate_cons_of_ne_nil]

/-- `writeLines` reproduces a file from its lines exactly in that case. -/
theorem writeLines_splitOn_iff {file : List UInt8} (noNul : 0 ∉ file) :
    writeLines (file.splitOn newline) = file ↔ FullToTheChunk file := by
  have whole : [newline].intercalate (file.splitOn newline) = file := intercalate_splitOn _
  have more := splitOn_ne_nil newline file
  rw [FullToTheChunk]
  generalize file.splitOn newline = lines at whole more ⊢
  subst whole
  obtain ⟨init, last, rfl⟩ : ∃ init last, lines = init ++ [last] :=
    ⟨_, _, (dropLast_concat_getLast more).symm⟩
  rw [writeLines_eq_iff (intercalate_noNul.mp noNul)]
  simp

/-- Saved lines are read back exactly in that case. -/
theorem splitOn_writeLines_iff {lines : List (List UInt8)}
    (plain : ∀ line ∈ lines, newline ∉ line ∧ 0 ∉ line) :
    (writeLines lines).splitOn newline = lines ↔
      lines ≠ [] ∧ FullToTheChunk ([newline].intercalate lines) := by
  have apart : ∀ line ∈ lines, newline ∉ line := fun line member => (plain line member).1
  have saved : lines ≠ [] → (writeLines lines = [newline].intercalate lines ↔
      FullToTheChunk ([newline].intercalate lines)) := by
    intro more
    rw [← writeLines_splitOn_iff (intercalate_noNul.mpr fun line member => (plain line member).2),
      splitOn_intercalate newline apart more]
  constructor
  · intro same
    have more : lines ≠ [] := same ▸ splitOn_ne_nil newline (writeLines lines)
    have joined : [newline].intercalate ((writeLines lines).splitOn newline) = writeLines lines :=
      intercalate_splitOn newline
    rw [same] at joined
    exact ⟨more, (saved more).mp joined.symm⟩
  · rintro ⟨more, full⟩
    rw [(saved more).mpr full]
    exact splitOn_intercalate newline apart more

/-- Memory full of zeros. -/
def zeroMemory : Memory := ⟨fun _ _ => 0, fun _ => [0]⟩

theorem zeroMemory_loads {file : List UInt8} (fits : file.length ≤ maxBytes) :
    zeroMemory.Loads file := by
  have most : maxBytes = 71680 := rfl
  refine ⟨fun k inside => .inr ⟨List.mem_singleton.mpr rfl, ?_⟩, fun _ => cons_ne_nil _ _⟩
  change max 1 (512 * k) + 0 ≤ 8 * ((min (512 * (k + 1)) file.length + 7) % 2 ^ 32 / 8)
  omega

end Xv6.Xvedit
