import Xv6.Xvedit.Drop

/-!
# `read_file`, `ADD<` and `EDIT`

`read_file` does not set the `next` of its last node: its chain ends there exactly if that memory
holds a null pointer. `ADD<` looks for the node before the line and finds none for the first line;
where there is no line with the number, both commands count a change all the same.
-/

namespace Xv6.Xvedit

open Function Lib Option List

namespace Contents

variable {s t : Contents} {nodes front rest : List Nat} {num : Int} {text : List UInt8}
  {fuel ln i p a : Nat}

/-- The lines of the nodes. -/
abbrev linesOf (s : Contents) (nodes : List Nat) : List (List UInt8) :=
  nodes.map fun p => (s.mem p).line

/-! ## The loops -/

/-- More fuel does not change a result. -/
theorem fuel_unique {f : Nat → Option Contents}
    (mono : ∀ fuel t, f fuel = some t → f (fuel + 1) = some t) {m n : Nat} {u : Contents}
    (first : f m = some t) (second : f n = some u) : t = u := by
  have more : ∀ k {m t}, f m = some t → f (m + k) = some t := by
    intro k
    induction k with
    | zero => exact fun given => given
    | succ k ih => exact fun given => mono _ _ (ih given)
  have left := more n first
  rw [add_comm] at left
  exact Option.some.inj (left.symm.trans (more m second))

theorem addLoop_mono (moves : addLoop num p fuel s ln i = some t) :
    addLoop num p (fuel + 1) s ln i = some t := by
  induction fuel generalizing ln i with
  | zero => contradiction
  | succ fuel ih => grind [addLoop]

theorem editLoop_mono (moves : editLoop num text fuel s ln i = some t) :
    editLoop num text (fuel + 1) s ln i = some t := by
  induction fuel generalizing ln i with
  | zero => contradiction
  | succ fuel ih => grind [editLoop]

/-- `add` puts the new node in behind node `a`. -/
theorem addLoop_in (path : Path (fun p => (s.mem p).next) ln (front ++ a :: rest) 0)
    (null : 0 ∉ front ++ a :: rest) (new : p ≠ 0) (here : num = i + front.length + 1) :
    ∃ mem, addLoop num p (front.length + 1) s ln i =
        some { s with mem := mem, count := s.count + 1 } ∧
      (fun b => (mem b).next) =
        update (update (fun b => (s.mem b).next) p (s.mem a).next) a p ∧
      ∀ b, (mem b).line = (s.mem b).line := by
  induction front generalizing ln i with
  | nil =>
    obtain ⟨rfl, path⟩ := path
    have inner := (ne_of_not_mem_cons null).symm
    let mem := update s.mem p { s.mem p with next := (s.mem ln).next }
    refine ⟨update mem ln { mem ln with next := p }, ?_, ?_, fun b => ?_⟩
    · rw [length_nil, addLoop, if_neg inner, if_pos (by simp at here; omega), setNext,
        if_pos new]
      simp only [bind_eq_bind, bind_some]
      rw [setNext, if_pos inner]
      rfl
    · rw [next_update]
      exact congrArg (update · ln p) (next_update ..)
    · grind
  | cons b front ih =>
    obtain ⟨rfl, path⟩ := path
    have inner := (ne_of_not_mem_cons null).symm
    obtain ⟨mem, goes, next, line⟩ := ih (i := i + 1) path
      (not_mem_of_not_mem_cons null) (by simp at here; omega)
    refine ⟨mem, ?_, next, line⟩
    rw [addLoop, if_neg inner, if_neg (by simp at here; omega)]
    exact goes

/-- `add` finds no place. -/
theorem addLoop_out (path : Path (fun p => (s.mem p).next) ln rest 0) (null : 0 ∉ rest)
    (none : ∀ j < rest.length, num ≠ i + j + 1) :
    addLoop num p (rest.length + 1) s ln i = some s := by
  induction rest generalizing ln i with
  | nil => rw [addLoop, if_pos (path_nil.mp path)]
  | cons a rest ih =>
    obtain ⟨rfl, path⟩ := path
    have inner := (ne_of_not_mem_cons null).symm
    have here := none 0 (by simp)
    rw [addLoop, if_neg inner, if_neg (by omega)]
    refine ih path (not_mem_of_not_mem_cons null) fun j less => ?_
    have := none (j + 1) (by simpa using less)
    omega

/-- `edit` replaces the line of node `a`. -/
theorem editLoop_in (path : Path (fun p => (s.mem p).next) ln (front ++ a :: rest) 0)
    (null : 0 ∉ front ++ a :: rest) (here : num = i + front.length) :
    editLoop num text (front.length + 1) s ln i =
      some { s with mem := update s.mem a { s.mem a with line := text } } := by
  induction front generalizing ln i with
  | nil =>
    obtain ⟨rfl, path⟩ := path
    have inner := (ne_of_not_mem_cons null).symm
    rw [length_nil, editLoop, if_neg inner, if_pos (by simp at here; omega)]
  | cons b front ih =>
    obtain ⟨rfl, path⟩ := path
    have inner := (ne_of_not_mem_cons null).symm
    rw [editLoop, if_neg inner, if_neg (by simp at here; omega)]
    exact ih path (not_mem_of_not_mem_cons null) (by simp at here; omega)

/-- `edit` finds no line. -/
theorem editLoop_out (path : Path (fun p => (s.mem p).next) ln rest 0) (null : 0 ∉ rest)
    (none : ∀ j < rest.length, num ≠ i + j) :
    editLoop num text (rest.length + 1) s ln i = some { s with changes := incr s.changes } := by
  induction rest generalizing ln i with
  | nil => rw [editLoop, if_pos (path_nil.mp path)]
  | cons a rest ih =>
    obtain ⟨rfl, path⟩ := path
    have inner := (ne_of_not_mem_cons null).symm
    have here := none 0 (by simp)
    rw [editLoop, if_neg inner, if_neg (by omega)]
    refine ih path (not_mem_of_not_mem_cons null) fun j less => ?_
    have := none (j + 1) (by simpa using less)
    omega

theorem incr_ne (n : Int) : incr n ≠ n := by
  intro same
  have := (Int.bmod_eq_iff (by decide)).mp same
  omega

/-! ## The commands -/

/-- The command with line number `n` does what it says: for a line that exists the lines are then
`result`, and for a number behind the next one, or 0, nothing changes. -/
def Addresses (s : Contents) (nodes : List Nat) (n : Nat) (run : Nat → Option Contents)
    (result : List (List UInt8)) : Prop :=
  ∃ fuel t, run fuel = some t ∧
    (1 ≤ n → n ≤ nodes.length → t.Shows result) ∧
    (n = 0 ∨ nodes.length + 1 < n →
      t.Shows (s.linesOf nodes) ∧ t.count = s.count ∧ t.changes = s.changes)

/-- A node at a given place. -/
theorem exists_split {n : Nat} (inside : n < nodes.length) :
    ∃ front a rest, nodes = front ++ a :: rest ∧ front.length = n :=
  ⟨nodes.take n, nodes[n], nodes.drop (n + 1), by simp, by simp; omega⟩

variable {cell : Cell}

theorem malloc_fresh (s : Contents) (text : List UInt8)
    (fresh : cell.addr ≠ 0 ∧ cell.addr ∉ s.live) : ∃ u, s.malloc cell text = some u :=
  ⟨_, if_pos fresh⟩

theorem Linked.malloc_lines (linked : s.Linked nodes 0) (moves : s.malloc cell text = some t) :
    t.linesOf nodes = s.linesOf nodes ∧ (t.mem cell.addr).line = text := by
  have new := (linked.malloc moves).2.2.1
  obtain ⟨-, -, rfl⟩ := malloc_cases moves
  refine ⟨map_congr_left fun p member => ?_, by simp⟩
  exact congrArg Node.line (update_of_ne (ne_of_mem_of_not_mem member new) _ _)

theorem Linked.addresses_add_iff (linked : s.Linked nodes 0) (text : List UInt8) (n : Nat)
    (fresh : cell.addr ≠ 0 ∧ cell.addr ∉ s.live) :
    s.Addresses nodes n (s.add text n cell) ((s.linesOf nodes).take (n - 1) ++
      text :: (s.linesOf nodes).drop (n - 1)) ↔ 2 ≤ n ∧ n ≤ nodes.length + 1 := by
  obtain ⟨u, allocated⟩ := s.malloc_fresh text fresh
  obtain ⟨linked', null, new, live⟩ := linked.malloc allocated
  obtain ⟨lines, line⟩ := linked.malloc_lines allocated
  have changes : u.changes = s.changes := by
    obtain ⟨-, -, rfl⟩ := malloc_cases allocated
    rfl
  let v := { u with changes := incr u.changes }
  have run : ∀ fuel, s.add text n cell fuel = Contents.addLoop n cell.addr fuel v v.head 1 := by
    intro fuel
    rw [add, allocated]
    rfl
  constructor
  · rintro ⟨fuel, t, moves, inside, outside⟩
    by_contra wrong
    have idle := @addLoop_out v nodes n v.head 1 cell.addr linked'.path linked'.null
      (fun j less => by omega)
    rw [run] at moves
    obtain rfl := @fuel_unique _ (fun fuel => Contents.addLoop n cell.addr fuel v v.head 1)
      (fun _ _ => addLoop_mono) _ _ _ moves idle
    by_cases one : n = 1
    · subst one
      have some := length_pos_iff.mpr linked.ne_nil
      obtain ⟨others, reached, shown⟩ := inside (Nat.le_refl 1) some
      obtain rfl := reached.unique ⟨linked'.path, linked'.null⟩
      have lengths := congrArg List.length shown
      simp at lengths
    · have := (outside (by omega)).2.2
      exact incr_ne _ (this.trans changes.symm)
  · rintro ⟨two, most⟩
    obtain ⟨front, a, rest, rfl, place⟩ := exists_split (by omega : n - 2 < nodes.length)
    obtain ⟨mem, goes, next, same⟩ := @addLoop_in v front rest n v.head 1 cell.addr a
      linked'.path linked'.null null (by omega)
    refine ⟨_, _, (run _).trans goes, fun _ _ => ?_, fun other => by omega⟩
    have nodup := linked.nodup
    rw [nodup_middle, nodup_cons, mem_append, not_or] at nodup
    refine ⟨front ++ a :: cell.addr :: rest, ⟨?_, ?_⟩, ?_⟩
    · change Path (fun b => (mem b).next) _ _ _
      rw [next]
      exact linked'.path.insert nodup.1.1 nodup.1.2 new
    · have := linked.null
      simp_all [eq_comm]
    · have split : n - 1 = front.length + 1 := by omega
      have old : ∀ b, (mem b).line = (u.mem b).line := same
      rw [← lines, split]
      simp [old, linesOf, line, take_append, drop_append, take_of_length_le,
        drop_eq_nil_of_le]

theorem Linked.addresses_edit_iff (linked : s.Linked nodes 0) (text : List UInt8) (n : Nat)
    (fresh : cell.addr ≠ 0 ∧ cell.addr ∉ s.live) :
    s.Addresses nodes n (s.edit text n cell) ((s.linesOf nodes).set (n - 1) text) ↔
      1 ≤ n ∧ n ≤ nodes.length + 1 := by
  obtain ⟨u, allocated⟩ := s.malloc_fresh text fresh
  have linked' := (linked.malloc allocated).1
  have lines := (linked.malloc_lines allocated).1
  have changes : u.changes = s.changes := by
    obtain ⟨-, -, rfl⟩ := malloc_cases allocated
    rfl
  have run : ∀ fuel, s.edit text n cell fuel = editLoop n text fuel u u.head 1 := by
    intro fuel
    rw [edit, allocated]
    rfl
  have idle : n = 0 ∨ nodes.length < n → editLoop n text (nodes.length + 1) u u.head 1 =
      some { u with changes := incr u.changes } := fun outside =>
    editLoop_out linked'.path linked'.null fun j less => by omega
  constructor
  · rintro ⟨fuel, t, moves, -, outside⟩
    by_contra wrong
    rw [run] at moves
    obtain rfl := @fuel_unique _ (fun fuel => editLoop n text fuel u u.head 1)
      (fun _ _ => editLoop_mono) _ _ _ moves (idle (by omega))
    have := (outside (by omega)).2.2
    exact incr_ne _ (this.trans changes.symm)
  · rintro ⟨one, most⟩
    by_cases last : n = nodes.length + 1
    · exact ⟨_, _, (run _).trans (idle (by omega)), fun _ inside => by omega, fun other => by omega⟩
    · obtain ⟨front, a, rest, rfl, place⟩ := exists_split (by omega : n - 1 < nodes.length)
      refine ⟨_, _, (run _).trans (editLoop_in linked'.path linked'.null (by omega)),
        fun _ _ => ?_, fun other => by omega⟩
      refine ⟨front ++ a :: rest, ⟨(linked'.setLine a).path, linked'.null⟩, ?_⟩
      have nodup := linked.nodup
      rw [nodup_middle, nodup_cons, mem_append, not_or] at nodup
      have off : ∀ b ∈ front ++ rest, (update u.mem a
          { u.mem a with line := text } b).line = (u.mem b).line := by
        intro b member
        rw [update_of_ne]
        rintro rfl
        exact (mem_append.mp member).elim nodup.1.1 nodup.1.2
      rw [← lines, ← place]
      simp only [linesOf, map_append, map_cons, update_self]
      rw [set_append_right _ _ (by simp), map_congr_left fun b member =>
        off b (mem_append_left _ member), map_congr_left fun b member =>
        off b (mem_append_right _ member)]
      simp

end Contents

/-- `ADD<` addresses the right line exactly from the second line on, `EDIT` exactly from the first
line on; with a number for which nothing should happen, neither leaves the count of changes. -/
theorem add_edit_exact_iff {s : Contents} {nodes : List Nat} (linked : s.Linked nodes 0)
    (text : List UInt8) (n : Nat) {cell : Cell} (fresh : cell.addr ≠ 0 ∧ cell.addr ∉ s.live) :
    (s.Addresses nodes n (s.add text n cell) ((s.linesOf nodes).take (n - 1) ++
      text :: (s.linesOf nodes).drop (n - 1)) ↔ 2 ≤ n ∧ n ≤ nodes.length + 1) ∧
    (s.Addresses nodes n (s.edit text n cell) ((s.linesOf nodes).set (n - 1) text) ↔
      1 ≤ n ∧ n ≤ nodes.length + 1) :=
  ⟨linked.addresses_add_iff text n fresh, linked.addresses_edit_iff text n fresh⟩

/-! ## `read_file` and `save_file` -/

namespace Contents

variable {s : Contents} {nodes : List Nat} {memory : Memory} {file : List UInt8}
  {lines : List (List UInt8)} {cells : List Cell} {fuel n ln : Nat}

/-- What so many calls of `malloc` may return for the nodes. -/
structure Fresh (s : Contents) (cells : List Cell) (n : Nat) : Prop where
  count : cells.length = n
  nodup : (cells.map Cell.addr).Nodup
  new : ∀ cell ∈ cells, cell.addr ≠ 0 ∧ cell.addr ∉ s.live

/-- The second loop of `read_file` returns. -/
theorem Fresh.loadLoop (fresh : s.Fresh cells lines.length) {prev : Option Nat}
    (given : prev ≠ some 0) : ∃ t, loadLoop s prev lines cells = some t := by
  induction lines generalizing s cells prev with
  | nil =>
    rw [length_eq_zero_iff.mp fresh.count]
    exact ⟨s, rfl⟩
  | cons line lines ih =>
    cases cells with
    | nil => nomatch fresh.count
    | cons cell cells =>
      have first := fresh.new cell mem_cons_self
      have later : ∀ u : Contents, u.live = cell.addr :: s.live →
          ∃ t, Contents.loadLoop u (some cell.addr) lines cells = some t := fun u live => by
        refine ih ⟨Nat.succ.inj fresh.count, ?_, ?_⟩ (by simpa using first.1)
        all_goals grind [cases Fresh]
      rw [Contents.loadLoop, malloc, if_pos first]
      cases prev with
      | none => exact later _ rfl
      | some p =>
        have live : p ≠ 0 := fun zero => given (congrArg some zero)
        simp only [bind_eq_bind, bind_some, setNext, if_pos live]
        exact later _ rfl

/-- `read_file` returns with a list that is consistent exactly if the buffers lie well and the last
node has a null pointer, and then the lines of the file are in the list. -/
theorem Fresh.readFile_iff (fresh : s.Fresh cells (file.splitOn newline).length)
    (noNul : 0 ∉ file) :
    (∃ t, s.readFile memory file cells = some t ∧ t.Consistent ∧ t.Shows lines) ↔
      memory.Loads file ∧ cells.getLast?.map Cell.next = some 0 ∧ lines = file.splitOn newline := by
  constructor
  · rintro ⟨t, moves, ⟨others, ⟨path, null⟩, count, -⟩, shown⟩
    obtain ⟨nodes, q, last, linked, read⟩ := readFile_chain moves
    obtain ⟨loads, same⟩ := (readLines_eq_some_iff noNul).mp read
    have length : nodes.length = others.length := by
      have := linked.count
      omega
    obtain rfl := linked.path.ends_eq path length
    exact ⟨loads, last, (shown.unique linked.shows).trans same⟩
  · rintro ⟨loads, ends, rfl⟩
    have read := (readLines_eq_some_iff noNul).mpr ⟨loads, rfl⟩
    obtain ⟨t, moves⟩ : ∃ t, s.readFile memory file cells = some t := by
      have reset : { s with count := 0, changes := 0 }.Fresh cells (file.splitOn newline).length :=
        ⟨fresh.count, fresh.nodup, fresh.new⟩
      rw [readFile, read]
      exact reset.loadLoop (by simp)
    obtain ⟨nodes, q, last, linked, shown⟩ := readFile_chain moves
    obtain rfl := Option.some.inj (last.symm.trans ends)
    rw [Option.some.inj (read.symm.trans shown)]
    exact ⟨t, moves, linked.consistent, linked.shows⟩

/-- The loop of `save_file` comes to the end of a chain. -/
theorem lines_eq (path : Path (fun p => (s.mem p).next) ln nodes 0) (null : 0 ∉ nodes) :
    s.lines fuel ln = if nodes.length < fuel then some (s.linesOf nodes) else none := by
  induction fuel generalizing ln nodes with
  | zero => rfl
  | succ fuel ih =>
    cases nodes with
    | nil =>
      have ended : ln = 0 := path
      simp [lines, ended]
    | cons a rest =>
      obtain ⟨rfl, path⟩ := path
      rw [mem_cons, not_or] at null
      rw [lines, if_neg (Ne.symm null.1), ih path null.2]
      split <;> simp_all

theorem Shows.saveFile (shown : s.Shows lines) : s.saveFile fuel =
    if lines.length < fuel then some (writeLines lines) else none := by
  obtain ⟨nodes, ⟨path, null⟩, rfl⟩ := shown
  rw [Contents.saveFile, lines_eq path null, length_map]
  split <;> rfl

end Contents

/-- `read_file` leaves exactly the lines of the file, with a null pointer behind the last, exactly
if its buffers lie well in memory and `malloc` returned the last node with a null `next`. -/
theorem read_file_exact_iff {s : Contents} {memory : Memory} {file : List UInt8}
    {cells : List Cell} (noNul : 0 ∉ file) (fresh : s.Fresh cells (file.splitOn newline).length) :
    (∃ t, s.readFile memory file cells = some t ∧ t.Consistent ∧
      t.Shows (file.splitOn newline)) ↔
    memory.Loads file ∧ cells.getLast?.map Cell.next = some 0 := by
  rw [fresh.readFile_iff noNul, eq_self, and_true]

/-- Saving and loading undo each other exactly for files of the maximal size whose last line is a
whole number of chunks long, as only there the last newline gets lost, and of these for those that
can be loaded. -/
theorem save_load_inverse_iff (memory : Memory) :
    (∀ (s : Contents) (lines : List (List UInt8)), s.Shows lines →
      (∀ line ∈ lines, newline ∉ line ∧ 0 ∉ line) →
      ∃ file, (∀ fuel > lines.length, s.saveFile fuel = some file) ∧
        ∀ (u : Contents) (cells : List Cell), u.Fresh cells (file.splitOn newline).length →
          ((∃ t, u.readFile memory file cells = some t ∧ t.Consistent ∧ t.Shows lines) ↔
            lines ≠ [] ∧ FullToTheChunk ([newline].intercalate lines) ∧
              memory.Loads ([newline].intercalate lines) ∧
              cells.getLast?.map Cell.next = some 0)) ∧
    ∀ (file : List UInt8) (u : Contents) (cells : List Cell), 0 ∉ file →
      u.Fresh cells (file.splitOn newline).length → cells.getLast?.map Cell.next = some 0 →
      ((∃ t fuel, u.readFile memory file cells = some t ∧ t.saveFile fuel = some file) ↔
        FullToTheChunk file ∧ memory.Loads file) := by
  refine ⟨fun s lines shown plain => ?_, fun file u cells noNul fresh ends => ?_⟩
  · have joined : (writeLines lines).splitOn newline = lines →
        [newline].intercalate lines = writeLines lines := fun same => by
      nth_rewrite 1 [← same]
      exact intercalate_splitOn newline
    refine ⟨writeLines lines, fun fuel enough => shown.saveFile.trans (if_pos enough), ?_⟩
    intro u cells fresh
    rw [fresh.readFile_iff (writeLines_noNul fun line member => (plain line member).2)]
    constructor
    · rintro ⟨loads, ends, same⟩
      obtain ⟨more, full⟩ := (splitOn_writeLines_iff plain).mp same.symm
      exact ⟨more, full, (joined same.symm).symm ▸ loads, ends⟩
    · rintro ⟨more, full, loads, ends⟩
      have same := (splitOn_writeLines_iff plain).mpr ⟨more, full⟩
      exact ⟨joined same ▸ loads, ends, same.symm⟩
  · constructor
    · rintro ⟨t, fuel, moves, saved⟩
      obtain ⟨nodes, q, last, linked, read⟩ := Contents.readFile_chain moves
      obtain rfl := Option.some.inj (last.symm.trans ends)
      obtain ⟨loads, lines⟩ := (readLines_eq_some_iff noNul).mp read
      rw [linked.shows.saveFile, lines] at saved
      obtain ⟨-, same⟩ := Option.ite_none_right_eq_some.mp saved
      exact ⟨(writeLines_splitOn_iff noNul).mp (Option.some.inj same), loads⟩
    · rintro ⟨full, loads⟩
      obtain ⟨t, moves, -, shown⟩ := (fresh.readFile_iff noNul).mpr ⟨loads, ends, rfl⟩
      refine ⟨t, (file.splitOn newline).length + 1, moves, shown.saveFile.trans ?_⟩
      rw [if_pos (Nat.lt_succ_self _), (writeLines_splitOn_iff noNul).mpr full]

/-- Two lines that fill a file of the maximal size; the second is 46 chunks long. -/
theorem save_load_inverse_long : ∃ (lines : List (List UInt8)) (s t : Contents) (file : List UInt8),
    lines.length = 2 ∧ s.Shows lines ∧ s.saveFile 3 = some file ∧
    blank.readFile zeroMemory file [⟨24, 0⟩, ⟨32, 0⟩] = some t ∧ t.Shows lines := by
  have letters : ∀ n : Nat, ∃ line : List UInt8, line.length = n ∧ newline ∉ line ∧ 0 ∉ line :=
    fun n => ⟨replicate n 97, length_replicate,
      fun member => absurd (eq_of_mem_replicate member) (by decide),
      fun member => absurd (eq_of_mem_replicate member) (by decide)⟩
  obtain ⟨first, short, plain⟩ := letters 1023
  obtain ⟨second, long, other⟩ := letters (46 * Fs.maxWrite)
  have lines : ∀ line ∈ [first, second], newline ∉ line ∧ 0 ∉ line := by
    simp [plain, other]
  have size : ([newline].intercalate [first, second]).length = maxBytes := by
    simp only [intercalate_cons_cons, intercalate_singleton, length_append, short,
      long]
    rfl
  have full : FullToTheChunk ([newline].intercalate [first, second]) := by
    refine ⟨size, second, ?_, ?_⟩
    · rw [splitOn_intercalate newline (fun line member => (lines line member).1) (by simp)]
      rfl
    · rw [long, Nat.mul_mod_left]
  let s : Contents := ⟨fun p => if p = 8 then ⟨first, 16⟩ else ⟨second, 0⟩, [8, 16], 8, 16, 2, 0⟩
  have shown : s.Shows [first, second] := ⟨[8, 16], ⟨⟨rfl, rfl, rfl⟩, by decide⟩, rfl⟩
  obtain ⟨file, saved, loads⟩ := (save_load_inverse_iff zeroMemory).1 s _ shown lines
  have written := Option.some.inj ((saved 3 (Nat.lt_succ_self 2)).symm.trans shown.saveFile)
  have fresh : blank.Fresh [⟨24, 0⟩, ⟨32, 0⟩] (file.splitOn newline).length := by
    rw [written, (splitOn_writeLines_iff lines).mpr ⟨by simp, full⟩]
    exact ⟨rfl, by decide, by decide⟩
  obtain ⟨t, moves, -, again⟩ := (loads blank _ fresh).mpr
    ⟨by simp, full, zeroMemory_loads (le_of_eq size), rfl⟩
  exact ⟨_, s, t, file, rfl, shown, saved 3 (Nat.lt_succ_self 2), moves, again⟩

/-- One line comes back as two, and a file without a final newline gets one. -/
theorem save_load_adds_line : ∃ t u,
    blank.readFile zeroMemory [97] [⟨8, 0⟩] = some t ∧ t.Shows [[97]] ∧
    t.saveFile 2 = some [97, 10] ∧
    blank.readFile zeroMemory [97, 10] [⟨8, 0⟩, ⟨16, 0⟩] = some u ∧ u.Shows [[97], []] :=
  ⟨_, _, rfl, ⟨[8], by decide, by decide⟩, rfl, rfl, ⟨[8, 16], by decide, by decide⟩⟩

/-- The second of three lines. -/
theorem add_edit_exact_iff_second : ∃ s nodes,
    blank.readFile zeroMemory [97, 10, 98, 10, 99] [⟨8, 0⟩, ⟨16, 0⟩, ⟨24, 0⟩] = some s ∧
    s.Addresses nodes 2 (s.add [100] 2 ⟨32, 7⟩) ((s.linesOf nodes).take 1 ++
      [100] :: (s.linesOf nodes).drop 1) ∧
    s.Addresses nodes 2 (s.edit [100] 2 ⟨32, 7⟩) ((s.linesOf nodes).set 1 [100]) := by
  obtain ⟨s, nodes, loads, linked, length⟩ := load_three
  have fresh : (32 : Nat) ≠ 0 ∧ 32 ∉ s.live := by
    have none : (blank.readFile zeroMemory [97, 10, 98, 10, 99] [⟨8, 0⟩, ⟨16, 0⟩, ⟨24, 0⟩]).map
        Contents.live = some [24, 16, 8] := by
      decide +kernel
    rw [loads] at none
    rw [Option.some.inj none]
    decide
  have exact_ := @add_edit_exact_iff s nodes linked [100] 2 ⟨32, 7⟩ fresh
  exact ⟨s, nodes, loads, exact_.1.mpr (by omega), exact_.2.mpr (by omega)⟩

/-- `ADD< 1` and `ADD< 9` of three lines change nothing but the count of changes. -/
theorem add_first_ignored : ∃ s t u,
    blank.readFile zeroMemory [97, 10, 98, 10, 99] [⟨8, 0⟩, ⟨16, 0⟩, ⟨24, 0⟩] = some s ∧
    s.add [100] 1 ⟨32, 7⟩ 4 = some t ∧ t.Shows [[97], [98], [99]] ∧
    s.add [100] 9 ⟨32, 7⟩ 4 = some u ∧ u.changes = 1 ∧ s.changes = 0 := by
  refine ⟨_, _, _, rfl, rfl, ⟨[8, 16, 24], by decide, by decide⟩, rfl, by decide, by decide⟩

theorem read_file_exact_iff_two : ∃ t,
    blank.readFile zeroMemory [97, 10, 98] [⟨8, 5⟩, ⟨16, 0⟩] = some t ∧ t.Consistent ∧
    t.Shows [[97], [98]] :=
  (read_file_exact_iff (by decide) ⟨by decide, by decide, by decide⟩).mpr
    ⟨zeroMemory_loads (by decide), rfl⟩

/-- The one node of an empty file points to itself if `malloc` returned it so, and a buffer that
ends at the break cannot be read to its end. -/
theorem read_file_no_end :
    (∃ t, blank.readFile zeroMemory [] [⟨8, 8⟩] = some t ∧ t.count = 1 ∧
      ¬∃ nodes, t.Reached nodes ∧ t.count = nodes.length) ∧
    blank.readFile ⟨fun _ _ => 0, fun _ => []⟩ [97] [⟨8, 0⟩] = none := by
  refine ⟨⟨_, rfl, rfl, ?_⟩, rfl⟩
  rintro ⟨nodes, ⟨path, -⟩, count⟩
  have one : (nodes.length : Int) = 1 := count.symm
  obtain ⟨a, rfl⟩ : ∃ a, nodes = [a] := length_eq_one_iff.mp (by omega)
  obtain ⟨rfl, ends⟩ := path
  exact absurd ends (by decide)

end Xv6.Xvedit
