import Mathlib.Data.List.Nodup
import Xv6.Lib.Path
import Xv6.Xvedit.Contents

/-!
# What the commands of `xvedit` keep of its list

`count`, `head` and `end` describe one list of nodes. `read_file` leaves the `next` of its last
node as `malloc` returned it, `add` behind the last line leaves `end` where it was, and `drop`
counts one line too few or keeps a freed node whenever it deletes in the middle. Without these,
the three fields agree after every command.
-/

namespace Xv6.Xvedit

open Function Lib Option List

namespace Contents

/-- The nodes reached from `head` by `next`. -/
def Reached (s : Contents) (nodes : List Nat) : Prop :=
  Path (fun p => (s.mem p).next) s.head nodes 0 ∧ 0 ∉ nodes

instance (s : Contents) (nodes : List Nat) : Decidable (s.Reached nodes) :=
  inferInstanceAs (Decidable (_ ∧ _))

/-- `count` is the number of nodes reached, and `end` is the last of them. -/
def Consistent (s : Contents) : Prop :=
  ∃ nodes, s.Reached nodes ∧ s.count = nodes.length ∧ nodes.getLast? = some s.end_

/-- The lines of the nodes reached. -/
def Shows (s : Contents) (lines : List (List UInt8)) : Prop :=
  ∃ nodes, s.Reached nodes ∧ nodes.map (fun p => (s.mem p).line) = lines

theorem Reached.unique {s : Contents} {nodes others : List Nat} (reached : s.Reached nodes)
    (other : s.Reached others) : nodes = others :=
  reached.1.unique other.1 reached.2 other.2

/-- The fields describe the listed nodes, all of them allocated; the last one points to `q`. -/
structure Linked (s : Contents) (nodes : List Nat) (q : Nat) : Prop where
  path : Path (fun p => (s.mem p).next) s.head nodes q
  nodup : nodes.Nodup
  null : 0 ∉ nodes
  live : ∀ p ∈ nodes, p ∈ s.live
  count : s.count = nodes.length
  last : nodes.getLast? = some s.end_

namespace Linked

variable {s t : Contents} {nodes : List Nat} {q : Nat}

theorem consistent (linked : s.Linked nodes 0) : s.Consistent :=
  ⟨nodes, ⟨linked.path, linked.null⟩, linked.count, linked.last⟩

theorem ne_nil (linked : s.Linked nodes q) : nodes ≠ [] := by
  have last := linked.last
  rintro rfl
  contradiction

theorem snoc (linked : s.Linked nodes q) : ∃ before, nodes = before ++ [s.end_] :=
  getLast?_eq_some_iff.mp linked.last

/-- The fields and the pointers of the nodes stay. -/
theorem congr (linked : s.Linked nodes q) (head : t.head = s.head) (last : t.end_ = s.end_)
    (count : t.count = s.count) (live : ∀ p ∈ s.live, p ∈ t.live)
    (next : ∀ p ∈ nodes, (t.mem p).next = (s.mem p).next) : t.Linked nodes q where
  path := head ▸ linked.path.congr next
  nodup := linked.nodup
  null := linked.null
  live p member := live p (linked.live p member)
  count := count.trans linked.count
  last := last ▸ linked.last

end Linked

/-! ## One function at a time -/

variable {s t : Contents} {nodes : List Nat} {q p : Nat} {cell : Cell} {line text file : List UInt8}
  {cells : List Cell} {memory : Memory} {num stop : Int}

theorem malloc_cases (moves : s.malloc cell line = some t) :
    cell.addr ≠ 0 ∧ cell.addr ∉ s.live ∧ t = { s with
      mem := update s.mem cell.addr ⟨line, cell.next⟩
      live := cell.addr :: s.live } := by
  rw [malloc] at moves
  split at moves
  · rename_i fits
    exact ⟨fits.1, fits.2, (Option.some.inj moves).symm⟩
  · contradiction

variable {i fuel ln next a : Nat} {before rest : List Nat}

theorem setNext_cases (moves : s.setNext p next = some t) :
    p ≠ 0 ∧ t = { s with mem := update s.mem p { s.mem p with next := next } } := by
  rw [setNext] at moves
  split at moves
  · rename_i fits
    exact ⟨fits, (Option.some.inj moves).symm⟩
  · contradiction

theorem setNext_line (moves : s.setNext p next = some t) (a : Nat) :
    (t.mem a).line = (s.mem a).line := by
  obtain ⟨-, rfl⟩ := setNext_cases moves
  by_cases same : a = p
  · simp [same]
  · simp [same]

theorem free_cases (moves : s.free p = some t) :
    p ∈ s.live ∧ t = { s with live := s.live.erase p } := by
  rw [free] at moves
  split at moves
  · rename_i fits
    exact ⟨fits, (Option.some.inj moves).symm⟩
  · contradiction

/-- A new node is off the list, which stays. -/
theorem Linked.malloc (linked : s.Linked nodes q) (moves : s.malloc cell line = some t) :
    t.Linked nodes q ∧ cell.addr ≠ 0 ∧ cell.addr ∉ nodes ∧ cell.addr ∈ t.live := by
  obtain ⟨nonzero, fresh, rfl⟩ := malloc_cases moves
  have off : cell.addr ∉ nodes := fun member => fresh (linked.live _ member)
  refine ⟨linked.congr rfl rfl rfl (fun p member => mem_cons_of_mem _ member) ?_, nonzero,
    off, mem_cons_self⟩
  intro p member
  change (update s.mem _ _ p).next = _
  rw [update_of_ne (ne_of_mem_of_not_mem member off)]

theorem next_update (mem : Nat → Node) (p next : Nat) :
    (fun a => (update mem p { mem p with next := next } a).next) =
      update (fun a => (mem a).next) p next := by
  grind

/-- The end of the list is turned to `p`. -/
theorem Linked.redirect (linked : s.Linked nodes q) (p : Nat) :
    { s with mem := update s.mem s.end_ { s.mem s.end_ with next := p } }.Linked
      nodes p := by
  obtain ⟨before, rfl⟩ := linked.snoc
  have once : s.end_ ∉ before := by
    have nodup := linked.nodup
    rw [nodup_append] at nodup
    exact fun member => nodup.2.2 _ member _ (by simp) rfl
  refine ⟨?_, linked.nodup, linked.null, linked.live, linked.count, linked.last⟩
  change Path (fun a => (update s.mem _ _ a).next) _ _ _
  rw [next_update]
  exact linked.path.redirect once

/-- The node that the list's end points to becomes its last one. -/
theorem Linked.extend (linked : s.Linked nodes p) (null : p ≠ 0) (new : p ∉ nodes)
    (live : p ∈ s.live) (next : (s.mem p).next = q) :
    { s with end_ := p, count := s.count + 1 }.Linked (nodes ++ [p]) q where
  path := path_append.mpr ⟨p, linked.path, rfl, next⟩
  nodup := by
    grind [cases Linked]
  null := by
    rw [mem_append, mem_singleton]
    exact not_or.mpr ⟨linked.null, null.symm⟩
  live a member := by
    rcases mem_append.mp member with old | last
    · exact linked.live a old
    · exact mem_singleton.mp last ▸ live
  count := by
    change s.count + 1 = _
    rw [linked.count, length_append]
    rfl
  last := getLast?_concat

section

variable (linked : s.Linked nodes q)

include linked

/-- The pointer of a node off the list does not matter. -/
theorem Linked.off (new : p ∉ nodes) (node : Node) :
    { s with mem := update s.mem p node }.Linked nodes q := by
  refine linked.congr rfl rfl rfl (fun _ => id) ?_
  intro a member
  change (update s.mem p node a).next = _
  rw [update_of_ne (ne_of_mem_of_not_mem member new)]

/-- `append` of a new node. -/
theorem Linked.append (null : p ≠ 0) (new : p ∉ nodes) (live : p ∈ s.live)
    (moves : s.append p = some t) : t.Linked (nodes ++ [p]) 0 := by
  obtain ⟨u, turned, moves⟩ := bind_eq_some_iff.mp moves
  obtain ⟨v, ended, moves⟩ := bind_eq_some_iff.mp moves
  obtain ⟨-, rfl⟩ := setNext_cases turned
  obtain ⟨-, rfl⟩ := setNext_cases ended
  cases moves
  exact ((linked.redirect p).off new _).extend null new live (by simp)

/-- A node of `read_file` behind the first: what it points to is what `malloc` returned. -/
theorem Linked.loadNode (allocated : s.malloc cell line = some t) :
    { t with
      mem := update t.mem s.end_ { t.mem s.end_ with next := cell.addr }
      end_ := cell.addr
      count := t.count + 1 }.Linked (nodes ++ [cell.addr]) cell.next := by
  obtain ⟨linked', null, new, live⟩ := linked.malloc allocated
  obtain ⟨before, rfl⟩ := linked.snoc
  obtain ⟨-, -, rfl⟩ := malloc_cases allocated
  have other : cell.addr ≠ s.end_ := fun same => new (by simp [same])
  exact (linked'.redirect cell.addr).extend null new live (by simp [other])

/-- A node of `read_file` behind the first shows its line behind the others. -/
theorem Linked.loadNode_lines (allocated : s.malloc cell line = some t) :
    (nodes ++ [cell.addr]).map (fun p => (update t.mem s.end_
      { t.mem s.end_ with next := cell.addr } p).line) =
      nodes.map (fun p => (s.mem p).line) ++ [line] := by
  have new := (linked.malloc allocated).2.2.1
  obtain ⟨-, -, rfl⟩ := malloc_cases allocated
  rw [map_append]
  grind [map_congr_left]

end

/-- The second loop of `read_file`, behind the first node. -/
theorem Linked.loadLoop (lines : List (List UInt8)) (cells : List Cell) (linked : s.Linked nodes q)
    (moves : loadLoop s (some s.end_) lines cells = some t) :
    ∃ all, t.Linked all ((cells.getLast?.map Cell.next).getD q) ∧
      all.map (fun p => (t.mem p).line) = nodes.map (fun p => (s.mem p).line) ++ lines := by
  induction lines generalizing s nodes q cells with
  | nil =>
    cases cells with
    | nil =>
      cases moves
      exact ⟨nodes, linked, by rw [append_nil]⟩
    | cons cell cells => contradiction
  | cons line lines ih =>
    cases cells with
    | nil => contradiction
    | cons cell cells =>
      obtain ⟨u, allocated, moves⟩ := bind_eq_some_iff.mp moves
      obtain ⟨v, turned, moves⟩ := bind_eq_some_iff.mp moves
      obtain ⟨-, rfl⟩ := setNext_cases turned
      obtain ⟨all, linked', shown⟩ := ih cells (linked.loadNode allocated) moves
      rw [Option.getD_map] at linked'
      rw [getLast?_cons]
      refine ⟨all, linked', shown.trans ?_⟩
      rw [linked.loadNode_lines allocated, append_assoc]
      rfl

/-- `read_file`: the last node keeps what `malloc` returned. -/
theorem readFile_chain (moves : s.readFile memory file cells = some t) :
    ∃ nodes q, cells.getLast?.map Cell.next = some q ∧ t.Linked nodes q ∧
      readLines memory file = some (nodes.map fun p => (t.mem p).line) := by
  obtain ⟨lines, read, moves⟩ := bind_eq_some_iff.mp moves
  rw [read]
  cases lines with
  | nil => exact absurd rfl (readLines_ne_nil read)
  | cons line lines' =>
    cases cells with
    | nil => contradiction
    | cons cell cells =>
      obtain ⟨u, allocated, moves⟩ := bind_eq_some_iff.mp moves
      obtain ⟨null, fresh, rfl⟩ := malloc_cases allocated
      have first : Linked { s with
          mem := update s.mem cell.addr ⟨line, cell.next⟩
          live := cell.addr :: s.live
          head := cell.addr
          end_ := cell.addr
          count := 0 + 1
          changes := 0 } [cell.addr] cell.next := by
        refine ⟨⟨rfl, ?_⟩, List.nodup_singleton _, ?_, ?_, rfl, rfl⟩
        · change (update s.mem _ _ _).next = _
          rw [update_self]
        · rw [mem_singleton]
          exact null.symm
        · intro p member
          rw [mem_singleton.mp member]
          exact mem_cons_self
      obtain ⟨nodes, linked, shown⟩ := first.loadLoop lines' cells moves
      refine ⟨nodes, _, ?_, linked, ?_⟩
      · rw [getLast?_cons, map_some, Option.getD_map]
      · rw [shown]
        simp

theorem readFile_linked (moves : s.readFile memory file cells = some t)
    (ends : cells.getLast?.map Cell.next = some 0) : ∃ nodes, t.Linked nodes 0 := by
  obtain ⟨nodes, q, last, linked, -⟩ := readFile_chain moves
  obtain rfl := Option.some.inj (last.symm.trans ends)
  exact ⟨nodes, linked⟩

theorem Shows.unique {lines others : List (List UInt8)} (shown : s.Shows lines)
    (other : s.Shows others) : lines = others := by
  obtain ⟨nodes, reached, rfl⟩ := shown
  obtain ⟨nodes', reached', rfl⟩ := other
  rw [reached.unique reached']

theorem Linked.shows (linked : s.Linked nodes 0) : s.Shows (nodes.map fun p => (s.mem p).line) :=
  ⟨nodes, ⟨linked.path, linked.null⟩, rfl⟩

/-- A new node is put in behind a node that is not the last. -/
theorem Linked.insert {after : List Nat} (linked : s.Linked (before ++ a :: after) q)
    (inside : after ≠ []) (null : p ≠ 0) (new : p ∉ before ++ a :: after) (live : p ∈ s.live)
    {mem : Nat → Node} (next : (fun b => (mem b).next) = update
      (update (fun b => (s.mem b).next) p (s.mem a).next) a p) :
    { s with mem := mem, count := s.count + 1 }.Linked (before ++ a :: p :: after) q := by
  have nodup := linked.nodup
  rw [nodup_middle, nodup_cons, mem_append, not_or] at nodup
  have perm : (before ++ a :: p :: after).Perm (p :: (before ++ a :: after)) := by
    rw [append_cons before a (p :: after), append_cons before a after]
    exact perm_middle
  refine ⟨?_, ?_, ?_, ?_, ?_, ?_⟩
  · change Path (fun b => (mem b).next) _ _ _
    rw [next]
    exact linked.path.insert nodup.1.1 nodup.1.2 new
  · exact perm.nodup_iff.mpr (nodup_cons.mpr ⟨new, linked.nodup⟩)
  · rw [perm.mem_iff, mem_cons, not_or]
    exact ⟨null.symm, linked.null⟩
  · intro b member
    rcases mem_cons.mp (perm.mem_iff.mp member) with rfl | old
    · exact live
    · exact linked.live b old
  · change s.count + 1 = _
    rw [linked.count, perm.length_eq, length_cons]
    rfl
  · have last := linked.last
    grind [append_cons, getLast?_append_of_ne_nil]

/-- The loop of `add`, at the node behind those of `before`: if it puts the new node in, then not
behind the last one. -/
theorem Linked.addLoop (linked : s.Linked (before ++ rest) 0) (inside : num ≠ s.count + 1)
    (null : p ≠ 0) (new : p ∉ before ++ rest) (live : p ∈ s.live)
    (path : Path (fun b => (s.mem b).next) ln rest 0) (index : i = before.length + 1)
    (moves : addLoop num p fuel s ln i = some t) : ∃ nodes, t.Linked nodes 0 := by
  induction fuel generalizing before rest ln i with
  | zero => contradiction
  | succ fuel ih =>
    rw [Contents.addLoop] at moves
    split at moves
    · cases moves
      exact ⟨_, linked⟩
    · rename_i inner
      cases rest with
      | nil => exact absurd path inner
      | cons a rest =>
        obtain ⟨rfl, path⟩ := path
        split at moves
        · rename_i here
          obtain ⟨u, first, moves⟩ := bind_eq_some_iff.mp moves
          obtain ⟨v, second, moves⟩ := bind_eq_some_iff.mp moves
          obtain ⟨-, rfl⟩ := setNext_cases first
          obtain ⟨-, rfl⟩ := setNext_cases second
          cases moves
          have more : rest ≠ [] := by
            rintro rfl
            have count := linked.count
            rw [length_append, length_singleton] at count
            omega
          refine ⟨_, linked.insert more null new live ?_⟩
          rw [next_update]
          exact congrArg (update · ln p) (next_update ..)
        · rw [append_cons] at linked new
          exact ih linked new path (by rw [length_append, length_singleton, index]) moves

/-- The loop of `edit`: at most the line of one node changes. -/
theorem editLoop_cases (moves : editLoop num text fuel s ln i = some t) :
    t = { s with changes := incr s.changes } ∨
      ∃ p, t = { s with mem := update s.mem p { s.mem p with line := text } } := by
  induction fuel generalizing ln i with
  | zero => contradiction
  | succ fuel ih =>
    grind [editLoop]

/-- A new line of a node. -/
theorem Linked.setLine (linked : s.Linked nodes q) (p : Nat) :
    { s with mem := update s.mem p { s.mem p with line := text } }.Linked nodes q := by
  refine linked.congr rfl rfl rfl (fun _ => id) ?_
  intro a _
  by_cases same : a = p
  · simp [same]
  · simp [same]

/-- `drop` does nothing from index `i` on if none of its branches deletes. -/
theorem dropLoop_idle {start : Int}
    (open_ : stop = 0 → start ≠ 0 → start - 2 < i ∨ s.count ≤ start - 2)
    (front : stop ≠ 0 → start = 0 → stop ≤ i)
    (both : stop ≠ 0 → start ≠ 0 → stop < i ∨ stop < start - 2 ∨ s.count ≤ start - 2)
    (moves : dropLoop start stop fuel s ln i = some t) : t = s := by
  induction fuel generalizing ln i with
  | zero => contradiction
  | succ fuel ih =>
    grind [dropLoop, bind_eq_some_iff]

/-- The first node is freed, and there is another. -/
theorem Linked.dropFront {b : Nat} (linked : s.Linked (a :: b :: rest) q) :
    { s with
      head := (s.mem a).next
      count := s.count - 1
      live := s.live.erase a }.Linked (b :: rest) q where
  path := linked.path.2
  nodup := (nodup_cons.mp linked.nodup).2
  null member := linked.null (mem_cons_of_mem _ member)
  live p member := by
    grind [cases Linked]
  count := by
    change s.count - 1 = _
    rw [linked.count, length_cons]
    omega
  last := by
    have last := linked.last
    rwa [getLast?_cons_cons] at last

/-- `drop` from the first line on stops before the last one: what it has freed is no longer
counted, so that it sees at most half of the lines. -/
theorem Linked.dropLoop (linked : s.Linked nodes 0) (more : 1 ≤ i ∨ 2 ≤ nodes.length)
    (positive : 0 < stop) (moves : dropLoop 0 stop fuel s s.head i = some t) :
    ∃ nodes, t.Linked nodes 0 := by
  induction fuel generalizing s nodes i with
  | zero => contradiction
  | succ fuel ih =>
    by_cases deletes : i ≤ stop - 1 ∧ (i : Int) < s.count
    · have count := linked.count
      rw [Contents.dropLoop, if_pos deletes.2] at moves
      obtain ⟨after, next, moves⟩ := bind_eq_some_iff.mp moves
      rw [if_neg (by omega), if_pos (by omega)] at moves
      obtain ⟨u, freed, moves⟩ := bind_eq_some_iff.mp moves
      obtain ⟨-, rfl⟩ := free_cases freed
      cases nodes with
      | nil => exact absurd rfl linked.ne_nil
      | cons a rest =>
        cases rest with
        | nil =>
          rw [length_singleton] at count more
          omega
        | cons b rest =>
          obtain rfl : after = (s.mem a).next := by
            rw [Contents.next, linked.path.1] at next
            split at next
            · exact (Option.some.inj next).symm
            · contradiction
          rw [linked.path.1] at moves
          exact ih linked.dropFront (.inl (by omega)) moves
    · by_cases counted : (i : Int) < s.count
      · obtain rfl := dropLoop_idle (fun h => by omega) (fun _ _ => by omega)
          (fun _ h => absurd rfl h) moves
        exact ⟨nodes, linked⟩
      · rw [Contents.dropLoop, if_neg counted] at moves
        cases moves
        exact ⟨nodes, linked⟩

end Contents

/-! ## Runs -/

/-- The command keeps the list together: it does not put a line in behind the last one with `add`,
and `drop` either deletes nothing or deletes from the first line on, with two lines or more. -/
def Safe (s : Contents) : Command → Prop
  | .append _ _ | .edit _ _ _ _ => True
  | .add _ num _ _ => num ≠ s.count + 1
  | .drop start stop _ =>
    if stop = 0 then start ≤ 1 ∨ s.count + 2 ≤ start
    else if start = 0 then stop < 0 ∨ 2 ≤ s.count
    else stop < 0 ∨ stop + 2 < start ∨ s.count + 2 ≤ start

instance (s : Contents) : (command : Command) → Decidable (Safe s command)
  | .append _ _ | .edit _ _ _ _ => inferInstanceAs (Decidable True)
  | .add _ num _ _ => inferInstanceAs (Decidable (num ≠ s.count + 1))
  | .drop _ _ _ => inferInstanceAs (Decidable (ite _ _ _))

namespace Contents

variable {s t : Contents} {nodes : List Nat} {text : List UInt8} (linked : s.Linked nodes 0)
  {cell : Cell}

include linked

omit linked in
/-- `changes` does not matter. -/
theorem Linked.counted {q : Nat} (linked : s.Linked nodes q) (changes : Int) :
    { s with changes := changes }.Linked nodes q :=
  linked.congr rfl rfl rfl (fun _ => id) fun _ _ => rfl

theorem Linked.appendLine (moves : s.appendLine text cell = some t) :
    t.Linked (nodes ++ [cell.addr]) 0 := by
  obtain ⟨u, allocated, moves⟩ := bind_eq_some_iff.mp moves
  obtain ⟨v, appended, moves⟩ := bind_eq_some_iff.mp moves
  cases moves
  obtain ⟨linked, null, new, live⟩ := linked.malloc allocated
  exact (linked.append null new live appended).counted _

theorem Linked.drop {start stop : Int} {fuel : Nat} (safe : Safe s (.drop start stop fuel))
    (moves : s.drop start stop fuel = some t) : ∃ nodes, t.Linked nodes 0 := by
  have linked : { s with changes := incr s.changes }.Linked nodes 0 := linked.counted _
  by_cases front : start = 0 ∧ 0 < stop
  · obtain ⟨rfl, positive⟩ := front
    have two : 2 ≤ s.count := by
      rw [Safe, if_neg (by omega), if_pos rfl] at safe
      omega
    rw [linked.count] at two
    exact linked.dropLoop (.inr (by omega)) positive moves
  · obtain rfl : t = { s with changes := incr s.changes } := by
      rw [Safe] at safe
      refine dropLoop_idle (fun ends begins => ?_) (fun ends begins => ?_)
        (fun ends begins => ?_) moves
      all_goals grind
    exact ⟨nodes, linked⟩

/-- A command that is safe keeps the list. -/
theorem Linked.step {command : Command} (safe : Safe s command)
    (moves : commandStep s command = some t) : ∃ nodes, t.Linked nodes 0 := by
  cases command with
  | append text cell => exact ⟨_, linked.appendLine moves⟩
  | add text num cell fuel =>
    obtain ⟨u, allocated, moves⟩ := bind_eq_some_iff.mp moves
    obtain ⟨linked, null, new, live⟩ := linked.malloc allocated
    have inside : num ≠ u.count + 1 := by
      obtain ⟨-, -, rfl⟩ := malloc_cases allocated
      exact safe
    have start : { u with changes := incr u.changes }.Linked ([] ++ nodes) 0 := linked.counted _
    exact start.addLoop inside null new live linked.path rfl moves
  | edit text num cell fuel =>
    obtain ⟨u, allocated, moves⟩ := bind_eq_some_iff.mp moves
    have linked := (linked.malloc allocated).1
    rcases editLoop_cases moves with rfl | ⟨p, rfl⟩
    · exact ⟨nodes, linked.counted _⟩
    · exact ⟨nodes, linked.setLine p⟩
  | drop start stop fuel => exact linked.drop safe moves

/-- The lines stay, and the new one follows them. -/
theorem appendLine_shows {lines : List (List UInt8)} (moves : s.appendLine text cell = some t)
    (shows_ : s.Shows lines) : t.Shows (lines ++ [text]) := by
  obtain ⟨others, reached, rfl⟩ := shows_
  obtain rfl := reached.unique ⟨linked.path, linked.null⟩
  have linked' := linked.appendLine moves
  refine ⟨_, ⟨linked'.path, linked'.null⟩, ?_⟩
  obtain ⟨u, allocated, moves⟩ := bind_eq_some_iff.mp moves
  obtain ⟨v, appended, moves⟩ := bind_eq_some_iff.mp moves
  cases moves
  have line (p : Nat) : (v.mem p).line = (u.mem p).line := by
    obtain ⟨w, turned, appended⟩ := bind_eq_some_iff.mp appended
    obtain ⟨x, ended, appended⟩ := bind_eq_some_iff.mp appended
    cases appended
    exact (setNext_line ended p).trans (setNext_line turned p)
  have new := (linked.malloc allocated).2.2.1
  obtain ⟨-, -, rfl⟩ := malloc_cases allocated
  grind [map_congr_left]

end Contents

/-- After a file whose last node `malloc` returned with a null `next`, and commands that are all
safe, `count` is the number of nodes reached from `head` by `next` and `end` is the last of them.
A line that `@END` adds then follows the lines that are there. -/
theorem list_invariant (start loaded s : Contents) (memory : Memory) (file : List UInt8)
    (cells : List Cell) (loads : start.readFile memory file cells = some loaded)
    (ends : cells.getLast?.map Cell.next = some 0) (reach : Reach commandStep Safe loaded s) :
    s.Consistent ∧ ∀ text cell t, s.appendLine text cell = some t →
      ∀ lines, s.Shows lines → t.Shows (lines ++ [text]) := by
  have kept : ∃ nodes, s.Linked nodes 0 := by
    refine reach.invariant (fun s => ∃ nodes, s.Linked nodes 0)
      (Contents.readFile_linked loads ends) ?_
    rintro s command t ⟨nodes, linked⟩ safe moves
    exact linked.step safe moves
  obtain ⟨nodes, linked⟩ := kept
  exact ⟨linked.consistent, fun _ _ _ moves _ => Contents.appendLine_shows linked moves⟩

/-- Memory that holds zeros, with nothing allocated. -/
def blank : Contents := ⟨fun _ => ⟨[], 0⟩, [], 0, 0, 0, 0⟩

/-- Two lines are loaded, one is put between them, one is appended, the second is replaced, and
the first is deleted. -/
theorem list_invariant_edited : ∃ loaded s, Reach commandStep Safe loaded s ∧ s.count = 3 ∧
    s.Consistent := by
  let events : List Command := [.add [99] 2 ⟨24, 7⟩ 5, .append [100] ⟨32, 7⟩,
    .edit [101] 2 ⟨40, 7⟩ 5, .drop 0 1 5]
  have executed : ((blank.readFile zeroMemory [97, 10, 98] [⟨8, 5⟩, ⟨16, 0⟩]).bind fun loaded =>
      (runChecked commandStep Safe events loaded).map fun s => s.count) = some 3 := by
    decide +kernel
  obtain ⟨loaded, loads, run⟩ := bind_eq_some_iff.mp executed
  obtain ⟨s, run, count⟩ := map_eq_some_iff.mp run
  have reach := reach_of_runChecked events .start run
  exact ⟨loaded, s, reach, count, (list_invariant _ _ _ _ _ _ loads rfl reach).1⟩

/-- A line that `add` puts behind the only one is not the `end`, and the next `@END` discards
it. -/
theorem list_end_stale : ∃ loaded s t,
    blank.readFile zeroMemory [97] [⟨8, 0⟩] = some loaded ∧
    commandStep loaded (.add [98] 2 ⟨16, 0⟩ 2) = some s ∧ ¬s.Consistent ∧
    commandStep s (.append [99] ⟨24, 0⟩) = some t ∧ t.Shows [[97], [99]] := by
  refine ⟨_, _, _, rfl, rfl, ?_, rfl, ?_⟩
  · rintro ⟨nodes, reached, -, last⟩
    obtain rfl := reached.unique (show Contents.Reached _ [8, 16] by decide)
    contradiction
  · exact ⟨[8, 24], by decide, by decide⟩

end Xv6.Xvedit
