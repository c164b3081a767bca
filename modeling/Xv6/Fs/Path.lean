import Xv6.Fs.Fsck

/-!
# Path names

`skipelem` takes the components of a path off one by one, and `namex` descends by one of them at a
time. Both are compared with the path cut at its slashes: `namei` is the left fold of `dirlookup`
over the components, `nameiparent` the fold over all but the last. Slashes that are repeated, or
that follow a path, are not seen. A lookup needs two entries of the inode cache, and panics when
there are none.
-/

namespace Xv6.Fs

open Function Lib Multiset Option List

/-! ## The components of a path -/

/-- The maximal runs of bytes other than `'/'`. -/
def runs (path : List UInt8) : List (List UInt8) := (path.splitOnP (· = slash)).filter (· ≠ [])

/-- The runs, each cut to the size of a name. -/
def components (path : List UInt8) : List (List UInt8) := (runs path).map (List.take dirSiz)

/-- What `skipelem` yields when it is applied to the rest again and again. -/
def elements : Nat → List UInt8 → List (List UInt8)
  | 0, _ => []
  | fuel + 1, path =>
    match skipelem path with
    | none => []
    | some (name, rest) => name :: elements fuel rest

theorem runs_nil : runs [] = [] := by
  rw [runs, splitOnP_nil]
  rfl

theorem runs_append_slash (before after : List UInt8) :
    runs (before ++ slash :: after) = runs before ++ runs after := by
  grind [runs, splitOnP_append_cons]

theorem runs_slash (path : List UInt8) : runs (slash :: path) = runs path := by
  have cut := runs_append_slash [] path
  rw [runs_nil, nil_append] at cut
  exact cut

variable {first : UInt8}

/-- A path without slashes is one component. -/
theorem runs_plain {path : List UInt8} (plain : ∀ c ∈ path, c ≠ slash) (nonempty : path ≠ []) :
    runs path = [path] := by
  grind [runs, splitOnP_eq_singleton]

theorem runs_dropWhile (path : List UInt8) : runs (path.dropWhile (· = slash)) = runs path := by
  induction path with
  | nil => rfl
  | cons c path ih =>
    by_cases same : c = slash
    · rw [dropWhile_cons_of_pos (by simpa using same), ih, same, runs_slash]
    · rw [dropWhile_cons_of_neg (by simpa using same)]

theorem head_of_dropWhile {test : UInt8 → Bool} {path others : List UInt8}
    (dropped : path.dropWhile test = first :: others) : test first = false := by
  have head := head_dropWhile_not test (l := path)
    (by rw [dropped]; exact cons_ne_nil _ _)
  simp only [dropped, head_cons] at head
  exact head

/-- The first byte after the slashes is none. -/
theorem head_ne_slash {path others : List UInt8}
    (dropped : path.dropWhile (· = slash) = first :: others) : first ≠ slash :=
  of_decide_eq_false (head_of_dropWhile dropped)

/-- A path that does not start with a slash starts with a run. -/
theorem runs_cons {path : List UInt8} (differs : first ≠ slash) :
    runs (first :: path) = (first :: path).takeWhile (· ≠ slash) ::
      runs ((first :: path).dropWhile (· ≠ slash)) := by
  have split := takeWhile_append_dropWhile (p := fun c : UInt8 => decide (c ≠ slash))
    (l := first :: path)
  have plain : ∀ c ∈ (first :: path).takeWhile (· ≠ slash), c ≠ slash := by
    intro c member
    simpa using List.all_eq_true.mp all_takeWhile c member
  have nonempty : (first :: path).takeWhile (· ≠ slash) ≠ [] := by
    rw [takeWhile_cons_of_pos (by simpa using differs)]
    exact cons_ne_nil _ _
  cases tail : (first :: path).dropWhile (· ≠ slash) with
  | nil =>
    rw [tail, append_nil] at split
    rw [runs_nil, ← runs_plain plain nonempty, split]
  | cons c others =>
    grind [head_of_dropWhile, runs_append_slash, runs_plain, runs_slash]

theorem skipelem_none {path : List UInt8} (none : skipelem path = none) : runs path = [] := by
  unfold skipelem at none
  split at none
  · rename_i dropped
    rw [← runs_dropWhile, dropped, runs_nil]
  · exact absurd none (some_ne_none _)

/-- `skipelem` takes the first run off. Since it also takes the slashes after it, nothing is left
just when the run was the last. -/
theorem skipelem_some {path name rest : List UInt8} (found : skipelem path = some (name, rest)) :
    ∃ run, runs path = run :: runs rest ∧ name = run.take dirSiz ∧ rest.length < path.length ∧
      (rest = [] ↔ runs rest = []) := by
  unfold skipelem at found
  split at found
  · exact absurd found (some_ne_none _).symm
  · rename_i first others dropped
    cases found
    have differs := head_ne_slash dropped
    refine ⟨(first :: others).takeWhile (· ≠ slash), ?_, rfl, ?_, ?_⟩
    · rw [runs_dropWhile, ← runs_cons differs, ← dropped, runs_dropWhile]
    · rw [dropWhile_cons_of_pos (by simpa using differs)]
      calc ((others.dropWhile (· ≠ slash)).dropWhile (· = slash)).length
        _ ≤ (others.dropWhile (· ≠ slash)).length := (dropWhile_sublist _).length_le
        _ ≤ others.length := (dropWhile_sublist _).length_le
        _ < (first :: others).length := Nat.lt_succ_self _
        _ = (path.dropWhile (· = slash)).length := by rw [dropped]
        _ ≤ path.length := (dropWhile_sublist _).length_le
    · constructor
      · intro empty
        rw [empty, runs_nil]
      · intro empty
        cases after : ((first :: others).dropWhile (· ≠ slash)).dropWhile (· = slash) with
        | nil => rfl
        | cons c rest =>
          rw [after, runs_cons (head_ne_slash after)] at empty
          exact absurd empty (cons_ne_nil _ _)

/-- The elements of a path are its components. -/
theorem elements_eq {fuel : Nat} {path : List UInt8} (enough : path.length ≤ fuel) :
    elements fuel path = components path := by
  induction fuel generalizing path with
  | zero =>
    rw [length_eq_zero_iff.mp (Nat.le_zero.mp enough), components, runs_nil]
    rfl
  | succ fuel ih =>
    rw [elements, components]
    split
    · rename_i ended
      rw [skipelem_none ended]
      rfl
    · rename_i name rest found
      obtain ⟨run, first, cut, shorter, -⟩ := skipelem_some found
      rw [first, List.map_cons, cut, ih (by omega)]
      rfl

/-! ## Walks as folds -/

/-- A component is looked up in a directory. -/
def descend (tree : Nat → Node) (i : Nat) (name : List UInt8) : Option Nat :=
  if (tree i).kind = .dir then
    (lookup (tree i).ents name).map fun k => (entAt (tree i).ents k).inum
  else none

variable {tree : Nat → Node} {fuel i n : Nat} {path name other : List UInt8}

/-- The walk to the inode of a path. -/
theorem walk_false_eq (enough : path.length ≤ fuel) :
    (walk tree false fuel i path name).map Prod.fst =
      (components path).foldlM (descend tree) i := by
  induction fuel generalizing i path name with
  | zero =>
    rw [length_eq_zero_iff.mp (Nat.le_zero.mp enough), components, runs_nil]
    rfl
  | succ fuel ih =>
    rw [walk, components]
    split
    · rename_i ended
      rw [skipelem_none ended]
      rfl
    · rename_i name rest found
      obtain ⟨run, first, cut, shorter, -⟩ := skipelem_some found
      rw [first, List.map_cons, foldlM_cons, ← cut, descend]
      by_cases isDir : (tree i).kind = .dir
      · rw [if_pos isDir, if_neg (not_not.mpr isDir), if_neg (by simp)]
        cases lookup (tree i).ents name with
        | none => rfl
        | some k => exact ih (by omega)
      · rw [if_neg isDir, if_pos isDir]
        rfl

/-- The walk to the directory of a path. -/
theorem walk_true_iff {d : Nat} {last : List UInt8} (enough : path.length ≤ fuel) :
    walk tree true fuel i path name = some (d, last) ↔
      ∃ before, components path = before ++ [last] ∧
        before.foldlM (descend tree) i = some d ∧ (tree d).kind = .dir := by
  induction fuel generalizing i path name with
  | zero =>
    rw [length_eq_zero_iff.mp (Nat.le_zero.mp enough), components, runs_nil]
    simp [walk]
  | succ fuel ih =>
    rw [walk]
    split
    · rename_i ended
      rw [components, skipelem_none ended]
      simp
    · rename_i name rest found
      obtain ⟨run, first, cut, shorter, lastIff⟩ := skipelem_some found
      have split : components path = name :: components rest := by
        rw [components, first, List.map_cons, cut]
        rfl
      -- the component is the last one, or it is looked up in the directory
      have step : (∃ before, name :: components rest = before ++ [last] ∧
          before.foldlM (descend tree) i = some d ∧ (tree d).kind = .dir) ↔
          components rest = [] ∧ (i, name) = (d, last) ∧ (tree d).kind = .dir ∨
          ∃ j, descend tree i name = some j ∧ ∃ before, components rest = before ++ [last] ∧
            before.foldlM (descend tree) j = some d ∧ (tree d).kind = .dir := by
        constructor
        · rintro ⟨before, whole, folded, kind⟩
          rcases cons_eq_append_iff.mp whole with ⟨rfl, one⟩ | ⟨before, rfl, others⟩
          · obtain ⟨rfl, none⟩ := List.cons.inj one
            cases folded
            exact .inl ⟨none.symm, rfl, kind⟩
          · rw [foldlM_cons] at folded
            obtain ⟨j, found, folded⟩ := bind_eq_some_iff.mp folded
            exact .inr ⟨j, found, before, others, folded, kind⟩
        · rintro (⟨none, same, kind⟩ | ⟨j, found, before, others, folded, kind⟩)
          · cases same
            exact ⟨[], by rw [none]; rfl, rfl, kind⟩
          · refine ⟨name :: before, by rw [others]; rfl, ?_, kind⟩
            rw [foldlM_cons, found]
            exact folded
      have ends : components rest = [] ↔ rest = [] := by
        rw [lastIff, components, map_eq_nil_iff]
      rw [split, step, ends, descend]
      by_cases isDir : (tree i).kind = .dir
      · rw [if_pos isDir, if_neg (not_not.mpr isDir)]
        by_cases atEnd : rest = []
        · rw [if_pos ⟨rfl, atEnd⟩, Option.some.injEq]
          constructor
          · intro same
            refine .inl ⟨atEnd, same, ?_⟩
            rw [← (Prod.mk.inj same).1]
            exact isDir
          · rintro (⟨-, same, -⟩ | ⟨j, -, before, others, -⟩)
            · exact same
            · rw [ends.mpr atEnd] at others
              exact absurd others.symm (by simp)
        · rw [if_neg fun both => atEnd both.2]
          cases lookup (tree i).ents name with
          | none => simp [atEnd]
          | some k =>
            simp only [atEnd, false_and, false_or, map_some, Option.some.injEq,
              exists_eq_left']
            exact ih (by omega)
      · rw [if_neg isDir, if_pos isDir]
        constructor
        · exact fun found => absurd found (by simp)
        · rintro (⟨-, same, kind⟩ | ⟨j, found, -⟩)
          · rw [← (Prod.mk.inj same).1] at kind
            exact absurd kind isDir
          · exact absurd found (by simp)

/-- Slashes are added next to a slash or after a path. -/
inductive Respaced : List UInt8 → List UInt8 → Prop where
  | double (before after : List UInt8) :
      Respaced (before ++ slash :: after) (before ++ slash :: slash :: after)
  | trailing {path : List UInt8} (nonempty : path ≠ []) : Respaced path (path ++ [slash])

theorem Respaced.components_eq (respaced : Respaced path other) :
    components other = components path := by
  unfold components
  cases respaced with
  | double before after => rw [runs_append_slash, runs_append_slash, runs_slash]
  | trailing nonempty => rw [runs_append_slash, runs_nil, append_nil]

theorem Respaced.startOf_eq (respaced : Respaced path other) (cwd : Nat) :
    startOf cwd other = startOf cwd path := by
  unfold startOf
  cases respaced with
  | double before after =>
    cases before with
    | nil => rfl
    | cons c before => rfl
  | trailing nonempty =>
    cases path with
    | nil => exact absurd rfl nonempty
    | cons c path => rfl

/-- A fold fails where one of its steps does. -/
theorem foldlM_eq_none_iff {α β : Type} {step : α → β → Option α} {items : List β} {start : α} :
    items.foldlM step start = none ↔ ∃ before item after state,
      items = before ++ item :: after ∧ before.foldlM step start = some state ∧
        step state item = none := by
  induction items generalizing start with
  | nil => simp
  | cons first items ih =>
    rw [foldlM_cons]
    cases moved : step start first with
    | none => exact ⟨fun _ => ⟨[], first, items, start, rfl, rfl, moved⟩, fun _ => rfl⟩
    | some middle =>
      refine ih.trans ⟨?_, ?_⟩
      · rintro ⟨before, item, after, state, rfl, reached, fails⟩
        refine ⟨first :: before, item, after, state, rfl, ?_, fails⟩
        rw [foldlM_cons, moved]
        exact reached
      · rintro ⟨before, item, after, state, whole, reached, fails⟩
        cases before with
        | nil =>
          cases whole
          cases reached
          exact absurd (moved.symm.trans fails) (some_ne_none _)
        | cons other before =>
          cases whole
          rw [foldlM_cons, moved] at reached
          exact ⟨before, item, after, state, rfl, reached, fails⟩

theorem descend_eq_none_iff :
    descend tree i name = none ↔ (tree i).kind ≠ .dir ∨ lookup (tree i).ents name = none := by
  unfold descend
  by_cases isDir : (tree i).kind = .dir
  · simp [isDir]
  · simp [isDir]

/-! ## Lookups -/

/-- The inode number that `namei` comes to, if it returns. -/
def nameiInum (sb : Superblock) (p : Nat) (path : List UInt8) (s : State) : Option (Option Nat) :=
  ((namei sb p path).run s []).result?.map fun result =>
    result.1.map fun ip => (result.2.inode ip).inum

/-- The inode number and the name that `nameiparent` comes to, if it returns. -/
def nameiparentInum (sb : Superblock) (p : Nat) (path : List UInt8) (s : State) :
    Option (Option (Nat × List UInt8)) :=
  ((nameiparent sb p path).run s []).result?.map fun result =>
    result.1.map fun found => ((result.2.inode found.1).inum, found.2)

section Lookup

variable {sb : Superblock} {refs : Multiset Nat} {s : State} {p : Nat}

/-- A consistent file system: the inode cache is that of the listed references, and there is an
allocated inode behind each name, at "/" and at the current directory of the process. -/
structure Navigable (sb : Superblock) (refs : Multiset Nat) (p : Nat) (s : State) : Prop where
  cached : Cached sb refs s
  kept : Kept sb refs s
  cwd : (s.proc p).cwd ∈ refs
  whole : NoDangling (s.disk.node sb)
  used : ∀ i, i = rootIno ∨ i = s.cwdOf p → (s.disk.node sb i).kind ≠ .free

/-- `namei` returns what the walk over the nodes comes to. -/
theorem nameiInum_eq (valid : sb.Valid) (ready : Navigable sb refs p s)
    (slots : refs.toFinset.card + 2 ≤ nInode) (path : List UInt8) :
    nameiInum sb p path s =
      some ((resolve (s.disk.node sb) false (s.cwdOf p) path).map Prod.fst) := by
  have wp : Prog.Wp (fun _ => False) (fun _ => False) (namei sb p path) (fun r t _ =>
      r.map (fun ip => (t.inode ip).inum) =
        (resolve (s.disk.node sb) false (s.cwdOf p) path).map Prod.fst) s [] := by
    apply namei_wp valid (.inr slots) ready.cached ready.kept ready.cwd
      (.inr ⟨ready.whole, ready.used⟩)
    · intro t missing _
      rw [missing]
      rfl
    · intro ip last t found _ _
      rw [found]
      rfl
  obtain ⟨r, t, held, done, same⟩ := wp.total
  rw [nameiInum, done]
  exact congrArg some same

/-- `nameiparent` returns what the walk over the nodes comes to. -/
theorem nameiparentInum_eq (valid : sb.Valid) (ready : Navigable sb refs p s)
    (slots : refs.toFinset.card + 2 ≤ nInode) (path : List UInt8) :
    nameiparentInum sb p path s = some (resolve (s.disk.node sb) true (s.cwdOf p) path) := by
  have wp : Prog.Wp (fun _ => False) (fun _ => False) (nameiparent sb p path) (fun r t _ =>
      r.map (fun found => ((t.inode found.1).inum, found.2)) =
        resolve (s.disk.node sb) true (s.cwdOf p) path) s [] := by
    apply namex_wp valid (.inr slots) ready.cached ready.kept ready.cwd
      (.inr ⟨ready.whole, ready.used⟩)
    · intro t missing _
      rw [missing]
      rfl
    · intro ip last t found _ _
      rw [found]
      rfl
  obtain ⟨r, t, held, done, same⟩ := wp.total
  rw [nameiparentInum, done]
  exact congrArg some same

/-- Iterating `skipelem` yields the runs between slashes, cut to the size of a name. With two free
entries in the inode cache `namei` returns the left fold of `dirlookup` over them, and `nameiparent`
the directory in which the fold over all but the last ends, with the last. Neither sees slashes that
are repeated or that follow a path. -/
theorem path_resolution (valid : sb.Valid) (ready : Navigable sb refs p s)
    (slots : refs.toFinset.card + 2 ≤ nInode) (path : List UInt8) :
    (∀ fuel, path.length ≤ fuel → elements fuel path = components path) ∧
    (∃ found, nameiInum sb p path s = some found ∧
      found = (components path).foldlM (descend (s.disk.node sb)) (startOf (s.cwdOf p) path) ∧
      (found = none ↔ ∃ before name after i, components path = before ++ name :: after ∧
        before.foldlM (descend (s.disk.node sb)) (startOf (s.cwdOf p) path) = some i ∧
        ((s.disk.node sb i).kind ≠ .dir ∨ lookup (s.disk.node sb i).ents name = none))) ∧
    (∃ found, nameiparentInum sb p path s = some found ∧
      ∀ d name, found = some (d, name) ↔ ∃ before, components path = before ++ [name] ∧
        before.foldlM (descend (s.disk.node sb)) (startOf (s.cwdOf p) path) = some d ∧
        (s.disk.node sb d).kind = .dir) ∧
    ∀ other, Respaced path other → nameiInum sb p other s = nameiInum sb p path s ∧
      nameiparentInum sb p other s = nameiparentInum sb p path s := by
  have whole : ∀ path, nameiInum sb p path s = some ((components path).foldlM
      (descend (s.disk.node sb)) (startOf (s.cwdOf p) path)) := fun path =>
    (nameiInum_eq valid ready slots path).trans (congrArg some (walk_false_eq le_rfl))
  refine ⟨fun fuel => elements_eq, ⟨_, whole path, rfl, ?_⟩,
    ⟨_, nameiparentInum_eq valid ready slots path, fun d name => walk_true_iff le_rfl⟩, ?_⟩
  · simp only [foldlM_eq_none_iff, descend_eq_none_iff]
  · intro other respaced
    refine ⟨?_, ?_⟩
    · rw [whole, whole, respaced.components_eq, respaced.startOf_eq]
    · rw [nameiparentInum_eq valid ready slots, nameiparentInum_eq valid ready slots]
      refine congrArg some (Option.ext fun found => ?_)
      obtain ⟨d, name⟩ := found
      unfold resolve
      rw [walk_true_iff le_rfl, walk_true_iff le_rfl, respaced.components_eq,
        respaced.startOf_eq]

end Lookup

/-- The image that `mkfs` makes, with the processes in its root. -/
theorem mkfs_navigable (p : Nat) : Navigable mkfsSuper {0} p (boot mkfsDisk) := by
  have rest := boot_rest mkfsSuper_valid mkfs_image
  have users : (boot mkfsDisk).users = {0} := by
    rw [State.users, boot_cwds, boot_opens, Multiset.add_zero]
  have cached := rest.cached
  have kept := rest.kept
  rw [users] at cached kept
  have root : (mkfsDisk.node mkfsSuper rootIno).kind ≠ .free := by decide
  have used : ∀ i, i = rootIno ∨ i = (boot mkfsDisk).cwdOf p →
      (mkfsDisk.node mkfsSuper i).kind ≠ .free := by
    rintro i (rfl | rfl)
    · exact root
    · exact root
  exact ⟨cached, kept, Multiset.mem_singleton_self 0,
    mkfs_consistent.parented.noDangling mkfs_consistent.linked, used⟩

/-- The path "//./" leads from the root of the image that `mkfs` makes to the root. -/
theorem path_resolution_mkfs :
    components [slash, slash, 46, slash] = [[46]] ∧
    ∃ found, nameiInum mkfsSuper initproc [slash, slash, 46, slash] (boot mkfsDisk) = some found ∧
      found = some rootIno := by
  obtain ⟨found, returned, fold, -⟩ := (path_resolution mkfsSuper_valid (mkfs_navigable _)
    (by decide) [slash, slash, 46, slash]).2.1
  refine ⟨by decide, found, returned, ?_⟩
  rw [fold]
  decide +kernel

/-! ## Directories that are gone -/

/-- The image that `mkfs` makes, while processes are still in `n` directories that are removed. -/
def crowded (n : Nat) : State :=
  { boot mkfsDisk with
    disk := { mkfsDisk with
      dinode := fun i => if 2 ≤ i ∧ i < n + 2 then .fresh .dir else mkfsDisk.dinode i }
    inode := fun ip => if ip < n then ⟨rootDev, ip + 2, 1, true, .fresh .dir⟩
      else ⟨0, 0, 0, false, .fresh .free⟩ }

theorem crowded_zero : (crowded 0).disk = mkfsDisk := by
  have dinode : (crowded 0).disk.dinode = mkfsDisk.dinode := funext fun i => if_neg (by omega)
  show Disk.mk (crowded 0).disk.dinode _ _ = _
  rw [dinode]

theorem crowded_succ (n : Nat) :
    (crowded (n + 1)).disk = (crowded n).disk.setDinode (n + 2) (.fresh .dir) := by
  have dinode : (crowded (n + 1)).disk.dinode =
      update (crowded n).disk.dinode (n + 2) (.fresh .dir) := by
    funext i
    simp only [crowded, update_apply]
    grind
  show Disk.mk (crowded (n + 1)).disk.dinode _ _ = _
  rw [dinode]
  rfl

theorem crowded_unused (n : Nat) : ((crowded n).disk.dinode (n + 2)).type = .free := by
  have other : n + 2 ≠ rootIno := by
    rw [show rootIno = 1 from rfl]
    omega
  simp [crowded, mkfsDisk, other, Dinode.fresh]

theorem crowded_sound (n : Nat) : (crowded n).disk.Sound mkfsSuper := by
  induction n with
  | zero =>
    rw [crowded_zero]
    exact mkfs_image.sound
  | succ n ih =>
    rw [crowded_succ]
    exact ih.fresh mkfsSuper_valid (crowded_unused n)

theorem crowded_node (few : n + 2 ≤ mkfsSuper.ninodes) (i : Nat) :
    (crowded n).disk.node mkfsSuper i =
      if 2 ≤ i ∧ i < n + 2 then ⟨.dir, 0, []⟩ else mkfsDisk.node mkfsSuper i := by
  induction n with
  | zero => rw [crowded_zero, if_neg (by omega)]
  | succ n ih =>
    have inside : rootIno ≤ n + 2 ∧ n + 2 < mkfsSuper.ninodes := ⟨by simp [rootIno], by omega⟩
    rw [crowded_succ, Disk.node_fresh (crowded_sound n) inside (by decide), update_apply,
      ih (by omega)]
    grind

theorem crowded_navigable {p : Nat} (some : 0 < n) (few : n ≤ nInode) :
    Navigable mkfsSuper (Multiset.range n) p (crowded n) := by
  have most : n + 2 ≤ mkfsSuper.ninodes := le_trans (Nat.add_le_add_right few 2) (by decide)
  have entry : ∀ ip ∈ Multiset.range n,
      (crowded n).inode ip = ⟨rootDev, ip + 2, 1, true, .fresh .dir⟩ :=
    fun ip member => if_pos (Multiset.mem_range.mp member)
  have root : ((crowded n).disk.node mkfsSuper rootIno).kind = .dir := by
    rw [crowded_node most, if_neg fun inside => absurd inside.1 (by decide)]
    exact mkfs_image.root
  have gone : ∀ i, 2 ≤ i ∧ i < n + 2 → (crowded n).disk.node mkfsSuper i = ⟨.dir, 0, []⟩ :=
    fun i inside => by rw [crowded_node most, if_pos inside]
  refine ⟨⟨crowded_sound n, ?_, ?_, ?_, ?_, ?_⟩, ?_, Multiset.mem_range.mpr some, ?_, ?_⟩
  · intro ip
    by_cases below : ip < n
    · rw [entry ip (Multiset.mem_range.mpr below)]
      exact (Multiset.count_eq_one_of_mem (Multiset.nodup_range n)
        (Multiset.mem_range.mpr below)).symm
    · rw [count_eq_zero_of_notMem fun member => below (Multiset.mem_range.mp member)]
      exact congrArg Inode.ref (if_neg below)
  · exact fun ip member => lt_of_lt_of_le (Multiset.mem_range.mp member) few
  · intro ip member
    have below := Multiset.mem_range.mp member
    rw [entry ip member]
    exact ⟨rfl, by simp [rootIno], by show ip + 2 < _; omega⟩
  · intro ip member jp other same
    rw [entry ip member, entry jp other] at same
    exact Nat.add_right_cancel same
  · intro ip member _
    have below := Multiset.mem_range.mp member
    rw [State.Synced, entry ip member]
    exact ⟨if_pos (by show 2 ≤ ip + 2 ∧ ip + 2 < n + 2; omega), FileType.noConfusion⟩
  · intro i used unlinked
    rw [crowded_node most] at used unlinked
    split at used
    · rename_i inside
      refine ⟨i - 2, Multiset.mem_range.mpr (by omega), ?_⟩
      rw [entry _ (Multiset.mem_range.mpr (by omega))]
      exact ⟨by show i - 2 + 2 = i; omega, rfl⟩
    · rename_i outside
      rw [if_neg outside] at unlinked
      exact absurd unlinked (mkfs_image.linked i used)
  · intro d isDir e member named
    rw [crowded_node most] at isDir member
    split at member
    · exact absurd member not_mem_nil
    · rename_i outside
      rw [if_neg outside] at isDir
      have used := mkfs_consistent.parented.noDangling mkfs_consistent.linked d isDir e member named
      rw [mkfs_onlyRoot.only _ used, root]
      decide
  · rintro i (rfl | rfl)
    · rw [root]
      decide
    · have here : (crowded n).cwdOf p = 2 :=
        congrArg Inode.inum (entry 0 (Multiset.mem_range.mpr some))
      rw [here, gone 2 ⟨le_rfl, by omega⟩]
      decide

/-- A slash after the empty path leads from the current directory to the root, and with no free
entry in the inode cache even "/" does not resolve. -/
theorem path_resolution_limits :
    (∃ s refs, Navigable mkfsSuper refs initproc s ∧
      nameiInum mkfsSuper initproc [] s = some (some 2) ∧
      nameiInum mkfsSuper initproc [slash] s = some (some rootIno)) ∧
    ∃ s refs, Navigable mkfsSuper refs initproc s ∧
      (components [slash]).foldlM (descend (s.disk.node mkfsSuper))
        (startOf (s.cwdOf initproc) [slash]) = some rootIno ∧
      nameiInum mkfsSuper initproc [slash] s = none := by
  refine ⟨⟨crowded 1, _, crowded_navigable (by decide) (by decide), ?_, ?_⟩,
    crowded nInode, _, crowded_navigable (by decide) le_rfl, ?_, ?_⟩
  · decide +kernel
  · decide +kernel
  · decide +kernel
  · decide +kernel

end Xv6.Fs
