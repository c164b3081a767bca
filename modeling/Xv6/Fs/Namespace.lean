import Xv6.Fs.Runs
import Xv6.Lib.Graph

/-!
# The name space

The names in a directory are its entries but the first two, `.` and `..`. `Linked` is the law of
the name space: every link count is the number of names of the inode and of subdirectories, and
what has links can be reached from the root. Creating, linking, unlinking and freeing keep it
when no name is given in a directory without links and no link count overflows.
-/

namespace Xv6.Fs

open Function Lib Multiset List

/-! ## Names in a directory -/

/-- An inode number as a reference; zero refers to nothing. -/
def refer (i : Nat) : Multiset Nat := if i = 0 then 0 else {i}

/-- The inode numbers that the names in a directory stand for. -/
def entInums (ents : List Dirent) : Multiset Nat :=
  (((ents.drop 2).map fun e => refer e.inum).sum)

/-- The inode numbers that the names in a node stand for. -/
def Node.targets (node : Node) : Multiset Nat :=
  if node.kind = .dir then entInums node.ents else 0

/-- The entry `..` of a directory. -/
def Node.parent (node : Node) : Nat := (entAt node.ents 1).inum

/-- One entry and the references of the others. -/
theorem entInums_split {ents : List Dirent} {k : Nat} (two : 2 ≤ k) (inside : k ≤ ents.length) :
    ∃ rest, entInums ents = refer (entAt ents k).inum + rest ∧
      ∀ e, entInums (setEnt ents k e) = refer e.inum + rest := by
  obtain ⟨l, rfl⟩ := Nat.exists_eq_add_of_le two
  by_cases within : 2 + l < ents.length
  · have inner : l < (ents.drop 2).length := by
      rw [length_drop]
      omega
    obtain ⟨rest, assign⟩ : ∃ rest, ∀ e,
        (((ents.drop 2).set l e).map fun e => refer e.inum).sum = refer e.inum + rest := by
      refine ⟨(((ents.drop 2).take l).map fun e => refer e.inum).sum +
        (((ents.drop 2).drop (l + 1)).map fun e => refer e.inum).sum, fun e => ?_⟩
      rw [set_eq_take_append_cons_drop, if_pos inner, map_append, List.map_cons,
        sum_append, List.sum_cons, add_left_comm]
    grind [entAt, set_getElem_self, entInums, setEnt, drop_set]
  · refine ⟨entInums ents, ?_, fun e => ?_⟩
    · have beyond : entAt ents (2 + l) = ⟨0, []⟩ := by
        rw [entAt, getD_eq_getElem?_getD, getElem?_eq_none (by omega), Option.getD_none]
      rw [beyond]
      exact (Multiset.zero_add _).symm
    grind [entInums, setEnt]

/-! ## The law -/

/-- The inode numbers that names stand for. -/
def names (n : Nat) (tree : Nat → Node) : Multiset Nat := references n fun d => (tree d).targets

/-- The number of subdirectories of a directory. -/
def subdirs (tree : Nat → Node) (i : Nat) : Nat :=
  (tree i).targets.countP fun j => (tree j).kind = .dir

/-- The links to an inode: its names and the entries `..` of its subdirectories. -/
def links (n : Nat) (tree : Nat → Node) (i : Nat) : Nat :=
  (names n tree).count i + subdirs tree i + if i = rootIno then 1 else 0

/-- A directory starts with `.` and `..`. -/
structure Node.Dotted (node : Node) (i : Nat) : Prop where
  self : ∃ name, node.ents[0]? = some ⟨i, name⟩ ∧ namecmp dot name = 0
  parent : ∃ name, node.ents[1]? = some ⟨node.parent, name⟩ ∧ namecmp dotdot name = 0
  nonzero : node.parent ≠ 0

/-- The law of the name space over the inode numbers below `n`. -/
structure Linked (n : Nat) (tree : Nat → Node) : Prop where
  inside : ∀ i, (tree i).kind ≠ .free → rootIno ≤ i ∧ i < n
  root : (tree rootIno).kind = .dir
  dotted : ∀ i, (tree i).kind = .dir → (tree i).Dotted i
  named : ∀ i ∈ names n tree, (tree i).kind ≠ .free
  count : ∀ i, (tree i).kind ≠ .free → (tree i).nlink = links n tree i
  once : ∀ i, (tree i).kind = .dir →
    (names n tree).count i + (if i = rootIno then 1 else 0) ≤ 1
  empty : ∀ i, (tree i).kind = .dir → i ≠ rootIno → i ∉ names n tree → (tree i).targets = 0
  reached : ∀ i, (tree i).kind ≠ .free → (tree i).nlink ≠ 0 →
    Reachable (fun d => (tree d).targets) rootIno i

section Law

variable {n d i j : Nat} {tree later : Nat → Node} (linked : Linked n tree)

include linked

omit linked in
theorem targets_of_ne (other : (tree i).kind ≠ .dir) : (tree i).targets = 0 := by
  rw [Node.targets, if_neg other]

theorem Linked.below (isDir : (tree d).kind = .dir) : d < n :=
  (linked.inside d (by rw [isDir]; decide)).2

theorem Linked.mem_names (member : i ∈ (tree d).targets) : i ∈ names n tree := by
  have isDir : (tree d).kind = .dir := by
    by_contra other
    rw [targets_of_ne other] at member
    exact notMem_zero i member
  exact mem_references.mpr ⟨d, linked.below isDir, member⟩

omit linked in
/-- A directory that holds names has links. -/
theorem nlink_of_targets (count : ∀ i, (tree i).kind ≠ .free → (tree i).nlink = links n tree i)
    (empty : ∀ i, (tree i).kind = .dir → i ≠ rootIno → i ∉ names n tree → (tree i).targets = 0)
    (member : i ∈ (tree d).targets) : (tree d).kind = .dir ∧ (tree d).nlink ≠ 0 := by
  have isDir : (tree d).kind = .dir := by
    by_contra other
    rw [targets_of_ne other] at member
    exact notMem_zero i member
  grind [links, Multiset.count_eq_zero]

/-- Whoever has links and is not the root has a name or holds one. -/
theorem Linked.root_or_named (isDir : (tree d).kind = .dir) (has : (tree d).nlink ≠ 0) :
    d = rootIno ∨ d ∈ names n tree := by
  grind [links, Multiset.count_eq_zero, subdirs, countP_zero, cases Linked]

omit linked in
/-- The number of subdirectories depends on what the names stand for. -/
theorem subdirs_congr (targets : (later d).targets = (tree d).targets)
    (kind : ∀ j ∈ (tree d).targets, (later j).kind = (tree j).kind) :
    subdirs later d = subdirs tree d := by
  unfold subdirs
  rw [targets]
  apply Multiset.countP_congr rfl
  intro j member
  rw [kind j member]

/-! ## A new name -/

/-- The directory `d` gets a name for `i`, which may be new. -/
structure Gains (tree later : Nat → Node) (d i : Nat) : Prop where
  here : (later d).targets = i ::ₘ (tree d).targets
  elsewhere : ∀ j ≠ d, (later j).targets = (tree j).targets
  kind : ∀ j ≠ i, (later j).kind = (tree j).kind
  used : (later i).kind ≠ .free
  same : (tree i).kind ≠ .free → (later i).kind = (tree i).kind ∧ (tree i).kind ≠ .dir
  nlink : ∀ j, j ≠ i → j ≠ d → (later j).nlink = (tree j).nlink
  link : (later i).nlink = (if (tree i).kind = .free then 0 else (tree i).nlink) + 1
  parent : (later d).nlink = (tree d).nlink + if (later i).kind = .dir then 1 else 0
  dotted : ∀ j, (later j).kind = .dir → (later j).Dotted j
  parents : ∀ j ≠ i, (later j).kind = .dir → (later j).parent = (tree j).parent
  above : (later i).kind = .dir → (later i).parent = d

/-- A name in a directory that has links keeps the law. -/
theorem Linked.gains (gains : Gains tree later d i) (apart : i ≠ d) (isDir : (tree d).kind = .dir)
    (has : (tree d).nlink ≠ 0) (inside : rootIno ≤ i ∧ i < n) : Linked n later := by
  have kindD : (later d).kind = .dir := (gains.kind d (Ne.symm apart)).trans isDir
  have more : names n later = i ::ₘ names n tree :=
    references_cons (linked.below isDir) gains.here gains.elsewhere
  -- a name stands for an inode whose kind stays
  have kinds : ∀ j, ∀ k ∈ (tree j).targets, (later k).kind = (tree k).kind := by
    intro j k member
    by_cases new : k = i
    · rw [new]
      exact (gains.same (linked.named i (linked.mem_names (new ▸ member)))).1
    · exact gains.kind k new
  have fresh : (tree i).kind = .free → i ∉ names n tree ∧ i ≠ rootIno := by
    intro free
    refine ⟨fun member => linked.named i member free, fun same => ?_⟩
    rw [same, linked.root] at free
    exact absurd free (by decide)
  have subdirsD : subdirs later d = subdirs tree d + if (later i).kind = .dir then 1 else 0 := by
    unfold subdirs
    rw [gains.here, Multiset.countP_cons]
    congr 1
    exact Multiset.countP_congr rfl fun j member => by rw [kinds d j member]
  have subdirsJ : ∀ j ≠ d, subdirs later j = subdirs tree j :=
    fun j other => subdirs_congr (gains.elsewhere j other) (kinds j)
  have reached : ∀ j, Reachable (fun d => (tree d).targets) rootIno j →
      Reachable (fun d => (later d).targets) rootIno j := by
    refine fun j before => before.mono fun k l member => ?_
    by_cases same : k = d
    · rw [same] at member ⊢
      rw [gains.here]
      exact Multiset.mem_cons_of_mem member
    · rw [gains.elsewhere k same]
      exact member
  have reachedD := reached d (linked.reached d (by rw [isDir]; decide) has)
  constructor
  · grind [cases Linked, cases Gains]
  · grind [cases Linked, cases Gains]
  · exact gains.dotted
  · grind [cases Linked, cases Gains]
  · intro j used
    unfold links
    rw [more, Multiset.count_cons]
    by_cases new : j = i
    · subst new
      rw [gains.link, subdirsJ j apart, if_pos rfl]
      by_cases free : (tree j).kind = .free
      · rw [if_pos free, if_neg (fresh free).2, Multiset.count_eq_zero.mpr (fresh free).1, subdirs,
          targets_of_ne (by rw [free]; decide), countP_zero]
        rfl
      · rw [if_neg free, linked.count j free, links]
        push_cast
        omega
    grind [links, cases Linked, cases Gains]
  · grind [Multiset.count_cons, Multiset.count_eq_zero, cases Linked, cases Gains]
  · intro j kind notRoot unnamed
    rw [more, Multiset.mem_cons, not_or] at unnamed
    rw [gains.kind j unnamed.1] at kind
    by_cases same : j = d
    · subst same
      cases linked.root_or_named kind has with
      | inl isRoot => exact absurd isRoot notRoot
      | inr member => exact absurd member unnamed.2
    · rw [gains.elsewhere j same]
      exact linked.empty j kind notRoot unnamed.2
  · intro j used nlink
    by_cases new : j = i
    · rw [new]
      refine .next reachedD ?_
      show i ∈ (later d).targets
      rw [gains.here]
      exact Multiset.mem_cons_self i _
    grind [cases Linked, cases Gains]

/-! ## A name removed -/

/-- The directory `d` loses a name of `i`, which holds no names. -/
structure Loses (tree later : Nat → Node) (d i : Nat) : Prop where
  here : (tree d).targets = i ::ₘ (later d).targets
  elsewhere : ∀ j ≠ d, (later j).targets = (tree j).targets
  kind : ∀ j, (later j).kind = (tree j).kind
  nlink : ∀ j, j ≠ i → j ≠ d → (later j).nlink = (tree j).nlink
  link : (later i).nlink = (tree i).nlink - 1
  parent : (later d).nlink = (tree d).nlink - if (tree i).kind = .dir then 1 else 0
  leaf : (tree i).targets = 0
  dotted : ∀ j, (later j).kind = .dir → (later j).Dotted j
  parents : ∀ j, (later j).kind = .dir → (later j).parent = (tree j).parent

/-- Removing a name keeps the law. -/
theorem Linked.loses (loses : Loses tree later d i) (apart : i ≠ d) : Linked n later := by
  have member : i ∈ (tree d).targets := by
    rw [loses.here]
    exact Multiset.mem_cons_self i _
  obtain ⟨isDir, hasD⟩ := nlink_of_targets linked.count linked.empty member
  have fewer : names n tree = i ::ₘ names n later :=
    references_cons (linked.below isDir) loses.here fun j other => (loses.elsewhere j other).symm
  have leaf : (later i).targets = 0 := (loses.elsewhere i apart).trans loses.leaf
  have notRoot : i ≠ rootIno := by
    rintro rfl
    have once := linked.once rootIno linked.root
    rw [fewer, Multiset.count_cons_self, if_pos rfl] at once
    omega
  have subdirsD : subdirs tree d = subdirs later d + if (tree i).kind = .dir then 1 else 0 := by
    unfold subdirs
    rw [loses.here, Multiset.countP_cons]
    congr 1
    exact Multiset.countP_congr rfl fun j _ => by rw [loses.kind j]
  have subdirsJ : ∀ j ≠ d, subdirs later j = subdirs tree j :=
    fun j other => subdirs_congr (loses.elsewhere j other) fun k _ => loses.kind k
  have count : ∀ j, (later j).kind ≠ .free → (later j).nlink = links n later j := by
    intro j used
    rw [loses.kind j] at used
    have before := linked.count j used
    unfold links at before ⊢
    rw [fewer, Multiset.count_cons] at before
    by_cases gone : j = i
    · subst gone
      rw [loses.link, before, if_pos rfl, subdirsJ j apart]
      push_cast
      omega
    · grind [cases Loses]
  have empty : ∀ j, (later j).kind = .dir → j ≠ rootIno → j ∉ names n later →
      (later j).targets = 0 := by
    intro j kind root unnamed
    rw [loses.kind j] at kind
    by_cases gone : j = i
    · rw [gone]
      exact leaf
    · grind [cases Linked, cases Loses]
  have reached : ∀ j ≠ i, (later j).kind ≠ .free → (later j).nlink ≠ 0 →
      Reachable (fun d => (later d).targets) rootIno j := by
    intro j other used nlink
    have before : (tree j).nlink ≠ 0 := by
      by_cases same : j = d
      · rw [same]
        exact hasD
      · rw [← loses.nlink j other same]
        exact nlink
    rw [loses.kind j] at used
    refine (linked.reached j used before).except loses.leaf other fun k l among different => ?_
    by_cases same : k = d
    · rw [same, loses.here] at among
      rw [same]
      exact (Multiset.mem_cons.mp among).resolve_left different
    · rw [loses.elsewhere k same]
      exact among
  constructor
  · intro j used
    rw [loses.kind j] at used
    exact linked.inside j used
  · rw [loses.kind]
    exact linked.root
  · exact loses.dotted
  · intro j among
    rw [loses.kind j]
    apply linked.named
    rw [fewer]
    exact Multiset.mem_cons_of_mem among
  · exact count
  · intro j kind
    rw [loses.kind j] at kind
    have before := linked.once j kind
    rw [fewer, Multiset.count_cons] at before
    omega
  · exact empty
  · intro j used nlink
    by_cases gone : j = i
    · subst gone
      have positive : 0 < (names n later).count j := by
        have total := count j used
        rw [links, if_neg notRoot, subdirs, leaf, countP_zero] at total
        omega
      obtain ⟨k, _, edge⟩ := mem_references.mp (count_pos.mp positive)
      obtain ⟨kindK, nlinkK⟩ := nlink_of_targets count empty edge
      have other : k ≠ j := by
        rintro rfl
        rw [leaf] at edge
        exact notMem_zero k edge
      exact .next (reached k other (by rw [kindK]; decide) nlinkK) edge
    · exact reached j gone used nlink

/-! ## An inode freed -/

/-- Freeing an inode that has no links keeps the law. -/
theorem Linked.settle (used : Multiset Nat) (i : Nat) : Linked n (settle used tree i) := by
  unfold Fs.settle
  split
  · rename_i unlinked
    have zero : (tree i).kind ≠ .free → links n tree i = 0 := by
      intro kind
      have count := linked.count i kind
      rw [unlinked.1] at count
      omega
    have notRoot : i ≠ rootIno := by
      rintro rfl
      have count := zero (by rw [linked.root]; decide)
      rw [links, if_pos rfl] at count
      omega
    have unnamed : i ∉ names n tree := by
      intro member
      have count := zero (linked.named i member)
      rw [links] at count
      exact absurd (count_pos.mpr member) (by omega)
    have leaf : (tree i).targets = 0 := by
      by_cases isDir : (tree i).kind = .dir
      · exact linked.empty i isDir notRoot unnamed
      · exact targets_of_ne isDir
    have targets : ∀ j, (update tree i .free j).targets = (tree j).targets := by
      intro j
      rw [update_apply]
      split
      · rename_i same
        rw [same, leaf]
        rfl
      · rfl
    have same : names n (update tree i .free) = names n tree := by
      unfold names
      simp only [targets]
    have node : ∀ j ≠ i, update tree i .free j = tree j :=
      fun j other => update_of_ne other ..
    have other : ∀ j, (update tree i .free j).kind ≠ .free → j ≠ i := by
      rintro j kind rfl
      rw [update_self] at kind
      exact kind rfl
    have dirs : ∀ j, (update tree i .free j).kind = .dir → j ≠ i :=
      fun j kind => other j (by rw [kind]; decide)
    have sub : ∀ j, subdirs (update tree i .free) j = subdirs tree j := by
      refine fun j => subdirs_congr (targets j) fun k member => ?_
      rw [node k fun same => unnamed (same ▸ linked.mem_names member)]
    constructor
    · intro j kind
      rw [node j (other j kind)] at kind
      exact linked.inside j kind
    · rw [node _ (Ne.symm notRoot)]
      exact linked.root
    · intro j kind
      have stays := dirs j kind
      rw [node j stays] at kind ⊢
      exact linked.dotted j kind
    · intro j member
      rw [same] at member
      rw [node j fun equal => unnamed (equal ▸ member)]
      exact linked.named j member
    · grind [links, cases Linked]
    · intro j kind
      rw [node j (dirs j kind)] at kind
      rw [same]
      exact linked.once j kind
    · grind [cases Linked]
    · intro j kind nlink
      have stays := other j kind
      rw [node j stays] at kind nlink
      simp only [targets]
      exact linked.reached j kind nlink
  · exact linked

end Law

/-! ## Entries -/

section Entries

variable {node : Node} {i k : Nat} {name : List UInt8} (dotted : node.Dotted i) {e : Dirent}

include dotted

omit dotted in
/-- Two names equal to a third are equal. -/
theorem strncmp_trans {p q r : List UInt8} {n : Nat} (first : strncmp p q n = 0)
    (second : strncmp r q n = 0) : strncmp p r n = 0 := by
  induction n generalizing p q r with
  | zero => rfl
  | succ n ih =>
    grind [strncmp, UInt8.toNat_inj]

theorem Node.Dotted.length : 2 ≤ node.ents.length := by
  obtain ⟨_, entry, _⟩ := dotted.parent
  exact (List.getElem?_eq_some_iff.mp entry).1

/-- The place of a new entry is behind `.` and `..`. -/
theorem Node.Dotted.freeIndex (nonzero : i ≠ 0) :
    2 ≤ Fs.freeIndex node.ents ∧ (entAt node.ents (Fs.freeIndex node.ents)).inum = 0 := by
  have length := dotted.length
  obtain ⟨_, self, _⟩ := dotted.self
  obtain ⟨_, parent, _⟩ := dotted.parent
  unfold Fs.freeIndex
  cases found : node.ents.findIdx? fun e => e.inum == 0 with
  | none =>
    refine ⟨length, ?_⟩
    simp [entAt]
  | some l =>
    grind [findIdx?_eq_some_iff_getElem, entAt, cases Dotted]

/-- An entry found under another name is behind `.` and `..`. -/
theorem Node.Dotted.lookup (notDot : namecmp name dot ≠ 0) (notDotdot : namecmp name dotdot ≠ 0)
    (found : Fs.lookup node.ents name = some k) : 2 ≤ k := by
  obtain ⟨e, entry, _, _, hit⟩ := lookup_some found
  obtain ⟨_, self, isDot⟩ := dotted.self
  obtain ⟨_, parent, isDotdot⟩ := dotted.parent
  by_contra small
  have cases : k = 0 ∨ k = 1 := by omega
  cases cases with
  | inl first =>
    rw [first, self] at entry
    rw [← Option.some.inj entry] at hit
    exact notDot (strncmp_trans hit isDot)
  | inr second =>
    rw [second, parent] at entry
    rw [← Option.some.inj entry] at hit
    exact notDotdot (strncmp_trans hit isDotdot)

/-- The first two entries stay when another is written. -/
theorem Node.Dotted.setEnt {later : Node} (two : 2 ≤ k) (inside : k ≤ node.ents.length)
    (ents : later.ents = Fs.setEnt node.ents k e) :
    later.Dotted i ∧ later.parent = node.parent := by
  have entry : ∀ l < 2, later.ents[l]? = node.ents[l]? := by
    intro l small
    rw [ents, setEnt_getElem? inside, if_neg (by omega)]
  have parent : later.parent = node.parent := by
    unfold Node.parent entAt
    rw [getD_eq_getElem?_getD, getD_eq_getElem?_getD, entry 1 (by decide)]
  refine ⟨⟨?_, ?_, ?_⟩, parent⟩
  all_goals grind [cases Dotted]

theorem named_targets (isDir : node.kind = .dir) (nonzero : i ≠ 0) {j : Nat} (other : j ≠ 0)
    (name : List UInt8) : (named node j name).targets = j ::ₘ node.targets := by
  obtain ⟨two, zero⟩ := dotted.freeIndex nonzero
  obtain ⟨rest, before, assign⟩ := entInums_split two (freeIndex_le node.ents)
  unfold Node.targets named
  rw [if_pos isDir, if_pos isDir, assign, before, zero, refer, refer, if_neg other, if_pos rfl,
    Multiset.zero_add]
  rfl

omit dotted in
theorem cleared_targets (isDir : node.kind = .dir) (two : 2 ≤ k) (entry : node.ents[k]? = some e)
    (nonzero : e.inum ≠ 0) : node.targets = e.inum ::ₘ (cleared node k).targets := by
  have inside := (List.getElem?_eq_some_iff.mp entry).1
  obtain ⟨rest, before, assign⟩ := entInums_split two (le_of_lt inside)
  have here : entAt node.ents k = e := by
    rw [entAt, getD_eq_getElem?_getD, entry]
    rfl
  unfold Node.targets cleared
  rw [if_pos isDir, if_pos isDir, assign, before, here, refer, if_neg nonzero, refer, noEntry,
    if_pos rfl, Multiset.zero_add]
  rfl

end Entries

/-! ## What calls do to the law -/

section Calls

variable {n d i k : Nat} {tree : Nat → Node} {name : List UInt8} {type : FileType} {node : Node}

/-- The names in a node are those in its entries. -/
theorem targets_congr {other : Node} (kind : other.kind = node.kind)
    (ents : other.ents = node.ents) : other.targets = node.targets := by
  rw [Node.targets, Node.targets, kind, ents]

/-- A link is added without overflow. -/
def Node.Room (node : Node) : Prop := short (node.nlink + 1) = node.nlink + 1

theorem newNode_targets (type : FileType) (d i : Nat) : (newNode type d i).targets = 0 := by
  unfold Node.targets newNode
  split <;> rfl

theorem newNode_dotted (d i : Nat) (nonzero : d ≠ 0) : (newNode .dir d i).Dotted i :=
  ⟨⟨_, rfl, by decide⟩, ⟨_, rfl, by decide⟩, nonzero⟩

section

variable (linked : Linked n tree)

include linked

theorem Linked.nonzero (used : (tree i).kind ≠ .free) : i ≠ 0 := by
  have := (linked.inside i used).1
  unfold rootIno at this
  omega

/-- What `create` does. -/
theorem Linked.create (isDir : (tree d).kind = .dir) (inside : rootIno ≤ i ∧ i < n)
    (free : (tree i).kind = .free) (used : type ≠ .free) (room : type = .dir → (tree d).Room) :
    i ≠ d ∧ Gains tree (createTree tree d i name type) d i := by
  have apart : i ≠ d := by
    rintro rfl
    rw [isDir] at free
    exact absurd free (by decide)
  have nonzeroD : d ≠ 0 := linked.nonzero (by rw [isDir]; decide)
  have nonzero : i ≠ 0 := by
    have := inside.1
    unfold rootIno at this
    omega
  have nodeI : createTree tree d i name type i = newNode type d i := by
    rw [createTree, update_of_ne apart, update_self]
  have nodeJ : ∀ j, j ≠ i → j ≠ d → createTree tree d i name type j = tree j := by
    intro j other different
    rw [createTree, update_of_ne different, update_of_ne other]
  have nodeD : (createTree tree d i name type d).kind = .dir ∧
      (createTree tree d i name type d).ents = (Fs.named (tree d) i name).ents ∧
      (createTree tree d i name type d).nlink =
        (tree d).nlink + if type = .dir then 1 else 0 := by
    rw [createTree, update_self]
    by_cases sub : type = .dir
    · rw [if_pos sub, if_pos sub]
      exact ⟨isDir, rfl, room sub⟩
    · rw [if_neg sub, if_neg sub]
      exact ⟨isDir, rfl, (Int.add_zero _).symm⟩
  have dottedD := linked.dotted d isDir
  obtain ⟨two, _⟩ := dottedD.freeIndex nonzeroD
  obtain ⟨laterD, parentD⟩ := dottedD.setEnt two (freeIndex_le _) nodeD.2.1
  refine ⟨apart, ?_, ?_, ?_, ?_, ?_, ?_, ?_, ?_, ?_, ?_, ?_⟩
  · grind [Fs.named, targets_congr, named_targets]
  · intro j other
    by_cases new : j = i
    · rw [new, nodeI, newNode_targets, targets_of_ne (by rw [free]; decide)]
    · rw [nodeJ j new other]
  · intro j other
    by_cases same : j = d
    · rw [same, nodeD.1, isDir]
    · rw [nodeJ j other same]
  · rw [nodeI]
    exact used
  · exact fun taken => absurd free taken
  · exact fun j other different => by rw [nodeJ j other different]
  · rw [nodeI, if_pos free]
    rfl
  · rw [nodeI, nodeD.2.2]
    rfl
  · intro j kind
    by_cases new : j = i
    · rw [new, nodeI] at kind ⊢
      obtain rfl : type = .dir := kind
      exact newNode_dotted d i nonzeroD
    grind [cases Linked]
  · intro j other _
    by_cases same : j = d
    · rw [same]
      exact parentD
    · rw [nodeJ j other same]
  · intro kind
    rw [nodeI] at kind ⊢
    obtain rfl : type = .dir := kind
    rfl

/-- What `sys_link` does. -/
theorem Linked.link (isDir : (tree d).kind = .dir) (used : (tree i).kind ≠ .free)
    (plain : (tree i).kind ≠ .dir) (room : (tree i).Room) :
    i ≠ d ∧ Gains tree (linkTree tree d i name) d i := by
  have apart : i ≠ d := by
    rintro rfl
    exact plain isDir
  have nonzeroD : d ≠ 0 := linked.nonzero (by rw [isDir]; decide)
  have nodeI : linkTree tree d i name i = Fs.linked (tree i) 1 := by
    rw [linkTree, update_of_ne apart, update_self]
  have nodeJ : ∀ j, j ≠ i → j ≠ d → linkTree tree d i name j = tree j := by
    intro j other different
    rw [linkTree, update_of_ne different, update_of_ne other]
  have nodeD : linkTree tree d i name d = Fs.named (tree d) i name := by
    rw [linkTree, update_self]
  have dottedD := linked.dotted d isDir
  obtain ⟨two, _⟩ := dottedD.freeIndex nonzeroD
  obtain ⟨laterD, parentD⟩ : (linkTree tree d i name d).Dotted d ∧
      (linkTree tree d i name d).parent = (tree d).parent := by
    rw [nodeD]
    exact dottedD.setEnt two (freeIndex_le _) rfl
  refine ⟨apart, ?_, ?_, ?_, ?_, ?_, ?_, ?_, ?_, ?_, ?_, ?_⟩
  · rw [nodeD]
    exact named_targets dottedD isDir nonzeroD (linked.nonzero used) name
  · intro j other
    by_cases same : j = i
    · rw [same, nodeI, targets_of_ne plain]
      exact if_neg plain
    · rw [nodeJ j same other]
  · intro j other
    by_cases same : j = d
    · rw [same, nodeD]
      rfl
    · rw [nodeJ j other same]
  · rw [nodeI]
    exact used
  · rw [nodeI]
    exact fun _ => ⟨rfl, plain⟩
  · exact fun j other different => by rw [nodeJ j other different]
  · rw [nodeI, if_neg used]
    exact room
  · have kind : (Fs.linked (tree i) 1).kind ≠ .dir := plain
    rw [nodeI, nodeD, if_neg kind]
    exact (Int.add_zero _).symm
  · intro j kind
    by_cases same : j = i
    · rw [same, nodeI] at kind
      exact absurd kind plain
    grind [cases Linked]
  · intro j other _
    by_cases same : j = d
    · rw [same]
      exact parentD
    · rw [nodeJ j other same]
  · intro kind
    rw [nodeI] at kind
    exact absurd kind plain

/-- What `sys_unlink` does. -/
theorem Linked.unlink {e : Dirent} (range : ∀ i, short (tree i).nlink = (tree i).nlink)
    (isDir : (tree d).kind = .dir) (two : 2 ≤ k) (entry : (tree d).ents[k]? = some e)
    (nonzero : e.inum ≠ 0) (apart : e.inum ≠ d)
    (empty : (tree e.inum).kind = .dir → (tree e.inum).targets = 0) :
    Loses tree (unlinkTree tree d k e.inum) d e.inum := by
  have inside := (List.getElem?_eq_some_iff.mp entry).1
  have nodeI : unlinkTree tree d k e.inum e.inum = Fs.linked (tree e.inum) (-1) := by
    rw [unlinkTree, update_self]
  have nodeJ : ∀ j, j ≠ e.inum → j ≠ d → unlinkTree tree d k e.inum j = tree j := by
    intro j other different
    rw [unlinkTree, update_of_ne other, update_of_ne different]
  have member : e.inum ∈ (tree d).targets := by
    rw [cleared_targets isDir two entry nonzero]
    exact Multiset.mem_cons_self _ _
  -- no count is below one where a link is taken away
  have less : ∀ i, 1 ≤ (tree i).nlink → short ((tree i).nlink + -1) = (tree i).nlink - 1 := by
    intro i positive
    have high := range i
    unfold short at high ⊢
    omega
  have used : (tree e.inum).kind ≠ .free := linked.named _ (linked.mem_names member)
  have linkI : 1 ≤ (tree e.inum).nlink := by
    rw [linked.count _ used, links]
    have := count_pos.mpr (linked.mem_names member)
    omega
  have linkD : 1 ≤ (tree d).nlink := by
    have some := (nlink_of_targets linked.count linked.empty member).2
    rw [linked.count d (by rw [isDir]; decide)] at some ⊢
    omega
  have nodeD : (unlinkTree tree d k e.inum d).kind = .dir ∧
      (unlinkTree tree d k e.inum d).ents = (cleared (tree d) k).ents ∧
      (unlinkTree tree d k e.inum d).nlink =
        (tree d).nlink - if (tree e.inum).kind = .dir then 1 else 0 := by
    rw [unlinkTree, update_of_ne (Ne.symm apart), update_self]
    by_cases sub : (tree e.inum).kind = .dir
    · rw [if_pos sub, if_pos sub]
      exact ⟨isDir, rfl, less d linkD⟩
    · rw [if_neg sub, if_neg sub]
      exact ⟨isDir, rfl, (Int.sub_zero _).symm⟩
  obtain ⟨laterD, parentD⟩ :=
    (linked.dotted d isDir).setEnt two (le_of_lt inside) nodeD.2.1
  refine ⟨?_, ?_, ?_, ?_, ?_, ?_, ?_, ?_, ?_⟩
  · have like : (unlinkTree tree d k e.inum d).targets = (cleared (tree d) k).targets :=
      targets_congr (nodeD.1.trans isDir.symm) nodeD.2.1
    rw [like]
    exact cleared_targets isDir two entry nonzero
  · intro j other
    by_cases same : j = e.inum
    · rw [same, nodeI]
      rfl
    · rw [nodeJ j same other]
  · intro j
    by_cases same : j = e.inum
    · rw [same, nodeI]
      rfl
    · by_cases here : j = d
      · rw [here, nodeD.1, isDir]
      · rw [nodeJ j same here]
  · exact fun j other different => by rw [nodeJ j other different]
  · rw [nodeI]
    exact less _ linkI
  · exact nodeD.2.2
  · by_cases sub : (tree e.inum).kind = .dir
    · exact empty sub
    · exact targets_of_ne sub
  · intro j kind
    by_cases same : j = e.inum
    · rw [same, nodeI] at kind ⊢
      obtain ⟨self, parent, other⟩ := linked.dotted _ kind
      exact ⟨self, parent, other⟩
    grind [cases Linked]
  · intro j _
    by_cases same : j = e.inum
    · rw [same, nodeI]
      rfl
    · by_cases here : j = d
      · rw [here]
        exact parentD
      · rw [nodeJ j same here]

end

theorem targets_of_empty (empty : isEmptyDir node.ents = true) : node.targets = 0 := by
  unfold Node.targets entInums
  split
  · apply List.sum_eq_zero
    intro references member
    obtain ⟨e, entry, rfl⟩ := List.mem_map.mp member
    have zero := List.all_eq_true.mp empty e entry
    rw [beq_iff_eq] at zero
    rw [refer, if_pos zero]
  · rfl

end Calls

/-! ## Proper calls -/

/-- A condition on the directory in which a call would put a new name. -/
def InParent (tree : Nat → Node) (cwd : Nat) (path : List UInt8) (good : Node → Prop) : Prop :=
  match resolve tree true cwd path with
  | some (d, name) => lookup (tree d).ents name = none → good (tree d)
  | none => True

/-- A condition on the inode that a path stands for. -/
def AtPath (tree : Nat → Node) (cwd : Nat) (path : List UInt8) (good : Node → Prop) : Prop :=
  match resolve tree false cwd path with
  | some (i, _) => good (tree i)
  | none => True

/-- The call puts no name in a directory without links and no link count overflows. -/
def Call.Proper (tree : Nat → Node) (cwd : Nat) : Call → Prop
  | .open path omode => omode &&& oCreate ≠ 0 → InParent tree cwd path fun node => node.nlink ≠ 0
  | .mkdir path => InParent tree cwd path fun node => node.nlink ≠ 0 ∧ node.nlink ≠ 32767
  | .mknod path _ _ => InParent tree cwd path fun node => node.nlink ≠ 0
  | .link old new => (InParent tree cwd new fun node => node.nlink ≠ 0) ∧
    AtPath tree cwd old fun node => node.nlink ≠ 32767
  | _ => True

instance (tree : Nat → Node) (cwd : Nat) (path : List UInt8) (good : Node → Prop)
    [DecidablePred good] : Decidable (InParent tree cwd path good) := by
  unfold InParent
  split <;> infer_instance

instance (tree : Nat → Node) (cwd : Nat) (path : List UInt8) (good : Node → Prop)
    [DecidablePred good] : Decidable (AtPath tree cwd path good) := by
  unfold AtPath
  split <;> infer_instance

instance (tree : Nat → Node) (cwd : Nat) (call : Call) : Decidable (call.Proper tree cwd) := by
  cases call <;> unfold Call.Proper <;> infer_instance

section Proper

variable {sb : Superblock} {cwd : Nat} {call : Call} {world : World} {later : Nat → Node}
  {start final : World}

theorem Node.room {node : Node} (range : short node.nlink = node.nlink)
    (below : node.nlink ≠ 32767) : node.Room := by
  unfold Node.Room
  unfold short at range ⊢
  omega

theorem Call.Creates.proper {path name : List UInt8} {type : FileType} {d : Nat}
    {tree : Nat → Node} (creates : call.Creates path type) (proper : call.Proper tree cwd)
    (resolved : resolve tree true cwd path = some (d, name))
    (absent : lookup (tree d).ents name = none) :
    (tree d).nlink ≠ 0 ∧ (type = .dir → (tree d).nlink ≠ 32767) ∧ type ≠ .free := by
  cases call with
  | «open» path' omode =>
    grind [InParent, Creates, Proper]
  | mkdir path' =>
    grind [InParent, Creates, Proper]
  | mknod path' major minor =>
    grind [InParent, Creates, Proper]
  | _ => exact creates.elim

section Keep

variable {P : (Nat → Node) → Prop}
  (frees : ∀ {tree}, P tree → Linked sb.ninodes tree → ∀ used i, P (settle used tree i))

include frees

/-- Taking and dropping references keeps the law, and what the freeing of an inode keeps. -/
theorem Shift.keep (shifts : Relation.ReflTransGen Shift start final)
    (linked : Linked sb.ninodes start.tree) (holds : P start.tree) :
    Linked sb.ninodes final.tree ∧ P final.tree := by
  induction shifts with
  | refl => exact ⟨linked, holds⟩
  | tail _ shift ih =>
    cases shift with
    | take i live => exact ih
    | drop i => exact ⟨ih.1.settle _ i, frees ih.2 ih.1 _ i⟩

/-- A proper call keeps the law, and what adding a name, removing one and freeing an inode keep. -/
theorem TreeOp.keep (op : TreeOp sb cwd call world later) (linked : Linked sb.ninodes world.tree)
    (range : ∀ i, short (world.tree i).nlink = (world.tree i).nlink)
    (proper : call.Proper world.tree cwd) (holds : P world.tree)
    (adds : ∀ {d i name later}, (world.tree d).kind = .dir → (world.tree d).nlink ≠ 0 →
      lookup (world.tree d).ents name = none → Gains world.tree later d i → i ≠ d →
      (∃ type, later = createTree world.tree d i name type) ∨
        later = linkTree world.tree d i name → P later)
    (removes : ∀ {path name d k e}, call = .unlink path →
      resolve world.tree true cwd path = some (d, name) → (world.tree d).kind = .dir →
      lookup (world.tree d).ents name = some k → (world.tree d).ents[k]? = some e →
      Loses world.tree (unlinkTree world.tree d k e.inum) d e.inum →
      P (unlinkTree world.tree d k e.inum)) :
    Linked sb.ninodes later ∧ P later := by
  -- Every operation ends by giving back the inodes it used.
  have back : ∀ {tree}, Linked sb.ninodes tree ∧ P tree → ∀ i,
      Linked sb.ninodes (settle world.used tree i) ∧ P (settle world.used tree i) :=
    fun both i => ⟨both.1.settle _ i, frees both.2 both.1 _ i⟩
  cases op with
  | same => exact ⟨linked, holds⟩
  | @create path name type d i concerns resolved isDir absent inside free =>
    obtain ⟨has, room, used⟩ := concerns.proper proper resolved absent
    obtain ⟨apart, gains⟩ := linked.create isDir inside free used
      fun sub => Node.room (range d) (room sub)
    exact back ⟨linked.gains gains apart isDir has inside,
      adds isDir has absent gains apart (.inl ⟨type, rfl⟩)⟩ d
  | @link old new last name d i concerns source used plain resolved isDir absent =>
    subst concerns
    obtain ⟨has, room⟩ := proper
    rw [InParent, resolved] at has
    rw [AtPath, source] at room
    obtain ⟨apart, gains⟩ := linked.link isDir used plain (Node.room (range i) room)
    exact back (back ⟨linked.gains gains apart isDir (has absent) (linked.inside i used),
      adds isDir (has absent) absent gains apart (.inr rfl)⟩ d) i
  | @unlink path name d k e concerns resolved isDir notDot notDotdot found entry nonzero apart used
      hasLink empty =>
    have two := (linked.dotted d isDir).lookup notDot notDotdot found
    have loses := linked.unlink range isDir two entry nonzero apart
      fun sub => targets_of_empty (empty sub)
    exact back (back ⟨linked.loses loses apart,
      removes concerns resolved isDir found entry loses⟩ d) e.inum

end Keep

/-- A proper call keeps the law. -/
theorem TreeOp.linked (op : TreeOp sb cwd call world later) (linked : Linked sb.ninodes world.tree)
    (range : ∀ i, short (world.tree i).nlink = (world.tree i).nlink)
    (proper : call.Proper world.tree cwd) : Linked sb.ninodes later :=
  (op.keep (P := fun _ => True) (fun _ _ _ _ => trivial) linked range proper trivial
    (fun _ _ _ _ _ _ => trivial) fun _ _ _ _ _ _ => trivial).1

/-- Taking and dropping references keeps the law. -/
theorem Shift.linked (shifts : Relation.ReflTransGen Shift start final)
    (linked : Linked sb.ninodes start.tree) : Linked sb.ninodes final.tree :=
  (Shift.keep (P := fun _ => True) (fun _ _ _ _ => trivial) shifts linked trivial).1

end Proper

end Xv6.Fs
