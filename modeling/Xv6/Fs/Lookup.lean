import Xv6.Fs.Icache

/-!
# Names and paths

A directory is searched by name and a path is walked through the nodes, as functions of the nodes
alone; the loops of `dirlookup`, `dirlink` and `namex` compute these functions. A lookup by a
process that runs alone leaves the disk as it is.
-/

namespace Xv6.Fs

open Lib Prog Finset List

/-! ## Searching a directory -/

/-- Whether `dirlookup` takes an entry for a name. -/
def hit (name : List UInt8) (e : Dirent) : Bool := e.inum ≠ 0 && namecmp name e.name == 0

/-- The index of the first entry with a name. -/
def lookup (ents : List Dirent) (name : List UInt8) : Option Nat := ents.findIdx? (hit name)

/-- The index at which `dirlink` puts an entry. -/
def freeIndex (ents : List Dirent) : Nat := (ents.findIdx? fun e => e.inum == 0).getD ents.length

theorem freeIndex_le (ents : List Dirent) : freeIndex ents ≤ ents.length := by
  unfold freeIndex
  cases found : ents.findIdx? fun e => e.inum == 0 with
  | none => exact le_rfl
  | some k =>
    obtain ⟨inside, _⟩ := findIdx?_eq_some_iff_getElem.mp found
    exact le_of_lt inside

/-- The offsets of all entries. -/
theorem direntOffsets_eq (count : Nat) :
    direntOffsets 0 (direntSize * count) = (List.range' 0 count).map (direntSize * ·) := by
  have sixteen : direntSize = 16 := rfl
  have whole : (direntSize * count - 0 + (direntSize - 1)) / direntSize = count := by
    rw [sixteen]
    omega
  unfold direntOffsets
  rw [whole, List.range_eq_range']
  simp

section Directory

variable {sb : Superblock} {panics : Panic → Prop} {deadlocks : Nat → Prop}
  {refs : Multiset Nat} {s t : State} {held : List Nat} {dp : Nat} {name : List UInt8}
  {post : Option (Nat × Nat) → State → List Nat → Prop} {e : Dirent} {k count : Nat} {short : Panic}
  {past : List (List Nat)} {known : Finset Nat}

/-- A directory in the cache whose first entries `readi` can read. -/
structure Legible (s : State) (dp count : Nat) : Prop where
  type : (s.inode dp).copy.type = .dir
  synced : s.Synced dp
  size : (s.inode dp).copy.size ≤ maxFile * bSize
  inside : direntSize * count ≤ (s.inode dp).copy.size
  mapped : ∀ o < direntSize * count, s.disk.Mapped (s.inode dp).inum (o / bSize)

theorem Legible.readDirent_wp {post : Dirent → State → List Nat → Prop}
    (legible : Legible s dp count) (low : k < count)
    (continued : post (s.disk.entry (s.inode dp).inum k) s held) :
    Wp panics deadlocks (readDirent sb dp (direntSize * k) short) post s held := by
  have last : direntSize * k + direntSize ≤ direntSize * count := by
    rw [← Nat.mul_succ]
    exact Nat.mul_le_mul_left _ low
  have inside := legible.inside
  have bound := legible.size
  have limit : maxFile * bSize < 2 ^ 32 := by decide
  simp only [readDirent, readi, wp_bind, wp_get, wp_ite, wp_liftM]
  rw [if_neg (by rw [legible.type]; decide)]
  apply readBlocks_part bound
  · intro o _ upper
    rw [legible.synced.view]
    exact legible.mapped o (by omega)
  · intro refused
    omega
  · intro _
    rw [legible.synced.view, Nat.min_eq_left (by omega)]
    simp only [Disk.bytes_length, if_pos, wp_pure]
    exact continued

/-- A directory in the cache whose entries `readi` can read. -/
structure Listed (s : State) (dp : Nat) : Prop where
  type : (s.inode dp).copy.type = .dir
  synced : s.Synced dp
  sized : s.disk.Sized (s.inode dp).inum
  whole : direntSize ∣ (s.disk.dinode (s.inode dp).inum).size

/-- The entries that `readi` reads. -/
def State.listing (s : State) (dp : Nat) : List Dirent := s.disk.ents (s.inode dp).inum

namespace Listed

variable (listed : Listed s dp)

include listed

theorem size : (s.inode dp).copy.size = direntSize * (s.listing dp).length := by
  rw [← listed.synced, State.listing, Disk.ents_length, Nat.mul_div_cancel' listed.whole]

theorem legible : Legible s dp (s.listing dp).length := by
  have size := listed.size
  refine ⟨listed.type, listed.synced, ?_, le_of_eq size.symm, ?_⟩
  · rw [← listed.synced]
    exact listed.sized.size
  · intro o below
    rw [← size, ← listed.synced] at below
    exact listed.sized.mapped o below

theorem readDirent_wp {post : Dirent → State → List Nat → Prop}
    (found : (s.listing dp)[k]? = some e) (continued : post e s held) :
    Wp panics deadlocks (readDirent sb dp (direntSize * k) short) post s held := by
  have inside : k < (s.listing dp).length := (List.getElem?_eq_some_iff.mp found).1
  apply listed.legible.readDirent_wp inside
  grind [State.listing, Disk.ents_getElem?]

/-- The loop of `dirlookup` from an index on. -/
theorem dirlookupFrom_wp (reach : k + count = (s.listing dp).length)
    (absent : (∀ l e, k ≤ l → (s.listing dp)[l]? = some e → hit name e = false) → post none s held)
    (continued : ∀ l e, k ≤ l → (s.listing dp)[l]? = some e → hit name e = true →
      (∀ j e, k ≤ j → j < l → (s.listing dp)[j]? = some e → hit name e = false) →
      Act.Ok panics (iget (s.inode dp).dev e.inum)
        (fun ip t => post (some (ip, direntSize * l)) t held) s) :
    Wp panics deadlocks
      (dirlookupFrom sb dp name ((List.range' k count).map (direntSize * ·))) post s held := by
  induction count generalizing k with
  | zero =>
    apply absent
    intro l e behind found
    have inside := (List.getElem?_eq_some_iff.mp found).1
    omega
  | succ count ih =>
    obtain ⟨e, found⟩ : ∃ e, (s.listing dp)[k]? = some e :=
      ⟨_, getElem?_eq_getElem (by omega)⟩
    have later : ∀ l e', k ≤ l → (s.listing dp)[l]? = some e' → hit name e = false →
        (∀ l e, k + 1 ≤ l → (s.listing dp)[l]? = some e → hit name e = false) →
        hit name e' = false := by
      intro l e' from_k at_l missed rest
      by_cases first : l = k
      · subst first
        rw [found] at at_l
        rw [← Option.some.inj at_l]
        exact missed
      · exact rest l e' (by omega) at_l
    -- an entry that is no hit leaves the search to the entries behind it
    have next : hit name e = false → Wp panics deadlocks
        (dirlookupFrom sb dp name ((List.range' (k + 1) count).map (direntSize * ·)))
        post s held := by
      intro missed
      apply ih (by omega)
      · exact fun rest => absent fun l e' from_k at_l => later l e' from_k at_l missed rest
      · grind
    simp only [List.range'_succ, List.map_cons, dirlookupFrom, wp_bind]
    apply listed.readDirent_wp found
    simp only [wp_ite, wp_bind, wp_get, wp_liftM, wp_pure]
    grind [hit]

theorem dirlookup_wp (absent : lookup (s.listing dp) name = none → post none s held)
    (continued : ∀ k e, lookup (s.listing dp) name = some k → (s.listing dp)[k]? = some e →
      e.inum ≠ 0 → Act.Ok panics (iget (s.inode dp).dev e.inum)
        (fun ip t => post (some (ip, direntSize * k)) t held) s) :
    Wp panics deadlocks (dirlookup sb dp name) post s held := by
  simp only [dirlookup, wp_bind, wp_get, wp_ite]
  rw [if_neg (by rw [listed.type]; decide), listed.size, direntOffsets_eq]
  apply listed.dirlookupFrom_wp (zero_add _)
  all_goals grind [lookup, getElem?_of_mem, hit, findIdx?_eq_some_iff_getElem]

/-- The second loop of `dirlink` from an index on. -/
theorem dirlinkFrom_wp {post : Nat → State → List Nat → Prop}
    (reach : k + count = (s.listing dp).length)
    (before : ∀ l e, l < k → (s.listing dp)[l]? = some e → e.inum ≠ 0)
    (continued : post (direntSize * freeIndex (s.listing dp)) s held) :
    Wp panics deadlocks (dirlinkFrom sb dp (direntSize * (s.listing dp).length)
      ((List.range' k count).map (direntSize * ·))) post s held := by
  induction count generalizing k with
  | zero =>
    have none : (s.listing dp).findIdx? (fun e => e.inum == 0) = none := by
      rw [findIdx?_eq_none_iff]
      intro e member
      obtain ⟨l, at_l⟩ := getElem?_of_mem member
      have inside := (List.getElem?_eq_some_iff.mp at_l).1
      simpa using before l e (by omega) at_l
    rw [freeIndex, none] at continued
    exact continued
  | succ count ih =>
    obtain ⟨e, found⟩ : ∃ e, (s.listing dp)[k]? = some e :=
      ⟨_, getElem?_eq_getElem (by omega)⟩
    obtain ⟨inside, value⟩ := List.getElem?_eq_some_iff.mp found
    simp only [List.range'_succ, List.map_cons, dirlinkFrom, wp_bind]
    apply listed.readDirent_wp found
    simp only [wp_ite, wp_pure]
    split
    · rename_i free
      have first : (s.listing dp).findIdx? (fun e => e.inum == 0) = some k := by
        rw [findIdx?_eq_some_iff_getElem]
        refine ⟨inside, by simp [value, free], ?_⟩
        intro j below
        simpa using before j _ below (getElem?_eq_getElem (by omega))
      rw [freeIndex, first] at continued
      exact continued
    grind

end Listed

/-- A directory that is locked: its entries are the bytes that `readi` returns. -/
structure Opened (sb : Superblock) (refs : Multiset Nat) (s : State) (dp : Nat) : Prop where
  cached : Cached sb refs s
  member : dp ∈ refs
  valid : (s.inode dp).valid = true
  kind : (s.disk.node sb (s.inode dp).inum).kind = .dir

/-- The entries of a directory in the cache. -/
def State.dirents (sb : Superblock) (s : State) (dp : Nat) : List Dirent :=
  (s.disk.node sb (s.inode dp).inum).ents

namespace Opened

variable (opened : Opened sb refs s dp) {later : Multiset Nat}

include opened

theorem type : (s.inode dp).copy.type = .dir := by
  rw [opened.cached.copy_type opened.member opened.valid]
  exact opened.kind

theorem dinode : s.disk.dinode (s.inode dp).inum = (s.inode dp).copy :=
  (opened.cached.valid dp opened.member opened.valid).1

theorem ents : s.dirents sb dp = s.disk.ents (s.inode dp).inum := by
  apply Disk.node_dir (opened.cached.alloc opened.member opened.valid)
  rw [opened.dinode]
  exact opened.type

theorem size : (s.inode dp).copy.size = direntSize * (s.dirents sb dp).length := by
  rw [opened.ents, ← opened.dinode]
  apply opened.cached.sound.size_eq (opened.cached.alloc opened.member opened.valid)
  rw [opened.dinode]
  exact opened.type

theorem listed : Listed s dp := by
  have isAlloc := opened.cached.alloc opened.member opened.valid
  refine ⟨opened.type, opened.dinode, opened.cached.sound.sized _ isAlloc, ?_⟩
  apply opened.cached.sound.whole _ isAlloc
  rw [opened.dinode]
  exact opened.type

theorem named (member : e ∈ s.dirents sb dp) : e.inum < sb.ninodes := by
  rw [opened.ents] at member
  refine opened.cached.sound.named _ (opened.cached.alloc opened.member opened.valid) ?_ e member
  rw [opened.dinode]
  exact opened.type

/-- Other work of the process leaves the directory as it is. -/
theorem quiet (quiet : Quiet sb refs later s t) (member : dp ∈ later) : Opened sb later t dp where
  cached := quiet.cached
  member := member
  valid := quiet.valid opened.member opened.valid
  kind := by
    rw [quiet.disk, quiet.inum opened.member]
    exact opened.kind

theorem ents_quiet (quiet : Quiet sb refs later s t) : t.dirents sb dp = s.dirents sb dp := by
  unfold State.dirents
  rw [quiet.disk, quiet.inum opened.member]

end Opened

theorem readDirent_wp {post : Dirent → State → List Nat → Prop} (opened : Opened sb refs s dp)
    (found : (s.dirents sb dp)[k]? = some e) (continued : post e s held) :
    Wp panics deadlocks (readDirent sb dp (direntSize * k) short) post s held := by
  rw [opened.ents] at found
  exact opened.listed.readDirent_wp found continued

theorem dirlookup_wp (slots : Slots panics refs 1) (opened : Opened sb refs s dp)
    (absent : lookup (s.dirents sb dp) name = none → post none s held)
    (continued : ∀ k e ip t, lookup (s.dirents sb dp) name = some k →
      (s.dirents sb dp)[k]? = some e → e.inum ≠ 0 → Quiet sb refs (ip ::ₘ refs) s t →
      (t.inode ip).inum = e.inum → post (some (ip, direntSize * k)) t held) :
    Wp panics deadlocks (dirlookup sb dp name) post s held := by
  have ents := opened.ents
  rw [ents] at absent continued
  refine opened.listed.dirlookup_wp absent fun k e found entry used => ?_
  rw [(opened.cached.inum dp opened.member).1]
  have member : e ∈ s.dirents sb dp := ents ▸ mem_of_getElem? entry
  apply iget_ok slots opened.cached (Nat.pos_of_ne_zero used) (opened.named member)
  exact fun ip t quiet inum => continued k e ip t found entry used quiet inum

/-- The places that the block of an entry is found at. -/
def entryPlaces (k : Nat) : Finset Nat := placesOf (direntSize * k / bSize)

/-- How many blocks a directory lacks for an entry. -/
def State.lacks (s : State) (dp k : Nat) : Nat := missing (entryPlaces k) (s.addr dp)

theorem card_entryPlaces (k : Nat) : (entryPlaces k).card ≤ 2 := by
  unfold entryPlaces placesOf
  split
  · rw [Finset.card_singleton]
    decide
  · exact card_le_two

theorem State.lacks_le (s : State) (dp k : Nat) : s.lacks dp k ≤ 2 :=
  (card_filter_le ..).trans (card_entryPlaces k)

/-- The bytes of an entry are in one block. -/
theorem entry_div {o : Nat} (lower : direntSize * k ≤ o) (upper : o < direntSize * k + direntSize) :
    o / bSize = direntSize * k / bSize := by
  unfold direntSize dirSiz bSize at *
  omega

/-- Writing an entry of a directory. -/
theorem writeDirent_wp {more m : Nat} {post : Option Nat → State → List Nat → Prop}
    (valid : sb.Valid) (ledger : Ledger sb panics past known (2 + more) s)
    (here : sb.iblock (s.inode dp).inum ∈ known)
    (stock : panics .outOfBlocks ∨ s.lacks dp k + m ≤ s.disk.freeBlocks sb)
    (opened : Opened sb refs s dp) (length : e.name.length = dirSiz) (named : e.inum < sb.ninodes)
    (inside : k ≤ (s.dirents sb dp).length)
    (refused : k = (s.dirents sb dp).length → maxFile * bSize < direntSize * (k + 1) →
      post none s held)
    (continued : ∀ t larger, Changed sb refs (s.inode dp).inum
      { s.disk.node sb (s.inode dp).inum with ents := setEnt (s.dirents sb dp) k e } s t →
      known ⊆ larger → Ledger sb panics past larger more t →
      (panics .outOfBlocks ∨ m ≤ t.disk.freeBlocks sb) → post (some direntSize) t held) :
    Wp panics deadlocks (writei sb dp (direntSize * k) e.encode) post s held := by
  have isAlloc := opened.cached.alloc opened.member opened.valid
  have sized := opened.cached.sound.sized _ isAlloc
  have encoded := Dirent.encode_length length
  have size := opened.size
  have bound : (s.inode dp).copy.size ≤ maxFile * bSize := by
    rw [← opened.dinode]
    exact sized.size
  have card := card_entryPlaces k
  have funds : Funds sb panics past known (entryPlaces k) (entryPlaces k) more m dp s :=
    .of_ledger (ledger.mono (Finset.Subset.refl _) (by omega)) (Finset.Subset.refl _) stock
  have among : ∀ o, direntSize * k ≤ o → o < direntSize * k + e.encode.length →
      placesOf (o / bSize) ⊆ entryPlaces k := by
    intro o lower upper
    rw [encoded] at upper
    rw [entry_div lower upper, entryPlaces]
  simp only [writei, wp_bind, wp_get, wp_ite, wp_liftM]
  rw [if_neg (by rw [opened.type]; decide)]
  apply writeBlocks_ok valid funds here among opened.cached.sound.owned opened.dinode isAlloc sized
  · intro reason
    rw [encoded, ← Nat.mul_succ] at reason
    by_cases below : k + 1 ≤ (s.dirents sb dp).length
    · have first := Nat.mul_le_mul_left direntSize inside
      have last := Nat.mul_le_mul_left direntSize below
      rw [Nat.succ_eq_add_one] at reason
      omega
    grind
  · intro t _ _ updated later
    rw [encoded]
    rw [opened.ents] at inside
    refine continued t _ ?_ subset_union_left later.ledger ?_
    · exact opened.cached.updated_dir valid opened.member opened.valid opened.type length named
        inside updated
    · exact later.stock.imp_right fun enough => by omega

/-- `dirlink` by a process that runs alone. -/
theorem dirlink_wp {more m : Nat} {inum : Nat} {post : Bool → State → List Nat → Prop}
    (valid : sb.Valid) (slots : Slots panics refs 1)
    (ledger : Ledger sb panics past known (2 + more) s) (here : sb.iblock (s.inode dp).inum ∈ known)
    (stock : lookup (s.dirents sb dp) name = none → panics .outOfBlocks ∨
      s.lacks dp (freeIndex (s.dirents sb dp)) + m ≤ s.disk.freeBlocks sb)
    (room : lookup (s.dirents sb dp) name = none → panics .dirlink ∨
      direntSize * (freeIndex (s.dirents sb dp) + 1) ≤ maxFile * bSize)
    (opened : Opened sb refs s dp) (kept : Kept sb refs s) (named : inum < sb.ninodes)
    (owned : ∀ ip ∈ held, ip ∈ refs)
    (busy : ∀ k e ip, lookup (s.dirents sb dp) name = some k → (s.dirents sb dp)[k]? = some e →
      ip ∈ held → (s.inode ip).inum = e.inum → deadlocks ip)
    (present : ∀ k e t, lookup (s.dirents sb dp) name = some k → (s.dirents sb dp)[k]? = some e →
      (∀ ip ∈ held, (s.inode ip).inum ≠ e.inum) → Quiet sb refs refs s t → post false t held)
    (added : ∀ t larger, lookup (s.dirents sb dp) name = none → Changed sb refs (s.inode dp).inum
      { s.disk.node sb (s.inode dp).inum with
        ents := setEnt (s.dirents sb dp) (freeIndex (s.dirents sb dp))
          ⟨inum, strncpy name dirSiz⟩ } s t →
      known ⊆ larger → Ledger sb panics past larger more t →
      (panics .outOfBlocks ∨ m ≤ t.disk.freeBlocks sb) → post true t held) :
    Wp panics deadlocks (dirlink sb dp name inum) post s held := by
  simp only [dirlink, wp_bind]
  apply dirlookup_wp slots opened
  · intro absent
    simp only [wp_bind, wp_get]
    rw [opened.listed.size, direntOffsets_eq, length_map, List.length_range']
    apply opened.listed.dirlinkFrom_wp (zero_add _)
    · exact fun l e below => absurd below (Nat.not_lt_zero l)
    · rw [State.listing, ← opened.ents]
      apply writeDirent_wp valid ledger here (stock absent) opened (strncpy_length ..) named
        (freeIndex_le _)
      · intro _ beyond
        exact (room absent).resolve_right (not_le.mpr beyond)
      · intro t larger changed
        simp only [if_pos, wp_pure]
        exact added t larger absent changed
  · intro k e ip t found entry _ got same
    simp only [wp_bind, wp_pure]
    have locked : ∀ jp ∈ held, (s.inode jp).inum = e.inum → jp = ip := by
      intro jp member equal
      apply got.cached.once jp (Multiset.mem_cons_of_mem (owned jp member)) ip
        (Multiset.mem_cons_self ip refs)
      rw [got.inum (owned jp member), equal, same]
    apply iput_quiet valid got.cached (kept.quiet got)
    · intro member
      refine busy k e ip found entry member ?_
      rw [← got.inum (owned ip member), same]
    · intro unlocked u dropped
      refine present k e u found entry ?_ (got.andThen dropped)
      exact fun jp member equal => unlocked (locked jp member equal ▸ member)

end Directory

/-! ## Walking a path -/

/-- The entry at an index. -/
def entAt (ents : List Dirent) (k : Nat) : Dirent := ents.getD k ⟨0, []⟩

/-- The loop of `namex` on the nodes: the inode number that it ends at and the last element. -/
def walk (tree : Nat → Node) (nameiparent : Bool) :
    Nat → Nat → List UInt8 → List UInt8 → Option (Nat × List UInt8)
  | 0, i, _, name => if nameiparent then none else some (i, name)
  | fuel + 1, i, path, name =>
    match skipelem path with
    | none => if nameiparent then none else some (i, name)
    | some (name, rest) =>
      if (tree i).kind ≠ .dir then none
      else if nameiparent ∧ rest = [] then some (i, name)
      else
        match lookup (tree i).ents name with
        | none => none
        | some k => walk tree nameiparent fuel (entAt (tree i).ents k).inum rest name

/-- Where a path starts. -/
def startOf (cwd : Nat) (path : List UInt8) : Nat :=
  if path.head? = some slash then rootIno else cwd

/-- What a path stands for, from a current directory. -/
def resolve (tree : Nat → Node) (nameiparent : Bool) (cwd : Nat) (path : List UInt8) :
    Option (Nat × List UInt8) :=
  walk tree nameiparent path.length (startOf cwd path) path []

/-- Every entry in use names an inode that is not free. -/
def NoDangling (tree : Nat → Node) : Prop :=
  ∀ d, (tree d).kind = .dir → ∀ e ∈ (tree d).ents, e.inum ≠ 0 → (tree e.inum).kind ≠ .free

/-- Path lookup meets no free inode, or the panic is expected. -/
def Typed (sb : Superblock) (panics : Panic → Prop) (cwd : Nat) (s : State) : Prop :=
  panics .noType ∨ NoDangling (s.disk.node sb) ∧
    ∀ i, i = rootIno ∨ i = cwd → (s.disk.node sb i).kind ≠ .free

section Path

variable {sb : Superblock} {panics : Panic → Prop} {deadlocks : Nat → Prop}
  {refs : Multiset Nat} {s : State} {post : Option (Nat × List UInt8) → State → List Nat → Prop}
  {parent : Bool} {name : List UInt8} {path : List UInt8} {p i ip fuel : Nat}

/-- An inode without a type is free. -/
theorem dinode_free (free : (s.disk.dinode i).type = .free) : (s.disk.node sb i).kind = .free := by
  rw [Disk.node, if_neg fun isAlloc => isAlloc.2.2 free]
  rfl

/-- The first lock of a process, on an inode that is in use if that is expected. -/
theorem ilock_typed {post : Unit → State → List Nat → Prop} (cached : Cached sb refs s)
    (member : ip ∈ refs) (used : panics .noType ∨ (s.disk.node sb (s.inode ip).inum).kind ≠ .free)
    (continued : ∀ t, Quiet sb refs refs s t → (t.inode ip).valid = true → post () t [ip]) :
    Wp panics deadlocks (ilock ip) post s [] := by
  apply ilock_wp cached member
  · exact fun free => used.resolve_right fun taken => taken (dinode_free free)
  · exact fun locked => absurd locked (by simp)
  · exact fun _ => continued

/-- `namex` after its loop, by a process that runs alone. -/
theorem namexEnd_wp (valid : sb.Valid) (cached : Cached sb (ip ::ₘ refs) s) (kept : Kept sb refs s)
    (failed : ∀ t, (if parent then none else some ((s.inode ip).inum, name)) = none →
      Quiet sb refs refs s t → post none t [])
    (found : ∀ jp last t, (if parent then none else some ((s.inode ip).inum, name)) =
        some ((t.inode jp).inum, last) → Quiet sb refs (jp ::ₘ refs) s t →
      (parent = true → Opened sb (jp ::ₘ refs) t jp) → post (some (jp, last)) t []) :
    Wp panics deadlocks (namexEnd sb ip parent name) post s [] := by
  simp only [namexEnd, wp_ite, wp_bind, wp_pure]
  cases parent with
  | true =>
    grind [iput_quiet]
  | false =>
    rw [if_neg (by decide)]
    exact found ip name s rfl ⟨cached, .refl refs s, rfl, rfl, rfl⟩
      (fun isParent => absurd isParent (by decide))

/-- The loop of `namex` by a process that runs alone. -/
theorem namexFrom_wp (valid : sb.Valid) (slots : Slots panics refs 2)
    (cached : Cached sb (ip ::ₘ refs) s) (kept : Kept sb refs s)
    (typed : panics .noType ∨ NoDangling (s.disk.node sb) ∧
      (s.disk.node sb (s.inode ip).inum).kind ≠ .free)
    (failed : ∀ t, walk (s.disk.node sb) parent fuel (s.inode ip).inum path name = none →
      Quiet sb refs refs s t → post none t [])
    (found : ∀ jp last t,
      walk (s.disk.node sb) parent fuel (s.inode ip).inum path name =
        some ((t.inode jp).inum, last) → Quiet sb refs (jp ::ₘ refs) s t →
      (parent = true → Opened sb (jp ::ₘ refs) t jp) → post (some (jp, last)) t []) :
    Wp panics deadlocks (namexFrom sb parent fuel ip path name) post s [] := by
  induction fuel generalizing s ip path name with
  | zero => exact namexEnd_wp valid cached kept failed found
  | succ fuel ih =>
    have member := Multiset.mem_cons_self ip refs
    have more : ∀ jp ∈ refs, jp ∈ ip ::ₘ refs := fun _ => Multiset.mem_cons_of_mem
    simp only [walk] at failed found
    rw [namexFrom]
    cases element : skipelem path with
    | none =>
      simp only [element] at failed found
      exact namexEnd_wp valid cached kept failed found
    | some pair =>
      obtain ⟨name, rest⟩ := pair
      simp only [element] at failed found
      simp only [wp_bind]
      apply ilock_typed cached member (typed.imp_right fun whole => whole.2)
      intro t locked filled
      have toT : Quiet sb refs (ip ::ₘ refs) s t := locked.of_cons
      have kind := locked.cached.copy_type member filled
      rw [locked.disk, locked.inum member] at kind
      simp only [wp_get, wp_ite, wp_bind, wp_pure]
      by_cases isDir : (t.inode ip).copy.type = .dir
      · have isDir' : ¬ (s.disk.node sb (s.inode ip).inum).kind ≠ .dir := by
          rw [← kind]
          simpa using isDir
        rw [if_neg (by simpa using isDir)]
        simp only [if_neg isDir'] at failed found
        have opened : Opened sb (ip ::ₘ refs) t ip := by
          refine ⟨locked.cached, member, filled, ?_⟩
          rw [← locked.cached.copy_type member filled]
          exact isDir
        by_cases last : parent = true ∧ rest = []
        · rw [if_pos last]
          simp only [if_pos last] at found
          apply iunlock_wp locked.cached member (List.mem_singleton_self ip)
          simp only [List.erase_cons_head]
          refine found ip name t ?_ toT (fun _ => opened)
          rw [locked.inum member]
        · rw [if_neg last]
          simp only [if_neg last] at failed found
          have ents : t.dirents sb ip = (s.disk.node sb (s.inode ip).inum).ents := by
            unfold State.dirents
            rw [locked.disk, locked.inum member]
          apply dirlookup_wp slots.cons opened
          · intro absent
            rw [ents] at absent
            simp only [wp_bind]
            apply iunlockput_quiet valid locked.cached (kept.quiet toT) (by simp)
            intro u given
            simp only [wp_pure]
            apply failed u _ (toT.andThen given)
            rw [absent]
          · intro k e next u here entry used got inum
            rw [ents] at here entry
            have toU : Quiet sb refs (next ::ₘ ip ::ₘ refs) s u := toT.trans got more
            have swapped : Cached sb (ip ::ₘ next ::ₘ refs) u := by
              rw [Multiset.cons_swap]
              exact got.cached
            simp only [wp_bind]
            apply iunlockput_quiet valid swapped (kept.quiet toU).cons (by simp)
            intro v given
            have toV : Quiet sb refs (next ::ₘ refs) s v := toU.andThen given.of_cons
            have nextInum : (v.inode next).inum = e.inum := by
              rw [given.inum (Multiset.mem_cons_self next refs), inum]
            have at_k : entAt (s.disk.node sb (s.inode ip).inum).ents k = e := by
              simp [entAt, getD_eq_getElem?_getD, entry]
            -- what is left of the walk starts from the entry that was found
            have step : walk (s.disk.node sb) parent fuel e.inum rest name =
                walk (v.disk.node sb) parent fuel (v.inode next).inum rest name := by
              rw [toV.disk, nextInum]
            simp only [here, at_k, step] at failed found
            apply ih given.cached (kept.quiet toV)
            · grind [cases Quiet, NoDangling]
            · exact fun w missing upto => failed w missing (toV.andThen upto)
            · exact fun jp last w hit upto => found jp last w hit (toV.andThen upto)
      · rw [if_pos isDir]
        rw [if_pos (by rw [← kind]; exact isDir)] at failed
        apply iunlockput_quiet valid locked.cached (kept.quiet toT) (by simp)
        intro u given
        exact failed u rfl (toT.andThen given)

/-- `namex` by a process that runs alone. -/
theorem namex_wp (valid : sb.Valid) (slots : Slots panics refs 2) (cached : Cached sb refs s)
    (kept : Kept sb refs s) (cwd : (s.proc p).cwd ∈ refs) (typed : Typed sb panics (s.cwdOf p) s)
    (failed : ∀ t, resolve (s.disk.node sb) parent (s.cwdOf p) path = none →
      Quiet sb refs refs s t → post none t [])
    (found : ∀ jp last t, resolve (s.disk.node sb) parent (s.cwdOf p) path =
        some ((t.inode jp).inum, last) → Quiet sb refs (jp ::ₘ refs) s t →
      (parent = true → Opened sb (jp ::ₘ refs) t jp) → post (some (jp, last)) t []) :
    Wp panics deadlocks (namex sb p path parent) post s [] := by
  -- the loop runs from the start that was found
  have loop : ∀ ip t, Quiet sb refs (ip ::ₘ refs) s t →
      (t.inode ip).inum = startOf (s.cwdOf p) path →
      Wp panics deadlocks (namexFrom sb parent path.length ip path []) post t [] := by
    intro ip t got start
    apply namexFrom_wp valid slots got.cached (kept.quiet got)
    · grind [Typed, startOf, cases Quiet]
    · intro u missing upto
      rw [got.disk, start] at missing
      exact failed u missing (got.andThen upto)
    · intro jp last u hit upto
      rw [got.disk, start] at hit
      exact found jp last u hit (got.andThen upto)
  simp only [namex, wp_ite, wp_bind, wp_get, wp_liftM]
  by_cases absolute : path.head? = some slash
  · rw [if_pos absolute]
    apply iget_ok (slots.mono (by decide)) cached le_rfl valid.root
    intro ip t got inum
    apply loop ip t got
    rw [startOf, if_pos absolute, inum]
  · rw [if_neg absolute]
    apply idup_ok cached cwd
    intro t got
    apply loop _ t got
    rw [startOf, if_neg absolute, got.inum cwd, State.cwdOf]

/-- An entry that was found. -/
theorem lookup_some {ents : List Dirent} {k : Nat} (found : lookup ents name = some k) :
    ∃ e, ents[k]? = some e ∧ entAt ents k = e ∧ e.inum ≠ 0 ∧ namecmp name e.name = 0 := by
  obtain ⟨inside, isHit, _⟩ := findIdx?_eq_some_iff_getElem.mp found
  grind [hit, entAt]

/-- A walk ends at an inode that is not free when no entry dangles. -/
theorem walk_used {tree : Nat → Node} (whole : NoDangling tree) {j : Nat} {last : List UInt8}
    (start : (tree i).kind ≠ .free) (found : walk tree parent fuel i path name = some (j, last)) :
    (tree j).kind ≠ .free := by
  induction fuel generalizing i path name with
  | zero =>
    grind [walk]
  | succ fuel ih =>
    grind [walk, lookup_some, NoDangling]

/-- The lock of an open directory. -/
theorem Opened.ilock_wp {dp : Nat} {held : List Nat} {post : Unit → State → List Nat → Prop}
    (dir : Opened sb refs s dp) (unlocked : dp ∉ held)
    (continued : ∀ t, Quiet sb refs refs s t → Opened sb refs t dp → post () t (dp :: held)) :
    Wp panics deadlocks (ilock dp) post s held := by
  apply Fs.ilock_wp dir.cached dir.member
  · exact fun free => absurd free (dir.cached.alloc dir.member dir.valid).2.2
  · exact fun locked => absurd locked unlocked
  · exact fun _ t locked _ => continued t locked (dir.quiet locked dir.member)

/-- `nameiparent` returns a directory that can be locked. -/
theorem nameiparent_wp (valid : sb.Valid) (slots : Slots panics refs 2)
    (cached : Cached sb refs s) (kept : Kept sb refs s) (cwd : (s.proc p).cwd ∈ refs)
    (typed : Typed sb panics (s.cwdOf p) s)
    (failed : ∀ t, resolve (s.disk.node sb) true (s.cwdOf p) path = none →
      Quiet sb refs refs s t → post none t [])
    (found : ∀ dp name d t, resolve (s.disk.node sb) true (s.cwdOf p) path = some (d, name) →
      (∀ {next : Unit → State → List Nat → Prop}, (∀ u, Quiet sb refs (dp ::ₘ refs) s u →
        Opened sb (dp ::ₘ refs) u dp → (u.inode dp).inum = d → next () u [dp]) →
        Wp panics deadlocks (ilock dp) next t []) → post (some (dp, name)) t []) :
    Wp panics deadlocks (nameiparent sb p path) post s [] := by
  rw [nameiparent]
  apply namex_wp valid slots cached kept cwd typed failed
  intro dp name t resolved quiet opened
  refine found dp name _ t resolved fun continued => (opened rfl).ilock_wp (by simp) ?_
  exact fun u locked dir =>
    continued u (quiet.andThen locked.of_cons) dir (locked.inum (opened rfl).member)

/-- `namei` by a process that runs alone. -/
theorem namei_wp (valid : sb.Valid) (slots : Slots panics refs 2)
    {post : Option Nat → State → List Nat → Prop} (cached : Cached sb refs s)
    (kept : Kept sb refs s) (cwd : (s.proc p).cwd ∈ refs) (typed : Typed sb panics (s.cwdOf p) s)
    (failed : ∀ t, resolve (s.disk.node sb) false (s.cwdOf p) path = none →
      Quiet sb refs refs s t → post none t [])
    (found : ∀ ip last t, resolve (s.disk.node sb) false (s.cwdOf p) path =
        some ((t.inode ip).inum, last) → Quiet sb refs (ip ::ₘ refs) s t →
      (panics .noType ∨ (t.disk.node sb (t.inode ip).inum).kind ≠ .free) →
      post (some ip) t []) : Wp panics deadlocks (namei sb p path) post s [] := by
  simp only [namei, wp_bind]
  apply namex_wp valid slots cached kept cwd typed
  · exact fun t missing quiet => failed t missing quiet
  · intro ip last t resolved quiet _
    refine found ip last t resolved quiet (typed.imp_right fun whole => ?_)
    rw [quiet.disk]
    refine walk_used whole.1 (whole.2 _ ?_) resolved
    unfold startOf
    split
    · exact .inl rfl
    · exact .inr rfl

end Path

end Xv6.Fs
