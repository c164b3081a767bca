import Xv6.Fs.Table

/-!
# What a call does to the name space

Every completed call of a process that runs alone makes at most one change to the nodes and then
takes and drops references. `AtRest` is the law of the state between two calls.
-/

namespace Xv6.Fs

open Function Lib Prog Multiset List

/-- Between two calls. -/
structure AtRest (sb : Superblock) (s : State) : Prop where
  counted : Counted sb s.cwds s.fds s
  idle : s.Idle
  vacant : Vacant s.proc
  home : ∀ ip ∈ s.cwds, (s.disk.node sb (s.inode ip).inum).kind = .dir

/-- The references between two calls. -/
def State.users (s : State) : Multiset Nat := s.cwds + s.opens

/-- The name space between two calls. -/
def State.here (sb : Superblock) (s : State) : World := s.world sb s.users

/-- The calls that create a node, with the path and the type. -/
def Call.Creates : Call → List UInt8 → FileType → Prop
  | .open path omode, other, type => other = path ∧ omode &&& oCreate ≠ 0 ∧ type = .file
  | .mkdir path, other, type => other = path ∧ type = .dir
  | .mknod path _ _, other, type => other = path ∧ type = .dev
  | _, _, _ => False

/-- The call creates a node, and its name is new to the directory to which its path leads. -/
def Call.Adds (tree : Nat → Node) (cwd : Nat) (call : Call) : Prop :=
  ∃ path type d name, call.Creates path type ∧ resolve tree true cwd path = some (d, name) ∧
    lookup (tree d).ents name = none

/-- The calls on names. -/
def Call.NameSpace : Call → Prop
  | .open _ _ | .link _ _ | .unlink _ | .mkdir _ | .mknod _ _ _ | .chdir _ => True
  | _ => False

variable {tree : Nat → Node} {cwd i : Nat}

theorem Call.not_adds {call : Call} (creates : ∀ path type, ¬ call.Creates path type) :
    ¬ call.Adds tree cwd := by
  rintro ⟨path, type, d, name, concerns, -⟩
  exact creates path type concerns

theorem Call.Creates.path_eq {call : Call} {path other : List UInt8} {type kind : FileType}
    (concerns : call.Creates path type) (also : call.Creates other kind) : other = path := by
  cases call with
  | «open» _ _ | mkdir _ | mknod _ _ _ => exact also.1.trans concerns.1.symm
  | _ => exact absurd concerns id

/-- A name that is there is not added. -/
theorem Taken.not_adds {call : Call} {path : List UInt8} {type : FileType}
    (taken : Taken tree cwd path) (concerns : call.Creates path type) : ¬ call.Adds tree cwd := by
  rintro ⟨other, kind, d, name, also, resolved, absent⟩
  obtain rfl := concerns.path_eq also
  exact taken d name resolved absent

/-- The change of the nodes that a call makes. -/
inductive TreeOp (sb : Superblock) (cwd : Nat) (call : Call) (world : World) :
    (Nat → Node) → Prop where
  | same : TreeOp sb cwd call world world.tree
  | create {path name : List UInt8} {type : FileType} {d i : Nat}
      (concerns : call.Creates path type)
      (resolved : resolve world.tree true cwd path = some (d, name))
      (isDir : (world.tree d).kind = .dir) (absent : lookup (world.tree d).ents name = none)
      (inside : rootIno ≤ i ∧ i < sb.ninodes) (free : (world.tree i).kind = .free) :
      TreeOp sb cwd call world (settle world.used (createTree world.tree d i name type) d)
  | link {old new last name : List UInt8} {d i : Nat} (concerns : call = .link old new)
      (source : resolve world.tree false cwd old = some (i, last))
      (used : (world.tree i).kind ≠ .free) (plain : (world.tree i).kind ≠ .dir)
      (resolved : resolve world.tree true cwd new = some (d, name))
      (isDir : (world.tree d).kind = .dir) (absent : lookup (world.tree d).ents name = none) :
      TreeOp sb cwd call world
        (settle world.used (settle world.used (linkTree world.tree d i name) d) i)
  | unlink {path name : List UInt8} {d k : Nat} {e : Dirent} (concerns : call = .unlink path)
      (resolved : resolve world.tree true cwd path = some (d, name))
      (isDir : (world.tree d).kind = .dir) (notDot : namecmp name dot ≠ 0)
      (notDotdot : namecmp name dotdot ≠ 0) (found : lookup (world.tree d).ents name = some k)
      (entry : (world.tree d).ents[k]? = some e) (nonzero : e.inum ≠ 0) (apart : e.inum ≠ d)
      (used : (world.tree e.inum).kind ≠ .free) (linked : 1 ≤ (world.tree e.inum).nlink)
      (empty : (world.tree e.inum).kind = .dir → isEmptyDir (world.tree e.inum).ents = true) :
      TreeOp sb cwd call world
        (settle world.used (settle world.used (unlinkTree world.tree d k e.inum) d) e.inum)

/-- What a completed call of process `p` did. -/
def Effect (sb : Superblock) (p : Nat) (call : Call) (s t : State) : Prop :=
  ∃ tree, TreeOp sb (s.inode (s.proc p).cwd).inum call (s.here sb) tree ∧
    Relation.ReflTransGen Shift ⟨tree, (s.here sb).used⟩ (t.here sb)

/-- The inodes in use stay what they are. -/
theorem TreeOp.kind {sb : Superblock} {call : Call} {world : World}
    (op : TreeOp sb cwd call world tree) {n : Nat} (member : n ∈ world.used)
    (live : (world.tree n).kind ≠ .free) : (tree n).kind = (world.tree n).kind := by
  cases op with
  | same => rfl
  | @create path name type d i concerns resolved isDir absent inside free =>
    have other : n ≠ i := fun same => live (same ▸ free)
    rw [settle_mem member, createTree, update_apply]
    split
    · rename_i here
      rw [here, named]
      split <;> rfl
    · rw [update_of_ne other]
  | @link old new last name d i concerns source used plain resolved isDir absent =>
    rw [settle_mem member, settle_mem member, linkTree, update_apply]
    split
    · rename_i here
      rw [here]
      rfl
    · rw [update_apply]
      split
      · rename_i here
        rw [here]
        rfl
      · rfl
  | @unlink path name d k e concerns resolved isDir notDot notDotdot found entry nonzero apart used
      linked empty =>
    rw [settle_mem member, settle_mem member, unlinkTree, update_apply]
    split
    · rename_i here
      rw [here]
      rfl
    · rw [update_apply]
      split
      · rename_i here
        rw [here]
        split <;> rfl
      · rfl

theorem settle_node (used : Multiset Nat) (tree : Nat → Node) (i j : Nat) :
    settle used tree i j = tree j ∨ settle used tree i j = .free := by
  unfold settle
  split
  · rw [update_apply]
    split
    · exact .inr rfl
    · exact .inl rfl
  · exact .inl rfl

/-- Taking and dropping references frees inodes and changes no other. -/
theorem Shift.node {start final : World} (shifts : Relation.ReflTransGen Shift start final)
    (i : Nat) : final.tree i = start.tree i ∨ final.tree i = .free := by
  induction shifts with
  | refl => exact .inl rfl
  | tail _ shift ih =>
    cases shift with
    | take j live => exact ih
    | @drop tree used j =>
      cases settle_node used tree j i with
      | inl same => exact ih.imp same.trans same.trans
      | inr freed => exact .inr freed

section Rest

variable {sb : Superblock} {panics : Panic → Prop} {deadlocks : Nat → Prop} {s t : State} {p : Nat}
  {more : Nat} {call : Call} {ip : Nat} {post : Int → State → List Nat → Prop} {path : List UInt8}
  {major minor : Int} {type : FileType}

/-- An inode that was in use is what it was, unless it is free. -/
theorem Effect.kind (effect : Effect sb p call s t) (member : i ∈ (s.here sb).used)
    (live : (s.disk.node sb i).kind ≠ .free) (still : (t.disk.node sb i).kind ≠ .free) :
    (t.disk.node sb i).kind = (s.disk.node sb i).kind := by
  obtain ⟨tree, op, shifts⟩ := effect
  cases Shift.node shifts i with
  | inl same => exact (congrArg Node.kind same).trans (op.kind member live)
  | inr freed => exact absurd (congrArg Node.kind freed) still

/-- A call that leads to no other current directory. -/
theorem AtRest.next (rest : AtRest sb s) (counted : Counted sb t.cwds t.fds t) (idle : t.Idle)
    (vacant : Vacant t.proc) (effect : Effect sb p call s t)
    (same : ∀ ip ∈ t.cwds, ip ∈ s.cwds ∧ (t.inode ip).inum = (s.inode ip).inum) : AtRest sb t := by
  refine ⟨counted, idle, vacant, ?_⟩
  intro ip member
  obtain ⟨before, inum⟩ := same ip member
  have user : ip ∈ s.cwds + s.opens := mem_add.mpr (.inl before)
  have still := counted.live ip (mem_add.mpr (.inl member))
  rw [inum] at still ⊢
  rw [effect.kind (Multiset.mem_map.mpr ⟨ip, user, rfl⟩) (rest.counted.live ip user) still]
  exact rest.home ip before

theorem AtRest.cached (rest : AtRest sb s) : Cached sb s.users s := rest.counted.cached

theorem AtRest.kept (rest : AtRest sb s) : Kept sb s.users s := rest.counted.kept

theorem AtRest.cwd_mem_cwds (inside : p < nProc) (live : (s.proc p).live = true) :
    (s.proc p).cwd ∈ s.cwds := by
  rw [State.cwds, mem_tally]
  refine ⟨p, inside, ?_⟩
  rw [Proc.cwds, if_pos live]
  exact Multiset.mem_singleton_self _

theorem AtRest.cwd_mem (inside : p < nProc) (live : (s.proc p).live = true) :
    (s.proc p).cwd ∈ s.users :=
  mem_add.mpr (.inl (cwd_mem_cwds inside live))

/-- Work that leaves the tables. -/
theorem AtRest.after (rest : AtRest sb s) (work : Work sb s.users s.users s t) (idle : t.Idle)
    (kinds : ∀ n ∈ (s.here sb).used, (s.disk.node sb n).kind ≠ .free →
      (t.disk.node sb n).kind = (s.disk.node sb n).kind) :
    AtRest sb t ∧ t.here sb = ⟨t.disk.node sb, (s.here sb).used⟩ := by
  have steady := work.steady
  have opens : t.opens = s.opens := opens_eq steady.file
  have cwds : t.cwds = s.cwds := by
    unfold State.cwds
    rw [steady.proc]
  have fds : t.fds = s.fds := by
    unfold State.fds
    rw [steady.proc]
  have users : t.users = s.users := by
    unfold State.users
    rw [cwds, opens]
  have live : ∀ ip ∈ s.users, (t.disk.node sb (s.inode ip).inum).kind =
      (s.disk.node sb (s.inode ip).inum).kind :=
    fun ip member => kinds _ (Multiset.mem_map.mpr ⟨ip, member, rfl⟩)
      (rest.counted.live ip member)
  refine ⟨⟨?_, idle, by rw [steady.proc]; exact rest.vacant, ?_⟩, ?_⟩
  · rw [cwds, fds]
    refine rest.counted.after ?_ ?_ steady.file steady.pipe ?_ ?_ ?_
    · rw [opens]
      exact work.cached
    · rw [opens]
      exact work.kept
    · exact fun ip member => steady.inum ip (mem_add.mpr (.inr member))
    · exact fun ip member => live ip (mem_add.mpr (.inr member))
    · intro ip member
      have among : ip ∈ s.users := mem_add.mpr (.inl member)
      rw [steady.inum ip among, live ip among]
      exact rest.counted.live ip among
  · intro ip member
    rw [cwds] at member
    have among : ip ∈ s.users := mem_add.mpr (.inl member)
    rw [steady.inum ip among, live ip among]
    exact rest.home ip member
  · unfold State.here State.world
    rw [users, inums_congr (fun _ among => among) steady]

/-- What the calls may run out of, with room for `more` blocks in the log left to each
transaction. -/
structure Means (sb : Superblock) (panics : Panic → Prop) (more : Nat) : Prop where
  scarce : Scarce panics
  capacity : Capacity sb panics (8 + more)

theorem Means.of_full (full : ∀ error, Panic.Exhausted error → panics error) (more : Nat) :
    Means sb panics more :=
  ⟨.of_full full, .of_full full _⟩

/-- A call has returned `r`. If it is a call on names and has failed, the disk is as it was, unless
the call has added a name. -/
structure Served (sb : Superblock) (panics : Panic → Prop) (more p : Nat) (call : Call) (s : State)
    (r : Int) (t : State) : Prop where
  rest : AtRest sb t
  effect : Effect sb p call s t
  fits : Fits sb panics s.commits more t
  failed : call.NameSpace → r = -1 →
    t.disk = s.disk ∧ ¬ call.Adds (s.disk.node sb) (s.inode (s.proc p).cwd).inum ∨
    call.Adds (s.disk.node sb) (s.inode (s.proc p).cwd).inum ∧ t.disk.node sb ≠ s.disk.node sb

/-- A call that leaves the disk and the tables. -/
theorem AtRest.unchanged (r : Int) (rest : AtRest sb s) (unchanged : Unchanged sb s.users s t)
    (idle : t.Idle) (fits : Fits sb panics s.commits more t)
    (none : ¬ call.Adds (s.disk.node sb) (s.cwdOf p)) :
    Served sb panics more p call s r t := by
  obtain ⟨later, here⟩ := rest.after unchanged.toWork idle
    (fun _ _ _ => by rw [unchanged.disk])
  refine ⟨later, ⟨(s.here sb).tree, .same, ?_⟩, fits, fun _ _ => .inl ⟨unchanged.disk, none⟩⟩
  rw [here, unchanged.disk]
  exact .refl

/-- A call that changes the nodes and leaves the tables. -/
theorem AtRest.changed {r : Int} (rest : AtRest sb s) (work : Work sb s.users s.users s t)
    (idle : t.Idle) (fits : Fits sb panics s.commits more t)
    (op : TreeOp sb (s.cwdOf p) call (s.here sb) tree)
    (result : t.disk.node sb = tree) (done : r ≠ -1) : Served sb panics more p call s r t := by
  obtain ⟨later, here⟩ := rest.after work idle
    (fun n member live => by rw [result]; exact op.kind member live)
  refine ⟨later, ⟨tree, op, ?_⟩, fits, fun _ failed => absurd failed done⟩
  rw [here, result]

/-- `sys_unlink` between two calls. -/
theorem unlink_rest (means : Means sb panics more) (valid : sb.Valid) (rest : AtRest sb s)
    (inside : p < nProc) (live : (s.proc p).live = true)
    (typed : Typed sb panics (s.cwdOf p) s) (counted : panics .nlink)
    (loops : (∀ ip, deadlocks ip) ∨ NoSelf (s.disk.node sb))
    (continued : ∀ r t, Served sb panics more p (.unlink path) s r t → post r t []) :
    Wp panics deadlocks (sysUnlink sb p path) post s [] := by
  have capacity : Capacity sb panics (4 + more) := means.capacity.mono (by omega)
  apply sysUnlink_wp valid (.inl means.scarce.slots) means.scarce.blocks capacity rest.idle
    rest.cached rest.kept (AtRest.cwd_mem inside live) typed counted loops
  · intro t unchanged idle fits
    exact continued _ t (rest.unchanged _ unchanged idle fits (Call.not_adds fun _ _ => id))
  · intro t unlinked idle fits
    obtain ⟨d, name, k, e, resolved, isDir, notDot, notDotdot, found, entry, nonzero, apart, used,
      linked, empty, tree⟩ := unlinked.tree
    rw [inums_congr (fun _ among => among) unlinked.steady] at tree
    have op : TreeOp sb (s.cwdOf p) (.unlink path) (s.here sb) _ :=
      .unlink rfl resolved isDir notDot notDotdot found entry nonzero apart used linked empty
    exact continued _ t (rest.changed unlinked.toWork idle fits op tree (by decide))

/-- `sys_link` between two calls. -/
theorem link_rest (means : Means sb panics more) (valid : sb.Valid) {old new : List UInt8}
    (room : RoomFor panics (s.disk.node sb) (s.cwdOf p) new)
    (rest : AtRest sb s) (inside : p < nProc) (live : (s.proc p).live = true)
    (typed : Typed sb panics (s.cwdOf p) s)
    (busy : SelfLink (s.disk.node sb) (s.cwdOf p) old new → ∀ ip, deadlocks ip)
    (continued : ∀ r t, Served sb panics more p (.link old new) s r t → post r t []) :
    Wp panics deadlocks (sysLink sb p old new) post s [] := by
  have capacity : Capacity sb panics (4 + more) := means.capacity.mono (by omega)
  apply sysLink_wp valid (.inl means.scarce.slots) capacity (.inl means.scarce.blocks) room
    rest.idle rest.cached rest.kept (AtRest.cwd_mem inside live) typed busy
  · intro t _ unchanged idle fits
    exact continued _ t (rest.unchanged _ unchanged idle fits (Call.not_adds fun _ _ => id))
  · intro t made idle fits
    obtain ⟨i, last, d, name, source, used, plain, resolved, isDir, absent, tree⟩ := made.tree
    rw [inums_congr (fun _ among => among) made.steady] at tree
    have op : TreeOp sb (s.cwdOf p) (.link old new) (s.here sb) _ :=
      .link rfl source used plain resolved isDir absent
    exact continued _ t (rest.changed made.toWork idle fits op tree (by decide))

/-! ## Calls that hold a new reference -/

/-- A call that has changed the nodes, if at all, and holds a locked inode. -/
structure Holding (sb : Superblock) (p : Nat) (call : Call) (ip : Nat) (s t : State) : Prop
    extends Work sb s.users (ip ::ₘ s.users) s.begun t where
  valid : (t.inode ip).valid = true
  op : TreeOp sb (s.inode (s.proc p).cwd).inum call (s.here sb) (t.disk.node sb)
  origin : t.disk = s.disk ∧ ¬ call.Adds (s.disk.node sb) (s.inode (s.proc p).cwd).inum ∨
    call.Adds (s.disk.node sb) (s.inode (s.proc p).cwd).inum ∧
      ∃ d, d ≠ (t.inode ip).inum ∧ t.disk.node sb d ≠ s.disk.node sb d

namespace Holding

variable {call : Call} {ip : Nat} (holding : Holding sb p call ip s t) {u : State}

include holding

/-- The inode that is held is in use. -/
theorem live : (t.disk.node sb (t.inode ip).inum).kind ≠ .free :=
  Disk.node_alloc (holding.cached.alloc (Multiset.mem_cons_self ip _) holding.valid)

theorem world :
    t.world sb (ip ::ₘ s.cwds + t.opens) =
      ⟨t.disk.node sb, (t.inode ip).inum ::ₘ (s.here sb).used⟩ := by
  unfold State.world
  rw [opens_eq holding.steady.file, cons_add, State.inums, Multiset.map_cons]
  congr 2
  exact inums_congr (s := s.begun) (fun _ among => among) holding.steady

/-- The references while the inode is held. -/
theorem counted (rest : AtRest sb s) : Counted sb (ip ::ₘ s.cwds) s.fds t := by
  have opens : t.opens = s.opens := opens_eq holding.steady.file
  have kinds : ∀ jp ∈ s.users, (t.disk.node sb (s.inode jp).inum).kind =
      (s.disk.node sb (s.inode jp).inum).kind :=
    fun jp among => holding.op.kind (Multiset.mem_map.mpr ⟨jp, among, rfl⟩)
      (rest.counted.live jp among)
  refine rest.counted.after ?_ ?_ holding.steady.file holding.steady.pipe ?_ ?_ ?_
  · rw [opens, cons_add]
    exact holding.cached
  · rw [opens, cons_add]
    exact holding.kept
  · exact fun jp among => holding.steady.inum jp (mem_add.mpr (.inr among))
  · exact fun jp among => kinds jp (mem_add.mpr (.inr among))
  · intro jp among
    cases Multiset.mem_cons.mp among with
    | inl same =>
      rw [same]
      exact holding.live
    | inr other =>
      have user : jp ∈ s.users := mem_add.mpr (.inl other)
      rw [holding.steady.inum jp user]
      show (t.disk.node sb (s.inode jp).inum).kind ≠ .free
      rw [kinds jp user]
      exact rest.counted.live jp user

/-- A call that ends with other references than the inode that it held. -/
theorem effect
    (shifts : Relation.ReflTransGen Shift (t.world sb (ip ::ₘ s.cwds + t.opens)) (u.here sb)) :
    Effect sb p call s u := by
  rw [holding.world] at shifts
  exact ⟨_, holding.op, .head (.take _ holding.live) shifts⟩

/-- When the reference is given up, the disk is as it was unless a name was added. -/
theorem origin_put (rest : AtRest sb s) (put : Put sb s.users ip t u) :
    u.disk = s.disk ∧ ¬ call.Adds (s.disk.node sb) (s.cwdOf p) ∨
    call.Adds (s.disk.node sb) (s.cwdOf p) ∧
      u.disk.node sb ≠ s.disk.node sb := by
  rcases holding.origin with ⟨same, none⟩ | ⟨adds, d, apart, changed⟩
  · refine .inl ⟨?_, none⟩
    have kept : Kept sb s.users s.begun := rest.kept
    have keptT : Kept sb s.users t := kept.steady holding.steady (congrArg (Disk.node sb) same)
    have stays : ¬ (ip ∉ s.users ∧ (t.inode ip).valid = true ∧ (t.inode ip).copy.nlink = 0) :=
      keptT.not_frees holding.cached
    have disk := put.disk
    rw [if_neg stays] at disk
    exact disk.trans same
  · refine .inr ⟨adds, fun same => changed ?_⟩
    rw [← same, put.tree holding.cached holding.kept, settle_of_ne apart]

/-- The reference is given up again. -/
theorem put (r : Int) (rest : AtRest sb s) (put : Put sb s.users ip t u)
    (fits : Fits sb panics s.commits more u.ended) : Served sb panics more p call s r u.ended := by
  have opens : t.opens = s.opens := opens_eq holding.steady.file
  have put' : Put sb (s.cwds + t.opens) ip t u := by
    rw [opens]
    exact put
  obtain ⟨later, shift⟩ := (holding.counted rest).put put'
  have steady : Steady s.users s.begun u := holding.steady.trans put.steady
  have cwds : u.ended.cwds = s.cwds := congrArg (tally nProc Proc.cwds) steady.proc
  have fds : u.ended.fds = s.fds := congrArg (tally nProc Proc.fds) steady.proc
  have effect : Effect sb p call s u.ended := by
    apply holding.effect
    apply Relation.ReflTransGen.single
    unfold State.here State.users
    rw [cwds]
    exact shift
  refine ⟨rest.next ?_ (rest.idle.ended steady) ?_ effect ?_, effect, fits,
    fun _ _ => holding.origin_put (u := u) rest put⟩
  · rw [cwds, fds]
    exact later.of_eq rfl rfl rfl rfl
  · show Vacant u.proc
    rw [steady.proc]
    exact rest.vacant
  · rw [cwds]
    exact fun ip among => ⟨among, steady.inum ip (mem_add.mpr (.inl among))⟩

end Holding

/-- A transaction that has written nothing has paid for a block of inodes. -/
theorem AtRest.paid (means : Means sb panics more) (rest : AtRest sb s) {later : Multiset Nat}
    (quiet : Quiet sb s.users later s.begun t) (ip : Nat) : Paid sb panics s.commits more ip t := by
  have ledger : Ledger sb panics s.commits sb.bitmap (more + 1) t :=
    quiet.ledger (rest.idle.ledger (means.capacity.mono (by omega)))
  exact ⟨_, Finset.mem_insert_self .., ledger.add (sb.iblock (t.inode ip).inum)⟩

/-- A lookup that failed. -/
theorem AtRest.gaveUp (r : Int) (means : Means sb panics more) (rest : AtRest sb s)
    (quiet : Quiet sb s.users s.users s.begun t) (none : ¬ call.Adds (s.disk.node sb) (s.cwdOf p)) :
    Served sb panics more p call s r t.ended := by
  obtain ⟨known, -, ledger⟩ := rest.paid means quiet 0
  have kept : Kept sb s.users s.begun := rest.kept
  exact rest.unchanged r ⟨(quiet.work kept).ended, quiet.disk⟩ (rest.idle.ended quiet.steady)
    (rest.idle.fits quiet.steady ledger) none

/-- `iunlockput` of the held inode. -/
theorem iunlockput_rest (valid : sb.Valid) {post : Unit → State → List Nat → Prop}
    (rest : AtRest sb s) (holding : Holding sb p call ip s t)
    (paid : Paid sb panics s.commits more ip t)
    (continued : ∀ u, (∀ r, Served sb panics more p call s r u.ended) → post () u []) :
    Wp panics deadlocks (iunlockput sb ip) post t [ip] := by
  obtain ⟨known, here, ledger⟩ := paid
  apply iunlockput_wp valid holding.cached (fun _ => ⟨ledger, here⟩) (List.mem_singleton_self ip)
    (by simp)
  intro u put later
  rw [List.erase_cons_head]
  exact continued u fun r => holding.put r rest put
    (rest.idle.fits (holding.steady.trans put.steady) (later ledger))

/-- The entry that a name gets was free. -/
theorem named_ne {node : Node} {name : List UInt8} (nonzero : i ≠ 0) :
    (named node i name).ents ≠ node.ents := by
  intro same
  have entry : node.ents[freeIndex node.ents]? = some ⟨i, strncpy name dirSiz⟩ := by
    calc node.ents[freeIndex node.ents]?
      _ = (named node i name).ents[freeIndex node.ents]? := by rw [same]
      _ = _ := (setEnt_getElem? (freeIndex_le _) _).trans (if_pos rfl)
  cases found : node.ents.findIdx? fun e => e.inum == 0 with
  | none =>
    rw [freeIndex, found, Option.getD_none, getElem?_eq_none le_rfl] at entry
    exact absurd entry (by simp)
  | some k =>
    grind [findIdx?_eq_some_iff_getElem, freeIndex]

/-- `create` between two calls, in an operation of the log. -/
theorem create_rest (means : Means sb panics more) (valid : sb.Valid) (call : Call)
    {post : Option Nat → State → List Nat → Prop}
    (room : RoomFor panics (s.disk.node sb) (s.cwdOf p) path)
    (rest : AtRest sb s) (inside : p < nProc) (live : (s.proc p).live = true)
    (typed : Typed sb panics (s.cwdOf p) s) (used : type ≠ .free)
    (concerns : call.Creates path type) (failed : ∀ t, Quiet sb s.users s.users s.begun t →
      ¬ call.Adds (s.disk.node sb) (s.cwdOf p) → post none t [])
    (found : ∀ ip t, Holding sb p call ip s t → Paid sb panics s.commits more ip t →
      ((t.disk.node sb (t.inode ip).inum).kind = .file ∨
        (t.disk.node sb (t.inode ip).inum).kind = type) → post (some ip) t [ip]) :
    Wp panics deadlocks (create sb p path type major minor) post s.begun [] := by
  have kept : Kept sb s.users s.begun := rest.kept
  apply create_wp valid means.scarce (rest.idle.ledger means.capacity) room rest.cached.begun kept
    (AtRest.cwd_mem inside live) typed used
  · exact fun t taken quiet => failed t quiet (taken.not_adds concerns)
  · intro ip t taken quiet filled isFile
    refine found ip t ⟨⟨quiet.cached, quiet.steady, (kept.quiet quiet).cons⟩, filled, ?_,
      .inl ⟨quiet.disk, taken.not_adds concerns⟩⟩ (rest.paid means quiet ip) (.inl isFile)
    rw [quiet.disk]
    exact .same
  · intro ip t created paid
    obtain ⟨d, name, resolved, isDir, absent, free, tree⟩ := created.tree
    have member : ip ∈ ip ::ₘ s.users := Multiset.mem_cons_self ip _
    have bounds := (created.cached.inum ip member).2
    have apart : d ≠ (t.inode ip).inum := by
      intro same
      rw [same, free] at isDir
      exact absurd isDir (by decide)
    have inums : t.inums (ip ::ₘ s.users) = (t.inode ip).inum ::ₘ (s.here sb).used := by
      rw [State.inums, Multiset.map_cons]
      congr 1
      exact inums_congr (s := s.begun) (fun _ among => among) created.steady
    rw [inums, settle_cons apart] at tree
    have changed : t.disk.node sb d ≠ s.disk.node sb d := by
      intro same
      have nonzero : (t.inode ip).inum ≠ 0 := ne_of_gt (lt_of_lt_of_le (by decide) bounds.1)
      rw [tree] at same
      rcases settle_node (s.here sb).used _ d d with here | freed
      · rw [here, createTree, update_self] at same
        refine named_ne nonzero ((congrArg Node.ents same).trans ?_)
        split
        · rfl
        · rfl
      · rw [freed] at same
        change (s.disk.node sb d).kind = .dir at isDir
        rw [← same] at isDir
        exact absurd isDir (by decide)
    refine found ip t ⟨created.toWork, created.valid, ?_,
      .inr ⟨⟨path, type, d, name, concerns, resolved, absent⟩, d, apart, changed⟩⟩ paid (.inr ?_)
    · rw [tree]
      exact .create concerns resolved isDir absent bounds free
    · rw [tree, settle_of_ne (Ne.symm apart), createTree, update_of_ne (Ne.symm apart),
        update_self]
      rfl

/-- `sys_mkdir` and `sys_mknod` between two calls. -/
theorem makeNode_rest (means : Means sb panics more) (valid : sb.Valid)
    (room : RoomFor panics (s.disk.node sb) (s.cwdOf p) path)
    (rest : AtRest sb s) (inside : p < nProc) (live : (s.proc p).live = true)
    (typed : Typed sb panics (s.cwdOf p) s) (used : type ≠ .free)
    (concerns : call.Creates path type)
    (continued : ∀ r t, Served sb panics more p call s r t → post r t []) :
    Wp panics deadlocks (makeNode sb p path type major minor) post s [] := by
  simp only [makeNode, wp_bind]
  apply beginOp_wp rest.idle
  apply create_rest means valid call room rest inside live typed used concerns
  · intro t quiet none
    simp only [wp_bind, endOp_wp, wp_pure]
    exact continued _ _ (rest.gaveUp _ means quiet none)
  grind [wp_bind, endOp_wp, wp_pure, iunlockput_rest]

/-- A path was looked up and its inode locked. -/
theorem Holding.of_quiet (rest : AtRest sb s)
    (quiet : Quiet sb s.users (ip ::ₘ s.users) s.begun t) (filled : (t.inode ip).valid = true)
    (none : ¬ call.Adds (s.disk.node sb) (s.cwdOf p)) :
    Holding sb p call ip s t := by
  have kept : Kept sb s.users s.begun := rest.kept
  refine ⟨⟨quiet.cached, quiet.steady, (kept.quiet quiet).cons⟩, filled, ?_,
    .inl ⟨quiet.disk, none⟩⟩
  rw [quiet.disk]
  exact .same

/-- A lookup of a path and the lock of what it found. -/
theorem ilock_rest (call : Call) {post : Unit → State → List Nat → Prop} (rest : AtRest sb s)
    (found : Quiet sb s.users (ip ::ₘ s.users) s.begun t)
    (used : panics .noType ∨ (t.disk.node sb (t.inode ip).inum).kind ≠ .free)
    (none : ¬ call.Adds (s.disk.node sb) (s.cwdOf p))
    (continued : ∀ u, Holding sb p call ip s u → Quiet sb s.users (ip ::ₘ s.users) s.begun u →
      post () u [ip]) : Wp panics deadlocks (ilock ip) post t [] := by
  apply ilock_typed found.cached (Multiset.mem_cons_self ip _) used
  intro u locked filled
  have toU := found.andThen locked.of_cons
  exact continued u (.of_quiet rest toU filled none) toU

section Open

variable (rest : AtRest sb s) (holding : Holding sb p call ip s t)
  (paid : Paid sb panics s.commits more ip t)

include rest holding paid

/-- The error exit of `sys_open`. -/
theorem openBad_rest (valid : sb.Valid)
    (continued : ∀ u, Served sb panics more p call s (-1) u → post (-1) u []) :
    Wp panics deadlocks (openBad sb ip) post t [ip] := by
  simp only [openBad, wp_bind, endOp_wp, wp_pure]
  exact iunlockput_rest valid rest holding paid fun u served => continued _ (served _)

/-- A descriptor is at the start of its file, and the disk is as it was unless the file is new. -/
def Opening (sb : Superblock) (p : Nat) (call : Call) (s : State) (r : Int) (t : State) : Prop :=
  0 ≤ r → ∃ f, (t.proc p).ofile r.toNat = some f ∧ (t.file f).off = 0 ∧
    (call.Adds (s.disk.node sb) (s.cwdOf p) ∨ t.disk = s.disk)

/-- The inode goes into a new file of the process. -/
theorem installed_rest {f fd : Nat} {file : File} {u : State} (inside : p < nProc)
    (live : (s.proc p).live = true) (small : f < nFile) (unused : (t.file f).ref = 0)
    (low : fd < nOFile) (none : (t.proc p).ofile fd = none) (off : file.off = 0)
    (ref : file.ref = 1) (kind : file.kind = .inode) (ipEq : file.ip = ip)
    (notDir : file.writable = true → (t.disk.node sb (t.inode ip).inum).kind ≠ .dir)
    (result : u =
      ((t.setFile f { t.file f with ref := 1 }).withFd p fd (some f)).ended.setFile f file) :
    Served sb panics more p call s fd u ∧ Opening sb p call s fd u := by
  have proc : t.proc = s.proc := holding.steady.proc
  obtain ⟨later, opens⟩ := (holding.counted rest).install small unused ref kind ipEq notDir
  have files : u.file = (t.setFile f file).file := by
    rw [result]
    exact update_idem ..
  have procs : u.proc = (t.withFd p fd (some f)).proc := result ▸ rfl
  have pipe : u.pipe = t.pipe := result ▸ rfl
  have disk : u.disk = t.disk := result ▸ rfl
  have inode : u.inode = t.inode := result ▸ rfl
  have cwds : u.cwds = s.cwds := by
    refine (congrArg (tally nProc Proc.cwds) procs).trans ?_
    refine (withFd_cwds ..).trans ?_
    exact congrArg (tally nProc Proc.cwds) proc
  have fds : u.fds = f ::ₘ s.fds := by
    have fdsT : t.fds = s.fds := congrArg (tally nProc Proc.fds) proc
    rw [← fdsT]
    exact (congrArg (tally nProc Proc.fds) procs).trans
      (withFd_new inside (proc ▸ live) low none f)
  have opensU : u.opens = ip ::ₘ t.opens := (opens_eq files).trans opens
  have effect : Effect sb p call s u := by
    apply holding.effect
    unfold State.here State.users State.world
    rw [cwds, opensU, disk, add_cons, ← cons_add]
    unfold State.inums
    rw [inode]
  obtain ⟨known, -, ledger⟩ := paid
  have before := rest.idle.fits holding.steady ledger
  have fits : Fits sb panics s.commits more u := result ▸ before
  refine ⟨⟨rest.next ?_ ?_ ?_ effect ?_, effect, fits,
    fun _ failed => absurd failed (by omega)⟩, fun _ => ⟨f, ?_, ?_,
      holding.origin.elim (fun same => .inr (disk.trans same.1)) (fun adds => .inl adds.1)⟩⟩
  · rw [cwds, fds]
    exact later.of_eq disk inode files pipe
  · have idle := rest.idle.ended holding.steady
    exact result ▸ idle
  · rw [procs]
    have vacant : Vacant t.proc := proc ▸ rest.vacant
    exact vacant.assign (proc ▸ live)
  · rw [cwds, inode]
    exact fun jp among => ⟨among, holding.steady.inum jp (mem_add.mpr (.inl among))⟩
  · rw [procs]
    simp [State.withFd, State.setProc]
  · rw [files, setFile_file, if_pos rfl, off]

/-- `sys_open` once it has the inode. -/
theorem openFile_rest (valid : sb.Valid) {omode : Nat} (inside : p < nProc)
    (live : (s.proc p).live = true)
    (plain : omode ≠ 0 → (t.disk.node sb (t.inode ip).inum).kind ≠ .dir)
    (continued : ∀ r u, Served sb panics more p call s r u → Opening sb p call s r u →
      post r u []) : Wp panics deadlocks (openFile sb p ip omode) post t [ip] := by
  have failed : ∀ u, Served sb panics more p call s (-1) u → post (-1) u [] :=
    fun u served => continued _ u served fun wrong => absurd wrong (by decide)
  simp only [openFile, wp_bind, wp_liftM]
  apply filealloc_ok
  · exact openBad_rest rest holding paid valid failed
  · intro f small unused
    have closed : (t.file f).kind = .none := (holding.counted rest).closed f unused
    have entry : (t.setFile f { t.file f with ref := 1 }).file f = { t.file f with ref := 1 } := by
      rw [setFile_file, if_pos rfl]
    simp only [wp_bind, wp_liftM]
    apply fdalloc_ok
    · simp only [wp_bind]
      apply fileclose_new rfl unused closed
      exact openBad_rest rest holding paid valid failed
    · intro fd low none
      have cached : Cached sb (ip ::ₘ s.users)
          ((t.setFile f { t.file f with ref := 1 }).withFd p fd (some f)) :=
        holding.cached.of_eq rfl rfl
      simp only [wp_bind, endOp_wp, wp_modify, wp_pure]
      apply iunlock_wp cached (Multiset.mem_cons_self ip _) (List.mem_singleton_self ip)
      rw [List.erase_cons_head]
      refine And.elim (continued _ _) (installed_rest rest holding paid inside live small unused
        low none ?_ ?_ ?_ ?_ ?_ rfl)
      · rfl
      · exact congrArg File.ref entry
      all_goals grind

end Open

end Rest

end Xv6.Fs
