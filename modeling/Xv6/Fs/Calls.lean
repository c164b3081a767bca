import Xv6.Fs.Effect

/-!
# System calls between states at rest

The rules of the calls that `Fs.Effect` does not treat, and from all of them the theorem about
`syscall`: a call that a process makes while no other runs leads from a state at rest to a state
at rest, and what it does to the name space is one operation and then changes of references.
-/

namespace Xv6.Fs

open Function Lib Prog Multiset Finset List

variable {sb : Superblock} {panics : Panic → Prop} {deadlocks : Nat → Prop} {s t : State}
  {more p f ip omode n : Nat} {post : Int → State → List Nat → Prop} (means : Means sb panics more)
  (valid : sb.Valid) (rest : AtRest sb s) (inside : p < nProc) (live : (s.proc p).live = true)
  {refs : Multiset Nat} {path : List UInt8} {left : List Nat} {fd : Nat} {call : Call}
  {page : Option Nat} {src : List UInt8} {device : Option (List UInt8)}

/-! ## Opening -/

include means valid rest inside live in
/-- `sys_open` of a path without `O_CREATE`. -/
theorem openExisting_rest {post : Option Nat → State → List Nat → Prop}
    (typed : Typed sb panics (s.cwdOf p) s) (old : ¬ call.Adds (s.disk.node sb) (s.cwdOf p))
    (failed : ∀ t, Quiet sb s.users s.users s.begun t → post none t [])
    (found : ∀ ip t, Holding sb p call ip s t → Paid sb panics s.commits more ip t →
      (omode ≠ 0 → (t.disk.node sb (t.inode ip).inum).kind ≠ .dir) → post (some ip) t [ip]) :
    Wp panics deadlocks (openExisting sb p path omode) post s.begun [] := by
  have kept : Kept sb s.users s.begun := rest.kept
  simp only [openExisting, wp_bind]
  apply namei_wp valid (.inl means.scarce.slots) rest.cached.begun kept
    (AtRest.cwd_mem inside live) typed
  · exact fun t _ quiet => failed t quiet
  · intro ip last t _ quiet used
    simp only [wp_bind]
    apply ilock_rest (p := p) call rest quiet used old
    intro u holding toU
    have type := holding.cached.copy_type (Multiset.mem_cons_self ip _) holding.valid
    simp only [wp_get, wp_ite, wp_bind, wp_pure]
    split
    · apply iunlockput_quiet valid holding.cached (kept.quiet toU) (by simp)
      intro v dropped
      exact failed v (toU.andThen dropped)
    · rename_i allowed
      apply found ip u holding (rest.paid means toU ip)
      intro writing isDir
      exact allowed ⟨type.trans isDir, writing⟩

include means valid rest inside live in
/-- `sys_open` between two calls. -/
theorem open_rest
    (room : omode &&& oCreate ≠ 0 →
      RoomFor panics (s.disk.node sb) (s.cwdOf p) path)
    (typed : Typed sb panics (s.cwdOf p) s)
    (continued : ∀ r t, Served sb panics more p (.open path omode) s r t →
      Opening sb p (.open path omode) s r t → post r t []) :
    Wp panics deadlocks (sysOpen sb p path omode) post s [] := by
  have failed : ∀ t, Opening sb p (.open path omode) s (-1) t :=
    fun _ wrong => absurd wrong (by decide)
  simp only [sysOpen, wp_bind]
  apply beginOp_wp rest.idle
  simp only [wp_ite, wp_bind]
  split
  · rename_i creates
    apply create_rest means valid (.open path omode) (room creates) rest inside live typed
      (by decide) ⟨rfl, creates, rfl⟩
    · intro t quiet none
      simp only [wp_bind, endOp_wp, wp_pure]
      exact continued _ _ (rest.gaveUp _ means quiet none) (failed _)
    grind [openFile_rest]
  · rename_i opens
    have none : ¬ (Call.open path omode).Adds (s.disk.node sb) (s.cwdOf p) :=
      Call.not_adds fun _ _ concerns => opens concerns.2.1
    apply openExisting_rest means valid rest inside live typed none
    · intro t quiet
      simp only [wp_bind, endOp_wp, wp_pure]
      exact continued _ _ (rest.gaveUp _ means quiet none) (failed _)
    · intro ip t holding paid plain
      exact openFile_rest rest holding paid valid inside live plain continued

/-! ## Directories and programs -/

/-- An entry of the process table is assigned. -/
theorem Counted.setProc {cwds fds : Multiset Nat} (counted : Counted sb cwds fds t) (p : Nat)
    (entry : Proc) (idle : t.Idle) (own : tally nProc Proc.cwds (update t.proc p entry) = cwds)
    (files : tally nProc Proc.fds (update t.proc p entry) = fds)
    (vacant : Vacant (update t.proc p entry))
    (home : ∀ ip ∈ cwds, (t.disk.node sb (t.inode ip).inum).kind = .dir) :
    AtRest sb (t.setProc p entry) ∧
      (t.setProc p entry).here sb = t.world sb (cwds + t.opens) := by
  subst own files
  exact ⟨⟨counted.of_eq rfl rfl rfl rfl, idle, vacant, home⟩, rfl⟩

include means valid rest inside live in
/-- `sys_chdir` between two calls. -/
theorem chdir_rest (typed : Typed sb panics (s.cwdOf p) s)
    (continued : ∀ r t, Served sb panics more p (.chdir path) s r t → post r t []) :
    Wp panics deadlocks (sysChdir sb p path) post s [] := by
  have kept : Kept sb s.users s.begun := rest.kept
  have none : ¬ (Call.chdir path).Adds (s.disk.node sb) (s.cwdOf p) :=
    Call.not_adds fun _ _ => id
  obtain ⟨others, before, assign⟩ := tally_split inside Proc.cwds s.proc
  have cwds : s.cwds = (s.proc p).cwd ::ₘ others := by
    refine before.trans ?_
    rw [Proc.cwds, if_pos live]
    rfl
  simp only [sysChdir, wp_bind]
  apply beginOp_wp rest.idle
  apply namei_wp valid (.inl means.scarce.slots) rest.cached.begun kept
    (AtRest.cwd_mem inside live) typed
  · intro t _ quiet
    simp only [wp_bind, endOp_wp, wp_pure]
    exact continued _ _ (rest.gaveUp _ means quiet none)
  · intro ip last t _ quiet used
    simp only [wp_bind]
    apply ilock_rest (p := p) (.chdir path) rest quiet used none
    intro u holding toU
    simp only [wp_get, wp_ite, wp_bind, wp_pure, wp_modify, endOp_wp]
    split
    · exact iunlockput_rest valid rest holding (rest.paid means toU ip) fun v served =>
        continued _ _ (served _)
    · rename_i isDir
      have proc : u.proc = s.proc := holding.steady.proc
      have home : ∀ jp ∈ ip ::ₘ others, (u.disk.node sb (u.inode jp).inum).kind = .dir := by
        intro jp among
        cases Multiset.mem_cons.mp among with
        | inl same =>
          rw [same, ← holding.cached.copy_type (Multiset.mem_cons_self ip _) holding.valid]
          exact not_not.mp isDir
        | inr old =>
          have own : jp ∈ s.cwds := by
            rw [cwds]
            exact Multiset.mem_cons_of_mem old
          rw [toU.disk, toU.inum (mem_add.mpr (.inl own))]
          exact rest.home jp own
      have swapped : ip ::ₘ s.cwds = (s.proc p).cwd ::ₘ ip ::ₘ others := by
        rw [cwds, Multiset.cons_swap]
      have counted : Counted sb ((s.proc p).cwd ::ₘ ip ::ₘ others) s.fds u := by
        rw [← swapped]
        exact holding.counted rest
      have cached : Cached sb ((s.proc p).cwd ::ₘ (ip ::ₘ others + u.opens)) u := by
        rw [← cons_add]
        exact counted.cached
      apply iunlock_wp holding.cached (Multiset.mem_cons_self ip _) (List.mem_singleton_self ip)
      rw [proc]
      obtain ⟨known, here, ledger⟩ := rest.paid means toU (s.proc p).cwd
      apply iput_wp valid cached (fun _ => ⟨ledger, here⟩) (fun locked => absurd locked (by simp))
      intro _ v put kept
      rw [List.erase_cons_head]
      obtain ⟨later, shift⟩ := counted.put put
      have ended : Counted sb (ip ::ₘ others) s.fds v.ended := later.of_eq rfl rfl rfl rfl
      have procV : v.ended.proc = s.proc := put.steady.proc.trans proc
      have steady : Steady 0 s.begun v :=
        (holding.steady.mono (by simp)).trans (put.steady.mono (by simp))
      obtain ⟨restV, here⟩ := ended.setProc p { v.ended.proc p with cwd := ip }
        (rest.idle.ended steady) (by rw [procV, assign, Proc.cwds, if_pos live]; rfl)
        (by rw [procV]; exact tally_same rfl)
        (by rw [procV]; exact rest.vacant.assign live)
        (fun jp among => (counted.kind_put put among).trans (home jp among))
      refine continued 0 _ ⟨restV, holding.effect (.single ?_),
        rest.idle.fits steady (kept ledger), fun _ failed => absurd failed (by decide)⟩
      rw [here, swapped]
      exact shift

/-- A device gives the lock of its inode up and takes it back. -/
theorem driver_wp {α : Type} {answer : α} {post : α → State → List Nat → Prop}
    (cached : Cached sb refs s) (member : ip ∈ refs) (filled : (s.inode ip).valid = true)
    (continued : ∀ t, Quiet sb refs refs s t → (t.inode ip).valid = true → post answer t [ip]) :
    Wp panics deadlocks (driver ip answer) post s [ip] := by
  simp only [driver, wp_bind, wp_pure]
  apply iunlock_wp cached member (List.mem_singleton_self ip)
  rw [List.erase_cons_head]
  exact ilock_typed cached member (.inr (Disk.node_alloc (cached.alloc member filled))) continued

/-- `readi` of a locked inode leaves the disk. -/
theorem readi_wp {off : Nat} {post : Option (List UInt8) → State → List Nat → Prop}
    (cached : Cached sb refs s) (member : ip ∈ refs) (filled : (s.inode ip).valid = true)
    (continued : ∀ r t, Quiet sb refs refs s t → (t.inode ip).valid = true → post r t [ip]) :
    Wp panics deadlocks (readi sb ip off n device) post s [ip] := by
  have synced := (cached.valid ip member filled).1
  simp only [readi, wp_bind, wp_get, wp_ite, wp_pure, wp_liftM]
  split
  · split
    · exact driver_wp cached member filled (continued device)
    · exact continued none s (.refl cached) filled
  · apply readBlocks_ok
    · rw [synced.view]
      exact cached.sound.sized _ (cached.alloc member filled)
    · exact fun _ => continued none s (.refl cached) filled
    · exact fun _ => continued _ s (.refl cached) filled

include means valid rest inside live in
/-- `exec` between two calls. -/
theorem exec_rest {reads : List ExecRead} {result : Int} (typed : Typed sb panics (s.cwdOf p) s)
    (continued : ∀ r t, Served sb panics more p (.exec path reads result) s r t → post r t []) :
    Wp panics deadlocks (sysExec sb p path reads result) post s [] := by
  have kept : Kept sb s.users s.begun := rest.kept
  have none : ¬ (Call.exec path reads result).Adds (s.disk.node sb)
      (s.cwdOf p) := Call.not_adds fun _ _ => id
  have unchanged : ∀ t r, Quiet sb s.users s.users s.begun t → post r t.ended [] :=
    fun t r quiet => continued _ _ (rest.gaveUp _ means quiet none)
  simp only [sysExec, wp_bind]
  apply beginOp_wp rest.idle
  apply namei_wp valid (.inl means.scarce.slots) rest.cached.begun kept
    (AtRest.cwd_mem inside live) typed
  · intro t _ quiet
    simp only [wp_bind, endOp_wp, wp_pure]
    exact unchanged t (-1) quiet
  · intro ip last t _ quiet used
    have member : ip ∈ ip ::ₘ s.users := Multiset.mem_cons_self ip _
    simp only [wp_bind]
    apply ilock_rest (p := p) (.exec path reads result) rest quiet used none
    intro u holding toU
    apply wp_forM (fun _ v held => held = [ip] ∧ (v.inode ip).valid = true ∧
      Quiet sb s.users (ip ::ₘ s.users) s.begun v) ⟨rfl, holding.valid, toU⟩
    · rintro ⟨off, n, device⟩ _ v _ ⟨rfl, filled, toV⟩
      simp only [wp_bind, wp_pure]
      apply readi_wp toV.cached member filled
      exact fun _ w read still => ⟨rfl, still, toV.andThen read.of_cons⟩
    · rintro v _ ⟨rfl, _, toV⟩
      apply iunlockput_quiet valid toV.cached (kept.quiet toV) (by simp)
      intro w dropped
      simp only [endOp_wp, wp_pure]
      exact unchanged w result (toV.andThen dropped)

/-! ## Descriptors -/

/-- A call that only takes and drops references. -/
theorem Effect.of_shifts (shifts : Relation.ReflTransGen Shift (s.here sb) (t.here sb)) :
    Effect sb p call s t :=
  ⟨_, .same, shifts⟩

theorem Effect.of_here (here : t.here sb = s.here sb) : Effect sb p call s t :=
  .of_shifts (by rw [here])

/-- A call that does nothing. -/
theorem Served.same (r : Int) (rest : AtRest sb s) (other : ¬ call.NameSpace) :
    Served sb panics more p call s r s :=
  ⟨rest, .of_here rfl, .refl sb panics more s, fun names => absurd names other⟩

include means valid rest inside live in
/-- `sys_close` between two calls. -/
theorem close_rest (continued : ∀ r t, Served sb panics more p (.close fd) s r t → post r t []) :
    Wp panics deadlocks (sysClose sb p fd) post s [] := by
  simp only [sysClose, wp_bind, wp_liftM]
  apply argfd_ok
  · exact continued _ s (.same _ rest id)
  · intro f low found
    obtain ⟨others, before, assign⟩ := withFd_fds inside live low
    rw [found] at before
    have counted : Counted sb s.cwds (f ::ₘ others) (s.withFd p fd none) := by
      have same : s.fds = f ::ₘ others := before
      rw [← same]
      exact rest.counted.of_eq rfl rfl rfl rfl
    have idle : (s.withFd p fd none).Idle := rest.idle
    simp only [wp_bind, wp_liftM]
    apply setFd_ok
    have capacity : Capacity sb panics (1 + more) := means.capacity.mono (by omega)
    apply fileclose_wp valid capacity idle counted
    intro t later proc idleT inum shifts fits
    simp only [wp_pure]
    have cwds : t.cwds = s.cwds :=
      (congrArg (tally nProc Proc.cwds) proc).trans (withFd_cwds s p fd none)
    have fds : t.fds = others :=
      (congrArg (tally nProc Proc.fds) proc).trans ((assign none).trans (Multiset.zero_add _))
    have effect : Effect sb p (.close fd) s t := by
      apply Effect.of_shifts
      unfold State.here State.users
      rw [cwds]
      exact shifts
    refine continued _ t ⟨rest.next ?_ idleT ?_ effect ?_, effect, fits,
      fun names => absurd names id⟩
    · rw [cwds, fds]
      exact later
    · rw [proc]
      exact rest.vacant.assign live
    · rw [cwds]
      exact fun ip among => ⟨among, inum ip among⟩

include rest inside live in
/-- `sys_dup` between two calls. -/
theorem dup_rest (continued : ∀ r t, Served sb panics more p (.dup fd) s r t → post r t []) :
    Wp panics deadlocks (sysDup p fd) post s [] := by
  simp only [sysDup, wp_bind, wp_liftM]
  apply argfd_ok
  · exact continued _ s (.same _ rest id)
  · intro f low found
    have member : f ∈ s.fds := fd_mem inside live low found
    simp only [wp_bind, wp_liftM]
    apply fdalloc_ok
    · exact continued _ s (.same _ rest id)
    · intro new small unset
      have counted : Counted sb s.cwds s.fds (s.withFd p new (some f)) :=
        rest.counted.of_eq rfl rfl rfl rfl
      simp only [wp_bind, wp_liftM]
      apply filedup_ok counted member
      intro later opens
      have cwds := withFd_cwds s p new (some f)
      have fds := withFd_new inside live small unset f
      refine continued _ _ ⟨⟨?_, rest.idle, rest.vacant.assign live, ?_⟩, .of_here ?_,
        .refl sb panics more s, fun names => absurd names id⟩
      · show Counted sb (s.withFd p new (some f)).cwds (s.withFd p new (some f)).fds _
        rw [cwds, fds]
        exact later
      · show ∀ ip ∈ (s.withFd p new (some f)).cwds, _
        rw [cwds]
        exact rest.home
      · show State.world sb ((s.withFd p new (some f)).cwds + _) _ = _
        rw [cwds, opens]
        rfl

/-- `pipealloc` between two calls. -/
theorem pipealloc_wp {post : Option (Nat × Nat) → State → List Nat → Prop} (rest : AtRest sb s)
    (unused : ∀ q, page = some q → (s.pipe q).readopen = false ∧ (s.pipe q).writeopen = false)
    (failed : post none s [])
    (made : ∀ f0 f1 t, Counted sb s.cwds (f0 ::ₘ f1 ::ₘ s.fds) t → t.proc = s.proc → t.Idle →
      t.disk = s.disk → t.inode = s.inode → t.opens = s.opens → t.commits = s.commits →
      post (some (f0, f1)) t []) : Wp panics deadlocks (pipealloc sb page) post s [] := by
  simp only [pipealloc, wp_bind, wp_liftM]
  apply filealloc_ok
  · exact failed
  · intro f0 low0 free0
    have closed0 := rest.counted.closed f0 free0
    simp only [wp_bind, wp_liftM]
    apply filealloc_ok
    · simp only [wp_bind]
      apply fileclose_new rfl free0 closed0
      exact failed
    · intro f1 low1 free1
      have apart : f0 ≠ f1 := by
        rintro rfl
        rw [setFile_file, if_pos rfl] at free1
        exact absurd free1 Nat.one_ne_zero
      rw [setFile_file, if_neg (Ne.symm apart)] at free1 ⊢
      have closed1 := rest.counted.closed f1 free1
      cases page with
      | none =>
        simp only [wp_bind]
        apply fileclose_new (s := s.setFile f1 { s.file f1 with ref := 1 })
        · rw [setFile_comm apart, setFile_file, if_neg apart]
        · rw [setFile_file, if_neg apart]
          exact free0
        · rw [setFile_file, if_neg apart]
          exact closed0
        · apply fileclose_new rfl free1 closed1
          exact failed
      | some q =>
        obtain ⟨shutR, shutW⟩ := unused q rfl
        have shut : ∀ writable, (s.pipe q).isOpen writable = false := by
          intro writable
          cases writable with
          | false => exact shutR
          | true => exact shutW
        simp only [wp_bind, wp_modify, wp_pure]
        have opened : ∀ t reader writer,
            t.file = update (update s.file f0 reader) f1 writer →
            (reader.ref = 1 ∧ reader.kind = .pipe ∧ reader.writable = false ∧ reader.pipe = q) →
            (writer.ref = 1 ∧ writer.kind = .pipe ∧ writer.writable = true ∧ writer.pipe = q) →
            t.disk = s.disk → t.inode = s.inode → t.pipe = update s.pipe q ⟨true, true⟩ →
            t.proc = s.proc → t.Idle → t.commits = s.commits → post (some (f0, f1)) t [] := by
          intro t reader writer file reads writes disk inode pipe proc idle commits
          obtain ⟨counted, opens⟩ := rest.counted.openPipe low0 low1 free0 free1 apart shut reads
            writes disk inode file pipe
          exact made f0 f1 t counted proc idle disk inode opens commits
        refine opened _ { s.file f0 with
            ref := 1, kind := .pipe, readable := true, writable := false, pipe := q }
          { s.file f1 with
            ref := 1, kind := .pipe, readable := false, writable := true, pipe := q } ?_
          ⟨rfl, rfl, rfl, rfl⟩ ⟨rfl, rfl, rfl, rfl⟩ rfl rfl rfl rfl rest.idle rfl
        funext f
        simp only [State.setFile, State.setPipe, update_apply]
        grind

include means valid rest in
/-- How `sys_pipe` gives both ends up. -/
theorem pipeBad_rest {rf wf : Nat} (counted : Counted sb s.cwds (rf ::ₘ wf ::ₘ s.fds) t)
    (proc : t.proc = s.proc) (idle : t.Idle) (disk : t.disk = s.disk) (inode : t.inode = s.inode)
    (opens : t.opens = s.opens) (commits : t.commits = s.commits)
    (continued : ∀ r t, Served sb panics more p (.pipe page) s r t → post r t []) :
    Wp panics deadlocks (do fileclose sb rf; fileclose sb wf; return -1) post t [] := by
  simp only [wp_bind]
  have capacity : Capacity sb panics (1 + more) := means.capacity.mono (by omega)
  apply fileclose_wp valid capacity idle counted
  intro u countedU procU idleU inumU shiftsU fitsU
  apply fileclose_wp valid capacity idleU countedU
  intro v countedV procV idleV inumV shiftsV fitsV
  rw [commits] at fitsU
  simp only [wp_pure]
  have same : v.proc = s.proc := procV.trans (procU.trans proc)
  have cwds : v.cwds = s.cwds := congrArg (tally nProc Proc.cwds) same
  have fds : v.fds = s.fds := congrArg (tally nProc Proc.fds) same
  have start : t.world sb (s.cwds + t.opens) = s.here sb := by
    unfold State.here State.users State.world State.inums
    rw [opens, disk, inode]
  have effect : Effect sb p (.pipe page) s v := by
    apply Effect.of_shifts
    rw [← start]
    show Relation.ReflTransGen Shift _ (v.world sb (v.cwds + v.opens))
    rw [cwds]
    exact shiftsU.trans shiftsV
  refine continued _ v ⟨rest.next ?_ idleV ?_ effect ?_, effect, fitsU.trans fitsV,
    fun names => absurd names id⟩
  all_goals grind [cases AtRest]

include means valid rest inside live in
/-- `sys_pipe` between two calls. -/
theorem pipe_rest
    (unused : ∀ q, page = some q → (s.pipe q).readopen = false ∧ (s.pipe q).writeopen = false)
    (continued : ∀ r t, Served sb panics more p (.pipe page) s r t → post r t []) :
    Wp panics deadlocks (sysPipe sb p page) post s [] := by
  simp only [sysPipe, wp_bind]
  apply pipealloc_wp rest unused
  · exact continued _ s (.same _ rest id)
  · intro rf wf t counted proc idle disk inode opens commits
    have liveT : (t.proc p).live = true := proc ▸ live
    simp only [wp_bind, wp_liftM]
    apply fdalloc_ok
    · exact pipeBad_rest means valid rest counted proc idle disk inode opens commits continued
    · intro fd0 low0 free0
      have live0 : ((t.withFd p fd0 (some rf)).proc p).live = true := by
        show (update t.proc p _ p).live = true
        rw [update_self]
        exact liveT
      simp only [wp_bind, wp_liftM]
      apply fdalloc_ok
      · rw [wp_bind, wp_liftM]
        apply setFd_ok
        rw [withFd_back free0]
        exact pipeBad_rest means valid rest counted proc idle disk inode opens commits continued
      · intro fd1 low1 free1
        simp only [wp_pure]
        have cwds : ((t.withFd p fd0 (some rf)).withFd p fd1 (some wf)).cwds = s.cwds := by
          rw [withFd_cwds, withFd_cwds]
          exact congrArg (tally nProc Proc.cwds) proc
        have fds : ((t.withFd p fd0 (some rf)).withFd p fd1 (some wf)).fds =
            rf ::ₘ wf ::ₘ s.fds := by
          rw [withFd_new inside live0 low1 free1, withFd_new inside liveT low0 free0,
            Multiset.cons_swap]
          exact congrArg (rf ::ₘ wf ::ₘ ·) (congrArg (tally nProc Proc.fds) proc)
        have vacant : Vacant t.proc := proc ▸ rest.vacant
        have fits : Fits sb panics s.commits more
            ((t.withFd p fd0 (some rf)).withFd p fd1 (some wf)) := by
          rw [← commits]
          exact .refl sb panics more t
        refine continued _ _ ⟨⟨?_, idle, (vacant.withFd liveT).withFd live0, ?_⟩, .of_here ?_, fits,
          fun names => absurd names id⟩
        · rw [cwds, fds]
          exact counted.of_eq rfl rfl rfl rfl
        · rw [cwds]
          show ∀ ip ∈ s.cwds, (t.disk.node sb (t.inode ip).inum).kind = .dir
          rw [disk, inode]
          exact rest.home
        · unfold State.here State.users
          rw [cwds]
          show t.world sb (s.cwds + t.opens) = s.world sb (s.cwds + s.opens)
          unfold State.world State.inums
          rw [opens, disk, inode]

/-- An offset is assigned. -/
theorem AtRest.seek (rest : AtRest sb s) (f off : Nat) :
    AtRest sb (s.setFile f { s.file f with off := off }) ∧
      (s.setFile f { s.file f with off := off }).here sb = s.here sb := by
  have same : ({ s.file f with off := off } : File).inodes = (s.file f).inodes := rfl
  have opens : (s.setFile f { s.file f with off := off }).opens = s.opens := tally_same same
  refine ⟨⟨?_, rest.idle, rest.vacant, rest.home⟩, ?_⟩
  · refine rest.counted.assign same rfl rfl rfl rfl (rest.counted.count f) (fun _ _ => rfl) ?_
      (rest.counted.closed f)
    intro positive
    have count : (s.file f).ref = s.fds.count f := rest.counted.count f
    exact count_pos.mp (count ▸ positive)
  · unfold State.here State.users
    rw [opens]
    rfl

/-- The inode of an open file is among the references. -/
theorem AtRest.ip_mem (rest : AtRest sb s) (member : f ∈ s.fds)
    (isInode : (s.file f).kind = .inode) : (s.file f).ip ∈ s.users :=
  mem_add.mpr (.inr (rest.counted.mem_opens member isInode))

include rest inside live in
/-- `sys_read` between two calls. -/
theorem read_rest
    (continued : ∀ r t, Served sb panics more p (.read fd n device) s r t → post r t []) :
    Wp panics deadlocks (sysRead sb p fd n device) post s [] := by
  simp only [sysRead, wp_bind, wp_liftM]
  apply argfd_ok
  · exact continued _ s (.same _ rest id)
  · intro f low found
    have isOpen : f ∈ s.fds := fd_mem inside live low found
    simp only [wp_bind, wp_get, wp_ite, wp_pure, wp_set]
    split
    · exact continued _ s (.same _ rest id)
    · cases kind : (s.file f).kind with
      | none => exact absurd kind (rest.counted.kind f isOpen)
      | pipe => exact continued _ s (.same _ rest id)
      | inode =>
        have member := rest.ip_mem isOpen kind
        simp only [reduceCtorEq, if_false, if_true]
        apply ilock_typed rest.cached member (.inr (rest.counted.live _ member))
        intro t locked filled
        apply readi_wp locked.cached member filled
        intro r u read _
        have toU := locked.andThen read
        obtain ⟨restU, hereU⟩ := rest.after (toU.work rest.kept)
          ⟨toU.steady.outstanding.trans rest.idle.1, toU.lh.trans rest.idle.2⟩
          (fun _ _ _ => by rw [toU.disk])
        have same : (u.file f).ip = (s.file f).ip := by rw [toU.steady.file]
        obtain ⟨later, here⟩ := restU.seek f ((u.file f).off + (r.getD []).length)
        have cached := toU.cached.of_eq (t := u.setFile f
          { u.file f with off := (u.file f).off + (r.getD []).length }) rfl rfl
        have erased : [(s.file f).ip].erase (u.file f).ip = [] := by
          rw [same, List.erase_cons_head]
        apply iunlock_wp cached (same ▸ member) (List.mem_singleton.mpr same)
        rw [erased]
        have fits : Fits sb panics s.commits more
            (u.setFile f { u.file f with off := (u.file f).off + (r.getD []).length }) := by
          rw [← toU.commits]
          exact .refl sb panics more u
        refine continued _ _ ⟨later, .of_here ?_, fits, fun names => absurd names id⟩
        rw [here, hereU, toU.disk]
        rfl

/-- The places of the blocks that `n` bytes from `off` use. -/
def touched (off n : Nat) : Finset Nat :=
  (Finset.range n).biUnion fun k => placesOf ((off + k) / bSize)

theorem placesOf_subset_touched {off o : Nat} (lower : off ≤ o) (upper : o < off + n) :
    placesOf (o / bSize) ⊆ touched off n := by
  have member : o - off ∈ Finset.range n := Finset.mem_range.mpr (by omega)
  have sum : off + (o - off) = o := Nat.add_sub_of_le lower
  intro k among
  exact mem_biUnion.mpr ⟨_, member, sum.symm ▸ among⟩

theorem card_touched (off n : Nat) : (touched off n).card ≤ (n - 1) / bSize + 3 := by
  have subset : touched off n ⊆ insert nDirect
      ((Finset.range ((n - 1) / bSize + 2)).image fun j => place (off / bSize + j)) := by
    intro k among
    obtain ⟨o, inside, used⟩ := mem_biUnion.mp among
    have below := Finset.mem_range.mp inside
    have block : place ((off + o) / bSize) ∈
        (Finset.range ((n - 1) / bSize + 2)).image fun j => place (off / bSize + j) := by
      have reach : off / bSize ≤ (off + o) / bSize ∧
          (off + o) / bSize < off / bSize + ((n - 1) / bSize + 2) := by
        unfold bSize
        omega
      refine mem_image.mpr ⟨(off + o) / bSize - off / bSize, ?_, ?_⟩
      · exact Finset.mem_range.mpr (by omega)
      · rw [Nat.add_sub_of_le reach.1]
    unfold placesOf at used
    split at used
    · rw [Finset.mem_singleton.mp used]
      exact Finset.mem_insert_of_mem block
    · grind
  refine (Finset.card_le_card subset).trans ((card_insert_le ..).trans ?_)
  refine Nat.succ_le_succ (card_image_le.trans ?_)
  rw [Finset.card_range]

/-- `writei` of a locked inode that is no directory leaves the nodes. -/
theorem writei_wp {past : List (List Nat)} {known : Finset Nat} (valid : sb.Valid)
    (blocks : panics .outOfBlocks) {off : Nat} {post : Option Nat → State → List Nat → Prop}
    (ledger : Ledger sb panics past known ((touched off src.length).card + more) s)
    (here : sb.iblock (s.inode ip).inum ∈ known) (cached : Cached sb refs s) (member : ip ∈ refs)
    (filled : (s.inode ip).valid = true) (plain : (s.disk.node sb (s.inode ip).inum).kind ≠ .dir)
    (continued : ∀ r t larger, (r = none ∨ r = some src.length) → Cached sb refs t →
      Steady refs s t → t.disk.node sb = s.disk.node sb → Ledger sb panics past larger more t →
      post r t [ip]) : Wp panics deadlocks (writei sb ip off src) post s [ip] := by
  have isAlloc := cached.alloc member filled
  have type : (s.inode ip).copy.type ≠ .dir := by
    rw [cached.copy_type member filled]
    exact plain
  have unused : Ledger sb panics past known more s :=
    ledger.mono (Finset.Subset.refl known) (by omega)
  have funds : Funds sb panics past known (touched off src.length) (touched off src.length) more 0
      ip s := .of_ledger ledger (Finset.Subset.refl _) (.inl blocks)
  simp only [writei, wp_bind, wp_get, wp_ite, wp_pure, wp_liftM]
  split
  · split
    · apply driver_wp cached member filled
      exact fun t quiet _ => continued _ t known (.inr rfl) quiet.cached quiet.steady
        (by rw [quiet.disk]) (quiet.ledger unused)
    · exact continued _ s known (.inl rfl) cached (.refl refs s) rfl unused
  · apply writeBlocks_ok valid funds here (fun o => placesOf_subset_touched) cached.sound.owned
      (cached.valid ip member filled).1 isAlloc (cached.sound.sized _ isAlloc)
    · exact fun _ => continued _ s known (.inl rfl) cached (.refl refs s) rfl unused
    · intro t _ _ updated later
      obtain ⟨cachedT, steady, tree⟩ := cached.updated_file member filled type updated
      exact continued _ t _ (.inr rfl) cachedT steady tree later.ledger

include means valid rest in
/-- The loop of `filewrite`. -/
theorem filewriteLoop_rest {fuel : Nat} {post : Bool → State → List Nat → Prop}
    (isOpen : f ∈ s.fds) (isInode : (s.file f).kind = .inode)
    (writable : (s.file f).writable = true)
    (continued : ∀ all t, AtRest sb t → t.here sb = s.here sb → Fits sb panics s.commits more t →
      post all t []) : Wp panics deadlocks (filewriteLoop sb f fuel src) post s [] := by
  induction fuel generalizing s src with
  | zero => exact continued _ s rest rfl (.refl sb panics more s)
  | succ fuel ih =>
    have member := rest.ip_mem isOpen isInode
    have cachedB : Cached sb s.users s.begun := rest.cached.begun
    simp only [filewriteLoop, wp_ite, wp_pure, wp_bind]
    split
    · exact continued _ s rest rfl (.refl sb panics more s)
    · apply beginOp_wp rest.idle
      simp only [wp_get, wp_set, endOp_wp]
      apply ilock_typed cachedB member (.inr (rest.counted.live _ member))
      intro t locked filled
      have same : (t.file f).ip = (s.file f).ip := by
        rw [locked.steady.file]
        rfl
      have plain : (t.disk.node sb (t.inode (s.file f).ip).inum).kind ≠ .dir := by
        rw [locked.disk, locked.inum member]
        exact rest.counted.writable f isOpen isInode writable
      rw [same]
      have short : (src.take maxWrite).length ≤ maxWrite := length_take_le ..
      have card := card_touched (t.file f).off (src.take maxWrite).length
      have few : ((src.take maxWrite).length - 1) / bSize ≤ 2 :=
        (Nat.div_le_div_right (Nat.sub_le_sub_right short 1)).trans (by decide)
      have budget : Ledger sb panics s.commits
          (insert (sb.iblock (t.inode (s.file f).ip).inum) sb.bitmap)
          ((touched (t.file f).off (src.take maxWrite).length).card + more) t :=
        (locked.ledger (rest.idle.ledger (means.capacity.mono (by omega)))).add _
      apply writei_wp valid means.scarce.blocks budget (Finset.mem_insert_self ..) locked.cached
        member filled plain
      intro r u larger result cached steady tree ledger
      have toU : Steady s.users s.begun u := locked.steady.trans steady
      have treeU : u.disk.node sb = s.disk.node sb := by
        rw [tree, locked.disk]
        rfl
      have kept : Kept sb s.users s.begun := rest.kept
      have keptU : Kept sb s.users u := kept.steady toU treeU
      obtain ⟨restU, hereU⟩ := rest.after ⟨cached.ended, toU.ended, keptU⟩
        (rest.idle.ended toU) (fun _ _ _ => by
          show (u.disk.node sb _).kind = _
          rw [treeU])
      obtain ⟨later, here⟩ := restU.seek f ((u.file f).off + r.getD 0)
      have sameU : (u.file f).ip = (s.file f).ip := by
        rw [toU.file]
        rfl
      have cachedU := cached.of_eq (t := u.setFile f
        { u.file f with off := (u.file f).off + r.getD 0 }) rfl rfl
      have hereS : State.here sb (u.ended.setFile f
          { u.ended.file f with off := (u.file f).off + r.getD 0 }) = s.here sb := by
        rw [here, hereU]
        show World.mk (u.disk.node sb) _ = _
        rw [treeU]
        rfl
      have fits : Fits sb panics s.commits more (u.ended.setFile f
          { u.ended.file f with off := (u.file f).off + r.getD 0 }) := rest.idle.fits toU ledger
      have erased : [(s.file f).ip].erase (u.file f).ip = [] := by
        rw [sameU, List.erase_cons_head]
      apply iunlock_wp cachedU (sameU ▸ member) (List.mem_singleton.mpr sameU)
      rw [erased]
      cases result with
      | inl failed =>
        rw [failed] at later hereS fits ⊢
        exact continued _ _ later hereS fits
      | inr wrote =>
        rw [wrote] at later hereS fits ⊢
        simp only [ne_eq, not_true_eq_false, if_false]
        refine ih later ?_ ?_ ?_ ?_
        · show f ∈ tally nProc Proc.fds u.proc
          rw [toU.proc]
          exact isOpen
        · show ((u.ended.setFile f _).file f).kind = .inode
          rw [setFile_file, if_pos rfl]
          show (u.file f).kind = .inode
          rw [toU.file]
          exact isInode
        · show ((u.ended.setFile f _).file f).writable = true
          rw [setFile_file, if_pos rfl]
          show (u.file f).writable = true
          rw [toU.file]
          exact writable
        · exact fun all v restV hereV fitsV =>
            continued all v restV (hereV.trans hereS) (fits.trans fitsV)

include means valid rest inside live in
/-- `sys_write` between two calls. -/
theorem write_rest {taken : Bool}
    (continued : ∀ r t, Served sb panics more p (.write fd src taken) s r t → post r t []) :
    Wp panics deadlocks (sysWrite sb p fd src taken) post s [] := by
  simp only [sysWrite, wp_bind, wp_liftM]
  apply argfd_ok
  · exact continued _ s (.same _ rest id)
  · intro f low found
    have isOpen : f ∈ s.fds := fd_mem inside live low found
    simp only [wp_bind, wp_get, wp_ite, wp_pure]
    split
    · exact continued _ s (.same _ rest id)
    · rename_i allowed
      cases kind : (s.file f).kind with
      | none => exact absurd kind (rest.counted.kind f isOpen)
      | pipe => exact continued _ s (.same _ rest id)
      | inode =>
        simp only [reduceCtorEq, if_false, if_true]
        apply filewriteLoop_rest means valid rest isOpen kind (by simpa using allowed)
        exact fun all t later here fits =>
          continued _ t ⟨later, .of_here here, fits, fun names => absurd names id⟩

/-! ## Processes -/

/-- How far `fork` is while the descriptors in `left` are to be copied. -/
structure Forking (sb : Superblock) (child : Nat) (s : State) (left : List Nat) (t : State) :
    Prop where
  others : ∀ q ≠ child, t.proc q = s.proc q
  unset : ∀ fd ∈ left, (t.proc child).ofile fd = none
  inside : ∀ fd ∈ left, fd < nOFile
  nodup : left.Nodup
  disk : t.disk = s.disk
  inode : t.inode = s.inode
  opens : t.opens = s.opens
  idle : t.Idle
  commits : t.commits = s.commits
  counted : Counted sb s.cwds (tally nOFile heldBy (t.proc child).ofile + s.fds) t

section Fork

variable {child : Nat}

/-- A descriptor that is not in use. -/
theorem Forking.skip (forking : Forking sb child s (fd :: left) t) : Forking sb child s left t :=
  { forking with
    unset := fun other among => forking.unset other (List.mem_cons_of_mem fd among)
    inside := fun other among => forking.inside other (List.mem_cons_of_mem fd among)
    nodup := forking.nodup.of_cons }

/-- A descriptor that is in use. -/
theorem Forking.copy {post : Unit → State → Prop} (forking : Forking sb child s (fd :: left) t)
    (isOpen : f ∈ s.fds)
    (continued : ∀ u, Forking sb child s left (u.withFd child fd (some f)) → post () u) :
    Act.Ok panics (filedup f) post t := by
  obtain ⟨rest, mine, change⟩ :=
    tally_split (forking.inside fd List.mem_cons_self) heldBy (t.proc child).ofile
  have before : tally nOFile heldBy (t.proc child).ofile = rest := by
    rw [mine, forking.unset fd List.mem_cons_self]
    exact Multiset.zero_add rest
  apply filedup_ok forking.counted (mem_add.mpr (.inr isOpen))
  intro later opens
  apply continued
  have self : ∀ u : State, (u.withFd child fd (some f)).proc child =
      { u.proc child with ofile := update (u.proc child).ofile fd (some f) } :=
    fun u => update_self ..
  refine ⟨?_, ?_, ?_, forking.nodup.of_cons, forking.disk, forking.inode,
    opens.trans forking.opens, forking.idle, forking.commits, ?_⟩
  · exact fun q other => (update_of_ne other ..).trans (forking.others q other)
  · intro other among
    have different : other ≠ fd := fun same => (List.nodup_cons.mp forking.nodup).1 (same ▸ among)
    rw [self]
    exact (update_of_ne different ..).trans
      (forking.unset other (List.mem_cons_of_mem fd among))
  · exact fun other among => forking.inside other (List.mem_cons_of_mem fd among)
  · rw [self]
    show Counted sb s.cwds
      (tally nOFile heldBy (update (t.proc child).ofile fd (some f)) + s.fds) _
    rw [change, ← before]
    show Counted sb s.cwds ({f} + _ + s.fds) _
    rw [singleton_add, cons_add]
    exact later.of_eq rfl rfl rfl rfl

include rest inside live in
/-- The child is made to run. -/
theorem Forking.served {u : State} (forking : Forking sb child s [] t) (new : child < nProc)
    (unused : (s.proc child).live = false)
    (quiet : Quiet sb (s.cwds + t.opens) ((s.proc p).cwd ::ₘ (s.cwds + t.opens)) t u)
    (counted : Counted sb ((s.proc p).cwd ::ₘ s.cwds)
      (tally nOFile heldBy (t.proc child).ofile + s.fds) u) :
    Served sb panics more p (.fork (some child)) s child
      (u.setProc child { u.proc child with live := true, cwd := (s.proc p).cwd }) := by
  obtain ⟨others, before, assign⟩ := tally_split new Proc.cwds s.proc
  obtain ⟨othersF, beforeF, assignF⟩ := tally_split new Proc.fds s.proc
  rw [Proc.cwds, if_neg (by simp [unused]), Multiset.zero_add] at before
  rw [Proc.fds, if_neg (by simp [unused]), Multiset.zero_add] at beforeF
  have procs : update u.proc child { u.proc child with live := true, cwd := (s.proc p).cwd } =
      update s.proc child ⟨true, (s.proc p).cwd, (t.proc child).ofile⟩ := by
    rw [quiet.steady.proc]
    funext q
    rw [update_apply, update_apply]
    split
    · rfl
    · rename_i other
      exact forking.others q other
  have opens : u.opens = s.opens := (opens_eq quiet.steady.file).trans forking.opens
  have tree : u.disk.node sb = s.disk.node sb := by rw [quiet.disk, forking.disk]
  have inum : ∀ ip ∈ s.users, (u.inode ip).inum = (s.inode ip).inum := by
    intro ip among
    rw [quiet.inum (by rw [forking.opens]; exact among), forking.inode]
  have user : (s.proc p).cwd ∈ s.users := AtRest.cwd_mem inside live
  have home : ∀ ip ∈ (s.proc p).cwd ::ₘ s.cwds,
      (u.disk.node sb (u.inode ip).inum).kind = .dir := by
    intro ip among
    have own : ip ∈ s.cwds := by
      cases Multiset.mem_cons.mp among with
      | inl same => exact same ▸ AtRest.cwd_mem_cwds inside live
      | inr before => exact before
    rw [tree, inum ip (mem_add.mpr (.inl own))]
    exact rest.home ip own
  obtain ⟨restU, here⟩ := counted.setProc child
    { u.proc child with live := true, cwd := (s.proc p).cwd }
    ⟨quiet.steady.outstanding.trans forking.idle.1, quiet.lh.trans forking.idle.2⟩
    (by rw [procs, assign, ← before]; rfl) (by rw [procs, assignF, ← beforeF]; rfl)
    (by rw [procs]; exact rest.vacant.assign rfl) home
  have commits : u.commits = s.commits := quiet.commits.trans forking.commits
  refine ⟨restU, .of_shifts ?_, commits ▸ .refl sb panics more u, fun names => absurd names id⟩
  have world : u.world sb ((s.proc p).cwd ::ₘ s.cwds + u.opens) =
      ⟨s.disk.node sb, s.cwdOf p ::ₘ s.inums s.users⟩ := by
    rw [opens, State.world, tree, cons_add, State.inums, Multiset.map_cons, inum _ user]
    congr 2
    exact Multiset.map_congr rfl inum
  rw [here, world]
  exact .single (.take _ (rest.counted.live _ user))

include rest inside live in
/-- `fork` between two calls. -/
theorem fork_rest (new : child < nProc) (unused : (s.proc child).live = false)
    (continued : ∀ r t, Served sb panics more p (.fork (some child)) s r t → post r t []) :
    Wp panics deadlocks (sysFork p (some child)) post s [] := by
  have empty : tally nOFile heldBy (s.proc child).ofile = 0 := by
    refine tally_eq_zero fun fd among => ?_
    rw [rest.vacant child unused fd among]
    rfl
  have start : Forking sb child s (List.range nOFile) s := by
    refine ⟨fun _ _ => rfl, ?_, fun fd among => List.mem_range.mp among, List.nodup_range, rfl, rfl,
      rfl, rest.idle, rfl, ?_⟩
    · exact fun fd among => rest.vacant child unused fd (List.mem_range.mp among)
    · rw [empty, Multiset.zero_add]
      exact rest.counted
  have parent : p ≠ child := fun same => absurd ((same ▸ live).symm.trans unused) (by decide)
  simp only [sysFork, wp_bind]
  apply wp_forM (fun left t held => held = [] ∧ Forking sb child s left t) ⟨rfl, start⟩
  · rintro fd left t _ ⟨rfl, forking⟩
    simp only [wp_bind, wp_get]
    rw [forking.others p parent]
    cases file : (s.proc p).ofile fd with
    | none => exact ⟨rfl, forking.skip⟩
    | some f =>
      have low : fd < nOFile := forking.inside fd List.mem_cons_self
      simp only [wp_bind, wp_liftM]
      apply forking.copy (fd_mem inside live low file)
      intro u later
      apply setFd_ok
      exact ⟨trivial, later⟩
  · rintro t _ ⟨rfl, forking⟩
    have counted := forking.counted
    have member : (s.proc p).cwd ∈ s.cwds + t.opens := by
      rw [forking.opens]
      exact AtRest.cwd_mem inside live
    simp only [wp_get, wp_liftM, wp_modify, wp_pure]
    rw [forking.others p parent]
    apply idup_ok counted.cached member
    intro u quiet
    have opensU : u.opens = t.opens := opens_eq quiet.steady.file
    have counts : Counted sb ((s.proc p).cwd ::ₘ s.cwds)
        (tally nOFile heldBy (t.proc child).ofile + s.fds) u := by
      refine counted.after ?_ ?_ quiet.steady.file quiet.steady.pipe ?_ ?_ ?_
      · rw [opensU, cons_add]
        exact quiet.cached
      · rw [opensU, cons_add]
        exact (counted.kept.quiet quiet).cons
      · exact fun ip among => quiet.inum (mem_add.mpr (.inr among))
      · exact fun ip _ => by rw [quiet.disk]
      · intro ip among
        have old : ip ∈ s.cwds + t.opens := by
          cases Multiset.mem_cons.mp among with
          | inl same => exact same ▸ member
          | inr before => exact mem_add.mpr (.inl before)
        rw [quiet.disk, quiet.inum old]
        exact counted.live ip old
    exact continued _ _ (forking.served rest inside live new unused quiet counts)

end Fork

/-- How far `exit` is while the descriptors in `left` are to be closed. -/
structure Exiting (sb : Superblock) (panics : Panic → Prop) (more p : Nat) (s : State)
    (left : List Nat) (t : State) : Prop where
  rest : AtRest sb t
  live : (t.proc p).live = true
  inside : ∀ fd ∈ left, fd < nOFile
  closed : ∀ fd < nOFile, fd ∉ left → (t.proc p).ofile fd = none
  shifts : Relation.ReflTransGen Shift (s.here sb) (t.here sb)
  fits : Fits sb panics s.commits more t

/-- A descriptor that is not in use. -/
theorem Exiting.skip (exiting : Exiting sb panics more p s (fd :: left) t)
    (unset : (t.proc p).ofile fd = none) : Exiting sb panics more p s left t where
  rest := exiting.rest
  live := exiting.live
  inside other among := exiting.inside other (List.mem_cons_of_mem fd among)
  closed other small gone := by
    by_cases here : other = fd
    · rw [here]
      exact unset
    · exact exiting.closed other small (by simp [here, gone])
  shifts := exiting.shifts
  fits := exiting.fits

include means valid inside in
/-- A descriptor that is in use. -/
theorem Exiting.close {post : Unit → State → List Nat → Prop}
    (exiting : Exiting sb panics more p s (fd :: left) t) (file : (t.proc p).ofile fd = some f)
    (continued : ∀ u, Exiting sb panics more p s left (u.withFd p fd none) → post () u []) :
    Wp panics deadlocks (fileclose sb f) post t [] := by
  have low : fd < nOFile := exiting.inside fd List.mem_cons_self
  obtain ⟨others, before, assign⟩ := withFd_fds inside exiting.live low
  rw [file] at before
  have counted : Counted sb t.cwds (f ::ₘ others) t := by
    have same : t.fds = f ::ₘ others := before
    rw [← same]
    exact exiting.rest.counted
  have capacity : Capacity sb panics (1 + more) := means.capacity.mono (by omega)
  apply fileclose_wp valid capacity exiting.rest.idle counted
  intro u later proc idle inum shifts fits
  have procs : (u.withFd p fd none).proc = (t.withFd p fd none).proc := by
    unfold State.withFd State.setProc
    rw [proc]
  have cwds : (u.withFd p fd none).cwds = t.cwds :=
    (congrArg (tally nProc Proc.cwds) procs).trans (withFd_cwds t p fd none)
  have fds : (u.withFd p fd none).fds = others :=
    (congrArg (tally nProc Proc.fds) procs).trans ((assign none).trans (Multiset.zero_add _))
  have ofile : ∀ other, ((u.withFd p fd none).proc p).ofile other =
      if other = fd then none else (t.proc p).ofile other := by
    intro other
    rw [procs]
    show (update t.proc p _ p).ofile other = _
    rw [update_self]
    exact update_apply ..
  apply continued
  have effect : Effect sb p .exit t (u.withFd p fd none) := by
    apply Effect.of_shifts
    unfold State.here State.users
    rw [cwds]
    exact shifts
  refine ⟨exiting.rest.next ?_ idle ?_ effect ?_, ?_, ?_, ?_, ?_, exiting.fits.trans fits⟩
  · rw [cwds, fds]
    exact later.of_eq rfl rfl rfl rfl
  · rw [procs]
    exact exiting.rest.vacant.assign exiting.live
  · rw [cwds]
    exact fun ip among => ⟨among, inum ip among⟩
  · rw [procs]
    show (update t.proc p _ p).live = true
    rw [update_self]
    exact exiting.live
  · exact fun other among => exiting.inside other (List.mem_cons_of_mem fd among)
  · grind [cases Exiting]
  · refine exiting.shifts.trans ?_
    unfold State.here State.users
    rw [cwds]
    exact shifts

include means valid rest inside live in
/-- `exit` between two calls. -/
theorem exit_rest (isInit : p = initproc → panics .initExiting)
    (continued : ∀ r t, Served sb panics more p .exit s r t → post r t []) :
    Wp panics deadlocks (sysExit sb p) post s [] := by
  simp only [sysExit, wp_ite, wp_panic, wp_bind]
  split
  · rename_i same
    exact isInit same
  · have start : Exiting sb panics more p s (List.range nOFile) s :=
      ⟨rest, live, fun fd among => List.mem_range.mp among,
        fun fd small gone => absurd (List.mem_range.mpr small) gone, .refl, .refl sb panics more s⟩
    apply wp_forM (fun left t held => held = [] ∧ Exiting sb panics more p s left t)
      ⟨rfl, start⟩
    · rintro fd left t _ ⟨rfl, exiting⟩
      simp only [wp_bind, wp_get]
      cases file : (t.proc p).ofile fd with
      | none => exact ⟨rfl, exiting.skip file⟩
      | some f =>
        simp only [wp_bind, wp_liftM]
        apply exiting.close means valid inside file
        intro u later
        apply setFd_ok
        exact ⟨rfl, later⟩
    · rintro t _ ⟨rfl, exiting⟩
      have restT := exiting.rest
      obtain ⟨others, before, assign⟩ := tally_split inside Proc.cwds t.proc
      obtain ⟨othersF, beforeF, assignF⟩ := tally_split inside Proc.fds t.proc
      have none : tally nOFile heldBy (t.proc p).ofile = 0 := by
        refine tally_eq_zero fun fd among => ?_
        rw [exiting.closed fd among not_mem_nil]
        rfl
      rw [Proc.cwds, if_pos exiting.live] at before
      rw [Proc.fds, if_pos exiting.live, none, Multiset.zero_add] at beforeF
      have cwds : t.cwds = (t.proc p).cwd ::ₘ others := before
      have fds : t.fds = othersF := beforeF
      have counted : Counted sb ((t.proc p).cwd ::ₘ others) othersF t.begun := by
        rw [← cwds, ← fds]
        exact restT.counted.of_eq rfl rfl rfl rfl
      have cached : Cached sb ((t.proc p).cwd ::ₘ (others + t.begun.opens)) t.begun := by
        rw [← cons_add]
        exact counted.cached
      apply beginOp_wp restT.idle
      simp only [wp_get, endOp_wp, wp_modify, wp_pure]
      have budget : Ledger sb panics t.commits
          (insert (sb.iblock (t.begun.inode (t.proc p).cwd).inum) sb.bitmap) more t.begun :=
        (restT.idle.ledger (means.capacity.mono (by omega))).add _
      apply iput_wp valid cached (fun _ => ⟨budget, Finset.mem_insert_self ..⟩)
        (fun locked => absurd locked (by simp))
      intro _ u put kept
      obtain ⟨later, shift⟩ := counted.put put
      have ended : Counted sb others othersF u.ended := later.of_eq rfl rfl rfl rfl
      have procU : u.ended.proc = t.proc := put.steady.proc
      have vacant : Vacant (update u.ended.proc p { u.ended.proc p with live := false }) := by
        rw [procU]
        exact restT.vacant.update fun _ fd low => exiting.closed fd low not_mem_nil
      obtain ⟨restU, here⟩ := ended.setProc p { u.ended.proc p with live := false }
        (restT.idle.ended put.steady) (by rw [procU, assign]; exact Multiset.zero_add _)
        (by rw [procU, assignF]; exact Multiset.zero_add _) vacant
        (fun ip among => (counted.kind_put put among).trans
          (restT.home ip (by rw [cwds]; exact Multiset.mem_cons_of_mem among)))
      refine continued 0 _ ⟨restU, .of_shifts (exiting.shifts.tail ?_),
        exiting.fits.trans (restT.idle.fits put.steady (kept budget)), fun names => absurd names id⟩
      rw [here, State.here, State.users, cwds]
      exact shift

end Xv6.Fs
