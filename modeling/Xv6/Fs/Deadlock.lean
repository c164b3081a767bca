import Xv6.Fs.Fsck

/-!
# Self-deadlock on inode locks

A process that runs alone waits for ever when it takes the lock of an inode that it holds. `iput`
takes that lock, and `dirlink` puts the inode that it finds under the name while it holds the
directory. The theorem says which calls of which process come to that.
-/

namespace Xv6.Fs

open Lib Multiset

section Names

variable {n d i : Nat} {tree : Nat → Node}

/-- Whoever has one name has it in one directory. -/
theorem Linked.holder (linked : Linked n tree) (isDir : (tree i).kind = .dir) {other : Nat}
    (first : i ∈ (tree d).targets) (second : i ∈ (tree other).targets) : d = other := by
  by_contra different
  have below : ∀ d, i ∈ (tree d).targets → d < n := by
    intro d member
    exact linked.below (nlink_of_targets linked.count linked.empty member).1
  obtain ⟨rest, before, assign⟩ := tally_split (below d first) id fun d => (tree d).targets
  have again : i ∈ rest := by
    have outside := assign 0
    rw [id, Multiset.zero_add] at outside
    rw [← outside, mem_tally]
    refine ⟨other, below other second, ?_⟩
    rw [Function.update_of_ne (Ne.symm different)]
    exact second
  grind [names, references, count_add, count_pos, cases Linked]

/-- No directory has a name in itself. -/
theorem Linked.not_mem_targets (linked : Linked n tree) (d : Nat) : d ∉ (tree d).targets := by
  intro member
  obtain ⟨isDir, nlink⟩ := nlink_of_targets linked.count linked.empty member
  have notRoot : d ≠ rootIno := by
    intro isRoot
    have once := linked.once d isDir
    rw [if_pos isRoot] at once
    exact absurd (count_pos.mpr (linked.mem_names member)) (by omega)
  -- its only name does not lead to it from the root
  have apart : ∀ j, Reachable (fun d => (tree d).targets) rootIno j → j ≠ d := by
    intro j reachable
    induction reachable with
    | root => exact Ne.symm notRoot
    | next _ edge ih =>
      rintro rfl
      exact ih (linked.holder isDir edge member)
  exact apart d (linked.reached d (by rw [isDir]; decide) nlink) rfl

theorem Linked.noSelf (linked : Linked n tree) : NoSelf tree := by
  intro d name k e isDir notDot notDotdot found entry same
  have two := (linked.dotted d isDir).lookup notDot notDotdot found
  have nonzero : e.inum ≠ 0 := by
    obtain ⟨e', entry', _, used, _⟩ := lookup_some found
    rw [← Option.some.inj (entry'.symm.trans entry)]
    exact used
  apply linked.not_mem_targets d
  rw [cleared_targets isDir two entry nonzero, same]
  exact mem_cons_self _ _

end Names

section Calls

variable {sb : Superblock} {s : State} {p : Nat} {call : Call}

/-- A call that is no link under a name by which a directory finds itself takes no lock that the
process holds. -/
theorem syscall_free (valid : sb.Valid) (rest : AtRest sb s)
    (linked : Linked sb.ninodes (s.disk.node sb)) (ready : call.ready s p = true)
    (apart : ¬ call.LinksSelf (s.disk.node sb) (s.cwdOf p)) :
    Prog.Wp Panic.Possible (fun _ => False) (syscall sb p call) (fun _ _ _ => True) s [] := by
  apply syscall_full (fun _ => .exhausted) valid rest ready (.inl .noType) .nlink .initExiting
    (.inr linked.noSelf) (fun self => absurd self apart)
  exact fun _ _ _ => trivial

/-- A link under a name by which a directory finds itself does not complete. -/
theorem sysLink_stuck (valid : sb.Valid) (rest : AtRest sb s) {old new : List UInt8}
    (ready : (Call.link old new).ready s p = true)
    (self : SelfLink (s.disk.node sb) (s.cwdOf p) old new) :
    Prog.Wp Panic.Possible (fun _ => True) (sysLink sb p old new) (fun _ _ _ => False) s [] := by
  obtain ⟨inside, live⟩ := Call.inside_of_ready ready
  have full : ∀ error, Panic.Exhausted error → Panic.Possible error := fun _ => .exhausted
  apply sysLink_wp valid (.of_full full _ 3) (.of_full full (4 + 0)) (.inl (full _ .outOfBlocks))
    (fun _ _ _ _ => .inl (full _ .dirlink)) rest.idle rest.cached rest.kept
    (AtRest.cwd_mem inside live) (.inl .noType) (fun _ _ => trivial)
  · exact fun t refused _ _ _ => refused.not_self self
  · intro t made _ _
    obtain ⟨_, _, d, name, k, e, _, _, resolved, found, _, _⟩ := self
    obtain ⟨_, _, d', name', _, _, _, resolved', _, absent, _⟩ := made.tree
    obtain ⟨rfl, rfl⟩ := Prod.mk.inj (Option.some.inj (resolved.symm.trans resolved'))
    exact Option.some_ne_none _ (found.symm.trans absent)

/-- A call of a process that runs alone on a consistent file system takes a lock that it holds if
and only if it is a link of a file under a name by which a directory finds itself, and it does not
panic before. -/
theorem self_deadlock_iff (valid : sb.Valid) (rest : AtRest sb s)
    (linked : Linked sb.ninodes (s.disk.node sb)) (ready : call.ready s p = true) :
    (∃ ip, (syscall sb p call).run s [] = .deadlock ip) ↔
      call.LinksSelf (s.disk.node sb) (s.cwdOf p) ∧
        ∀ error, (syscall sb p call).run s [] ≠ .panic error := by
  constructor
  · rintro ⟨ip, stuck⟩
    constructor
    · by_contra apart
      have wp := syscall_free valid rest linked ready apart
      rw [Prog.Wp, stuck] at wp
      exact wp
    · intro error panicked
      rw [stuck] at panicked
      exact absurd panicked (by simp)
  · rintro ⟨⟨old, new, rfl, self⟩, alive⟩
    have wp := sysLink_stuck valid rest ready self
    rw [Prog.Wp] at wp
    cases outcome : (sysLink sb p old new).run s [] with
    | done value later held =>
      rw [outcome] at wp
      exact wp.elim
    | panic error => exact absurd outcome (alive error)
    | deadlock ip => exact ⟨ip, outcome⟩
    | asleep =>
      rw [outcome] at wp
      exact wp.elim

/-- A file `f` is made; `link("f", ".")` then waits for the root directory, which it has locked. -/
theorem exists_waiting : ∃ s, Reach (callStep mkfsSuper) (OrderlyCall mkfsSuper) (boot mkfsDisk) s ∧
    (∀ call ∈ [Call.link [102] dot, .open [103] oCreate], call.ready s 1 = true) ∧
    (syscall mkfsSuper 1 (.link [102] dot)).run s [] = .deadlock 0 := by
  obtain ⟨s, reached, ready, waits⟩ :
      ∃ s, Reach (callStep mkfsSuper) (OrderlyCall mkfsSuper) (boot mkfsDisk) s ∧
        (∀ call ∈ [Call.link [102] dot, .open [103] oCreate], call.ready s 1 = true) ∧
        ((syscall mkfsSuper 1 (.link [102] dot)).run s []).waits? = some 0 :=
    exists_reach [(1, .open [102] oCreate), (1, .close 0)] (by decide +kernel)
  exact ⟨s, reached, ready, Outcome.eq_deadlock waits⟩

/-- That link is one under a name by which a directory finds itself; opening a file in the same
state waits for nothing. -/
theorem self_deadlock_iff_mkfs : ∃ s,
    Reach (callStep mkfsSuper) (OrderlyCall mkfsSuper) (boot mkfsDisk) s ∧
    (syscall mkfsSuper 1 (.link [102] dot)).run s [] = .deadlock 0 ∧
    (Call.link [102] dot).LinksSelf (s.disk.node mkfsSuper) (s.cwdOf 1) ∧
    ∀ ip, (syscall mkfsSuper 1 (.open [103] oCreate)).run s [] ≠ .deadlock ip := by
  obtain ⟨s, reached, ready, waits⟩ := exists_waiting
  obtain ⟨rest, linked, -⟩ := reached_parented mkfsSuper_valid mkfs_consistent reached
  refine ⟨s, reached, waits, ?_, fun ip stuck => ?_⟩
  · exact ((self_deadlock_iff mkfsSuper_valid rest linked (ready _ (by simp))).mp ⟨0, waits⟩).1
  · obtain ⟨⟨old, new, same, -⟩, -⟩ :=
      (self_deadlock_iff mkfsSuper_valid rest linked (ready _ (by simp))).mp ⟨ip, stuck⟩
    cases same

/-- `link("f", ".")` waits for the lock of the root directory, which it holds. -/
theorem self_deadlock_dot : ∃ s,
    Reach (callStep mkfsSuper) (OrderlyCall mkfsSuper) (boot mkfsDisk) s ∧
      (Call.link [102] dot).ready s 1 = true ∧
      (syscall mkfsSuper 1 (.link [102] dot)).run s [] = .deadlock 0 := by
  obtain ⟨s, reached, ready, waits⟩ := exists_waiting
  exact ⟨s, reached, ready _ (by simp), waits⟩

/-- What a call comes to in every state of a consistent file system that completed calls lead to:
it returns with no inode locked, it is a link that waits for itself, or it ends in one of the
possible panics. It does not wait for anything else. -/
theorem call_outcomes (valid : sb.Valid) {d : Disk} (image : Image sb d)
    (reached : Reached sb (boot d) s) (linked : Linked sb.ninodes (s.disk.node sb))
    (ready : call.ready s p = true) :
    Prog.Wp Panic.Possible (fun _ => call.LinksSelf (s.disk.node sb) (s.cwdOf p))
      (syscall sb p call) (fun _ t held => held = [] ∧ AtRest sb t) s [] := by
  have rest := reached_atRest valid image reached
  apply syscall_full (fun _ => .exhausted) valid rest ready (.inl .noType) .nlink .initExiting
    (.inr linked.noSelf) (fun self _ => self)
  exact fun _ _ served => ⟨rfl, served.rest⟩

/-- A directory is made on a fresh image. -/
theorem call_outcomes_mkfs : ∃ s t, s = boot mkfsDisk ∧
    (syscall mkfsSuper 1 (.mkdir [97])).run s [] = .done 0 t [] ∧ AtRest mkfsSuper t := by
  -- The state is named, so that the call is evaluated once.
  obtain ⟨s, start, returns⟩ : ∃ s, s = boot mkfsDisk ∧
      ((syscall mkfsSuper 1 (.mkdir [97])).run s []).result?.map Prod.fst = some 0 :=
    ⟨_, rfl, by decide +kernel⟩
  have reached : Reached mkfsSuper (boot mkfsDisk) s := start ▸ .start
  have linked : Linked mkfsSuper.ninodes (s.disk.node mkfsSuper) := start ▸ mkfs_consistent.linked
  have ready : (Call.mkdir [97]).ready s 1 = true := start ▸ (by decide)
  obtain ⟨t, held, outcome⟩ := Outcome.eq_done returns
  obtain ⟨rfl, rest⟩ :=
    (call_outcomes mkfsSuper_valid mkfs_image reached linked ready).of_done outcome
  exact ⟨s, t, start, outcome, rest⟩

end Calls

end Xv6.Fs
