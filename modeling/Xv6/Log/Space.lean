import Mathlib.Algebra.Group.Action.Defs
import Mathlib.Algebra.Order.BigOperators.Group.Finset
import Xv6.Log.Group

/-!
# Log space

`begin_op` admits an operation only when the log has room for `MAXOPBLOCKS` more blocks of every
outstanding operation, so that a transaction never needs more than `LOGSIZE` entries. `log_write`
panics on a smaller number: with `log.size = LOGSIZE`, as `mkfs` stores it, the area has only
`LOGSIZE - 1` blocks behind its header, and the test is made before the search for a block to
absorb. `Reserved` is what the reservation does guarantee; `log_space` says where the two tests
disagree.
-/

namespace Xv6.Log

open Finset GroupState List

variable {Data : Type} {s later : GroupState Data} {event : Nat × LogAction Data} {p size op : Nat}

/-- Distinct blocks an operation has logged. -/
def opBlocks (s : GroupState Data) (op : Nat) : Finset Nat :=
  ((s.updates.filter fun update => update.op = op).map Update.blockno).toFinset

/-- Distinct blocks logged since the last commit. -/
def transBlocks (s : GroupState Data) : Finset Nat := (s.updates.map Update.blockno).toFinset

/-- The step keeps its operation within `MAXOPBLOCKS` distinct blocks. -/
def OpFits (s : GroupState Data) (event : Nat × LogAction Data) : Prop :=
  match event.2, s.phase event.1 with
  | .log blockno _, .inside op => (insert blockno (opBlocks s op)).card ≤ maxOpBlocks
  | _, _ => True

/-- A call of `log_write` finds fewer than `LOGSIZE - 1` distinct blocks logged since the last
commit. -/
def RoomLeft (s : GroupState Data) (event : Nat × LogAction Data) : Prop :=
  match event.2, s.phase event.1 with
  | .log _ _, .inside _ => (transBlocks s).card < logSize - 1
  | _, _ => True

instance (s : GroupState Data) (event : Nat × LogAction Data) : Decidable (OpFits s event) := by
  unfold OpFits
  split <;> infer_instance

/-- Blocks an operation may still log under its reservation. -/
def remaining (s : GroupState Data) (p : Nat) : Nat :=
  maxOpBlocks - (opBlocks s ((s.phase p).op?.getD 0)).card

/-- The reservation: the entries in use and what the running operations may still log fit the
array of the header. -/
structure Reserved (s : GroupState Data) : Prop where
  /-- A running operation has a number that was handed out. -/
  running : ∀ p op, (s.phase p).op? = some op → op < s.nextOp
  /-- So has every operation that logged. -/
  logged : ∀ update ∈ s.updates, update.op < s.nextOp
  /-- Two processes are never in one operation. -/
  apart : ∀ p q op, (s.phase p).op? = some op → (s.phase q).op? = some op → p = q
  /-- A block being logged is within its operation's bound. -/
  fits : ∀ p op blockno data, s.phase p = .logging op blockno data →
    (insert blockno (opBlocks s op)).card ≤ maxOpBlocks
  /-- The entries in use and the outstanding reservations fit. -/
  room : ∀ active : Finset Nat, (∀ p, p ∈ active ↔ (s.phase p).op? ≠ none) →
    s.lh.length + ∑ p ∈ active, remaining s p ≤ logSize

/-- The transaction has one entry for each distinct block. -/
theorem GroupInv.length_eq (inv : GroupInv s) : s.lh.length = (transBlocks s).card := by
  have same : s.lh.toFinset = transBlocks s := by
    ext blockno
    simp [transBlocks, inv.named]
  rw [← same, List.toFinset_card_of_nodup inv.distinct]

/-- A step that changes neither the log nor who is in which operation keeps the reservation. -/
theorem Reserved.same (reserved : Reserved s) (lh : later.lh = s.lh)
    (updates : later.updates = s.updates) (nextOp : later.nextOp = s.nextOp)
    (ops : ∀ p, (later.phase p).op? = (s.phase p).op?)
    (fits : ∀ p op blockno data, later.phase p = .logging op blockno data →
      (insert blockno (opBlocks s op)).card ≤ maxOpBlocks) : Reserved later := by
  have blocks (op : Nat) : opBlocks later op = opBlocks s op := by simp [opBlocks, updates]
  refine ⟨fun p op => ?_, ?_, fun p q op => ?_, fun p op blockno data => ?_, fun active => ?_⟩
  · rw [ops, nextOp]
    exact reserved.running p op
  · rw [updates, nextOp]
    exact reserved.logged
  · rw [ops, ops]
    exact reserved.apart p q op
  · rw [blocks]
    exact fits p op blockno data
  · simp only [ops, lh, remaining, blocks]
    exact reserved.room active

/-- Waking the sleepers keeps the reservation. -/
theorem Reserved.wakeup (reserved : Reserved s) : Reserved s.wakeup := by
  refine reserved.same rfl rfl rfl (fun p => s.wakeup_op p) (fun p op blockno data now => ?_)
  apply reserved.fits p op blockno data
  cases phase : s.phase p <;> simp_all [GroupState.wakeup]

/-- A process that stays in its operation, or stays outside, keeps the reservation. -/
theorem Reserved.setPhase {phase : Phase Data} (reserved : Reserved s)
    (same : phase.op? = (s.phase p).op?)
    (fits : ∀ op blockno data, phase = .logging op blockno data →
      (insert blockno (opBlocks s op)).card ≤ maxOpBlocks) : Reserved (s.setPhase p phase) := by
  refine reserved.same rfl rfl rfl (fun q => ?_) (fun q op blockno data now => ?_)
  all_goals grind [setPhase_phase, cases Reserved]

section

variable (inv : GroupInv s)

include inv

section

variable (reserved : Reserved s)

include reserved

/-- `begin_op` admits an operation only when its whole reservation fits. -/
theorem Reserved.beginOp (phase : s.phase p = .beginning) : Reserved (s.beginOp p) := by
  have sleeps : Reserved (s.setPhase p .asleep) :=
    reserved.setPhase (by rw [phase]; rfl) (by simp)
  have admitted := inv.beginOp phase
  unfold GroupState.beginOp at admitted ⊢
  split
  · exact sleeps
  split
  · exact sleeps
  rename_i idle roomy
  rw [if_neg idle, if_neg roomy] at admitted
  have phases (q : Nat) : ((s.setPhase p (.inside s.nextOp)).phase q).op? =
      if q = p then some s.nextOp else (s.phase q).op? := by
    rw [setPhase_phase]
    split <;> rfl
  refine ⟨fun q op now => ?_, fun update member => ?_, fun q r op first second => ?_,
    fun q op blockno data now => ?_, fun active member => ?_⟩
  · grind [cases Reserved]
  · have := reserved.logged update member
    change update.op < s.nextOp + 1
    omega
  · change ((s.setPhase p (.inside s.nextOp)).phase q).op? = some op at first
    change ((s.setPhase p (.inside s.nextOp)).phase r).op? = some op at second
    rw [phases] at first second
    -- A number handed out earlier is below the new one, so the new operation shares none.
    split at first <;> split at second
    · simp_all
    · cases first
      exact absurd (reserved.running r _ second) (by omega)
    · cases second
      exact absurd (reserved.running q _ first) (by omega)
    · exact reserved.apart q r op first second
  · change (s.setPhase p (.inside s.nextOp)).phase q = .logging op blockno data at now
    rw [setPhase_phase] at now
    split at now
    · contradiction
    · exact reserved.fits q op blockno data now
  · obtain ⟨counted, same, card⟩ := admitted.counted
    have active_eq : active = counted := by
      ext q
      rw [member, same]
    have each : ∀ q ∈ active, remaining { s.setPhase p (.inside s.nextOp) with
        outstanding := s.outstanding + 1, nextOp := s.nextOp + 1 } q ≤ maxOpBlocks :=
      fun q _ => Nat.sub_le _ _
    have total := Finset.sum_le_card_nsmul active _ maxOpBlocks each
    rw [active_eq, card, smul_eq_mul] at total
    change s.lh.length + _ ≤ logSize
    rw [active_eq]
    refine le_trans (Nat.add_le_add_left total _) ?_
    exact Nat.le_of_not_lt roomy

/-- Logging a block uses up the reservation of its operation, or nothing. -/
theorem Reserved.absorb {blockno : Nat} {data : Data}
    (phase : s.phase p = .logging op blockno data) : Reserved (s.absorb p op blockno data) := by
  have running : (s.phase p).op? = some op := by rw [phase]; rfl
  have ops (q : Nat) : ((s.absorb p op blockno data).phase q).op? = (s.phase q).op? := by
    change ((s.setPhase p (.inside op)).phase q).op? = _
    rw [setPhase_phase]
    split
    · rename_i here
      rw [here, running]
      rfl
    · rfl
  have own : opBlocks (s.absorb p op blockno data) op = insert blockno (opBlocks s op) := by
    ext other
    simp [opBlocks, GroupState.absorb, eq_comm]
  have others (number : Nat) (different : number ≠ op) :
      opBlocks (s.absorb p op blockno data) number = opBlocks s number := by
    simp [opBlocks, GroupState.absorb, different.symm]
  refine ⟨fun q number => ?_, fun update member => ?_, fun q r number => ?_,
    fun q number other value now => ?_, fun active member => ?_⟩
  · rw [ops]
    exact reserved.running q number
  · change update ∈ s.updates ++ [⟨op, blockno, data⟩] at member
    rcases mem_append.mp member with earlier | last
    · exact reserved.logged update earlier
    · rw [List.mem_singleton.mp last]
      exact reserved.running p op running
  · rw [ops, ops]
    exact reserved.apart q r number
  · change (s.setPhase p (.inside op)).phase q = .logging number other value at now
    rw [setPhase_phase] at now
    split at now
    · contradiction
    · rename_i elsewhere
      have different : number ≠ op := fun same => elsewhere
        (reserved.apart q p op (by rw [now, same]; rfl) running)
      rw [others number different]
      exact reserved.fits q number other value now
  · have before := reserved.room active (fun q => by rw [member, ops])
    have present : p ∈ active := by simp [member, ops, running]
    have fits := reserved.fits p op blockno data phase
    -- Only the term of `p` changes, and it gives back what a new entry takes.
    rw [← add_sum_erase active _ present] at before ⊢
    have rest : ∑ q ∈ active.erase p, remaining (s.absorb p op blockno data) q =
        ∑ q ∈ active.erase p, remaining s q := by
      refine sum_congr rfl fun q inside => ?_
      obtain ⟨elsewhere, inside⟩ := mem_erase.mp inside
      obtain ⟨number, current⟩ := Option.ne_none_iff_exists'.mp ((member q).mp inside)
      rw [ops] at current
      have different : number ≠ op := fun same => elsewhere
        (reserved.apart q p op (by rw [current, same]) running)
      simp [remaining, ops, current, others number different]
    have mine : remaining (s.absorb p op blockno data) p =
        maxOpBlocks - (insert blockno (opBlocks s op)).card := by
      simp [remaining, ops, running, own]
    have mineBefore : remaining s p = maxOpBlocks - (opBlocks s op).card := by
      simp [remaining, running]
    rw [rest, mine]
    rw [mineBefore] at before
    change (if blockno ∈ s.lh then s.lh else s.lh ++ [blockno]).length + _ ≤ logSize
    grind [opBlocks, List.mem_toFinset, cases GroupInv]

/-- The end of an operation gives its reservation back. -/
theorem Reserved.endOp (phase : s.phase p = .inside op) : Reserved (s.endOp p) := by
  have idle : ¬ s.committing = true := fun now => by
    have := inv.none_inside now p
    simp [phase, Phase.op?] at this
  -- Leaving the operation for any phase outside operations.
  have leaves (after : Phase Data) (ended : after.op? = none) : Reserved (s.setPhase p after) := by
    have phases (q : Nat) : ((s.setPhase p after).phase q).op? =
        if q = p then none else (s.phase q).op? := by
      rw [setPhase_phase]
      split
      · exact ended
      · rfl
    refine ⟨fun q number now => ?_, reserved.logged, fun q r number first second => ?_,
      fun q number blockno data now => ?_, fun active member => ?_⟩
    · rw [phases] at now
      split at now
      · contradiction
      · exact reserved.running q number now
    · grind [cases Reserved]
    · rw [setPhase_phase] at now
      split at now
      · rw [now] at ended
        simp [Phase.op?] at ended
      · exact reserved.fits q number blockno data now
    · have absent : p ∉ active := by simp [member, ended]
      have before := reserved.room (insert p active) (fun q => by
        by_cases here : q = p
        · simp [here, phase, Phase.op?]
        · simp [here, member, phases])
      rw [sum_insert absent] at before
      have same : ∑ q ∈ active, remaining (s.setPhase p after) q =
          ∑ q ∈ active, remaining s q := by
        refine sum_congr rfl fun q inside => ?_
        have elsewhere : q ≠ p := fun here => absent (here ▸ inside)
        simp only [remaining, phases, if_neg elsewhere]
        rfl
      rw [same]
      change s.lh.length + _ ≤ logSize
      omega
  unfold GroupState.endOp
  dsimp only
  rw [if_neg idle]
  split
  · have left := leaves (.committing .test) rfl
    exact ⟨left.running, left.logged, left.apart, left.fits, left.room⟩
  · have left := leaves .outside rfl
    have counted : Reserved { s.setPhase p .outside with outstanding := s.outstanding - 1 } :=
      ⟨left.running, left.logged, left.apart, left.fits, left.room⟩
    exact counted.wakeup

/-- `commit` only empties the log. -/
theorem Reserved.commitStep {stage : CommitStage} (phase : s.phase p = .committing stage) :
    Reserved (s.commitStep p stage) := by
  have quiet := inv.none_inside (inv.owner p stage phase)
  have moved (after : Phase Data) (ended : after.op? = none) : Reserved (s.setPhase p after) :=
    reserved.setPhase (by rw [ended, phase]; rfl) (fun op blockno data now => by
      rw [now] at ended
      simp [Phase.op?] at ended)
  have relabel {later : GroupState Data} (after : Phase Data) (ended : after.op? = none)
      (lh : later.lh = s.lh) (updates : later.updates = s.updates)
      (nextOp : later.nextOp = s.nextOp) (phases : later.phase = (s.setPhase p after).phase) :
      Reserved later := by
    have next := moved after ended
    refine next.same lh updates nextOp (fun q => by rw [phases]) (fun q op blockno data now => ?_)
    rw [phases] at now
    exact next.fits q op blockno data now
  cases stage with
  | test => exact moved _ rfl
  | writeLog tail =>
    cases entry : s.lh[tail]? with
    | none =>
      simp only [GroupState.commitStep, entry]
      exact moved _ rfl
    | some blockno =>
      simp only [GroupState.commitStep, entry]
      exact relabel _ rfl rfl rfl rfl rfl
  | writeHead => exact relabel _ rfl rfl rfl rfl rfl
  | install tail =>
    cases entry : s.lh[tail]? with
    | none =>
      simp only [GroupState.commitStep, entry]
      exact moved _ rfl
    | some blockno =>
      simp only [GroupState.commitStep, entry]
      exact relabel _ rfl rfl rfl rfl rfl
  | clear =>
    have next := moved (.committing .erase) rfl
    have none_running (q : Nat) : ((s.setPhase p (.committing .erase)).phase q).op? = none := by
      rw [setPhase_phase]
      split
      · rfl
      · exact quiet q
    refine ⟨next.running, by simp [GroupState.commitStep], next.apart,
      fun q op blockno data now => ?_, fun active member => ?_⟩
    · have running : ((s.setPhase p (.committing .erase)).phase q).op? = some op := by
        change (s.setPhase p (.committing .erase)).phase q = .logging op blockno data at now
        rw [now]
        rfl
      rw [none_running] at running
      contradiction
    · have empty : active = ∅ := by
        ext q
        have := member q
        change _ ↔ ((s.setPhase p (.committing .erase)).phase q).op? ≠ none at this
        simp [this, none_running]
      simp [empty, GroupState.commitStep]
  | erase => exact relabel _ rfl rfl rfl rfl rfl
  | finish =>
    have cleared : Reserved { s.setPhase p .outside with committing := false } :=
      relabel .outside rfl rfl rfl rfl rfl
    exact cleared.wakeup

/-- Every step that keeps its operation within its bound keeps the reservation. -/
theorem Reserved.step (fits : OpFits s event) (moves : groupStep size s event = some later) :
    Reserved later := by
  obtain ⟨p, action⟩ := event
  obtain ⟨_, outside | asleep | beginning | logs | absorbs | leaves | commits⟩ :=
    groupStep_cases moves
  · obtain ⟨phase, rfl⟩ := outside
    exact reserved.setPhase (by rw [phase]; rfl) (by simp)
  · obtain ⟨phase, rfl⟩ := asleep
    exact reserved.setPhase (by rw [phase]; rfl) (by simp)
  · obtain ⟨phase, rfl⟩ := beginning
    exact Reserved.beginOp inv reserved phase
  · obtain ⟨op, blockno, data, rfl, phase, rfl⟩ := logs
    simp only [OpFits, phase] at fits
    unfold GroupState.logWrite
    split
    · exact reserved.same rfl rfl rfl (fun _ => rfl) reserved.fits
    split
    · exact reserved.same rfl rfl rfl (fun _ => rfl) reserved.fits
    · refine reserved.setPhase (by rw [phase]; rfl) (fun number other value same => ?_)
      cases same
      exact fits
  all_goals grind [Reserved.absorb, Reserved.endOp, Reserved.commitStep]

end

end

/-- The reservation holds of the log after recovery. -/
theorem initGroup_reserved (disk copy : Nat → Data) : Reserved (initGroup disk copy) := by
  refine ⟨by simp [initGroup, Phase.op?], by simp [initGroup], by simp [initGroup, Phase.op?],
    by simp [initGroup], fun active member => ?_⟩
  have empty : active = ∅ := by
    ext p
    simp [member, initGroup, Phase.op?]
  simp [empty, initGroup]

/-- The invariant and the reservation hold in every state of a run whose operations keep within
`MAXOPBLOCKS`. -/
theorem reserved_of_reach {disk copy : Nat → Data}
    (reached : Lib.Reach (groupStep size) OpFits (initGroup disk copy) s) :
    GroupInv s ∧ Reserved s :=
  reached.invariant (fun s => GroupInv s ∧ Reserved s)
    ⟨initGroup_inv disk copy, initGroup_reserved disk copy⟩
    (fun _ _ _ both fits moves => ⟨both.1.step moves, both.2.step both.1 fits moves⟩)

/-- A step raises the panic of `log_write` only by calling it on a full log. -/
theorem tooBig_of_step (moves : groupStep logSize s event = some later)
    (panics : later.panic = some .tooBig) :
    ∃ op blockno data, event.2 = .log blockno data ∧ s.phase event.1 = .inside op ∧
      logSize ≤ s.lh.length + 1 := by
  obtain ⟨p, action⟩ := event
  obtain ⟨running, outside | asleep | beginning | logs | absorbs | leaves | commits⟩ :=
    groupStep_cases moves
  · obtain ⟨_, rfl⟩ := outside
    simp [GroupState.setPhase, running] at panics
  · obtain ⟨_, rfl⟩ := asleep
    simp [GroupState.setPhase, running] at panics
  · grind [GroupState.beginOp, GroupState.setPhase]
  · grind [GroupState.logWrite, GroupState.setPhase]
  · obtain ⟨op, blockno, data, _, rfl⟩ := absorbs
    simp [GroupState.absorb, GroupState.setPhase, running] at panics
  · grind [GroupState.endOp, GroupState.setPhase, GroupState.wakeup]
  · obtain ⟨stage, _, rfl⟩ := commits
    cases stage <;> simp only [GroupState.commitStep] at panics
    all_goals grind [GroupState.setPhase, GroupState.wakeup]

/-- When the log space suffices, with `log.size = LOGSIZE` and every operation within
`MAXOPBLOCKS` distinct blocks. A run in which every call of `log_write` finds fewer than
`LOGSIZE - 1` distinct blocks logged since the last commit never reaches the panic. The bound is
exact: in any run, a call made with `LOGSIZE - 1` distinct blocks logged panics, whichever block
it is for, and the reservation lets a transaction reach that number but never pass `LOGSIZE`. -/
theorem log_space (disk copy : Nat → Data) (s : GroupState Data) :
    (Lib.Reach (groupStep logSize) (fun s event => OpFits s event ∧ RoomLeft s event)
        (initGroup disk copy) s → s.panic ≠ some .tooBig) ∧
    (Lib.Reach (groupStep logSize) OpFits (initGroup disk copy) s →
      (transBlocks s).card ≤ logSize ∧
      ∀ p op blockno data, s.panic = none → s.phase p = .inside op →
        ((s.logWrite logSize p op blockno data).panic = some .tooBig ↔
          logSize - 1 ≤ (transBlocks s).card)) := by
  constructor
  · intro reached
    refine (reached.invariant (fun s => GroupInv s ∧ s.panic ≠ some .tooBig)
      ⟨initGroup_inv disk copy, by simp [initGroup]⟩ ?_).2
    rintro state ⟨p, action⟩ later ⟨inv, _⟩ ⟨_, room⟩ moves
    refine ⟨inv.step moves, fun panics => ?_⟩
    obtain ⟨op, blockno, data, called, phase, full⟩ := tooBig_of_step moves panics
    change action = _ at called
    subst called
    simp only [RoomLeft, phase] at room
    rw [inv.length_eq] at full
    omega
  · intro reached
    obtain ⟨inv, reserved⟩ := reserved_of_reach reached
    obtain ⟨active, member, _⟩ := inv.counted
    have room := reserved.room active member
    have length := inv.length_eq
    refine ⟨by omega, fun p op blockno data running phase => ?_⟩
    have present : p ∈ active := by simp [member, phase, Phase.op?]
    have positive : ¬ s.outstanding < 1 := by
      have := Finset.card_pos.mpr ⟨p, present⟩
      omega
    unfold GroupState.logWrite
    split
    · rename_i full
      simp only [true_iff]
      omega
    · rename_i space
      simp only [GroupState.setPhase, running, reduceCtorEq, false_iff]
      omega

/-- Three operations of ten distinct blocks each, all admitted at once. -/
def fullLoad : List (Nat × LogAction Unit) :=
  [(0, .call), (0, .enter), (1, .call), (1, .enter), (2, .call), (2, .enter)] ++
    (List.range 29).flatMap (fun blockno =>
      [(blockno / 10, .log blockno ()), (blockno / 10, .absorb)]) ++ [(2, .log 29 ())]

/-- Three operations that keep within `MAXOPBLOCKS` reach the panic: the last block of the third
finds 29 entries in a log of `LOGSIZE` blocks. -/
theorem log_space_exhausted :
    ∃ s : GroupState Unit, Lib.Reach (groupStep logSize) OpFits
      (initGroup (fun _ => ()) (fun _ => ())) s ∧ s.panic = some .tooBig := by
  have reached : Lib.Reach (groupStep logSize) OpFits
      (initGroup (fun _ => ()) (fun _ => ())) _ := Lib.reach_of_runChecked fullLoad .start rfl
  exact ⟨_, reached, rfl⟩

end Xv6.Log
