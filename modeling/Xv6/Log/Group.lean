import Mathlib.Data.Finset.Card
import Xv6.Lib.Run
import Xv6.Param

/-!
# Group commit

The part of `log.c` that many processes run at once: `begin_op`, `log_write`, `end_op` and the
steps of `commit`, at the granularity of `log.lock`. What runs under the lock is one step;
`log_write` tests for a full log before it takes the lock and `commit` runs without it, so both
are several steps. A block's contents are opaque here and `cache` is what `bread` returns.

The state also records what the code does not: which operation logged what since the last
commit (`updates`), with a number for each operation.
-/

namespace Xv6.Log

open Function

variable {Data : Type} {size op : Nat} {stage : CommitStage}

/-- Position of the committing process inside `commit` and the end of `end_op`. -/
inductive CommitStage where
  /-- At the test `log.lh.n > 0`. -/
  | test
  /-- In `write_log`, about to copy entry `tail`. -/
  | writeLog (tail : Nat)
  /-- About to write the header: the commit itself. -/
  | writeHead
  /-- In `install_trans`, about to install entry `tail`. -/
  | install (tail : Nat)
  /-- About to set `log.lh.n = 0`. -/
  | clear
  /-- About to write the empty header. -/
  | erase
  /-- Back in `end_op`, about to clear `log.committing`. -/
  | finish
  deriving DecidableEq

/-- Where a process stands with respect to the log. -/
inductive Phase (Data : Type) where
  /-- Outside every operation. -/
  | outside
  /-- At the top of the loop of `begin_op`. -/
  | beginning
  /-- Asleep on `&log` in `begin_op`. -/
  | asleep
  /-- Between `begin_op` and `end_op`, in the numbered operation. -/
  | inside (op : Nat)
  /-- In `log_write`, past its tests and before it takes the lock. -/
  | logging (op blockno : Nat) (data : Data)
  /-- Running `commit`. -/
  | committing (stage : CommitStage)

/-- The operation a process is in, if it is between `begin_op` and `end_op`. -/
def Phase.op? : Phase Data → Option Nat
  | inside op => some op
  | logging op _ _ => some op
  | _ => none

/-- The panics of `log.c`. -/
inductive LogPanic where
  /-- `"too big a transaction"`. -/
  | tooBig
  /-- `"log_write outside of trans"`. -/
  | outsideTrans
  /-- `"log.committing"`. -/
  | committing
  deriving DecidableEq

/-- A block logged by an operation. -/
structure Update (Data : Type) where
  /-- The operation that called `log_write`. -/
  op : Nat
  /-- `b->blockno`. -/
  blockno : Nat
  /-- `b->data`. -/
  data : Data

/-- `struct log` with the processes that use it, the cache above it and the disk below it. -/
structure GroupState (Data : Type) where
  /-- `log.outstanding`. -/
  outstanding : Nat
  /-- `log.committing`. -/
  committing : Bool
  /-- `log.lh.block[0 .. log.lh.n)`. -/
  lh : List Nat
  /-- Where each process stands. -/
  phase : Nat → Phase Data
  /-- Contents of each block as `bread` returns them. -/
  cache : Nat → Data
  /-- Contents of the log blocks behind the header. -/
  copy : Nat → Data
  /-- The header on disk. -/
  header : List Nat
  /-- Home blocks on disk. -/
  home : Nat → Data
  /-- The panic that stopped the machine. -/
  panic : Option LogPanic
  /-- Number of the next operation. -/
  nextOp : Nat
  /-- Blocks logged since the last commit, oldest first. -/
  updates : List (Update Data)

namespace GroupState

/-- Move one process. -/
def setPhase (s : GroupState Data) (p : Nat) (phase : Phase Data) : GroupState Data :=
  { s with phase := update s.phase p phase }

/-- `wakeup(&log)`: every process asleep in `begin_op` goes back to the top of its loop. -/
def wakeup (s : GroupState Data) : GroupState Data :=
  { s with phase := fun p => match s.phase p with
      | .asleep => .beginning
      | phase => phase }

/-- One iteration of the loop of `begin_op`. -/
def beginOp (s : GroupState Data) (p : Nat) : GroupState Data :=
  if s.committing then s.setPhase p .asleep
  else if s.lh.length + (s.outstanding + 1) * maxOpBlocks > logSize then s.setPhase p .asleep
  else { s.setPhase p (.inside s.nextOp) with
    outstanding := s.outstanding + 1, nextOp := s.nextOp + 1 }

/-- The tests of `log_write`, made before it takes the lock. -/
def logWrite (size : Nat) (s : GroupState Data) (p op blockno : Nat) (data : Data) :
    GroupState Data :=
  if s.lh.length ≥ logSize ∨ s.lh.length + 1 ≥ size then { s with panic := some .tooBig }
  else if s.outstanding < 1 then { s with panic := some .outsideTrans }
  else s.setPhase p (.logging op blockno data)

/-- The locked part of `log_write`: absorb the block or append it. -/
def absorb (s : GroupState Data) (p op blockno : Nat) (data : Data) : GroupState Data :=
  { s.setPhase p (.inside op) with
    lh := if blockno ∈ s.lh then s.lh else s.lh ++ [blockno]
    cache := update s.cache blockno data
    updates := s.updates ++ [⟨op, blockno, data⟩] }

/-- The first locked part of `end_op`. -/
def endOp (s : GroupState Data) (p : Nat) : GroupState Data :=
  let s := { s with outstanding := s.outstanding - 1 }
  if s.committing then { s with panic := some .committing }
  else if s.outstanding = 0 then
    { s.setPhase p (.committing .test) with committing := true }
  else (s.setPhase p .outside).wakeup

/-- One step of `commit`, then the second locked part of `end_op`. -/
def commitStep (s : GroupState Data) (p : Nat) : CommitStage → GroupState Data
  | .test => s.setPhase p (.committing (if 0 < s.lh.length then .writeLog 0 else .finish))
  | .writeLog tail =>
    match s.lh[tail]? with
    | some blockno => { s.setPhase p (.committing (.writeLog (tail + 1))) with
        copy := update s.copy tail (s.cache blockno) }
    | none => s.setPhase p (.committing .writeHead)
  | .writeHead => { s.setPhase p (.committing (.install 0)) with header := s.lh }
  | .install tail =>
    match s.lh[tail]? with
    | some blockno => { s.setPhase p (.committing (.install (tail + 1))) with
        cache := update s.cache blockno (s.copy tail)
        home := update s.home blockno (s.copy tail) }
    | none => s.setPhase p (.committing .clear)
  | .clear => { s.setPhase p (.committing .erase) with lh := [], updates := [] }
  | .erase => { s.setPhase p (.committing .finish) with header := s.lh }
  | .finish => ({ s.setPhase p .outside with committing := false }).wakeup

end GroupState

/-- What a process does next. -/
inductive LogAction (Data : Type) where
  /-- Call `begin_op`. -/
  | call
  /-- Run one iteration of `begin_op`. -/
  | enter
  /-- Call `log_write` on a block with the given contents. -/
  | log (blockno : Nat) (data : Data)
  /-- Run the locked part of `log_write`. -/
  | absorb
  /-- Call `end_op`. -/
  | leave
  /-- Run one step of `commit`. -/
  | commit
  /-- Be woken in `begin_op` by a `kill`. -/
  | kill

/-- One step of one process; a panic stops the machine. -/
def groupStep (size : Nat) (s : GroupState Data) (event : Nat × LogAction Data) :
    Option (GroupState Data) :=
  if s.panic ≠ none then none
  else match event.2, s.phase event.1 with
    | .call, .outside => some (s.setPhase event.1 .beginning)
    | .enter, .beginning => some (s.beginOp event.1)
    | .log blockno data, .inside op => some (s.logWrite size event.1 op blockno data)
    | .absorb, .logging op blockno data => some (s.absorb event.1 op blockno data)
    | .leave, .inside _ => some (s.endOp event.1)
    | .commit, .committing stage => some (s.commitStep event.1 stage)
    | .kill, .asleep => some (s.setPhase event.1 .beginning)
    | _, _ => none

/-- The log after recovery, no process in an operation. -/
def initGroup (disk : Nat → Data) (copy : Nat → Data) : GroupState Data where
  outstanding := 0
  committing := false
  lh := []
  phase := fun _ => .outside
  cache := disk
  copy := copy
  header := []
  home := disk
  panic := none
  nextOp := 0
  updates := []

/-- What a step did: one of the transitions of the source, from the phase that enables it. -/
theorem groupStep_cases {s later : GroupState Data} {p : Nat} {action : LogAction Data}
    (moves : groupStep size s (p, action) = some later) :
    s.panic = none ∧
    ((s.phase p = .outside ∧ later = s.setPhase p .beginning) ∨
      (s.phase p = .asleep ∧ later = s.setPhase p .beginning) ∨
      (s.phase p = .beginning ∧ later = s.beginOp p) ∨
      (∃ op blockno data, action = .log blockno data ∧ s.phase p = .inside op ∧
        later = s.logWrite size p op blockno data) ∨
      (∃ op blockno data, s.phase p = .logging op blockno data ∧
        later = s.absorb p op blockno data) ∨
      (∃ op, s.phase p = .inside op ∧ later = s.endOp p) ∨
      (∃ stage, s.phase p = .committing stage ∧ later = s.commitStep p stage)) := by
  grind [groupStep]

/-! ## Phases after a step -/

namespace GroupState

variable (s : GroupState Data) (p q : Nat) (phase : Phase Data)

@[simp] theorem setPhase_self : (s.setPhase p phase).phase p = phase := by simp [setPhase]

theorem setPhase_phase : (s.setPhase p phase).phase q = if q = p then phase else s.phase q := by
  simp [setPhase, update_apply]

@[simp] theorem wakeup_op : (s.wakeup.phase q).op? = (s.phase q).op? := by
  cases h : s.phase q <;> simp [wakeup, h, Phase.op?]

@[simp] theorem wakeup_committing (stage : CommitStage) :
    s.wakeup.phase q = .committing stage ↔ s.phase q = .committing stage := by
  cases h : s.phase q <;> simp [wakeup, h]

end GroupState

/-- Contents of the last update of a block. -/
def lastData (updates : List (Update Data)) (blockno : Nat) : Option Data :=
  (updates.reverse.find? fun update => update.blockno == blockno).map Update.data

theorem lastData_append (updates : List (Update Data)) (update : Update Data) (blockno : Nat) :
    lastData (updates ++ [update]) blockno =
      if update.blockno = blockno then some update.data else lastData updates blockno := by
  by_cases same : update.blockno = blockno <;> simp [lastData, same]

/-- A block has a last update exactly when it has been updated. -/
theorem lastData_isSome (updates : List (Update Data)) (blockno : Nat) :
    (lastData updates blockno).isSome ↔ ∃ update ∈ updates, update.blockno = blockno := by
  simp [lastData]

/-- Entries of the transaction whose copy in the log is complete at a stage of `commit`. -/
def CommitStage.copied (entries : Nat) : CommitStage → Nat
  | test => 0
  | writeLog tail => tail
  | _ => entries

/-- The invariant of group commit. -/
structure GroupInv (s : GroupState Data) : Prop where
  /-- `outstanding` counts the processes between `begin_op` and `end_op`. -/
  counted : ∃ active : Finset Nat,
    (∀ p, p ∈ active ↔ (s.phase p).op? ≠ none) ∧ active.card = s.outstanding
  /-- A commit starts when nothing is outstanding and lets nothing begin. -/
  quiet : s.committing = true → s.outstanding = 0
  /-- A process in `commit` has set `committing`. -/
  owner : ∀ p stage, s.phase p = .committing stage → s.committing = true
  /-- At most one process is in `commit`. -/
  alone : ∀ p q stage other, s.phase p = .committing stage → s.phase q = .committing other → p = q
  /-- Absorption keeps the block numbers distinct. -/
  distinct : s.lh.Nodup
  /-- The transaction names exactly the blocks updated since the last commit. -/
  named : ∀ blockno, blockno ∈ s.lh ↔ ∃ update ∈ s.updates, update.blockno = blockno
  /-- The cache has the last update of each block. -/
  cached : ∀ blockno data, lastData s.updates blockno = some data → s.cache blockno = data
  /-- The copies made so far are the cached contents. -/
  copied : ∀ p stage, s.phase p = .committing stage → ∀ index blockno,
    index < stage.copied s.lh.length → s.lh[index]? = some blockno →
      s.copy index = s.cache blockno

namespace GroupInv

variable {s : GroupState Data} {p : Nat} (inv : GroupInv s)

include inv

/-- The invariant does not read the panic. -/
theorem withPanic (panic : Option LogPanic) : GroupInv { s with panic := panic } :=
  ⟨inv.counted, inv.quiet, inv.owner, inv.alone, inv.distinct, inv.named, inv.cached, inv.copied⟩

/-- While a commit runs, no process is between `begin_op` and `end_op`. -/
theorem none_inside (committing : s.committing = true) (q : Nat) : (s.phase q).op? = none := by
  grind [cases GroupInv]

/-- A process that neither begins nor ends an operation and does not enter `commit` keeps the
invariant. -/
theorem setPhase {phase : Phase Data} (same : phase.op? = (s.phase p).op?)
    (apart : ∀ stage, phase ≠ .committing stage) : GroupInv (s.setPhase p phase) := by
  have commits (q : Nat) (stage : CommitStage)
      (now : (s.setPhase p phase).phase q = .committing stage) : s.phase q = .committing stage := by
    rw [GroupState.setPhase_phase] at now
    split at now
    · exact absurd now (apart stage)
    · exact now
  refine ⟨?_, inv.quiet, fun q stage now => inv.owner q stage (commits q stage now),
    fun q r stage other first second => inv.alone q r stage other (commits q stage first)
      (commits r other second), inv.distinct, inv.named, inv.cached,
    fun q stage now => inv.copied q stage (commits q stage now)⟩
  obtain ⟨active, member, card⟩ := inv.counted
  refine ⟨active, fun q => ?_, card⟩
  rw [member, GroupState.setPhase_phase]
  by_cases here : q = p
  · simp [here, same]
  · simp [here]

/-- Waking the sleepers keeps the invariant. -/
theorem wakeup : GroupInv s.wakeup := by
  refine ⟨?_, inv.quiet, fun q stage now => ?_, fun q r stage other first second => ?_,
    inv.distinct, inv.named, inv.cached, fun q stage now => ?_⟩
  · obtain ⟨active, member, card⟩ := inv.counted
    exact ⟨active, fun q => by rw [member, GroupState.wakeup_op], card⟩
  · exact inv.owner q stage ((s.wakeup_committing q stage).mp now)
  · exact inv.alone q r stage other ((s.wakeup_committing q stage).mp first)
      ((s.wakeup_committing r other).mp second)
  · exact inv.copied q stage ((s.wakeup_committing q stage).mp now)

/-- An admitted operation is counted; nothing is admitted during a commit. -/
theorem beginOp (phase : s.phase p = .beginning) : GroupInv (s.beginOp p) := by
  have sleeps : GroupInv (s.setPhase p .asleep) :=
    inv.setPhase (by rw [phase]; rfl) (fun _ => by simp)
  unfold GroupState.beginOp
  split
  · exact sleeps
  split
  · exact sleeps
  rename_i idle _
  obtain ⟨active, member, card⟩ := inv.counted
  have fresh : p ∉ active := by simp [member, phase, Phase.op?]
  have commits (q : Nat) (stage : CommitStage)
      (now : (s.setPhase p (.inside s.nextOp)).phase q = .committing stage) :
      s.phase q = .committing stage := by
    rw [GroupState.setPhase_phase] at now
    split at now
    · contradiction
    · exact now
  refine ⟨⟨insert p active, fun q => ?_, ?_⟩, fun now => absurd now idle,
    fun q stage now => absurd (inv.owner q stage (commits q stage now)) idle,
    fun q _ stage _ first _ => absurd (inv.owner q stage (commits q stage first)) idle,
    inv.distinct, inv.named, inv.cached,
    fun q stage now => absurd (inv.owner q stage (commits q stage now)) idle⟩
  all_goals grind [Phase.op?, GroupState.setPhase_phase]

/-- The locked part of `log_write` extends the transaction by at most the one block. -/
theorem absorb {blockno : Nat} {data : Data} (phase : s.phase p = .logging op blockno data) :
    GroupInv (s.absorb p op blockno data) := by
  have moved : GroupInv (s.setPhase p (.inside op)) :=
    inv.setPhase (by rw [phase]; rfl) (fun _ => by simp)
  -- A process inside an operation rules out a running commit, so no copy can be stale.
  have idle : ¬ s.committing = true := fun now => by
    have := inv.none_inside now p
    simp [phase, Phase.op?] at this
  refine ⟨moved.counted, moved.quiet, moved.owner, moved.alone, ?_, fun other => ?_,
    fun other value => ?_, fun q stage now => absurd (moved.owner q stage now) idle⟩
  · change (if blockno ∈ s.lh then s.lh else s.lh ++ [blockno]).Nodup
    grind [cases GroupInv]
  · change other ∈ (if blockno ∈ s.lh then s.lh else s.lh ++ [blockno]) ↔
      ∃ update ∈ s.updates ++ [⟨op, blockno, data⟩], update.blockno = other
    have before := inv.named other
    by_cases same : blockno = other
    · subst same
      split <;> simp_all
    grind
  · change lastData (s.updates ++ [⟨op, blockno, data⟩]) other = some value →
      update s.cache blockno data other = value
    grind [lastData_append, cases GroupInv]

/-- `end_op` stops counting the operation; the last one starts a commit. -/
theorem endOp (phase : s.phase p = .inside op) : GroupInv (s.endOp p) := by
  have idle : ¬ s.committing = true := fun now => by
    have := inv.none_inside now p
    simp [phase, Phase.op?] at this
  obtain ⟨active, member, card⟩ := inv.counted
  have present : p ∈ active := by simp [member, phase, Phase.op?]
  have remaining : (active.erase p).card = s.outstanding - 1 := by
    rw [Finset.card_erase_of_mem present, card]
  have counted (after : Phase Data) (ended : after.op? = none) (q : Nat) :
      q ∈ active.erase p ↔ ((s.setPhase p after).phase q).op? ≠ none := by
    by_cases here : q = p
    · simp [here, ended]
    · simp [here, member, GroupState.setPhase_phase]
  have commits (after : Phase Data) (q : Nat) (stage : CommitStage)
      (now : (s.setPhase p after).phase q = .committing stage) : q = p := by
    rw [GroupState.setPhase_phase] at now
    split at now
    · assumption
    · exact absurd (inv.owner q stage now) idle
  unfold GroupState.endOp
  dsimp only
  rw [if_neg idle]
  split
  · rename_i last
    refine ⟨⟨active.erase p, counted _ rfl, remaining⟩, fun _ => last, fun _ _ _ => rfl,
      fun q r stage other first second => ?_, inv.distinct, inv.named, inv.cached,
      fun q stage now index blockno below => ?_⟩
    · rw [commits _ q stage first, commits _ r other second]
    · have here := commits _ q stage now
      subst here
      have stage_eq : CommitStage.test = stage := by simpa using now
      subst stage_eq
      simp [CommitStage.copied] at below
  · have moved : GroupInv { s.setPhase p .outside with outstanding := s.outstanding - 1 } := by
      have apart (q : Nat) (stage : CommitStage) :
          ¬ (s.setPhase p .outside).phase q = .committing stage := fun now => by
        have here := commits _ q stage now
        subst here
        simp at now
      exact ⟨⟨active.erase p, counted _ rfl, remaining⟩, fun now => absurd now idle,
        fun q stage now => absurd now (apart q stage),
        fun q _ stage _ first _ => absurd first (apart q stage), inv.distinct, inv.named,
        inv.cached, fun q stage now => absurd now (apart q stage)⟩
    exact moved.wakeup

/-- The committing process moves to a stage whose copies are complete. -/
theorem advance {next : CommitStage} (phase : s.phase p = .committing stage)
    (complete : ∀ index blockno, index < next.copied s.lh.length →
      s.lh[index]? = some blockno → s.copy index = s.cache blockno) :
    GroupInv (s.setPhase p (.committing next)) := by
  have committing := inv.owner p stage phase
  have commits (q : Nat) (other : CommitStage)
      (now : (s.setPhase p (.committing next)).phase q = .committing other) : q = p := by
    rw [GroupState.setPhase_phase] at now
    split at now
    · assumption
    · exact inv.alone q p other stage now phase
  refine ⟨?_, inv.quiet, fun _ _ _ => committing, fun q r first second left right => ?_,
    inv.distinct, inv.named, inv.cached, fun q other now => ?_⟩
  · obtain ⟨active, member, card⟩ := inv.counted
    refine ⟨active, fun q => ?_, card⟩
    rw [member, GroupState.setPhase_phase]
    by_cases here : q = p
    · simp [here, phase, Phase.op?]
    · simp [here]
  · rw [commits q first left, commits r second right]
  · have here := commits q other now
    subst here
    have stage_eq : next = other := by simpa using now
    subst stage_eq
    exact complete

/-- Every step of `commit` keeps the invariant. -/
theorem commitStep (phase : s.phase p = .committing stage) : GroupInv (s.commitStep p stage) := by
  have copied := inv.copied p stage phase
  cases stage with
  | test =>
    apply inv.advance phase
    grind [CommitStage.copied]
  | writeLog tail =>
    cases entry : s.lh[tail]? with
    | none =>
      simp only [GroupState.commitStep, entry]
      apply inv.advance phase
      grind [CommitStage.copied]
    | some blockno =>
      simp only [GroupState.commitStep, entry]
      -- First the new copy, under the phase that has not moved yet.
      have extended : GroupInv { s with copy := update s.copy tail (s.cache blockno) } := by
        refine ⟨inv.counted, inv.quiet, inv.owner, inv.alone, inv.distinct, inv.named, inv.cached,
          fun q other now index found below named => ?_⟩
        have here := inv.alone q p other _ now phase
        subst here
        rw [phase] at now
        cases now
        simp only [CommitStage.copied] at below
        simpa [update_of_ne (show index ≠ tail by omega)] using
          copied index found below named
      apply extended.advance phase
      grind [CommitStage.copied]
  | writeHead =>
    have moved : GroupInv (s.setPhase p (.committing (.install 0))) := inv.advance phase copied
    exact ⟨moved.counted, moved.quiet, moved.owner, moved.alone, moved.distinct, moved.named,
      moved.cached, moved.copied⟩
  | install tail =>
    cases entry : s.lh[tail]? with
    | none =>
      simp only [GroupState.commitStep, entry]
      exact inv.advance phase copied
    | some blockno =>
      simp only [GroupState.commitStep, entry]
      have moved : GroupInv (s.setPhase p (.committing (.install (tail + 1)))) :=
        inv.advance phase copied
      -- The copy is the cached contents, so installing it does not change the cache.
      have inside : tail < s.lh.length := (List.getElem?_eq_some_iff.mp entry).1
      have same : update s.cache blockno (s.copy tail) = s.cache := by
        rw [copied tail blockno inside entry, update_eq_self]
      rw [same]
      exact ⟨moved.counted, moved.quiet, moved.owner, moved.alone, moved.distinct, moved.named,
        moved.cached, moved.copied⟩
  | clear =>
    have moved : GroupInv (s.setPhase p (.committing .erase)) := inv.advance phase copied
    exact ⟨moved.counted, moved.quiet, moved.owner, moved.alone, List.nodup_nil,
      by simp [GroupState.commitStep], by simp [GroupState.commitStep, lastData],
      by simp [GroupState.commitStep]⟩
  | erase =>
    have moved : GroupInv (s.setPhase p (.committing .finish)) := inv.advance phase copied
    exact ⟨moved.counted, moved.quiet, moved.owner, moved.alone, moved.distinct, moved.named,
      moved.cached, moved.copied⟩
  | finish =>
    have apart (q : Nat) (other : CommitStage) :
        ¬ (s.setPhase p .outside).phase q = .committing other := fun now => by
      grind [GroupState.setPhase_phase, cases GroupInv]
    have finished : GroupInv { s.setPhase p .outside with committing := false } := by
      refine ⟨?_, fun now => absurd now (by simp), fun q other now => absurd now (apart q other),
        fun q _ other _ now _ => absurd now (apart q other), inv.distinct, inv.named, inv.cached,
        fun q other now => absurd now (apart q other)⟩
      obtain ⟨active, member, card⟩ := inv.counted
      refine ⟨active, fun q => ?_, card⟩
      change q ∈ active ↔ ((s.setPhase p .outside).phase q).op? ≠ none
      rw [member, GroupState.setPhase_phase]
      by_cases here : q = p
      · simp [here, phase, Phase.op?]
      · simp [here]
    exact finished.wakeup

/-- Every step of every process keeps the invariant. -/
theorem step {later : GroupState Data} {event : Nat × LogAction Data}
    (moves : groupStep size s event = some later) : GroupInv later := by
  obtain ⟨p, action⟩ := event
  obtain ⟨_, outside | asleep | beginning | logs | absorbs | leaves | commits⟩ :=
    groupStep_cases moves
  · obtain ⟨phase, rfl⟩ := outside
    exact inv.setPhase (by rw [phase]; rfl) (fun _ => by simp)
  · obtain ⟨phase, rfl⟩ := asleep
    exact inv.setPhase (by rw [phase]; rfl) (fun _ => by simp)
  · obtain ⟨phase, rfl⟩ := beginning
    exact inv.beginOp phase
  · obtain ⟨op, blockno, data, _, phase, rfl⟩ := logs
    unfold GroupState.logWrite
    split
    · exact inv.withPanic _
    split
    · exact inv.withPanic _
    · exact inv.setPhase (by rw [phase]; rfl) (fun _ => by simp)
  · obtain ⟨op, blockno, data, phase, rfl⟩ := absorbs
    exact inv.absorb phase
  · obtain ⟨op, phase, rfl⟩ := leaves
    exact inv.endOp phase
  · obtain ⟨stage, phase, rfl⟩ := commits
    exact inv.commitStep phase

end GroupInv

/-- The log after recovery satisfies the invariant. -/
theorem initGroup_inv (disk copy : Nat → Data) : GroupInv (initGroup disk copy) :=
  ⟨⟨∅, fun _ => by simp [initGroup, Phase.op?], rfl⟩, by simp [initGroup], by simp [initGroup],
    by simp [initGroup], List.nodup_nil, by simp [initGroup], by simp [initGroup, lastData],
    by simp [initGroup]⟩

/-- Group commit never splits a system call. In every state reached by any processes in any
order of steps: a running commit has nothing outstanding, no process is then between `begin_op`
and `end_op`, so none is in `log_write`; the transaction names no block twice; and at each
commit, when the header is about to be written, the log holds for every block updated since the
last commit the contents of its last update, holds no other block, and no operation that made
one of these updates is still running. -/
theorem group_commit_atomic (size : Nat) (disk copy : Nat → Data) (s : GroupState Data)
    (reached : Lib.Reach (groupStep size) (fun _ _ => True) (initGroup disk copy) s) :
    (s.committing = true → s.outstanding = 0 ∧ ∀ q, (s.phase q).op? = none) ∧
    s.lh.Nodup ∧
    ∀ p, s.phase p = .committing .writeHead →
      (∀ blockno data, lastData s.updates blockno = some data →
        ∃ index, s.lh[index]? = some blockno ∧ s.copy index = data) ∧
      (∀ blockno ∈ s.lh, ∃ update ∈ s.updates, update.blockno = blockno) ∧
      (∀ update ∈ s.updates, ∀ q, (s.phase q).op? ≠ some update.op) := by
  have inv : GroupInv s := reached.invariant GroupInv (initGroup_inv disk copy)
    (fun _ _ _ inv _ moves => inv.step moves)
  refine ⟨fun committing => ⟨inv.quiet committing, inv.none_inside committing⟩, inv.distinct,
    fun p phase => ⟨fun blockno data last => ?_, fun blockno member =>
      (inv.named blockno).mp member, fun update _ q running => ?_⟩⟩
  · have member : blockno ∈ s.lh := (inv.named blockno).mpr
      ((lastData_isSome s.updates blockno).mp (by simp [last]))
    obtain ⟨index, inside, found⟩ := List.getElem_of_mem member
    have entry : s.lh[index]? = some blockno := List.getElem?_eq_some_iff.mpr ⟨inside, found⟩
    refine ⟨index, entry, ?_⟩
    rw [inv.copied p _ phase index blockno inside entry]
    exact inv.cached blockno data last
  · simp [inv.none_inside (inv.owner p _ phase) q] at running

/-- Two operations that overlap: the first logs blocks 40 and 41, the second logs block 41
again, and the one that ends last commits both. -/
def overlappingOps : List (Nat × LogAction Nat) :=
  [(0, .call), (0, .enter), (1, .call), (1, .enter), (0, .log 40 7), (0, .absorb),
    (0, .log 41 8), (0, .absorb), (0, .leave), (1, .log 41 9), (1, .absorb), (1, .leave),
    (1, .commit), (1, .commit), (1, .commit), (1, .commit)]

/-- The overlapping operations reach a commit, and it is the last data that is committed. -/
theorem group_commit_atomic_overlapping :
    ∃ s : GroupState Nat, s.phase 1 = .committing .writeHead ∧ s.lh = [40, 41] ∧
      ∃ index, s.lh[index]? = some 41 ∧ s.copy index = 9 := by
  have reached : Lib.Reach (groupStep 30) (fun _ _ => True)
      (initGroup (fun _ => 0) (fun _ => 0)) _ := Lib.reach_of_runChecked overlappingOps .start rfl
  exact ⟨_, rfl, rfl, ((group_commit_atomic 30 _ _ _ reached).2.2 1 rfl).1 41 9 rfl⟩

end Xv6.Log
