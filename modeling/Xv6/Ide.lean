import Mathlib.Data.Fintype.Basic
import Xv6.Lib.Linked
import Xv6.Lib.Run
import Xv6.Param

/-!
# The disk queue of `ide.c`

Processes in `iderw` and the interrupt handler `ideintr` share `idequeue` under `idelock`. The
queue is threaded through the buffers; a process appends its buffer, starts the disk if its buffer
is the only one, and sleeps on the buffer until its flags say that it was transferred. The handler
takes the first buffer off, sets its flags, wakes its process and starts the disk for the next one.

A step is a part of the code that runs while `idelock` is held, up to a point where other parties
matter. `sleep` gives up `idelock` and goes to sleep in one step, as it holds `ptable.lock`, which
`wakeup` and `kill` take. The disk raises one interrupt without error for each command, and a panic
ends a run. Who holds the lock of a buffer sets its fields before the call.
-/

namespace Xv6.Ide

open Function Lib Option List

/-- `FSSIZE`. -/
def fsSize : Nat := 1000

variable {P B D : Type} {turns : Nat}

/-- The fields of a buffer, besides `qnext`. -/
structure Buf (D : Type) where
  valid : Bool
  dirty : Bool
  dev : Nat
  blockno : Nat
  data : D

/-- `b->dev & 1`: the disk that `idestart` selects. -/
def Buf.drive (buf : Buf D) : Nat := buf.dev &&& 1

/-- `(b->flags & (B_VALID|B_DIRTY)) == B_VALID`. -/
def Buf.Synced (buf : Buf D) : Prop := buf.valid = true ∧ buf.dirty = false

instance (buf : Buf D) : Decidable buf.Synced := inferInstanceAs (Decidable (_ ∧ _))

/-- Where a process is. -/
inductive Pc (B : Type) where
  | outside
  /-- In `iderw`, holding `idelock`. -/
  | inside (b : B)
  /-- In `sleep(b, &idelock)`. -/
  | asleep (b : B)
  /-- Woken up, about to acquire `idelock`. -/
  | awake (b : B)
  deriving DecidableEq

/-- The buffer of a process in `iderw`. -/
def Pc.buf : Pc B → Option B
  | outside => none
  | inside b | asleep b | awake b => some b

/-- Who holds `idelock`, and what comes next there. -/
inductive Holder (P B : Type) where
  | free
  /-- `iderw` has appended its buffer. -/
  | queued (p : P) (b : B)
  /-- `iderw` is at the condition of its loop. -/
  | testing (p : P) (b : B)
  /-- `ideintr` is about to wake up. -/
  | waking (b : B)
  /-- `ideintr` is about to start the disk. -/
  | starting
  deriving DecidableEq

/-- The disk. -/
inductive Device (B : Type) where
  | idle
  /-- It works on the command for a buffer. -/
  | busy (b : B)
  /-- It has raised the interrupt. -/
  | raised (b : B)
  deriving DecidableEq

structure State (P B D : Type) where
  idequeue : Option B
  qnext : B → Option B
  buf : B → Buf D
  disk : Nat → Nat → D
  lock : Holder P B
  pc : P → Pc B
  device : Device B
  /-- The requests so far, in the order in which they were queued. -/
  requests : List B
  /-- Those that were served, in that order. -/
  served : List B

/-- What may happen next. -/
inductive Event (P B D : Type) where
  /-- A process calls `iderw` for a buffer with these fields; the loop over the queue takes at most
  some turns. -/
  | call (p : P) (b : B) (buf : Buf D) (turns : Nat)
  /-- The disk is started for a buffer that was just appended, if it is the first one. -/
  | start
  /-- The flags are tested. -/
  | test
  | resume (p : P)
  | kill (p : P)
  /-- The disk raises its interrupt. -/
  | complete
  | intr
  | wakeup
  | restart

namespace State

section Code

variable [DecidableEq P] [DecidableEq B]

/-- `idestart`. -/
def idestart (s : State P B D) (b : B) : Option (State P B D) :=
  let buf := s.buf b
  if buf.blockno ≥ fsSize then none
  else if buf.dirty then
    some { s with
      disk := update s.disk buf.drive (update (s.disk buf.drive) buf.blockno buf.data)
      device := .busy b }
  else some { s with device := .busy b }

/-- `iderw` up to the end of the insertion. -/
def call (havedisk1 : Bool) (s : State P B D) (p : P) (b : B) (buf : Buf D) (turns : Nat) :
    Option (State P B D) :=
  if s.lock ≠ .free ∨ s.pc p ≠ .outside then none
  else if buf.Synced then none
  else if buf.dev ≠ 0 ∧ havedisk1 = false then none
  else (linkLast turns s.qnext s.idequeue b).map fun queue =>
    { s with
      idequeue := queue.2
      qnext := queue.1
      buf := update s.buf b buf
      lock := .queued p b
      pc := update s.pc p (.inside b)
      requests := s.requests ++ [b] }

/-- The condition of the loop of `iderw`: it returns or sleeps. -/
def test (s : State P B D) (p : P) (b : B) : State P B D :=
  { s with
    lock := .free
    pc := update s.pc p (if (s.buf b).Synced then .outside else .asleep b) }

/-- `ideintr` up to the flags. -/
def intr (s : State P B D) : State P B D :=
  match s.idequeue with
  | none => { s with device := .idle }
  | some b =>
    let buf := s.buf b
    let data := if buf.dirty then buf.data else s.disk buf.drive buf.blockno
    { s with
      idequeue := s.qnext b
      buf := update s.buf b { buf with data := data, valid := true, dirty := false }
      device := .idle
      lock := .waking b
      served := s.served ++ [b] }

/-- One step. -/
def step (havedisk1 : Bool) (s : State P B D) : Event P B D → Option (State P B D)
  | .call p b buf turns => s.call havedisk1 p b buf turns
  | .start =>
    match s.lock with
    | .queued p b =>
      (if s.idequeue = some b then s.idestart b else some s).map fun later =>
        { later with lock := .testing p b }
    | _ => none
  | .test =>
    match s.lock with
    | .testing p b => some (s.test p b)
    | _ => none
  | .resume p =>
    match s.lock, s.pc p with
    | .free, .awake b => some { s with lock := .testing p b, pc := update s.pc p (.inside b) }
    | _, _ => none
  | .kill p =>
    match s.pc p with
    | .asleep b => some { s with pc := update s.pc p (.awake b) }
    | _ => none
  | .complete =>
    match s.device with
    | .busy b => some { s with device := .raised b }
    | _ => none
  | .intr =>
    match s.lock, s.device with
    | .free, .raised _ => some s.intr
    | _, _ => none
  | .wakeup =>
    match s.lock with
    | .waking b =>
      some { s with
        lock := .starting
        pc := fun p => if s.pc p = .asleep b then .awake b else s.pc p }
    | _ => none
  | .restart =>
    match s.lock with
    | .starting =>
      (match s.idequeue with
        | none => some s
        | some b => s.idestart b).map fun (later : State P B D) => { later with lock := .free }
    | _ => none

/-- The buffer of a call is locked by its caller, so no other process is in `iderw` with it. -/
def Allowed (s : State P B D) : Event P B D → Prop
  | .call _ b _ _ => ∀ q, (s.pc q).buf ≠ some b
  | _ => True

instance [Fintype P] (s : State P B D) : (event : Event P B D) → Decidable (s.Allowed event)
  | .call _ b _ _ => inferInstanceAs (Decidable (∀ q, (s.pc q).buf ≠ some b))
  | .start | .test | .resume _ | .kill _ | .complete | .intr | .wakeup | .restart => .isTrue trivial

end Code

/-- Before the first request. -/
def init (buf : B → Buf D) (disk : Nat → Nat → D) : State P B D where
  idequeue := none
  qnext _ := none
  buf := buf
  disk := disk
  lock := .free
  pc _ := .outside
  device := .idle
  requests := []
  served := []

end State

/-! ### What every run keeps -/

/-- The disk works on the first request of a list, or rests. -/
def Device.Serves (device : Device B) : List B → Prop
  | [] => device = .idle
  | b :: _ => device = .busy b ∨ device = .raised b

/-- The requests that the disk was told about, by who holds the lock: a buffer just appended has not
been looked at, and the handler has not started the next command. -/
def Holder.known (queue : List B) : Holder P B → List B
  | .free | .testing _ _ => queue
  | .queued _ _ => queue.dropLast
  | .waking _ | .starting => []

/-- The process that holds the lock, with its buffer. -/
def Holder.process : Holder P B → Option (P × B)
  | .queued p b | .testing p b => some (p, b)
  | .free | .waking _ | .starting => none

variable {device : Device B}

/-- A disk that works does so on the first one. -/
theorem Device.Serves.head {list : List B} {b : B} (serves : device.Serves list)
    (works : device = .busy b ∨ device = .raised b) : ∃ rest, list = b :: rest := by
  cases list with
  | nil =>
    rw [show device = .idle from serves] at works
    simp at works
  | cons c rest =>
    refine ⟨rest, ?_⟩
    obtain rfl | rfl := works <;> simpa [Device.Serves, eq_comm] using serves

theorem Holder.known_append (lock : Holder P B) (queue : List B) :
    ∃ more, queue = lock.known queue ++ more := by
  cases lock with
  | free | testing _ _ => exact ⟨[], (append_nil _).symm⟩
  | queued _ _ => exact ( dropLast_prefix queue).imp fun _ => Eq.symm
  | waking _ | starting => exact ⟨queue, rfl⟩

/-- The pointers spell a queue of requests that are not served yet. -/
structure Inv (s : State P B D) (queue : List B) : Prop where
  linked : Linked s.qnext s.idequeue queue
  distinct : queue.Nodup
  order : s.requests = s.served ++ queue
  pending : ∀ b ∈ queue, ¬ (s.buf b).Synced ∧ ∃ p, (s.pc p).buf = some b
  apart : ∀ p q b, (s.pc p).buf = some b → (s.pc q).buf = some b → p = q
  kept : ∀ p b, (s.pc p).buf = some b → b ∈ queue ∨ (s.buf b).Synced
  inside : ∀ p b, s.pc p = .inside b ↔ s.lock.process = some (p, b)
  asleep : ∀ p b, s.pc p = .asleep b → b ∈ queue ∨ s.lock = .waking b
  last : ∀ p b, s.lock = .queued p b → queue.getLast? = some b
  disk : s.device.Serves (s.lock.known queue)

theorem inv_init (buf : B → Buf D) (disk : Nat → Nat → D) :
    Inv (State.init buf disk : State P B D) [] where
  linked := rfl
  distinct := .nil
  order := rfl
  pending := nofun
  apart := nofun
  kept := nofun
  inside := by simp [State.init, Holder.process]
  asleep := nofun
  last := nofun
  disk := rfl

variable {havedisk1 : Bool} {s later : State P B D} {queue : List B}

section Steps

variable [DecidableEq P] [DecidableEq B] {b : B} {p : P} {event : Event P B D} {buf : Buf D}

/-- What each step finds and what it changes, unless it panics. -/
inductive Moves (s : State P B D) : Event P B D → State P B D → Prop where
  | call {p : P} {b : B} {buf : Buf D} {turns : Nat} {qnext : B → Option B} {head : Option B}
      (free : s.lock = .free) (outside : s.pc p = .outside) (unsynced : ¬ buf.Synced)
      (appended : linkLast turns s.qnext s.idequeue b = some (qnext, head)) :
      Moves s (.call p b buf turns) { s with
        idequeue := head
        qnext := qnext
        buf := update s.buf b buf
        lock := .queued p b
        pc := update s.pc p (.inside b)
        requests := s.requests ++ [b] }
  | start {p : P} {b : B} (disk : Nat → Nat → D) (held : s.lock = .queued p b) :
      Moves s .start { s with
        disk := disk
        device := if s.idequeue = some b then .busy b else s.device
        lock := .testing p b }
  | test {p : P} {b : B} (held : s.lock = .testing p b) : Moves s .test (s.test p b)
  | resume {p : P} {b : B} (free : s.lock = .free) (woken : s.pc p = .awake b) :
      Moves s (.resume p) { s with lock := .testing p b, pc := update s.pc p (.inside b) }
  | kill {p : P} {b : B} (sleeps : s.pc p = .asleep b) :
      Moves s (.kill p) { s with pc := update s.pc p (.awake b) }
  | complete {b : B} (works : s.device = .busy b) :
      Moves s .complete { s with device := .raised b }
  | intr {b : B} (free : s.lock = .free) (raised : s.device = .raised b) : Moves s .intr s.intr
  | wakeup {b : B} (held : s.lock = .waking b) :
      Moves s .wakeup { s with
        lock := .starting
        pc := fun p => if s.pc p = .asleep b then .awake b else s.pc p }
  | restart (disk : Nat → Nat → D) (held : s.lock = .starting) :
      Moves s .restart { s with
        disk := disk
        device := s.idequeue.elim s.device .busy
        lock := .free }

omit [DecidableEq P] [DecidableEq B] in
/-- `idestart` changes only the disk, unless it panics. -/
theorem idestart_eq (moves : s.idestart b = some later) :
    ∃ disk, later = { s with disk := disk, device := .busy b } := by
  rw [State.idestart] at moves
  split at moves
  · nomatch moves
  · split at moves <;> exact ⟨_, (Option.some.inj moves).symm⟩

theorem call_moves (moves : s.call havedisk1 p b buf turns = some later) :
    Moves s (.call p b buf turns) later := by
  rw [State.call] at moves
  split_ifs at moves with busy synced missing
  obtain ⟨⟨qnext, head⟩, appended, rfl⟩ := map_eq_some_iff.mp moves
  obtain ⟨free, outside⟩ := not_or.mp busy
  exact .call (not_not.mp free) (not_not.mp outside) synced appended

theorem step_moves (moves : s.step havedisk1 event = some later) : Moves s event later := by
  cases event with
  | call p b buf turns => exact call_moves moves
  | start =>
    simp only [State.step] at moves
    split at moves <;> try contradiction
    rename_i p b held
    obtain ⟨middle, begins, rfl⟩ := map_eq_some_iff.mp moves
    split_ifs at begins with first
    · obtain ⟨disk, rfl⟩ := idestart_eq begins
      simpa [first] using Moves.start disk held
    · cases begins
      simpa [first] using Moves.start s.disk held
  | restart =>
    simp only [State.step] at moves
    split at moves <;> try contradiction
    rename_i held
    obtain ⟨middle, begins, rfl⟩ := map_eq_some_iff.mp moves
    cases first : s.idequeue with
    | none =>
      rw [first] at begins
      cases begins
      simpa [first] using Moves.restart s.disk held
    | some b =>
      rw [first] at begins
      obtain ⟨disk, rfl⟩ := idestart_eq begins
      simpa [first] using Moves.restart disk held
  | test | resume p | kill p | complete | intr | wakeup =>
    simp only [State.step] at moves
    split at moves <;> try contradiction
    cases moves
    constructor <;> assumption

namespace Inv

variable (inv : Inv s queue) {lock : Holder P B}
include inv

omit [DecidableEq P] [DecidableEq B] in
/-- The disk works on the first request. -/
theorem head (works : s.device = .busy b ∨ s.device = .raised b) : ∃ rest, queue = b :: rest := by
  obtain ⟨rest, known⟩ := inv.disk.head works
  obtain ⟨more, split⟩ := s.lock.known_append queue
  rw [known] at split
  exact ⟨rest ++ more, split⟩

omit [DecidableEq P] [DecidableEq B] in
/-- The queue stays, and every process keeps its buffer. -/
theorem keep {disk : Nat → Nat → D} {pc : P → Pc B} (bufs : ∀ q, (pc q).buf = (s.pc q).buf)
    (inside : ∀ q c, pc q = .inside c ↔ lock.process = some (q, c))
    (asleep : ∀ q c, pc q = .asleep c → c ∈ queue ∨ lock = .waking c)
    (last : ∀ q c, lock = .queued q c → s.lock = .queued q c)
    (serves : device.Serves (lock.known queue)) :
    Inv { s with disk := disk, device := device, lock := lock, pc := pc } queue :=
  { inv with
    inside := inside
    asleep := asleep
    last := fun q c held => inv.last q c (last q c held)
    disk := serves
    pending := fun c member => by simpa only [bufs] using inv.pending c member
    apart := fun q r c => by simpa only [bufs] using inv.apart q r c
    kept := fun q c => by simpa only [bufs] using inv.kept q c }

omit [DecidableEq B] in
/-- One process moves and keeps its buffer. -/
theorem move {pc : Pc B} (keeps : pc.buf = (s.pc p).buf)
    (inside : ∀ q c, update s.pc p pc q = .inside c ↔ lock.process = some (q, c))
    (asleep : ∀ q c, update s.pc p pc q = .asleep c → c ∈ queue ∨ lock = .waking c)
    (last : ∀ q c, lock = .queued q c → s.lock = .queued q c)
    (serves : s.device.Serves (lock.known queue)) :
    Inv { s with lock := lock, pc := update s.pc p pc } queue := by
  refine inv.keep (fun q => ?_) inside asleep last serves
  by_cases same : q = p
  · rw [same, update_self, keeps]
  · rw [update_of_ne same]

omit [DecidableEq B] in
/-- A process returns with its buffer transferred. -/
theorem leave (held : s.lock = .testing p b) (synced : (s.buf b).Synced) :
    Inv { s with lock := .free, pc := update s.pc p .outside } queue := by
  have here : s.pc p = .inside b := (inv.inside p b).mpr (by rw [held]; rfl)
  have done : b ∉ queue := fun member => (inv.pending b member).1 synced
  have serves := inv.disk
  rw [held] at serves
  have bufs : ∀ q c, (update s.pc p .outside q).buf = some c ↔
      (s.pc q).buf = some c ∧ q ≠ p := fun q c => by
    grind [Pc.buf]
  refine
    { inv with
      pending := fun c member => ?_
      apart := fun q r c => ?_
      kept := fun q c => ?_
      inside := fun q c => ?_
      asleep := fun q c => ?_
      last := nofun
      disk := serves }
  · obtain ⟨waits, q, uses⟩ := inv.pending c member
    refine ⟨waits, q, (bufs q c).mpr ⟨uses, ?_⟩⟩
    rintro rfl
    rw [here] at uses
    exact done (Option.some.inj uses ▸ member)
  · have known := inv.apart q r c
    grind
  · have known := inv.kept q c
    grind
  · have known := inv.inside q c
    grind [Holder.process]
  · have known := inv.asleep q c
    grind

/-- The caller appends a buffer that nobody else uses. -/
theorem call {qnext : B → Option B} {head : Option B} (fresh : ∀ q, (s.pc q).buf ≠ some b)
    (free : s.lock = .free) (outside : s.pc p = .outside) (unsynced : ¬ buf.Synced)
    (appended : linkLast turns s.qnext s.idequeue b = some (qnext, head)) :
    Inv { s with
      idequeue := head
      qnext := qnext
      buf := update s.buf b buf
      lock := .queued p b
      pc := update s.pc p (.inside b)
      requests := s.requests ++ [b] } (queue ++ [b]) := by
  have new : b ∉ queue := fun member => by
    obtain ⟨q, uses⟩ := (inv.pending b member).2
    exact fresh q uses
  have serves := inv.disk
  rw [free] at serves
  -- A process uses a buffer afterwards if it did before, or if it is the caller.
  have bufs : ∀ q c, (update s.pc p (.inside b) q).buf = some c ↔
      (s.pc q).buf = some c ∨ q = p ∧ c = b := fun q c => by
    grind [Pc.buf]
  refine
    { linked := (inv.linked.linkLast_eq inv.distinct new).2 _ _ appended
      distinct := nodup_append.mpr ⟨inv.distinct, List.nodup_singleton b, by grind⟩
      order := by simp only [inv.order, append_assoc]
      pending := fun c member => ?_
      apart := fun q r c => ?_
      kept := fun q c uses => ?_
      inside := fun q c => ?_
      asleep := fun q c => ?_
      last := fun q c held => ?_
      disk := by simpa only [Holder.known, dropLast_concat] using serves }
  · simp only [bufs]
    obtain old | rfl := mem_append.mp member |>.imp_right List.mem_singleton.mp
    · obtain ⟨waits, q, uses⟩ := inv.pending c old
      rw [update_of_ne (ne_of_mem_of_not_mem old new)]
      exact ⟨waits, q, .inl uses⟩
    · rw [update_self]
      exact ⟨unsynced, p, .inr ⟨rfl, rfl⟩⟩
  · have known := inv.apart q r c
    grind
  · have known := inv.kept q c
    grind
  · have known := inv.inside q c
    grind [Holder.process]
  · have known := inv.asleep q c
    grind
  · rw [getLast?_concat, (Holder.queued.inj held).2]

omit [DecidableEq P] in
/-- The disk is idle behind a buffer that is alone in the queue, and works on the first one
otherwise. -/
theorem started (held : s.lock = .queued p b) :
    (if s.idequeue = some b then .busy b else s.device : Device B).Serves queue := by
  obtain ⟨front, rfl⟩ := getLast?_eq_some_iff.mp (inv.last p b held)
  have serves := inv.disk
  rw [held, Holder.known, dropLast_concat] at serves
  cases front with
  | nil =>
    rw [if_pos inv.linked.1]
    exact .inl rfl
  | cons head front =>
    have apart : head ≠ b := by
      rintro rfl
      exact (List.nodup_cons.mp inv.distinct).1 (by simp)
    rw [inv.linked.1, if_neg (by simpa using apart)]
    exact serves

omit [DecidableEq P] in
/-- The handler takes the first request off, which is the one that the disk has served. -/
theorem intr (free : s.lock = .free) (raised : s.device = .raised b) : ∃ rest, Inv s.intr rest := by
  obtain ⟨rest, rfl⟩ := inv.head (.inr raised)
  obtain ⟨first, linked⟩ := inv.linked
  obtain ⟨fresh, distinct⟩ := List.nodup_cons.mp inv.distinct
  refine ⟨rest, ?_⟩
  rw [State.intr, first]
  dsimp only
  refine
    { inv with
      linked := linked
      distinct := distinct
      order := by simp only [inv.order, append_assoc, singleton_append]
      pending := fun c member => ?_
      kept := fun q c uses => ?_
      inside := fun q c => ?_
      asleep := fun q c sleeps => ?_
      last := nofun
      disk := rfl }
  · dsimp only
    rw [update_of_ne (ne_of_mem_of_not_mem member fresh)]
    exact inv.pending c (mem_cons_of_mem _ member)
  · dsimp only
    by_cases same : c = b
    · subst same
      rw [update_self]
      exact .inr ⟨rfl, rfl⟩
    · rw [update_of_ne same]
      exact (inv.kept q c uses).imp_left fun member => (List.mem_cons.mp member).resolve_left same
  · simpa [free, Holder.process] using inv.inside q c
  · have known := inv.asleep q c sleeps
    grind

/-- What one step keeps. -/
theorem step (allowed : s.Allowed event) (moves : Moves s event later) :
    ∃ queue, Inv later queue := by
  have inside := inv.inside
  have asleep := inv.asleep
  have serves := inv.disk
  cases moves with
  | call free outside unsynced appended =>
    exact ⟨_, inv.call allowed free outside unsynced appended⟩
  | start disk held =>
    refine ⟨queue, inv.keep (fun _ => rfl) (fun q c => ?_) (fun q c => ?_) nofun (inv.started held)⟩
    all_goals grind [Holder.process]
  | @test p b held =>
    have here : s.pc p = .inside b := (inside p b).mpr (by rw [held]; rfl)
    rw [held] at serves
    unfold State.test
    split_ifs with synced
    · exact ⟨queue, inv.leave held synced⟩
    · have waits : b ∈ queue := (inv.kept p b (by rw [here]; rfl)).resolve_right synced
      refine ⟨queue, inv.move (by rw [here]; rfl) (fun q c => ?_) (fun q c => ?_) nofun serves⟩
      all_goals grind [Holder.process]
  | resume free woken =>
    rw [free] at serves
    refine ⟨queue, inv.move (by rw [woken]; rfl) (fun q c => ?_) (fun q c => ?_) nofun serves⟩
    all_goals grind [Holder.process]
  | kill sleeps =>
    refine ⟨queue, inv.move (by rw [sleeps]; rfl) (fun q c => ?_) (fun q c => ?_) (fun _ _ => id)
      serves⟩
    all_goals grind
  | complete works =>
    refine ⟨queue, inv.keep (fun _ => rfl) inside asleep (fun _ _ => id) ?_⟩
    obtain ⟨rest, known⟩ := serves.head (.inl works)
    rw [known]
    exact .inr rfl
  | intr free raised => exact inv.intr free raised
  | wakeup held =>
    rw [held] at serves
    refine ⟨queue, inv.keep (fun q => ?_) (fun q c => ?_) (fun q c => ?_) nofun serves⟩
    all_goals grind [Holder.process, Pc.buf]
  | restart disk held =>
    rw [held] at serves
    refine ⟨queue, inv.keep (fun _ => rfl) (fun q c => ?_) (fun q c => ?_) nofun ?_⟩
    · grind [Holder.process]
    · grind
    · cases queue with
      | nil => rwa [show s.idequeue = none from inv.linked]
      | cons c rest =>
        rw [inv.linked.1]
        exact .inl rfl

end Inv

end Steps

/-- A run from before the first request. -/
abbrev Run (havedisk1 : Bool) (buf : B → Buf D) (disk : Nat → Nat → D) [DecidableEq P]
    [DecidableEq B] : State P B D → Prop :=
  Reach (State.step havedisk1) State.Allowed (.init buf disk)

variable [DecidableEq P] [DecidableEq B] {buf : B → Buf D} {disk : Nat → Nat → D}

/-- The invariant holds in every run. -/
theorem run_inv (run : Run havedisk1 buf disk s) : ∃ queue, Inv s queue :=
  run.invariant (fun s => ∃ queue, Inv s queue) ⟨[], inv_init buf disk⟩
    fun _ _ _ known allowed moves => known.elim fun _ inv => inv.step allowed (step_moves moves)

/-- A process leaves `iderw` only at the condition of its loop. -/
theorem returns {event : Event P B D} {p : P} {b : B} (inv : Inv s queue)
    (moves : Moves s event later) (uses : (s.pc p).buf = some b) (left : later.pc p = .outside) :
    (s.buf b).Synced ∧ later.buf = s.buf := by
  have busy : s.pc p ≠ .outside := fun outside => by
    rw [outside] at uses
    nomatch uses
  cases moves with
  | @test q c held =>
    have here := (inv.inside q c).mpr (by rw [held]; rfl)
    refine ⟨?_, rfl⟩
    rw [State.test] at left
    grind [Pc.buf]
  | intr => grind [State.intr]
  | start | complete | restart => exact absurd left busy
  | call | resume | kill | wakeup => grind

/-- In every run, the pointers from `idequeue` spell the requests that were queued and not served,
in the order of the calls: requests are served in that order and none is lost. The command in
progress is that of the first one, and when nobody holds the lock the disk works if there is a
request. A process returns from `iderw` only when its own buffer was transferred, and one that
sleeps waits for a buffer that is queued or about to be woken up for. -/
theorem disk_requests_in_order (run : Run havedisk1 buf disk s) :
    ∃ queue, Linked s.qnext s.idequeue queue ∧ queue.Nodup ∧ s.requests = s.served ++ queue ∧
      (∀ b, s.device = .busy b ∨ s.device = .raised b → s.idequeue = some b) ∧
      (s.lock = .free → queue ≠ [] → ∃ b, s.device = .busy b ∨ s.device = .raised b) ∧
      (∀ event later p b, s.step havedisk1 event = some later → (s.pc p).buf = some b →
        later.pc p = .outside → b ∉ queue ∧ (later.buf b).Synced) ∧
      (∀ p b, (s.pc p).buf = some b → b ∈ queue ∨ (s.buf b).Synced) ∧
      ∀ p b, s.pc p = .asleep b → b ∈ queue ∨ s.lock = .waking b := by
  obtain ⟨queue, inv⟩ := run_inv run
  refine ⟨queue, inv.linked, inv.distinct, inv.order, fun b works => ?_, fun free waiting => ?_,
    fun event later p b moves uses left => ?_, inv.kept, inv.asleep⟩
  · obtain ⟨rest, rfl⟩ := inv.head works
    exact inv.linked.1
  · have serves := inv.disk
    rw [free] at serves
    cases queue with
    | nil => exact absurd rfl waiting
    | cons b rest => exact ⟨b, serves⟩
  · obtain ⟨synced, same⟩ := returns inv (step_moves moves) uses left
    exact ⟨fun member => (inv.pending b member).1 synced, by rwa [same]⟩

/-- Two processes read two blocks; the second one is killed in its sleep and sleeps again, and the
first one returns. -/
def twoReaders : List (Event (Fin 2) (Fin 2) Unit) :=
  [.call 0 0 ⟨false, false, 0, 7, ()⟩ 0, .start, .test, .call 1 1 ⟨false, false, 0, 8, ()⟩ 1,
    .start, .test, .kill 1, .resume 1, .test, .complete, .intr, .wakeup, .restart, .resume 0, .test]

/-- In that run the queue holds the request of the second process. -/
theorem disk_requests_in_order_two : ∃ s : State (Fin 2) (Fin 2) Unit,
    Run false (fun _ => ⟨false, false, 0, 0, ()⟩) (fun _ _ => ()) s ∧ s.served = [0] ∧
    s.pc 0 = .outside ∧ s.pc 1 = .asleep 1 ∧
    ∃ queue, Linked s.qnext s.idequeue queue ∧ queue.Nodup ∧ s.requests = s.served ++ queue := by
  obtain ⟨s, run, served, first, second⟩ : ∃ s : State (Fin 2) (Fin 2) Unit,
      Run false (fun _ => ⟨false, false, 0, 0, ()⟩) (fun _ _ => ()) s ∧ s.served = [0] ∧
        s.pc 0 = .outside ∧ s.pc 1 = .asleep 1 :=
    exists_reach twoReaders (by decide +kernel)
  obtain ⟨queue, linked, distinct, order, -⟩ := disk_requests_in_order run
  exact ⟨s, run, served, first, second, queue, linked, distinct, order⟩

end Xv6.Ide
