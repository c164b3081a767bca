import Mathlib.Data.Fintype.Card
import Xv6.Proc.Program
import Xv6.User.Ulib

/-!
# The daemon `cron`

The loop of `cron.c` in one process of the table: once a minute it forks a process for every job
line that matches the time. It never calls `wait`, so every job that has exited keeps its slot.
The zombies of `cron` are at most the jobs it has started; they stay within the number of job
lines if no more jobs than that have been started in all the minutes together.
-/

namespace Xv6.User.Cron

open Lib Xv6.Proc Finset Option

/-- A line of the crontab. -/
abbrev Line := List Char

/-- `struct rtcdate`, as far as `int_to_time` reads it. -/
structure Rtcdate where
  minute : Nat
  hour : Nat
  day : Nat
  month : Nat
  year : Nat
  deriving DecidableEq

/-- `int_to_time`. -/
def intToTime (r : Rtcdate) : Nat → Int
  | 0 => r.minute
  | 1 => r.hour
  | 2 => r.day
  | 3 => r.month
  | 4 => r.year
  | _ => -1

/-- `months`. -/
def months : List String :=
  ["jan", "feb", "mar", "apr", "may", "jun", "jul", "aug", "sep", "oct", "nov", "dec"]

/-- `days`. -/
def days : List String := ["sun", "mon", "tue", "wed", "thu", "fri", "sat"]

/-- `month_to_int`. -/
def monthToInt (month : List Char) : Int :=
  match months.findIdx? fun name => name.toList == month with
  | some i => i + 1
  | none => -1

/-- `day_to_int`. -/
def dayToInt (day : List Char) : Int :=
  match days.findIdx? fun name => name.toList == day with
  | some i => i
  | none => -1

/-- `is_digit`; `NUMBERS` has no zero. -/
def isDigit (c : Option Char) : Bool := c.any fun c => "123456789".toList.contains c

/-- The value of a parameter or of an end of a range in field `i`; `first` is the character that
decides whether it is a name. -/
def value (i : Nat) (first : Option Char) (text : List Char) : Int :=
  if (i = 3 ∨ i = 4) ∧ isDigit first = false then
    if i = 3 then monthToInt text else dayToInt text
  else atoi text

/-- `run_when_matched` of field `i` from its parameter: -1 for a star, the numbers of a range (of
the last dash, if there are several), or one value. -/
def runWhenMatched (i : Nat) (param : List Char) : List Int :=
  if param = "*".toList then [-1]
  else
    match (List.range param.length).reverse.find? fun j => param[j]? == some '-' with
    | some j =>
      let initial := param.take j
      let final := param.drop (j + 1)
      let start := value i initial.head? initial
      let stop := value i initial.head? final
      (List.range (stop + 1 - start).toNat).map fun (k : Nat) => start + k
    | none => [value i param.head? param]

/-- The parameters of a line, separated by single blanks. -/
def params (line : Line) : List (List Char) := line.splitOn ' '

/-- `command->argv`, up to its null pointer. -/
def argv (line : Line) : List (List Char) := (params line).drop 5

/-- `get_cron_details`: the five fields. There is no result for a comment or a line with fewer,
whose entries of `param_array` are not set. The array is on the stack, which is taken to be large
enough for it. -/
def getCronDetails (line : Line) : Option (List (List Int)) :=
  if line.head? ≠ some '#' ∧ 3 < line.length ∧ 5 ≤ (params line).length then
    some ((List.range 5).map fun i => runWhenMatched i ((params line).getD i []))
  else none

/-- Whether field `i` matches the time. -/
def fieldMatches (r : Rtcdate) (i : Nat) (field : List Int) : Bool :=
  field.any fun number => field.head? == some (-1) || number == intToTime r i

/-- `execute`. -/
def execute (r : Rtcdate) (fields : List (List Int)) : Bool :=
  fields.zipIdx.all fun (field, i) => fieldMatches r i field

/-- A line that is neither empty nor a comment. -/
def IsJob (line : Line) : Prop := line ≠ [] ∧ line.head? ≠ some '#'

instance (line : Line) : Decidable (IsJob line) := inferInstanceAs (Decidable (_ ∧ _))

/-- Where `cron` stands. -/
inductive Pc where
  /-- At the top of the loop, before `date`. -/
  | date
  /-- At the remaining lines, at the time of this iteration. -/
  | lines (r : Rtcdate) (rest : List Line)
  /-- About to call `fork`, or in it before the child has a parent. -/
  | fork (r : Rtcdate) (rest : List Line)
  /-- In `fork`, with a child. -/
  | born (r : Rtcdate) (rest : List Line)
  /-- Killed. -/
  | gone
  deriving DecidableEq

/-- The state of `cron`, with the number of jobs it has started. -/
structure Daemon where
  pc : Pc
  started : Nat
  /-- `command->argv` of the last job line, which the child passes to `exec`. -/
  argv : List (List Char)
  deriving DecidableEq

/-- What happens outside the kernel. -/
inductive Event where
  /-- `date` returns. -/
  | date (r : Rtcdate)
  /-- The next line is looked at; behind the last one `cron` sleeps for a minute. -/
  | line
  deriving DecidableEq

/-- Behind a `fork` that has failed or goes on. -/
def forking (self : Slot) (after : State) (d : Daemon) (r : Rtcdate) (rest : List Line) (pc : Pc) :
    Daemon :=
  if (after.proc self).point = .outside then { d with pc := .lines r rest } else { d with pc := pc }

/-- The calls of `cron`. -/
def call (self : Slot) (d : Daemon) (before after : State) : Action → Option Daemon
  | .fork | .kalloc _ =>
    match d.pc with
    | .fork r rest => some (forking self after d r rest d.pc)
    | _ => none
  | .copyuvm _ =>
    match d.pc with
    | .fork r rest => some (forking self after d r rest (.born r rest))
    | _ => none
  | .publish =>
    match d.pc with
    | .born r rest => some { d with pc := .lines r rest }
    | _ => none
  | .exit => if (before.proc self).killed then some { d with pc := .gone } else none
  | .resume | .yield | .sleep _ | .trap => some d
  | _ => none

/-- The line makes `cron` start a job. -/
def Starts (r : Rtcdate) (line : Line) : Prop :=
  IsJob line ∧ (getCronDetails line).any (execute r) = true

instance (r : Rtcdate) (line : Line) : Decidable (Starts r line) :=
  inferInstanceAs (Decidable (_ ∧ _))

/-- The steps of `cron` outside the kernel. There is none at a job line without its five fields. -/
def user (crontab : List Line) (d : Daemon) : Event → Option Daemon
  | .date r =>
    match d.pc with
    | .date => some { d with pc := .lines r crontab }
    | _ => none
  | .line =>
    match d.pc with
    | .lines _ [] => some { d with pc := .date }
    | .lines r (line :: rest) =>
      if IsJob line then
        match getCronDetails line with
        | none => none
        | some fields =>
          let d := { d with argv := argv line }
          if execute r fields then some { d with pc := .fork r rest, started := d.started + 1 }
          else some { d with pc := .lines r rest }
      else some { d with pc := .lines r rest }
    | _ => none

/-- `cron` in the process `self`, behind `read_file`. -/
def cron (self : Slot) (crontab : List Line) : Program Daemon Event where
  call := call self
  user := user crontab
  gone d := d.pc = .gone

/-- Before the first minute. -/
def start : Daemon := ⟨.date, 0, []⟩

/-- The number of job lines. -/
def jobs (crontab : List Line) : Nat := (crontab.filter fun line => decide (IsJob line)).length

/-- The children of the process. -/
def children (self : Slot) (s : State) : Finset Slot :=
  univ.filter fun q => (s.proc q).parent = some self

/-- Its children that have exited. -/
def zombies (self : Slot) (s : State) : Finset Slot :=
  univ.filter fun q => (s.proc q).parent = some self ∧ (s.proc q).state = .zombie

/-- The line that `cron` looks at next makes it start a job. -/
def Daemon.starting (d : Daemon) : Bool :=
  match d.pc with
  | .lines r (line :: _) => decide (Starts r line)
  | _ => false

/-- A job is started only while fewer jobs than there are job lines have been started. -/
def Seldom (crontab : List Line) (s : State × Daemon) (event : Nat × UserEvent Event) : Prop :=
  event.2 = .user .line → s.2.starting = true → s.2.started < jobs crontab

instance (crontab : List Line) (s : State × Daemon) (event : Nat × UserEvent Event) :
    Decidable (Seldom crontab s event) := inferInstanceAs (Decidable (_ → _ → _))

/-- Each child of `cron` is a job it has started, and so is the one that `fork` is making. -/
def Daemon.Ok (self : Slot) (s : State) (d : Daemon) : Prop :=
  match d.pc with
  | .gone => True
  | .fork _ _ => (children self s).card + 1 ≤ d.started
  | _ => (children self s).card ≤ d.started

section Steps

variable {self : Slot} {s t : State} {c : Nat} {action : Action} {d next : Daemon}
  {crontab : List Line}

/-- Steps other than `copyuvm` give `cron` no child. -/
theorem children_subset (kernel : Kernel s) (moves : Moves s c action t)
    (notInit : self ≠ initproc) (other : s.Acts c self action → action ≠ .copyuvm true) :
    children self t ⊆ children self s := by
  intro q member
  rw [children, mem_filter] at member ⊢
  refine ⟨member.1, ?_⟩
  rcases kernel.child moves notInit member.2 with child | ⟨acts, calls⟩
  · exact child
  · exact absurd calls (other acts)

/-- A successful `copyuvm` gives it one. -/
theorem children_copyuvm (moves : Moves s c (.copyuvm true) t)
    (acts : s.Acts c self (.copyuvm true)) :
    (children self t).card ≤ (children self s).card + 1 := by
  obtain ⟨np, sole⟩ := Kernel.sole_child moves acts
  have subset : children self t ⊆ insert np (children self s) := by
    intro q member
    rw [children, mem_filter] at member
    rw [mem_insert, children, mem_filter]
    rcases sole q member.2 with child | rfl
    · exact .inr ⟨member.1, child⟩
    · exact .inl rfl
  exact (card_le_card subset).trans (card_insert_le _ _)

/-- While `cron` runs its children are among the jobs it has started. -/
theorem Daemon.Ok.card_le (ok : d.Ok self s) (here : d.pc ≠ .gone) :
    (children self s).card ≤ d.started := by
  unfold Ok at ok
  split at ok
  · exact absurd ‹_› here
  · omega
  · exact ok

/-- Outside `fork` that is all there is to say. -/
theorem ok_of_card_le (few : (children self s).card ≤ d.started)
    (place : ∀ r rest, d.pc ≠ .fork r rest) : d.Ok self s := by
  unfold Daemon.Ok
  split
  · trivial
  · exact absurd ‹_› (place _ _)
  · exact few

/-- `cron` stays where it is. -/
theorem Daemon.Ok.stay (ok : d.Ok self s) (subset : children self t ⊆ children self s) :
    d.Ok self t := by
  have fewer := card_le_card subset
  unfold Ok at ok ⊢
  split at ok <;> simp_all <;> omega

/-- `fork` fails or goes on. -/
theorem ok_forking {r : Rtcdate} {rest : List Line} {pc : Pc}
    (few : (children self t).card ≤ d.started) (ok : ({ d with pc := pc } : Daemon).Ok self t) :
    (forking self t d r rest pc).Ok self t := by
  unfold forking
  split
  · exact ok_of_card_le few (by simp)
  · exact ok

/-- A step of `cron` in the kernel. -/
theorem ok_call (kernel : Kernel s) (moves : Moves s c action t) (notInit : self ≠ initproc)
    (acts : s.Acts c self action) (here : d.pc ≠ .gone) (ok : d.Ok self s)
    (calls : call self d s t action = some next) : next.Ok self t ∧ next.started = d.started := by
  have few := ok.card_le here
  have stays : action ≠ .copyuvm true → children self t ⊆ children self s :=
    fun other => children_subset kernel moves notInit fun _ => other
  cases action <;> simp only [call, reduceCtorEq, Option.some.injEq] at calls
  case fork | kalloc =>
    have subset := stays (by simp)
    have fewer := card_le_card subset
    grind [forking, Daemon.Ok]
  case copyuvm succeeds =>
    split at calls
    · rename_i r rest place
      cases calls
      have making : (children self s).card + 1 ≤ d.started := by
        rw [Daemon.Ok, place] at ok
        exact ok
      have fewer : (children self t).card ≤ d.started := by
        cases succeeds with
        | false => exact (card_le_card (stays (by simp))).trans few
        | true => exact (children_copyuvm moves acts).trans making
      refine ⟨ok_forking fewer (ok_of_card_le fewer (by simp)), ?_⟩
      unfold forking
      split <;> rfl
    · exact absurd calls (by simp)
  case publish =>
    have fewer := card_le_card (stays (by simp))
    grind [ok_of_card_le]
  case exit =>
    split at calls
    · cases calls
      exact ⟨trivial, rfl⟩
    · exact absurd calls (by simp)
  case resume | yield | sleep | trap =>
    subst calls
    exact ⟨ok.stay (stays (by simp)), rfl⟩

/-- A step of `cron` outside the kernel. -/
theorem ok_user {event : Event} (ok : d.Ok self s) (goes : user crontab d event = some next) :
    next.Ok self s ∧ (next.started = d.started ∨ next.started = d.started + 1 ∧
      event = .line ∧ d.starting = true) := by
  unfold user at goes
  constructor <;> grind [Starts, Daemon.starting, Daemon.Ok]

end Steps

/-- `allocproc` fails only if no slot is unused. -/
theorem allocproc_isSome {s : State} {p : Slot} (room : ¬∀ q, (s.proc q).state ≠ .unused) :
    (s.allocproc p).isSome = true := by
  grind [State.allocproc, State.first_none]

/-- In every run in which `cron` starts a job only while it has started fewer jobs than there are
job lines: as long as `cron` runs, at most so many slots hold jobs that have exited, and `fork`
finds a slot if the others leave one. -/
theorem cron_zombies_bounded (self : Slot) (notInit : self ≠ initproc) (crontab : List Line)
    {kernel : State} {s : State × Daemon} (booted : Reach procStep (fun _ _ => True) boot kernel)
    (childless : ∀ q, (kernel.proc q).parent ≠ some self)
    (reached : Reach ((cron self crontab).step self) (Seldom crontab) (kernel, start) s)
    (runs : s.2.pc ≠ .gone) :
    (zombies self s.1).card ≤ jobs crontab ∧
    ((univ.filter fun q => (s.1.proc q).state ≠ .unused ∧ q ∉ zombies self s.1).card +
        jobs crontab < nProc → ∀ p, (s.1.allocproc p).isSome = true) := by
  have all : Kernel s.1 ∧ s.2.Ok self s.1 ∧ s.2.started ≤ jobs crontab := by
    refine reached.invariant (fun s => Kernel s.1 ∧ s.2.Ok self s.1 ∧ s.2.started ≤ jobs crontab)
      ⟨.of_reach booted, ?_, Nat.zero_le _⟩ ?_
    · have none : children self kernel = ∅ := by
        simpa [children, filter_eq_empty_iff] using childless
      exact ok_of_card_le (by simp [none]) (by simp [start])
    rintro ⟨s, d⟩ ⟨c, event⟩ ⟨t, next⟩ ⟨kernel, ok, few⟩ seldom moves
    obtain ⟨happens, rfl, goes, same⟩ | ⟨action, rfl, moves, rest⟩ :=
      (cron self crontab).step_cases self moves
    · obtain rfl : t = s := same
      obtain ⟨later, started⟩ := ok_user ok goes
      refine ⟨kernel, later, ?_⟩
      rcases started with same | ⟨more, rfl, starting⟩
      · exact same ▸ few
      · have seldom : d.started < jobs crontab := seldom rfl starting
        have more : next.started = d.started + 1 := more
        change next.started ≤ jobs crontab
        omega
    · refine ⟨kernel.step moves, ?_⟩
      rcases rest with ⟨acts, here, calls⟩ | ⟨other | gone, same⟩
      · have here : d.pc ≠ .gone := of_decide_eq_false here
        obtain ⟨later, same⟩ := ok_call kernel moves notInit acts here ok calls
        exact ⟨later, same ▸ few⟩
      · obtain rfl : next = d := same
        exact ⟨ok.stay (children_subset kernel moves notInit fun acts => absurd acts other), few⟩
      · obtain rfl : next = d := same
        have gone : next.pc = .gone := of_decide_eq_true gone
        refine ⟨?_, few⟩
        rw [Daemon.Ok, gone]
        trivial
  have bounded : (zombies self s.1).card ≤ jobs crontab := by
    have exited : zombies self s.1 ⊆ children self s.1 := fun q member => by
      rw [zombies, mem_filter] at member
      rw [children, mem_filter]
      exact ⟨member.1, member.2.1⟩
    exact (card_le_card exited).trans ((all.2.1.card_le runs).trans all.2.2)
  refine ⟨bounded, fun room p => allocproc_isSome fun full => ?_⟩
  -- a full table holds the zombies and the others, and nothing else
  have whole : (univ : Finset Slot) = zombies self s.1 ∪
      univ.filter fun q => (s.1.proc q).state ≠ .unused ∧ q ∉ zombies self s.1 := by
    ext q
    by_cases zombie : q ∈ zombies self s.1
    · simp [zombie]
    · simp [zombie, full q]
  have size := card_union_le (zombies self s.1)
    (univ.filter fun q => (s.1.proc q).state ≠ .unused ∧ q ∉ zombies self s.1)
  rw [← whole, card_fin] at size
  omega

/-- The event list of one minute with one job, forked into `slot`; the job exits at once. -/
def minute (r : Rtcdate) (slot : Nat) : List (Nat × UserEvent Event) :=
  [(0, .user (.date r)), (0, .user .line)] ++ callFork ++ runAndExit slot ++ [(0, .user .line)]

/-- A job for every minute. -/
def everyMinute : List Line := ["* * * * * job".toList]

/-- After one minute there is one zombie of the one job line. -/
theorem cron_zombies_bounded_once : ∃ s : State × Daemon, s.2.pc = .date ∧
    (zombies firstChild s.1).card = 1 ∧ (zombies firstChild s.1).card ≤ jobs everyMinute := by
  have executed : ((runChecked procStep (fun _ _ => True) bootChild boot).bind fun kernel =>
      (runChecked ((cron firstChild everyMinute).step firstChild) (Seldom everyMinute)
        (minute ⟨0, 0, 1, 1, 2021⟩ 2) (kernel, start)).map fun s =>
        decide ((∀ q, (kernel.proc q).parent ≠ some firstChild) ∧ s.2.pc = .date ∧
          (zombies firstChild s.1).card = 1)) = some true := by
    decide +kernel
  obtain ⟨kernel, booted, executed⟩ := bind_eq_some_iff.mp executed
  obtain ⟨s, ran, holds⟩ := map_eq_some_iff.mp executed
  obtain ⟨childless, place, one⟩ := of_decide_eq_true holds
  exact ⟨s, place, one, (cron_zombies_bounded firstChild (by decide) everyMinute
    (reach_of_runChecked _ .start booted) childless (reach_of_runChecked _ .start ran)
    (by simp [place])).1⟩

/-- After two minutes there are two zombies of the one job line. -/
theorem cron_two_zombies : ∃ (kernel : State) (s : State × Daemon),
    Reach procStep (fun _ _ => True) boot kernel ∧
    (∀ q, (kernel.proc q).parent ≠ some firstChild) ∧
    Reach ((cron firstChild everyMinute).step firstChild) (fun _ _ => True) (kernel, start) s ∧
    s.2.pc = .date ∧ jobs everyMinute < (zombies firstChild s.1).card := by
  have executed : ((runChecked procStep (fun _ _ => True) bootChild boot).bind fun kernel =>
      (runChecked ((cron firstChild everyMinute).step firstChild) (fun _ _ => True)
        (minute ⟨0, 0, 1, 1, 2021⟩ 2 ++ minute ⟨1, 0, 1, 1, 2021⟩ 3) (kernel, start)).map fun s =>
        decide ((∀ q, (kernel.proc q).parent ≠ some firstChild) ∧ s.2.pc = .date ∧
          jobs everyMinute < (zombies firstChild s.1).card)) = some true := by
    decide +kernel
  obtain ⟨kernel, booted, executed⟩ := bind_eq_some_iff.mp executed
  obtain ⟨s, ran, holds⟩ := map_eq_some_iff.mp executed
  obtain ⟨childless, place, two⟩ := of_decide_eq_true holds
  exact ⟨kernel, s, reach_of_runChecked _ .start booted, childless,
    reach_of_runChecked _ .start ran, place, two⟩

end Xv6.User.Cron
