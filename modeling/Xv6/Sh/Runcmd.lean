import Mathlib.Data.List.Infix
import Xv6.Lib.Run
import Xv6.Sh.Correct

/-!
# `runcmd` and the descriptors of its processes

`runcmd` is the sequence of its system calls. Processes that run it take steps in any order, and a
child starts with a copy of its parent's descriptors. What a descriptor refers to is known by the
node of the command tree whose `open` or `pipe` made it; every process also carries the node that it
is at. `printf` is left out.
-/

namespace Xv6.Sh

open Function Lib Option List

/-- From a node of a command tree to one below it: the command of a redirection or of `&`, or a
side. -/
inductive Turn where
  | inner
  | left
  | right
  deriving DecidableEq

/-- The way from the root to a node. -/
abbrev Place := List Turn

/-- A `struct file`. -/
inductive File where
  /-- One that the first process starts with. -/
  | std (fd : Nat)
  | opened (node : Place) (file : List UInt8) (mode : Nat)
  | readEnd (node : Place)
  | writeEnd (node : Place)
  deriving DecidableEq

/-- The pipe that a file is an end of, and the side that should have it. -/
def File.ends : File → Option (Place × Turn)
  | .readEnd node => some (node, .right)
  | .writeEnd node => some (node, .left)
  | _ => none

/-- `NOFILE`. -/
def nOfile : Nat := 16

/-- `ofile`. -/
abbrev Fds := Nat → Option File

/-- `fdalloc`: the lowest free descriptor. -/
def fdalloc (t : Fds) (f : File) : Option (Nat × Fds) :=
  ((range nOfile).find? fun fd => (t fd).isNone).map fun fd =>
    (fd, update t fd (some f))

/-- `close`. -/
def close (t : Fds) (fd : Nat) : Fds := update t fd none

/-- `dup`. -/
def dup (t : Fds) (fd : Nat) : Fds :=
  match t fd with
  | none => t
  | some f =>
    match fdalloc t f with
    | none => t
    | some (_, t) => t

/-- `pipe`. -/
def pipe (t : Fds) (node : Place) : Option (Nat × Nat × Fds) := do
  let (fd0, t) ← fdalloc t (.readEnd node)
  let (fd1, t) ← fdalloc t (.writeEnd node)
  some (fd0, fd1, t)

/-- The system calls that are left to do. -/
inductive Code where
  /-- `runcmd` of the node is called. -/
  | call (node : Place) (next : Code)
  | close (fd : Nat) (next : Code)
  | dup (fd : Nat) (next : Code)
  | opens (node : Place) (file : List UInt8) (mode : Nat) (next : Code)
  | pipe (node : Place) (next : Nat → Nat → Code)
  | fork (child next : Code)
  | wait (next : Code)
  | exec (argv : List (List UInt8))
  | exit
  /-- `exit` after a call that has failed. -/
  | abort

/-- `runcmd`. -/
def runcmd (node : Place) : Cmd (List UInt8) → Code
  | .exec argv => .call node (if argv = [] then .exit else .exec argv)
  | .redir cmd file mode fd =>
    .call node (.close fd (.opens node file mode (runcmd (node ++ [.inner]) cmd)))
  | .list left right =>
    .call node (.fork (runcmd (node ++ [.left]) left) (.wait (runcmd (node ++ [.right]) right)))
  | .pipe left right =>
    .call node (.pipe node fun p0 p1 =>
      .fork (.close 1 (.dup p1 (.close p0 (.close p1 (runcmd (node ++ [.left]) left)))))
        (.fork (.close 0 (.dup p0 (.close p0 (.close p1 (runcmd (node ++ [.right]) right)))))
          (.close p0 (.close p1 (.wait (.wait .exit))))))
  | .back cmd => .call node (.fork (runcmd (node ++ [.inner]) cmd) .exit)

/-- What a process does. -/
inductive Status where
  | shell (code : Code)
  /-- It has executed the program. -/
  | program (argv : List (List UInt8))
  | zombie
  /-- Its parent has waited for it. -/
  | gone

def Status.isZombie : Status → Bool
  | .zombie => true
  | _ => false

def Status.isGone : Status → Bool
  | .gone => true
  | _ => false

/-- The program that a process has executed. -/
def Status.argv? : Status → Option (List (List UInt8))
  | .program argv => some argv
  | _ => none

structure Proc where
  parent : Option Nat
  node : Place
  fds : Fds
  status : Status

namespace Proc

/-- The process goes on with the code. -/
def goes (p : Proc) (code : Code) : Proc := { p with status := .shell code }

/-- `exit`. -/
def exits (p : Proc) : Proc := { p with fds := fun _ => none, status := .zombie }

/-- What a process makes of itself with its next call, which may fail, and of its child. -/
def act (p : Proc) (pid : Nat) (ok : Bool) : Code → Proc × Option Proc
  | .call node next => ({ p.goes next with node := node }, none)
  | .close fd next => ({ p.goes next with fds := Sh.close p.fds fd }, none)
  | .dup fd next => ({ p.goes next with fds := Sh.dup p.fds fd }, none)
  | .opens node file mode next =>
    match fdalloc p.fds (.opened node file mode) with
    | some (_, t) => if ok then ({ p.goes next with fds := t }, none) else (p.goes .abort, none)
    | none => (p.goes .abort, none)
  | .pipe node next =>
    match Sh.pipe p.fds node with
    | some (p0, p1, t) =>
      if ok then ({ p.goes (next p0 p1) with fds := t }, none) else (p.goes .abort, none)
    | none => (p.goes .abort, none)
  | .fork child next =>
    if ok then (p.goes next, some { p.goes child with parent := some pid })
    else (p.goes .abort, none)
  | .wait next => (p.goes next, none)
  | .exec argv => if ok then ({ p with status := .program argv }, none) else (p.goes .abort, none)
  | .exit => (p.exits, none)
  | .abort => (p.exits, none)

end Proc

/-- The processes by number. -/
abbrev Procs := List Proc

/-- A child of a process that is a zombie. -/
def zombieOf (s : Procs) (pid : Nat) : Option Nat :=
  (range s.length).find? fun i =>
    s[i]?.any fun p => p.parent = some pid ∧ p.status.isZombie

/-- `wait` collects a child. It returns −1 without children, and waits while none has exited. -/
def wait (s : Procs) (pid : Nat) : Option Procs :=
  match zombieOf s pid with
  | some i => s[i]?.map fun p => s.set i { p with status := .gone }
  | none => if s.all fun p => p.status.isGone ∨ p.parent ≠ some pid then some s else none

/-- What a call does to the other processes. -/
def others (s : Procs) (pid : Nat) : Code → Option Procs
  | .wait _ => wait s pid
  | _ => some s

/-- The next call of a process. A program that was executed exits at some time. -/
def step (s : Procs) (event : Nat × Bool) : Option Procs := do
  let p ← s[event.1]?
  match p.status with
  | .shell code =>
    let s ← others s event.1 code
    let (p, child) := p.act event.1 event.2 code
    some (s.set event.1 p ++ child.toList)
  | .program _ => some (s.set event.1 p.exits)
  | .zombie => none
  | .gone => none

/-- Descriptors 0, 1 and 2 are open. -/
def stdFds : Fds := fun fd => if fd ≤ 2 then some (.std fd) else none

/-- One process, about to run the command. -/
def start (cmd : Cmd (List UInt8)) : Procs := [⟨none, [], stdFds, .shell (runcmd [] cmd)⟩]

/-! ## What the descriptors should be -/

/-- The nodes of a tree, with the descriptors that their commands should have: a redirection sets
its descriptor for the command below it, a pipe sets 1 for its left and 0 for its right side. -/
inductive Wired (root : Cmd (List UInt8)) : Place → Cmd (List UInt8) → Fds → Prop where
  | root : Wired root [] root stdFds
  | redir {node : Place} {cmd : Cmd (List UInt8)} {file : List UInt8} {mode fd : Nat} {t : Fds}
      (above : Wired root node (.redir cmd file mode fd) t) :
      Wired root (node ++ [.inner]) cmd (update t fd (some (.opened node file mode)))
  | pipeLeft {node : Place} {left right : Cmd (List UInt8)} {t : Fds}
      (above : Wired root node (.pipe left right) t) :
      Wired root (node ++ [.left]) left (update t 1 (some (.writeEnd node)))
  | pipeRight {node : Place} {left right : Cmd (List UInt8)} {t : Fds}
      (above : Wired root node (.pipe left right) t) :
      Wired root (node ++ [.right]) right (update t 0 (some (.readEnd node)))
  | listLeft {node : Place} {left right : Cmd (List UInt8)} {t : Fds}
      (above : Wired root node (.list left right) t) : Wired root (node ++ [.left]) left t
  | listRight {node : Place} {left right : Cmd (List UInt8)} {t : Fds}
      (above : Wired root node (.list left right) t) : Wired root (node ++ [.right]) right t
  | back {node : Place} {cmd : Cmd (List UInt8)} {t : Fds}
      (above : Wired root node (.back cmd) t) : Wired root (node ++ [.inner]) cmd t

/-- Redirections are of descriptors 0 and 1, as the parser makes them. -/
def Cmd.Standard {α : Type} : Cmd α → Prop
  | .exec _ => True
  | .redir cmd _ _ fd => cmd.Standard ∧ fd ≤ 1
  | .pipe left right => left.Standard ∧ right.Standard
  | .list left right => left.Standard ∧ right.Standard
  | .back cmd => cmd.Standard

namespace Wired

variable {root cmd : Cmd (List UInt8)} {node : Place} {t : Fds} (wired : Wired root node cmd t)

include wired

theorem standard (standard : root.Standard) : cmd.Standard := by
  induction wired with
  | root => exact standard
  | redir _ ih => exact ih.1
  | pipeLeft _ ih | listLeft _ ih => exact ih.1
  | pipeRight _ ih | listRight _ ih => exact ih.2
  | back _ ih => exact ih

/-- Every node has the descriptors 0, 1 and 2. -/
theorem three (standard : root.Standard) (fd : Nat) : (t fd).isSome ↔ fd ≤ 2 := by
  induction wired with
  | root => by_cases low : fd ≤ 2 <;> simp [stdFds, low]
  | @redir _ _ _ _ own _ above ih =>
    have low : own ≤ 1 := (above.standard standard).2
    grind
  | pipeLeft _ ih | pipeRight _ ih =>
    rw [update_apply]
    split
    · next same => simp [same]
    · exact ih
  | listLeft _ ih | listRight _ ih | back _ ih => exact ih

/-- The ends of a pipe are known on their own sides only. -/
theorem ends {fd : Nat} {f : File} {pipe : Place} {turn : Turn} (holds : t fd = some f)
    (ends : f.ends = some (pipe, turn)) : pipe ++ [turn] <+: node := by
  induction wired with
  | root =>
    rw [stdFds] at holds
    split at holds <;> cases holds
    cases ends
  | redir _ ih =>
    rw [update_apply] at holds
    split at holds
    · cases holds
      cases ends
    · exact (ih holds).trans (prefix_append _ _)
  | pipeLeft _ ih | pipeRight _ ih =>
    rw [update_apply] at holds
    split at holds
    · cases holds
      cases ends
      exact prefix_rfl
    · exact (ih holds).trans (prefix_append _ _)
  | listLeft _ ih | listRight _ ih | back _ ih => exact (ih holds).trans (prefix_append _ _)

end Wired

/-! ## Calls of one process -/

/-- An assertion holds before every call of the code, whichever calls fail, in the process itself
and in its children. -/
def Safe (P : Place → Fds → Code → Prop) : Code → Place → Fds → Prop
  | .call node next, here, t => P here t (.call node next) ∧ Safe P next node t
  | .close fd next, here, t => P here t (.close fd next) ∧ Safe P next here (close t fd)
  | .dup fd next, here, t => P here t (.dup fd next) ∧ Safe P next here (dup t fd)
  | .opens node file mode next, here, t =>
    P here t (.opens node file mode next) ∧ P here t .abort ∧
      ∀ r, fdalloc t (.opened node file mode) = some r → Safe P next here r.2
  | .pipe node next, here, t =>
    P here t (.pipe node next) ∧ P here t .abort ∧
      ∀ r, pipe t node = some r → Safe P (next r.1 r.2.1) here r.2.2
  | .fork child next, here, t =>
    P here t (.fork child next) ∧ P here t .abort ∧ Safe P child here t ∧ Safe P next here t
  | .wait next, here, t => P here t (.wait next) ∧ Safe P next here t
  | .exec argv, here, t => P here t (.exec argv) ∧ P here t .abort
  | .exit, here, t => P here t .exit
  | .abort, here, t => P here t .abort

/-- The process waits, or is about to execute a program or to exit. -/
def Code.settled : Code → Bool
  | .wait _ => true
  | .exec _ => true
  | .exit => true
  | _ => false

/-- What is true of the descriptors of a process that is at a node, before its next call. -/
structure Point (root : Cmd (List UInt8)) (here : Place) (t : Fds) (code : Code) : Prop where
  exec : ∀ argv, code = .exec argv → Wired root here (.exec argv) t
  /-- The end of a pipe belongs to the side that the process is on, or is one that it is about to
  give to its sides. -/
  ends : ∀ fd f pipe turn, t fd = some f → f.ends = some (pipe, turn) →
    pipe ++ [turn] <+: here ∨ here = pipe ∧ code.settled = false

/-- On its way through a node a process may also have the ends of the node's own pipe. -/
def Loose (here : Place) (t : Fds) : Prop :=
  ∀ fd f pipe turn, t fd = some f → f.ends = some (pipe, turn) →
    pipe ++ [turn] <+: here ∨ here = pipe

section Loose

variable {root cmd : Cmd (List UInt8)} {here node : Place} {t : Fds} {code : Code} {turn : Turn}

theorem Loose.close (loose : Loose here t) (fd : Nat) : Loose here (close t fd) := by
  intro other f pipe turn holds ends
  rw [Sh.close, update_apply] at holds
  split at holds
  · cases holds
  · exact loose other f pipe turn holds ends

theorem Loose.update (loose : Loose here t) (fd : Nat) {f : File}
    (own : f.ends = some (here, turn)) : Loose here (update t fd (some f)) := by
  grind [Loose]

theorem Loose.point (loose : Loose here t) (unsettled : code.settled = false) :
    Point root here t code := by
  refine ⟨?_, fun fd f pipe turn holds ends => ?_⟩
  · rintro argv rfl
    cases unsettled
  · exact (loose fd f pipe turn holds ends).imp_right fun same => ⟨same, unsettled⟩

theorem Wired.point (wired : Wired root here cmd t)
    (exec : ∀ argv, code = .exec argv → cmd = .exec argv) : Point root here t code := by
  refine ⟨fun argv same => ?_, fun fd f pipe turn holds ends => .inl (wired.ends holds ends)⟩
  rw [← exec argv same]
  exact wired

theorem Wired.own (wired : Wired root here cmd t) : Loose here t :=
  fun _ _ _ _ holds ends => .inl (wired.ends holds ends)

/-- The descriptors of a node, before its command is run. -/
theorem Wired.loose (wired : Wired root (here ++ [turn]) cmd t) : Loose here t := by
  intro fd f pipe side holds ends
  rcases prefix_concat_iff.mp (wired.ends holds ends) with same | below
  · exact .inr (List.append_inj_left' same rfl).symm
  · exact .inl below

end Loose

section Tables

variable {t : Fds} {f : File} {fd : Nat}

theorem fdalloc_eq (free : t fd = none) (low : ∀ m < fd, (t m).isSome) (inside : fd < nOfile) :
    fdalloc t f = some (fd, update t fd (some f)) := by
  have first : (range nOfile).find? (fun fd => (t fd).isNone) = some fd := by
    rw [find?_range_eq_some]
    refine ⟨by rw [free]; rfl, List.mem_range.mpr inside, fun m less => ?_⟩
    rw [← not_isSome, low m less]
    rfl
  rw [fdalloc, first, map_some]

/-- What was just closed is the lowest free descriptor, if those below it are open. -/
theorem fdalloc_close (low : ∀ m < fd, (t m).isSome) (inside : fd < nOfile) :
    fdalloc (close t fd) f = some (fd, update t fd (some f)) := by
  have free : close t fd fd = none := update_self ..
  have lower : ∀ m < fd, (close t fd m).isSome := by
    intro m less
    rw [close, update_of_ne (ne_of_lt less)]
    exact low m less
  rw [fdalloc_eq free lower inside, close, update_idem]

variable (three : ∀ fd, (t fd).isSome ↔ fd ≤ 2)

include three

theorem free_above (above : 2 < fd) : t fd = none := by
  rw [← not_isSome_iff_eq_none, three]
  exact Nat.not_le_of_gt above

/-- The descriptors after `pipe`. -/
def piped (t : Fds) (node : Place) : Fds :=
  update (update t 3 (some (.readEnd node))) 4 (some (.writeEnd node))

omit three in
theorem piped_apply (node : Place) (fd : Nat) : piped t node fd =
    if fd = 4 then some (.writeEnd node) else if fd = 3 then some (.readEnd node) else t fd := by
  simp only [piped, update_apply]

theorem pipe_eq (node : Place) : pipe t node = some (3, 4, piped t node) := by
  have first : fdalloc t (.readEnd node) =
      some (3, update t 3 (some (.readEnd node))) := by
    refine fdalloc_eq (free_above three (by decide)) (fun m less => ?_) (by decide)
    rw [three]
    omega
  have second : fdalloc (update t 3 (some (.readEnd node))) (.writeEnd node) =
      some (4, piped t node) := by
    refine fdalloc_eq ?_ (fun m less => ?_) (by decide)
    · rw [update_of_ne (by decide)]
      exact free_above three (by decide)
    · rw [update_apply]
      split
      · rfl
      · rw [three]
        omega
  rw [pipe, first]
  simp only [bind_eq_bind, bind_some, second]

/-- `close(p[0]); close(p[1])` in the parent. -/
theorem closes_both (node : Place) : close (close (piped t node) 3) 4 = t := by
  funext fd
  simp only [close, update_apply, piped_apply]
  split
  · next same => rw [same, free_above three (by decide)]
  · split
    · next same => rw [same, free_above three (by decide)]
    · rfl

/-- `close(fd); dup(p[i])` in a child. -/
theorem dup_side (node : Place) {end' : Nat} (side : fd ≤ 2) (own : piped t node end' = some f)
    (high : 2 < end') : dup (close (piped t node) fd) end' = update (piped t node) fd (some f) := by
  have still : close (piped t node) fd end' = some f := by
    rw [close, update_of_ne (by omega), own]
  grind [piped_apply, dup, fdalloc_close, nOfile]

/-- `close(p[0]); close(p[1])` in a child. -/
theorem closes_side (node : Place) (side : fd ≤ 2) :
    close (close (update (piped t node) fd (some f)) 3) 4 =
      update t fd (some f) := by
  funext other
  have none : other = 3 ∨ other = 4 → t other = none := fun high => free_above three (by omega)
  simp only [close, update_apply, piped_apply]
  grind

end Tables

section Safe

variable {root : Cmd (List UInt8)} {t : Fds}

/-- The code of a child of a pipe, up to its call of `runcmd`. -/
theorem side_safe {here : Place} {fd end' : Nat} {f : File} {turn : Turn} {next : Code}
    (three : ∀ fd, (t fd).isSome ↔ fd ≤ 2) (loose : Loose here (piped t here)) (side : fd ≤ 2)
    (own : piped t here end' = some f) (ends : f.ends = some (here, turn)) (high : 2 < end')
    (rest : Safe (Point root) next here (update t fd (some f))) :
    Safe (Point root) (.close fd (.dup end' (.close 3 (.close 4 next)))) here (piped t here) := by
  have given : Loose here (update (piped t here) fd (some f)) := loose.update fd ends
  refine ⟨loose.point rfl, (loose.close fd).point rfl, ?_⟩
  rw [dup_side three here side own high]
  refine ⟨given.point rfl, (given.close 3).point rfl, ?_⟩
  rw [closes_side three here side]
  exact rest

/-- The code of `runcmd` runs with the descriptors of its node. -/
theorem runcmd_safe (standard : root.Standard) {cmd : Cmd (List UInt8)} {here node : Place}
    (wired : Wired root node cmd t) (loose : Loose here t) :
    Safe (Point root) (runcmd node cmd) here t := by
  induction cmd generalizing here node t with
  | exec argv =>
    refine ⟨loose.point rfl, ?_⟩
    split
    · exact wired.point (by simp)
    · exact ⟨wired.point (fun other same => by cases same; rfl), wired.own.point rfl⟩
  | redir cmd file mode fd ih =>
    have low : fd ≤ 1 := (wired.standard standard).2
    have lower : ∀ m < fd, (t m).isSome := fun m less => (wired.three standard m).mpr (by omega)
    have shut : Loose node (close t fd) := wired.own.close fd
    refine ⟨loose.point rfl, wired.own.point rfl, shut.point rfl, shut.point rfl, ?_⟩
    intro r opens
    rw [fdalloc_close lower (by rw [nOfile]; omega)] at opens
    cases opens
    exact ih wired.redir wired.redir.loose
  | pipe left right ihl ihr =>
    have three := wired.three standard
    have both : Loose node (piped t node) := (wired.own.update 3 rfl).update 4 rfl
    refine ⟨loose.point rfl, wired.own.point rfl, wired.own.point rfl, ?_⟩
    intro r pipes
    rw [pipe_eq three] at pipes
    cases pipes
    refine ⟨both.point rfl, both.point rfl, ?_, both.point rfl, both.point rfl, ?_, ?_⟩
    · have rest := ihl wired.pipeLeft wired.pipeLeft.loose
      exact side_safe three both (by decide) rfl rfl (Nat.lt_succ_of_lt (Nat.lt_succ_self 2)) rest
    · have rest := ihr wired.pipeRight wired.pipeRight.loose
      exact side_safe three both (by decide) rfl rfl (Nat.lt_succ_self 2) rest
    · refine ⟨both.point rfl, (both.close 3).point rfl, ?_⟩
      rw [closes_both three]
      exact ⟨wired.point (by simp), wired.point (by simp), wired.point (by simp)⟩
  | list left right ihl ihr =>
    exact ⟨loose.point rfl, wired.own.point rfl, wired.own.point rfl,
      ihl wired.listLeft wired.listLeft.loose, wired.point (by simp),
      ihr wired.listRight wired.listRight.loose⟩
  | back cmd ih =>
    exact ⟨loose.point rfl, wired.own.point rfl, wired.own.point rfl,
      ih wired.back wired.back.loose, wired.point (by simp)⟩

end Safe

/-! ## Runs -/

/-- What is true of every process. -/
def Good (root : Cmd (List UInt8)) (p : Proc) : Prop :=
  match p.status with
  | .shell code => Safe (Point root) code p.node p.fds
  | .program argv => Wired root p.node (.exec argv) p.fds
  | .zombie => ∀ fd, p.fds fd = none
  | .gone => ∀ fd, p.fds fd = none

section Runs

variable {root : Cmd (List UInt8)} {p : Proc} {s : Procs} {later : Procs} {code : Code} {pid : Nat}

/-- A call keeps what is true of the process, and it is true of its child. -/
theorem act_good (pid : Nat) (ok : Bool) (safe : Safe (Point root) code p.node p.fds) :
    Good root (p.act pid ok code).1 ∧ ∀ child ∈ (p.act pid ok code).2.toList, Good root child := by
  cases code with
  | call node next => exact ⟨safe.2, by simp [Proc.act]⟩
  | close fd next => exact ⟨safe.2, by simp [Proc.act]⟩
  | dup fd next => exact ⟨safe.2, by simp [Proc.act]⟩
  | wait next => exact ⟨safe.2, by simp [Proc.act]⟩
  | opens node file mode next =>
    rw [Proc.act]
    split
    · next r opens =>
      split
      · exact ⟨safe.2.2 _ opens, by simp⟩
      · exact ⟨safe.2.1, by simp⟩
    · exact ⟨safe.2.1, by simp⟩
  | pipe node next =>
    rw [Proc.act]
    split
    · next r pipes =>
      split
      · exact ⟨safe.2.2 _ pipes, by simp⟩
      · exact ⟨safe.2.1, by simp⟩
    · exact ⟨safe.2.1, by simp⟩
  | fork child next =>
    rw [Proc.act]
    split
    · refine ⟨safe.2.2.2, fun q member => ?_⟩
      rw [toList_some, mem_singleton] at member
      subst member
      exact safe.2.2.1
    · exact ⟨safe.2.1, by simp⟩
  | exec argv =>
    rw [Proc.act]
    split
    · exact ⟨safe.1.exec argv rfl, by simp⟩
    · exact ⟨safe.2, by simp⟩
  | exit | abort => exact ⟨fun _ => rfl, by simp [Proc.act]⟩

section

variable (good : ∀ p ∈ s, Good root p)

include good

theorem wait_good (waits : wait s pid = some later) : ∀ p ∈ later, Good root p := by
  rw [wait] at waits
  split at waits
  · next i zombie =>
    obtain ⟨q, inside, rfl⟩ := map_eq_some_iff.mp waits
    rw [zombieOf] at zombie
    have exited := find?_some zombie
    simp only [inside, any_some, decide_eq_true_eq] at exited
    have known := good q (mem_of_getElem? inside)
    intro p member
    rcases mem_or_eq_of_mem_set member with member | rfl
    · exact good p member
    · revert known
      rw [Good, Good]
      cases status : q.status with
      | zombie => exact id
      | shell | program | gone =>
        rw [status] at exited
        cases exited.2
  · split at waits
    · cases waits
      exact good
    · cases waits

theorem others_good (moves : others s pid code = some later) : ∀ p ∈ later, Good root p := by
  cases code with
  | wait next => exact wait_good good moves
  | call | close | dup | opens | pipe | fork | exec | exit | abort =>
    cases moves
    exact good

theorem step_good {event : Nat × Bool} (moves : step s event = some later) :
    ∀ p ∈ later, Good root p := by
  obtain ⟨p, inside, moves⟩ := bind_eq_some_iff.mp moves
  have known := good p (mem_of_getElem? inside)
  rw [Good] at known
  cases status : p.status with
  | shell code =>
    simp only [status] at moves known
    obtain ⟨t, collected, moves⟩ := bind_eq_some_iff.mp moves
    obtain ⟨first, child⟩ := act_good event.1 event.2 known
    grind [others_good]
  | program argv =>
    simp only [status] at moves
    cases moves
    intro q member
    rcases mem_or_eq_of_mem_set member with member | rfl
    · exact good q member
    · exact fun _ => rfl
  | zombie | gone =>
    simp only [status] at moves
    cases moves

end

theorem reach_good (standard : root.Standard)
    (reached : Reach step (fun _ _ => True) (start root) s) : ∀ p ∈ s, Good root p := by
  refine reached.invariant (fun s => ∀ p ∈ s, Good root p) ?_ ?_
  · intro p member
    rw [start, mem_singleton] at member
    subst member
    have wired : Wired root [] root stdFds := .root
    exact runcmd_safe standard wired wired.own
  · intro s event later good _ moves
    exact step_good good moves

theorem Safe.now {P : Place → Fds → Code → Prop} {here : Place} {t : Fds}
    (safe : Safe P code here t) : P here t code := by
  cases code with
  | exit | abort => exact safe
  | call | close | dup | opens | pipe | fork | wait | exec => exact safe.1

/-- The process executes the program, or is about to. -/
def Proc.Executes (p : Proc) (argv : List (List UInt8)) : Prop :=
  p.status = .program argv ∨ p.status = .shell (.exec argv)

/-- The process is between the `pipe` of a node and its last `close`, or one of its children is
before its call of `runcmd`. -/
def Proc.Connects (p : Proc) (pipe : Place) : Prop :=
  p.node = pipe ∧ ∃ code, p.status = .shell code ∧ code.settled = false

theorem Good.ends {fd : Nat} {f : File} {pipe : Place} {turn : Turn} (good : Good root p)
    (holds : p.fds fd = some f) (ends : f.ends = some (pipe, turn)) :
    pipe ++ [turn] <+: p.node ∨ p.Connects pipe := by
  rw [Good] at good
  cases status : p.status with
  | shell code =>
    rw [status] at good
    rcases good.now.ends fd f pipe turn holds ends with below | ⟨here, open'⟩
    · exact .inl below
    · exact .inr ⟨here, code, status, open'⟩
  | program argv =>
    rw [status] at good
    exact .inl (good.ends holds ends)
  | zombie | gone =>
    rw [status] at good
    rw [good fd] at holds
    cases holds

end Runs

/-- In every state that the processes of a command reach, a program is executed with the descriptors
of its place in the tree, which are 0, 1 and 2; and the ends of a pipe are held on their own sides
only, once the process that made it waits and its children run their commands. -/
theorem runcmd_wires (root : Cmd (List UInt8)) (standard : root.Standard) (s : Procs)
    (reached : Reach step (fun _ _ => True) (start root) s) (p : Proc) (member : p ∈ s) :
    (∀ argv, p.Executes argv →
      Wired root p.node (.exec argv) p.fds ∧ ∀ fd, (p.fds fd).isSome ↔ fd ≤ 2) ∧
    (∀ fd pipe, p.fds fd = some (.writeEnd pipe) →
      pipe ++ [.left] <+: p.node ∨ p.Connects pipe) ∧
    ∀ fd pipe, p.fds fd = some (.readEnd pipe) →
      pipe ++ [.right] <+: p.node ∨ p.Connects pipe := by
  have good := reach_good standard reached p member
  refine ⟨fun argv executes => ?_, fun fd pipe holds => good.ends holds rfl,
    fun fd pipe holds => good.ends holds rfl⟩
  have wired : Wired root p.node (.exec argv) p.fds := by
    rw [Good] at good
    rcases executes with status | status
    · rwa [status] at good
    · rw [status] at good
      exact good.now.exec argv rfl
  exact ⟨wired, wired.three standard⟩

/-- A process with arguments runs a program. -/
theorem Status.eq_program {status : Status} {argv : List (List UInt8)}
    (executed : status.argv? = some argv) : status = .program argv := by
  cases status with
  | program other => exact congrArg Status.program (Option.some.inj executed)
  | shell | zombie | gone => cases executed

/-- `a|b`, until both programs run. -/
theorem runcmd_wires_pipe : ∃ s p, p ∈ s ∧
    Reach step (fun _ _ => True) (start (.pipe (.exec [[97]]) (.exec [[98]]))) s ∧
    p.Executes [[97]] ∧ p.fds 1 = some (.writeEnd []) ∧ (p.fds 3).isSome = false := by
  have run : (runChecked step (fun _ _ => True)
      [(0, true), (0, true), (0, true), (0, true), (1, true), (1, true), (1, true), (1, true),
        (1, true), (1, true), (2, true), (2, true), (2, true), (2, true), (2, true), (2, true),
        (0, true), (0, true)]
      (start (.pipe (.exec [[97]]) (.exec [[98]])))).bind (fun s => s[1]?.map fun p =>
        (p.fds 1, p.status.argv?)) = some (some (.writeEnd []), some [[97]]) := by decide +kernel
  obtain ⟨s, executed, found⟩ := bind_eq_some_iff.mp run
  obtain ⟨p, inside, same⟩ := map_eq_some_iff.mp found
  obtain ⟨output, status⟩ := Prod.mk.inj same
  have reached := reach_of_runChecked _ .start executed
  have executes : p.Executes [[97]] := .inl (Status.eq_program status)
  have wires := runcmd_wires (.pipe (.exec [[97]]) (.exec [[98]])) ⟨trivial, trivial⟩ s reached p
    (mem_of_getElem? inside)
  refine ⟨s, p, mem_of_getElem? inside, reached, executes, output, ?_⟩
  have closed := ((wires.1 _ executes).2 3).not.mpr (by decide)
  simpa using closed

/-! ## The trees of the parser -/

variable {ts : List Token} {rs : List (Redir (List UInt8))} {c : Cmd (List UInt8)}

/-- The grammar redirects the standard descriptors only. -/
theorem Redirs.low (derived : Redirs ts rs) : ∀ r ∈ rs, r.fd ≤ 1 := by
  induction derived with
  | nil => exact fun _ member => absurd member not_mem_nil
  | input _ ih | output _ ih | append _ ih =>
    exact List.forall_mem_cons.mpr ⟨by dsimp only; omega, ih⟩

/-- So it does between arguments. -/
theorem Args.low {ws : List (List UInt8)} (derived : Args ts ws rs) : ∀ r ∈ rs, r.fd ≤ 1 := by
  induction derived with
  | nil => exact fun _ member => absurd member not_mem_nil
  | cons redirs _ ih => exact forall_mem_append.mpr ⟨redirs.low, ih⟩

/-- Such redirections around a standard command. -/
theorem Cmd.Standard.wrap (standard : c.Standard) (low : ∀ r ∈ rs, r.fd ≤ 1) :
    (wrap c rs).Standard := by
  induction rs generalizing c with
  | nil => exact standard
  | cons r rs ih =>
    obtain ⟨first, rest⟩ := List.forall_mem_cons.mp low
    exact ih ⟨standard, first⟩ rest

/-- Ampersands change no descriptor. -/
theorem Cmd.Standard.backs (standard : c.Standard) (n : Nat) : (backs n c).Standard := by
  induction n generalizing c with
  | zero => exact standard
  | succ n ih => exact ih standard

/-- Every derived command is standard. -/
theorem Derives.standard {x : Symbol} (derived : Derives x ts c) : c.Standard := by
  induction derived with
  | line _ n ih => exact ih.backs n
  | lines _ n _ first rest => exact ⟨first.backs n, rest⟩
  | pipe _ ih | nested _ ih => exact ih
  | pipes _ _ first rest => exact ⟨first, rest⟩
  | exec redirs args _ =>
    exact Cmd.Standard.wrap trivial (forall_mem_append.mpr ⟨redirs.low, args.low⟩)
  | block _ redirs ih => exact ih.wrap redirs.low

/-- A command that the parser accepts redirects descriptors 0 and 1 only. -/
theorem parsecmd_standard {s : List UInt8} (noNul : 0 ∉ s) (accepted : parsecmd s = .ok c) :
    c.Standard := by
  obtain ⟨cmd, ps, parses, -, rfl⟩ := (parsecmd_ok noNul).mp accepted
  obtain ⟨ts, derived, -⟩ := (parse_sound .line _ parses).derived
  exact derived.standard

/-- `(a<b|c>d)>e;f&`. -/
theorem parsecmd_standard_output : (Cmd.list (.redir (.pipe (.redir (.exec [[97]]) [98] 0 0)
    (.redir (.exec [[99]]) [100] 513 1)) [101] 513 1) (.back (.exec [[102]])) :
    Cmd (List UInt8)).Standard := by
  apply parsecmd_standard (s := [40, 97, 60, 98, 124, 99, 62, 100, 41, 62, 101, 59, 102, 38]) <;>
    decide +kernel

end Xv6.Sh
