import Xv6.User.Handlers

/-!
# User pointers stay inside the process

`argptr` checks the bytes from a pointer up to the size it is given; each function that then
touches user memory is bounded by the number of bytes it may touch from its pointer. `read`,
`write`, `fstat` and `pipe` pass the size their callee uses. `date` passes the size of a pointer
while `cmostime` fills a `struct rtcdate`, so its accesses stay inside exactly when that structure
fits.
-/

namespace Xv6.User

open Lib List

/-- The addresses below a size. -/
def Below (sz a : Word) : Prop := a.toNat < sz.toNat

/-- A program that touches no other byte of user memory than those below a size. -/
def Inside {α : Type} (sz : Word) (act : UserM α) : Prop :=
  Stays Memory.touched (Below sz) act fun _ => True

variable {sz a addr n dst r size off src : Word} {v : View} {m : Memory} {f : OpenFile}

variable {fuel left : Nat}

/-- The next address, when the bytes from this one do not reach `2 ^ 32`. -/
theorem toNat_add_ofNat {m n : Nat} (inside : a.toNat + n ≤ sz.toNat) (le : m ≤ n) :
    (a + BitVec.ofNat 32 m).toNat = a.toNat + m := by
  have bound := sz.isLt
  rw [BitVec.toNat_add, BitVec.toNat_ofNat, Nat.mod_eq_of_lt (a := m) (by omega),
    Nat.mod_eq_of_lt (by omega)]

theorem load_stays (inside : Below sz a) : Inside sz (load a) := by
  intro m
  refine ⟨trivial, fun i touched => ?_⟩
  rcases mem_cons.mp touched with rfl | before
  · exact .inr inside
  · exact .inl before

theorem store_stays {b : Byte} (inside : Below sz a) : Inside sz (store a b) := by
  intro m
  refine ⟨trivial, fun i touched => ?_⟩
  rcases mem_cons.mp touched with rfl | before
  · exact .inr inside
  · exact .inl before

theorem loadBytes_stays {n : Nat} (inside : a.toNat + n ≤ sz.toNat) :
    Inside sz (loadBytes a n) := by
  induction n generalizing a with
  | zero => exact .pure trivial
  | succ n ih =>
    have next : (a + 1).toNat = a.toNat + 1 := toNat_add_ofNat (m := 1) inside (by omega)
    refine (load_stays (show a.toNat < sz.toNat by omega)).bind fun b _ => ?_
    exact (ih (by omega)).bind fun _ _ => .pure trivial

theorem storeBytes_stays {bytes : List Byte} (inside : a.toNat + bytes.length ≤ sz.toNat) :
    Inside sz (storeBytes a bytes) := by
  induction bytes generalizing a with
  | nil => exact .pure trivial
  | cons b bytes ih =>
    rw [length_cons] at inside
    have next : (a + 1).toNat = a.toNat + 1 := toNat_add_ofNat (m := 1) inside (by omega)
    refine (store_stays (show a.toNat < sz.toNat by omega)).bind fun _ _ => ?_
    exact ih (by omega)

theorem loadWord_stays (inside : a.toNat + 4 ≤ sz.toNat) : Inside sz (loadWord a) :=
  (loadBytes_stays inside).bind fun _ _ => .pure trivial

theorem storeWord_stays {w : Word} (inside : a.toNat + 4 ≤ sz.toNat) : Inside sz (storeWord a w) :=
  storeBytes_stays inside

/-! ### Fetching arguments -/

variable {p : Process} {env : Env}

/-- The bytes a check has let through: below `KERNBASE` no sum wraps. -/
theorem checked_inside {i : Word} (small : sz.toNat < kernbase) (nonneg : ¬ size.toInt < 0)
    (start : ¬ i ≥ sz) (stop : ¬ i + size > sz) : i.toNat + size.toInt.toNat ≤ sz.toNat := by
  have positive : size.toInt = size.toNat := by
    rw [BitVec.toInt_eq_toNat_cond] at nonneg ⊢
    split at nonneg <;> omega
  have half : 2 * size.toNat < 2 ^ 32 := by
    rw [BitVec.toInt_eq_toNat_cond] at positive
    split at positive <;> omega
  rw [ge_iff_le, BitVec.le_def] at start
  rw [gt_iff_lt, BitVec.lt_def, BitVec.toNat_add] at stop
  unfold kernbase at small
  omega

theorem fetchint_stays (small : p.sz.toNat < kernbase) : Inside p.sz (fetchint p addr) := by
  refine .ite (fun _ => .pure trivial) fun checked => ?_
  rw [not_or] at checked
  have inside : addr.toNat + (4 : Word).toInt.toNat ≤ p.sz.toNat :=
    checked_inside small (by decide) checked.1 checked.2
  exact (loadWord_stays inside).map fun _ _ => trivial

theorem argint_stays {n : Nat} (small : p.sz.toNat < kernbase) : Inside p.sz (argint p n) :=
  fetchint_stays small

/-- What a pointer that `argptr` has let through is good for. -/
def Checked (sz size : Word) (result : Option Word) : Prop :=
  ∀ a, result = some a → 0 ≤ size.toInt ∧ a.toNat + size.toInt.toNat ≤ sz.toNat

theorem argptr_stays {n : Nat} (small : p.sz.toNat < kernbase) :
    Stays Memory.touched (Below p.sz) (argptr p n size) (Checked p.sz size) := by
  refine (argint_stays small).bind fun i _ => ?_
  match i with
  | none => exact .pure nofun
  | some i =>
    refine .ite (fun _ => .pure nofun) fun checked => .pure ?_
    grind [checked_inside, Checked]

theorem argfd_stays {n : Nat} (small : p.sz.toNat < kernbase) : Inside p.sz (argfd p env n) := by
  refine (argint_stays small).bind fun fd _ => ?_
  match fd with
  | none => exact .pure trivial
  | some fd => exact .pure trivial

/-! ### The functions behind a descriptor

Each touches at most the given number of bytes from its pointer. -/

theorem consoleLoop_stays {n : Nat} {input : List Byte} (inside : dst.toNat + n ≤ sz.toNat) :
    Inside sz (consoleLoop n dst input) := by
  induction n generalizing dst input with
  | zero => exact .pure trivial
  | succ n ih =>
    match input with
    | [] => exact .pure trivial
    | c :: input =>
      have next : (dst + 1).toNat = dst.toNat + 1 := toNat_add_ofNat (m := 1) inside (by omega)
      refine .ite (fun _ => .pure trivial) fun _ => ?_
      refine (store_stays (show dst.toNat < sz.toNat by omega)).bind fun _ _ => ?_
      refine .ite (fun _ => .pure trivial) fun _ => ?_
      exact (ih (by omega)).bind fun _ _ => .pure trivial

theorem consoleread_stays (inside : dst.toNat + n.toInt.toNat ≤ sz.toNat) :
    Inside sz (consoleread env dst n) := by
  refine (consoleLoop_stays inside).bind fun stored _ => ?_
  match stored with
  | none => exact .pure trivial
  | some _ => exact .pure trivial

theorem consolewrite_stays {buf : Word} (inside : buf.toNat + n.toInt.toNat ≤ sz.toNat) :
    Inside sz (consolewrite buf n) :=
  (loadBytes_stays inside).bind fun _ _ => .pure trivial

theorem readLoop_stays (inside : dst.toNat + left ≤ sz.toNat) :
    Inside sz (readLoop env fuel dst off left) := by
  induction fuel generalizing dst off left with
  | zero => exact .pure trivial
  | succ fuel ih =>
    refine .ite (fun _ => .pure trivial) fun _ => ?_
    have next := toNat_add_ofNat inside (Nat.min_le_left left (bSize - off.toNat % bSize))
    refine (storeBytes_stays ?_).bind fun _ _ => ih ?_
    · rw [length_map, length_range]
      omega
    · rw [next]
      omega

theorem writeLoop_stays (inside : src.toNat + left ≤ sz.toNat) :
    Inside sz (writeLoop fuel src off left) := by
  induction fuel generalizing src off left with
  | zero => exact .pure trivial
  | succ fuel ih =>
    refine .ite (fun _ => .pure trivial) fun _ => ?_
    have next := toNat_add_ofNat inside (Nat.min_le_left left (bSize - off.toNat % bSize))
    refine (loadBytes_stays (by omega)).bind fun _ _ => ih ?_
    rw [next]
    omega

/-- An `int` that is not negative is the same number as a `uint`. -/
theorem toNat_eq_of_nonneg (nonneg : 0 ≤ n.toInt) : n.toNat = n.toInt.toNat := by
  rw [BitVec.toInt_eq_toNat_cond] at nonneg ⊢
  split at nonneg <;> omega

theorem readi_stays (nonneg : 0 ≤ n.toInt) (inside : dst.toNat + n.toInt.toNat ≤ sz.toNat) :
    Inside sz (readi env v dst n) := by
  refine .ite (fun _ => .ite (fun _ => consoleread_stays inside) fun _ => .pure trivial) fun _ => ?_
  refine .ite (fun _ => .pure trivial) fun inFile => ?_
  refine (readLoop_stays ?_).bind fun _ _ => .pure trivial
  rw [← toNat_eq_of_nonneg nonneg] at inside
  -- The number of bytes is only ever clipped to what the file has left.
  have clipped : (if v.off + n > v.size then v.size - v.off else n).toNat ≤ n.toNat := by
    rw [not_or, gt_iff_lt, BitVec.lt_def, BitVec.lt_def, BitVec.toNat_add] at inFile
    have size := v.size.isLt
    have count := n.isLt
    split
    case isTrue beyond =>
      rw [gt_iff_lt, BitVec.lt_def, BitVec.toNat_add] at beyond
      rw [BitVec.toNat_sub]
      omega
    case isFalse => exact Nat.le_refl _
  omega

theorem writei_stays (nonneg : 0 ≤ n.toInt) (inside : src.toNat + n.toInt.toNat ≤ sz.toNat) :
    Inside sz (writei v src n) := by
  refine .ite (fun _ => .ite (fun _ => consolewrite_stays inside) fun _ => .pure trivial)
    fun _ => ?_
  refine .ite (fun _ => .pure trivial) fun _ => .ite (fun _ => .pure trivial) fun _ => ?_
  rw [← toNat_eq_of_nonneg nonneg] at inside
  exact (writeLoop_stays inside).bind fun _ _ => .pure trivial

theorem piperead_stays (inside : addr.toNat + n.toInt.toNat ≤ sz.toNat) :
    Inside sz (piperead env addr n) := by
  unfold piperead
  match env.pipe with
  | none => exact .pure trivial
  | some bytes =>
    refine (storeBytes_stays ?_).bind fun _ _ => .pure trivial
    have taken := length_take_le n.toInt.toNat bytes
    omega

theorem pipewrite_stays (inside : addr.toNat + n.toInt.toNat ≤ sz.toNat) :
    Inside sz (pipewrite env addr n) :=
  (loadBytes_stays (by omega)).bind fun _ _ => .pure trivial

theorem fileread_stays (nonneg : 0 ≤ n.toInt) (inside : addr.toNat + n.toInt.toNat ≤ sz.toNat) :
    Inside sz (fileread env f addr n) := by
  refine .ite (fun _ => .pure trivial) fun _ => ?_
  match f.kind with
  | .pipe => exact (piperead_stays inside).map fun _ _ => trivial
  | .inode => exact (readi_stays nonneg inside).map fun _ _ => trivial
  | .none => exact .pure trivial

theorem filewriteLoop_stays {k : Nat} (inside : addr.toNat + left ≤ sz.toNat) :
    Inside sz (filewriteLoop env fuel k addr left) := by
  induction fuel generalizing k addr left with
  | zero => exact .pure trivial
  | succ fuel ih =>
    refine .ite (fun _ => .pure trivial) fun _ => ?_
    have next := toNat_add_ofNat inside (Nat.min_le_left left Fs.maxWrite)
    have chunk : (BitVec.ofNat 32 (min left Fs.maxWrite)).toInt = (min left Fs.maxWrite : Nat) := by
      have small : Fs.maxWrite = 1536 := rfl
      rw [BitVec.toInt_eq_toNat_cond, BitVec.toNat_ofNat]
      split <;> omega
    refine (writei_stays (by omega) (by omega)).bind fun r _ => ?_
    refine .ite (fun _ => .pure trivial) fun _ => .ite (fun _ => .pure trivial) fun _ => ih ?_
    rw [next]
    omega

theorem filewrite_stays (inside : addr.toNat + n.toInt.toNat ≤ sz.toNat) :
    Inside sz (filewrite env f addr n) := by
  refine .ite (fun _ => .pure trivial) fun _ => ?_
  match f.kind with
  | .pipe => exact (pipewrite_stays inside).map fun _ _ => trivial
  | .inode => exact (filewriteLoop_stays inside).bind fun _ _ => .pure trivial
  | .none => exact .pure trivial

/-- `stati` fills a `struct stat`. -/
theorem stati_stays {st : Word} (inside : st.toNat + 20 ≤ sz.toNat) : Inside sz (stati v st) := by
  have dev : (st + 4).toNat = st.toNat + 4 := toNat_add_ofNat (m := 4) inside (by omega)
  have ino : (st + 8).toNat = st.toNat + 8 := toNat_add_ofNat (m := 8) inside (by omega)
  have nlink : (st + 12).toNat = st.toNat + 12 := toNat_add_ofNat (m := 12) inside (by omega)
  have size : (st + 16).toNat = st.toNat + 16 := toNat_add_ofNat (m := 16) inside (by omega)
  have short (w : BitVec 16) : (shortBytes w).length = 2 := rfl
  refine (storeWord_stays (by omega)).bind fun _ _ => ?_
  refine (storeWord_stays (by omega)).bind fun _ _ => ?_
  refine (storeBytes_stays (by rw [short]; omega)).bind fun _ _ => ?_
  refine (storeBytes_stays (by rw [short]; omega)).bind fun _ _ => ?_
  exact storeWord_stays (by omega)

/-- `cmostime` fills a `struct rtcdate`. -/
theorem cmostime_stays (inside : r.toNat + 24 ≤ sz.toNat) : Inside sz (cmostime env r) := by
  have year : (r + 20).toNat = r.toNat + 20 := toNat_add_ofNat (m := 20) inside (by omega)
  have length : (rtcdateBytes env.clock).length = 24 := rfl
  refine (storeBytes_stays (by rw [length]; omega)).bind fun _ _ => ?_
  refine (loadWord_stays (by omega)).bind fun _ _ => ?_
  exact storeWord_stays (by omega)

/-- A word reaches to its fourth byte. -/
theorem storeWord_touches (a w : Word) (m : Memory) : a + 1 + 1 + 1 ∈ (storeWord a w m).2.touched :=
  mem_cons_self

/-- `cmostime` reaches the last byte of a `struct rtcdate`. -/
theorem cmostime_touches (r : Word) (m : Memory) :
    r + 20 + 1 + 1 + 1 ∈ (cmostime env r m).2.touched := by
  rw [cmostime, run_bind, run_bind]
  exact storeWord_touches _ _ _

/-! ### The handlers -/

section

variable (small : p.sz.toNat < kernbase)

include small

theorem transfer_stays {act : OpenFile → Word → Word → UserM (Option Int)}
    (each : ∀ f addr n, 0 ≤ n.toInt → addr.toNat + n.toInt.toNat ≤ p.sz.toNat →
      Inside p.sz (act f addr n)) : Inside p.sz (transfer p env act) := by
  refine (argfd_stays small).bind fun file _ => ?_
  match file with
  | none => exact .pure trivial
  | some f =>
    refine (argint_stays small).bind fun count _ => ?_
    match count with
    | none => exact .pure trivial
    | some n =>
      refine (argptr_stays small).bind fun addr checked => ?_
      match addr with
      | none => exact .pure trivial
      | some addr => exact each f addr n (checked addr rfl).1 (checked addr rfl).2

theorem sysFstat_stays : Inside p.sz (sysFstat p env) := by
  refine (argfd_stays small).bind fun file _ => ?_
  match file with
  | none => exact .pure trivial
  | some f =>
    refine (argptr_stays small).bind fun st checked => ?_
    match st with
    | none => exact .pure trivial
    | some st =>
      have inside : st.toNat + 20 ≤ p.sz.toNat := (checked st rfl).2
      have filled : Inside p.sz (filestat env f st) :=
        .ite (fun _ => (stati_stays inside).bind fun _ _ => .pure trivial) fun _ => .pure trivial
      exact filled.map fun _ _ => trivial

theorem sysPipe_stays : Inside p.sz (sysPipe p env) := by
  refine (argptr_stays small).bind fun fd checked => ?_
  match fd with
  | none => exact .pure trivial
  | some fd =>
    have inside : fd.toNat + 8 ≤ p.sz.toNat := (checked fd rfl).2
    have second : (fd + 4).toNat = fd.toNat + 4 := toNat_add_ofNat (m := 4) inside (by omega)
    match env.fds with
    | none => exact .pure trivial
    | some (fd0, fd1) =>
      refine (storeWord_stays (by omega)).bind fun _ _ => ?_
      exact (storeWord_stays (by omega)).bind fun _ _ => .pure trivial

/-- Every handler but that of `date` passes `argptr` the size that its callee uses. -/
theorem syscall_stays {call : Call} (other : call ≠ .date) : Inside p.sz (syscall p env call) := by
  cases call with
  | read => exact transfer_stays small fun _ _ _ nonneg inside => fileread_stays nonneg inside
  | write => exact transfer_stays small fun _ _ _ _ inside => filewrite_stays inside
  | fstat => exact sysFstat_stays small
  | pipe => exact sysPipe_stays small
  | date => exact absurd rfl other

end

/-- `date` with a pointer that `argptr` lets through. -/
theorem sysDate_some (found : (datePtr p m).1 = some r) :
    (sysDate p env m).2 = (cmostime env r (datePtr p m).2).2 := by
  rw [sysDate, run_bind, found]
  dsimp only
  rw [run_bind, run_pure]

/-- `date` with a pointer that `argptr` refuses. -/
theorem sysDate_none (refused : (datePtr p m).1 = none) :
    (sysDate p env m).2 = (datePtr p m).2 := by
  rw [sysDate, run_bind, refused]
  dsimp only
  rw [run_pure]

/-- `date` stays inside when the structure behind its pointer does. -/
theorem sysDate_inside (small : p.sz.toNat < kernbase)
    (fits : ∀ r, (datePtr p m).1 = some r → r.toNat + 24 ≤ p.sz.toNat) (a : Word)
    (touched : a ∈ (sysDate p env m).2.touched) : a ∈ m.touched ∨ Below p.sz a := by
  have fetched : ∀ a ∈ (datePtr p m).2.touched, a ∈ m.touched ∨ Below p.sz a :=
    (argptr_stays small m).2
  cases found : (datePtr p m).1 with
  | none =>
    rw [sysDate_none found] at touched
    exact fetched a touched
  | some r =>
    rw [sysDate_some found] at touched
    have filled : Inside p.sz (cmostime env r) :=
      cmostime_stays (fits r found)
    rcases (filled _).2 a touched with before | inside
    · exact fetched a before
    · exact .inr inside

/-- Every byte of user memory that a handler loads or stores lies below the size of the process,
except that `date` needs the structure behind its pointer to fit. -/
theorem user_accesses_inside_iff (p : Process) (env : Env) (byte : Word → Byte) (call : Call)
    (small : p.sz.toNat < kernbase) :
    (∀ a ∈ accesses p env byte call, a.toNat < p.sz.toNat) ↔
      (call = .date → ∀ r, (datePtr p ⟨byte, []⟩).1 = some r → r.toNat + 24 ≤ p.sz.toNat) := by
  constructor
  · rintro inside rfl r found
    have checked : Checked p.sz 4 (datePtr p ⟨byte, []⟩).1 := (argptr_stays small ⟨byte, []⟩).1
    have start : r.toNat + 4 ≤ p.sz.toNat := (checked r found).2
    have last : (r + 20 + 1 + 1 + 1).toNat < p.sz.toNat := by
      refine inside _ ?_
      rw [accesses, syscall, sysDate_some found]
      exact cmostime_touches r _
    have exactly : (r + 20 + 1 + 1 + 1).toNat = r.toNat + 23 := by
      unfold kernbase at small
      bv_omega
    omega
  · intro fits a touched
    by_cases date : call = .date
    · subst date
      exact (sysDate_inside small (fits rfl) a touched).resolve_left not_mem_nil
    · exact ((syscall_stays small date _).2 a touched).resolve_left not_mem_nil

/-- A process of one page whose stack pointer is at the start of it. -/
def onePage : Process := ⟨4096, 0⟩

/-- Nothing is open, nothing can be read. -/
def noFiles : Env where
  ofile _ := none
  view _ := ⟨0, 0, 0, 0, 0, 0, 0⟩
  data _ := 0
  pipe := none
  room := 0
  input := []
  fds := none
  clock := ⟨0, 0, 0, 0, 0, 0⟩

/-- Memory whose word at address `4`, the first argument of a call, is `w`. -/
def firstArgument (w : Word) (a : Word) : Byte :=
  (wordBytes w).getD (a - 4).toNat 0

/-- `date` into the last 24 bytes of the page stays inside it. -/
theorem user_accesses_inside_iff_fits : onePage.sz.toNat < kernbase ∧
    ¬∃ a ∈ accesses onePage noFiles (firstArgument 4072) .date, ¬a.toNat < onePage.sz.toNat := by
  have small : onePage.sz.toNat < kernbase := by decide
  have pointer : (datePtr onePage ⟨firstArgument 4072, []⟩).1 = some 4072 := by decide
  refine ⟨small, ?_⟩
  rintro ⟨a, touched, outside⟩
  refine outside ((user_accesses_inside_iff onePage noFiles (firstArgument 4072) .date small).mpr
    ?_ a touched)
  rintro - r found
  obtain rfl : (4072 : Word) = r := Option.some.inj (pointer.symm.trans found)
  decide

/-- `date` into the last 4 bytes of the page is let through and stores 20 bytes beyond it. -/
theorem date_stores_past_end :
    onePage.sz.toNat < kernbase ∧ (datePtr onePage ⟨firstArgument 4092, []⟩).1 = some 4092 ∧
      (4096 : Word) ∈ accesses onePage noFiles (firstArgument 4092) .date ∧
      (4115 : Word) ∈ accesses onePage noFiles (firstArgument 4092) .date := by
  decide +kernel

end Xv6.User
