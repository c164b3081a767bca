import Mathlib.Algebra.GroupWithZero.Nat
import Xv6.Vm.Load

/-!
# The arguments on the user stack

`exec` pushes the strings and below them the pointers to them, into the one stack page. A string
that does not fit begins below that page, and `copyout`, which goes upwards, then meets the page
below the stack, which is not the user's. What a program finds on its stack are the strings.
-/

namespace Xv6.Vm

open Lib Act Option List PageDir

variable {layout : Layout} {a₀ a a' a₁ : Alloc} {d : PageDir} {sz va lo hi : Nat} {buf : List UInt8}
  {argv : List (List UInt8)} {arg : List UInt8} {sp len : Nat} {q : Page}

/-! ### The memory a user sees -/

/-- The byte a user reads at an address. -/
def userByte (d : PageDir) (a : Alloc) (va : Nat) : Option UInt8 :=
  (d.phys va).map fun spot => a.mem spot.1 spot.2

/-- The bytes a user finds from an address on. -/
def At (d : PageDir) (a : Alloc) (va : Nat) (bytes : List UInt8) : Prop :=
  ∀ i < bytes.length, userByte d a (va + i) = some (bytes.getD i 0)

/-- Only the user's bytes between two addresses have changed. -/
structure Wrote (d : PageDir) (lo hi : Nat) (a a' : Alloc) : Prop where
  rest : ∀ q off, (∀ va, lo ≤ va → va < hi → d.phys va ≠ some (q, off)) → a'.mem q off = a.mem q off
  free : a'.freelist = a.freelist

namespace Wrote

theorem refl : Wrote d lo hi a a := ⟨fun _ _ _ => rfl, rfl⟩

theorem trans (first : Wrote d lo hi a a₁) (second : Wrote d lo hi a₁ a') : Wrote d lo hi a a' where
  rest q off other := by rw [second.rest q off other, first.rest q off other]
  free := second.free.trans first.free

theorem mono {lo' hi' : Nat} (wrote : Wrote d lo hi a a') (low : lo' ≤ lo) (high : hi ≤ hi') :
    Wrote d lo' hi' a a' where
  rest q off other := wrote.rest q off fun va first last => other va (by omega) (by omega)
  free := wrote.free

/-- Bytes elsewhere stay. -/
theorem keeps {bytes : List UInt8} (wrote : Wrote d lo hi a a') (once : d.Once)
    (placed : At d a va bytes) (apart : va + bytes.length ≤ lo ∨ hi ≤ va) (top : hi ≤ uintSize)
    (inside : va + bytes.length ≤ uintSize) : At d a' va bytes := by
  intro i low
  rw [← placed i low, userByte, userByte]
  cases found : d.phys (va + i) with
  | none => rfl
  | some spot =>
    simp only [map_some, Option.some.injEq]
    apply wrote.rest
    intro other first last same
    have equal := once.phys found same
    rw [Nat.mod_eq_of_lt (by omega), Nat.mod_eq_of_lt (by omega)] at equal
    omega

end Wrote

namespace Copies

theorem at_ (copies : Copies d va buf a a') : At d a' va buf := by
  intro i low
  obtain ⟨q, off, found, byte⟩ := copies.copied i low
  rw [userByte, found, ← byte]
  rfl

theorem wrote (copies : Copies d va buf a a') : Wrote d va (va + buf.length) a a' where
  rest q off other := copies.rest q off fun i low => other (va + i) (by omega) (by omega)
  free := copies.free

end Copies

/-! ### The pages of an image -/

namespace Image

variable (image : Image a₀ d sz a) {v : Nat}

include image

theorem user_lt (found : d.user v = some q) : v < userPages := by
  obtain ⟨pte, entry, allowed, -⟩ := user_eq_some.mp found
  by_contra above
  rw [image.kernel v (Nat.le_of_not_lt above) pte entry] at allowed
  contradiction

theorem user_mem (found : d.user v = some q) : q ∈ d.pages := by
  obtain ⟨pte, entry, -, rfl⟩ := user_eq_some.mp found
  exact mem_pages (image.user_lt found) entry

theorem once (pool : Pool layout a₀) : d.Once := by
  intro v w q first second
  obtain ⟨pte, entry, -, page⟩ := user_eq_some.mp first
  obtain ⟨other, entry', -, page'⟩ := user_eq_some.mp second
  exact (image.process pool).once v (image.user_lt first) w (image.user_lt second) pte other entry
    entry' (page.trans page'.symm)

omit image in
/-- Where a page is mapped there is a page table. -/
theorem hasTable (mapped : (d.entry (va % uintSize / pgSize)).isSome) : d.HasTable va := by
  rw [entry_va] at mapped
  unfold PageDir.HasTable
  cases table : d.table (pdx (va % uintSize)) with
  | none => exact absurd mapped (by rw [table]; simp)
  | some t => rfl

/-- There is a page table for every address below the size. -/
theorem hasTable_low (below : va < sz) : d.HasTable va := by
  have small := image.small
  have inside : va % uintSize = va := by
    apply Nat.mod_eq_of_lt
    unfold kernbase at small
    unfold uintSize
    omega
  apply hasTable
  rw [inside, image.exact _ (div_lt_userPages (by omega)), ← lt_size_iff]
  exact lt_of_le_of_lt (Nat.div_mul_le_self _ _) below

/-- There is a page table for the last page of the address space, which is not the user's. -/
theorem top_page (high : uintSize - pgSize ≤ va) (inside : va < uintSize) :
    d.phys va = none ∧ d.HasTable va := by
  have page : va % uintSize / pgSize = uintSize / pgSize - 1 := by
    unfold uintSize pgSize at *
    omega
  refine ⟨?_, hasTable (by rw [page]; exact image.top)⟩
  rw [phys, page, map_eq_none_iff, eq_none_iff_forall_ne_some]
  intro q found
  exact absurd (image.user_lt found) (by decide)

/-- `copyout` writes to pages of the image only, however it ends. -/
theorem copyoutLoop {turns : Nat} :
    Ok (fun panic => panic = .nullPte) (copyoutLoop d turns va buf)
      (fun _ a' => Image a₀ d sz a') a := by
  induction turns generalizing va buf a with
  | zero => exact image
  | succ turns ih =>
    rw [Vm.copyoutLoop, ok_ite]
    split
    · exact image
    rw [ok_bind, uva2ka]
    cases table : d.table (pdx (pgrounddown va)) with
    | none => rfl
    | some t =>
      dsimp only
      cases found : t.pte (ptx (pgrounddown va)) with
      | none => exact image
      | some pte =>
        dsimp only
        rw [ok_ite]
        split
        · rename_i allowed
          have entry := (entry_of_table table).trans found
          have mine : pte.page ∈ d.pages :=
            image.user_mem (user_eq_some.mpr ⟨pte, entry, allowed, rfl⟩)
          simp only [ok_bind, ok_pure, ok_modify]
          refine ih (image.write rfl fun q other => Function.update_of_ne ?_ _ _)
          rintro rfl
          exact other mine
        · exact image

end Image

/-- `copyout` to addresses that are all the user's. -/
theorem copyout_all (pool : Pool layout a₀) (image : Image a₀ d sz a) (inside : va < uintSize)
    (small : buf.length ≤ uintSize) (users : ∀ i < buf.length, (d.phys (va + i)).isSome) :
    Returns (copyout d va buf) (fun all a' => all = true ∧ Copies d va buf a a' ∧
      Image a₀ d sz a') a := by
  refine ((copyout_ok (image.once pool) inside small).weaken ?_).and image.copyoutLoop |>.mono ?_
  · grind [isSome_iff_exists, phys_eq_some, user_eq_some, Image.hasTable,
      Hole]
  grind [CopiedTo]

/-- `copyout` gives up at an address that is not the user's, if it gets there. -/
theorem copyout_stops (stop : Nat) (pool : Pool layout a₀) (image : Image a₀ d sz a)
    (inside : va < uintSize) (small : buf.length ≤ uintSize) (before : stop < buf.length)
    (forbidden : d.phys (va + stop) = none) (tables : ∀ i ≤ stop, d.HasTable (va + i)) :
    Returns (copyout d va buf) (fun all a' => all = false ∧ Image a₀ d sz a') a := by
  refine ((copyout_ok (image.once pool) inside small).weaken ?_).and image.copyoutLoop |>.mono ?_
  · grind [Hole]
  · rintro all a' ⟨⟨k, _, copies, ends⟩, image'⟩
    grind [cases Copies]

/-! ### The stack page -/

namespace Stacked

variable (stacked : Stacked a₀ d sz a)

include stacked

theorem congr (image : Image a₀ d sz a') : Stacked a₀ d sz a' :=
  ⟨image, stacked.below, stacked.aligned, stacked.room, stacked.guard, stacked.stack⟩

/-- Addresses in the last page are the user's. -/
theorem phys_stack (low : sz - pgSize ≤ va) (high : va < sz) : (d.phys va).isSome := by
  grind [uintSize, pgSize, kernbase, phys, cases Stacked]

/-- Addresses in the page below are not. -/
theorem phys_guard (low : sz - 2 * pgSize ≤ va) (high : va < sz - pgSize) : d.phys va = none := by
  grind [uintSize, pgSize, kernbase, phys, cases Stacked]

end Stacked

/-- The bytes that a string takes on the stack, with its end and rounded to words. -/
def stringRoom (arg : List UInt8) : Nat := (arg.length + 4) / 4 * 4

/-- Where a string goes that fits below the stack pointer. -/
theorem sub32_string (aligned : sp % 4 = 0) (inside : sp < uintSize) (fits : len + 1 ≤ sp) :
    sub32 sp (len + 1) / 4 * 4 = sp - (len + 4) / 4 * 4 := by
  unfold sub32 uintSize at *
  omega

/-- A string that is longer than the address space below it wraps to its last page. -/
theorem sub32_wraps (low : sz - pgSize ≤ sp) (wraps : sp < len + 1) (short : len < sz)
    (below : sz < kernbase) :
    uintSize - pgSize ≤ sub32 sp (len + 1) / 4 * 4 ∧ sub32 sp (len + 1) / 4 * 4 < uintSize := by
  unfold sub32 kernbase uintSize pgSize at *
  omega

/-- A string that begins below the stack page passes through the page below it. -/
theorem meets_guard (room : 2 * pgSize ≤ sz) (low : sz - pgSize ≤ sp) (whole : len + 1 ≤ sp)
    (tight : sp < sz - pgSize + (len + 4) / 4 * 4) :
    ∃ stop < len + 1, sz - 2 * pgSize ≤ sp - (len + 4) / 4 * 4 + stop ∧
      sp - (len + 4) / 4 * 4 + stop < sz - pgSize := by
  have word : 4 ≤ pgSize := by decide
  exact ⟨sz - 2 * pgSize - (sp - (len + 4) / 4 * 4), by omega, by omega, by omega⟩

/-- One string: it goes on the stack if there is room in the stack page for it, and is refused if
there is not. -/
theorem pushString (pool : Pool layout a₀) (stacked : Stacked a₀ d sz a) (low : sz - pgSize ≤ sp)
    (high : sp ≤ sz) (aligned : sp % 4 = 0) (short : arg.length < sz) :
    Returns (copyout d (sub32 sp (arg.length + 1) / 4 * 4) (arg ++ [0])) (fun all a' =>
      Stacked a₀ d sz a' ∧ (all = false → sp < sz - pgSize + stringRoom arg) ∧
      (all = true → sz - pgSize + stringRoom arg ≤ sp ∧
        sub32 sp (arg.length + 1) / 4 * 4 = sp - stringRoom arg ∧
        At d a' (sp - stringRoom arg) (arg ++ [0]) ∧ Wrote d (sp - stringRoom arg) sp a a')) a := by
  have below := stacked.below
  have room := stacked.room
  have length : (arg ++ [0]).length = arg.length + 1 := by simp
  have small : (arg ++ [0]).length ≤ uintSize := by
    unfold kernbase at below
    unfold uintSize
    omega
  have inside : sp < uintSize := by
    unfold kernbase at below
    unfold uintSize
    omega
  unfold stringRoom
  by_cases wraps : sp < arg.length + 1
  · obtain ⟨first, last⟩ := sub32_wraps low wraps short below
    have top := stacked.image.top_page first last
    refine (copyout_stops 0 pool stacked.image last small (by omega)
      (by rw [add_zero]; exact top.1) fun i under => ?_).mono fun all a' result => ?_
    · rw [Nat.le_zero.mp under, add_zero]
      exact top.2
    · rw [result.1]
      exact ⟨stacked.congr result.2, fun _ => by omega, by simp⟩
  have place := sub32_string aligned inside (Nat.le_of_not_lt wraps)
  rw [place]
  by_cases fits : sz - pgSize + (arg.length + 4) / 4 * 4 ≤ sp
  · refine (copyout_all pool stacked.image (by omega) small fun i under => ?_).mono
      fun all a' result => ?_
    · exact stacked.phys_stack (by omega) (by omega)
    · obtain ⟨rfl, copies, image⟩ := result
      refine ⟨stacked.congr image, by simp, fun _ => ⟨fits, rfl, copies.at_, ?_⟩⟩
      exact copies.wrote.mono le_rfl (by omega)
  · -- The copy begins below the stack page and ends at most a word below the stack pointer.
    obtain ⟨stop, before, guardLow, guardHigh⟩ :=
      meets_guard room low (Nat.le_of_not_lt wraps) (Nat.lt_of_not_le fits)
    refine (copyout_stops stop pool stacked.image (by omega) small (by omega)
      (stacked.phys_guard guardLow guardHigh) fun i under => ?_).mono fun all a' result => ?_
    · exact stacked.image.hasTable_low (by omega)
    · rw [result.1]
      exact ⟨stacked.congr result.2, fun _ => by omega, by simp⟩

/-! ### The strings and the frame -/

/-- The bytes that the strings take on the stack. -/
def stringsRoom (argv : List (List UInt8)) : Nat := (argv.map stringRoom).sum

/-- Where the strings are, from the stack pointer downwards. -/
def pointers : List (List UInt8) → Nat → List Nat
  | [], _ => []
  | arg :: argv, sp => (sp - stringRoom arg) :: pointers argv (sp - stringRoom arg)

theorem length_pointers (argv : List (List UInt8)) (sp : Nat) :
    (pointers argv sp).length = argv.length := by
  induction argv generalizing sp with
  | nil => rfl
  | cons arg argv ih => rw [pointers, length_cons, length_cons, ih]

/-- The strings are on the stack, each with its end. -/
def Placed (d : PageDir) (a : Alloc) : List (List UInt8) → Nat → Prop
  | [], _ => True
  | arg :: argv, sp => At d a (sp - stringRoom arg) (arg ++ [0]) ∧
      Placed d a argv (sp - stringRoom arg)

theorem Placed.keeps (placed : Placed d a argv sp) (wrote : Wrote d lo hi a a') (once : d.Once)
    (fits : hi + stringsRoom argv ≤ sp) (top : sp ≤ uintSize) : Placed d a' argv sp := by
  induction argv generalizing sp with
  | nil => trivial
  | cons arg argv ih =>
    rw [stringsRoom, map_cons, sum_cons, ← stringsRoom] at fits
    refine ⟨wrote.keeps once placed.1 (.inr (by omega)) (by omega) ?_, ih placed.2 (by omega)
      (by omega)⟩
    rw [length_append, length_singleton]
    unfold stringRoom at *
    omega

theorem stringRoom_mod (arg : List UInt8) : stringRoom arg % 4 = 0 := Nat.mul_mod_left _ _

/-- All the strings go on the stack if there is room for them in the stack page and they are not too
many. -/
theorem pushStrings_ok {argc : Nat} (pool : Pool layout a₀) (stacked : Stacked a₀ d sz a)
    (low : sz - pgSize ≤ sp) (high : sp ≤ sz) (aligned : sp % 4 = 0) (few : argc ≤ maxArg)
    (short : ∀ arg ∈ argv, arg.length < sz) :
    Returns (pushStrings d argv argc sp) (fun r a' => Stacked a₀ d sz a' ∧
      (r = none → maxArg < argc + argv.length ∨ sp < sz - pgSize + stringsRoom argv) ∧
      ∀ found, r = some found → argc + argv.length ≤ maxArg ∧
        sz - pgSize + stringsRoom argv ≤ sp ∧ found = (pointers argv sp, sp - stringsRoom argv) ∧
        Placed d a' argv sp ∧ Wrote d (sp - stringsRoom argv) sp a a') a := by
  induction argv generalizing argc sp a with
  | nil =>
    refine ⟨stacked, by simp, fun found same => ?_⟩
    cases same
    have none : stringsRoom [] = 0 := rfl
    rw [none, add_zero, Nat.sub_zero]
    exact ⟨few, low, rfl, trivial, .refl⟩
  | cons arg argv ih =>
    have room : stringsRoom (arg :: argv) = stringRoom arg + stringsRoom argv := by
      rw [stringsRoom, map_cons, sum_cons, ← stringsRoom]
    have below := stacked.below
    rw [pushStrings, Returns, ok_ite, length_cons, room]
    split
    · rename_i full
      exact ⟨stacked, fun _ => .inl (by omega), by simp⟩
    rw [ok_bind]
    refine (pushString pool stacked low high aligned (short arg mem_cons_self)).mono
      fun all a₁ pushed => ?_
    obtain ⟨stacked₁, refused, given⟩ := pushed
    cases all with
    | false =>
      have tight := refused rfl
      exact ⟨stacked₁, fun _ => .inr (by omega), by simp⟩
    | true =>
      obtain ⟨fits, place, placed, wrote⟩ := given rfl
      have word := stringRoom_mod arg
      rw [place, if_pos rfl, ok_bind]
      refine (ih stacked₁ (by omega) (by omega) (by omega) (by omega)
        fun other more => short other (mem_cons_of_mem _ more)).mono fun r a₂ after => ?_
      obtain ⟨stacked₂, refused₂, given₂⟩ := after
      cases r with
      | none =>
        exact ⟨stacked₂, fun _ => (refused₂ rfl).imp (by omega) (by omega), by simp⟩
      | some found =>
        obtain ⟨ptrs, last⟩ := found
        obtain ⟨number, fits₂, same, placed₂, wrote₂⟩ := given₂ _ rfl
        cases same
        refine ⟨stacked₂, by simp, fun found same => ?_⟩
        cases same
        have whole : sp ≤ uintSize := by
          unfold kernbase at below
          unfold uintSize
          omega
        refine ⟨by omega, by omega, ?_, ⟨?_, placed₂⟩, ?_⟩
        · rw [pointers, Nat.sub_sub]
        · refine wrote₂.keeps (stacked.image.once pool) placed (.inr le_rfl) (by omega) ?_
          rw [length_append, length_singleton]
          unfold stringRoom at *
          omega
        · exact (wrote.mono (by omega) le_rfl).trans (wrote₂.mono (by omega) (by omega))

/-! ### Reading the stack -/

/-- A 32-bit number in memory. -/
def load32 (read : Nat → Option UInt8) (va : Nat) : Option Nat := do
  let b0 ← read va
  let b1 ← read (va + 1)
  let b2 ← read (va + 2)
  let b3 ← read (va + 3)
  return b0.toNat + 256 * b1.toNat + 65536 * b2.toNat + 16777216 * b3.toNat

/-- The string at an address, with a bound on its length. -/
def cstring (read : Nat → Option UInt8) : Nat → Nat → Option (List UInt8)
  | 0, _ => none
  | bound + 1, va => do
    let byte ← read va
    if byte = 0 then return []
    else return byte :: (← cstring read bound (va + 1))

/-- The strings of an array of pointers that a null pointer ends, with a bound on their number. -/
def argArray (read : Nat → Option UInt8) : Nat → Nat → Option (List (List UInt8))
  | 0, _ => none
  | bound + 1, va => do
    let pointer ← load32 read va
    if pointer = 0 then return []
    else
      let arg ← cstring read pgSize pointer
      return arg :: (← argArray read bound (va + 4))

/-- What `main` finds on its stack. -/
structure Frame where
  returnPc : Nat
  argc : Nat
  argv : List (List UInt8)
  deriving DecidableEq

/-- The frame at the stack pointer. -/
def decode (read : Nat → Option UInt8) (esp : Nat) : Option Frame := do
  let returnPc ← load32 read esp
  let argc ← load32 read (esp + 4)
  let argv ← argArray read (maxArg + 1) (← load32 read (esp + 8))
  return ⟨returnPc, argc, argv⟩

theorem At.append {xs ys : List UInt8} :
    At d a va (xs ++ ys) ↔ At d a va xs ∧ At d a (va + xs.length) ys := by
  constructor
  · intro placed
    refine ⟨fun i low => ?_, fun i low => ?_⟩
    · rw [placed i (by rw [length_append]; omega), getD_append _ _ _ _ low]
    · rw [Nat.add_assoc, placed _ (by rw [length_append]; omega),
        getD_append_right _ _ _ _ (by omega), Nat.add_sub_cancel_left]
  · rintro ⟨first, second⟩ i low
    rw [length_append] at low
    by_cases early : i < xs.length
    · rw [first i early, getD_append _ _ _ _ early]
    · have late := second (i - xs.length) (by omega)
      grind

theorem At.cons {x : UInt8} {xs : List UInt8} :
    At d a va (x :: xs) ↔ userByte d a va = some x ∧ At d a (va + 1) xs := by
  rw [← singleton_append, At.append]
  refine and_congr_left fun _ => ⟨fun placed => placed 0 Nat.one_pos, fun read i low => ?_⟩
  obtain rfl : i = 0 := Nat.lt_one_iff.mp low
  exact read

theorem load32_bytes32 {n : Nat} (placed : At d a va (bytes32 n)) (small : n < uintSize) :
    load32 (userByte d a) va = some n := by
  rw [bytes32] at placed
  obtain ⟨b0, rest⟩ := At.cons.mp placed
  obtain ⟨b1, rest⟩ := At.cons.mp rest
  obtain ⟨b2, rest⟩ := At.cons.mp rest
  obtain ⟨b3, -⟩ := At.cons.mp rest
  rw [Nat.add_assoc] at b2
  rw [Nat.add_assoc, Nat.add_assoc] at b3
  have digits : n % 256 + 256 * (n / 256 % 256) + 65536 * (n / 65536 % 256) +
      16777216 * (n / 16777216 % 256) = n := by
    unfold uintSize at small
    omega
  simp only [load32, b0, b1, b2, b3, bind_eq_bind, bind_some, Option.pure_def,
    Option.some.injEq, UInt8.toNat_ofNat']
  exact digits

theorem cstring_at {bound : Nat} (placed : At d a va (arg ++ [0])) (plain : 0 ∉ arg)
    (enough : arg.length < bound) : cstring (userByte d a) bound va = some arg := by
  induction arg generalizing va bound with
  | nil =>
    obtain ⟨bound, rfl⟩ : ∃ n, bound = n + 1 := ⟨bound - 1, by omega⟩
    have read := (At.cons.mp placed).1
    simp [cstring, read]
  | cons x arg ih =>
    obtain ⟨bound, rfl⟩ : ∃ n, bound = n + 1 := ⟨bound - 1, by omega⟩
    grind [At.cons, cstring, At]

/-- The array of pointers and the strings give the arguments back. -/
theorem argArray_at {bound : Nat} (placed : Placed d a argv sp)
    (array : At d a va ((pointers argv sp ++ [0]).flatMap bytes32))
    (plain : ∀ arg ∈ argv, 0 ∉ arg) (room : stringsRoom argv < sp)
    (page : stringsRoom argv ≤ pgSize) (inside : sp < uintSize) (enough : argv.length < bound) :
    argArray (userByte d a) bound va = some argv := by
  induction argv generalizing va sp bound with
  | nil =>
    obtain ⟨bound, rfl⟩ : ∃ n, bound = n + 1 := ⟨bound - 1, by omega⟩
    have last := load32_bytes32 (by simpa [pointers] using array) (by decide : 0 < uintSize)
    simp [argArray, last]
  | cons arg argv ih =>
    obtain ⟨bound, rfl⟩ : ∃ n, bound = n + 1 := ⟨bound - 1, by omega⟩
    rw [stringsRoom, map_cons, sum_cons, ← stringsRoom] at room page
    rw [pointers, cons_append, flatMap_cons, At.append] at array
    have first := load32_bytes32 array.1 (by omega)
    have nonzero : sp - stringRoom arg ≠ 0 := by omega
    rw [length_cons] at enough
    have string : cstring (userByte d a) pgSize (sp - stringRoom arg) = some arg := by
      refine cstring_at placed.1 (plain arg mem_cons_self) ?_
      unfold stringRoom at page
      omega
    have tail := ih placed.2 array.2 (fun other more => plain other (mem_cons_of_mem _ more))
      (by omega) (by omega) (by omega) (by omega : argv.length < bound)
    have four : (bytes32 (sp - stringRoom arg)).length = 4 := rfl
    rw [four] at tail
    simp [argArray, first, nonzero, string, tail]

/-! ### The whole stack -/

/-- The strings and the frame of four words and the pointers fit in the stack page. -/
def Fits (argv : List (List UInt8)) : Prop :=
  stringsRoom argv + (argv.length + 4) * 4 ≤ pgSize

instance (argv : List (List UInt8)) : Decidable (Fits argv) := inferInstanceAs (Decidable (_ ≤ _))

theorem length_flatMap_bytes32 (words : List Nat) :
    (words.flatMap bytes32).length = words.length * 4 := by
  induction words with
  | nil => rfl
  | cons word words ih =>
    rw [flatMap_cons, length_append, ih, length_cons, Nat.succ_mul, add_comm]
    rfl

theorem length_ustack (argv : List (List UInt8)) (sp last : Nat) :
    (ustack (pointers argv sp) last).length = argv.length + 4 := by
  simp [ustack, length_pointers]

/-- The frame on the stack reads as the arguments. -/
theorem decode_frame {last : Nat} (few : argv.length ≤ maxArg) (fits : Fits argv)
    (room : pgSize < sz) (inside : sz < uintSize) (plain : ∀ arg ∈ argv, 0 ∉ arg)
    (same : last = sz - stringsRoom argv) (placed : Placed d a argv sz)
    (frame : At d a (last - (argv.length + 4) * 4)
      ((ustack (pointers argv sz) last).flatMap bytes32)) :
    decode (userByte d a) (last - (argv.length + 4) * 4) =
      some ⟨0xffffffff, argv.length, argv⟩ := by
  unfold Fits at fits
  unfold maxArg at few
  have table : sub32 last ((argv.length + 1) * 4) = last - (argv.length + 4) * 4 + 12 := by
    unfold sub32 uintSize at *
    omega
  rw [ustack, length_pointers, table] at frame
  simp only [flatMap_cons, At.append] at frame
  obtain ⟨first, second, third, array⟩ := frame
  have four (n : Nat) : (bytes32 n).length = 4 := rfl
  rw [four] at second third array
  rw [four, Nat.add_assoc] at third array
  rw [four, Nat.add_assoc] at array
  have returnPc := load32_bytes32 first (by decide)
  have argc := load32_bytes32 second (by unfold uintSize; omega)
  have pointer := load32_bytes32 third (by omega)
  have strings := argArray_at placed array plain (by omega) (by omega) (by omega)
    (show argv.length < maxArg + 1 by unfold maxArg; omega)
  simp [decode, returnPc, argc, pointer, strings]

/-- The arguments go on the stack if they fit in the stack page, and nothing is written elsewhere;
they are refused if they do not fit. -/
theorem pushArgs_ok (pool : Pool layout a₀) (stacked : Stacked a₀ d sz a)
    (short : ∀ arg ∈ argv, arg.length < sz) :
    Returns (pushArgs d sz argv) (fun r a' => Stacked a₀ d sz a' ∧
      (r = none → maxArg < argv.length ∨ ¬ Fits argv) ∧
      ∀ sp, r = some sp → argv.length ≤ maxArg ∧ Fits argv ∧ Wrote d (sz - pgSize) sz a a' ∧
        ((∀ arg ∈ argv, 0 ∉ arg) →
          decode (userByte d a') sp = some ⟨0xffffffff, argv.length, argv⟩)) a := by
  have below := stacked.below
  have room := stacked.room
  have large : pgSize = 4096 := rfl
  have word : sz % 4 = 0 := by
    have aligned := stacked.aligned
    unfold pgSize at aligned
    omega
  have inside : sz < uintSize := Nat.lt_trans below (by decide)
  rw [pushArgs, Returns, ok_bind]
  refine (pushStrings_ok pool stacked (by omega) le_rfl word (Nat.zero_le _) short).mono
    fun r a₁ pushed => ?_
  obtain ⟨stacked₁, refused, given⟩ := pushed
  cases r with
  | none =>
    refine ⟨stacked₁, fun _ => (refused rfl).imp (by omega) fun tight fits => ?_, by simp⟩
    unfold Fits at fits
    omega
  | some found =>
    obtain ⟨few, fits, rfl, placed, wrote⟩ := given found rfl
    rw [zero_add] at few
    have few' := few
    unfold maxArg at few'
    dsimp only
    rw [length_ustack, ok_bind]
    have place : sub32 (sz - stringsRoom argv) ((argv.length + 4) * 4) =
        sz - stringsRoom argv - (argv.length + 4) * 4 := by
      unfold sub32 uintSize at *
      omega
    have length : ((ustack (pointers argv sz) (sz - stringsRoom argv)).flatMap bytes32).length =
        (argv.length + 4) * 4 := by
      rw [length_flatMap_bytes32, length_ustack]
    have small : (argv.length + 4) * 4 ≤ uintSize := by
      unfold uintSize
      omega
    rw [place]
    by_cases frame : Fits argv
    · have whole := frame
      unfold Fits at whole
      refine (copyout_all pool stacked₁.image (by omega) (by omega) fun i under => ?_).mono
        fun all a₂ result => ?_
      · exact stacked₁.phys_stack (by omega) (by omega)
      · obtain ⟨rfl, copies, image⟩ := result
        have wrote₂ := copies.wrote
        refine ⟨stacked₁.congr image, by simp, fun sp same => ?_⟩
        cases same
        refine ⟨few, frame, (wrote.mono (by omega) le_rfl).trans
          (wrote₂.mono (by omega) (by omega)), fun plain => ?_⟩
        refine decode_frame few frame (by omega) inside plain rfl ?_ copies.at_
        exact placed.keeps wrote₂ (stacked.image.once pool) (by omega) (by omega)
    · have tight := frame
      unfold Fits at tight
      refine (copyout_stops 0 pool stacked₁.image (by omega) (by omega) (by omega) ?_
        fun i under => ?_).mono fun all a₂ result => ?_
      · exact stacked₁.phys_guard (by omega) (by omega)
      · exact stacked₁.image.hasTable_low (by omega)
      · rw [result.1]
        exact ⟨stacked₁.congr result.2, fun _ => .inr frame, by simp⟩

/-- However it ends, pushing the arguments writes to pages of the image only. -/
theorem pushArgs_image (image : Image a₀ d sz a) :
    Ok (fun panic => panic = .nullPte) (pushArgs d sz argv)
      (fun _ a' => Image a₀ d sz a') a := by
  have strings {argc sp : Nat} {a : Alloc} (image : Image a₀ d sz a) :
      Ok (fun panic => panic = .nullPte) (pushStrings d argv argc sp)
        (fun _ a' => Image a₀ d sz a') a := by
    induction argv generalizing argc sp a with
    | nil => exact image
    | cons arg argv ih =>
      rw [pushStrings, ok_ite]
      split
      · exact image
      rw [ok_bind]
      refine image.copyoutLoop.mono fun all a₁ image₁ => ?_
      rw [ok_ite]
      split
      · rw [ok_bind]
        refine (ih image₁).mono fun r a₂ image₂ => ?_
        cases r with
        | none => exact image₂
        | some found => exact image₂
      · exact image₁
  rw [pushArgs, ok_bind]
  refine (strings image).mono fun r a₁ image₁ => ?_
  cases r with
  | none => exact image₁
  | some found =>
    dsimp only
    rw [ok_bind]
    refine image₁.copyoutLoop.mono fun all a₂ image₂ => ?_
    rw [ok_ite]
    split
    · exact image₂
    · exact image₂

/-- Only an argument as long as the image leads to an address without a page table. -/
theorem pushArgs_long (pool : Pool layout a₀) (stacked : Stacked a₀ d sz a) :
    Ok (fun panic => panic = .nullPte ∧ ∃ arg ∈ argv, sz ≤ arg.length) (pushArgs d sz argv)
      (fun _ a' => Image a₀ d sz a') a := by
  by_cases short : ∀ arg ∈ argv, arg.length < sz
  · exact ((pushArgs_ok pool stacked short).weaken fun _ wrong => wrong.elim).mono
      fun _ _ pushed => pushed.1.image
  · exact (pushArgs_image stacked.image).weaken fun _ null => ⟨null, by simpa using short⟩

/-- `exec` goes through the null pointer for a string that wraps to an address without a page
table. -/
theorem pushArgs_faults (absent : ¬ d.HasTable (sub32 sz (arg.length + 1) / 4 * 4)) :
    pushArgs d sz (arg :: argv) a = .error .nullPte := by
  have inside : sub32 sz (arg.length + 1) / 4 * 4 < uintSize :=
    lt_of_le_of_lt (Nat.div_mul_le_self _ _) (Nat.mod_lt _ (by decide))
  have faults : copyout d (sub32 sz (arg.length + 1) / 4 * 4) (arg ++ [0]) a = .error .nullPte :=
    copyout_faults inside (by simp) absent
  rw [pushArgs, pushStrings, if_neg (by decide)]
  simp only [bind, StateT.bind, faults, Except.bind]

end Xv6.Vm
