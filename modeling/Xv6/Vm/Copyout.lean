import Mathlib.Data.List.GetD
import Xv6.Vm.Exec
import Xv6.Vm.Pages

/-!
# `copyout`

The bytes that `copyout` has copied when it ends, whichever way that is: a first part of the source
at the user addresses from `va` on, modulo the address space, and nothing anywhere else. Where it
stops there is a page that is not the user's, or no page table at all.
-/

namespace Xv6.Vm

open Function Lib Act Option List

namespace PageDir

/-- The page behind a virtual page that users may use. -/
def user (d : PageDir) (v : Nat) : Option Page :=
  (d.entry v).bind fun pte => if pte.perm.user then some pte.page else none

/-- The byte behind a user address, by page and offset. -/
def phys (d : PageDir) (va : Nat) : Option (Page × Nat) :=
  (d.user (va % uintSize / pgSize)).map fun q => (q, va % pgSize)

/-- No page is mapped twice for users. -/
def Once (d : PageDir) : Prop := ∀ v w q, d.user v = some q → d.user w = some q → v = w

variable {d : PageDir} {q : Page}

theorem user_eq_some {v : Nat} :
    d.user v = some q ↔ ∃ pte, d.entry v = some pte ∧ pte.perm.user = true ∧ pte.page = q := by
  rw [user, bind_eq_some_iff]
  simp only [ite_none_right_eq_some, Option.some.injEq]

variable {va va' : Nat}

theorem phys_eq_some {off : Nat} :
    d.phys va = some (q, off) ↔ d.user (va % uintSize / pgSize) = some q ∧ off = va % pgSize := by
  grind [phys, map_eq_some_iff]

/-- Addresses count modulo the address space. -/
theorem phys_congr (same : va % uintSize = va' % uintSize) : d.phys va = d.phys va' := by
  have off : va % pgSize = va' % pgSize := by
    unfold uintSize pgSize at *
    omega
  rw [phys, phys, same, off]

/-- Two addresses for the same byte are the same address. -/
theorem Once.phys {spot : Page × Nat} (once : d.Once) (here : d.phys va = some spot)
    (there : d.phys va' = some spot) : va % uintSize = va' % uintSize := by
  grind [phys_eq_some, uintSize, pgSize, Once]

/-- Addresses in one page. -/
theorem phys_add {i : Nat} (page : d.user (va % uintSize / pgSize) = some q)
    (inside : va % pgSize + i < pgSize) : d.phys (va + i) = some (q, va % pgSize + i) := by
  grind [uintSize, pgSize, phys_eq_some]

end PageDir

/-- The bytes are in the user's memory at an address, and nothing else has changed. -/
structure Copies (d : PageDir) (va : Nat) (bytes : List UInt8) (a a' : Alloc) : Prop where
  copied : ∀ i < bytes.length, ∃ q off, d.phys (va + i) = some (q, off) ∧
    a'.mem q off = bytes.getD i 0
  rest : ∀ q off, (∀ i < bytes.length, d.phys (va + i) ≠ some (q, off)) → a'.mem q off = a.mem q off
  free : a'.freelist = a.freelist

namespace Copies

variable {d : PageDir} {va : Nat} {xs ys : List UInt8} {a a₁ a' : Alloc} {q : Page}

theorem nil : Copies d va [] a a where
  copied i low := absurd low (by simp)
  rest _ _ _ := rfl
  free := rfl

/-- Every byte is the user's. -/
theorem isSome (copies : Copies d va xs a a') {i : Nat} (inside : i < xs.length) :
    (d.phys (va + i)).isSome := by
  obtain ⟨q, off, found, -⟩ := copies.copied i inside
  rw [found]
  rfl

/-- A copy within a page. -/
theorem store (page : d.user (va % uintSize / pgSize) = some q)
    (inside : va % pgSize + xs.length ≤ pgSize) :
    Copies d va xs a (a.store q (va % pgSize) xs) where
  copied i low := by
    refine ⟨q, va % pgSize + i, PageDir.phys_add page (by omega), ?_⟩
    simp only [Alloc.store, update_self]
    rw [if_pos ⟨by omega, by omega⟩, Nat.add_sub_cancel_left]
  rest r off other := by
    simp only [Alloc.store]
    by_cases same : r = q
    · subst same
      rw [update_self, if_neg]
      rintro ⟨low, high⟩
      refine other (off - va % pgSize) (by omega) ?_
      rw [PageDir.phys_add page (by omega), Nat.add_sub_cancel' low]
    · rw [update_of_ne same]
  free := rfl

/-- One copy behind another. -/
theorem append (first : Copies d va xs a a₁) (second : Copies d (va + xs.length) ys a₁ a')
    (once : d.Once) (small : xs.length + ys.length ≤ uintSize) : Copies d va (xs ++ ys) a a' where
  copied i low := by
    rw [length_append] at low
    by_cases early : i < xs.length
    · obtain ⟨q, off, found, byte⟩ := first.copied i early
      refine ⟨q, off, found, ?_⟩
      rw [getD_append _ _ _ _ early, ← byte]
      apply second.rest
      intro j _ again
      have same := once.phys found again
      unfold uintSize at *
      omega
    · obtain ⟨q, off, found, byte⟩ := second.copied (i - xs.length) (by omega)
      grind
  rest q off other := by
    rw [second.rest q off fun i low => ?_, first.rest q off fun i low => ?_]
    · exact other i (by rw [length_append]; omega)
    · rw [add_assoc]
      exact other _ (by rw [length_append]; omega)
  free := second.free.trans first.free

/-- Addresses count modulo the address space. -/
theorem congr {va' : Nat} (copies : Copies d va xs a a') (same : va % uintSize = va' % uintSize) :
    Copies d va' xs a a' := by
  constructor <;> grind [PageDir.phys_congr, uintSize, cases Copies]

end Copies

/-- There is a page table for an address. -/
def PageDir.HasTable (d : PageDir) (va : Nat) : Prop := (d.table (pdx (va % uintSize))).isSome

instance (d : PageDir) (va : Nat) : Decidable (d.HasTable va) :=
  inferInstanceAs (Decidable (_ = true))

/-- The first of the addresses that is not the user's has no page table. -/
def Hole (d : PageDir) (va len : Nat) : Prop :=
  ∃ k < len, (∀ j < k, (d.phys (va + j)).isSome) ∧ ¬ d.HasTable (va + k)

/-- How a copy ends: with all the bytes, or before the first address that is not the user's. -/
def CopiedTo (d : PageDir) (va : Nat) (buf : List UInt8) (a : Alloc) (all : Bool) (a' : Alloc) :
    Prop :=
  ∃ k ≤ buf.length, Copies d va (buf.take k) a a' ∧
    if all then k = buf.length
    else k < buf.length ∧ d.phys (va + k) = none ∧ d.HasTable (va + k)

variable {d : PageDir} {va : Nat} {buf : List UInt8} {a a' : Alloc}

/-- A page can be used by the user, or not, or is in no page table. -/
theorem uva2ka_ok {post : Option Page → Alloc → Prop} {panics : Panic → Prop}
    (inside : va < uintSize) (hole : ¬ d.HasTable va → panics .nullPte)
    (refused : d.HasTable va → d.user (va / pgSize) = none → post none a)
    (given : ∀ q, d.user (va / pgSize) = some q → post (some q) a) :
    Ok panics (uva2ka d va) post a := by
  have here : va % uintSize = va := Nat.mod_eq_of_lt inside
  rw [uva2ka]
  unfold PageDir.HasTable at hole refused
  rw [here] at hole refused
  cases table : d.table (pdx va) with
  | none => exact hole (by rw [table]; simp)
  | some t =>
    have present := isSome_of_eq_some table
    have entry := PageDir.entry_of_table table
    dsimp only
    cases found : t.pte (ptx va) with
    | none =>
      refine refused present ?_
      rw [PageDir.user, entry, found]
      rfl
    | some pte =>
      dsimp only
      have user : d.user (va / pgSize) = if pte.perm.user then some pte.page else none := by
        rw [PageDir.user, entry, found]
        rfl
      rw [ok_ite]
      split
      · rename_i allowed
        exact given pte.page (by rw [user, if_pos allowed])
      · rename_i forbidden
        exact refused present (by rw [user, if_neg forbidden])

/-- `copyout` copies until all is done, or up to a page that is not the user's; where there is no
page table it faults. -/
theorem copyoutLoop_ok {turns : Nat} (once : d.Once) (inside : va < uintSize)
    (enough : buf.length ≤ turns) (small : buf.length ≤ uintSize) :
    Ok (fun _ => Hole d va buf.length) (copyoutLoop d turns va buf)
      (CopiedTo d va buf a) a := by
  induction turns generalizing va buf a with
  | zero => exact ⟨0, Nat.zero_le _, .nil, (Nat.le_zero.mp enough).symm⟩
  | succ turns ih =>
    rw [copyoutLoop, ok_ite]
    split
    case isTrue empty =>
      subst empty
      exact ⟨0, Nat.zero_le _, .nil, rfl⟩
    case isFalse more =>
    have positive : 0 < buf.length := length_pos_of_ne_nil more
    have start : pgrounddown va / pgSize = va / pgSize := Nat.mul_div_cancel _ (by decide)
    have within : va % uintSize = va := Nat.mod_eq_of_lt inside
    have page0 : pgrounddown va < uintSize := lt_of_le_of_lt (Nat.div_mul_le_self _ _) inside
    have table : d.HasTable (pgrounddown va) ↔ d.HasTable va := by
      unfold PageDir.HasTable pdx
      rw [Nat.mod_eq_of_lt page0, start, within]
    have offset : va - pgrounddown va = va % pgSize := by
      unfold pgrounddown pgSize
      omega
    rw [ok_bind]
    apply uva2ka_ok page0
    · intro absent
      exact ⟨0, positive, fun j low => absurd low (by omega), table.not.mp absent⟩
    · intro present forbidden
      rw [start] at forbidden
      refine ⟨0, Nat.zero_le _, .nil, positive, ?_, table.mp present⟩
      rw [PageDir.phys, add_zero, within, forbidden]
      rfl
    · intro q page
      rw [start] at page
      dsimp only
      rw [ok_bind, ok_modify, offset]
      have low : va % pgSize < pgSize := Nat.mod_lt _ (by decide)
      generalize count : min (pgSize - va % pgSize) buf.length = n
      have user : d.user (va % uintSize / pgSize) = some q := by rw [within, page]
      have length : (buf.take n).length = n := by rw [length_take]; omega
      have first : Copies d va (buf.take n) a (a.store q (va % pgSize) (buf.take n)) :=
        .store user (by omega)
      have split (k : Nat) : buf.take (n + k) = buf.take n ++ (buf.drop n).take k := take_add
      have left : (buf.drop n).length = buf.length - n := length_drop
      by_cases last : buf.length = n
      · -- The copy ends in this page.
        have none : buf.drop n = [] := drop_eq_nil_of_le (by omega)
        rw [none]
        have done : Ok (fun _ => Hole d va buf.length)
            (copyoutLoop d turns ((pgrounddown va + pgSize) % uintSize) [])
            (CopiedTo d va buf a) (a.store q (va % pgSize) (buf.take n)) := by
          have ends : CopiedTo d va buf a true (a.store q (va % pgSize) (buf.take n)) :=
            ⟨n, by omega, first, last.symm⟩
          cases turns with
          | zero => exact ends
          | succ turns => exact ends
        exact done
      · have next : (pgrounddown va + pgSize) % uintSize = (va + n) % uintSize := by
          congr 1
          unfold pgrounddown pgSize at *
          omega
        rw [next]
        have same (k : Nat) : ((va + n) % uintSize + k) % uintSize = (va + (n + k)) % uintSize := by
          unfold uintSize
          omega
        have spot (k : Nat) : d.phys ((va + n) % uintSize + k) = d.phys (va + (n + k)) :=
          PageDir.phys_congr (same k)
        refine ((ih (Nat.mod_lt _ (by decide)) (by omega) (by omega)).weaken ?_).mono ?_
        · rintro _ ⟨k, below, users, absent⟩
          refine ⟨n + k, by omega, fun j under => ?_, ?_⟩
          · by_cases early : j < n
            · exact first.isSome (by omega)
            · have := users (j - n) (by omega)
              rwa [spot, Nat.add_sub_cancel' (Nat.le_of_not_lt early)] at this
          · unfold PageDir.HasTable at absent ⊢
            rwa [same] at absent
        · rintro all a' ⟨k, below, copies, ends⟩
          have second : Copies d (va + (buf.take n).length) ((buf.drop n).take k)
              (a.store q (va % pgSize) (buf.take n)) a' :=
            copies.congr (by rw [length, Nat.mod_mod])
          refine ⟨n + k, by omega, ?_, ?_⟩
          · rw [split]
            refine first.append second once ?_
            rw [length_take, length_take]
            omega
          grind [PageDir.HasTable]

theorem copyout_ok (once : d.Once) (inside : va < uintSize) (small : buf.length ≤ uintSize) :
    Ok (fun _ => Hole d va buf.length) (copyout d va buf) (CopiedTo d va buf a) a :=
  copyoutLoop_ok once inside le_rfl small

/-- Without a page table for the first address `copyout` faults. -/
theorem copyout_faults (inside : va < uintSize) (more : buf ≠ []) (absent : ¬ d.HasTable va) :
    copyout d va buf a = .error .nullPte := by
  have none : d.table (pdx (pgrounddown va)) = none := by
    have page : pgrounddown va / pgSize = va / pgSize := Nat.mul_div_cancel _ (by decide)
    unfold PageDir.HasTable at absent
    rw [Nat.mod_eq_of_lt inside] at absent
    rw [pdx, page]
    exact Option.not_isSome_iff_eq_none.mp absent
  obtain ⟨byte, rest, rfl⟩ := exists_cons_of_ne_nil more
  rw [copyout, length_cons, copyoutLoop, if_neg (cons_ne_nil _ _), uva2ka, none]
  rfl

end Xv6.Vm
