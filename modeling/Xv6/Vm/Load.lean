import Xv6.Lib.Logic
import Xv6.Vm.Image

/-!
# `exec` up to the user stack

The image that `exec` builds from whatever the file holds, for any kernel around it that keeps to
the rules of its calls. Every segment is loaded into pages of the image, and on every failure the
image is given back, the inode is released and the transaction ends.
-/

namespace Xv6.Vm

open Lib

/-- How far `exec` is with the file: before and after the transaction, in it, with an inode, with
its lock. -/
inductive Phase (ι : Type) where
  | idle
  | began
  | named (ip : ι)
  | locked (ip : ι)

section

variable {m : Type → Type} [Monad m] {σ ι : Type} {sz addr offset filesz off : Nat}
  {post : Bool → σ → Prop} {path : List UInt8}

/-- The kernel around `exec`: its calls take `exec` from phase to phase and leave memory alone, and
code on memory leaves the phase alone. -/
structure Lawful (rules : Logic m σ) (panics : Panic → Prop) (kernel : Kernel m ι)
    (view : σ → Alloc) (phase : Phase ι → σ → Prop) : Prop where
  beginOp : ∀ {s : σ} {post : Unit → σ → Prop}, phase .idle s →
    (∀ t, view t = view s → phase .began t → post () t) → rules.Wp kernel.beginOp post s
  endOp : ∀ {s : σ} {post : Unit → σ → Prop}, phase .began s →
    (∀ t, view t = view s → phase .idle t → post () t) → rules.Wp kernel.endOp post s
  namei : ∀ {path : List UInt8} {s : σ} {post : Option ι → σ → Prop}, phase .began s →
    (∀ t, view t = view s → phase .began t → post none t) →
    (∀ ip t, view t = view s → phase (.named ip) t → post (some ip) t) →
    rules.Wp (kernel.namei path) post s
  ilock : ∀ {ip : ι} {s : σ} {post : Unit → σ → Prop}, phase (.named ip) s →
    (∀ t, view t = view s → phase (.locked ip) t → post () t) → rules.Wp (kernel.ilock ip) post s
  iunlockput : ∀ {ip : ι} {s : σ} {post : Unit → σ → Prop}, phase (.locked ip) s →
    (∀ t, view t = view s → phase .began t → post () t) → rules.Wp (kernel.iunlockput ip) post s
  readi : ∀ {ip : ι} {off n : Nat} {s : σ} {post : Option (List UInt8) → σ → Prop},
    phase (.locked ip) s → (∀ r t, view t = view s → phase (.locked ip) t → post r t) →
    rules.Wp (kernel.readi ip off n) post s
  alloc : ∀ {α : Type} {act : AllocM α} {now : Phase ι} {s : σ} {post : α → σ → Prop},
    phase now s →
    Act.Ok panics act (fun value a => ∀ t, view t = a → phase now t → post value t) (view s) →
    rules.Wp (kernel.alloc act) post s

variable {rules : Logic m σ} {panics : Panic → Prop} {kernel : Kernel m ι} {view : σ → Alloc}
  {phase : Phase ι → σ → Prop} {layout : Layout} {a₀ a : Alloc} {d : PageDir} {s : σ} {ip : ι}

/-- Code on memory that returns. -/
theorem Lawful.returns (lawful : Lawful rules panics kernel view phase) {α : Type}
    {act : AllocM α} {now : Phase ι} {post : α → σ → Prop} {result : α → Alloc → Prop}
    (here : phase now s) (returns : Returns act result (view s))
    (continued : ∀ value t, phase now t → result value (view t) → post value t) :
    rules.Wp (kernel.alloc act) post s :=
  lawful.alloc here ((returns.weaken fun _ wrong => wrong.elim).mono
    fun value _ met t seen later => continued value t later (seen ▸ met))

/-! ### Segments -/

theorem loadPage_image {va : Nat} (image : Image a₀ d sz a) (below : va < sz) :
    Returns (loadPage d va) (fun page a' => a' = a ∧ page ∈ d.pages) a := by
  have page : va / pgSize < userPages := div_lt_userPages (lt_of_lt_of_le below image.small)
  have mapped : (d.entry (va / pgSize)).isSome := by
    rw [image.exact _ page, ← lt_size_iff]
    exact lt_of_le_of_lt (Nat.div_mul_le_self _ _) below
  obtain ⟨pte, found⟩ := Option.isSome_iff_exists.mp mapped
  obtain ⟨t, table, entry⟩ := Option.bind_eq_some_iff.mp found
  rw [← pdx] at table
  rw [← ptx] at entry
  rw [loadPage, table]
  dsimp only
  rw [entry]
  exact ⟨rfl, PageDir.mem_pages page found⟩

/-- Bytes are read to a page of the image. -/
theorem store_image {page : Page} {bytes : List UInt8} (image : Image a₀ d sz a)
    (member : page ∈ d.pages) :
    Returns (modify fun a => a.store page off bytes) (fun _ a' => Image a₀ d sz a') a := by
  refine image.write rfl fun q other => Function.update_of_ne ?_ _ _
  rintro rfl
  exact other member

/-- The pages that are left of a segment. -/
theorem loadLoop_wp (lawful : Lawful rules panics kernel view phase) {n i : Nat}
    (inside : addr + filesz ≤ sz) (more : 0 < n → i + n * pgSize < filesz + pgSize)
    (image : Image a₀ d sz (view s)) (here : phase (.locked ip) s)
    (continued : ∀ all t, phase (.locked ip) t → Image a₀ d sz (view t) → post all t) :
    rules.Wp (loadLoop kernel d addr ip offset filesz n i) post s := by
  induction n generalizing i s with
  | zero => exact rules.pure (continued true s here image)
  | succ n ih =>
    have bound := more (Nat.succ_pos n)
    rw [Nat.succ_mul] at bound
    have small := image.small
    have address : (addr + i) % uintSize = addr + i := by
      apply Nat.mod_eq_of_lt
      unfold kernbase at small
      unfold uintSize
      omega
    rw [loadLoop, address]
    refine rules.bind (lawful.returns here (loadPage_image image (by omega)) ?_)
    intro page t here' found
    obtain ⟨same, member⟩ := found
    have image' : Image a₀ d sz (view t) := same ▸ image
    refine rules.bind (lawful.readi here' fun r u seen here'' => ?_)
    have image'' : Image a₀ d sz (view u) := seen ▸ image'
    cases r with
    | none => exact rules.pure (continued false u here'' image'')
    | some bytes =>
      refine rules.bind (lawful.returns here'' (store_image image'' member) ?_)
      intro _ v here₃ image₃
      by_cases short : bytes.length ≠ if filesz - i < pgSize then filesz - i else pgSize
      · rw [if_pos short]
        exact rules.pure (continued false v here₃ image₃)
      · rw [if_neg short]
        exact ih (fun left => by omega) image₃ here₃

/-- `loaduvm` of a segment inside the image. -/
theorem loaduvm_wp (lawful : Lawful rules panics kernel view phase) (aligned : addr % pgSize = 0)
    (inside : addr + filesz ≤ sz) (image : Image a₀ d sz (view s)) (here : phase (.locked ip) s)
    (continued : ∀ all t, phase (.locked ip) t → Image a₀ d sz (view t) → post all t) :
    rules.Wp (loaduvm kernel d addr ip offset filesz) post s := by
  rw [loaduvm, if_neg (not_not.mpr aligned)]
  exact loadLoop_wp lawful inside (fun left => add_turns_lt left) image here continued

theorem word_lt (bytes : List UInt8) (off n : Nat) : word bytes off n < 256 ^ n := by
  rw [word]
  have length : ((bytes.drop off).take n).length ≤ n := List.length_take_le _ _
  generalize (bytes.drop off).take n = digits at length
  have bound : digits.foldr (fun byte rest => byte.toNat + 256 * rest) 0 < 256 ^ digits.length := by
    induction digits with
    | nil => exact Nat.one_pos
    | cons byte digits ih =>
      grind [byte.toNat_lt]
  exact lt_of_lt_of_le bound (Nat.pow_le_pow_right (by decide) length)

theorem word32_lt (bytes : List UInt8) (off : Nat) : word bytes off 4 < uintSize := by
  have power : uintSize = 256 ^ 4 := by decide
  rw [power]
  exact word_lt bytes off 4

/-- A segment whose end does not wrap. -/
theorem segment_end {vaddr memsz : Nat} (start : vaddr < uintSize) (length : memsz < uintSize)
    (ordered : ¬ (vaddr + memsz) % uintSize < vaddr) :
    (vaddr + memsz) % uintSize = vaddr + memsz := by
  unfold uintSize at *
  omega

/-- The segments that are left, whatever the program headers say. -/
theorem loadSegments_wp (lawful : Lawful rules panics kernel view phase) (pool : Pool layout a₀)
    {phnum : Nat} {post : Option Nat × PageDir → σ → Prop} (image : Image a₀ d sz (view s))
    (here : phase (.locked ip) s)
    (failed : ∀ d' sz' t, phase (.locked ip) t → Image a₀ d' sz' (view t) → post (none, d') t)
    (loaded : ∀ d' sz' t, phase (.locked ip) t → Image a₀ d' sz' (view t) → post (some sz', d') t) :
    rules.Wp (loadSegments layout kernel ip phnum d sz off) post s := by
  induction phnum generalizing d sz off s with
  | zero => exact rules.pure (loaded d sz s here image)
  | succ phnum ih =>
    rw [loadSegments]
    refine rules.bind (lawful.readi here fun r t seen here' => ?_)
    rw [← seen] at image
    cases r with
    | none => exact rules.pure (failed d sz t here' image)
    | some bytes =>
      dsimp only
      split
      · exact rules.pure (failed d sz t here' image)
      split
      · exact ih image here'
      split
      · exact rules.pure (failed d sz t here' image)
      split
      · exact rules.pure (failed d sz t here' image)
      rename_i _ _ inFile ordered
      have whole := segment_end (word32_lt bytes 8) (word32_lt bytes 20) ordered
      refine rules.bind (lawful.returns here' (allocuvm_image pool image) ?_)
      intro r u here'' grown
      obtain ⟨sz', d'⟩ := r
      dsimp only at grown ⊢
      split
      · rename_i zero
        exact rules.pure (failed d' sz u here'' (grown.1 zero))
      rename_i some
      obtain ⟨image', size, -⟩ := grown.2 some
      split
      · exact rules.pure (failed d' sz' u here'' image')
      rename_i aligned
      refine rules.bind (loaduvm_wp lawful (not_not.mp aligned) ?_ image' here'' ?_)
      · grind [Proghdr.ofBytes]
      · intro all v here₃ image₃
        cases all with
        | true => exact ih image₃ here₃
        | false => exact rules.pure (failed d' sz' v here₃ image₃)

/-! ### The user stack -/

/-- An image with a stack page at its end and a page below it that is not the user's. -/
structure Stacked (a₀ : Alloc) (d : PageDir) (sz : Nat) (a : Alloc) : Prop where
  image : Image a₀ d sz a
  below : sz < kernbase
  aligned : sz % pgSize = 0
  room : 2 * pgSize ≤ sz
  guard : d.user (sz / pgSize - 2) = none
  stack : (d.user (sz / pgSize - 1)).isSome

/-- The size of an image may be rounded up. -/
theorem Image.pgroundup (image : Image a₀ d sz a) : Image a₀ d (pgroundup sz) a where
  hold := image.hold
  kernel := image.kernel
  small := by
    have small := image.small
    unfold kernbase Vm.pgroundup pgSize at *
    omega
  exact v below := by
    rw [image.exact v below]
    unfold Vm.pgroundup pgSize
    omega
  top := image.top

theorem userStack_image (pool : Pool layout a₀) (image : Image a₀ d sz a) :
    Returns (userStack layout d sz) (fun r a' => (r.1 = none → ∃ sz', Image a₀ r.2 sz' a') ∧
      ∀ sz', r.1 = some sz' → Stacked a₀ r.2 sz' a') a := by
  rw [userStack, Returns]
  simp only [Act.ok_bind]
  refine (allocuvm_image pool image.pgroundup).mono fun r a' grown => ?_
  obtain ⟨sz', d'⟩ := r
  dsimp only at grown ⊢
  rw [Act.ok_ite]
  split
  · rename_i zero
    exact ⟨fun _ => ⟨_, grown.1 zero⟩, by simp⟩
  rename_i some
  obtain ⟨image', size, below, users⟩ := grown.2 some
  have size' : sz' = pgroundup sz + 2 * pgSize := by omega
  have aligned : sz' % pgSize = 0 := by rw [size', Nat.add_mul_mod_self_right, pgroundup_mod]
  have exactly : pgroundup sz' = sz' := by
    unfold pgroundup pgSize at *
    omega
  have idem : pgroundup (pgroundup sz) = pgroundup sz := by
    unfold pgroundup pgSize
    omega
  rw [exactly, idem] at users
  have low : sz' - 2 * pgSize < kernbase := by omega
  have first : (sz' - 2 * pgSize) / pgSize = sz' / pgSize - 2 := by
    unfold pgSize at *
    omega
  have begins : (sz' / pgSize - 2) * pgSize = pgroundup sz := by
    rw [← first, size', Nat.add_sub_cancel, Nat.div_mul_cancel]
    exact Nat.dvd_of_mod_eq_zero (pgroundup_mod sz)
  have ends : (sz' / pgSize - 1) * pgSize = pgroundup sz + pgSize := by
    rw [← begins]
    unfold pgSize at size' ⊢
    omega
  have one : 0 < pgSize := by decide
  obtain ⟨q, guard⟩ := users (sz' / pgSize - 2) (by omega) (by omega)
  obtain ⟨r, stack⟩ := users (sz' / pgSize - 1) (by omega) (by omega)
  rw [Act.ok_bind]
  refine (clearpteu_image image' low (by rw [first, guard]; rfl)).mono fun d'' a'' cleared => ?_
  obtain ⟨same, image'', hidden, others⟩ := cleared
  refine ⟨by simp, fun final found => ?_⟩
  cases found
  rw [first] at hidden others
  refine ⟨same ▸ image'', by omega, aligned, by omega, hidden, ?_⟩
  have apart : sz' / pgSize - 1 ≠ sz' / pgSize - 2 := by
    intro same
    rw [same] at ends
    omega
  rw [PageDir.user, others _ apart, stack]
  rfl

/-! ### Failures -/

section

variable (lawful : Lawful rules panics kernel view phase)

include lawful

/-- The label `bad` gives back what there is. -/
theorem goBad_wp (pool : Pool layout a₀) (space : Option PageDir) (inode : Option ι)
    {post : Unit → σ → Prop} (hold : Hold a₀ (spacePages space) (view s))
    (here : phase (inode.elim .idle .locked) s)
    (continued : ∀ t, phase .idle t → Hold a₀ 0 (view t) → post () t) :
    rules.Wp (goBad layout kernel space inode) post s := by
  have rest (t : σ) (here' : phase (inode.elim .idle .locked) t) (hold' : Hold a₀ 0 (view t)) :
      rules.Wp (inode.forM fun ip => do
        kernel.iunlockput ip
        kernel.endOp) post t := by
    cases inode with
    | none => exact rules.pure (continued t here' hold')
    | some ip =>
      refine rules.bind (lawful.iunlockput here' fun u seen began => ?_)
      exact lawful.endOp began fun v seen' idle => continued v idle (by rwa [seen', seen])
  cases space with
  | none => exact rules.bind (rules.pure (rest s here hold))
  | some d =>
    have freed : Returns (freevm layout d) (fun _ a => Hold a₀ 0 a) (view s) :=
      freevm_hold pool (by rwa [zero_add])
    exact rules.bind (lawful.returns here freed fun _ t here' hold' => rest t here' hold')

/-- `exec` up to the user stack returns: without a trace, or with an image and its stack. -/
theorem execLoad_wp (fit : layout.Fit) (pool : Pool layout (view s))
    {post : Option (Elfhdr × Nat × PageDir) → σ → Prop} (here : phase .idle s)
    (failed : ∀ t, phase .idle t → Hold (view s) 0 (view t) → post none t)
    (loaded : ∀ elf sz d t, phase .idle t → Stacked (view s) d sz (view t) →
      post (some (elf, sz, d)) t) : rules.Wp (execLoad layout kernel path) post s := by
  rw [execLoad]
  refine rules.bind (lawful.beginOp here fun t₁ seen₁ began => ?_)
  refine rules.bind (lawful.namei began (fun t seen began' => ?_) fun ip t₂ seen₂ named => ?_)
  · refine rules.bind (lawful.endOp began' fun u seen' idle => rules.pure ?_)
    exact failed u idle (by rw [seen', seen, seen₁]; exact .refl _)
  refine rules.bind (lawful.ilock named fun t₃ seen₃ locked => ?_)
  -- Every failure from here on goes through `bad`.
  have bad (t : σ) (space : Option PageDir) (locked : phase (.locked ip) t)
      (hold : Hold (view s) (spacePages space) (view t)) :
      rules.Wp (do goBad layout kernel space (some ip); return none) post t :=
    rules.bind (goBad_wp lawful pool space (some ip) hold locked
      fun u idle hold' => rules.pure (failed u idle hold'))
  refine rules.bind (lawful.readi locked fun r t₄ seen₄ locked' => ?_)
  have same : view t₄ = view s := by rw [seen₄, seen₃, seen₂, seen₁]
  have hold₄ : Hold (view s) (spacePages none) (view t₄) := same ▸ .refl _
  cases r with
  | none => exact bad t₄ none locked' hold₄
  | some bytes =>
    dsimp only
    split
    · exact bad t₄ none locked' hold₄
    have setup : Returns (setupkvm layout) (fun r a => (r = none → Hold (view s) 0 a) ∧
        ∀ d, r = some d → Image (view s) d 0 a) (view t₄) := by
      rw [same]
      exact setupkvm_image fit pool
    refine rules.bind (lawful.returns locked' setup ?_)
    intro r t₅ locked₅ made
    cases r with
    | none => exact bad t₅ none locked₅ (made.1 rfl)
    | some d =>
      refine rules.bind (loadSegments_wp lawful pool (made.2 d rfl) locked₅ ?_ ?_)
      · intro d' sz' t₆ locked₆ image
        refine bad t₆ (some d') locked₆ ?_
        rw [spacePages_some]
        exact image.hold
      · intro d' sz' t₆ locked₆ image
        refine rules.bind (lawful.iunlockput locked₆ fun t₇ seen₇ began₇ => ?_)
        refine rules.bind (lawful.endOp began₇ fun t₈ seen₈ idle => ?_)
        rw [← seen₇, ← seen₈] at image
        refine rules.bind (lawful.returns idle (userStack_image pool image) ?_)
        intro r t₉ idle₉ stacked
        obtain ⟨size, d''⟩ := r
        cases size with
        | none =>
          obtain ⟨_, image'⟩ := stacked.1 rfl
          have whole : Hold (view s) (spacePages (some d'')) (view t₉) := by
            rw [spacePages_some]
            exact image'.hold
          exact rules.bind (goBad_wp lawful pool (some d'') none whole idle₉
            fun u idle' hold' => rules.pure (failed u idle' hold'))
        | some sz'' => exact rules.pure (loaded _ sz'' d'' t₉ idle₉ (stacked.2 sz'' rfl))

/-- `exec` from the user stack on: without a trace, or up to the commit. -/
theorem execArgs_wp (pool : Pool layout a₀) {argv : List (List UInt8)} {elf : Elfhdr}
    {post : Int → σ → Prop} {result : Option Nat → Alloc → Prop} (here : phase .idle s)
    (pushed : Act.Ok panics (pushArgs d sz argv)
      (fun r a => Image a₀ d sz a ∧ result r a) (view s))
    (failed : ∀ a t, phase .idle t → result none a → Hold a₀ 0 (view t) → post (-1) t)
    (committed : ∀ sp t, phase .idle t → Image a₀ d sz (view t) → result (some sp) (view t) →
      rules.Wp (do
        let oldpgdir ← kernel.commit ⟨d, sz, elf.entry, sp, progName path⟩
        kernel.alloc (freevmPtr layout oldpgdir)
        return (0 : Int)) post t) :
    rules.Wp (execArgs layout kernel path argv elf sz d) post s := by
  rw [execArgs]
  refine rules.bind (lawful.alloc here (pushed.mono fun r a met t seen idle => ?_))
  subst seen
  cases r with
  | none =>
    have whole : Hold a₀ (spacePages (some d)) (view t) := by
      rw [spacePages_some]
      exact met.1.hold
    exact rules.bind (goBad_wp lawful pool (some d) none whole idle
      fun u idle' hold' => rules.pure (failed (view t) u idle' met.2 hold'))
  | some sp => exact committed sp t idle met.1 met.2

end

end

end Xv6.Vm
