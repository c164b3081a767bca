import Xv6.User.Cron

/-!
# The lines of a crontab

`get_cron_details` splits a line at its blanks and turns the first five words into lists of
numbers. A line of documented fields makes `cron` run its command exactly at the times that the
fields denote. The number -1 stands for a star and is also what the look-up of a name returns if
it finds none; what decides between names and numbers does not take `0` for a digit; and a range
is stored without a bound.
-/

namespace Xv6.User.Cron

open List

/-- The places of the dashes. -/
def dashes (param : List Char) : List Nat :=
  (List.range param.length).filter fun j => param[j]? == some '-'

/-- The numbers that are stored for the dash at `j`. -/
def expansion (i : Nat) (param : List Char) (j : Nat) : List Int :=
  let start := value i (param.take j).head? (param.take j)
  let stop := value i (param.take j).head? (param.drop (j + 1))
  (List.range (stop + 1 - start).toNat).map fun (k : Nat) => start + k

/-- All that is stored in `run_when_matched`, one after the other. -/
def stored (i : Nat) (param : List Char) : List (List Int) :=
  if param = "*".toList then [[-1]]
  else if dashes param = [] then [[value i param.head? param]]
  else (dashes param).map (expansion i param)

variable {i j : Nat} {param a b : List Char}

/-- Without a dash there is no place of one. -/
theorem dashes_eq_nil (none : '-' ∉ param) : dashes param = [] := by
  rw [dashes, filter_eq_nil_iff]
  intro j _ dash
  exact none (mem_of_getElem? (beq_iff_eq.mp dash))

/-- The one dash of a range. -/
theorem dashes_append (none : '-' ∉ a) (none' : '-' ∉ b) : dashes (a ++ '-' :: b) = [a.length] := by
  have apart : ∀ j, ((a ++ '-' :: b)[j]? == some '-') = decide (j = a.length) := by
    intro j
    rcases Nat.lt_trichotomy j a.length with less | rfl | more
    · grind
    · simp
    · grind
  rw [dashes]
  simp only [apart]
  rw [filter_eq, count_eq_one_of_mem nodup_range (mem_range.mpr (by simp))]
  rfl

/-- The last dash decides. -/
theorem runWhenMatched_eq (i : Nat) (param : List Char) : runWhenMatched i param =
    if param = "*".toList then [-1]
    else match (dashes param).getLast? with
      | none => [value i param.head? param]
      | some j => expansion i param j := by
  rw [runWhenMatched, List.getLast?_eq_head?_reverse, dashes, ← filter_reverse,
    head?_filter]
  split
  · rfl
  · split
    all_goals
      rename_i found
      rw [found]
    rfl

/-! ## Documented fields -/

/-- A documented field. -/
inductive Field where
  | star
  | number (n : Nat)
  | range (a b : Nat)
  | name (m : Fin 12)
  | names (a b : Fin 12)

namespace Field

/-- The name of a month. -/
def month (m : Fin 12) : List Char := (months.getD m "").toList

def text : Field → List Char
  | star => ['*']
  | number n => digits n
  | range a b => digits a ++ '-' :: digits b
  | name m => month m
  | names a b => month a ++ '-' :: month b

/-- The numbers that the field stands for. -/
def Denotes : Field → Nat → Prop
  | star, _ => True
  | number n, time => time = n
  | range a b, time => a ≤ time ∧ time ≤ b
  | name m, time => time = m + 1
  | names a b, time => a + 1 ≤ time ∧ time ≤ b + 1

/-- The documented numbers of a field. -/
def least : Nat → Nat
  | 0 | 1 => 0
  | _ => 1

def most : Nat → Nat
  | 0 => 59
  | 1 => 23
  | 2 => 31
  | _ => 12

/-- The field may stand at place `i`. -/
def Documented (i : Nat) : Field → Prop
  | star => True
  | number n => least i ≤ n ∧ n ≤ most i
  | range a b => least i ≤ a ∧ a ≤ b ∧ b ≤ most i
  | name _ => i = 3
  | names _ _ => i = 3

end Field

open Cron.Field

/-- No documented number is larger. -/
theorem most_le (i : Nat) : most i ≤ 59 := by
  unfold most
  split <;> decide

/-- A number is no star. -/
theorem digits_ne_star (n : Nat) : digits n ≠ "*".toList := by
  intro same
  have star : '*' ∈ digits n := by simp [same]
  exact absurd (isDigit_of_mem_digits star) (by decide)

/-- A number has no dash. -/
theorem dash_not_mem_digits (n : Nat) : '-' ∉ digits n := fun member =>
  absurd (isDigit_of_mem_digits member) (by decide)

/-- Nor has a month. -/
theorem dash_not_mem_month : ∀ m, '-' ∉ month m := by decide

/-- A number in a field that documents it. -/
theorem value_digits {n k : Nat} (place : i < 4) (first : least i ≤ n) (bound : n ≤ most i)
    (small : k < 2 ^ 31) : value i (digits n).head? (digits k) = k := by
  have digit : i = 3 → isDigit (digits n).head? = true := by
    rintro rfl
    have all : ∀ n, n < 13 → 1 ≤ n → isDigit (digits n).head? = true := by decide
    exact all n (Nat.lt_succ_of_le bound) first
  rw [value, if_neg, atoi_digits small]
  rintro ⟨three | four, names⟩
  · rw [digit three] at names
    contradiction
  · omega

/-- A month is read as its number. -/
theorem value_month : ∀ m k, value 3 (month m).head? (month k) = (k + 1 : Nat) := by decide

/-- The numbers from `start` to `stop`. -/
theorem fieldMatches_expansion {r : Rtcdate} {start stop : Nat} :
    fieldMatches r i ((List.range ((stop : Int) + 1 - start).toNat).map
      fun (k : Nat) => (start : Int) + k) = true ↔
      (start : Int) ≤ intToTime r i ∧ intToTime r i ≤ stop := by
  rw [fieldMatches, any_eq_true]
  constructor
  · rintro ⟨number, member, found⟩
    obtain ⟨k, less, rfl⟩ := mem_map.mp member
    rw [mem_range] at less
    have other : ((List.range ((stop : Int) + 1 - start).toNat).map
        fun (k : Nat) => (start : Int) + k).head? ≠ some (-1) := by
      intro first
      obtain ⟨k, -, wild⟩ := mem_map.mp (mem_of_head? first)
      omega
    simp only [Bool.or_eq_true, beq_iff_eq, other, false_or] at found
    omega
  · rintro ⟨low, high⟩
    refine ⟨_, mem_map.mpr ⟨(intToTime r i - start).toNat, mem_range.mpr (by omega), rfl⟩,
      ?_⟩
    rw [Bool.or_eq_true, beq_iff_eq, beq_iff_eq]
    exact .inr (by omega)

/-- The time of a field. -/
def time (r : Rtcdate) (i : Nat) : Nat := (intToTime r i).toNat

/-- The first four fields of a date are not negative. -/
theorem intToTime_eq (r : Rtcdate) (place : i < 4) : intToTime r i = time r i := by
  rw [time, Int.toNat_of_nonneg]
  obtain rfl | rfl | rfl | rfl : i = 0 ∨ i = 1 ∨ i = 2 ∨ i = 3 := by omega
  all_goals exact Int.natCast_nonneg _

/-- A documented field matches the times it denotes. -/
theorem fieldMatches_iff (r : Rtcdate) (place : i < 4) {field : Field}
    (documented : field.Documented i) :
    fieldMatches r i (runWhenMatched i field.text) = true ↔ field.Denotes (time r i) := by
  have single : ∀ n : Nat, fieldMatches r i [(n : Int)] = true ↔ time r i = n := by
    intro n
    have := intToTime_eq r place
    simp [fieldMatches]
    omega
  have dash : ∀ {a b : List Char} {start stop : Nat}, '-' ∉ a → '-' ∉ b →
      value i a.head? a = start → value i a.head? b = stop →
      (fieldMatches r i (runWhenMatched i (a ++ '-' :: b)) = true ↔
        start ≤ time r i ∧ time r i ≤ stop) := by
    intro a b start stop none none' first last
    have := intToTime_eq r place
    have other : a ++ '-' :: b ≠ "*".toList := by
      intro same
      have member : '-' ∈ a ++ '-' :: b := by simp
      rw [same] at member
      exact absurd member (by decide)
    rw [runWhenMatched_eq, if_neg other, dashes_append none none']
    have whole : expansion i (a ++ '-' :: b) a.length =
        (List.range ((stop : Int) + 1 - start).toNat).map fun (k : Nat) => (start : Int) + k := by
      simp [expansion, first, last]
    simp only [getLast?_singleton]
    rw [whole, fieldMatches_expansion]
    omega
  cases field with
  | star => exact iff_of_true (by simp [runWhenMatched, Field.text, fieldMatches]) trivial
  | number n =>
    have bound := most_le i
    simp only [Documented] at documented
    rw [runWhenMatched_eq, Field.text, if_neg (digits_ne_star n),
      dashes_eq_nil (dash_not_mem_digits n)]
    simp only [getLast?_nil]
    rw [value_digits place documented.1 documented.2 (by omega)]
    exact single n
  | range a b =>
    have bound := most_le i
    simp only [Documented] at documented
    exact dash (dash_not_mem_digits a) (dash_not_mem_digits b)
      (value_digits place documented.1 (by omega) (by omega))
      (value_digits place documented.1 (by omega) (by omega))
  | name m =>
    obtain rfl : i = 3 := documented
    have other : ∀ m, month m ≠ "*".toList := by decide
    rw [runWhenMatched_eq, Field.text, if_neg (other m), dashes_eq_nil (dash_not_mem_month m)]
    simp only [getLast?_nil]
    rw [value_month]
    exact single (m + 1)
  | names a b =>
    obtain rfl : i = 3 := documented
    exact dash (dash_not_mem_month a) (dash_not_mem_month b) (value_month a a) (value_month a b)

/-! ## Documented lines -/

/-- Every word but the first has a blank in front of it. -/
theorem length_le_intercalate (words : List (List Char)) :
    words.length ≤ ([' '].intercalate words).length + 1 := by
  induction words with
  | nil => simp
  | cons word words ih =>
    rcases eq_or_ne words [] with rfl | more
    · simp
    · rw [intercalate_cons_of_ne_nil more]
      simp only [length_cons, length_append, length_nil]
      omega

/-- The line with the given fields, a star for the day of the week, and the words of a command. -/
def lineOf (minute hour day month : Field) (words : List (List Char)) : Line :=
  [' '].intercalate ([minute.text, hour.text, day.text, month.text, ['*']] ++ words)

/-- A field has neither blanks nor the sign of a comment. -/
theorem plain_of_mem_text {field : Field} {c : Char} (member : c ∈ field.text) :
    c ≠ ' ' ∧ c ≠ '#' := by
  have number : ∀ n, c ∈ digits n → c ≠ ' ' ∧ c ≠ '#' := fun n member =>
    ⟨fun same => absurd (isDigit_of_mem_digits (same ▸ member)) (by decide),
      fun same => absurd (isDigit_of_mem_digits (same ▸ member)) (by decide)⟩
  have name : ∀ m, c ∈ month m → c ≠ ' ' ∧ c ≠ '#' := by
    have all : ∀ m, (month m).all (fun c => c ≠ ' ' ∧ c ≠ '#') = true := by decide
    exact fun m member => of_decide_eq_true (all_eq_true.mp (all m) c member)
  cases field with
  | star => grind [Field.text]
  | number n => exact number n member
  | range a b => grind [Field.text]
  | name m => exact name m member
  | names a b => grind [Field.text]

/-- No field is empty. -/
theorem text_ne_nil (field : Field) : field.text ≠ [] := by
  have name : ∀ m, month m ≠ [] := by decide
  cases field with
  | number n => exact Nat.toDigits_ne_nil
  | name m => exact name m
  | _ => simp [Field.text]

/-- `cron` runs the command of a documented line, with its words as arguments, exactly if the date
is among those that the fields denote. -/
theorem cron_runs_iff {minute hour day month : Field} {words : List (List Char)} (r : Rtcdate)
    (minutes : minute.Documented 0) (hours : hour.Documented 1) (days : day.Documented 2)
    (months : month.Documented 3) (apart : ∀ word ∈ words, ' ' ∉ word) (some : words ≠ []) :
    (Starts r (lineOf minute hour day month words) ↔ minute.Denotes r.minute ∧
      hour.Denotes r.hour ∧ day.Denotes r.day ∧ month.Denotes r.month) ∧
    argv (lineOf minute hour day month words) = words := by
  have split : params (lineOf minute hour day month words) =
      [minute.text, hour.text, day.text, month.text, ['*']] ++ words := by
    refine splitOn_intercalate ' ' (fun word member => ?_) (by simp)
    rcases mem_append.mp member with field | word
    · simp only [mem_cons, not_mem_nil, or_false] at field
      rcases field with rfl | rfl | rfl | rfl | rfl
      all_goals first | exact fun blank => (plain_of_mem_text blank).1 rfl | decide
    · exact apart _ word
  have long := length_le_intercalate
    ([minute.text, hour.text, day.text, month.text, ['*']] ++ words)
  have more := length_pos_iff.mpr some
  rw [length_append] at long
  have job : IsJob (lineOf minute hour day month words) := by
    obtain ⟨c, rest, text⟩ := exists_cons_of_ne_nil (text_ne_nil minute)
    have plain : c ≠ '#' := (@plain_of_mem_text minute c (by simp [text])).2
    simp [IsJob, lineOf, text, intercalate_cons_of_ne_nil, plain]
  have details : getCronDetails (lineOf minute hour day month words) = .some
      ((List.range 5).map fun i => runWhenMatched i ((params (lineOf minute hour day month
        words)).getD i [])) :=
    if_pos ⟨job.2, by simp [lineOf] at long ⊢; omega, by simp [split]⟩
  have star : fieldMatches r 4 (runWhenMatched 4 ['*']) = true := by
    simp [runWhenMatched, fieldMatches]
  refine ⟨?_, by simp [argv, split]⟩
  have first := fieldMatches_iff r (by decide : 0 < 4) minutes
  have second := fieldMatches_iff r (by decide : 1 < 4) hours
  have third := fieldMatches_iff r (by decide : 2 < 4) days
  have fourth := fieldMatches_iff r (by decide : 3 < 4) months
  rw [Starts, details, split]
  change _ ↔ minute.Denotes (time r 0) ∧ hour.Denotes (time r 1) ∧ day.Denotes (time r 2) ∧
    month.Denotes (time r 3)
  simp [job, execute, range_succ, zipIdx_cons, star, first, second, third, fourth]

/-- A line with a number, two ranges and a star, at a time it denotes. -/
theorem cron_runs_iff_spring :
    Starts ⟨30, 9, 2, 3, 2021⟩ "30 8-17 * jan-mar * echo hi".toList ∧
    argv "30 8-17 * jan-mar * echo hi".toList = ["echo".toList, "hi".toList] := by
  have runs := @cron_runs_iff (.number 30) (.range 8 17) .star (.names 0 2)
    ["echo".toList, "hi".toList] ⟨30, 9, 2, 3, 2021⟩ ⟨by decide, by decide⟩
    ⟨by decide, by decide, by decide⟩ trivial rfl (by decide) (by decide)
  have text : lineOf (.number 30) (.range 8 17) .star (.names 0 2) ["echo".toList, "hi".toList] =
      "30 8-17 * jan-mar * echo hi".toList := by decide +kernel
  rw [text] at runs
  exact ⟨runs.1.mpr ⟨rfl, ⟨by decide, by decide⟩, trivial, by decide, by decide⟩, runs.2⟩

/-! ## Wildcards -/

/-- The field is taken for a name. -/
def Named (i : Nat) (first : Option Char) : Prop := (i = 3 ∨ i = 4) ∧ isDigit first = false

/-- The documented names of the field. -/
def namesOf (i : Nat) : List String := if i = 3 then months else days

/-- A name is a documented one, and a number does not wrap around to -1. -/
def Legible (i : Nat) (param : List Char) : Prop :=
  match (dashes param).getLast? with
  | none =>
    (Named i param.head? → ∃ name ∈ namesOf i, name.toList = param) ∧
    (¬Named i param.head? → atoi param ≠ -1)
  | some j =>
    (Named i (param.take j).head? → ∃ name ∈ namesOf i, name.toList = param.take j) ∧
    (¬Named i (param.take j).head? →
      atoi (param.take j) ≠ -1 ∨ atoi (param.drop (j + 1)) < -1)

/-- No range has more than sixty numbers. -/
def Narrow (i : Nat) (param : List Char) : Prop :=
  ∀ j ∈ dashes param, value i (param.take j).head? (param.drop (j + 1)) <
    value i (param.take j).head? (param.take j) + 60

/-- The look-up of a name returns -1 exactly for one that is not documented. -/
theorem value_named {first : Option Char} {text : List Char} (named : Named i first) :
    -1 ≤ value i first text ∧
      (value i first text = -1 ↔ ¬∃ name ∈ namesOf i, name.toList = text) := by
  unfold Named at named
  rw [value, if_pos named, namesOf]
  split
  all_goals
    first | unfold monthToInt | unfold dayToInt
    split
    · rename_i found
      have some := findIdx?_eq_some_iff_findIdx_eq.mp found
      have member := findIdx_lt_length.mp (some.2 ▸ some.1)
      simp only [beq_iff_eq] at member
      exact ⟨by omega, iff_of_false (by omega) (not_not.mpr member)⟩
    · rename_i found
      rw [findIdx?_eq_none_iff] at found
      refine ⟨Int.le_refl _, iff_of_true rfl ?_⟩
      rintro ⟨known, member, same⟩
      simpa [same] using found known member

/-- When a range begins with the mark of a star. -/
theorem head?_expansion (start stop : Int) :
    ((List.range (stop + 1 - start).toNat).map fun (k : Nat) => start + k).head? = some (-1) ↔
      start = -1 ∧ -1 ≤ stop := by
  rw [head?_map, head?_range]
  split
  · simp
    omega
  · simp
    omega

/-- The field is not taken for a star. -/
theorem legible_iff (other : param ≠ "*".toList) :
    (runWhenMatched i param).head? ≠ some (-1) ↔ Legible i param := by
  rw [runWhenMatched_eq, if_neg other, Legible]
  split
  · by_cases named : Named i param.head?
    · have := (@value_named i _ param named).2
      grind
    · have : value i param.head? param = atoi param := if_neg named
      grind
  · rename_i j _
    rw [expansion, ne_eq, head?_expansion]
    by_cases named : Named i (param.take j).head?
    · have start := (@value_named i _ (param.take j) named).2
      have stop := (@value_named i _ (param.drop (j + 1)) named).1
      grind
    · have start : value i (param.take j).head? (param.take j) = atoi (param.take j) := if_neg named
      have stop : value i (param.take j).head? (param.drop (j + 1)) = atoi (param.drop (j + 1)) :=
        if_neg named
      grind

/-- Each range is stored in the sixty places. -/
theorem narrow_iff (other : param ≠ "*".toList) :
    (∀ values ∈ stored i param, values.length ≤ 60) ↔ Narrow i param := by
  rw [stored, if_neg other]
  split
  · rename_i none
    simp [Narrow, none]
  · simp only [forall_mem_map, expansion, length_map, length_range, Narrow]
    exact forall₂_congr fun j _ => by omega

/-- Of a job line, at most sixty numbers are stored for each field and only a star matches all
times, exactly if every other field has no range of more numbers and has a legible beginning. -/
theorem only_star_iff {line : Line} (job : IsJob line) (five : 5 ≤ (params line).length) :
    (∃ fields, getCronDetails line = some fields ∧ ∀ i < 5,
      (∀ values ∈ stored i ((params line).getD i []), values.length ≤ 60) ∧
      ((fields.getD i []).head? = some (-1) ↔ (params line).getD i [] = "*".toList)) ↔
    ∀ i < 5, (params line).getD i [] = "*".toList ∨
      Narrow i ((params line).getD i []) ∧ Legible i ((params line).getD i []) := by
  have long := length_le_intercalate (params line)
  rw [params, intercalate_splitOn, ← params] at long
  have details : getCronDetails line = some ((List.range 5).map fun i =>
      runWhenMatched i ((params line).getD i [])) := if_pos ⟨job.2, by omega, five⟩
  have each : ∀ i param, ((∀ values ∈ stored i param, values.length ≤ 60) ∧
      ((runWhenMatched i param).head? = some (-1) ↔ param = "*".toList)) ↔
      param = "*".toList ∨ Narrow i param ∧ Legible i param := by
    intro i param
    by_cases star : param = "*".toList
    · subst star
      exact iff_of_true ⟨by simp [stored], by simp [runWhenMatched]⟩ (.inl rfl)
    · rw [narrow_iff star, ← legible_iff star]
      grind
  have field : ∀ i < 5, ((List.range 5).map fun i =>
      runWhenMatched i ((params line).getD i [])).getD i [] =
      runWhenMatched i ((params line).getD i []) := by
    intro i less
    rw [getD_eq_getElem?_getD, getElem?_map, getElem?_range less]
    rfl
  constructor
  · rintro ⟨fields, found, right⟩ i less
    obtain rfl := Option.some.inj (details.symm.trans found)
    exact (each i _).mp (field i less ▸ right i less)
  · exact fun right => ⟨_, details, fun i less => field i less ▸ (each i _).mpr (right i less)⟩

/-- A line with a range, two stars and two names. -/
theorem only_star_iff_sunday : ∃ fields,
    getCronDetails "5-10 * * feb sun x".toList = some fields ∧ ∀ i < 5,
      ((fields.getD i []).head? = some (-1) ↔
        (params "5-10 * * feb sun x".toList).getD i [] = "*".toList) := by
  have legible : ∀ i < 5, (params "5-10 * * feb sun x".toList).getD i [] = "*".toList ∨
      Narrow i ((params "5-10 * * feb sun x".toList).getD i []) ∧
      Legible i ((params "5-10 * * feb sun x".toList).getD i []) := by
    intro i less
    have stores : ∀ i < 5, (params "5-10 * * feb sun x".toList).getD i [] = "*".toList ∨
        (∀ values ∈ stored i ((params "5-10 * * feb sun x".toList).getD i []),
          values.length ≤ 60) ∧
        (runWhenMatched i ((params "5-10 * * feb sun x".toList).getD i [])).head? ≠ some (-1) := by
      decide +kernel
    by_cases star : (params "5-10 * * feb sun x".toList).getD i [] = "*".toList
    · exact .inl star
    · rw [← narrow_iff star, ← legible_iff star]
      exact stores i less
  obtain ⟨fields, details, right⟩ := (@only_star_iff "5-10 * * feb sun x".toList (by decide)
    (by decide)).mpr legible
  exact ⟨fields, details, fun i less => (right i less).2⟩

/-- The month `01`, the day of the week `0` and a misspelt month match all times, and a range of a
hundred minutes stores a hundred numbers. -/
theorem star_for_others :
    (runWhenMatched 3 "01".toList).head? = some (-1) ∧
    (runWhenMatched 4 "0".toList).head? = some (-1) ∧
    (runWhenMatched 3 "janury".toList).head? = some (-1) ∧
    Starts ⟨0, 0, 1, 7, 2021⟩ "* * * 01 * x".toList ∧
    ∃ values ∈ stored 0 "0-99".toList, 60 < values.length := by
  decide +kernel

end Xv6.User.Cron
