import Mathlib.Computability.Language

/-!
# The matcher of `grep.c`

A `char *` is the string that it points to, up to its NUL: `*text == '\0'` says that the string is
empty, `text + 1` is its tail. The meaning of a pattern is a language, read off the pattern without
reference to the matcher.
-/

namespace Xv6.Grep

open List

/-- `'^'`. -/
def caret : UInt8 := 94

/-- `'.'`. -/
def dot : UInt8 := 46

/-- `'*'`. -/
def star : UInt8 := 42

/-- `'$'`. -/
def dollar : UInt8 := 36

mutual

/-- `matchhere`. -/
def matchhere (re text : List UInt8) : Bool :=
  match re with
  | [] => true
  | c :: re =>
    if re.head? = some star then matchstar c re.tail text
    else if c = dollar ∧ re = [] then text.isEmpty
    else
      match text with
      | [] => false
      | t :: text => if c = dot ∨ c = t then matchhere re text else false
termination_by (re.length, text.length, 0)
decreasing_by all_goals simp_wf; omega

/-- `matchstar`. -/
def matchstar (c : UInt8) (re text : List UInt8) : Bool :=
  if matchhere re text then true
  else
    match text with
    | [] => false
    | t :: text => if t = c ∨ c = dot then matchstar c re text else false
termination_by (re.length, text.length, 1)

end

/-- The loop of `match`. -/
def matchAnywhere (re : List UInt8) : List UInt8 → Bool
  | [] => matchhere re []
  | t :: text => if matchhere re (t :: text) then true else matchAnywhere re text

/-- `match`. -/
def matchText (re text : List UInt8) : Bool :=
  if re.head? = some caret then matchhere re.tail text else matchAnywhere re text

/-- What one character of a pattern stands for. -/
inductive Atom where
  | any
  | char (c : UInt8)

/-- `.` is any character, every other character is itself. -/
def atom (c : UInt8) : Atom := if c = dot then .any else .char c

/-- The characters an atom stands for. -/
def Atom.Accepts : Atom → UInt8 → Prop
  | .any, _ => True
  | .char c, t => t = c

/-- The words of one character. -/
def Atom.lang (a : Atom) : Language UInt8 := {w | ∃ t, w = [t] ∧ a.Accepts t}

/-- A character, or a character with a `*` behind it. -/
inductive Item where
  | one (a : Atom)
  | many (a : Atom)

/-- The language of an item. -/
def Item.lang : Item → Language UInt8
  | .one a => a.lang
  | .many a => KStar.kstar a.lang

/-- The items of a pattern, apart from a `$` at its end. -/
def items : List UInt8 → List Item
  | [] => []
  | [c] => if c = dollar then [] else [.one (atom c)]
  | c :: d :: re =>
    if d = star then .many (atom c) :: items re else .one (atom c) :: items (d :: re)

/-- Whether a pattern ends in a `$` that is no item. -/
def stops : List UInt8 → Bool
  | [] => false
  | [c] => c = dollar
  | _ :: d :: re => if d = star then stops re else stops (d :: re)

/-- The language of a pattern without its `^`. -/
def lang (re : List UInt8) : Language UInt8 := ((items re).map Item.lang).prod

/-- The pattern without its `^`. -/
def body (re : List UInt8) : List UInt8 := if re.head? = some caret then re.tail else re

/-- A substring of the text is in the language of the pattern: a prefix if the pattern starts with
`^`, a suffix if it ends in `$`. -/
def Contains (re text : List UInt8) : Prop :=
  ∃ before word rest, text = before ++ word ++ rest ∧ word ∈ lang (body re) ∧
    (re.head? = some caret → before = []) ∧ (stops (body re) → rest = [])

/-- A prefix of the text is in a language; all of the text, if `stop`. -/
def Begins (l : Language UInt8) (stop : Bool) (text : List UInt8) : Prop :=
  ∃ word rest, text = word ++ rest ∧ word ∈ l ∧ (stop → rest = [])

theorem accepts_atom {c t : UInt8} : (atom c).Accepts t ↔ c = dot ∨ c = t := by
  unfold atom
  split
  · simp_all [Atom.Accepts]
  · simp_all [Atom.Accepts, eq_comm]

/-- The words of `a*`. -/
theorem Atom.mem_kstar {a : Atom} {word : List UInt8} :
    word ∈ KStar.kstar a.lang ↔ ∀ t ∈ word, a.Accepts t := by
  rw [Language.mem_kstar]
  constructor
  · rintro ⟨words, rfl, each⟩ t member
    obtain ⟨w, inside, member⟩ := mem_flatten.mp member
    obtain ⟨u, rfl, accepted⟩ := each w inside
    rw [mem_singleton.mp member]
    exact accepted
  · intro all
    refine ⟨word.map fun t => [t], ?_, fun w member => ?_⟩
    · rw [← flatMap_def, List.flatMap_singleton']
    · obtain ⟨t, inside, rfl⟩ := mem_map.mp member
      exact ⟨t, rfl, all t inside⟩

section Begins

variable {l m : Language UInt8} {stop : Bool} {text : List UInt8} {a : Atom} {t : UInt8}

theorem begins_one : Begins 1 stop text ↔ (stop → text = []) := by
  simp [Begins, Language.mem_one]

theorem begins_mul : Begins (l * m) stop text ↔
    ∃ word rest, text = word ++ rest ∧ word ∈ l ∧ Begins m stop rest := by
  grind [Language.mem_mul, Begins]

theorem begins_atom_nil : ¬ Begins (a.lang * m) stop [] := by
  rw [begins_mul]
  rintro ⟨_, rest, split, ⟨t, rfl, -⟩, -⟩
  cases split

theorem begins_atom_cons :
    Begins (a.lang * m) stop (t :: text) ↔ a.Accepts t ∧ Begins m stop text := by
  rw [begins_mul]
  constructor
  · rintro ⟨_, rest, split, ⟨u, rfl, accepted⟩, begins⟩
    cases split
    exact ⟨accepted, begins⟩
  · rintro ⟨accepted, begins⟩
    exact ⟨[t], text, rfl, ⟨t, rfl, accepted⟩, begins⟩

theorem begins_many_nil : Begins (KStar.kstar a.lang * m) stop [] ↔ Begins m stop [] := by
  grind [begins_mul, nil_eq_append_iff, Language.nil_mem_kstar, Begins]

/-- One turn of the loop of `matchstar`. -/
theorem begins_many_cons :
    Begins (KStar.kstar a.lang * m) stop (t :: text) ↔
      Begins m stop (t :: text) ∨
        a.Accepts t ∧ Begins (KStar.kstar a.lang * m) stop text := by
  simp only [begins_mul, Atom.mem_kstar]
  constructor
  · rintro ⟨_ | ⟨u, word⟩, rest, split, all, begins⟩
    all_goals grind
  · rintro (begins | ⟨accepted, word, rest, rfl, all, begins⟩)
    · exact ⟨[], _, rfl, by simp, begins⟩
    · exact ⟨t :: word, rest, rfl, forall_mem_cons.mpr ⟨accepted, all⟩, begins⟩

end Begins

/-- `matchstar`, by what `matchhere` does with the rest of the pattern. -/
theorem matchstar_iff {c : UInt8} {re : List UInt8} {m : Language UInt8} {stop : Bool}
    (here : ∀ text, matchhere re text ↔ Begins m stop text) (text : List UInt8) :
    matchstar c re text ↔ Begins (KStar.kstar (atom c).lang * m) stop text := by
  induction text with
  | nil =>
    rw [matchstar, begins_many_nil, ← here]
    simp
  | cons t text ih =>
    grind [matchstar, begins_many_cons, accepts_atom]

/-- `matchhere` at a character that no `*` follows and that is no final `$`. -/
theorem matchhere_one {c : UInt8} {re : List UInt8} {m : Language UInt8} {stop : Bool}
    (here : ∀ text, matchhere re text ↔ Begins m stop text) (single : re.head? ≠ some star)
    (inner : ¬ (c = dollar ∧ re = [])) (text : List UInt8) :
    matchhere (c :: re) text ↔ Begins ((atom c).lang * m) stop text := by
  grind [matchhere.eq_def, begins_atom_nil, begins_atom_cons, accepts_atom]

theorem matchhere_nil (text : List UInt8) : matchhere [] text ↔ Begins 1 false text := by
  simp [matchhere, begins_one]

/-- `matchhere` looks for the pattern at the beginning of the text. -/
theorem matchhere_iff (re text : List UInt8) :
    matchhere re text ↔ Begins (lang re) (stops re) text := by
  induction re using items.induct generalizing text with
  | case1 => exact matchhere_nil text
  | case2 =>
    rw [matchhere.eq_def]
    simp [lang, items, stops, begins_one, star]
  | case3 c inner =>
    have step := matchhere_one matchhere_nil (c := c) (by simp) (by simp [inner]) text
    simpa [lang, items, stops, inner, Item.lang] using step
  | case4 c re ih =>
    have step := matchstar_iff (c := c) ih text
    rw [matchhere.eq_def]
    simpa [lang, items, stops, Item.lang] using step
  | case5 c d re single ih =>
    have step := matchhere_one ih (c := c) (by simpa using single) (by simp) text
    simpa [lang, items, stops, single, Item.lang] using step

/-- The loop of `match` tries every suffix. -/
theorem matchAnywhere_iff (re text : List UInt8) :
    matchAnywhere re text ↔ ∃ before rest, text = before ++ rest ∧ matchhere re rest := by
  induction text with
  | nil =>
    rw [matchAnywhere]
    constructor
    · intro found
      exact ⟨[], [], rfl, found⟩
    · rintro ⟨before, rest, split, found⟩
      obtain ⟨-, rfl⟩ := nil_eq_append_iff.mp split
      exact found
  | cons t text ih =>
    rw [matchAnywhere]
    constructor
    · intro found
      by_cases first : matchhere re (t :: text)
      · exact ⟨[], t :: text, rfl, first⟩
      · rw [if_neg first, ih] at found
        obtain ⟨before, rest, rfl, found⟩ := found
        exact ⟨t :: before, rest, rfl, found⟩
    · rintro ⟨_ | ⟨u, before⟩, rest, split, found⟩
      all_goals grind

/-- `match` returns 1 exactly on the texts that have a substring in the language of the pattern. -/
theorem matchText_iff_contains (re text : List UInt8) : matchText re text ↔ Contains re text := by
  unfold matchText Contains body
  by_cases anchored : re.head? = some caret
  · simp only [if_pos anchored, matchhere_iff, Begins]
    constructor
    · rintro ⟨word, rest, rfl, member, ends⟩
      exact ⟨[], word, rest, rfl, member, fun _ => rfl, ends⟩
    · rintro ⟨before, word, rest, rfl, member, starts, ends⟩
      rw [starts anchored]
      exact ⟨word, rest, rfl, member, ends⟩
  · simp only [if_neg anchored, matchAnywhere_iff, matchhere_iff, Begins]
    constructor
    · rintro ⟨before, _, rfl, word, rest, rfl, member, ends⟩
      exact ⟨before, word, rest, (append_assoc ..).symm, member, fun h => absurd h anchored,
        ends⟩
    · rintro ⟨before, word, rest, rfl, member, -, ends⟩
      exact ⟨before, word ++ rest, append_assoc .., word, rest, rfl, member, ends⟩

end Xv6.Grep
