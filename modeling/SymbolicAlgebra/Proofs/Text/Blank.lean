import Mathlib.Data.List.TakeWhile
import SymbolicAlgebra.Proofs.Grammar.Spelling
import SymbolicAlgebra.Text.Blank

/-! Blank ends and separators. A text has one form without blank ends, and it is divided at
a comma with a space in one way if this separator stands in it once. -/

namespace SymbolicAlgebra.Text

variable {cs body front behind before after : List Char}

def Blank (cs : List Char) : Prop := ∀ c ∈ cs, isBlank c = true

instance (cs : List Char) : Decidable (Blank cs) := List.decidableBAll (isBlank · = true) cs

/-- Neither end is blank. -/
def Trimmed (cs : List Char) : Prop :=
  (∀ c ∈ cs.head?, isBlank c = false) ∧ ∀ c ∈ cs.getLast?, isBlank c = false

instance (cs : List Char) : Decidable (Trimmed cs) :=
  @instDecidableAnd _ _ (Option.decidableForallMem cs.head?) (Option.decidableForallMem cs.getLast?)

/-- The one text stands in the other between blanks, and has no blank ends itself. -/
def TrimsTo (cs body : List Char) : Prop :=
  Trimmed body ∧ ∃ front behind, Blank front ∧ Blank behind ∧ cs = front ++ body ++ behind

theorem Blank.append (h : Blank front) (k : Blank behind) : Blank (front ++ behind) :=
  List.forall_mem_append.mpr ⟨h, k⟩

theorem Blank.reverse (h : Blank cs) : Blank cs.reverse := fun c member => h c (List.mem_reverse.mp member)

theorem exists_blank_front (cs : List Char) : ∃ front, Blank front ∧ front ++ trimStart cs = cs :=
  ⟨cs.takeWhile isBlank, fun _ => List.mem_takeWhile_imp, cs.takeWhile_append_dropWhile⟩

theorem not_isBlank_head_trimStart (cs : List Char) : ∀ c ∈ (trimStart cs).head?, isBlank c = false := by
  intro c first
  have stopped := cs.head?_dropWhile_not isBlank
  rwa [← trimStart, Option.mem_def.mp first] at stopped

theorem trimsTo_trim (cs : List Char) : TrimsTo cs (trim cs) := by
  obtain ⟨front, blankFront, whole⟩ := exists_blank_front cs
  obtain ⟨behind, blankBehind, turned⟩ := exists_blank_front (trimStart cs).reverse
  have parted : trimStart cs = trim cs ++ behind.reverse := by
    rw [trim, ← List.reverse_append, turned, List.reverse_reverse]
  refine ⟨⟨fun c first => ?_, fun c last => ?_⟩, front, behind.reverse, blankFront, blankBehind.reverse, ?_⟩
  · apply not_isBlank_head_trimStart cs c
    rw [parted, List.head?_append, Option.mem_def.mp first]
    rfl
  · rw [trim, List.getLast?_reverse] at last
    exact not_isBlank_head_trimStart _ c last
  · rw [List.append_assoc, ← parted, whole]

theorem trimStart_append (h : Blank front) (stop : ∀ c ∈ cs.head?, isBlank c = false) :
    trimStart (front ++ cs) = cs :=
  Token.dropWhile_stop h stop

theorem TrimsTo.trim_eq (h : TrimsTo cs body) : trim cs = body := by
  obtain ⟨⟨first, last⟩, front, behind, blankFront, blankBehind, rfl⟩ := h
  by_cases empty : body = []
  · subst empty
    have nothing : trimStart (front ++ [] ++ behind) = [] := by
      rw [List.append_nil, ← List.append_nil (front ++ behind)]
      exact trimStart_append (blankFront.append blankBehind) nofun
    rw [trim, nothing]
    rfl
  · have starts : ∀ c ∈ (body ++ behind).head?, isBlank c = false := by
      rwa [List.head?_append_of_ne_nil _ empty]
    rw [trim, List.append_assoc, trimStart_append blankFront starts, List.reverse_append,
      trimStart_append blankBehind.reverse (by rwa [List.head?_reverse]), List.reverse_reverse]

/-- Trimming finds the one text without blank ends. -/
theorem trim_eq_iff : trim cs = body ↔ TrimsTo cs body :=
  ⟨fun same => same ▸ trimsTo_trim cs, TrimsTo.trim_eq⟩

/-! The separator of two parts. -/

/-- No comma with a space behind it stands in the text. -/
def Undivided (cs : List Char) : Prop := ∀ before after, cs ≠ before ++ ',' :: ' ' :: after

/-- A comma with a space behind it stands in the text once, between these parts. -/
def DividesOnce (cs before after : List Char) : Prop :=
  cs = before ++ ',' :: ' ' :: after ∧ ∀ a b, cs = a ++ ',' :: ' ' :: b → a = before ∧ b = after

theorem undivided_nil : Undivided [] := by
  intro before after
  cases before <;> exact nofun

theorem undivided_cons {c : Char} : Undivided (c :: cs) ↔
    (∀ after, c :: cs ≠ ',' :: ' ' :: after) ∧ Undivided cs := by
  constructor
  · intro h
    exact ⟨h [], fun before after same => h (c :: before) after (congrArg (c :: ·) same)⟩
  · rintro ⟨first, others⟩ before after same
    cases before with
    | nil => exact first after same
    | cons d before => exact others before after (List.cons.inj same).2

/-- A text is divided at the first separator. -/
theorem splitAtComma?_eq_some : splitAtComma? cs = some (before, after) ↔
    cs = before ++ ',' :: ' ' :: after ∧ Undivided before := by
  constructor
  · intro split
    fun_induction splitAtComma? cs generalizing before with
    | case1 => cases split
    | case2 rest =>
        cases split
        exact ⟨rfl, undivided_nil⟩
    | case3 c rest elsewhere ih =>
        obtain ⟨⟨b, a⟩, found, same⟩ := Option.map_eq_some_iff.mp split
        obtain ⟨rfl, rfl⟩ := Prod.mk.inj same
        obtain ⟨rfl, undivided⟩ := ih found
        refine ⟨rfl, undivided_cons.mpr ⟨fun after here => ?_, undivided⟩⟩
        obtain ⟨rfl, rfl⟩ := List.cons.inj here
        exact elsewhere _ rfl rfl
  · rintro ⟨rfl, undivided⟩
    induction before with
    | nil => rfl
    | cons c before ih =>
        obtain ⟨elsewhere, others⟩ := undivided_cons.mp undivided
        rw [List.cons_append, splitAtComma?, ih others, Option.map_some]
        rintro rest rfl same
        cases before with
        | nil => cases same
        | cons d before =>
            obtain ⟨rfl, -⟩ := List.cons.inj same
            exact elsewhere before rfl

theorem splitAtComma?_eq_none : splitAtComma? cs = none ↔ Undivided cs := by
  constructor
  · intro split
    fun_induction splitAtComma? cs with
    | case1 => exact undivided_nil
    | case2 => cases split
    | case3 c rest elsewhere ih =>
        refine undivided_cons.mpr ⟨fun after here => ?_, ih (Option.map_eq_none_iff.mp split)⟩
        obtain ⟨rfl, rfl⟩ := List.cons.inj here
        exact elsewhere _ rfl rfl
  · intro undivided
    cases split : splitAtComma? cs with
    | none => rfl
    | some parts => exact absurd (splitAtComma?_eq_some.mp split).1 (undivided _ _)

instance (cs : List Char) : Decidable (Undivided cs) := decidable_of_iff _ splitAtComma?_eq_none

/-- Two separators are one, or the second stands behind the first. -/
theorem separator_cases {t x y : List Char} (same : ',' :: ' ' :: x = t ++ ',' :: ' ' :: y) :
    t = [] ∧ x = y ∨ ∃ u, t = ',' :: ' ' :: u ∧ x = u ++ ',' :: ' ' :: y := by
  cases t with
  | nil => exact .inl ⟨rfl, (List.cons.inj (List.cons.inj same).2).2⟩
  | cons c t =>
      obtain ⟨rfl, second⟩ := List.cons.inj same
      cases t with
      | nil => cases second
      | cons d t =>
          obtain ⟨rfl, rest⟩ := List.cons.inj second
          exact .inr ⟨t, rfl, rest⟩

theorem dividesOnce_iff : DividesOnce cs before after ↔
    cs = before ++ ',' :: ' ' :: after ∧ Undivided before ∧ Undivided after := by
  constructor
  · rintro ⟨rfl, only⟩
    refine ⟨rfl, ?_, ?_⟩
    · rintro a b rfl
      have early := (only a (b ++ ',' :: ' ' :: after) (by simp)).1
      simpa using congrArg List.length early
    · rintro a b rfl
      have late := (only (before ++ ',' :: ' ' :: a) b (by simp)).1
      simpa using congrArg List.length late
  · rintro ⟨rfl, left, right⟩
    refine ⟨rfl, fun a b same => ?_⟩
    rcases List.append_eq_append_iff.mp same with ⟨t, rfl, rest⟩ | ⟨t, rfl, rest⟩
    · rcases separator_cases rest with ⟨rfl, rfl⟩ | ⟨u, rfl, rfl⟩
      · exact ⟨List.append_nil _, rfl⟩
      · exact absurd rfl (right u b)
    · rcases separator_cases rest with ⟨rfl, rfl⟩ | ⟨u, rfl, rfl⟩
      · exact ⟨(List.append_nil _).symm, rfl⟩
      · exact absurd rfl (left a u)

end SymbolicAlgebra.Text
