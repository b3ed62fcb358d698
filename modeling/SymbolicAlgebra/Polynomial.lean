/-! Polynomials in one variable over the rationals, as their nonzero terms in
ascending order of degree. Every operation adds terms one at a time, and adding
a term keeps the order and drops a coefficient that has come to zero, so equal
polynomials are one value. Degrees are machine words: a sum of two degrees that
does not fit wraps around. -/

namespace SymbolicAlgebra

/-- Degrees and exponents are machine words of 64 bits, below this bound. -/
def Poly.exponentBound : Nat := 18446744073709551616

structure Poly where
  /-- Degrees with their coefficients. -/
  terms : List (Nat × Rat)
  ascending : terms.Pairwise fun s t => s.1 < t.1
  nonzero : ∀ t ∈ terms, t.2 ≠ 0
  bounded : ∀ t ∈ terms, t.1 < Poly.exponentBound
  deriving DecidableEq

namespace Poly

def zero : Poly := ⟨[], .nil, by simp, by simp⟩

/-- Add a nonzero term to the terms of a polynomial. -/
def insertTerm (degree : Nat) (c : Rat) : List (Nat × Rat) → List (Nat × Rat)
  | [] => [(degree, c)]
  | (d, a) :: rest =>
      if degree < d then (degree, c) :: (d, a) :: rest
      else if degree = d then if a + c = 0 then rest else (d, a + c) :: rest
      else (d, a) :: insertTerm degree c rest

theorem degree_of_mem_insertTerm {degree : Nat} {c : Rat} {terms : List (Nat × Rat)}
    {t : Nat × Rat} (member : t ∈ insertTerm degree c terms) :
    t.1 = degree ∨ ∃ s ∈ terms, t.1 = s.1 := by
  induction terms with
  | nil => simp_all [insertTerm]
  | cons head rest ih =>
      simp only [insertTerm] at member
      split at member
      · rcases List.mem_cons.mp member with rfl | member
        · exact .inl rfl
        · exact .inr ⟨t, member, rfl⟩
      · split at member
        · split at member
          · exact .inr ⟨t, .tail _ member, rfl⟩
          · rcases List.mem_cons.mp member with rfl | member
            · exact .inr ⟨head, .head _, rfl⟩
            · exact .inr ⟨t, .tail _ member, rfl⟩
        · rcases List.mem_cons.mp member with rfl | member
          · exact .inr ⟨head, .head _, rfl⟩
          · rcases ih member with same | ⟨s, present, same⟩
            · exact .inl same
            · exact .inr ⟨s, .tail _ present, same⟩

theorem insertTerm_ascending (degree : Nat) (c : Rat) {terms : List (Nat × Rat)}
    (ascending : terms.Pairwise fun s t => s.1 < t.1) :
    (insertTerm degree c terms).Pairwise fun s t => s.1 < t.1 := by
  induction terms with
  | nil => exact List.pairwise_singleton _ _
  | cons head rest ih =>
      obtain ⟨least, sorted⟩ := List.pairwise_cons.mp ascending
      simp only [insertTerm]
      split
      next below =>
        refine List.pairwise_cons.mpr ⟨fun t member => ?_, ascending⟩
        rcases List.mem_cons.mp member with rfl | member
        · exact below
        · exact Nat.lt_trans below (least t member)
      next notBelow =>
        split
        next same =>
          split
          · exact sorted
          · exact List.pairwise_cons.mpr ⟨fun t member => least t member, sorted⟩
        next different =>
          refine List.pairwise_cons.mpr ⟨fun t member => ?_, ih sorted⟩
          rcases degree_of_mem_insertTerm member with same | ⟨s, present, same⟩
          · rw [same]; omega
          · rw [same]; exact least s present

theorem insertTerm_nonzero (degree : Nat) {c : Rat} (c_ne : c ≠ 0) {terms : List (Nat × Rat)}
    (nonzero : ∀ t ∈ terms, t.2 ≠ 0) : ∀ t ∈ insertTerm degree c terms, t.2 ≠ 0 := by
  induction terms with
  | nil => simpa [insertTerm] using c_ne
  | cons head rest ih =>
      have others : ∀ t ∈ rest, t.2 ≠ 0 := fun t member => nonzero t (.tail _ member)
      intro t member
      simp only [insertTerm] at member
      split at member
      · rcases List.mem_cons.mp member with rfl | member
        · exact c_ne
        · exact nonzero t member
      · split at member
        · split at member
          · exact others t member
          next sum_ne =>
            rcases List.mem_cons.mp member with rfl | member
            · exact sum_ne
            · exact others t member
        · rcases List.mem_cons.mp member with rfl | member
          · exact nonzero head (.head _)
          · exact ih others t member

theorem insertTerm_bounded {degree : Nat} (small : degree < exponentBound) (c : Rat)
    {terms : List (Nat × Rat)} (bounded : ∀ t ∈ terms, t.1 < exponentBound) :
    ∀ t ∈ insertTerm degree c terms, t.1 < exponentBound := by
  intro t member
  rcases degree_of_mem_insertTerm member with same | ⟨s, present, same⟩
  · rwa [same]
  · rw [same]
    exact bounded s present

/-- The degree as a machine word. -/
def wrap (degree : Nat) : Nat := degree % exponentBound

theorem wrap_lt (degree : Nat) : wrap degree < exponentBound := Nat.mod_lt degree (by decide)

theorem wrap_eq {degree : Nat} (small : degree < exponentBound) : wrap degree = degree :=
  Nat.mod_eq_of_lt small

def addTerm (p : Poly) (t : Nat × Rat) : Poly :=
  if h : t.2 = 0 then p
  else ⟨insertTerm (wrap t.1) t.2 p.terms, insertTerm_ascending _ _ p.ascending,
    insertTerm_nonzero _ h p.nonzero, insertTerm_bounded (wrap_lt t.1) _ p.bounded⟩

def monomial (degree : Nat) (c : Rat) : Poly := zero.addTerm (degree, c)

def const (c : Rat) : Poly := monomial 0 c

def one : Poly := const 1

/-- The degree; the zero polynomial has none. -/
def degree? (p : Poly) : Option Nat := p.terms.getLast?.map (·.1)

/-- The degree, with zero for the zero polynomial. -/
def degree (p : Poly) : Nat := p.degree?.getD 0

def leadingCoeff (p : Poly) : Rat := (p.terms.getLast?.map (·.2)).getD 0

/-- The coefficient at a degree among ascending terms; a missing term counts as zero. -/
def coeffIn (n : Nat) : List (Nat × Rat) → Rat
  | [] => 0
  | (d, c) :: rest => if d = n then c else coeffIn n rest

def coeff (p : Poly) (n : Nat) : Rat := coeffIn n p.terms

theorem coeffIn_eq_zero {n : Nat} {terms : List (Nat × Rat)} (above : ∀ t ∈ terms, n < t.1) :
    coeffIn n terms = 0 := by
  induction terms with
  | nil => rfl
  | cons head rest ih =>
      have := above head (.head _)
      rw [coeffIn, if_neg (by omega), ih fun t member => above t (.tail _ member)]

theorem coeffIn_insertTerm (degree : Nat) (c : Rat) (n : Nat) {terms : List (Nat × Rat)}
    (ascending : terms.Pairwise fun s t => s.1 < t.1) :
    coeffIn n (insertTerm degree c terms) = coeffIn n terms + if degree = n then c else 0 := by
  induction terms with
  | nil => simp only [insertTerm, coeffIn, Rat.zero_add]
  | cons head rest ih =>
      obtain ⟨least, sorted⟩ := List.pairwise_cons.mp ascending
      simp only [insertTerm]
      split
      next below =>
        by_cases same : degree = n
        · subst same
          rw [coeffIn, if_pos rfl, if_pos rfl, coeffIn, if_neg (by omega),
            coeffIn_eq_zero fun t member => Nat.lt_trans below (least t member), Rat.zero_add]
        · rw [coeffIn, if_neg same, if_neg same, Rat.add_zero]
      next =>
        split
        next same =>
          subst same
          split
          next cancelled =>
            by_cases here : head.1 = n
            · subst here
              rw [coeffIn_eq_zero least, coeffIn, if_pos rfl, if_pos rfl, cancelled]
            · rw [coeffIn, if_neg here, if_neg here, Rat.add_zero]
          next =>
            by_cases here : head.1 = n
            · rw [coeffIn, if_pos here, coeffIn, if_pos here, if_pos here]
            · rw [coeffIn, if_neg here, coeffIn, if_neg here, if_neg here, Rat.add_zero]
        next different =>
          by_cases here : head.1 = n
          · rw [coeffIn, if_pos here, coeffIn, if_pos here, if_neg (by omega), Rat.add_zero]
          · rw [coeffIn, if_neg here, coeffIn, if_neg here, ih sorted]

@[simp] theorem coeff_zero (n : Nat) : zero.coeff n = 0 := rfl

@[simp] theorem coeff_addTerm (p : Poly) (t : Nat × Rat) (n : Nat) :
    (p.addTerm t).coeff n = p.coeff n + if wrap t.1 = n then t.2 else 0 := by
  unfold addTerm
  split
  next vanishing => simp only [vanishing, ite_self, Rat.add_zero]
  next => exact coeffIn_insertTerm (wrap t.1) t.2 n p.ascending

def isZero (p : Poly) : Bool := p.terms.isEmpty

def isOne (p : Poly) : Bool := p = one

def add (p q : Poly) : Poly := q.terms.foldl addTerm p

def scale (p : Poly) (k : Rat) : Poly :=
  p.terms.foldl (fun sum t => sum.addTerm (t.1, t.2 * k)) zero

def neg (p : Poly) : Poly := p.scale (-1)

def sub (p q : Poly) : Poly := p.add q.neg

/-- The product. The degrees of the terms are added as machine words. -/
def mul (p q : Poly) : Poly :=
  p.terms.foldl (fun sum s =>
    q.terms.foldl (fun sum t => sum.addTerm (s.1 + t.1, s.2 * t.2)) sum) zero

/-- Powers by squaring; the square is taken only while it is needed. -/
def pow (p : Poly) (n : Nat) : Poly :=
  if n = 0 then one
  else if n = 1 then p
  else
    let root := pow (p.mul p) (n / 2)
    if n % 2 = 1 then root.mul p else root
termination_by n

/-- The multiple with leading coefficient one; zero is kept. -/
def monic (p : Poly) : Poly := if p.isZero then p else p.scale p.leadingCoeff⁻¹

end Poly
end SymbolicAlgebra
