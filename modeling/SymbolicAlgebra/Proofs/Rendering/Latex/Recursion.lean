import SymbolicAlgebra.Proofs.Rendering.Latex

/-! The texts of an expression are laid out from the texts of other expressions, which are
not always parts of it: terms have lost their signs, and powers in a divisor theirs. They
take fewer levels of layout all the same, so the recursion ends, and its depth is bounded
by the size. -/

namespace SymbolicAlgebra.Latex
open SymbolicAlgebra.Expr

variable {write other : Expr → Nat → String} {a b c e : Expr} {items : List Expr} {depth : Nat}
variable {place place' : Nat → String}

def productCalls (e : Expr) : List Expr := (Fraction.ofExpr false e).top ++ (Fraction.ofExpr false e).bottom

def raisedCalls (base exponent : Expr) : List Expr :=
  if base.isEuler then [exponent] else [base, exponent]

def powerCalls (base exponent : Expr) : List Expr :=
  match exponent, base with
  | .const k, base =>
      if k < 0 then productCalls (.pow base (.const k))
      else if k.num = 1 && !k.isInt then [base]
      else match base with
        | .app f a => if k.isInt && raisesHead f then [a] else raisedCalls base exponent
        | base => raisedCalls base exponent
  | exponent, base => raisedCalls base exponent

/-- The expressions whose texts the texts of an expression are laid out from. -/
def calls (e : Expr) : List Expr :=
  match e with
  | .add _ _ | .sub _ _ => e.terms.map fun term => (asSigned term).2
  | .mul _ _ | .div _ _ | .neg _ => productCalls e
  | .pow base exponent => powerCalls base exponent
  | .app .exp a => if a.isOne then [] else [a]
  | .app _ a => [a]
  | .var _ | .const _ | .pi | .infinity | .undefined => []

/-! The forms of a power. -/

def rootSign (degree : Nat) : String := if degree = 2 then "\\sqrt" else "\\sqrt[" ++ toString degree ++ "]"

/-- A power is written as a fraction, as a root, with its exponent on a head, or raised. -/
inductive PowerForm (base exponent : Expr) : Prop where
  | fraction (product : isProduct (.pow base exponent) = true)
      (called : powerCalls base exponent = productCalls (.pow base exponent))
      (text : ∀ write, powerLayout write base exponent = productLayout write (.pow base exponent))
  | root (degree : Nat) (called : powerCalls base exponent = [base])
      (text : ∀ write, powerLayout write base exponent = fun _ => rootSign degree ++ braced (write base 0))
  | head (f : Fn) (a : Expr) (k : Int) (same : base = .app f a) (called : powerCalls base exponent = [a])
      (text : ∀ write, powerLayout write base exponent = fun place => parenthesized (place > inPower)
        (command f ++ "^" ++ braced (toString k) ++ argument (write a 0)))
  | raised (called : powerCalls base exponent = raisedCalls base exponent)
      (text : ∀ write, powerLayout write base exponent = raisedLayout write base exponent)

theorem powerForm (base exponent : Expr) : PowerForm base exponent := by
  cases exponent with
  | const k =>
      by_cases negative : k < 0
      · exact .fraction (decide_eq_true negative) (if_pos negative) fun _ => funext fun _ => if_pos negative
      by_cases root : (k.num = 1 && !k.isInt) = true
      · exact .root k.den ((if_neg negative).trans (if_pos root))
          fun _ => funext fun _ => (if_neg negative).trans (if_pos root)
      cases base with
      | app f a =>
          have called : powerCalls (.app f a) (.const k) = if (k.isInt && raisesHead f) = true then [a] else _ :=
            (if_neg negative).trans (if_neg root)
          have text (write) (place) : powerLayout write (.app f a) (.const k) place =
              if (k.isInt && raisesHead f) = true then _ else _ := (if_neg negative).trans (if_neg root)
          by_cases head : (k.isInt && raisesHead f) = true
          · exact .head f a k.num rfl (called.trans (if_pos head)) fun write => funext fun place =>
              (text write place).trans (if_pos head)
          · exact .raised (called.trans (if_neg head)) fun write => funext fun place =>
              (text write place).trans (if_neg head)
      | _ => exact .raised ((if_neg negative).trans (if_neg root)) fun _ => funext fun _ =>
          (if_neg negative).trans (if_neg root)
  | _ => exact .raised rfl fun _ => rfl

/-! A layout looks at nothing but the texts of what is called. -/

theorem sumLayout_congr (agree : ∀ t ∈ e.terms, write (asSigned t).2 = other (asSigned t).2) :
    sumLayout write e = sumLayout other e := by
  rw [sumLayout_eq, sumLayout_eq]
  apply List.foldl_ext
  intro out t member
  rw [besideTerm, besideTerm, agree t ((Sorting.sortOn_perm _ _ _).mem_iff.mp member)]

theorem juxtaposed_congr (agree : ∀ c ∈ items, write c = other c) :
    juxtaposed write items = juxtaposed other items := by
  rw [juxtaposed_eq, juxtaposed_eq]
  apply List.foldl_ext
  intro out c member
  rw [besideFactor, besideFactor, agree c member]

theorem fractionPart_congr (agree : ∀ c ∈ items, write c = other c) :
    fractionPart write items = fractionPart other items := by
  match items with
  | [item] => exact congrFun (agree item List.mem_cons_self) 0
  | [] | _ :: _ :: _ => exact juxtaposed_congr agree

theorem productLayout_congr (agree : ∀ c ∈ productCalls e, write c = other c) :
    productLayout write e = productLayout other e := by
  obtain ⟨above, below⟩ := List.forall_mem_append.mp agree
  rcases productLayout_cases e with ⟨-, text⟩ | ⟨-, text⟩ | ⟨item, -, top, -, text⟩
  · rw [text, text, fractionPart_congr above, fractionPart_congr below]
  · rw [text, text, juxtaposed_congr above]
  · rw [text, text, above item (top ▸ List.mem_cons_self)]

theorem baseLayout_congr (agree : write b = other b) : baseLayout write b = baseLayout other b := by
  cases b with
  | app f a => cases f <;> simp only [baseLayout, agree]
  | _ => exact congrFun agree asAtom

theorem raisedLayout_congr (agree : ∀ c ∈ raisedCalls a b, write c = other c) :
    raisedLayout write a b = raisedLayout other a b := by
  funext n
  rw [raisedLayout, raisedLayout]
  rw [raisedCalls] at agree
  split at agree
  next euler => simp_all
  next => simp_all [baseLayout_congr (agree a (by simp))]

theorem powerLayout_congr (agree : ∀ c ∈ powerCalls a b, write c = other c) :
    powerLayout write a b = powerLayout other a b := by
  cases powerForm a b with
  | fraction product called text => rw [text, text, productLayout_congr (called ▸ agree)]
  | root degree called text => rw [text, text, agree a (by simp [called])]
  | head f x k same called text => rw [text, text, agree x (by simp [called])]
  | raised called text => rw [text, text, raisedLayout_congr (called ▸ agree)]

/-- Every head but the number `e` is written around its argument. -/
theorem argument_mem_calls {f : Fn} (other : ¬ (f = .exp ∧ a.isOne = true)) : a ∈ calls (.app f a) := by
  cases f <;> simp_all [calls]

/-- A level of layout is the same for writers that agree on what is called. -/
theorem layout_congr (agree : ∀ c ∈ calls e, write c = other c) : layout write e = layout other e := by
  have sum (agree : ∀ c ∈ e.terms.map fun term => (asSigned term).2, write c = other c) :
      sumLayout write e = sumLayout other e :=
    sumLayout_congr fun t member => agree _ (List.mem_map_of_mem member)
  funext place
  cases e with
  | add a b | sub a b => rw [layout, layout, sum agree]
  | mul a b | div a b | neg a => exact congrFun (productLayout_congr agree) place
  | pow a b => exact congrFun (powerLayout_congr agree) place
  | app f a =>
      by_cases euler : f = .exp ∧ a.isOne = true
      · obtain ⟨rfl, one⟩ := euler
        rw [layout, layout, if_pos one, if_pos one]
      · have same := agree a (argument_mem_calls euler)
        cases f <;> simp only [layout, same]
  | _ => rfl

/-! What is called takes fewer levels. -/

theorem le_levels (e : Expr) : 2 * e.size ≤ levels e := Nat.le_add_right _ _

theorem levels_product (product : isProduct e = true) : levels e = 2 * e.size + 1 := by
  rw [levels, product, Bool.toNat_true]

theorem mem_withNumber {n : Nat} {needed : Prop} [Decidable needed] (member : c ∈ withNumber n needed items) :
    c = .const n ∨ c ∈ items := by
  rw [withNumber] at member
  split at member
  next => exact List.mem_cons.mp member
  next => exact .inr member

/-- A fraction is written of its items and of the two numbers of its coefficient. -/
theorem mem_productCalls (member : c ∈ productCalls e) :
    (∃ n : Nat, c = .const n) ∨ c ∈ (Fraction.ofExpr false e).items := by
  rcases List.mem_append.mp member with above | below
  · rcases mem_withNumber above with number | item
    · exact .inl ⟨_, number⟩
    · exact .inr (List.mem_append_left _ ((Sorting.sortOn_perm _ _ _).mem_iff.mp item))
  · rcases mem_withNumber below with number | item
    · exact .inl ⟨_, number⟩
    · exact .inr (List.mem_append_right _ ((Sorting.sortOn_perm _ _ _).mem_iff.mp item))

theorem levels_le_of_mem_productCalls (member : c ∈ productCalls e) : levels c ≤ 2 * e.size := by
  rcases mem_productCalls member with ⟨n, rfl⟩ | member
  · have number : levels (.const n) = 2 := rfl
    have := e.size_pos
    omega
  · have item := item_of_mem member
    have := item.size
    rw [levels, item.single, Bool.toNat_false]
    omega

theorem mem_raisedCalls (member : c ∈ raisedCalls a b) : c = a ∨ c = b := by
  rw [raisedCalls] at member
  split at member
  next => exact .inr (List.mem_singleton.mp member)
  next => simpa using member

theorem levels_lt_of_mem_powerCalls (member : c ∈ powerCalls a b) : levels c < levels (.pow a b) := by
  have smaller (size : c.size ≤ a.size + b.size) : levels c < levels (.pow a b) := by
    have bound := levels_le c
    have whole := le_levels (.pow a b)
    simp only [Expr.size] at whole
    omega
  cases powerForm a b with
  | fraction product called text =>
      rw [levels_product product]
      exact Nat.lt_succ_of_le (levels_le_of_mem_productCalls (called ▸ member))
  | root degree called text =>
      rw [called] at member
      exact smaller (List.mem_singleton.mp member ▸ Nat.le_add_right _ _)
  | head f x k same called text =>
      rw [called] at member
      obtain rfl := List.mem_singleton.mp member
      have argument : c.size < a.size := by
        rw [same, Expr.size]
        omega
      exact smaller (by omega)
  | raised called text =>
      rw [called] at member
      rcases mem_raisedCalls member with rfl | rfl
      · exact smaller (Nat.le_add_right _ _)
      · exact smaller (Nat.le_add_left _ _)

theorem mem_calls_app {f : Fn} (member : c ∈ calls (.app f a)) : c = a := by
  by_cases euler : f = .exp ∧ a.isOne = true
  · obtain ⟨rfl, one⟩ := euler
    rw [calls, if_pos one] at member
    cases member
  · cases f <;> simp_all [calls]

/-- Whatever is called takes fewer levels of layout. -/
theorem levels_lt_of_mem_calls (member : c ∈ calls e) : levels c < levels e := by
  have bound := levels_le c
  have term (sum : e.isSum = true) (member : c ∈ e.terms.map fun term => (asSigned term).2) :
      levels c < levels e := by
    obtain ⟨t, listed, rfl⟩ := List.mem_map.mp member
    have smaller := size_lt_of_mem_terms sum listed
    have unsigned := size_asSigned_le t
    have whole := le_levels e
    omega
  have factor (product : isProduct e = true) (member : c ∈ productCalls e) : levels c < levels e := by
    rw [levels_product product]
    exact Nat.lt_succ_of_le (levels_le_of_mem_productCalls member)
  cases e with
  | add a b | sub a b => exact term rfl member
  | mul a b | div a b | neg a => exact factor rfl member
  | pow a b => exact levels_lt_of_mem_powerCalls member
  | app f a =>
      obtain rfl := mem_calls_app member
      have whole := le_levels (.app f c)
      simp only [Expr.size] at whole
      omega
  | _ => cases member

/-! The recursion. -/

/-- The recursion in full: the texts of an expression from the texts of all that is called. -/
inductive Renders : Expr → (Nat → String) → Prop where
  | level {e : Expr} (next : Expr → Nat → String) (called : ∀ c ∈ calls e, Renders c (next c)) :
      Renders e (layout next e)

theorem Renders.unique (h : Renders e place) (k : Renders e place') : place = place' := by
  induction h generalizing place' with
  | level next _ ih =>
      cases k with
      | level other called =>
          apply layout_congr
          intro c member
          exact ih c member (called c member)

/-- The recursion ends: every expression has its texts, within the levels that it takes. -/
theorem renders_writeWithin (enough : levels e ≤ depth) : Renders e (writeWithin depth e) := by
  induction depth generalizing e with
  | zero =>
      have := e.size_pos
      rw [levels] at enough
      omega
  | succ depth ih =>
      apply Renders.level
      intro c member
      have := levels_lt_of_mem_calls member
      exact ih (by omega)

end SymbolicAlgebra.Latex
