import SymbolicAlgebra.DefiniteIntegral
import SymbolicAlgebra.Proofs.Rendering.Latex.Brackets
import SymbolicAlgebra.Proofs.Rendering.Latex.Recursion

/-! Every LaTeX text is well nested if the names of the variables are words. A level of
layout closes what it opens if the texts of all that is called do, and what is called has no
other names; so it holds of all levels, and of the integral that is put together from three
texts. -/

namespace SymbolicAlgebra.Latex
open SymbolicAlgebra.Expr

variable {write : Expr → Nat → String} {a b c e : Expr} {items : List Expr} {out text : String}
variable {place : Nat → String}

/-- All variables have names of letters, digits and underscores. -/
def NamedByWords (e : Expr) : Prop := ∀ name ∈ e.names, IsWord name.toList

instance (e : Expr) : Decidable (NamedByWords e) :=
  inferInstanceAs (Decidable (∀ name ∈ e.names, IsWord name.toList))

theorem namedByWords_operands {names : List String} (same : names = a.names ++ b.names) :
    (∀ name ∈ names, IsWord name.toList) ↔ NamedByWords a ∧ NamedByWords b := by
  rw [same]
  exact List.forall_mem_append

theorem handedOn_namedByWords : HandedOn NamedByWords where
  const _ := nofun
  add_parts := (namedByWords_operands rfl).mp
  sub_parts := (namedByWords_operands rfl).mp
  mul := namedByWords_operands rfl
  neg_part := id
  signed _ := id
  div := namedByWords_operands rfl
  base h := ((namedByWords_operands rfl).mp h).1
  opposite := id

theorem NamedByWords.of_mem_productCalls (h : NamedByWords e) (member : c ∈ productCalls e) :
    NamedByWords c := by
  rcases mem_productCalls member with ⟨n, rfl⟩ | item
  · exact handedOn_namedByWords.const n
  · exact (item_of_mem item).inherits handedOn_namedByWords h

theorem NamedByWords.of_mem_powerCalls (h : NamedByWords (.pow a b)) (member : c ∈ powerCalls a b) :
    NamedByWords c := by
  obtain ⟨base, exponent⟩ := (namedByWords_operands rfl).mp h
  cases powerForm a b with
  | fraction product called text => exact h.of_mem_productCalls (called ▸ member)
  | root degree called text =>
      rw [called] at member
      exact List.mem_singleton.mp member ▸ base
  | head f x k same called text =>
      rw [called] at member
      obtain rfl := List.mem_singleton.mp member
      rwa [same] at base
  | raised called text =>
      rw [called] at member
      rcases mem_raisedCalls member with rfl | rfl
      · exact base
      · exact exponent

/-- What is called has no other names. -/
theorem NamedByWords.of_mem_calls (h : NamedByWords e) (member : c ∈ calls e) : NamedByWords c := by
  have term (member : c ∈ e.terms.map fun term => (asSigned term).2) : NamedByWords c := by
    obtain ⟨t, listed, rfl⟩ := List.mem_map.mp member
    exact handedOn_namedByWords.asSigned (handedOn_namedByWords.terms h t listed)
  cases e with
  | add a b | sub a b => exact term member
  | mul a b | div a b | neg a => exact h.of_mem_productCalls member
  | pow a b => exact h.of_mem_powerCalls member
  | app f a => exact mem_calls_app member ▸ h
  | _ => cases member

/-! Layouts, given that the texts of all that is called are closed. -/

/-- The writer closes what it opens, in every place. -/
def WritesClosed (write : Expr → Nat → String) (e : Expr) : Prop := ∀ n, Closed (write e n)

theorem closed_empty : Closed "" := closed_of_marks rfl nofun

theorem closed_besideFactor (h : Closed out) (factor : WritesClosed write c) :
    Closed (besideFactor write out c) := by
  have blank : Separates " " := by constructor <;> decide
  have dot : Separates " \\cdot " := by constructor <;> decide
  simp only [besideFactor]
  split
  next => exact factor inProduct
  split
  next => exact h.joined (factor inProduct) dot
  next => exact h.joined (factor inProduct) blank

theorem closed_juxtaposed (factors : ∀ c ∈ items, WritesClosed write c) :
    Closed (juxtaposed write items) := by
  rw [juxtaposed_eq]
  exact List.foldlRecOn items _ closed_empty fun _ h c member => closed_besideFactor h (factors c member)

theorem closed_besideTerm (h : Closed out) (term : WritesClosed write (asSigned c).2) :
    Closed (besideTerm write out c) := by
  have plus : Separates " + " := by constructor <;> decide
  have minus : Separates " - " := by constructor <;> decide
  simp only [besideTerm]
  split
  next =>
    split
    next => exact (term inSum).negated
    next => exact term inSum
  split
  next => exact h.joined (term inSum) minus
  next => exact h.joined (term inSum) plus

theorem closed_sumLayout (terms : ∀ t ∈ e.terms, WritesClosed write (asSigned t).2) :
    Closed (sumLayout write e) := by
  rw [sumLayout_eq]
  refine List.foldlRecOn _ _ closed_empty fun _ h t member => closed_besideTerm h ?_
  exact terms t ((Sorting.sortOn_perm _ _ _).mem_iff.mp member)

theorem closed_fractionPart (factors : ∀ c ∈ items, WritesClosed write c) :
    Closed (fractionPart write items) := by
  match items with
  | [item] => exact factors item List.mem_cons_self 0
  | [] | _ :: _ :: _ => exact closed_juxtaposed factors

theorem closed_signedText (h : Closed text) (q : Rat) (n : Nat) : Closed (signedText q text n) := by
  rw [signedText]
  split
  next => exact h.negated.parenthesized _
  next => exact h.parenthesized _

theorem closed_productLayout (called : ∀ c ∈ productCalls e, WritesClosed write c) (n : Nat) :
    Closed (productLayout write e n) := by
  obtain ⟨above, below⟩ := List.forall_mem_append.mp called
  rcases productLayout_cases e with ⟨-, text⟩ | ⟨-, text⟩ | ⟨item, -, top, -, text⟩
  · rw [text]
    exact closed_signedText (closed_fraction (closed_fractionPart above) (closed_fractionPart below)) _ n
  · rw [text]
    exact closed_signedText (closed_juxtaposed above) _ n
  · rw [text]
    exact above item (top ▸ List.mem_cons_self) n

theorem closed_baseLayout (base : WritesClosed write b) : Closed (baseLayout write b) := by
  unfold baseLayout
  split
  next => exact base asAtom
  next => exact (base 0).enclosed encloses_parentheses
  next => exact base asAtom

theorem closed_raisedLayout (called : ∀ c ∈ raisedCalls a b, WritesClosed write c) (n : Nat) :
    Closed (raisedLayout write a b n) := by
  rw [raisedCalls] at called
  rw [raisedLayout]
  refine Closed.parenthesized (Closed.raised ?_ ?_) _
  · split
    next => exact closed_of_marks (by decide) (by decide)
    next other =>
      rw [if_neg other] at called
      exact closed_baseLayout (called a List.mem_cons_self)
  · split at called
    next => exact called b List.mem_cons_self 0
    next => exact called b (List.mem_cons_of_mem _ List.mem_cons_self) 0

theorem closed_rootSign (degree : Nat) : Closed (rootSign degree) := by
  have root : Closed "\\sqrt[" := closed_of_marks (by decide) (by decide)
  have bracket : Closed "]" := closed_of_marks (by decide) (by decide)
  rw [rootSign]
  split
  next => exact closed_of_marks (by decide) (by decide)
  next => exact (root.append (closed_nat degree) (.inl (by decide))).append bracket (.inr (by decide))

theorem closed_powerLayout (called : ∀ c ∈ powerCalls a b, WritesClosed write c) (n : Nat) :
    Closed (powerLayout write a b n) := by
  cases powerForm a b with
  | fraction product same text =>
      rw [text]
      exact closed_productLayout (same ▸ called) n
  | root degree same text =>
      rw [text]
      exact (closed_rootSign degree).append_braced (called a (same ▸ List.mem_cons_self) 0)
  | head f x k _ same text =>
      have argument := called x (same ▸ List.mem_cons_self) 0
      rw [text]
      exact (((closed_command f).raised (closed_int k)).applied argument).parenthesized _
  | raised same text =>
      rw [text]
      exact closed_raisedLayout (same ▸ called) n

theorem closed_headLayout {f : Fn} (called : ∀ c ∈ calls (.app f a), WritesClosed write c) (n : Nat) :
    Closed (layout write (.app f a) n) := by
  have euler : Closed "e" := closed_of_marks (by decide) (by decide)
  by_cases alone : f = .exp ∧ a.isOne = true
  · obtain ⟨rfl, one⟩ := alone
    rw [layout, if_pos one]
    exact euler
  · have argument := called a (argument_mem_calls alone) 0
    cases f with
    | exp =>
        rw [layout, if_neg fun one => alone ⟨rfl, one⟩]
        exact (euler.raised argument).parenthesized _
    | abs => exact argument.braced.enclosed encloses_bars
    | _ => exact (closed_command _).applied argument

/-- One level of layout. -/
theorem closed_layout (words : NamedByWords e) (called : ∀ c ∈ calls e, WritesClosed write c) :
    WritesClosed (layout write) e := by
  intro n
  have pi : Closed "\\pi" := closed_of_marks (by decide) (by decide)
  have infinity : Closed "\\infty" := closed_of_marks (by decide) (by decide)
  have text : Closed "\\text" := closed_of_marks (by decide) (by decide)
  have name : Closed "NaN" := closed_of_marks (by decide) (by decide)
  have sum (called : ∀ c ∈ e.terms.map fun term => (asSigned term).2, WritesClosed write c) :
      Closed (parenthesized (n > inSum) (sumLayout write e)) :=
    (closed_sumLayout fun t member => called _ (List.mem_map_of_mem member)).parenthesized _
  cases e with
  | var name => exact closed_symbolOf (words name List.mem_cons_self)
  | const q => exact closed_rational q n
  | pi => exact pi
  | infinity => exact infinity
  | undefined => exact text.append_braced name
  | add a b => exact sum called
  | sub a b => exact sum called
  | mul a b | div a b | neg a => exact closed_productLayout called n
  | pow a b => exact closed_powerLayout called n
  | app f a => exact closed_headLayout called n

/-- All levels of layout. -/
theorem Renders.closed (h : Renders e place) (words : NamedByWords e) (n : Nat) : Closed (place n) := by
  induction h generalizing n with
  | level next _ ih =>
      exact closed_layout words (fun c member m => ih c member (words.of_mem_calls member) m) n

theorem closed_latex (words : NamedByWords e) : Closed e.latex :=
  (renders_writeWithin (levels_le e)).closed words 0

theorem closed_template {lower upper integrand symbol : String} (hl : Closed lower) (hu : Closed upper)
    (hi : Closed integrand) (hs : Closed symbol) :
    Closed (DefiniteIntegral.template lower upper integrand symbol) := by
  have sign : Closed "\\int_" := closed_of_marks (by decide) (by decide)
  have blank : Separates " " := by constructor <;> decide
  have upright : Closed " \\mathrm" := closed_of_marks (by decide) (by decide)
  have d : Closed "d" := closed_of_marks (by decide) (by decide)
  have whole := ((sign.append_braced hl).raised hu).joined hi blank
  have differential := (whole.append upright (.inr (by decide))).append_braced d
  refine differential.append hs (.inl ?_)
  rw [getLast?_append_braced]
  rfl

/-- The recursion of the rendering ends, as whatever is called takes fewer levels, and the
text is well nested, also that of an integral. -/
theorem rendering_ends_well_nested :
    (∀ e c, c ∈ calls e → levels c < levels e) ∧
    (∀ e, ∃ place, Renders e place ∧ (∀ other, Renders e other → other = place) ∧ e.latex = place 0) ∧
    (∀ e, NamedByWords e → WellNested e.latex) ∧
    ∀ i : DefiniteIntegral, NamedByWords i.lower → NamedByWords i.upper → NamedByWords i.integrand →
      IsWord i.symbol.toList → WellNested i.latex := by
  refine ⟨fun e c => levels_lt_of_mem_calls, fun e => ?_, fun e words => (closed_latex words).wellNested,
    fun i lower upper integrand symbol => ?_⟩
  · have ends := renders_writeWithin (levels_le e)
    exact ⟨_, ends, fun other renders => renders.unique ends, rfl⟩
  · have word : Closed i.symbol := String.ofList_toList (s := i.symbol) ▸ closed_word symbol
    exact (closed_template (closed_latex lower) (closed_latex upper) (closed_latex integrand) word).wellNested

/-- The integral over `x_1` of `sin(alpha) - (x_1 + 1)**(-1/2)*x_1**(-2) - abs(-3*x_1)`. -/
theorem integral_of_fractions_ends_well_nested :
    let x : Expr := .var "x_1"
    let fraction : Expr := .mul (.pow (.add x (.const 1)) (.const (-1/2))) (.pow x (.const (-2)))
    let i : DefiniteIntegral :=
      ⟨.neg .infinity, .div .pi (.const 3),
        .sub (.sub (.app .sin (.var "alpha")) fraction) (.app .abs (.neg (.mul (.const 3) x))), "x_1"⟩
    WellNested i.latex ∧ ∃ place, Renders i.integrand place ∧ i.integrand.latex = place 0 := by
  intro x fraction i
  obtain ⟨-, ends, -, nested⟩ := rendering_ends_well_nested
  obtain ⟨place, renders, -, text⟩ := ends i.integrand
  exact ⟨nested i (by decide) (by decide) (by decide) (by decide), place, renders, text⟩

end SymbolicAlgebra.Latex
