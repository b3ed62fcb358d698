import SymbolicAlgebra.Proofs.Arithmetic.Recursion
import SymbolicAlgebra.Proofs.Arithmetic.Sum

/-! Powers as factors of a product. A list of powers of different bases is what its
joined and raised powers come to; where two powers have one base, their exponents
are added. -/

namespace SymbolicAlgebra.Expr

variable {b e f : Expr} {l m items : List Expr} {q : Rat}

/-! An integer exponent other than zero and one is taken inside. -/

section Integer
variable (integer : e.isInteger = true) (ne_zero : e.isZero = false) (ne_one : e.isOne = false)
include integer ne_zero ne_one

theorem raise_special (b : Expr) {core : Expr} (determinate : b ≠ undefined) (b_ne : b.isOne = false) :
    (if b = undefined ∨ e = undefined then undefined
      else if e.isZero then one
      else if e.isOne then b
      else if b.isOne then one
      else core) = core := by
  have exponent : e ≠ undefined := by
    rintro rfl
    cases integer
  simp [determinate, exponent, ne_zero, ne_one, b_ne]

theorem raise_pow (b p : Expr) : (pow b p).raise e = b.raise (p.times e) := by
  rw [raise_eq, raiseWith, raise_special integer ne_zero ne_one (pow b p) (by simp) rfl, if_pos integer, ← raise_eq]

theorem raise_mul (a b : Expr) : (mul a b).raise e = (a.raise e).times (b.raise e) := by
  rw [raise_eq, raiseWith, raise_special integer ne_zero ne_one (mul a b) (by simp) rfl, if_pos integer,
    ← raise_eq, ← raise_eq]

theorem raise_neg (a : Expr) :
    (neg a).raise e = if e.isOddInteger then (a.raise e).negate else a.raise e := by
  rw [raise_eq, raiseWith, raise_special integer ne_zero ne_one (neg a) (by simp) rfl, if_pos integer, ← raise_eq]

end Integer

/-- Bases to which every rational exponent is put as it is. -/
def isBase : Expr → Bool
  | var _ | pi | add _ _ | sub _ _ => true
  | app f _ => f ≠ .exp
  | _ => false

theorem isBase_of_isSum (h : e.isSum = true) : e.isBase = true := by
  cases e <;> first | rfl | cases h

theorem isFactor_of_isBase (h : b.isBase = true) : b.isFactor = true := by
  cases b <;> first | rfl | cases h

theorem asPower_of_isBase (h : b.isBase = true) : b.asPower = (b, one) := by
  unfold asPower
  split
  next => cases h
  next => cases h
  next => rfl

theorem raise_of_isBase (h : b.isBase = true) (k : Rat) :
    b.raise (const k) = if k = 0 then one else if k = 1 then b else pow b (const k) := by
  have notUndefined : ¬ (b = undefined ∨ const k = undefined) := by
    rintro (rfl | same)
    · cases h
    · cases same
  have notOne := isOne_of_isAtomic (isAtomic_of_isFactor (isFactor_of_isBase h))
  unfold raise raiseWith
  rw [if_neg notUndefined, notOne]
  simp only [isZero, isOne, decide_eq_true_eq, Bool.false_eq_true, if_false]
  split
  next => rfl
  split
  next => rfl
  next =>
    cases b with
    | app f a => cases f <;> first | rfl | cases h
    | var _ | pi | add _ _ | sub _ _ => rfl
    | _ => cases h

/-- A factor that is the power of its base by its exponent. -/
structure IsPower (f : Expr) : Prop where
  factor : f.isFactor = true
  raised : f.asPower.1.raise f.asPower.2 = f

theorem isPower_of_isBase (h : b.isBase = true) : IsPower b where
  factor := isFactor_of_isBase h
  raised := by
    rw [asPower_of_isBase h]
    exact (raise_of_isBase h 1).trans (by simp)

theorem isPower_pow (h : b.isBase = true) (k_ne : q ≠ 0) (k_ne_one : q ≠ 1) :
    IsPower (pow b (const q)) where
  factor := rfl
  raised := (raise_of_isBase h q).trans (by rw [if_neg k_ne, if_neg k_ne_one])

theorem isPower_exp {name : String} : IsPower (app .exp (var name)) where
  factor := rfl
  raised := rfl

/-- Factors of which no two have the same base. -/
structure Independent (l : List Expr) : Prop where
  power : ∀ f ∈ l, IsPower f
  distinct : (l.map fun f => f.asPower.1).Nodup

namespace Independent

theorem factor (h : Independent l) : ∀ f ∈ l, f.isFactor = true :=
  fun f member => (h.power f member).factor

theorem perm (h : Independent l) (perm : l.Perm m) : Independent m where
  power f member := h.power f (perm.mem_iff.mpr member)
  distinct := (perm.map _).nodup_iff.mp h.distinct

end Independent

theorem joinPower_new {powers : List (Expr × Expr)} (new : b ∉ powers.map Prod.fst) :
    joinPower b e powers = powers ++ [(b, e)] := by
  induction powers with
  | nil => rfl
  | cons head rest ih =>
      obtain ⟨different, others⟩ : b ≠ head.1 ∧ b ∉ rest.map Prod.fst := by simpa using new
      rw [joinPower, if_neg (Ne.symm different), ih others]
      rfl

theorem joinPower_old {before after : List (Expr × Expr)} {e' : Expr}
    (new : b ∉ before.map Prod.fst) :
    joinPower b e (before ++ (b, e') :: after) = before ++ (b, e'.plus e) :: after := by
  induction before with
  | nil => rw [List.nil_append, joinPower, if_pos rfl]; rfl
  | cons head rest ih =>
      obtain ⟨different, others⟩ : b ≠ head.1 ∧ b ∉ rest.map Prod.fst := by simpa using new
      rw [List.cons_append, joinPower, if_neg (Ne.symm different), ih others]
      rfl

/-- Factors with new bases are listed one after the other. -/
theorem joined_new (powers : List (Expr × Expr))
    (distinct : (powers.map Prod.fst ++ l.map fun f => f.asPower.1).Nodup) :
    l.foldl (fun powers item => joinPower item.asPower.1 item.asPower.2 powers) powers =
      powers ++ l.map asPower := by
  induction l generalizing powers with
  | nil => simp
  | cons f rest ih =>
      have new : f.asPower.1 ∉ powers.map Prod.fst := by
        intro member
        exact (List.nodup_append.mp distinct).2.2 _ member _ List.mem_cons_self rfl
      rw [List.foldl_cons, joinPower_new new, ih _ (by simpa using distinct)]
      simp

theorem joinedPowers_of_distinct (distinct : (l.map fun f => f.asPower.1).Nodup) :
    joinedPowers l = l.map asPower := by
  have := joined_new [] (by simpa using distinct)
  simpa [joinedPowers] using this

/-- Of two factors with one base the exponents are added in the place of the first. -/
theorem joinedPowers_pair {s t u : List Expr} {f g : Expr} (same : g.asPower.1 = f.asPower.1)
    (distinct : ((f :: (s ++ t ++ u)).map fun f => f.asPower.1).Nodup) :
    joinedPowers (s ++ f :: t ++ g :: u) =
      s.map asPower ++ (f.asPower.1, f.asPower.2.plus g.asPower.2) :: t.map asPower ++
        u.map asPower := by
  have placed : ((s ++ f :: t ++ u).map fun f => f.asPower.1).Nodup := by
    have perm : (s ++ f :: t ++ u).Perm (f :: (s ++ t ++ u)) :=
      (show (s ++ f :: t).Perm (f :: (s ++ t)) from List.perm_middle).append_right u
    exact (perm.map _).nodup_iff.mpr distinct
  have first : ((s ++ f :: t).map fun f => f.asPower.1).Nodup := by
    rw [List.map_append] at placed
    exact (List.nodup_append.mp placed).1
  have new : f.asPower.1 ∉ (s.map asPower).map Prod.fst := by
    intro member
    rw [List.map_cons, List.nodup_cons] at distinct
    apply distinct.1
    simp only [List.map_append, List.mem_append, List.map_map] at member ⊢
    exact .inl (.inl member)
  have joined := joinedPowers_of_distinct first
  rw [joinedPowers] at joined ⊢
  rw [List.foldl_append, joined, List.foldl_cons, List.map_append, List.map_cons, same,
    show f.asPower = (f.asPower.1, f.asPower.2) from rfl, joinPower_old new, joined_new]
  simpa [Function.comp_def] using placed

/-- Where the members of a list stand of which two are known. -/
theorem exists_places {f g : Expr} (perm : items.Perm (f :: g :: l)) :
    ∃ s t u, (items = s ++ f :: t ++ g :: u ∨ items = s ++ g :: t ++ f :: u) ∧
      l.Perm (s ++ t ++ u) := by
  obtain ⟨before, after, rfl⟩ := List.append_of_mem (perm.mem_iff.mpr List.mem_cons_self)
  have rest : (before ++ after).Perm (g :: l) := (List.perm_middle.symm.trans perm).cons_inv
  rcases List.mem_append.mp (rest.mem_iff.mpr List.mem_cons_self) with early | late
  · obtain ⟨s, t, rfl⟩ := List.append_of_mem early
    refine ⟨s, t, after, .inr rfl, ?_⟩
    have moved : (s ++ g :: t ++ after).Perm (g :: (s ++ t ++ after)) :=
      (show (s ++ g :: t).Perm (g :: (s ++ t)) from List.perm_middle).append_right after
    exact (moved.symm.trans rest).cons_inv.symm
  · obtain ⟨t, u, rfl⟩ := List.append_of_mem late
    refine ⟨before, t, u, .inl (by simp), ?_⟩
    have moved : (before ++ (t ++ g :: u)).Perm (g :: (before ++ t ++ u)) := by
      rw [← List.append_assoc]
      exact List.perm_middle
    exact (moved.symm.trans rest).cons_inv.symm

theorem const_plus_const (p q : Rat) : (const p).plus (const q) = const (p + q) := by
  have key (r : Rat) : const r = collected [([], r)] := by
    rw [← isKey_nil.multiple_eq, multiple_nil]
  have terms (r : Rat) : Terms [([], r)] := List.forall_mem_singleton.mpr isKey_nil.toIsTerm
  rw [key, key, key, collected_plus (terms p) (terms q)]
  apply collected_congr ((terms p).append (terms q)) (terms (p + q))
  intro w
  simp [add_mul]

/-- The power of a base as a list of factors, empty for the exponent zero. -/
def powers (b : Expr) (k : Rat) : List Expr :=
  if k = 0 then [] else if k = 1 then [b] else [pow b (const k)]

theorem powers_zero (b : Expr) : powers b 0 = [] := rfl

theorem powers_one (b : Expr) : powers b 1 = [b] := rfl

theorem powers_ne_nil (k_ne : q ≠ 0) : powers b q ≠ [] := by
  rw [powers, if_neg k_ne]
  split <;> exact List.cons_ne_nil _ _

theorem exists_powers (base : b.isBase = true) (k_ne : q ≠ 0) :
    ∃ f, powers b q = [f] ∧ IsPower f ∧ f.asPower = (b, const q) := by
  by_cases one : q = 1
  · exact ⟨b, by rw [one, powers_one], isPower_of_isBase base, by rw [asPower_of_isBase base, one]; rfl⟩
  · exact ⟨pow b (const q), by rw [powers, if_neg k_ne, if_neg one], isPower_pow base k_ne one, rfl⟩

theorem powers_eq_raise (base : b.isBase = true) (k_ne : q ≠ 0) : powers b q = [b.raise (const q)] := by
  rw [powers, raise_of_isBase base, if_neg k_ne, if_neg k_ne]
  split <;> rfl

theorem isSum_powers_var {name : String} (member : f ∈ powers (var name) q) : f.isSum = false := by
  unfold powers at member
  split at member
  · cases member
  · split at member <;> rw [List.mem_singleton.mp member] <;> rfl

/-- The factors of a raised base, apart from a power that comes to the number one. -/
theorem raised_powers (base : b.isBase = true) (q : Rat) :
    [b.raise (const q)] = powers b q ++ (if q = 0 then [1] else []).map const := by
  rw [raise_of_isBase base, powers]
  split
  next => rfl
  split <;> rfl

namespace Independent

theorem raised (h : Independent l) : (l.map asPower).map (fun p => p.1.raise p.2) = l := by
  rw [List.map_map]
  conv_rhs => rw [← List.map_id l]
  apply List.map_congr_left
  exact fun f member => (h.power f member).raised

theorem left (h : Independent (l ++ m)) : Independent l where
  power f member := h.power f (List.mem_append_left m member)
  distinct := by
    have distinct := h.distinct
    rw [List.map_append] at distinct
    exact (List.nodup_append.mp distinct).1

theorem right (h : Independent (l ++ m)) : Independent m :=
  (h.perm List.perm_append_comm).left

end Independent

/-- What two powers of one base and powers of other bases come to. -/
theorem raised_shared {i j : Rat} {g : Expr} (f_power : f.asPower = (b, const i))
    (g_power : g.asPower = (b, const j)) (h : Independent l) (new : b ∉ l.map fun f => f.asPower.1)
    (perm : items.Perm (f :: g :: l)) :
    ((joinedPowers items).map fun p => p.1.raise p.2).Perm (b.raise (const (i + j)) :: l) := by
  obtain ⟨s, t, u, places, others⟩ := exists_places perm
  have distinct (head : Expr) (same : head.asPower.1 = b) :
      ((head :: (s ++ t ++ u)).map fun f => f.asPower.1).Nodup := by
    rw [List.map_cons, List.nodup_cons, same]
    refine ⟨fun member => new ?_, (h.perm others).distinct⟩
    exact (others.map _).mem_iff.mpr member
  have joined : joinedPowers items =
      s.map asPower ++ (b, const (i + j)) :: t.map asPower ++ u.map asPower := by
    rcases places with rfl | rfl
    · rw [joinedPowers_pair (by rw [f_power, g_power]) (distinct f (by rw [f_power])), f_power,
        g_power, const_plus_const]
    · rw [joinedPowers_pair (by rw [f_power, g_power]) (distinct g (by rw [g_power])), f_power,
        g_power, const_plus_const, add_comm]
  have raised := (h.perm others).raised
  rw [List.map_append, List.map_append, List.map_append, List.map_append] at raised
  rw [joined, List.map_append, List.map_append, List.map_cons]
  refine List.Perm.trans ?_ (others.symm.cons _)
  rw [← raised]
  exact List.perm_middle.append_right _

theorem isFactor_powers (base : b.isBase = true) (k : Rat) : ∀ f ∈ powers b k, f.isFactor = true := by
  by_cases k_ne : k = 0
  · rw [k_ne, powers_zero]
    exact List.forall_mem_nil _
  · obtain ⟨f, same, power, -⟩ := exists_powers base k_ne
    rw [same]
    exact List.forall_mem_singleton.mpr power.factor

/-- A power of a new base among powers of other bases. -/
theorem Independent.powers (base : b.isBase = true) (h : Independent l)
    (new : b ∉ l.map fun f => f.asPower.1) (k : Rat) : Independent (powers b k ++ l) := by
  by_cases k_ne : k = 0
  · rwa [k_ne, powers_zero]
  · obtain ⟨f, same, power, as_power⟩ := exists_powers base k_ne
    rw [same]
    refine ⟨List.forall_mem_cons.mpr ⟨power, h.power⟩, ?_⟩
    rw [List.singleton_append, List.map_cons, List.nodup_cons, as_power]
    exact ⟨new, h.distinct⟩

end SymbolicAlgebra.Expr
