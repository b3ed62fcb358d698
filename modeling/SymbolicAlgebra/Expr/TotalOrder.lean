import SymbolicAlgebra.Expr.Order

/-! The order of expressions is total, and only equal expressions compare as equal.
Expressions of different forms compare by rank, so each law is shown within one
form and carried across forms by the ranks. -/

namespace SymbolicAlgebra

theorem compareName_eq {a b : String} : compareOfLessAndEq a b = .eq ↔ a = b :=
  compareOfLessAndEq_eq_eq String.le_refl String.not_le

theorem compareValue_eq {p q : Rat} : compareOfLessAndEq p q = .eq ↔ p = q :=
  compareOfLessAndEq_eq_eq (fun _ => Rat.le_refl) Rat.not_le

theorem compareRank_eq {m n : Nat} : compareOfLessAndEq m n = .eq ↔ m = n :=
  compareOfLessAndEq_eq_eq Nat.le_refl Nat.not_le

theorem compareName_swap (a b : String) : compareOfLessAndEq a b = (compareOfLessAndEq b a).swap :=
  compareOfLessAndEq_eq_swap String.le_antisymm String.le_total String.not_le

theorem compareValue_swap (p q : Rat) : compareOfLessAndEq p q = (compareOfLessAndEq q p).swap :=
  compareOfLessAndEq_eq_swap Rat.le_antisymm (fun _ _ => Rat.le_total) Rat.not_le

theorem compareRank_swap (m n : Nat) : compareOfLessAndEq m n = (compareOfLessAndEq n m).swap :=
  compareOfLessAndEq_eq_swap Nat.le_antisymm Nat.le_total Nat.not_le

namespace Expr

theorem cmp_of_rank_ne {a b : Expr} (h : a.rank ≠ b.rank) :
    a.cmp b = compareOfLessAndEq a.rank b.rank := by
  cases a <;> cases b <;> first | rfl | exact absurd rfl h

theorem rank_eq_of_cmp {a b : Expr} (h : a.cmp b = .eq) : a.rank = b.rank := by
  by_cases same : a.rank = b.rank
  · exact same
  · rwa [cmp_of_rank_ne same, compareRank_eq] at h

theorem eq_of_cmp {a b : Expr} (h : a.cmp b = .eq) : a = b := by
  have same := rank_eq_of_cmp h
  induction a generalizing b with
  | app f a ih =>
      cases b with
      | app g b =>
          obtain ⟨heads, args⟩ := Ordering.then_eq_eq.mp h
          rw [Fn.rank_inj (compareRank_eq.mp heads), ih args (rank_eq_of_cmp args)]
      | _ => cases same
  | neg a ih =>
      cases b with
      | neg b => rw [ih h (rank_eq_of_cmp h)]
      | _ => cases same
  | var a =>
      cases b with
      | var b => rw [compareName_eq.mp h]
      | _ => cases same
  | const p =>
      cases b with
      | const q => rw [compareValue_eq.mp h]
      | _ => cases same
  | pi | infinity | undefined => cases b <;> first | rfl | cases same
  | add a c iha ihc | sub a c iha ihc | mul a c iha ihc | div a c iha ihc | pow a c iha ihc =>
      cases b <;> first
        | cases same; done
        | obtain ⟨left, right⟩ := Ordering.then_eq_eq.mp h
          rw [iha left (rank_eq_of_cmp left), ihc right (rank_eq_of_cmp right)]

@[simp] theorem cmp_self (a : Expr) : a.cmp a = .eq := by
  induction a with
  | var a => exact compareName_eq.mpr rfl
  | const q => exact compareValue_eq.mpr rfl
  | pi | infinity | undefined => exact compareRank_eq.mpr rfl
  | neg a ih => exact ih
  | app f a ih => exact Ordering.then_eq_eq.mpr ⟨compareRank_eq.mpr rfl, ih⟩
  | add a b iha ihb | sub a b iha ihb | mul a b iha ihb | div a b iha ihb | pow a b iha ihb =>
      exact Ordering.then_eq_eq.mpr ⟨iha, ihb⟩

theorem lex_swap {o o' p p' : Ordering} (first : o = o'.swap) (second : p = p'.swap) :
    o.then p = (o'.then p').swap := by
  rw [first, second, Ordering.swap_then]

theorem cmp_swap_of_rank_ne {a b : Expr} (h : a.rank ≠ b.rank) : a.cmp b = (b.cmp a).swap := by
  rw [cmp_of_rank_ne h, cmp_of_rank_ne (Ne.symm h), compareRank_swap]

theorem cmp_swap (a b : Expr) : a.cmp b = (b.cmp a).swap := by
  induction a generalizing b with
  | var a =>
      cases b with
      | var b => exact compareName_swap a b
      | _ => exact cmp_swap_of_rank_ne (by simp [rank])
  | const p =>
      cases b with
      | const q => exact compareValue_swap p q
      | _ => exact cmp_swap_of_rank_ne (by simp [rank])
  | pi | infinity | undefined => cases b <;> rfl
  | neg a ih =>
      cases b with
      | neg b => exact ih b
      | _ => exact cmp_swap_of_rank_ne (by simp [rank])
  | app f a ih =>
      cases b with
      | app g b =>
          exact lex_swap (compareRank_swap f.rank g.rank) (ih b)
      | _ => exact cmp_swap_of_rank_ne (by simp [rank])
  | add a c iha ihc | sub a c iha ihc | mul a c iha ihc | div a c iha ihc | pow a c iha ihc =>
      cases b <;> first
        | exact lex_swap (iha _) (ihc _)
        | exact cmp_swap_of_rank_ne (by simp [rank])

theorem rank_le_of_cmp {a b : Expr} (h : a.cmp b = .lt) : a.rank ≤ b.rank := by
  by_cases same : a.rank = b.rank
  · exact Nat.le_of_eq same
  · rw [cmp_of_rank_ne same, compareOfLessAndEq_eq_lt] at h
    exact Nat.le_of_lt h

/-- Pairs in lexicographic order: the first parts decide unless they are equal. -/
theorem lex_lt_trans {o₁ o₂ o₃ p₁ p₂ p₃ : Ordering}
    (first : o₁ = .lt → o₂ = .lt → o₃ = .lt) (left : o₁ = .eq → o₃ = o₂) (right : o₂ = .eq → o₃ = o₁)
    (second : p₁ = .lt → p₂ = .lt → p₃ = .lt) (h : o₁.then p₁ = .lt) (k : o₂.then p₂ = .lt) :
    o₃.then p₃ = .lt := by
  rw [Ordering.then_eq_lt] at *
  rcases h with h | ⟨h, h'⟩
  · rcases k with k | ⟨k, -⟩
    · exact .inl (first h k)
    · exact .inl (right k ▸ h)
  · rcases k with k | ⟨k, k'⟩
    · exact .inl (left h ▸ k)
    · exact .inr ⟨left h ▸ k, second h' k'⟩

theorem lt_of_rank_ne {a b c : Expr} (h : a.cmp b = .lt) (k : b.cmp c = .lt)
    (outer : a.rank ≠ c.rank) : a.cmp c = .lt := by
  have := rank_le_of_cmp h
  have := rank_le_of_cmp k
  rw [cmp_of_rank_ne outer, compareOfLessAndEq_eq_lt]
  omega

theorem rank_eq_between {a b c : Expr} (h : a.cmp b = .lt) (k : b.cmp c = .lt)
    (outer : a.rank = c.rank) : a.rank = b.rank := by
  have := rank_le_of_cmp h
  have := rank_le_of_cmp k
  omega

/-- Transitivity need only be shown within one form. -/
theorem trans_of_same {a b c : Expr}
    (same : a.cmp b = .lt → b.cmp c = .lt → a.rank = c.rank → a.rank = b.rank → a.cmp c = .lt)
    (h : a.cmp b = .lt) (k : b.cmp c = .lt) : a.cmp c = .lt := by
  by_cases outer : a.rank = c.rank
  · exact same h k outer (rank_eq_between h k outer)
  · exact lt_of_rank_ne h k outer

theorem cmp_lt_trans_of_rank {a b c : Expr} (h : a.cmp b = .lt) (k : b.cmp c = .lt)
    (outer : a.rank = c.rank) (inner : a.rank = b.rank) : a.cmp c = .lt := by
  induction a generalizing b c with
  | var x =>
      cases b with
      | var y =>
          cases c with
          | var z =>
              have h := compareOfLessAndEq_eq_lt.mp h
              have k := compareOfLessAndEq_eq_lt.mp k
              exact compareOfLessAndEq_eq_lt.mpr (String.lt_trans h k)
          | _ => cases outer
      | _ => cases inner
  | const p =>
      cases b with
      | const q =>
          cases c with
          | const r =>
              have h := compareOfLessAndEq_eq_lt.mp h
              have k := compareOfLessAndEq_eq_lt.mp k
              refine compareOfLessAndEq_eq_lt.mpr (Rat.lt_of_le_of_ne ?_ fun same => ?_)
              · exact Rat.le_trans (Rat.le_of_lt h) (Rat.le_of_lt k)
              · exact Rat.not_le.mpr h (same ▸ Rat.le_of_lt k)
          | _ => cases outer
      | _ => cases inner
  | pi | infinity | undefined =>
      cases b <;> first | cases inner; done | cases h
  | neg a ih =>
      cases b with
      | neg b =>
          cases c with
          | neg c => exact trans_of_same (a := a) ih h k
          | _ => cases outer
      | _ => cases inner
  | app f a ih =>
      cases b with
      | app g b =>
          cases c with
          | app r c =>
              refine lex_lt_trans (fun h k => ?_) (fun e => by rw [compareRank_eq.mp e])
                (fun e => by rw [compareRank_eq.mp e]) (trans_of_same ih) h k
              rw [compareOfLessAndEq_eq_lt] at *
              omega
          | _ => cases outer
      | _ => cases inner
  | add a a' ih ih' | sub a a' ih ih' | mul a a' ih ih' | div a a' ih ih' | pow a a' ih ih' =>
      cases b <;> first | cases inner; done | skip
      cases c <;> first | cases outer; done | skip
      exact lex_lt_trans (trans_of_same ih) (fun e => by rw [eq_of_cmp e])
        (fun e => by rw [eq_of_cmp e]) (trans_of_same ih') h k

theorem cmp_lt_trans {a b c : Expr} : a.cmp b = .lt → b.cmp c = .lt → a.cmp c = .lt :=
  trans_of_same cmp_lt_trans_of_rank

instance : Std.LawfulEqCmp cmp where
  compare_self := cmp_self _
  eq_of_compare := eq_of_cmp

instance : Std.TransCmp cmp where
  eq_swap := cmp_swap _ _
  isLE_trans h k := by
    rw [Ordering.isLE_iff_eq_lt_or_eq_eq] at *
    rcases h with h | h
    · rcases k with k | k
      · exact .inl (cmp_lt_trans h k)
      · exact .inl (eq_of_cmp k ▸ h)
    · exact eq_of_cmp h ▸ k

end Expr
end SymbolicAlgebra
