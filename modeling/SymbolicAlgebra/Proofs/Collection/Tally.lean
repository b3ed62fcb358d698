import Mathlib.Algebra.BigOperators.Group.List.Basic
import Mathlib.Data.Rat.Cast.CharZero
import Mathlib.Tactic.Ring
import SymbolicAlgebra.Collection.Tally

/-! Tallies over a lawful order keep their keys strictly ascending, so a key has
one total. The laws of `add` are stated for the total of a key and for the sum of
all totals, each weighted by its key. -/

namespace SymbolicAlgebra.Tally

variable {κ : Type} {cmp : κ → κ → Ordering}

def Ascending (cmp : κ → κ → Ordering) (t : Tally κ) : Prop :=
  t.Pairwise fun s u => cmp s.1 u.1 = .lt

/-- What holds of the entries, of the new one and of a total that it is added to. -/
theorem forall_mem_add {R : κ × Rat → Prop} {key : κ} {q : Rat} {t : Tally κ} (new : R (key, q))
    (joined : ∀ entry ∈ t, cmp key entry.1 = .eq → R (entry.1, entry.2 + q)) (h : ∀ entry ∈ t, R entry) :
    ∀ entry ∈ add cmp key q t, R entry := by
  induction t with
  | nil => exact List.forall_mem_singleton.mpr new
  | cons head rest ih =>
      obtain ⟨first, others⟩ := List.forall_mem_cons.mp h
      obtain ⟨firstJoined, othersJoined⟩ := List.forall_mem_cons.mp joined
      simp only [add]
      split
      next => exact List.forall_mem_cons.mpr ⟨new, h⟩
      next same => exact List.forall_mem_cons.mpr ⟨firstJoined same, others⟩
      next => exact List.forall_mem_cons.mpr ⟨first, ih othersJoined others⟩

theorem key_of_mem_add {key : κ} {q : Rat} {t : Tally κ} {entry : κ × Rat}
    (member : entry ∈ add cmp key q t) : entry.1 = key ∨ ∃ r, (entry.1, r) ∈ t := by
  refine forall_mem_add (R := fun entry => entry.1 = key ∨ ∃ r, (entry.1, r) ∈ t) ?_ ?_ ?_ entry member
  · exact .inl rfl
  · exact fun entry present _ => .inr ⟨entry.2, present⟩
  · exact fun entry present => .inr ⟨entry.2, present⟩

theorem key_of_mem_ofList {amounts : List (κ × Rat)} {entry : κ × Rat}
    (member : entry ∈ ofList cmp amounts) : ∃ r, (entry.1, r) ∈ amounts := by
  induction amounts generalizing entry with
  | nil => cases member
  | cons head rest ih =>
      rcases key_of_mem_add member with same | ⟨r, present⟩
      · exact ⟨head.2, by rw [same]; exact .head _⟩
      · obtain ⟨s, listed⟩ := ih present
        exact ⟨s, .tail _ listed⟩

theorem mem_of_find? [DecidableEq κ] {key : κ} {q : Rat} {t : Tally κ}
    (found : find? key t = some q) : (key, q) ∈ t := by
  induction t with
  | nil => cases found
  | cons head rest ih =>
      simp only [find?] at found
      split at found
      next same =>
        cases found
        exact same ▸ .head _
      next => exact .tail _ (ih found)

theorem ne_of_find?_eq_none [DecidableEq κ] {key : κ} {t : Tally κ} (missing : find? key t = none) :
    ∀ entry ∈ t, entry.1 ≠ key := by
  induction t with
  | nil => exact List.forall_mem_nil _
  | cons head rest ih =>
      simp only [find?] at missing
      split at missing
      next => cases missing
      next different => exact List.forall_mem_cons.mpr ⟨different, ih missing⟩

theorem ofList_of_ascending {t : Tally κ} (ascending : Ascending cmp t) : ofList cmp t = t := by
  induction t with
  | nil => rfl
  | cons head rest ih =>
      obtain ⟨least, sorted⟩ := List.pairwise_cons.mp ascending
      change add cmp head.1 head.2 (ofList cmp rest) = head :: rest
      rw [ih sorted]
      cases rest with
      | nil => rfl
      | cons next others => simp [add, least next List.mem_cons_self]

/-- An amount under a new key is one more entry. -/
theorem add_perm_of_new [Std.LawfulEqCmp cmp] {key : κ} {q : Rat} {t : Tally κ}
    (new : ∀ entry ∈ t, entry.1 ≠ key) : (add cmp key q t).Perm ((key, q) :: t) := by
  induction t with
  | nil => exact .refl _
  | cons head rest ih =>
      obtain ⟨different, others⟩ := List.forall_mem_cons.mp new
      simp only [add]
      split
      · exact .refl _
      next same => exact absurd (Std.LawfulEqCmp.eq_of_compare same).symm different
      next => exact ((ih others).cons head).trans (.swap _ _ _)

/-- Positive amounts leave positive totals. -/
theorem pos_of_mem_add {key : κ} {q : Rat} {t : Tally κ} (pos : 0 < q) (positive : ∀ entry ∈ t, 0 < entry.2) :
    ∀ entry ∈ add cmp key q t, 0 < entry.2 :=
  forall_mem_add pos (fun entry member _ => add_pos (positive entry member) pos) positive

theorem pos_of_mem_ofList {amounts : List (κ × Rat)} (positive : ∀ entry ∈ amounts, 0 < entry.2) :
    ∀ entry ∈ ofList cmp amounts, 0 < entry.2 := by
  induction amounts with
  | nil => exact List.forall_mem_nil _
  | cons head rest ih =>
      obtain ⟨first, others⟩ := List.forall_mem_cons.mp positive
      exact pos_of_mem_add first (ih others)

/-- Amounts under different keys are the entries. -/
theorem ofList_perm [Std.LawfulEqCmp cmp] {amounts : List (κ × Rat)}
    (distinct : (amounts.map Prod.fst).Nodup) : (ofList cmp amounts).Perm amounts := by
  induction amounts with
  | nil => exact .refl _
  | cons head rest ih =>
      obtain ⟨new, others⟩ := List.nodup_cons.mp distinct
      refine (add_perm_of_new ?_).trans ((ih others).cons head)
      intro entry member same
      obtain ⟨r, listed⟩ := key_of_mem_ofList member
      exact new (List.mem_map.mpr ⟨(entry.1, r), listed, same⟩)

section Order
variable [Std.TransCmp cmp]

theorem add_ascending (key : κ) (q : Rat) {t : Tally κ} (ascending : Ascending cmp t) :
    Ascending cmp (add cmp key q t) := by
  induction t with
  | nil => exact List.pairwise_singleton _ _
  | cons head rest ih =>
      obtain ⟨least, sorted⟩ := List.pairwise_cons.mp ascending
      simp only [add]
      split
      next below =>
        refine List.pairwise_cons.mpr ⟨fun entry member => ?_, ascending⟩
        rcases List.mem_cons.mp member with rfl | member
        · exact below
        · exact Std.TransCmp.lt_trans below (least entry member)
      next => exact List.pairwise_cons.mpr ⟨least, sorted⟩
      next above =>
        refine List.pairwise_cons.mpr ⟨fun entry member => ?_, ih sorted⟩
        rcases key_of_mem_add member with same | ⟨r, present⟩
        · rw [same]
          exact Std.OrientedCmp.lt_of_gt above
        · exact least (entry.1, r) present

theorem ofList_ascending (amounts : List (κ × Rat)) : Ascending cmp (ofList cmp amounts) := by
  induction amounts with
  | nil => exact .nil
  | cons entry rest ih => exact add_ascending entry.1 entry.2 ih

end Order

section Exchange

theorem add_lt {key other : κ} {p q : Rat} {t : Tally κ} (below : cmp key other = .lt) :
    add cmp key p ((other, q) :: t) = (key, p) :: (other, q) :: t := by
  rw [add, below]

theorem add_gt {key other : κ} {p q : Rat} {t : Tally κ} (above : cmp key other = .gt) :
    add cmp key p ((other, q) :: t) = (other, q) :: add cmp key p t := by
  rw [add, above]

theorem add_self [Std.ReflCmp cmp] (key : κ) {p q : Rat} {t : Tally κ} :
    add cmp key p ((key, q) :: t) = (key, q + p) :: t := by
  have same : cmp key key = .eq := Std.ReflCmp.compare_self
  rw [add, same]

variable [Std.LawfulEqCmp cmp]

theorem add_add_self (key : κ) (p q : Rat) (t : Tally κ) :
    add cmp key p (add cmp key q t) = add cmp key (q + p) t := by
  induction t with
  | nil => rw [add, add_self, add]
  | cons head rest ih =>
      obtain ⟨place, total⟩ := head
      cases here : cmp key place with
      | lt => rw [add_lt here, add_self, add_lt here]
      | eq =>
          obtain rfl := Std.LawfulEqCmp.eq_of_compare here
          rw [add_self, add_self, add_self, add_assoc]
      | gt => rw [add_gt here, add_gt here, add_gt here, ih]

variable [Std.TransCmp cmp]

theorem add_add_of_lt {key other : κ} (below : cmp key other = .lt) (p q : Rat) (t : Tally κ) :
    add cmp key p (add cmp other q t) = add cmp other q (add cmp key p t) := by
  have above : cmp other key = .gt := Std.OrientedCmp.gt_of_lt below
  induction t with
  | nil => rw [add, add, add_lt below, add_gt above, add]
  | cons head rest ih =>
      obtain ⟨place, total⟩ := head
      cases here : cmp key place with
      | lt =>
          rw [add_lt here, add_gt above]
          cases there : cmp other place with
          | lt => rw [add_lt there, add_lt below]
          | eq =>
              obtain rfl := Std.LawfulEqCmp.eq_of_compare there
              rw [add_self, add_lt below]
          | gt => rw [add_gt there, add_lt here]
      | eq =>
          obtain rfl := Std.LawfulEqCmp.eq_of_compare here
          rw [add_self, add_gt above, add_gt above, add_self]
      | gt =>
          have there : cmp other place = .gt := Std.TransCmp.gt_trans above here
          rw [add_gt here, add_gt there, add_gt there, add_gt here, ih]

theorem add_add_comm (key other : κ) (p q : Rat) (t : Tally κ) :
    add cmp key p (add cmp other q t) = add cmp other q (add cmp key p t) := by
  cases places : cmp key other with
  | lt => exact add_add_of_lt places p q t
  | eq =>
      obtain rfl := Std.LawfulEqCmp.eq_of_compare places
      rw [add_add_self, add_add_self, add_comm]
  | gt => exact (add_add_of_lt (Std.OrientedCmp.lt_of_gt places) q p t).symm

/-- Amounts may be listed in any order; a key whose amounts cancel has its place in each. -/
theorem ofList_eq_of_perm {amounts others : List (κ × Rat)} (perm : amounts.Perm others) :
    ofList cmp amounts = ofList cmp others :=
  perm.foldr_eq' (fun x _ y _ t => add_add_comm y.1 x.1 y.2 x.2 t) []

end Exchange

section Weight
variable {K : Type*} [Field K] (weight : κ → K)

/-- The sum of all totals, each times the weight of its key. -/
def weighted (t : Tally κ) : K := (t.map fun entry => (entry.2 : K) * weight entry.1).sum

@[simp] theorem weighted_nil : weighted weight [] = 0 := rfl

@[simp] theorem weighted_cons (entry : κ × Rat) (t : Tally κ) :
    weighted weight (entry :: t) = entry.2 * weight entry.1 + weighted weight t := by
  simp [weighted]

theorem weighted_add [CharZero K] [Std.LawfulEqCmp cmp] (key : κ) (q : Rat) (t : Tally κ) :
    weighted weight (add cmp key q t) = q * weight key + weighted weight t := by
  induction t with
  | nil => simp [add]
  | cons head rest ih =>
      simp only [add]
      split
      · simp
      next same =>
        rw [Std.LawfulEqCmp.eq_of_compare same]
        simp only [weighted_cons, Rat.cast_add]
        ring
      next =>
        simp only [weighted_cons, ih]
        ring

/-- One key may be taken out of the sum, with the only total that it has. -/
theorem weighted_filter [DecidableEq κ] [Std.ReflCmp cmp] (key : κ) {t : Tally κ}
    (ascending : Ascending cmp t) : weighted weight t =
      weighted weight (t.filter fun entry => entry.1 ≠ key) + ((find? key t).getD 0 : Rat) * weight key := by
  induction t with
  | nil => simp [find?]
  | cons head rest ih =>
      obtain ⟨least, sorted⟩ := List.pairwise_cons.mp ascending
      by_cases same : head.1 = key
      · subst same
        have others : rest.filter (fun entry => entry.1 ≠ head.1) = rest := by
          apply List.filter_eq_self.mpr
          intro entry member
          have below := least entry member
          apply decide_eq_true
          intro again
          have self : cmp head.1 head.1 = .eq := Std.ReflCmp.compare_self
          rw [again, self] at below
          cases below
        rw [List.filter_cons_of_neg (by simp), others, weighted_cons]
        simp [find?, add_comm]
      · rw [weighted_cons, ih sorted, List.filter_cons_of_pos (by simpa using same), weighted_cons]
        simp [find?, same, add_assoc]

end Weight

/-! The total of a key is all that a sum looks at: two tallies in the order of their keys
and without vanishing totals are the same if every key has the same total in both. -/

theorem ne_of_cmp_lt [Std.ReflCmp cmp] {key other : κ} (below : cmp key other = .lt) : key ≠ other := by
  rintro rfl
  have self : cmp key key = .eq := Std.ReflCmp.compare_self
  rw [self] at below
  cases below

section Total
variable [DecidableEq κ]

/-- What has been added under a key; zero for a key that is not listed. -/
def total (key : κ) (t : Tally κ) : Rat := (find? key t).getD 0

@[simp] theorem total_nil (key : κ) : total key [] = 0 := rfl

@[simp] theorem total_cons (key : κ) (entry : κ × Rat) (t : Tally κ) :
    total key (entry :: t) = if entry.1 = key then entry.2 else total key t := by
  rw [total, find?]
  split <;> rfl

theorem total_eq_zero {key : κ} {t : Tally κ} (missing : ∀ entry ∈ t, entry.1 ≠ key) :
    total key t = 0 := by
  induction t with
  | nil => rfl
  | cons head rest ih =>
      obtain ⟨first, others⟩ := List.forall_mem_cons.mp missing
      rw [total_cons, if_neg first, ih others]

section Keys
variable [Std.ReflCmp cmp]

theorem total_eq_zero_of_below {key : κ} {t : Tally κ} (below : ∀ entry ∈ t, cmp key entry.1 = .lt) :
    total key t = 0 := by
  apply total_eq_zero
  intro entry member
  exact (ne_of_cmp_lt (below entry member)).symm

theorem total_of_mem {t : Tally κ} (ascending : Ascending cmp t) {entry : κ × Rat} (member : entry ∈ t) :
    total entry.1 t = entry.2 := by
  induction t with
  | nil => cases member
  | cons head rest ih =>
      obtain ⟨least, sorted⟩ := List.pairwise_cons.mp ascending
      rw [total_cons]
      rcases List.mem_cons.mp member with rfl | member
      · exact if_pos rfl
      · rw [if_neg (ne_of_cmp_lt (least entry member)), ih sorted member]

theorem total_filter {t : Tally κ} (ascending : Ascending cmp t) (key : κ) :
    total key (t.filter fun entry => entry.2 ≠ 0) = total key t := by
  induction t with
  | nil => rfl
  | cons head rest ih =>
      obtain ⟨least, sorted⟩ := List.pairwise_cons.mp ascending
      by_cases vanishes : head.2 = 0
      · rw [List.filter_cons_of_neg (by simp [vanishes]), ih sorted, total_cons]
        split
        next same =>
          rw [vanishes]
          exact total_eq_zero_of_below fun entry member => same ▸ least entry member
        next => rfl
      · rw [List.filter_cons_of_pos (by simp [vanishes]), total_cons, total_cons, ih sorted]

end Keys

variable [Std.TransCmp cmp] [Std.LawfulEqCmp cmp]

theorem total_add {t : Tally κ} (ascending : Ascending cmp t) (key other : κ) (q : Rat) :
    total key (add cmp other q t) = (if other = key then q else 0) + total key t := by
  induction t with
  | nil => simp [add]
  | cons head rest ih =>
      obtain ⟨least, sorted⟩ := List.pairwise_cons.mp ascending
      simp only [add]
      split
      next below =>
        rw [total_cons]
        split
        next same =>
          have above : ∀ entry ∈ head :: rest, cmp key entry.1 = .lt := by
            refine List.forall_mem_cons.mpr ⟨same ▸ below, fun entry member => ?_⟩
            exact Std.TransCmp.lt_trans (same ▸ below) (least entry member)
          rw [total_eq_zero_of_below above, add_zero]
        next => rw [zero_add]
      next same =>
        rw [Std.LawfulEqCmp.eq_of_compare same]
        simp only [total_cons]
        split
        next => rw [add_comm]
        next => rw [zero_add]
      next above =>
        have different : head.1 ≠ other := ne_of_cmp_lt (Std.OrientedCmp.lt_of_gt above)
        simp only [total_cons, ih sorted]
        by_cases here : head.1 = key
        · rw [if_pos here, if_pos here, if_neg (here ▸ different.symm), zero_add]
        · rw [if_neg here, if_neg here]

/-- The amounts that are listed under a key are added up. -/
theorem total_ofList (key : κ) (amounts : List (κ × Rat)) : total key (ofList cmp amounts) =
    (amounts.map fun entry => if entry.1 = key then entry.2 else 0).sum := by
  induction amounts with
  | nil => rfl
  | cons head rest ih =>
      rw [List.map_cons, List.sum_cons, ← ih]
      exact total_add (ofList_ascending rest) key head.1 head.2

omit [Std.TransCmp cmp] in
/-- A key stays listed where its amounts cancel. -/
theorem isSome_find?_ofList {key : κ} {q : Rat} {amounts : List (κ × Rat)} (listed : (key, q) ∈ amounts) :
    (find? key (ofList cmp amounts)).isSome = true := by
  have added (entry : κ × Rat) (t : Tally κ) (present : entry.1 = key ∨ (find? key t).isSome = true) :
      (find? key (add cmp entry.1 entry.2 t)).isSome = true := by
    induction t with
    | nil => simpa [add, find?] using present
    | cons head rest ih =>
        rw [add]
        split
        next => by_cases same : entry.1 = key <;> simp_all [find?]
        next equal =>
          have same : entry.1 = head.1 := Std.LawfulEqCmp.eq_of_compare equal
          by_cases here : head.1 = key <;> simp_all [find?]
        next => by_cases here : head.1 = key <;> simp_all [find?]
  induction amounts with
  | nil => cases listed
  | cons head rest ih =>
      apply added
      rcases List.mem_cons.mp listed with same | further
      · exact .inl (same ▸ rfl)
      · exact .inr (ih further)

theorem eq_of_total {t u : Tally κ} (ascending : Ascending cmp t) (ascending' : Ascending cmp u)
    (nonzero : ∀ entry ∈ t, entry.2 ≠ 0) (nonzero' : ∀ entry ∈ u, entry.2 ≠ 0)
    (same : ∀ key, total key t = total key u) : t = u := by
  have listed {s v : Tally κ} (sorted : Ascending cmp s) (sorted' : Ascending cmp v)
      (ne : ∀ entry ∈ s, entry.2 ≠ 0) (same : ∀ key, total key s = total key v) :
      ∀ entry ∈ s, entry ∈ v := by
    intro entry member
    have has := same entry.1
    rw [total_of_mem sorted member] at has
    have found : (find? entry.1 v).isSome := by
      by_contra missing
      rw [total, Option.not_isSome_iff_eq_none.mp missing] at has
      exact ne entry member has
    obtain ⟨q, found⟩ := Option.isSome_iff_exists.mp found
    have present := mem_of_find? found
    rw [total, found] at has
    have : entry = (entry.1, q) := Prod.ext rfl has
    rwa [this]
  have distinct (s : Tally κ) (sorted : Ascending cmp s) : s.Nodup :=
    List.Pairwise.imp (fun below same => ne_of_cmp_lt below (congrArg Prod.fst same)) sorted
  have perm : t.Perm u := by
    rw [List.perm_ext_iff_of_nodup (distinct t ascending) (distinct u ascending')]
    intro entry
    exact ⟨listed ascending ascending' nonzero same entry,
      listed ascending' ascending nonzero' (fun key => (same key).symm) entry⟩
  refine perm.eq_of_pairwise ?_ ascending ascending'
  intro a b _ _ below above
  exact absurd rfl (ne_of_cmp_lt (Std.TransCmp.lt_trans below above))

/-- Of positive amounts only the totals count. -/
theorem ofList_eq_of_totals {amounts other : List (κ × Rat)} (positive : ∀ entry ∈ amounts, 0 < entry.2)
    (positive' : ∀ entry ∈ other, 0 < entry.2)
    (totals : ∀ key, (amounts.map fun entry => if entry.1 = key then entry.2 else 0).sum =
      (other.map fun entry => if entry.1 = key then entry.2 else 0).sum) :
    ofList cmp amounts = ofList cmp other := by
  apply eq_of_total (ofList_ascending amounts) (ofList_ascending other)
  · exact fun entry member => (pos_of_mem_ofList positive entry member).ne'
  · exact fun entry member => (pos_of_mem_ofList positive' entry member).ne'
  · intro key
    rw [total_ofList, total_ofList, totals]

end Total
end SymbolicAlgebra.Tally
