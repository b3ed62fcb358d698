/-! Stable sorting by a Boolean comparison. The result is a permutation of the
input and, for a total transitive comparison, sorted by it. -/

namespace SymbolicAlgebra.Sorting

/-- Place a value before the first member that it does not exceed. -/
def insert (le : α → α → Bool) (a : α) : List α → List α
  | [] => [a]
  | b :: rest => if le a b then a :: b :: rest else b :: insert le a rest

def sort (le : α → α → Bool) (l : List α) : List α := l.foldr (insert le) []

/-- Sort by a key that is computed once for each member. -/
def sortOn (key : α → κ) (le : κ → κ → Bool) (l : List α) : List α :=
  (sort (fun a b => le a.1 b.1) (l.map fun a => (key a, a))).map (·.2)

theorem insert_perm (le : α → α → Bool) (a : α) (l : List α) :
    (insert le a l).Perm (a :: l) := by
  induction l with
  | nil => exact .refl _
  | cons b rest ih =>
      simp only [insert]
      split
      · exact .refl _
      · exact (ih.cons b).trans (.swap a b rest)

theorem sort_perm (le : α → α → Bool) (l : List α) : (sort le l).Perm l := by
  induction l with
  | nil => exact .refl _
  | cons a rest ih => exact (insert_perm le a _).trans (ih.cons a)

@[simp] theorem mem_sort (le : α → α → Bool) (a : α) (l : List α) : a ∈ sort le l ↔ a ∈ l :=
  (sort_perm le l).mem_iff

theorem sortOn_perm (key : α → κ) (le : κ → κ → Bool) (l : List α) : (sortOn key le l).Perm l := by
  have mapped := (sort_perm (fun a b => le a.1 b.1) (l.map fun a => (key a, a))).map Prod.snd
  rwa [List.map_map, Function.comp_def, List.map_id'] at mapped

theorem insert_sorted {le : α → α → Bool} (total : ∀ a b, le a b || le b a)
    (trans : ∀ a b c, le a b → le b c → le a c) (a : α) {l : List α}
    (sorted : l.Pairwise fun x y => le x y) : (insert le a l).Pairwise fun x y => le x y := by
  induction l with
  | nil => exact List.pairwise_singleton _ _
  | cons b rest ih =>
      obtain ⟨least, sorted⟩ := List.pairwise_cons.mp sorted
      simp only [insert]
      split
      next below =>
        refine List.pairwise_cons.mpr ⟨fun c member => ?_, List.pairwise_cons.mpr ⟨least, sorted⟩⟩
        rcases List.mem_cons.mp member with rfl | member
        · exact below
        · exact trans _ _ _ below (least c member)
      next above =>
        refine List.pairwise_cons.mpr ⟨fun c member => ?_, ih sorted⟩
        rcases List.mem_cons.mp ((insert_perm le a rest).mem_iff.mp member) with rfl | member
        · simpa [above] using total c b
        · exact least c member

theorem sort_sorted {le : α → α → Bool} (total : ∀ a b, le a b || le b a)
    (trans : ∀ a b c, le a b → le b c → le a c) (l : List α) :
    (sort le l).Pairwise fun x y => le x y := by
  induction l with
  | nil => exact .nil
  | cons a rest ih => exact insert_sorted total trans a ih

end SymbolicAlgebra.Sorting
