/-! Taking the first member, or the first pair of members, that a partial
function accepts out of a list. The members that remain keep their order. -/

namespace SymbolicAlgebra.Picking

def pick? (accept : α → Option β) : List α → Option (β × List α)
  | [] => none
  | a :: rest =>
      match accept a with
      | some b => some (b, rest)
      | none => (pick? accept rest).map fun (b, others) => (b, a :: others)

/-- Pairs are tried by the place of the earlier member, then of the later one. -/
def pickPair? (join : α → α → Option β) : List α → Option (β × List α)
  | [] => none
  | a :: rest =>
      match pick? (join a) rest with
      | some found => some found
      | none => (pickPair? join rest).map fun (b, others) => (b, a :: others)

theorem pick?_perm {accept : α → Option β} {l others : List α} {b : β}
    (picked : pick? accept l = some (b, others)) :
    ∃ a, accept a = some b ∧ l.Perm (a :: others) := by
  induction l generalizing others with
  | nil => cases picked
  | cons a rest ih =>
      simp only [pick?] at picked
      split at picked
      next c accepted =>
        cases picked
        exact ⟨a, accepted, .refl _⟩
      next refused =>
        obtain ⟨⟨c, remaining⟩, found, same⟩ := Option.map_eq_some_iff.mp picked
        cases same
        obtain ⟨a', accepted, perm⟩ := ih found
        exact ⟨a', accepted, (perm.cons a).trans (.swap a' a remaining)⟩

theorem pickPair?_perm {join : α → α → Option β} {l others : List α} {b : β}
    (picked : pickPair? join l = some (b, others)) :
    ∃ x y, join x y = some b ∧ l.Perm (x :: y :: others) := by
  induction l generalizing others with
  | nil => cases picked
  | cons a rest ih =>
      simp only [pickPair?] at picked
      split at picked
      next found here =>
        cases picked
        obtain ⟨y, joined, perm⟩ := pick?_perm here
        exact ⟨a, y, joined, perm.cons a⟩
      next =>
        obtain ⟨⟨c, remaining⟩, found, same⟩ := Option.map_eq_some_iff.mp picked
        cases same
        obtain ⟨x, y, joined, perm⟩ := ih found
        exact ⟨x, y, joined, (perm.cons a).trans
          ((List.Perm.swap x a _).trans ((List.Perm.swap y a _).cons x))⟩

end SymbolicAlgebra.Picking
