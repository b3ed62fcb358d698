import SymbolicAlgebra.Collection.Picking

/-! A pair that is picked by what its members look like is a pair of members. -/

namespace SymbolicAlgebra.Picking

variable {α β γ : Type} {view : α → β} {join : β → β → Option γ}

theorem pickPair?_view {l others : List α} {c : γ}
    (picked : ((pickPair? (fun s t => join s.2 t.2) (l.map fun a => (a, view a))).map
      fun (c, rest) => (c, rest.map (·.1))) = some (c, others)) :
    ∃ a b, join (view a) (view b) = some c ∧ l.Perm (a :: b :: others) := by
  obtain ⟨⟨d, rest⟩, found, same⟩ := Option.map_eq_some_iff.mp picked
  obtain ⟨rfl, rfl⟩ := Prod.mk.inj same
  obtain ⟨s, t, joined, perm⟩ := pickPair?_perm found
  have viewed : ∀ entry ∈ s :: t :: rest, entry.2 = view entry.1 := by
    intro entry member
    obtain ⟨a, -, rfl⟩ := List.mem_map.mp (perm.mem_iff.mpr member)
    rfl
  rw [viewed s (.head _), viewed t (.tail _ (.head _))] at joined
  refine ⟨s.1, t.1, joined, ?_⟩
  simpa [Function.comp_def] using perm.map (·.1)

end SymbolicAlgebra.Picking
