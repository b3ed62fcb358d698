/-! Running totals under keys, kept in the order of the keys. A total that has
come to zero keeps its place: the sum of terms has to know that infinite terms
have met even when they cancel. -/

namespace SymbolicAlgebra

/-- Keys with their totals, in ascending order. -/
abbrev Tally (κ : Type) := List (κ × Rat)

namespace Tally

/-- Add an amount to the total of a key. -/
def add (cmp : κ → κ → Ordering) (key : κ) (amount : Rat) : Tally κ → Tally κ
  | [] => [(key, amount)]
  | (other, total) :: rest =>
      match cmp key other with
      | .lt => (key, amount) :: (other, total) :: rest
      | .eq => (other, total + amount) :: rest
      | .gt => (other, total) :: add cmp key amount rest

def ofList (cmp : κ → κ → Ordering) (amounts : List (κ × Rat)) : Tally κ :=
  amounts.foldr (fun entry tally => add cmp entry.1 entry.2 tally) []

def find? [DecidableEq κ] (key : κ) : Tally κ → Option Rat
  | [] => none
  | (other, total) :: rest => if other = key then some total else find? key rest

end Tally
end SymbolicAlgebra
