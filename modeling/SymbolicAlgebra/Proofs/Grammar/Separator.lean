import SymbolicAlgebra.Proofs.Grammar.Spelling

/-! Commas in a text. No token goes on over a comma, so the tokens of a text with a comma
are those of the text before it, the comma, and those of the text behind it. -/

namespace SymbolicAlgebra

section Runs
variable {p : Char → Bool} {d : Char}

theorem takeWhile_append_cons (stop : p d = false) (cs rest : List Char) :
    (cs ++ d :: rest).takeWhile p = cs.takeWhile p := by
  induction cs with
  | nil => simp [stop]
  | cons c cs ih =>
      rw [List.cons_append, List.takeWhile_cons, List.takeWhile_cons, ih]

theorem dropWhile_append_cons (stop : p d = false) (cs rest : List Char) :
    (cs ++ d :: rest).dropWhile p = cs.dropWhile p ++ d :: rest := by
  induction cs with
  | nil => simp [stop]
  | cons c cs ih =>
      rw [List.cons_append, List.dropWhile_cons, List.dropWhile_cons, ih]
      split <;> rfl

end Runs

namespace Decimal

theorem readSign_append_comma (cs rest : List Char) :
    readSign (cs ++ ',' :: rest) = ((readSign cs).1, (readSign cs).2 ++ ',' :: rest) := by
  fun_cases readSign cs with
  | case1 | case2 => rfl
  | case3 cs no_plus no_minus =>
      cases cs with
      | nil => rfl
      | cons c cs => simp_all [readSign]

theorem readExponent_append_comma (cs rest : List Char) :
    readExponent (cs ++ ',' :: rest) = ((readExponent cs).1, (readExponent cs).2 ++ ',' :: rest) := by
  have noDigit : Char.isDigit ',' = false := rfl
  cases cs with
  | nil => rfl
  | cons c cs =>
      simp only [List.cons_append, readExponent, readSign_append_comma, takeWhile_append_cons noDigit,
        dropWhile_append_cons noDigit]
      split
      · split <;> rfl
      · rfl

theorem read?_of_point {cs after : List Char} (behind : cs.dropWhile Char.isDigit = '.' :: after) :
    read? cs = if (cs.takeWhile Char.isDigit).isEmpty && (after.takeWhile Char.isDigit).isEmpty then none
      else some (⟨cs.takeWhile Char.isDigit, after.takeWhile Char.isDigit,
        (readExponent (after.dropWhile Char.isDigit)).1⟩,
        (readExponent (after.dropWhile Char.isDigit)).2) := by
  rw [read?, behind]
  rfl

theorem read?_of_no_point {cs : List Char}
    (behind : ∀ after, cs.dropWhile Char.isDigit ≠ '.' :: after) :
    read? cs = if (cs.takeWhile Char.isDigit).isEmpty then none
      else some (⟨cs.takeWhile Char.isDigit, [], (readExponent (cs.dropWhile Char.isDigit)).1⟩,
        (readExponent (cs.dropWhile Char.isDigit)).2) := by
  rw [read?]
  split
  next after point => exact absurd point (behind after)
  next => rfl

theorem read?_append_comma (cs rest : List Char) :
    read? (cs ++ ',' :: rest) = (read? cs).map fun (d, after) => (d, after ++ ',' :: rest) := by
  have noDigit : Char.isDigit ',' = false := rfl
  have digits := takeWhile_append_cons noDigit cs rest
  have others := dropWhile_append_cons noDigit cs rest
  by_cases point : ∃ after, cs.dropWhile Char.isDigit = '.' :: after
  · obtain ⟨after, behind⟩ := point
    rw [behind, List.cons_append] at others
    rw [read?_of_point behind, read?_of_point others, digits, takeWhile_append_cons noDigit,
      dropWhile_append_cons noDigit, readExponent_append_comma]
    split <;> rfl
  · have behind := not_exists.mp point
    have further : ∀ after, (cs ++ ',' :: rest).dropWhile Char.isDigit ≠ '.' :: after := by
      intro after same
      rw [others] at same
      cases tail : cs.dropWhile Char.isDigit with
      | nil => simp [tail] at same
      | cons c tail => simp_all
    rw [read?_of_no_point behind, read?_of_no_point further, digits, others, readExponent_append_comma]
    split <;> rfl

end Decimal

namespace Token

theorem ofSymbol_append_comma (c : Char) (cs rest : List Char) :
    ofSymbol (c :: cs ++ ',' :: rest) = ((ofSymbol (c :: cs)).1, (ofSymbol (c :: cs)).2 ++ ',' :: rest) := by
  generalize read : ofSymbol (c :: cs) = found
  unfold ofSymbol at read
  cases cs with
  | nil => split at read <;> cases read <;> simp_all [ofSymbol]
  | cons d cs =>
      split at read <;> cases read
      all_goals
        rename_i same
        cases same <;> simp_all [ofSymbol]

/-- A token that is taken before a comma is the one of the text up to the comma. -/
theorem scan_append_comma (c : Char) (cs rest : List Char) :
    scan (c :: cs ++ ',' :: rest) = ((scan (c :: cs)).1, (scan (c :: cs)).2 ++ ',' :: rest) := by
  have noWord : isWordChar ',' = false := rfl
  rw [List.cons_append, scan, scan]
  split
  · rw [takeWhile_append_cons noWord, dropWhile_append_cons noWord]
  · rw [← List.cons_append, Decimal.read?_append_comma, ofSymbol_append_comma]
    cases Decimal.read? (c :: cs) <;> rfl

end Token

namespace Decimal

theorem readSign_suffix (cs : List Char) : (readSign cs).2 <:+ cs := by
  unfold readSign
  split <;> simp

theorem readExponent_suffix (cs : List Char) : (readExponent cs).2 <:+ cs := by
  cases cs with
  | nil => exact List.suffix_refl _
  | cons c rest =>
      have tail := ((readSign rest).2.dropWhile_suffix Char.isDigit).trans (readSign_suffix rest)
      simp only [readExponent]
      split
      · split
        · exact List.suffix_refl _
        · exact tail.trans (List.suffix_cons c rest)
      · exact List.suffix_refl _

theorem read?_suffix {cs after : List Char} {d : Decimal} (read : read? cs = some (d, after)) :
    after <:+ cs := by
  have behind := cs.dropWhile_suffix Char.isDigit
  simp only [read?] at read
  split at read
  next rest point =>
    rw [point] at behind
    split at read
    · cases read
    · cases read
      have digits := rest.dropWhile_suffix Char.isDigit
      exact ((readExponent_suffix _).trans digits).trans ((List.suffix_cons _ _).trans behind)
  next =>
    split at read
    · cases read
    · cases read
      exact (readExponent_suffix _).trans behind

end Decimal

namespace Token

theorem ofSymbol_suffix (c : Char) (cs : List Char) : (ofSymbol (c :: cs)).2 <:+ c :: cs := by
  unfold ofSymbol
  split <;> simp_all
  all_goals exact List.suffix_append [_, _] _

theorem scan_suffix (c : Char) (cs : List Char) : (scan (c :: cs)).2 <:+ c :: cs := by
  simp only [scan]
  split
  · exact (cs.dropWhile_suffix isWordChar).trans (List.suffix_cons c cs)
  · split
    next read => exact Decimal.read?_suffix read
    next => exact ofSymbol_suffix c cs

theorem scan_comma_iff (c : Char) (cs rest : List Char) :
    scan (c :: cs) = (comma, rest) ↔ c = ',' ∧ rest = cs := by
  constructor
  · intro read
    simp only [scan] at read
    split at read
    · cases read
    · split at read
      · cases read
      · unfold ofSymbol at read
        split at read <;> simp_all
  · rintro ⟨rfl, rfl⟩
    rfl

end Token

namespace Lexeme

/-- The tokens of a text with a comma are those before it, the comma and those behind it. -/
theorem tokens_append_comma (cs rest : List Char) :
    (list (cs ++ ',' :: rest)).map token =
      (list cs).map token ++ .comma :: (list rest).map token := by
  fun_induction list cs with
  | case1 =>
      rw [List.nil_append, list, if_neg (by decide)]
      rfl
  | case2 c cs blank ih =>
      rw [List.cons_append, list, if_pos blank]
      exact ih
  | case3 c cs visible _ ih =>
      have taken := Token.scan_append_comma c cs rest
      rw [List.cons_append] at taken ⊢
      rw [list, if_neg visible, taken, List.map_cons, List.map_cons, List.cons_append]
      exact congrArg _ ih

/-- A comma among the tokens is one of the text. -/
theorem exists_comma {cs : List Char} {us vs : List Token}
    (h : (list cs).map token = us ++ .comma :: vs) :
    ∃ front behind, cs = front ++ ',' :: behind ∧ (list front).map token = us ∧
      (list behind).map token = vs := by
  fun_induction list cs generalizing us with
  | case1 => simp at h
  | case2 c cs blank ih =>
      obtain ⟨front, behind, rfl, before, after⟩ := ih h
      refine ⟨c :: front, behind, rfl, ?_, after⟩
      rwa [list, if_pos blank]
  | case3 c cs visible _ ih =>
      rw [List.map_cons] at h
      cases us with
      | nil =>
          obtain ⟨taken, others⟩ := List.cons.inj h
          obtain ⟨rfl, remaining⟩ := (Token.scan_comma_iff c cs _).mp (Prod.ext taken rfl)
          have same := congrArg (fun tail => (list tail).map token) remaining
          exact ⟨[], cs, rfl, by simp [list], same.symm.trans others⟩
      | cons u us =>
          obtain ⟨taken, others⟩ := List.cons.inj h
          obtain ⟨front, behind, split, before, after⟩ := ih others
          obtain ⟨first, whole⟩ := Token.scan_suffix c cs
          have parts : c :: cs = (first ++ front) ++ ',' :: behind := by
            rw [← whole, split, List.append_assoc]
          refine ⟨first ++ front, behind, parts, ?_, after⟩
          -- The tokens before the comma are what is left of all of them without the rest.
          have tokens := tokens_append_comma (first ++ front) behind
          rw [← parts, list, if_neg visible, List.map_cons, h, after] at tokens
          exact (List.append_cancel_right tokens).symm

theorem list_eq_nil_iff {cs : List Char} :
    list cs = [] ↔ ∀ c ∈ cs, Token.isBlank c = true := by
  constructor
  · intro nothing
    fun_induction list cs with
    | case1 => simp
    | case2 c cs blank ih => simpa [blank] using ih nothing
    | case3 => cases nothing
  · intro blank
    have remaining : list (cs ++ []) = list [] := Grammar.list_blanks blank
    rw [List.append_nil] at remaining
    rw [remaining, list]

end Lexeme

end SymbolicAlgebra
