import SymbolicAlgebra.Proofs.Fault
import SymbolicAlgebra.Proofs.Grammar.Reading
import SymbolicAlgebra.Proofs.Grammar.Separator
import SymbolicAlgebra.Proofs.Grammar.Soundness

/-! Statements as a grammar over tokens. An accepted statement is exactly what the grammar
derives; one that stands for an expression is the expression alone or with one comma behind. -/

namespace SymbolicAlgebra

namespace Grammar

variable {ts us : List Token} {ls rest : List Lexeme} {e : Expr} {c : Clause}
variable {items : List Clause} {s : Statement} {level : Level}

inductive DerivesClause : List Token → Clause → Prop where
  | scalar {ts : List Token} {e : Expr} (h : Derives .sum ts e) : DerivesClause ts (.scalar e)
  | relation {ts us : List Token} {op : Comparison} {lhs rhs : Expr} (left : Derives .sum ts lhs)
      (right : Derives .sum us rhs) :
      DerivesClause (ts ++ .relation op :: us) (.relation op lhs rhs)

/-- The items behind the first, each behind its comma. -/
inductive DerivesItems : List Token → List Clause → Prop where
  | nil : DerivesItems [] []
  | trailing : DerivesItems [.comma] []
  | cons {ts us : List Token} {c : Clause} {items : List Clause} (first : DerivesClause ts c)
      (others : DerivesItems us items) : DerivesItems (.comma :: (ts ++ us)) (c :: items)

inductive DerivesStatement : List Token → Statement → Prop where
  | single {ts us : List Token} {c : Clause} (first : DerivesClause ts c)
      (others : DerivesItems us []) : DerivesStatement (ts ++ us) (.single c)
  | tuple {ts us : List Token} {c d : Clause} {items : List Clause} (first : DerivesClause ts c)
      (others : DerivesItems us (d :: items)) :
      DerivesStatement (ts ++ us) (.tuple (c :: d :: items))

section Soundness

theorem clause_derived (h : clause ls = .ok (c, rest)) :
    ∃ read, ls = read ++ rest ∧ DerivesClause (read.map Lexeme.token) c := by
  unfold clause at h
  split at h
  next => cases h
  next lhs op start tokens first =>
    obtain ⟨left, rfl, derived⟩ := expression_derived first
    split at h
    next => cases h
    next rhs tokens second =>
      obtain ⟨rfl, rfl⟩ := Prod.mk.inj (Except.ok.inj h)
      obtain ⟨right, rfl, derived'⟩ := expression_derived second
      exact ⟨left ++ ⟨.relation op, start⟩ :: right, by simp,
        by simpa using DerivesClause.relation derived derived'⟩
  next a tokens _ first =>
    obtain ⟨rfl, rfl⟩ := Prod.mk.inj (Except.ok.inj h)
    obtain ⟨read, rfl, derived⟩ := expression_derived first
    exact ⟨read, rfl, .scalar derived⟩

theorem moreClauses_derived {count : Nat} (h : moreClauses count ls = .ok (items, rest)) :
    ∃ read, ls = read ++ rest ∧ DerivesItems (read.map Lexeme.token) items := by
  induction count generalizing ls items with
  | zero =>
      obtain ⟨rfl, rfl⟩ := Prod.mk.inj (Except.ok.inj h)
      exact ⟨[], rfl, .nil⟩
  | succ count ih =>
      unfold moreClauses at h
      split at h
      next start tokens =>
        split at h
        next =>
          split at h
          next => cases h
          next item tokens first =>
            obtain ⟨read, rfl, derived⟩ := clause_derived first
            split at h
            next => cases h
            next others tokens remaining =>
              obtain ⟨rfl, rfl⟩ := Prod.mk.inj (Except.ok.inj h)
              obtain ⟨further, rfl, derived'⟩ := ih remaining
              exact ⟨⟨.comma, start⟩ :: (read ++ further), by simp,
                by simpa using DerivesItems.cons derived derived'⟩
        next =>
          obtain ⟨rfl, rfl⟩ := Prod.mk.inj (Except.ok.inj h)
          exact ⟨[⟨.comma, start⟩], rfl, .trailing⟩
      next =>
        obtain ⟨rfl, rfl⟩ := Prod.mk.inj (Except.ok.inj h)
        exact ⟨[], rfl, .nil⟩

theorem statement_derived (h : statement ls = .ok (s, rest)) :
    ∃ read, ls = read ++ rest ∧ DerivesStatement (read.map Lexeme.token) s := by
  unfold statement at h
  split at h
  next => cases h
  next first tokens one =>
    obtain ⟨read, rfl, derived⟩ := clause_derived one
    split at h
    next => cases h
    next tokens none =>
      obtain ⟨rfl, rfl⟩ := Prod.mk.inj (Except.ok.inj h)
      obtain ⟨further, rfl, derived'⟩ := moreClauses_derived none
      exact ⟨read ++ further, by simp, by simpa using DerivesStatement.single derived derived'⟩
    next items tokens _ some =>
      obtain ⟨rfl, rfl⟩ := Prod.mk.inj (Except.ok.inj h)
      obtain ⟨further, rfl, derived'⟩ := moreClauses_derived some
      obtain ⟨d, others, rfl⟩ := List.exists_cons_of_ne_nil ‹items ≠ []›
      exact ⟨read ++ further, by simp, by simpa using DerivesStatement.tuple derived derived'⟩

end Soundness

section Completeness

/-- A clause ends before a comma and at the end. -/
theorem clause_reads (h : DerivesClause (ls.map Lexeme.token) c)
    (ends : ∀ l ∈ rest.head?, l.token = .comma) : clause (ls ++ rest) = .ok (c, rest) := by
  have stops (ts : List Token) (free : .comma ∉ ts) : StopsAt ts rest := by
    intro l head
    rwa [ends l head]
  have sum {rs : List Lexeme} {a : Expr} (k : Derives .sum (rs.map Lexeme.token) a) :
      expression (rs ++ rest) = .ok (a, rest) := expression_reads_before k (stops _ (by simp))
  generalize same : ls.map Lexeme.token = ts at h
  cases h with
  | scalar derived =>
      rw [clause, sum (same ▸ derived)]
      cases rest with
      | nil => rfl
      | cons l tail =>
          obtain ⟨t, start⟩ := l
          obtain rfl : t = .comma := ends _ rfl
          rfl
  | @relation _ _ op _ _ left right =>
      obtain ⟨before, start, after, rfl, rfl, rfl⟩ := exists_of_map_append same
      have sign (ts : List Token) (free : .relation op ∉ ts) :
          StopsAt ts (⟨.relation op, start⟩ :: (after ++ rest)) := stopsAt_cons.mpr free
      have first := expression_reads_before left (sign _ (by simp))
      rw [List.append_assoc, List.cons_append, clause, first]
      simp only [sum right]

theorem DerivesClause.starts (h : DerivesClause (ls.map Lexeme.token) c) :
    startsExpression (ls ++ rest) = true := by
  have opened {l : Lexeme} {tail : List Lexeme} (first : opens .sum l.token = true) :
      startsExpression (l :: tail) = true := by
    obtain ⟨t, start⟩ := l
    cases t <;> first | rfl | simp [opens] at first
  generalize same : ls.map Lexeme.token = ts at h
  cases h with
  | scalar derived | relation derived _ =>
      obtain ⟨t, us, rfl, first⟩ := derived.head
      obtain ⟨start, tail, rfl, -⟩ := exists_of_map_cons same
      exact opened first

theorem DerivesItems.head (h : DerivesItems (ls.map Lexeme.token) items) :
    ∀ l ∈ ls.head?, l.token = .comma := by
  generalize same : ls.map Lexeme.token = ts at h
  cases h with
  | nil =>
      obtain rfl := List.map_eq_nil_iff.mp same
      simp
  | trailing | cons =>
      obtain ⟨start, tail, rfl, -⟩ := exists_of_map_cons same
      simp

theorem moreClauses_reads {count : Nat} (h : DerivesItems (ls.map Lexeme.token) items)
    (enough : ls.length ≤ count) : moreClauses count ls = .ok (items, []) := by
  generalize same : ls.map Lexeme.token = ts at h
  induction h generalizing ls count with
  | nil =>
      obtain rfl := List.map_eq_nil_iff.mp same
      cases count <;> rfl
  | trailing =>
      obtain ⟨start, tail, rfl, none⟩ := exists_of_map_cons same
      obtain rfl := List.map_eq_nil_iff.mp none
      obtain ⟨count, rfl⟩ : ∃ n, count = n + 1 := ⟨count - 1, by simp at enough; omega⟩
      rfl
  | cons first others ih =>
      obtain ⟨start, tail, rfl, behind⟩ := exists_of_map_cons same
      obtain ⟨left, right, rfl, rfl, rfl⟩ := List.map_eq_append_iff.mp behind
      simp only [List.length_cons, List.length_append] at enough
      obtain ⟨count, rfl⟩ : ∃ n, count = n + 1 := ⟨count - 1, by omega⟩
      have item := clause_reads first others.head
      have remaining : moreClauses count right = .ok (_, []) := ih (by omega) rfl
      simp only [moreClauses, first.starts, if_pos, item, remaining]

theorem statement_reads (h : DerivesStatement (ls.map Lexeme.token) s) :
    statement ls = .ok (s, []) := by
  generalize same : ls.map Lexeme.token = ts at h
  cases h with
  | single first others | tuple first others =>
      obtain ⟨left, right, rfl, rfl, rfl⟩ := List.map_eq_append_iff.mp same
      have item := clause_reads first others.head
      have remaining := moreClauses_reads others (Nat.le_refl _)
      simp only [statement, item, remaining]

end Completeness

theorem derivesStatement_scalar_iff :
    DerivesStatement ts (.single (.scalar e)) ↔
      Derives .sum ts e ∨ ∃ us, ts = us ++ [.comma] ∧ Derives .sum us e := by
  constructor
  · intro h
    generalize target : Statement.single (.scalar e) = s at h
    cases h with
    | tuple => cases target
    | single first others =>
        obtain rfl := Statement.single.inj target
        cases first with
        | scalar derived =>
            cases others with
            | nil => exact .inl (by simpa using derived)
            | trailing => exact .inr ⟨_, rfl, derived⟩
  · rintro (derived | ⟨us, rfl, derived⟩)
    · simpa using DerivesStatement.single (.scalar derived) .nil
    · exact .single (.scalar derived) .trailing

/-- The token stands outside all parentheses. -/
def TopLevel (t : Token) (ts : List Token) : Prop :=
  ∃ before after, ts = before ++ t :: after ∧
    before.count .openParen = before.count .closeParen

theorem Derives.balanced (h : Derives level ts e) : ts.count .openParen = ts.count .closeParen := by
  induction h with
  | number | word => simp
  | call _ _ ih | parens _ ih | neg _ ih | plus _ ih => simp [ih]
  | primary _ ih | power _ ih | signed _ ih | product _ ih => exact ih
  | pow _ _ ih ih' | mul _ _ ih ih' | div _ _ ih ih' | add _ _ ih ih' | sub _ _ ih ih' =>
      simp [List.count_append, ih, ih']

theorem DerivesClause.balanced (h : DerivesClause ts c) :
    ts.count .openParen = ts.count .closeParen := by
  cases h with
  | scalar derived => exact derived.balanced
  | relation left right => simp [List.count_append, left.balanced, right.balanced]

/-- A statement that is no expression has a sign at its top level that tells so. -/
theorem DerivesStatement.refused (h : DerivesStatement ts s) :
    (∃ e, s = .single (.scalar e)) ∨
    (∃ op lhs rhs, s = .single (.relation op lhs rhs) ∧ TopLevel (.relation op) ts ∧
      s.scalar = .error (.relation op lhs rhs)) ∨
    ∃ items, s = .tuple items ∧ 2 ≤ items.length ∧ TopLevel .comma ts ∧
      s.scalar = .error (.tuple items.length) := by
  cases h with
  | single first others =>
      cases first with
      | scalar => exact .inl ⟨_, rfl⟩
      | relation left right =>
          refine .inr (.inl ⟨_, _, _, rfl, ?_, rfl⟩)
          exact ⟨_, _, by rw [List.append_assoc, List.cons_append], left.balanced⟩
  | tuple first others =>
      refine .inr (.inr ⟨_, rfl, by simp, ?_, rfl⟩)
      cases others with
      | cons => exact ⟨_, _, rfl, first.balanced⟩

end Grammar

theorem Expr.parse_iff (text : String) (e : Expr) :
    Expr.parse text = .ok e ↔
      Grammar.Derives .sum ((Lexeme.list text.toList).map Lexeme.token) e := by
  constructor
  · intro h
    unfold Expr.parse at h
    split at h
    next => cases h
    next read =>
      obtain rfl := Except.ok.inj h
      obtain ⟨consumed, whole, derived⟩ := Grammar.expression_derived read
      rwa [whole, List.append_nil]
    next => cases h
  · intro h
    rw [Expr.parse, Grammar.expression_reads h]

theorem Statement.parse_iff (text : String) (s : Statement) :
    Statement.parse text = .ok s ↔
      Grammar.DerivesStatement ((Lexeme.list text.toList).map Lexeme.token) s := by
  constructor
  · intro h
    unfold Statement.parse at h
    split at h
    next => cases h
    next read =>
      obtain rfl := Except.ok.inj h
      obtain ⟨consumed, whole, derived⟩ := Grammar.statement_derived read
      rwa [whole, List.append_nil]
    next => cases h
  · intro h
    rw [Statement.parse, Grammar.statement_reads h]

/-- An accepted text is one of a derivation. -/
theorem Grammar.statementText_derived {text : String} {e : Expr}
    (h : Expr.ofStatementText text = .ok e) : ∃ ts, Derives .sum ts e := by
  unfold Expr.ofStatementText at h
  split at h
  next => cases h
  next s read =>
    have scalar : s = .single (.scalar e) := by
      cases s with
      | tuple items => cases h
      | single clause =>
          cases clause with
          | relation op lhs rhs => cases h
          | scalar a => exact congrArg (fun e => Statement.single (.scalar e)) (Except.ok.inj h)
    have derived := (Statement.parse_iff text s).mp (ok_of_mapError read)
    rw [scalar, derivesStatement_scalar_iff] at derived
    rcases derived with alone | ⟨us, -, alone⟩
    · exact ⟨_, alone⟩
    · exact ⟨us, alone⟩

/-- The only texts that are scalar statements and no expressions are those with a comma
behind the expression. -/
theorem Statement.parse_scalar (text : String) :
    (∀ e, Statement.parse text = .ok (.single (.scalar e)) ↔
      Expr.parse text = .ok e ∨
      ∃ inner blanks, text = inner ++ "," ++ blanks ∧
        (∀ c ∈ blanks.toList, Token.isBlank c = true) ∧ Expr.parse inner = .ok e) ∧
    ∀ s, Statement.parse text = .ok s →
      (∃ e, s = .single (.scalar e)) ∨
      (∃ op lhs rhs, s = .single (.relation op lhs rhs) ∧
        Grammar.TopLevel (.relation op) ((Lexeme.list text.toList).map Lexeme.token) ∧
        s.scalar = .error (.relation op lhs rhs)) ∨
      ∃ items, s = .tuple items ∧ 2 ≤ items.length ∧
        Grammar.TopLevel .comma ((Lexeme.list text.toList).map Lexeme.token) ∧
        s.scalar = .error (.tuple items.length) := by
  constructor
  · intro e
    rw [Statement.parse_iff, Grammar.derivesStatement_scalar_iff, ← Expr.parse_iff]
    refine or_congr_right ?_
    constructor
    · rintro ⟨us, tokens, derived⟩
      obtain ⟨front, behind, letters, before, after⟩ := Lexeme.exists_comma tokens
      have blank := Lexeme.list_eq_nil_iff.mp (List.map_eq_nil_iff.mp after)
      refine ⟨String.ofList front, String.ofList behind, ?_, by simpa using blank, ?_⟩
      · apply String.toList_inj.mp
        simp [letters]
      · rw [Expr.parse_iff, String.toList_ofList, before]
        exact derived
    · rintro ⟨inner, blanks, rfl, blank, read⟩
      refine ⟨_, ?_, (Expr.parse_iff inner e).mp read⟩
      have letters : (inner ++ "," ++ blanks).toList = inner.toList ++ ',' :: blanks.toList := by
        simp
      rw [letters, Lexeme.tokens_append_comma, Lexeme.list_eq_nil_iff.mpr blank]
      rfl
  · intro s read
    exact ((Statement.parse_iff text s).mp read).refused

/-- A relation with a comma behind it is refused as a relation. -/
theorem Statement.parse_relation_with_comma :
    ∃ s, Statement.parse "x <= 2," = .ok s ∧
      ((∃ e, s = .single (.scalar e)) ∨
      (∃ op lhs rhs, s = .single (.relation op lhs rhs) ∧
        Grammar.TopLevel (.relation op) ((Lexeme.list "x <= 2,".toList).map Lexeme.token) ∧
        s.scalar = .error (.relation op lhs rhs)) ∨
      ∃ items, s = .tuple items ∧ 2 ≤ items.length ∧
        Grammar.TopLevel .comma ((Lexeme.list "x <= 2,".toList).map Lexeme.token) ∧
        s.scalar = .error (.tuple items.length)) := by
  have read : Statement.parse "x <= 2," = .ok (.single (.relation .le (.var "x") (.const 2))) := by
    decide +kernel
  exact ⟨_, read, (Statement.parse_scalar "x <= 2,").2 _ read⟩

/-- An expression with a comma behind it is a scalar statement, but no expression. -/
theorem Statement.comma_dropped :
    ¬∀ text e, Statement.parse text = .ok (.single (.scalar e)) ↔ Expr.parse text = .ok e := by
  intro same
  have read : Statement.parse "a," = .ok (.single (.scalar (.var "a"))) := by decide +kernel
  have refused : Expr.parse "a," ≠ .ok (.var "a") := by decide +kernel
  exact refused ((same "a," (.var "a")).mp read)

end SymbolicAlgebra
