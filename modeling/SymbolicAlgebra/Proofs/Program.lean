import SymbolicAlgebra.Program
import SymbolicAlgebra.Proofs.Fault

/-! A run as the sequence of its reads, checks and writes. Whatever it reads and wherever
it fails, it writes the whole integral or nothing, it reports what assembling the integral
from the three texts reports, and it reads no line before it needs it. -/

namespace SymbolicAlgebra.Program

/-- What a run has at hand: the bytes that are not read and the text that is written. -/
structure Session where
  unread : ByteStream
  written : String

/-- A step may fail, and what it has read or written before stays read or written. -/
abbrev Step (α : Type) := ExceptT RunFault (StateM Session) α

namespace Step

variable {α β : Type}

def ofResult (result : Except RunFault α) : Step α := fun s => (result, s)

def readLine : Step (List UInt8) := fun s =>
  (.ok s.unread.takeLine.1, { s with unread := s.unread.takeLine.2 })

def write (text : String) : Step Unit := fun s => (.ok (), { s with written := s.written ++ text })

theorem ofResult_pure (a : α) : ofResult (pure a) = pure a := rfl

theorem ofResult_bind (result : Except RunFault α) (next : α → Except RunFault β) :
    ofResult (result >>= next) = ofResult result >>= fun a => ofResult (next a) := by
  cases result <;> rfl

theorem readLine_bind (next : List UInt8 → Step β) (s : Session) : (readLine >>= next) s =
    next s.unread.takeLine.1 { s with unread := s.unread.takeLine.2 } := rfl

theorem ofResult_error_bind (fault : RunFault) (next : α → Step β) (s : Session) :
    (ofResult (.error fault) >>= next) s = (.error fault, s) := rfl

theorem ofResult_ok_bind (a : α) (next : α → Step β) : ofResult (.ok a) >>= next = next a := rfl

end Step

open Step

/-- The steps of a run in their order. -/
def steps (settings : Settings) : Step Unit := do
  let text ← ofResult (InputLine.value settings.boundsLabel (← readLine))
  let (lower, upper) ← ofResult (InputLine.boundTexts text)
  let lower ← ofResult ((Expr.ofBoundText lower).mapError RunFault.ofFault)
  let upper ← ofResult ((Expr.ofBoundText upper).mapError RunFault.ofFault)
  let function ← ofResult (InputLine.value settings.functionLabel (← readLine))
  let integrand ← ofResult ((Expr.ofIntegrandText settings function).mapError RunFault.ofFault)
  write ((DefiniteIntegral.mk lower upper integrand settings.symbol).latex ++ "\n")

/-- The checks between two reads make up one result. -/
theorem steps_eq_phases (settings : Settings) : steps settings = (do
    let bounds ← ofResult (readBounds settings (← readLine))
    let text ← ofResult (finish settings bounds (← readLine))
    write text) := by
  simp only [steps, readBounds, finish, ofResult_bind, ofResult_pure, bind_assoc, pure_bind]

variable {settings : Settings} {stream : ByteStream} {line : List UInt8} {start : Session}
variable {lower upper function : String} {a b : Expr} {bounds : Expr × Expr} {fault : RunFault}

theorem run_of_refused (refused : readBounds settings stream.takeLine.1 = .error fault) :
    run settings stream = (.error fault, stream.takeLine.2) := by
  simp only [run, refused]

theorem run_of_accepted (accepted : readBounds settings stream.takeLine.1 = .ok bounds) :
    run settings stream =
      (finish settings bounds stream.takeLine.2.takeLine.1, stream.takeLine.2.takeLine.2) := by
  simp only [run, accepted]

/-- The text that a result stands for. -/
def output : Except RunFault String → String
  | .ok text => text
  | .error _ => ""

/-- The steps have the result of the run, leave what it leaves, and write its output. -/
theorem steps_eq (settings : Settings) (start : Session) : steps settings start =
    ((run settings start.unread).1.map fun _ => (),
      ⟨(run settings start.unread).2, start.written ++ output (run settings start.unread).1⟩) := by
  have nothing : start.written ++ "" = start.written := String.append_empty
  rw [steps_eq_phases, readLine_bind]
  cases first : readBounds settings start.unread.takeLine.1 with
  | error fault =>
      rw [run_of_refused first, ofResult_error_bind]
      simp only [output, nothing, Except.map]
  | ok bounds =>
      rw [run_of_accepted first, ofResult_ok_bind, readLine_bind]
      cases finish settings bounds start.unread.takeLine.2.takeLine.1 with
      | error fault =>
          rw [ofResult_error_bind]
          simp only [output, nothing, Except.map]
      | ok text => rfl

/-- The line carries the label and the texts of two bounds. -/
def HoldsBounds (settings : Settings) (line : List UInt8) (lower upper : String) : Prop :=
  ∃ text, InputLine.value settings.boundsLabel line = .ok text ∧
    InputLine.boundTexts text = .ok (lower, upper)

/-- The line carries two bounds that pass every check. -/
def AcceptsBounds (settings : Settings) (line : List UInt8) : Prop :=
  ∃ lower upper a b, HoldsBounds settings line lower upper ∧
    Expr.ofBoundText lower = .ok a ∧ Expr.ofBoundText upper = .ok b

theorem readBounds_eq (holds : HoldsBounds settings line lower upper) :
    readBounds settings line = (do
      let lower ← (Expr.ofBoundText lower).mapError RunFault.ofFault
      let upper ← (Expr.ofBoundText upper).mapError RunFault.ofFault
      return (lower, upper)) := by
  obtain ⟨text, value, texts⟩ := holds
  rw [readBounds, value]
  change (InputLine.boundTexts text >>= _) = _
  rw [texts]
  rfl

theorem acceptsBounds_of_readBounds (accepted : readBounds settings line = .ok bounds) :
    AcceptsBounds settings line := by
  obtain ⟨text, value, checks⟩ := exists_of_bind accepted
  obtain ⟨⟨lower, upper⟩, texts, checks⟩ := exists_of_bind checks
  obtain ⟨a, first, checks⟩ := exists_of_bind checks
  obtain ⟨b, second, -⟩ := exists_of_bind checks
  exact ⟨lower, upper, a, b, ⟨text, value, texts⟩, ok_of_mapError first, ok_of_mapError second⟩

/-- A run reports what assembling the integral from the three texts reports. -/
theorem run_of_texts (holds : HoldsBounds settings stream.takeLine.1 lower upper)
    (value : InputLine.value settings.functionLabel stream.takeLine.2.takeLine.1 = .ok function) :
    (run settings stream).1 = ((DefiniteIntegral.ofTexts settings lower upper function).mapError
      RunFault.ofFault).map fun i => i.latex ++ "\n" := by
  have read := readBounds_eq holds
  rw [DefiniteIntegral.ofTexts]
  cases first : Expr.ofBoundText lower with
  | error fault =>
      rw [first] at read
      rw [run_of_refused read]
      rfl
  | ok a =>
    cases second : Expr.ofBoundText upper with
    | error fault =>
        rw [first, second] at read
        rw [run_of_refused read]
        rfl
    | ok b =>
        rw [first, second] at read
        rw [run_of_accepted read, finish, value]
        change (Expr.ofIntegrandText settings function).mapError RunFault.ofFault >>= _ =
          Except.map _ ((Expr.ofIntegrandText settings function >>= _).mapError RunFault.ofFault)
        cases Expr.ofIntegrandText settings function <;> rfl

/-- A run writes the whole integral or nothing; on two well formed lines it has the result of
assembling the integral from their texts; it reads at most two lines, and only the first one
if that holds no two bounds that pass every check. -/
theorem run_is_all_or_nothing (settings : Settings) (start : Session) :
    let first := start.unread.takeLine
    let second := first.2.takeLine
    let (result, ended) := steps settings start
    result = ((run settings start.unread).1.map fun _ => ()) ∧ ended.unread = (run settings start.unread).2 ∧
    (∀ fault, result = .error fault → ended.written = start.written) ∧
    (∀ lower upper function, HoldsBounds settings first.1 lower upper →
      InputLine.value settings.functionLabel second.1 = .ok function →
        match DefiniteIntegral.ofTexts settings lower upper function with
        | .ok i => result = .ok () ∧ ended.written = start.written ++ (i.latex ++ "\n")
        | .error fault => result = .error (.ofFault fault)) ∧
    (start.unread = first.1 ++ ended.unread ∨ start.unread = first.1 ++ second.1 ++ ended.unread) ∧
    (¬ AcceptsBounds settings first.1 → ∃ fault, ∀ other : Session, other.unread.takeLine.1 = first.1 →
      steps settings other = (.error fault, ⟨other.unread.takeLine.2, other.written⟩)) := by
  intro first second
  have nothing (text : String) : text ++ "" = text := String.append_empty
  have whole := start.unread.takeLine_append
  have rest := first.2.takeLine_append
  rw [steps_eq]
  refine ⟨rfl, rfl, ?written, ?agrees, ?lines, ?refused⟩
  case written =>
    intro fault failed
    cases ran : (run settings start.unread).1 with
    | error other => exact nothing _
    | ok text =>
        rw [ran] at failed
        cases failed
  case agrees =>
    intro lower upper function holds value
    rw [run_of_texts holds value]
    cases DefiniteIntegral.ofTexts settings lower upper function with
    | error fault => rfl
    | ok i => exact ⟨rfl, rfl⟩
  case lines =>
    cases read : readBounds settings first.1 with
    | error fault =>
        rw [run_of_refused read]
        exact .inl whole.symm
    | ok bounds =>
        rw [run_of_accepted read]
        right
        rw [List.append_assoc]
        exact whole.symm.trans (congrArg _ rest.symm)
  case refused =>
    intro unaccepted
    cases read : readBounds settings first.1 with
    | ok bounds => exact absurd (acceptsBounds_of_readBounds read) unaccepted
    | error fault =>
        refine ⟨fault, fun other same => ?_⟩
        rw [← same] at read
        rw [steps_eq, run_of_refused read]
        simp only [output, nothing, Except.map]

end SymbolicAlgebra.Program
