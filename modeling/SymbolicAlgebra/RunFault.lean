import SymbolicAlgebra.Fault

/-! Why a run fails: a line is missing or has another form, the stream cannot be read,
or a text is refused. A refused statement that is no expression counts as an
unsupported one, every other refused text as a wrong value. -/

namespace SymbolicAlgebra

inductive RunFault where
  | format (label : String)
  | bounds
  | endOfInput
  | value (message : String)
  | unsupported (message : String)
  | processing (message : String)
  | interrupted
  deriving DecidableEq, Repr

/-- Why a stream gives no line. -/
inductive StreamFault where
  | endOfInput
  | interrupted
  | other (message : String)
  deriving DecidableEq, Repr

namespace RunFault

/-- The line written to the error output. -/
def message : RunFault → String
  | format label => "Invalid input format. Expected '" ++ label ++ "...'"
  | bounds => "Invalid bounds format. Expected 'a, b'"
  | endOfInput => "Input ended unexpectedly."
  | value message => "Value error: " ++ message
  | unsupported message => "Attribute error: " ++ message
  | processing message => "Error processing input: " ++ message
  | interrupted => "Process interrupted by user."

/-- Every failure ends the process with the same status. -/
def exitCode (_ : RunFault) : UInt8 := 1

def ofMessage : FaultKind → String → RunFault
  | .parse, message | .value, message => value message
  | .unsupported, message => unsupported message

def ofFault (fault : Fault) : RunFault := ofMessage fault.kind fault.message

def ofStreamFault : StreamFault → RunFault
  | .endOfInput => endOfInput
  | .interrupted => interrupted
  | .other message => processing message

end RunFault

end SymbolicAlgebra
