import SymbolicAlgebra.RunFault

/-! Lines of a byte stream. A line must be valid UTF-8 and start with its label; the
value is what follows the label, without blank ends, and must not be empty. -/

namespace SymbolicAlgebra

/-- A stream of bytes that have not been read yet. -/
abbrev ByteStream := List UInt8

namespace ByteStream

def newline : UInt8 := 10

/-- The bytes up to and with the first newline, and the bytes after it. -/
def takeLine : ByteStream → List UInt8 × ByteStream
  | [] => ([], [])
  | b :: rest =>
      if b = newline then ([b], rest) else let (line, rest) := takeLine rest; (b :: line, rest)

theorem takeLine_append (stream : ByteStream) :
    stream.takeLine.1 ++ stream.takeLine.2 = stream := by
  induction stream with
  | nil => rfl
  | cons b rest ih =>
      simp only [takeLine]
      split
      · rfl
      · simp [ih]

end ByteStream

namespace InputLine

def invalidMessage : String := "stream did not contain valid UTF-8"

def decode (line : List UInt8) : Except StreamFault String :=
  if line.isEmpty then .error .endOfInput
  else match String.fromUTF8? ⟨line.toArray⟩ with
    | some text => .ok text
    | none => .error (.other invalidMessage)

/-- A text without the newline at its end, and without a carriage return before it. -/
def withoutEnding (cs : List Char) : List Char :=
  match cs.reverse with
  | '\n' :: '\r' :: rest => rest.reverse
  | '\n' :: rest => rest.reverse
  | _ => cs

def afterLabel? : List Char → List Char → Option (List Char)
  | [], cs => some cs
  | c :: label, d :: cs => if c = d then afterLabel? label cs else none
  | _ :: _, [] => none

/-- The value on a line with the given label. -/
def value (label : String) (line : List UInt8) : Except RunFault String :=
  match decode line with
  | .error fault => .error (.ofStreamFault fault)
  | .ok text =>
      match (afterLabel? label.toList (withoutEnding text.toList)).map Text.trim with
      | none | some [] => .error (.format label)
      | some cs => .ok (String.ofList cs)

def read (label : String) (stream : ByteStream) : Except RunFault String × ByteStream :=
  (value label stream.takeLine.1, stream.takeLine.2)

/-- The two bounds of a text: exactly two parts, neither of them blank. -/
def boundTexts (text : String) : Except RunFault (String × String) :=
  match Text.splitAtComma? text.toList with
  | none => .error .bounds
  | some (lower, upper) =>
      if (Text.splitAtComma? upper).isSome then .error .bounds
      else match Text.trim lower, Text.trim upper with
        | [], _ | _, [] => .error .bounds
        | lower, upper => .ok (String.ofList lower, String.ofList upper)

end InputLine
end SymbolicAlgebra
