/-
The command line: reads what a run asks for and prints its outcome.
-/
import MarkupTemplate.Command.Outcome

namespace MarkupTemplate.Command

/-- Opening a directory succeeds and reading from it fails, without a path. -/
def FileError.ofError : IO.Error → FileError
  | .noFileOrDirectory .. => .missing
  | .inappropriateType none .. => .directory
  | e => .other (toString e)

/-- A text from bytes; other bytes than UTF-8 are refused. -/
def textOf (bytes : ByteArray) : Except FileError String :=
  match String.fromUTF8? bytes with
  | some text => .ok text
  | none => .error (.other "stream did not contain valid UTF-8")

/-- All bytes that are left in a stream. -/
partial def readRest (stream : IO.FS.Stream) (before : ByteArray) :
    IO ByteArray := do
  let bytes ← stream.read 65536
  if bytes.isEmpty then pure before else readRest stream (before ++ bytes)

def machineInputs : Inputs IO where
  file path := do
    try textOf <$> IO.FS.readBinFile path
    catch e => pure (.error (.ofError e))
  stdin := do
    try textOf <$> readRest (← IO.getStdin) .empty
    catch e => pure (.error (.ofError e))

end MarkupTemplate.Command

open MarkupTemplate in
def main (arguments : List String) : IO UInt32 := do
  let outcome ← Command.run Command.machineInputs arguments
  for event in outcome.log do
    IO.eprintln event.line
  IO.eprint outcome.stderr
  IO.print outcome.stdout
  pure outcome.exit.toUInt32
