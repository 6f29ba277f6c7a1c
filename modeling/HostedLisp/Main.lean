import HostedLisp.Console

/-!
# The command line

One program under two names: called by a name that ends in `-repl` it is the dialogue on the
standard streams (`converse`), and by any other the file runner (`runFile`). Both only read and
print; what they print is decided in `HostedLisp.Console`.
-/

namespace HostedLisp.CommandLine

/-- Why the system refuses to read a file. -/
def reason : IO.Error → String
  | .noFileOrDirectory .. => "No such file or directory (os error 2)"
  | .inappropriateType (some _) .. => "Not a directory (os error 20)"
  | .inappropriateType none .. => "Is a directory (os error 21)"
  | e => toString e

/-- The contents of a file, or why it cannot be read. -/
def contents (path : String) : IO (Except String String) := do
  try
    let bytes ← IO.FS.readBinFile path
    match String.fromUTF8? bytes with
    | some text => return .ok text
    | none => return .error Console.undecodable
  catch e => return .error (reason e)

/-- The bytes up to the next line feed, which is the last of them unless the input ends first. -/
partial def lineBytes (stream : IO.FS.Stream) (start : ByteArray) : IO ByteArray := do
  let next ← stream.read 1
  match next.toList with
  | [] => return start
  | 10 :: _ => return start.push 10
  | byte :: _ => lineBytes stream (start.push byte)

/-- The dialogue on the standard streams, from the given state on. -/
partial def converseFrom (d : Console.Dialogue.State) : IO UInt32 := do
  let stdout ← IO.getStdout
  stdout.putStr d.prompt
  stdout.flush
  let bytes ← lineBytes (← IO.getStdin) .empty
  match Console.linesOf bytes with
  | [] => return 0
  | line :: _ =>
    let reply := Console.Dialogue.step d line
    stdout.putStr reply.stdout
    stdout.flush
    (← IO.getStderr).putStr reply.stderr
    match reply.next with
    | .error status => return status.toUInt32
    | .ok d => converseFrom d

/-- The dialogue on the standard streams. -/
def converse : IO UInt32 := do
  (← IO.getStdout).putStr Console.Dialogue.greeting
  converseFrom .initial

/-- The file runner. -/
def runFile (args : List String) : IO UInt32 := do
  let read ←
    match args with
    | [] => pure (.error "")
    | path :: _ => contents path
  let t := Console.runFile (fun _ => read) args
  (← IO.getStdout).putStr t.stdout
  (← IO.getStderr).putStr t.stderr
  return t.status.toUInt32

end HostedLisp.CommandLine

/-- The dialogue or the file runner, by the name of the program. -/
def main (args : List String) : IO UInt32 := do
  let name := (← IO.appPath).fileStem.getD ""
  if name.endsWith "-repl" then HostedLisp.CommandLine.converse
  else HostedLisp.CommandLine.runFile args
