import Formula.CommandLine.Program

/-! # The command line

Reading files and standard input, and writing what the program leaves behind.
-/

namespace Formula.CommandLine

/-- The reads of a stream: its bytes, and the failure that ends them early. -/
def readAll (stream : IO.FS.Stream) : IO (List ByteRead) := do
  let mut reads := #[]
  repeat
    let chunk ← try stream.read 4096 catch _ => return (reads.push .failed).toList
    if chunk.isEmpty then break
    reads := reads ++ chunk.data.map .byte
  return reads.toList

def openFile (name : String) : IO File := do
  try
    let handle ← IO.FS.Handle.mk name .read
    return .opened (← readAll (.ofHandle handle))
  catch
    | .noFileOrDirectory _ code _ =>
      return .refused ("No such file or directory (os error " ++ toString code ++ ")")
    | cause => return .refused (toString cause)

end Formula.CommandLine

open Formula.CommandLine in
def main (arguments : List String) : IO UInt32 := do
  let input := (Config.ofArguments arguments).toOption.map (·.input)
  let file ← match input with
    | some (some name) => openFile name
    | _ => pure (.opened [])
  let reads ← match input with
    | some none => readAll (← IO.getStdin)
    | _ => pure []
  let exit := run arguments (fun _ => file) reads
  let stdout ← IO.getStdout
  let stderr ← IO.getStderr
  stdout.write exit.stdout
  stderr.write exit.stderr
  return exit.code.toUInt32
