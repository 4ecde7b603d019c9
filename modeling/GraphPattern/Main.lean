import GraphPattern.CommandLine

/-!
# GraphPattern — the command

Prints the plan of the pattern on the command line.
-/

open GraphPattern

def main (args : List String) : IO UInt32 := do
  match CommandLine.read args with
  | .help =>
    IO.println CommandLine.usage
    return 0
  | .misused =>
    IO.eprintln CommandLine.usage
    return 2
  | .request r => do
    let reply := r.reply (← (← IO.getStderr).isTty)
    IO.print reply.out
    IO.eprint reply.err
    return reply.exit.toUInt32
