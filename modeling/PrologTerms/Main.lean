import PrologTerms.CommandLine

/-!
# The program
-/

/-- Carries out the command of the first argument on the file of the second. -/
def main (args : List String) : IO UInt32 := do
  match args with
  | [name, file] =>
    match PrologTerms.Command.ofName? name with
    | some c =>
      let text ← IO.FS.readFile file
      let stderr ← IO.getStderr
      let o := c.run file text (← stderr.isTty)
      IO.print o.output
      IO.eprint o.errorOutput
      return o.code.toUInt32
    | none =>
      IO.eprintln ("unknown command: " ++ name)
      return 2
  | _ =>
    IO.eprintln "usage: tokenize FILE, parse FILE, or unify FILE"
    return 2
