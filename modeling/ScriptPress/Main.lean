import ScriptPress.CommandLine.Run

/-! # The program

Reads the files that a command line names, carries the command out on them, and writes what it
answers.
-/
namespace ScriptPress.CommandLine

/-- Shown for a command line that asks for nothing known. -/
def usage : String :=
  "usage: scriptpress [--js-version N] [--config FILE] [--warnings] [--locale TAG] COMMAND ...\n\n"
    ++ "  crunch FILE [-o FILE]\n"
    ++ "  format FILE [-o FILE] [--offset N] [--indent N] [--label-setback N] [--tabs]"
    ++ " [--blank-line]\n"
    ++ "  strip FILE [-o FILE] [--no-check]\n"
    ++ "  check FILE... [--json]\n"
    ++ "  tree FILE [--functions [--json]]\n"

/-- The number of a system error, which some calls give as its negative. -/
def errorNumber (code : UInt32) : UInt32 := if code < 0x80000000 then code else -code

/-- Why the system refused a file. -/
def problemOf (e : IO.Error) : FileProblem :=
  match e with
  | .noFileOrDirectory _ _ _ => .missing
  | .inappropriateType _ code _ => if errorNumber code == 20 then .notADirectory else .isDirectory
  | e => .other (toString e)

def load (path : String) : IO (Except FileProblem String) := do
  match ← (IO.FS.readBinFile path).toBaseIO with
  | .error e => return .error (problemOf e)
  | .ok bytes => return (String.fromUTF8? bytes).elim (.error .notText) .ok

def store (path text : String) : IO (Except FileProblem Unit) := do
  return (← (IO.FS.writeFile path text).toBaseIO).mapError problemOf

end ScriptPress.CommandLine

open ScriptPress CommandLine in
def main (args : List String) : IO UInt32 := do
  let paths := (readInvocation? args).elim [] Invocation.inputs
  let known ← paths.mapM fun path => do return (path, ← load path)
  let (code, console) := answer args fun path => (known.lookup path).getD (.error .missing)
  let (code, console) ← match console.output? with
    | none => pure (code, console)
    | some (path, text) => do
      match ← store path text with
      | .ok () => pure (code, console)
      | .error p => pure (notWritten console path p)
  IO.print console.stdout
  IO.eprint (if code == usageCode then usage else console.stderr)
  return code.toUInt32
