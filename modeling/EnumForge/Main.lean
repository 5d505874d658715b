import EnumForge.Cli.Run

/-!
# The program

Reads the files that a request may need, runs it, and carries out its effect.
-/

namespace EnumForge.Cli

/-- The text of a file on disk. -/
def readText (path : String) : IO (Except ReadError String) := do
  try
    match String.fromUTF8? (← IO.FS.readBinFile path) with
    | some content => return .ok content
    | none => return .error .badEncoding
  catch e => return .error <| match e with
    | .noFileOrDirectory .. => .notFound
    | .inappropriateType _ code _ => if code = 20 ∨ code = -20 then .notAFolder else .isAFolder
    | e => .other (toString e)

end EnumForge.Cli

open EnumForge.Cli

def main (arguments : List String) : IO UInt32 := do
  match request? none arguments with
  | none =>
    IO.eprintln ("usage: " ++ programName ++ " [--config FILE] expand|fix|inspect|macros|init")
    return UInt32.ofNat Effect.usage.status
  | some request =>
    let texts ← request.paths.mapM fun path ↦ return (path, ← readText path)
    let effect := runRequest (fun path ↦ (texts.lookup path).getD (.error .notFound)) request
    IO.print effect.output
    if let some (path, content) := effect.write then
      IO.FS.writeFile path content
    IO.eprint effect.errors
    return UInt32.ofNat effect.status
