import YamlSieve.CommandLine.Job

/-!
# The program

Reads the configuration of the user, the command line, and the documents, and prints the results.
-/

open YamlSieve YamlSieve.CommandLine

namespace YamlSieve.CommandLine

/-- The content of a file, if it can be read. -/
def contentOf? (path : String) : IO (Option ByteArray) := do
  try
    return some (← IO.FS.readBinFile path)
  catch _ =>
    return none

/-- The configuration in the home directory of the user. -/
def loadConfiguration : IO Configuration := do
  match ← IO.getEnv "HOME" with
  | none      => return {}
  | some home => return .ofContent (← contentOf? (home ++ "/.config/yamlfilter/config.toml"))

def report (failure : Failure) : IO Unit := do
  match failure.messages ++ failure.detail?.toList with
  | []                 => IO.eprintln "Error"
  | message :: causes => do
    IO.eprintln ("Error: " ++ message)
    if !causes.isEmpty then
      IO.eprintln "\nCaused by:"
      for cause in causes do
        IO.eprintln ("    " ++ cause)

end YamlSieve.CommandLine

def main (arguments : List String) : IO UInt32 := do
  match Arguments.read? arguments with
  | none           => do
    IO.eprintln "Usage: [OPTIONS] <EXPRESSION> [FILE]"
    return 2
  | some arguments => do
    let job := Job.make arguments (← loadConfiguration)
    let content ←
      match job with
      | .error _ => pure none
      | .ok job  =>
        match job.file with
        | some path => contentOf? path
        | none      => some <$> (← IO.getStdin).readBinToEnd
    let outcome := Job.outcome job content
    IO.print outcome.output
    if let some failure := outcome.failure then
      report failure
    return outcome.exitCode.toUInt32
