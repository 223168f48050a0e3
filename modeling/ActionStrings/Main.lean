import ActionStrings.CommandLine

open ActionStrings

def standardInput : IO CommandLine.Stdin := do
  let stream ← IO.getStdin
  if ← stream.isTty then return .terminal
  return .piped (← stream.readBinToEnd)

-- The clock runs while the text is examined, not while the report is written.
def main (args : List String) : IO UInt32 := do
  let plan := CommandLine.plan (.standard (← (← IO.getStdout).isTty)) args
  let stdin ← if plan.readsInput then standardInput else pure .terminal
  let begun ← IO.monoNanosNow
  let conclusion ← IO.lazyPure fun _ => plan.carryOut stdin
  let ended ← IO.monoNanosNow
  let outcome := conclusion.outcome ⟨[.green],s!"{ended - begun}ns"⟩
  (← IO.getStdout).putStr outcome.stdout
  (← IO.getStderr).putStr outcome.stderr
  return UInt32.ofNat outcome.exit
