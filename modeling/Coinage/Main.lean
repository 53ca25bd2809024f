import Coinage.CommandLine

-- A seed from the random bytes of the system.
def ambientSeed : IO UInt64 := do
  let bytes ← IO.getRandomBytes 8
  return bytes.foldl (fun seed byte => seed * 256 + byte.toUInt64) 0

def main (arguments : List String) : IO UInt32 := do
  let outcome := Coinage.CommandLine.run (arguments.map String.toList) (← ambientSeed)
  (← IO.getStdout).putStr (String.ofList outcome.output)
  return outcome.status
