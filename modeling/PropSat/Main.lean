import PropSat.CommandLine.Session
import PropSat.Random.Xoshiro

/-!
# The program

Reads a formula, or draws one from the seeded generator, solves it on the system's clock, and writes
what was found.
-/

namespace PropSat
namespace CommandLine

/-- Input up to the end of its first line. -/
partial def readLine (input : IO.FS.Stream) (start : ByteArray) : IO ByteArray := do
  let next ← input.read 1
  if next.isEmpty || next.toList == [10] then return start
  else readLine input (start ++ next)

/-- Iterate until the search ends, on a clock that started at some time. -/
partial def searchTimed (start : Nat) (solver : Search.Solver) :
    IO (Option (Except Fault Search.Verdict × Search.Solver)) := do
  let now ← IO.monoNanosNow
  match solver.step? { nanoseconds := now - start } with
  | none => return none
  | some (.halt result solver) => return some (result, solver)
  | some (.next solver) => searchTimed start solver

/-- Solve a problem on the system's clock. -/
def solveTimed (prepared : Prepared) : IO Outcome := do
  let start ← IO.monoNanosNow
  let found ←
    match prepared.solver.opening with
    | .done result solver => pure (some (result, solver))
    | .search solver => do
        let found ← searchTimed start solver
        pure (found.map fun (result, solver) => solver.finish result)
  let time : Duration := { nanoseconds := (← IO.monoNanosNow) - start }
  return conclude? prepared (" in " ++ time.text) found

/-- Run on the given arguments. -/
def runTimed (arguments : List String) : IO Outcome := do
  match readArguments arguments with
  | .error outcome => return outcome
  | .ok options =>
      let line ←
        if options.needsInput then
          pure (firstLine? (← readLine (← IO.getStdin) .empty).toList)
        else
          pure none
      match prepare Random.Xoshiro.ofSeed options line with
      | .error outcome => return outcome
      | .ok prepared => solveTimed prepared

end CommandLine
end PropSat

/-- Entry point of the program. -/
def main (arguments : List String) : IO UInt32 := do
  let outcome ← PropSat.CommandLine.runTimed arguments
  IO.print outcome.output
  return outcome.code.toUInt32
