import PropSat.CommandLine.Arguments
import PropSat.CommandLine.Trace
import PropSat.Encoding.Clausify
import PropSat.Grammar.Reader
import PropSat.Random.Formula
import PropSat.Search.Run

/-!
# Sessions

A session takes the arguments and the input of one run to its output and exit code.  It is split at
the search, so that a caller with a real clock can make the search itself: `prepare` does all
before the search and `conclude` all after it.  Random texts come from any source of randomness that
can be seeded.
-/

namespace PropSat
namespace CommandLine

open Search (Solver Verdict Counters)

/-- What one run leaves behind. -/
structure Outcome where
  /-- Exit code: 1 for unusable arguments or text, 2 for a failure that should not happen, and 101
  for a run that breaks off. -/
  code : Nat
  /-- Everything written. -/
  output : String
  deriving DecidableEq

/-- The character at an offset in bytes, unless the text ends before or the offset falls inside a
character. -/
def charAt? (position : Nat) : List Char → Option Char
  | [] => none
  | first :: rest =>
      if position = 0 then some first
      else if first.utf8Size ≤ position then charAt? (position - first.utf8Size) rest
      else none

/-- Report on a text that is not a formula. -/
def syntaxReport (text : String) (fault : SyntaxFault) : String :=
  let found :=
    match charAt? fault.position text.toList with
    | some character => character.toString
    | none => "end of input"
  "Parse Error:\n  position: " ++ toString fault.position ++ "\n  found: " ++ found ++
    "\n  expects: " ++ fault.expected.text ++ "\n"

/-- The first line of some input without line ends, unless it is not valid text. -/
def firstLine? (input : List UInt8) : Option String :=
  (String.fromUTF8? ⟨(input.takeWhile (· ≠ 10)).toArray⟩).map fun line =>
    .ofList (line.toList.reverse.dropWhile fun last => last = '\n' || last = '\r').reverse

/-- Whether the formula has to be read from the input. -/
def Options.needsInput (options : Options) : Bool :=
  options.seed.isNone && options.formula.isNone

section Seeding

variable {σ : Type} [Random.Source σ] (seeding : UInt64 → σ)

/-- The text to solve, given the first line of input: a random one, else the one in the arguments,
else the line. -/
def Options.text? (options : Options) (line : Option String) : Option String :=
  match options.seed, options.formula with
  | some seed, _ => (Random.cnfText {} (seeding (.ofNat seed))).map Prod.fst
  | none, some formula => some formula
  | none, none => line

end Seeding

/-- A problem that is ready to be solved. -/
structure Prepared where
  /-- What is asked for. -/
  options : Options
  /-- Names of all atoms. -/
  table : AtomTable
  /-- The clauses to solve. -/
  cnf : Cnf
  /-- The solver, not yet run. -/
  solver : Solver
  /-- What is written before the search. -/
  output : String

/-- What is written about a formula that was read. -/
def formulaReport (quiet : Nat) (parsed : Grammar.Parsed) : String :=
  let nameOf := parsed.table.nameAt
  (if quiet < 2 then
    "Parse complete. No errors.\n\nParse result (disambiguated):\n" ++
      parsed.formula.canonical nameOf ++ "\n"
  else "") ++
  if quiet = 0 then "\nParse tree:\n" ++ parsed.formula.tree nameOf else ""

/-- What is written about the clauses of a formula. -/
def clauseReport (options : Options) (compilation : Encoding.Clausified) : String :=
  (if options.quiet < 2 then
    "\nInternal variable mapping:\n" ++ compilation.table.listing ++ "\nFinal CNF (" ++
      compilation.method.text ++ "):\n" ++ compilation.cnf.text ++ "\n"
  else "") ++
  if options.dimacs then "\n" ++ compilation.cnf.dimacs else ""

/-- Write a failure after what was written before. -/
def failure (output during : String) (fault : Fault) : Outcome :=
  { code := 2, output := output ++ "c " ++ during ++ " error: " ++ fault.message ++ "\n" }

/-- Break off after what was written before. -/
def breakOff (output : String) : Outcome := { code := 101, output }

/-- Read and compile a text, up to the search. -/
def prepareText (options : Options) (text : String) : Except Outcome Prepared :=
  let greeting :=
    if options.seed.isSome && options.quiet = 0 then "c Random formula: " ++ text ++ "\n" else ""
  match Grammar.parse? text with
  | none => .error (breakOff greeting)
  | some (.error fault) => .error { code := 1, output := greeting ++ syntaxReport text fault }
  | some (.ok parsed) =>
      let output := greeting ++ formulaReport options.quiet parsed
      match Encoding.clausify? options.settings parsed.table parsed.formula with
      | none => .error (breakOff output)
      | some (.error fault) => .error (failure output "Compile" fault)
      | some (.ok compilation) =>
          let output := output ++ clauseReport options compilation
          match Solver.load options.settings compilation.cnf with
          | .error fault => .error (failure output "Context" fault)
          | .ok solver =>
              .ok
                { options
                  table := compilation.table
                  cnf := compilation.cnf
                  solver := if options.quiet = 0 then solver.listen else solver
                  output }

/-- Values of the source variables in a model, one on a line. -/
def modelText (table : AtomTable) (model : Array Bool) : String :=
  let source := table.entries.filter fun (_, name) => !AtomTable.auxiliaryName name
  String.join (source.map fun (atom, name) =>
    name ++ ": " ++ (if model[atom]? = some true then "1" else "0") ++ "\n")

/-- The counts of a search in words, with a remark on the time it took. -/
def countText (counters : Counters) (remark : String) : String :=
  "c " ++ toString counters.iterations ++ " iterations, " ++ toString counters.decisions ++
    " decisions, " ++ toString counters.propagations ++ " propagations, " ++
    toString counters.conflicts ++ " conflicts" ++ remark ++ "\n"

/-- Everything after the search, with a remark on the time it took. -/
def conclude (prepared : Prepared) (remark : String) (result : Except Fault Verdict)
    (solver : Solver) : Outcome :=
  let quiet := prepared.options.quiet
  let trace :=
    if quiet = 0 then "\nTrace:\n" ++ traceText prepared.cnf (solver.log.getD #[]).toList else ""
  let output := prepared.output ++ trace
  match result with
  | .error fault => failure output "Solve" fault
  | .ok verdict =>
      let output := output ++ if quiet < 2 then "\n" else ""
      let closing := if quiet = 0 then "\n" ++ countText solver.counters remark else ""
      match verdict with
      | .satisfiable =>
          match solver.model with
          | .ok model =>
              { code := 0
                output := output ++ "SAT\n" ++ modelText prepared.table model ++ closing }
          | .error fault => failure (output ++ "SAT\n") "Model" fault
      | .unsatisfiable => { code := 0, output := output ++ "NON-SAT\n" ++ closing }
      | .timeUp | .unknown =>
          { code := 0, output := output ++ "UNKNOWN (" ++ verdict.text ++ ")\n" ++ closing }

/-- Everything after a search that may have broken off. -/
def conclude? (prepared : Prepared) (remark : String) :
    Option (Except Fault Verdict × Solver) → Outcome
  | some (result, solver) => conclude prepared remark result solver
  | none => breakOff prepared.output

/-- Arguments that can be used, or the outcome of a run without any. -/
def readArguments (arguments : List String) : Except Outcome Options :=
  match Options.ofArguments arguments with
  | .ok options => .ok options
  | .error fault => .error { code := 1, output := "c " ++ fault.message ++ "\n" }

section Seeding

variable {σ : Type} [Random.Source σ] (seeding : UInt64 → σ)

/-- Everything before the search, given the first line of input if it could be read. -/
def prepare (options : Options) (line : Option String) : Except Outcome Prepared :=
  match options.text? seeding line with
  | none => .error { code := 1, output := "c Failed to read a formula\n" }
  | some text => prepareText options text

/-- A whole run, on a clock that tells the time spent before each iteration of the search. -/
def run (clock : Nat → Duration) (arguments : List String) (input : List UInt8) : Outcome :=
  match readArguments arguments with
  | .error outcome => outcome
  | .ok options =>
      match prepare seeding options (firstLine? input) with
      | .error outcome => outcome
      | .ok prepared => conclude? prepared "" (prepared.solver.solve? clock)

end Seeding
end CommandLine
end PropSat
