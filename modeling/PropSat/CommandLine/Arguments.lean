import PropSat.Settings

/-!
# Arguments

An argument that does not begin with a hyphen is the formula; any other one is an option, whose
value, if it needs one, stands between its first and its second equality sign.  Arguments take
effect one after the other, so the last value of an option counts.
-/

namespace PropSat
namespace CommandLine

/-- Value of decimal digits. -/
def digitsValue (digits : List Char) : Nat :=
  digits.foldl (fun value digit => 10 * value + (digit.toNat - '0'.toNat)) 0

/-- Read a count: digits, perhaps after a plus sign, with a value that a setting can hold. -/
def readCount? (text : List Char) : Option Nat :=
  let digits :=
    match text with
    | '+' :: rest => rest
    | _ => text
  if !digits.isEmpty && digits.all Char.isDigit && digitsValue digits ≤ greatestCount then
    some (digitsValue digits)
  else
    none

/-- What stands before the first equality sign. -/
def optionName (text : List Char) : List Char := text.takeWhile (· ≠ '=')

/-- What stands between the first equality sign and the second, if there is a first. -/
def optionValue? (text : List Char) : Option (List Char) :=
  match text.dropWhile (· ≠ '=') with
  | [] => none
  | _ :: rest => some (rest.takeWhile (· ≠ '='))

/-- One argument, with the value that an option was given if that could be read. -/
inductive Argument where
  | formula (text : String)
  | quiet (level : Nat)
  | dimacs
  | tseitin
  | decisionLimit (count : Option Nat)
  | iffTemplate (template : Option IffTemplate)
  | seed (seed : Option Nat)
  | timeLimit (seconds : Option Nat)
  | unknown (text : String)
  deriving DecidableEq

/-- Read one argument. -/
def Argument.ofText (text : String) : Argument :=
  let characters := text.toList
  if characters.head? ≠ some '-' then .formula text
  else
    let value := optionValue? characters
    match String.ofList (optionName characters) with
    | "-q" => .quiet 1
    | "-qq" => .quiet 2
    | "--dimacs" => .dimacs
    | "--tseitin" => .tseitin
    | "--decision_limit" => .decisionLimit (value.bind readCount?)
    | "--equiv" => .iffTemplate (value.bind fun value => IffTemplate.ofText? (.ofList value))
    | "--random" => .seed (value.bind readCount?)
    | "--time_limit" => .timeLimit (value.bind readCount?)
    | _ => .unknown text

/-- Why arguments are refused. -/
inductive UsageFault where
  /-- There is a formula already. -/
  | secondFormula (text : String)
  /-- A decision limit is missing or not within these bounds. -/
  | decisionLimit (least greatest : Nat)
  /-- A template is missing or not within these bounds. -/
  | iffTemplate (least greatest : IffTemplate)
  /-- A seed is missing or too great. -/
  | seed
  /-- A time limit is missing or not at least this long. -/
  | timeLimit (least : Duration)
  /-- There is no such option. -/
  | unknownOption (text : String)
  deriving DecidableEq

/-- Wording of a refusal. -/
def UsageFault.message : UsageFault → String
  | secondFormula text => "At most one formula may be given, found a second: " ++ text
  | decisionLimit least greatest =>
      "decision_limit requires a value between " ++ toString least ++ " and " ++ toString greatest
  | iffTemplate least greatest =>
      "equiv requires a template between " ++ least.text ++ " and " ++ greatest.text
  | seed => "random requires a seed between 0 and 2^64 - 1"
  | timeLimit least =>
      "time_limit requires a count of seconds, of at least " ++ toString least.seconds
  | unknownOption text => "Unknown option: " ++ text

/-- What the arguments ask for. -/
structure Options where
  /-- What to hold back: nothing at 0, the tree and the trace at 1, all but the verdict at 2. -/
  quiet : Nat := 0
  /-- Whether to write the clauses as signed numbers too. -/
  dimacs : Bool := false
  /-- Seed of a random formula to solve instead of a given one. -/
  seed : Option Nat := none
  /-- The formula, unless it is to be read. -/
  formula : Option String := none
  /-- Settings of the encoding and the search. -/
  settings : Settings := {}

namespace Options

/-- Take one argument into account. -/
def accept (options : Options) : Argument → Except UsageFault Options
  | .formula text =>
      match options.formula with
      | some _ => .error (.secondFormula text)
      | none => .ok { options with formula := some text }
  | .quiet level => .ok { options with quiet := max options.quiet level }
  | .dimacs => .ok { options with dimacs := true }
  | .tseitin =>
      let keepClausal := options.settings.keepClausal.force false
      .ok { options with settings := { options.settings with keepClausal } }
  | .decisionLimit count =>
      let setting := options.settings.decisionLimit
      match count.bind setting.set? with
      | some decisionLimit =>
          .ok { options with settings := { options.settings with decisionLimit } }
      | none => .error (.decisionLimit setting.least setting.greatest)
  | .iffTemplate template =>
      let setting := options.settings.iffTemplate
      match template.bind setting.set? with
      | some iffTemplate => .ok { options with settings := { options.settings with iffTemplate } }
      | none => .error (.iffTemplate setting.least setting.greatest)
  | .seed (some seed) => .ok { options with seed := some seed }
  | .seed none => .error .seed
  | .timeLimit seconds =>
      let setting := options.settings.timeLimit
      match seconds.bind fun seconds => setting.set? (.ofSeconds seconds) with
      | some timeLimit => .ok { options with settings := { options.settings with timeLimit } }
      | none => .error (.timeLimit setting.least)
  | .unknown text => .error (.unknownOption text)

/-- Take arguments into account in turn, up to the first that is refused. -/
def acceptAll (options : Options) : List Argument → Except UsageFault Options
  | [] => .ok options
  | argument :: rest =>
      match options.accept argument with
      | .ok next => next.acceptAll rest
      | .error fault => .error fault

/-- Read all arguments of a run. -/
def ofArguments (arguments : List String) : Except UsageFault Options :=
  ({} : Options).acceptAll (arguments.map Argument.ofText)

end Options
end CommandLine
end PropSat
