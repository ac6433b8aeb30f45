import Mathlib.Data.List.Forall2
import PropSat.Proofs.CommandLine.Reading

/-!
# Options of a run

What the arguments of a run ask for together can be said without an order of acceptance: each
setting has the last value that an argument gives it, and no argument can change the bounds.
Accepting one more argument leads from what the earlier ones ask for to what all of them do.
-/

namespace PropSat
namespace CommandLine

namespace Argument

/-- The formula that a request gives. -/
@[simp]
def formula? : Argument → Option String
  | .formula text => some text
  | _ => none

/-- The template that a request gives. -/
@[simp]
def template? : Argument → Option IffTemplate
  | .iffTemplate template => template
  | _ => none

/-- The decision limit that a request gives. -/
@[simp]
def decisions? : Argument → Option Nat
  | .decisionLimit count => count
  | _ => none

/-- The seed that a request gives. -/
@[simp]
def seed? : Argument → Option Nat
  | .seed number => number
  | _ => none

/-- The time limit that a request gives. -/
@[simp]
def time? : Argument → Option Duration
  | .timeLimit seconds => seconds.map .ofSeconds
  | _ => none

end Argument

/-- The value that the last of some requests gives, of those that give one. -/
def latest {α : Type} (value? : Argument → Option α) (requests : List Argument) : Option α :=
  (requests.filterMap value?).getLast?

@[simp]
theorem latest_concat {α : Type} (value? : Argument → Option α) (requests : List Argument)
    (request : Argument) :
    latest value? (requests ++ [request]) = (value? request).or (latest value? requests) := by
  rw [latest, latest, List.filterMap_append, List.getLast?_append]
  cases value_eq : value? request <;> simp [value_eq]

/-- How many of some requests give a value. -/
def timesGiven {α : Type} (value? : Argument → Option α) (requests : List Argument) : Nat :=
  requests.countP fun request => (value? request).isSome

theorem length_filterMap_eq {α : Type} (value? : Argument → Option α) (requests : List Argument) :
    (requests.filterMap value?).length = timesGiven value? requests :=
  List.length_filterMap_eq_countP

@[simp]
theorem timesGiven_append {α : Type} (value? : Argument → Option α) (front back : List Argument) :
    timesGiven value? (front ++ back) = timesGiven value? front + timesGiven value? back :=
  List.countP_append

theorem latest_eq_none_iff {α : Type} {value? : Argument → Option α} {requests : List Argument} :
    latest value? requests = none ↔ timesGiven value? requests = 0 := by
  rw [← length_filterMap_eq, List.length_eq_zero_iff]
  exact List.getLast?_eq_none_iff

/-- What some requests ask for together. -/
def asked (requests : List Argument) : Options :=
  let usual : Settings := {}
  { quiet := if .quiet 2 ∈ requests then 2 else if .quiet 1 ∈ requests then 1 else 0
    dimacs := decide (.dimacs ∈ requests)
    seed := latest Argument.seed? requests
    formula := latest Argument.formula? requests
    settings :=
      { keepClausal := usual.keepClausal.force (decide (.tseitin ∉ requests))
        iffTemplate :=
          usual.iffTemplate.force ((latest Argument.template? requests).getD .direct)
        decisionLimit :=
          usual.decisionLimit.force ((latest Argument.decisions? requests).getD greatestCount)
        timeLimit := usual.timeLimit.force ((latest Argument.time? requests).getD .longest) } }

theorem asked_nil : asked [] = {} := rfl

section Acceptance

variable {seen : List Argument} {request : Argument}

theorem set?_of_le {α : Type} [LE α] [DecidableLE α] {setting : Setting α} {value : α}
    (above : setting.least ≤ value) (below : value ≤ setting.greatest) :
    setting.set? value = some (setting.force value) :=
  if_pos ⟨above, below⟩

theorem accept_formula {text : String} (first : latest Argument.formula? seen = none) :
    (asked seen).accept (.formula text) = .ok (asked (seen ++ [.formula text])) := by
  simp [Options.accept, asked, first]

theorem accept_quiet {level : Nat} (usable : level = 1 ∨ level = 2) :
    (asked seen).accept (.quiet level) = .ok (asked (seen ++ [.quiet level])) := by
  have level_eq : max (asked seen).quiet level = (asked (seen ++ [.quiet level])).quiet := by
    simp only [asked, List.mem_append, List.mem_singleton, Argument.quiet.injEq]
    rcases usable with rfl | rfl <;> grind
  rw [Options.accept, level_eq]
  simp [asked]

theorem accept_template {template : IffTemplate} :
    (asked seen).accept (.iffTemplate (some template)) =
      .ok (asked (seen ++ [.iffTemplate (some template)])) := by
  have set_eq : (asked seen).settings.iffTemplate.set? template =
      some ((asked seen).settings.iffTemplate.force template) := by
    apply set?_of_le <;> cases template <;> exact of_decide_eq_true rfl
  rw [Options.accept, Option.bind_some, set_eq]
  simp [asked, Setting.force]

theorem accept_decisionLimit {count : Nat} (fits : count ≤ greatestCount) :
    (asked seen).accept (.decisionLimit (some count)) =
      .ok (asked (seen ++ [.decisionLimit (some count)])) := by
  have set_eq : (asked seen).settings.decisionLimit.set? count =
      some ((asked seen).settings.decisionLimit.force count) :=
    set?_of_le (Nat.zero_le _) fits
  rw [Options.accept, Option.bind_some, set_eq]
  simp [asked, Setting.force]

/-- Any number of seconds that can be read makes a time limit. -/
theorem ofSeconds_le_longest {seconds : Nat} (fits : seconds ≤ greatestCount) :
    Duration.ofSeconds seconds ≤ .longest := by
  have below : seconds < UInt64.size := Nat.lt_of_le_pred (by decide) fits
  have second : 0 < Duration.perSecond := by decide
  rw [Duration.le_iff, Duration.ofSeconds, Duration.longest]
  exact Nat.le_sub_one_of_lt (Nat.mul_lt_mul_of_pos_right below second)

theorem ofSeconds_zero_le (duration : Duration) : Duration.ofSeconds 0 ≤ duration := by
  rw [Duration.le_iff, Duration.ofSeconds, Nat.zero_mul]
  exact Nat.zero_le _

theorem accept_timeLimit {seconds : Nat} (fits : seconds ≤ greatestCount) :
    (asked seen).accept (.timeLimit (some seconds)) =
      .ok (asked (seen ++ [.timeLimit (some seconds)])) := by
  have least_eq : (asked seen).settings.timeLimit.least = .ofSeconds 0 := rfl
  have greatest_eq : (asked seen).settings.timeLimit.greatest = .longest := rfl
  have set_eq : (asked seen).settings.timeLimit.set? (.ofSeconds seconds) =
      some ((asked seen).settings.timeLimit.force (.ofSeconds seconds)) := by
    apply set?_of_le
    · rw [least_eq]
      exact ofSeconds_zero_le _
    · rw [greatest_eq]
      exact ofSeconds_le_longest fits
  rw [Options.accept, Option.bind_some, set_eq]
  simp [asked, Setting.force]

/-- Accepting a usable request adds it to what was asked for, unless it is a second formula. -/
theorem accept_asked (usable : request.Usable)
    (single : timesGiven Argument.formula? (seen ++ [request]) ≤ 1) :
    (asked seen).accept request = .ok (asked (seen ++ [request])) := by
  cases request with
  | formula text =>
      have given : timesGiven Argument.formula? [.formula text] = 1 := rfl
      rw [timesGiven_append, given] at single
      exact accept_formula (latest_eq_none_iff.mpr (by omega))
  | quiet level => exact accept_quiet usable
  | dimacs => simp [Options.accept, asked]
  | tseitin => simp [Options.accept, asked, Setting.force]
  | decisionLimit count =>
      obtain ⟨number, fits, rfl⟩ := usable
      exact accept_decisionLimit fits
  | iffTemplate template =>
      obtain ⟨chosen, rfl⟩ := usable
      exact accept_template
  | seed seed =>
      obtain ⟨number, _, rfl⟩ := usable
      simp [Options.accept, asked]
  | timeLimit seconds =>
      obtain ⟨number, fits, rfl⟩ := usable
      exact accept_timeLimit fits
  | unknown text => exact usable.elim

/-- A refused request is not accepted, whatever was asked for. -/
theorem exists_error_of_refused (options : Options) (refused : request.Refused) :
    ∃ fault, options.accept request = .error fault := by
  cases request with
  | formula _ | quiet _ | dimacs | tseitin => exact refused.elim
  | decisionLimit _ | iffTemplate _ | seed _ | timeLimit _ =>
      cases refused
      exact ⟨_, rfl⟩
  | unknown _ => exact ⟨_, rfl⟩

/-- A second formula is not accepted. -/
theorem exists_error_of_second (single : timesGiven Argument.formula? seen ≤ 1)
    (second : ¬ timesGiven Argument.formula? (seen ++ [request]) ≤ 1) :
    ∃ fault, (asked seen).accept request = .error fault := by
  rw [timesGiven_append] at second
  cases request with
  | formula text =>
      have given : timesGiven Argument.formula? [.formula text] = 1 := rfl
      have some_seen : latest Argument.formula? seen ≠ none := by
        rw [Ne, latest_eq_none_iff]
        omega
      obtain ⟨earlier, earlier_eq⟩ := Option.ne_none_iff_exists'.mp some_seen
      have formula_eq : (asked seen).formula = some earlier := earlier_eq
      exact ⟨.secondFormula text, by simp only [Options.accept, formula_eq]⟩
  | _ => exact absurd single second

end Acceptance

section Runs

variable {seen requests : List Argument} {final : Options}

theorem Argument.Refused.not_usable {request : Argument} (refused : request.Refused) :
    ¬ request.Usable := by
  intro usable
  cases request with
  | formula _ | quiet _ | dimacs | tseitin => exact refused
  | unknown _ => exact usable
  | iffTemplate _ =>
      obtain ⟨_, rfl⟩ := usable
      cases refused
  | decisionLimit _ | seed _ | timeLimit _ =>
      obtain ⟨_, _, rfl⟩ := usable
      cases refused

theorem acceptAll_of_ok {options next : Options} {request : Argument} (requests : List Argument)
    (accepted : options.accept request = .ok next) :
    options.acceptAll (request :: requests) = next.acceptAll requests := by
  rw [Options.acceptAll, accepted]

theorem acceptAll_of_error {options : Options} {request : Argument} (requests : List Argument)
    (failed : ∃ fault, options.accept request = .error fault) :
    ∃ fault, options.acceptAll (request :: requests) = .error fault := by
  obtain ⟨fault, failed⟩ := failed
  exact ⟨fault, by rw [Options.acceptAll, failed]⟩

/-- Accepting requests in turn adds them to what was asked for, if each is usable and there is at
most one formula. -/
theorem acceptAll_asked_iff (decided : ∀ request ∈ requests, request.Usable ∨ request.Refused)
    (single : timesGiven Argument.formula? seen ≤ 1) :
    (asked seen).acceptAll requests = .ok final ↔
      timesGiven Argument.formula? (seen ++ requests) ≤ 1 ∧
        (∀ request ∈ requests, request.Usable) ∧ final = asked (seen ++ requests) := by
  induction requests generalizing seen with
  | nil => simp [Options.acceptAll, single, eq_comm]
  | cons request rest induction =>
      obtain ⟨first_decided, rest_decided⟩ := List.forall_mem_cons.mp decided
      rw [List.forall_mem_cons, List.append_cons]
      by_cases refused : request.Refused
      · obtain ⟨fault, failed⟩ :=
          acceptAll_of_error rest (exists_error_of_refused (asked seen) refused)
        simp [failed, refused.not_usable]
      · have usable := first_decided.resolve_right refused
        by_cases next_single : timesGiven Argument.formula? (seen ++ [request]) ≤ 1
        · rw [acceptAll_of_ok rest (accept_asked usable next_single),
            induction rest_decided next_single]
          simp [usable]
        · obtain ⟨fault, failed⟩ :=
            acceptAll_of_error rest (exists_error_of_second single next_single)
          have too_many :
              ¬ timesGiven Argument.formula? (seen ++ [request] ++ rest) ≤ 1 := by
            rw [timesGiven_append]
            omega
          simp only [failed, too_many, reduceCtorEq, false_and]

end Runs

section Arguments

variable {arguments others : List String} {options : Options}

theorem formula?_isSome_ofText (text : String) :
    (Argument.ofText text).formula?.isSome = decide (text.toList.head? ≠ some '-') := by
  by_cases plain : text.toList.head? ≠ some '-'
  · rw [ofText_formula plain, decide_eq_true plain]
    rfl
  · rw [decide_eq_false plain]
    unfold Argument.ofText
    rw [if_neg plain]
    split <;> rfl

theorem timesGiven_formula (arguments : List String) :
    timesGiven Argument.formula? (arguments.map Argument.ofText) =
      arguments.countP fun argument => argument.toList.head? ≠ some '-' := by
  rw [timesGiven, List.countP_map]
  exact List.countP_congr fun argument _ => by
    rw [Function.comp_apply, formula?_isSome_ofText]

/-- Arguments are accepted if at most one is a formula and each is usable. -/
theorem ofArguments_eq_ok_iff :
    Options.ofArguments arguments = .ok options ↔
      arguments.countP (fun argument => argument.toList.head? ≠ some '-') ≤ 1 ∧
        (∀ argument ∈ arguments, (Argument.ofText argument).Usable) ∧
          options = asked (arguments.map Argument.ofText) := by
  have decided : ∀ request ∈ arguments.map Argument.ofText, request.Usable ∨ request.Refused :=
    List.forall_mem_map.mpr fun text _ => usable_or_refused text
  have none_seen : timesGiven Argument.formula? [] ≤ 1 := Nat.zero_le 1
  rw [Options.ofArguments, ← asked_nil, acceptAll_asked_iff decided none_seen, List.nil_append,
    timesGiven_formula, List.forall_mem_map]

theorem exists_ofArguments_iff :
    (∃ options, Options.ofArguments arguments = .ok options) ↔
      arguments.countP (fun argument => argument.toList.head? ≠ some '-') ≤ 1 ∧
        ∀ argument ∈ arguments, (Argument.ofText argument).Usable := by
  simp only [ofArguments_eq_ok_iff]
  constructor
  · rintro ⟨_, single, usable, _⟩
    exact ⟨single, usable⟩
  · rintro ⟨single, usable⟩
    exact ⟨_, single, usable, rfl⟩

theorem exists_takenFor_iff {text : String} :
    (∃ request, TakenFor text.toList request) ↔ (Argument.ofText text).Usable := by
  constructor
  · rintro ⟨request, taken⟩
    obtain ⟨rfl, usable⟩ := takenFor_iff.mp taken
    exact usable
  · exact fun usable => ⟨_, takenFor_iff.mpr ⟨rfl, usable⟩⟩

theorem forall₂_takenFor_iff {requests : List Argument} :
    List.Forall₂ (fun argument request => TakenFor argument.toList request) arguments requests ↔
      (∀ argument ∈ arguments, (Argument.ofText argument).Usable) ∧
        requests = arguments.map Argument.ofText := by
  induction arguments generalizing requests with
  | nil => simp
  | cons argument rest induction =>
      rw [List.forall₂_cons_left_iff, List.forall_mem_cons, List.map_cons]
      constructor
      · rintro ⟨request, later, taken, laters, rfl⟩
        obtain ⟨rfl, usable⟩ := takenFor_iff.mp taken
        obtain ⟨all_usable, rfl⟩ := induction.mp laters
        exact ⟨⟨usable, all_usable⟩, rfl⟩
      · rintro ⟨⟨usable, all_usable⟩, rfl⟩
        exact ⟨_, _, takenFor_iff.mpr ⟨rfl, usable⟩, induction.mpr ⟨all_usable, rfl⟩, rfl⟩

/-- Arguments are accepted if at most one of them is a formula, and each other one is an option with
a value within bounds, unless it needs none; whatever stands behind a further equality sign.  Then
every setting has the value of the last option for it. -/
theorem ofArguments_accepts (arguments : List String) :
    ((∃ options, Options.ofArguments arguments = .ok options) ↔
      arguments.countP (fun argument => argument.toList.head? ≠ some '-') ≤ 1 ∧
        ∀ argument ∈ arguments, ∃ request, TakenFor argument.toList request) ∧
    ∀ options, Options.ofArguments arguments = .ok options ↔
      arguments.countP (fun argument => argument.toList.head? ≠ some '-') ≤ 1 ∧
        ∃ requests,
          List.Forall₂ (fun argument request => TakenFor argument.toList request) arguments
            requests ∧
          options = asked requests := by
  constructor
  · simp only [exists_ofArguments_iff, exists_takenFor_iff]
  · intro options
    rw [ofArguments_eq_ok_iff]
    refine and_congr_right fun _ => ⟨?_, ?_⟩
    · rintro ⟨usable, rfl⟩
      exact ⟨_, forall₂_takenFor_iff.mpr ⟨usable, rfl⟩, rfl⟩
    · rintro ⟨requests, taken, rfl⟩
      obtain ⟨usable, rfl⟩ := forall₂_takenFor_iff.mp taken
      exact ⟨usable, rfl⟩

/-- What stands behind a further equality sign is no part of any option, and still accepted. -/
theorem ofArguments_accepts_surplus :
    (∃ options, Options.ofArguments ["--dimacs=no", "--decision_limit=5=9"] = .ok options ∧
      options.dimacs = true ∧ options.settings.decisionLimit.value = 5) ∧
    (∀ request, ¬ Asks "--dimacs=no".toList request) ∧
    ∀ request, ¬ Asks "--decision_limit=5=9".toList request := by
  have dimacs : ("--dimacs", Argument.dimacs) ∈ flags := by simp [flags]
  have limit : ("--decision_limit", Argument.decisionLimit) ∈ countOptions := by
    simp [countOptions]
  have five : Counts ['5'] 5 := .plain (isDecimal_toString 5) (by decide)
  refine ⟨⟨_, rfl, rfl, rfl⟩, ?_, ?_⟩
  · rw [show "--dimacs=no".toList = "--dimacs".toList ++ '=' :: "no".toList from rfl]
    exact not_asks_of_surplus (.flag dimacs) rfl
  · rw [show "--decision_limit=5=9".toList =
      ("--decision_limit".toList ++ '=' :: ['5']) ++ '=' :: ['9'] from rfl]
    exact not_asks_of_surplus (.valued (.count limit five)) rfl

end Arguments

section Orders

variable {arguments others : List String} {requests later : List Argument}

theorem eq_of_perm_of_length_le_one {α : Type} {front back : List α} (perm : front.Perm back)
    (single : front.length ≤ 1) : front = back := by
  cases front with
  | nil => exact (List.nil_perm.mp perm).symm
  | cons first rest =>
      obtain rfl : rest = [] := List.length_eq_zero_iff.mp (by simpa using single)
      exact (List.perm_singleton.mp perm.symm).symm

theorem latest_perm {α : Type} {value? : Argument → Option α} (perm : requests.Perm later)
    (single : timesGiven value? requests ≤ 1) : latest value? requests = latest value? later := by
  rw [← length_filterMap_eq] at single
  rw [latest, latest, eq_of_perm_of_length_le_one (perm.filterMap value?) single]

/-- What requests ask for together does not depend on their order, if none contradicts another. -/
theorem asked_perm (perm : requests.Perm later)
    (formula : timesGiven Argument.formula? requests ≤ 1)
    (template : timesGiven Argument.template? requests ≤ 1)
    (decisions : timesGiven Argument.decisions? requests ≤ 1)
    (seed : timesGiven Argument.seed? requests ≤ 1)
    (time : timesGiven Argument.time? requests ≤ 1) : asked requests = asked later := by
  simp only [asked, perm.mem_iff, latest_perm perm formula, latest_perm perm template,
    latest_perm perm decisions, latest_perm perm seed, latest_perm perm time]

/-- Name of the option with a value that a request is for. -/
def Argument.valuedName? : Argument → Option String
  | .decisionLimit _ => some "--decision_limit"
  | .iffTemplate _ => some "--equiv"
  | .seed _ => some "--random"
  | .timeLimit _ => some "--time_limit"
  | _ => none

theorem optionName_of_valuedName? {text name : String}
    (named : (Argument.ofText text).valuedName? = some name) :
    optionName text.toList = name.toList := by
  by_cases plain : text.toList.head? ≠ some '-'
  · rw [ofText_formula plain] at named
    cases named
  · unfold Argument.ofText at named
    rw [if_neg plain] at named
    split at named
    all_goals
      cases named
    all_goals
      rename_i same
      rw [← same, String.toList_ofList]

/-- A value is given at most as often as the option for it occurs. -/
theorem timesGiven_le {α : Type} {value? : Argument → Option α} {name : String}
    (named : ∀ request : Argument, (value? request).isSome = true →
      request.valuedName? = some name) (arguments : List String) :
    timesGiven value? (arguments.map Argument.ofText) ≤
      arguments.countP fun argument => optionName argument.toList = name.toList := by
  rw [timesGiven, List.countP_map]
  apply List.countP_mono_left
  intro text _ given
  exact decide_eq_true (optionName_of_valuedName? (named _ given))

/-- The order of arguments does not matter for whether they are accepted, nor for what they ask for
together unless an option with a value is given again. -/
theorem ofArguments_perm (perm : arguments.Perm others) :
    ((∃ options, Options.ofArguments arguments = .ok options) ↔
      ∃ options, Options.ofArguments others = .ok options) ∧
    ∀ options, Options.ofArguments arguments = .ok options →
      (∀ name ∈ valuedNames,
        arguments.countP (fun argument => optionName argument.toList = name.toList) ≤ 1) →
      Options.ofArguments others = .ok options := by
  have same_count := perm.countP_eq fun argument => decide (argument.toList.head? ≠ some '-')
  constructor
  · rw [exists_ofArguments_iff, exists_ofArguments_iff, same_count]
    simp only [perm.mem_iff]
  · intro options accepted once
    rw [ofArguments_eq_ok_iff] at accepted ⊢
    obtain ⟨single, usable, rfl⟩ := accepted
    have formula : timesGiven Argument.formula? (arguments.map Argument.ofText) ≤ 1 := by
      rw [timesGiven_formula]
      exact single
    have given {α : Type} (value? : Argument → Option α) (name : String)
        (member : name ∈ valuedNames)
        (named : ∀ request : Argument, (value? request).isSome = true →
          request.valuedName? = some name) :
        timesGiven value? (arguments.map Argument.ofText) ≤ 1 :=
      Nat.le_trans (timesGiven_le named arguments) (once name member)
    refine ⟨same_count ▸ single, fun argument member => usable argument (perm.mem_iff.mpr member),
      asked_perm (perm.map _) formula (given _ "--equiv" (by decide) ?_)
        (given _ "--decision_limit" (by decide) ?_) (given _ "--random" (by decide) ?_)
        (given _ "--time_limit" (by decide) ?_)⟩
    all_goals
      intro request
      cases request <;> simp [Argument.valuedName?]

/-- A later `-q` does not lower what `-qq` asks for. -/
theorem ofArguments_perm_quiet :
    ["-q", "--random=3", "a", "-qq"].Perm ["-qq", "a", "--random=3", "-q"] ∧
      Options.ofArguments ["-qq", "a", "--random=3", "-q"] =
        .ok { quiet := 2, seed := some 3, formula := some "a" } := by
  have perm : ["-q", "--random=3", "a", "-qq"].Perm ["-qq", "a", "--random=3", "-q"] := by decide
  exact ⟨perm, (ofArguments_perm perm).2 _ rfl (by decide)⟩

end Orders

end CommandLine
end PropSat
