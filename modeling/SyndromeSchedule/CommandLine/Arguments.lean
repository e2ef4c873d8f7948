import SyndromeSchedule.Error

/-!
Arguments of the command line. An option may be given once, its value in the same argument or in the
next; two dashes end the options.
-/

namespace SyndromeSchedule

inductive Command where
  /-- Compile the job in a file. -/
  | compile (job : String) (output : Option String) (json report : Bool)
  /-- Count what a program file holds. -/
  | check (file : String)
deriving DecidableEq, Repr

inductive Invocation where
  | run (command : Command)
  | version
  | help
  /-- They make no sense. -/
  | misuse
deriving DecidableEq, Repr

namespace Arguments

/-- One argument, as far as its form tells. -/
inductive Token where
  /-- Two dashes and nothing else. -/
  | escape
  /-- An option with a long name and perhaps a value. -/
  | long (name : List Char) (value : Option (List Char))
  /-- One dash and letters. -/
  | short (letter : Char) (rest : List Char)
  | plain (text : List Char)

/-- A long option is cut at its first equals sign. -/
def longToken (text : List Char) : Token :=
  match text.dropWhile (· ≠ '=') with
  | _ :: value => .long (text.takeWhile (· ≠ '=')) (some value)
  | [] => .long text none

def token (argument : String) : Token :=
  match argument.toList with
  | ['-', '-'] => .escape
  | '-' :: '-' :: rest => longToken rest
  | ['-'] => .plain ['-']
  | '-' :: letter :: rest => .short letter rest
  | text => .plain text

/-- The value of an option: what is attached to it, or the next argument if it does not look like an
option itself. -/
def value? (attached : Option (List Char)) (rest : List String) :
    Option (List Char × List String) :=
  match attached with
  | some value => some (value, rest)
  | none =>
      match rest with
      | next :: rest =>
          match token next with
          | .plain text => some (text, rest)
          | _ => none
      | [] => none

/-- A value attached to a short option, perhaps by an equals sign. -/
def attached : List Char → Option (List Char)
  | [] => none
  | '=' :: value => some value
  | value => some value

/-- Options and operands of a subcommand read so far. -/
structure Given where
  operands : List (List Char) := []
  output : Option (List Char) := none
  json : Bool := false
  report : Bool := false
  logLevel : Bool := false

/-- Reads the arguments after a subcommand; `compiling` tells which one it is. -/
def operands (compiling : Bool) : Nat → Given → List String → Except Invocation Given
  | 0, _, _ => .error .misuse
  | _, given, [] => .ok given
  | bound + 1, given, argument :: rest =>
      match token argument with
      | .escape => .ok { given with operands := given.operands ++ rest.map String.toList }
      | .plain text =>
          operands compiling bound { given with operands := given.operands ++ [text] } rest
      | .short letter more =>
          if letter = 'h' then .error .help
          else if compiling && letter = 'o' && given.output.isNone then
            match value? (attached more) rest with
            | some (path, rest) =>
                operands compiling bound { given with output := some path } rest
            | none => .error .misuse
          else .error .misuse
      | .long name value =>
          match String.ofList name with
          | "help" => .error (if value.isNone then .help else .misuse)
          | "log-level" =>
              match given.logLevel, value? value rest with
              | false, some (_, rest) =>
                  operands compiling bound { given with logLevel := true } rest
              | _, _ => .error .misuse
          | "output" =>
              match compiling && given.output.isNone, value? value rest with
              | true, some (path, rest) =>
                  operands compiling bound { given with output := some path } rest
              | _, _ => .error .misuse
          | "json" =>
              if compiling && value.isNone && !given.json then
                operands compiling bound { given with json := true } rest
              else .error .misuse
          | "report" =>
              if compiling && value.isNone && !given.report then
                operands compiling bound { given with report := true } rest
              else .error .misuse
          | _ => .error .misuse

/-- The command of a subcommand with its arguments. Paths are not empty. -/
def subcommand (compiling : Bool) (rest : List String) : Invocation :=
  match operands compiling (rest.length + 1) {} rest with
  | .error invocation => invocation
  | .ok given =>
      match given.operands with
      | [path] =>
          if path.isEmpty || given.output = some [] then .misuse
          else if compiling then
            .run (.compile (String.ofList path) (given.output.map String.ofList) given.json
              given.report)
          else .run (.check (String.ofList path))
      | _ => .misuse

/-- Reads the arguments before a subcommand. -/
def read : Nat → Bool → List String → Invocation
  | 0, _, _ => .misuse
  | _, _, [] => .misuse
  | bound + 1, logLevel, argument :: rest =>
      match token argument with
      | .escape => .misuse
      | .plain text =>
          match String.ofList text with
          | "compile" => subcommand true rest
          | "check" => subcommand false rest
          | "help" => .help
          | _ => .misuse
      | .short letter _ =>
          if letter = 'V' then .version else if letter = 'h' then .help else .misuse
      | .long name value =>
          match String.ofList name with
          | "version" => if value.isNone then .version else .misuse
          | "help" => if value.isNone then .help else .misuse
          | "log-level" =>
              match logLevel, value? value rest with
              | false, some (_, rest) => read bound true rest
              | _, _ => .misuse
          | _ => .misuse

end Arguments

def Invocation.ofArguments (arguments : List String) : Invocation :=
  Arguments.read (arguments.length + 1) false arguments

end SyndromeSchedule
