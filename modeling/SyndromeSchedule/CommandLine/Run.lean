import SyndromeSchedule.CommandLine.Arguments
import SyndromeSchedule.Document.Job
import SyndromeSchedule.Document.Program
import SyndromeSchedule.Json.Writer
import SyndromeSchedule.Program.Grammar
import SyndromeSchedule.Program.Text

/-!
What a command does with the file it reads: which texts it prints and which file it writes.
-/

namespace SyndromeSchedule

/-- Texts a command leaves behind. -/
structure Effects where
  /-- File to write, before anything is printed. -/
  file : Option (String × String) := none
  stdout : String := ""
  stderr : String := ""
deriving DecidableEq

def Error.exitCode (e : Error) : Nat := if e.isStructural then 2 else 1

def Error.report (e : Error) : String := "Error: " ++ e.message ++ "\n"

/-- Counts of a program, one a line. -/
def Program.summary (p : Program) : Outcome String := do
  let ticks ← Outcome.ofOption p.tickCount
  let measurements ← Outcome.ofOption p.measurementCount
  let detectors ← Outcome.ofOption p.detectorCount
  let observables ← Outcome.ofOption p.observableCount
  return "ticks: " ++ toString ticks ++ "\nmeasurements: " ++ toString measurements ++
    "\ndetectors: " ++ toString detectors ++ "\nobservables: " ++ toString observables

namespace Command

def source : Command → String
  | compile job _ _ _ => job
  | check file => file

def compileText (text : String) (output : Option String) (json report : Bool) :
    Outcome Effects := do
  let job ← (Job.decode.run text).toOutcome
  job.validate
  let compiled ← job.run
  let rendered := if json then compiled.program.toJson.page else compiled.program.text
  let stderr := if report then compiled.report.toJson.page ++ "\n" else ""
  match output with
  | some path => return { file := some (path, rendered), stderr }
  | none => return { stdout := rendered, stderr }

def checkText (text : String) : Outcome String := do
  let program ← Outcome.ofExcept id (Program.ofText text)
  program.summary

/-- What a command does, given its file. -/
def run (c : Command) (contents : Except FileError String) : Outcome Effects := do
  let text ← Outcome.ofExcept .file contents
  match c with
  | compile _ output json report => compileText text output json report
  | check _ =>
      let summary ← checkText text
      return { stdout := summary ++ "\n" }

end Command

def versionText : String := "qecc 0.1.0\n"

end SyndromeSchedule
