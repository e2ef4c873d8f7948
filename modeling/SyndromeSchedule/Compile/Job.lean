import SyndromeSchedule.Compile.Report

/-!
Jobs: a code, a request and everything a compiler needs, as one description.
-/

namespace SyndromeSchedule

structure Job where
  code : Code
  request : Request
  noise : NoiseSource := .explicit .noiseless
  extractor : Extractor := {}
  options : Options := {}

namespace Job

def compiler (j : Job) : Outcome Compiler := do
  let model ← Outcome.ofExcept .config j.noise.resolve
  Outcome.ofExcept .config (Compiler.make model j.extractor j.options)

/-- A faulty request is a faulty configuration of a job. -/
def configError : Error → Error
  | .request cause => .config (.request cause)
  | cause => cause

def validate (j : Job) : Outcome Unit := do
  let _ ← j.compiler
  match j.request.fault? j.code with
  | some cause => .fail (configError cause)
  | none => .ok ()

def run (j : Job) : Outcome Compilation := do
  let compiler ← j.compiler
  compiler.compile j.code j.request

end Job

end SyndromeSchedule
