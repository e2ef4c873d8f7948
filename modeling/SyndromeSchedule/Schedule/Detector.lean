import SyndromeSchedule.Schedule.Check

/-!
Detectors: two sets of outcomes whose products agree. The floor holds the earlier outcomes, the lid
the later ones, and offsets count rounds back from the round in which the lid closes.
-/

namespace SyndromeSchedule

/-- A check some rounds away from a round of reference. -/
structure TimedCheck where
  offset : Int
  check : Check
deriving DecidableEq

def TimedCheck.product (timed : List TimedCheck) : Product :=
  timed.foldl (fun p t => p.mul t.check.product) .identity

def DetectorError.find? (floor lid : List TimedCheck) : Option DetectorError :=
  match (floor ++ lid).find? (0 < ·.offset) with
  | some t => some (.future t.offset t.check.product)
  | none =>
      if !lid.any (·.offset = 0) then some .noFreshOutcome
      else if (TimedCheck.product floor).matchesUpToSign (TimedCheck.product lid) then none
      else some (.mismatch (TimedCheck.product floor) (TimedCheck.product lid))

structure Detector where
  floor : List TimedCheck
  lid : List TimedCheck
  /-- Round of the schedule in which the lid closes. -/
  ends : Nat
  sound : DetectorError.find? floor lid = none
deriving DecidableEq

namespace Detector

def make (floor lid : List TimedCheck) (ends : Nat) : Except DetectorError Detector :=
  match h : DetectorError.find? floor lid with
  | some cause => .error cause
  | none => .ok ⟨floor, lid, ends, h⟩

def makeOutcome (floor lid : List TimedCheck) (ends : Nat) : Outcome Detector :=
  .ofExcept (fun cause => .design (.detector cause)) (make floor lid ends)

/-- A check against its own outcome some rounds earlier. The number of rounds is taken as a signed
word, whose least value has no opposite. -/
def repeated (check : Check) (period ends : Nat) : Outcome Detector :=
  let back := -Word.signed period
  if Word.isInt64 back then makeOutcome [⟨back, check⟩] [⟨0, check⟩] ends else .overflow

def timed (d : Detector) : List TimedCheck := d.floor ++ d.lid

/-- Checks with their absolute rounds when the lid closes in a given round. -/
def triggers (d : Detector) (round : Int) : Outcome (List (Check × Int)) :=
  d.timed.mapM fun t =>
    if Word.isInt64 (round + t.offset) then .ok (t.check, round + t.offset) else .overflow

end Detector

end SyndromeSchedule
