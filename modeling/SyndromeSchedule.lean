import SyndromeSchedule.CommandLine.Folder
import SyndromeSchedule.Main
import SyndromeSchedule.Proofs.Arrangement
import SyndromeSchedule.Proofs.Chaining
import SyndromeSchedule.Proofs.Content
import SyndromeSchedule.Proofs.Events
import SyndromeSchedule.Proofs.Group
import SyndromeSchedule.Proofs.JobPages
import SyndromeSchedule.Proofs.Legible
import SyndromeSchedule.Proofs.ProgramPages
import SyndromeSchedule.Proofs.Repetition
import SyndromeSchedule.Proofs.Rigid
import SyndromeSchedule.Proofs.RoundNoise
import SyndromeSchedule.Proofs.Sweeps
import SyndromeSchedule.Proofs.Transcript
import SyndromeSchedule.Proofs.Undisturbed
