import ChipEight.Checked
import ChipEight.Console.Schedule
import ChipEight.Keyboard
import ChipEight.Main
import ChipEight.Proofs.Arithmetic
import ChipEight.Proofs.Batching
import ChipEight.Proofs.Countdown
import ChipEight.Proofs.Counter
import ChipEight.Proofs.Dumps
import ChipEight.Proofs.Edges
import ChipEight.Proofs.Faults
import ChipEight.Proofs.Glyphs
import ChipEight.Proofs.HeldKeys
import ChipEight.Proofs.Image.Defects
import ChipEight.Proofs.KeyWait
import ChipEight.Proofs.NoHazard
import ChipEight.Proofs.Office.Continuity
import ChipEight.Proofs.Office.InLine
import ChipEight.Proofs.Office.LoadKey
import ChipEight.Proofs.Office.Paused
import ChipEight.Proofs.Office.Recovery
import ChipEight.Proofs.Office.Reports
import ChipEight.Proofs.Office.Shown
import ChipEight.Proofs.Office.SpeedKeys
import ChipEight.Proofs.Office.Unseen
import ChipEight.Proofs.Ranges
import ChipEight.Proofs.Replay
import ChipEight.Proofs.Sprites
import ChipEight.Proofs.Successor
import ChipEight.Proofs.Tone
import ChipEight.Proofs.WideIndex
import ChipEight.Sound.Tone
import ChipEight.Stream
