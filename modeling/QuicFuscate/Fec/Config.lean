import Mathlib.Logic.Function.Basic
import QuicFuscate.Fec.Control

/-!
# The settings of the error correction

What a configuration file says about the error correction, once it has been parsed.  Each setting that the file does not
give has a default, a mode that is not a known name is passed over, and of two windows for one mode the later one holds.
-/

namespace QuicFuscate.Fec

/-- The letter that a character is lowered to, as far as a name can tell: the Kelvin sign is the only character outside
ASCII that gives a letter of a name. -/
def lowered (c : Char) : Char := if c = Char.ofNat 0x212a then 'k' else c.toLower

def FecMode.fromStr (s : List Char) : Option FecMode :=
  let s := s.map lowered
  if s = "0".toList ∨ s = "zero".toList then some .zero
  else if s = "1".toList ∨ s = "light".toList ∨ s = "leicht".toList then some .light
  else if s = "2".toList ∨ s = "normal".toList then some .normal
  else if s = "3".toList ∨ s = "medium".toList ∨ s = "mittel".toList then some .medium
  else if s = "4".toList ∨ s = "strong".toList ∨ s = "stark".toList then some .strong
  else if s = "5".toList ∨ s = "extreme".toList then some .extreme
  else none

structure ModeSection where
  name : List Char
  w0 : ℕ
  deriving DecidableEq, Repr

/-- What the section `adaptive_fec` of a configuration file may say. -/
structure FecSection (R : Type) where
  lambda : Option R
  burstWindow : Option ℕ
  hysteresis : Option R
  pid : Option (PidConfig R)
  kalmanEnabled : Option Bool
  kalmanQ : Option R
  kalmanR : Option R
  modes : Option (List ModeSection)
  deriving DecidableEq

def insertWindow (windows : FecMode → Option ℕ) (msec : ModeSection) : FecMode → Option ℕ :=
  match FecMode.fromStr msec.name with
  | some mode => Function.update windows mode (some msec.w0)
  | none => windows

variable {R : Type} [OfScientific R]

/-- `from_toml`, on a section that has been parsed. -/
def FecConfig.fromToml (sec : FecSection R) : FecConfig R where
  lambda := sec.lambda.getD 0.1
  burstWindow := sec.burstWindow.getD 20
  hysteresis := sec.hysteresis.getD 0.02
  pid := sec.pid.getD ⟨1.2, 0.5, 0.1⟩
  initialMode := .zero
  kalmanEnabled := sec.kalmanEnabled.getD false
  kalmanQ := sec.kalmanQ.getD 0.001
  kalmanR := sec.kalmanR.getD 0.01
  windowSizes := (sec.modes.getD []).foldl insertWindow fun mode => some mode.defaultWindows

end QuicFuscate.Fec
