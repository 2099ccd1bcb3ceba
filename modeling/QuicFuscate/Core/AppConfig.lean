import QuicFuscate.Fec.Config
import QuicFuscate.Stealth.Manager

/-!
# The configuration of the program

The client and the server put their settings together in the same way, from the command line and
from what they find in the files that it names.  A part of a file that does not parse counts as left
out.  The checks run before the command line replaces some of the settings, and a failed check is
logged, no more.
-/

namespace QuicFuscate.Core

open Fec Stealth

/-! ## Memory and sockets -/

structure OptimizeConfig where
  poolCapacity : ℕ
  blockSize : ℕ
  enableXdp : Bool
  deriving DecidableEq, Repr

structure OptimizeSection where
  poolCapacity : Option ℕ
  blockSize : Option ℕ
  enableXdp : Option Bool
  deriving DecidableEq, Repr

namespace OptimizeConfig

def default : OptimizeConfig := ⟨1024, 4096, false⟩

/-- `from_toml`, on a file that has been parsed. -/
def fromToml (optimize : Option OptimizeSection) : OptimizeConfig :=
  let sec := optimize.getD ⟨none, none, none⟩
  ⟨sec.poolCapacity.getD 1024, sec.blockSize.getD 4096, sec.enableXdp.getD false⟩

def validate (config : OptimizeConfig) : Except String Unit :=
  if config.poolCapacity = 0 then .error "pool_capacity must be > 0"
  else if config.blockSize = 0 then .error "block_size must be > 0"
  else .ok ()

end OptimizeConfig

/-! ## All settings -/

variable {R : Type}

structure AppConfig (R : Type) where
  fec : FecConfig R
  stealth : StealthConfig
  optimize : OptimizeConfig

/-- What the three readers find in one file: nothing, if the file is not what they expect.  Only the section on error
correction has to be there. -/
structure ConfigFile (R : Type) where
  fec : Option (FecSection R)
  stealth : Option (Option StealthSection)
  optimize : Option (Option OptimizeSection)

namespace AppConfig

section Reading

variable [OfScientific R]

def default : AppConfig R := ⟨.default, .default, .default⟩

/-- `from_toml`, which does not fail. -/
def fromToml (file : ConfigFile R) : AppConfig R where
  fec := (file.fec.map FecConfig.fromToml).getD .default
  stealth := (file.stealth.map StealthConfig.fromToml).getD .default
  optimize := (file.optimize.map OptimizeConfig.fromToml).getD .default

end Reading

def validate [OfScientific R] [LT R] [DecidableLT R] [LE R] [DecidableLE R] (config : AppConfig R) :
    Except String Unit := do
  config.fec.validate
  config.stealth.validate
  config.optimize.validate

end AppConfig

/-! ## The command line -/

/-- The arguments of a client or a server that its settings depend on, with what the two files hold that it may name;
nothing, if a file cannot be read, or if it is the second one and cannot be parsed. -/
structure Arguments (R : Type) where
  fecMode : FecMode
  stealth : StealthFlags
  poolCapacity : ℕ
  poolBlock : ℕ
  xdp : Bool
  config : Option (Option (ConfigFile R))
  fecConfig : Option (Option (FecSection R))

/-- The settings of a connection, with the warning that the checks of a file gave. -/
structure Settings (R : Type) extends AppConfig R where
  warning : Option String

/-- The message of a failed check, after the words that introduce it. -/
def warningOf (words : String) : Except String Unit → Option String
  | .ok _ => none
  | .error e => some (words ++ e)

namespace Arguments

variable [OfScientific R] [LT R] [DecidableLT R] [LE R] [DecidableLE R]

/-- The settings of the files, or else the defaults. -/
def loaded (args : Arguments R) : Settings R :=
  match args.config, args.fecConfig with
  | some (some file), _ =>
      ⟨.fromToml file, warningOf "Config validation failed: " (AppConfig.fromToml file).validate⟩
  | some none, _ => ⟨.default, none⟩
  | none, some (some sec) =>
      ⟨⟨.fromToml sec, .default, .default⟩,
        warningOf "FEC config validation failed: " (FecConfig.fromToml sec).validate⟩
  | none, some none => ⟨.default, none⟩
  | none, none => ⟨.default, none⟩

/-- What the pool and the sockets get: the file of all settings stands in for the command line, if
it is named at all. -/
def optParams (args : Arguments R) : OptimizeConfig :=
  if args.config.isSome then
    { args.loaded.optimize with enableXdp := args.loaded.optimize.enableXdp || args.xdp }
  else ⟨args.poolCapacity, args.poolBlock, args.xdp⟩

def settings (args : Arguments R) : Settings R where
  fec := { args.loaded.fec with initialMode := args.fecMode }
  stealth := args.loaded.stealth.withFlags args.stealth
  optimize := args.optParams
  warning := args.loaded.warning

end Arguments

end QuicFuscate.Core
