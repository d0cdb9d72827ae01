import Eutxo.Json.Printer
import Eutxo.Network
import Eutxo.Number.Reading

/-!
# Configuration

The toolkit is configured by two settings of its environment: the network, and
the metadata label under which documents are attested.  A setting that is
missing takes its default; one that is wrong is a fault, and if both are wrong
both are reported.
-/

namespace Eutxo

/-- A configuration. -/
structure Config where
  network : Network := .preprod
  documentLabel : Number := .integer 1787
  deriving DecidableEq, Repr

/-- What is wrong with one setting. -/
inductive SettingFault where
  /-- The network is none of the supported ones. -/
  | network (given : Text)
  /-- The label is no integer. -/
  | label (given : Text)
  /-- The label is negative. -/
  | negativeLabel
  deriving DecidableEq, Repr

/-- What is wrong with the settings. -/
inductive ConfigFault where
  | one (fault : SettingFault)
  | both (first second : SettingFault)
  deriving DecidableEq, Repr

namespace Config

/-- The name of the setting of the network. -/
def networkSetting : Text := "NETWORK"

/-- The name of the setting of the metadata label. -/
def labelSetting : Text := "DOCUMENT_METADATA_LABEL"

end Config

namespace SettingFault

/-- The name of the setting at fault. -/
def setting : SettingFault → Text
  | .network _ => Config.networkSetting
  | .label _ => Config.labelSetting
  | .negativeLabel => Config.labelSetting

/-- The message of a fault of a setting. -/
def message : SettingFault → Text
  | .network given =>
    "Expected one of (" ++ Text.join ", " (Network.all.map Network.name) ++ ") but received "
      ++ given.quote
  | .label given => "Expected an integer value but received " ++ given.quote
  | .negativeLabel => Config.labelSetting ++ " must be a non-negative integer"

/-- A fault of a setting as part of a longer message. -/
def report (f : SettingFault) : Text :=
  "(Invalid data at " ++ f.setting ++ ": \"" ++ f.message ++ "\")"

end SettingFault

/-- The message of a fault of the configuration. -/
def ConfigFault.message : ConfigFault → Text
  | .one f => f.message
  | .both f g => f.report ++ " and " ++ g.report

namespace Config

/-- The settings of an environment, by name. -/
abbrev Environment := List (Text × Text)

/-- The configured network. -/
def networkOf (env : Environment) : Except SettingFault Network :=
  match env.lookup networkSetting with
  | none => .ok .preprod
  | some given =>
    match Network.ofName? given with
    | some n => .ok n
    | none => .error (.network given)

/-- The configured label, read as a number. -/
def labelOf (env : Environment) : Except SettingFault Number :=
  match env.lookup labelSetting with
  | none => .ok (.integer 1787)
  | some given =>
    let label := Number.ofText given
    match label.integer? with
    | none => .error (.label given)
    | some n => if n < 0 then .error .negativeLabel else .ok label

/-- The configuration of an environment. -/
def ofEnvironment (env : Environment) : Except ConfigFault Config :=
  match networkOf env, labelOf env with
  | .ok network, .ok label => .ok ⟨network, label⟩
  | .error f, .ok _ => .error (.one f)
  | .ok _, .error f => .error (.one f)
  | .error f, .error g => .error (.both f g)

end Config

end Eutxo
