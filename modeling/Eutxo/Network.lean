import Eutxo.Text.Basic

/-!
# Networks

The networks a toolkit can be configured for.  Both test networks share one
network id.
-/

namespace Eutxo

/-- A supported network. -/
inductive Network where
  | mainnet
  | preprod
  | preview
  deriving DecidableEq, Repr

namespace Network

/-- The supported networks in the order in which they are offered. -/
def all : List Network := [.mainnet, .preprod, .preview]

/-- The name of a network. -/
def name : Network → Text
  | .mainnet => "Mainnet"
  | .preprod => "Preprod"
  | .preview => "Preview"

/-- The network of a name, spelled exactly. -/
def ofName? (t : Text) : Option Network := all.find? fun n => n.name = t

/-- The network id that addresses and transaction bodies carry. -/
def id : Network → Nat
  | .mainnet => 1
  | .preprod => 0
  | .preview => 0

end Network

end Eutxo
