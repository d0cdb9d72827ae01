import Eutxo.Cose.Message

/-!
# Key maps

The key of a signed message travels as a map that names the type of the key,
the algorithm and the curve beside the key itself.
-/

namespace Eutxo.Cose

/-- A public key in the form of a key map. -/
structure Key where
  verificationKey : VerificationKey
  deriving DecidableEq, Repr

namespace Key

/-- The label of the type of a key. -/
def typeLabel : Int := 1

/-- The label of the algorithm of a key. -/
def algorithmLabel : Int := 3

/-- The label of the curve of a key. -/
def curveLabel : Int := -1

/-- The label of the public key itself. -/
def publicLabel : Int := -2

/-- The type of the keys of Edwards curves. -/
def edwardsType : Int := 1

/-- The curve of Ed25519. -/
def ed25519Curve : Int := 6

/-- The term of a key map. -/
def toTerm (k : Key) : Term :=
  .map [Header.entry (.int typeLabel) (.int edwardsType),
    Header.entry (.int algorithmLabel) (.int edDSA),
    Header.entry (.int curveLabel) (.int ed25519Curve),
    Header.entry (.int publicLabel) (Codec.toTerm k.verificationKey)]

/-- The entry of a key map under a label. -/
def field (path : Path) (entries : Header) (label : Int) : Except Fault Term :=
  match entries.get? (.int label) with
  | some t => .ok t
  | none => .error (.decode path (.missingLabel label))

/-- The path of the entry of a key map under a label. -/
def fieldPath (path : Path) (label : Int) : Path := .entry path (Text.ofInt label)

/-- Checks that the entry under a label is the one supported integer. -/
def require (path : Path) (entries : Header) (label expected : Int) : Except Fault Unit := do
  let found ← (← field path entries label).asInt (fieldPath path label)
  if found = expected then return ()
  else throw (.decode (fieldPath path label) (.parameter expected found))

/-- The key that a term spells. -/
def ofTerm (path : Path) (t : Term) : Except Fault Key := do
  let entries ← t.asMap path
  require path entries typeLabel edwardsType
  require path entries algorithmLabel edDSA
  require path entries curveLabel ed25519Curve
  return ⟨← Codec.ofTerm (fieldPath path publicLabel) (← field path entries publicLabel)⟩

instance : Codec Key where
  name := "cose_key"
  toTerm := toTerm
  ofTerm := ofTerm

end Key

end Eutxo.Cose
