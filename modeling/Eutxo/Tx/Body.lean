import Eutxo.Tx.FieldSet
import Eutxo.Tx.Input
import Eutxo.Tx.Output

/-!
# Transaction bodies

The body is the part of a transaction that is hashed and signed.  It is written
as a map from field keys to contents.  A field that is absent is not written; a
list that is present but empty is.  Certificates and updates of protocol
parameters are kept as terms.
-/

namespace Eutxo

/-- An amount taken from a reward address. -/
structure Withdrawal where
  rewardAddress : Bytes
  amount : Int
  deriving DecidableEq, Repr

/-- The fields of a transaction body. -/
inductive BodyField where
  | inputs
  | outputs
  | fee
  | ttl
  | certificates
  | withdrawals
  | update
  | auxiliaryDataHash
  | validityStart
  | mint
  | scriptDataHash
  | collateral
  | requiredSigners
  | networkId
  | collateralReturn
  | totalCollateral
  | referenceInputs
  deriving DecidableEq, Repr

namespace BodyField

/-- The key of a field. -/
def key : BodyField → Nat
  | .inputs => 0
  | .outputs => 1
  | .fee => 2
  | .ttl => 3
  | .certificates => 4
  | .withdrawals => 5
  | .update => 6
  | .auxiliaryDataHash => 7
  | .validityStart => 8
  | .mint => 9
  | .scriptDataHash => 11
  | .collateral => 13
  | .requiredSigners => 14
  | .networkId => 15
  | .collateralReturn => 16
  | .totalCollateral => 17
  | .referenceInputs => 18

/-- The field of a key. -/
def ofKey? : Nat → Option BodyField
  | 0 => some .inputs
  | 1 => some .outputs
  | 2 => some .fee
  | 3 => some .ttl
  | 4 => some .certificates
  | 5 => some .withdrawals
  | 6 => some .update
  | 7 => some .auxiliaryDataHash
  | 8 => some .validityStart
  | 9 => some .mint
  | 11 => some .scriptDataHash
  | 13 => some .collateral
  | 14 => some .requiredSigners
  | 15 => some .networkId
  | 16 => some .collateralReturn
  | 17 => some .totalCollateral
  | 18 => some .referenceInputs
  | _ => none

/-- The name of a field. -/
def name : BodyField → Text
  | .inputs => "inputs"
  | .outputs => "outputs"
  | .fee => "fee"
  | .ttl => "ttl"
  | .certificates => "certificates"
  | .withdrawals => "withdrawals"
  | .update => "update"
  | .auxiliaryDataHash => "auxiliaryDataHash"
  | .validityStart => "validityStart"
  | .mint => "mint"
  | .scriptDataHash => "scriptDataHash"
  | .collateral => "collateral"
  | .requiredSigners => "requiredSigners"
  | .networkId => "networkId"
  | .collateralReturn => "collateralReturn"
  | .totalCollateral => "totalCollateral"
  | .referenceInputs => "referenceInputs"

end BodyField

/-- A field of a transaction body with its content. -/
inductive BodyEntry where
  | inputs (s : Term.SetLike TxInput)
  | outputs (os : List TxOutput)
  | fee (n : Int)
  | ttl (n : Int)
  | certificates (t : Term)
  | withdrawals (ws : List Withdrawal)
  | update (t : Term)
  | auxiliaryDataHash (h : AuxiliaryDataHash)
  | validityStart (n : Int)
  | mint (m : MultiAsset)
  | scriptDataHash (h : ScriptDataHash)
  | collateral (s : Term.SetLike TxInput)
  | requiredSigners (s : Term.SetLike VerificationKeyHash)
  | networkId (n : Int)
  | collateralReturn (o : TxOutput)
  | totalCollateral (n : Int)
  | referenceInputs (s : Term.SetLike TxInput)

namespace BodyEntry

/-- The field of an entry. -/
def field : BodyEntry → BodyField
  | .inputs _ => .inputs
  | .outputs _ => .outputs
  | .fee _ => .fee
  | .ttl _ => .ttl
  | .certificates _ => .certificates
  | .withdrawals _ => .withdrawals
  | .update _ => .update
  | .auxiliaryDataHash _ => .auxiliaryDataHash
  | .validityStart _ => .validityStart
  | .mint _ => .mint
  | .scriptDataHash _ => .scriptDataHash
  | .collateral _ => .collateral
  | .requiredSigners _ => .requiredSigners
  | .networkId _ => .networkId
  | .collateralReturn _ => .collateralReturn
  | .totalCollateral _ => .totalCollateral
  | .referenceInputs _ => .referenceInputs

/-- Whether an entry is a list that is marked as a set. -/
def isTagged : BodyEntry → Bool
  | .inputs s => s.tagged
  | .collateral s => s.tagged
  | .requiredSigners s => s.tagged
  | .referenceInputs s => s.tagged
  | _ => false

/-- The withdrawals that a term spells. -/
def decodeWithdrawals (path : Path) (t : Term) : Except Fault (List Withdrawal) := do
  (← t.asMap path).zipIdx.mapM fun ((k, v), i) => do
    let rewardAddress ← k.asBytes (.keyAt path i)
    let amount ← v.asUnsigned (.item path i)
    return ⟨rewardAddress, amount⟩

/-- The term of the content of an entry. -/
def content : BodyEntry → Term
  | .inputs s => Codec.setToTerm s
  | .outputs os => .seq (os.map Codec.toTerm)
  | .fee n => .int n
  | .ttl n => .int n
  | .certificates t => t
  | .withdrawals ws => .map (ws.map fun w => (.bytes w.rewardAddress, .int w.amount))
  | .update t => t
  | .auxiliaryDataHash h => Codec.toTerm h
  | .validityStart n => .int n
  | .mint m => Codec.toTerm m
  | .scriptDataHash h => Codec.toTerm h
  | .collateral s => Codec.setToTerm s
  | .requiredSigners s => Codec.setToTerm s
  | .networkId n => .int n
  | .collateralReturn o => Codec.toTerm o
  | .totalCollateral n => .int n
  | .referenceInputs s => Codec.setToTerm s

/-- The key and the content of an entry as terms. -/
def toTerms (e : BodyEntry) : Term × Term := (.int e.field.key, e.content)

/-- The entry of a field whose content a term spells. -/
def ofContent (path : Path) (t : Term) : BodyField → Except Fault BodyEntry
  | .inputs => do return .inputs (← Codec.setOfTerm path t)
  | .outputs => do return .outputs (← Term.decodeItems path Codec.ofTerm (← t.asSequence path))
  | .fee => do return .fee (← t.asUnsigned path)
  | .ttl => do return .ttl (← t.asUnsigned path)
  | .certificates => .ok (.certificates t)
  | .withdrawals => do return .withdrawals (← decodeWithdrawals path t)
  | .update => .ok (.update t)
  | .auxiliaryDataHash => do return .auxiliaryDataHash (← Codec.ofTerm path t)
  | .validityStart => do return .validityStart (← t.asUnsigned path)
  | .mint => do return .mint (← Codec.ofTerm path t)
  | .scriptDataHash => do return .scriptDataHash (← Codec.ofTerm path t)
  | .collateral => do return .collateral (← Codec.setOfTerm path t)
  | .requiredSigners => do return .requiredSigners (← Codec.setOfTerm path t)
  | .networkId => do return .networkId (← t.asSafeUnsigned path)
  | .collateralReturn => do return .collateralReturn (← Codec.ofTerm path t)
  | .totalCollateral => do return .totalCollateral (← t.asUnsigned path)
  | .referenceInputs => do return .referenceInputs (← Codec.setOfTerm path t)

/-- The entry that a key and a content spell. -/
def ofTerms (path : Path) (e : Term × Term) : Except Fault BodyEntry := do
  let key ← e.1.asSafeUnsigned (.key path)
  let fieldPath := Path.entry path (Text.ofNat key)
  match BodyField.ofKey? key with
  | some f => ofContent fieldPath e.2 f
  | none => throw (.decode fieldPath (.bodyField path key))

end BodyEntry

/-- The body of a transaction. -/
structure TxBody where
  inputs : List TxInput
  outputs : List TxOutput
  fee : Int
  ttl : Option Int := none
  certificates : Option Term := none
  withdrawals : Option (List Withdrawal) := none
  update : Option Term := none
  auxiliaryDataHash : Option AuxiliaryDataHash := none
  validityStart : Option Int := none
  mint : Option MultiAsset := none
  scriptDataHash : Option ScriptDataHash := none
  collateral : Option (List TxInput) := none
  requiredSigners : Option (List VerificationKeyHash) := none
  networkId : Option Int := none
  collateralReturn : Option TxOutput := none
  totalCollateral : Option Int := none
  referenceInputs : Option (List TxInput) := none
  /-- The keys of the list fields that are marked as sets. -/
  taggedSets : FieldSet := .empty
  deriving DecidableEq, Repr

namespace TxBody

/-- The content of a list field with its mark. -/
def withMark {α : Type} (b : TxBody) (f : BodyField) (items : List α) : Term.SetLike α :=
  ⟨items, b.taggedSets.contains f.key⟩

/-- The fields that are present, by increasing key. -/
def entries (b : TxBody) : List BodyEntry :=
  [.inputs (b.withMark .inputs b.inputs), .outputs b.outputs, .fee b.fee]
    ++ b.ttl.toList.map .ttl
    ++ b.certificates.toList.map .certificates
    ++ b.withdrawals.toList.map .withdrawals
    ++ b.update.toList.map .update
    ++ b.auxiliaryDataHash.toList.map .auxiliaryDataHash
    ++ b.validityStart.toList.map .validityStart
    ++ b.mint.toList.map .mint
    ++ b.scriptDataHash.toList.map .scriptDataHash
    ++ b.collateral.toList.map (fun s => .collateral (b.withMark .collateral s))
    ++ b.requiredSigners.toList.map (fun s => .requiredSigners (b.withMark .requiredSigners s))
    ++ b.networkId.toList.map .networkId
    ++ b.collateralReturn.toList.map .collateralReturn
    ++ b.totalCollateral.toList.map .totalCollateral
    ++ b.referenceInputs.toList.map (fun s => .referenceInputs (b.withMark .referenceInputs s))

/-- The body of a list of entries, if the mandatory fields are among them.  Of two entries of one
field the later one counts, but a mark stays recorded. -/
def ofEntries? (entries : List BodyEntry) : Option TxBody := do
  let inputs ← lastOf (fun | .inputs s => some s.items | _ => none) entries
  let outputs ← lastOf (fun | .outputs os => some os | _ => none) entries
  let fee ← lastOf (fun | .fee n => some n | _ => none) entries
  return {
    inputs := inputs
    outputs := outputs
    fee := fee
    ttl := lastOf (fun | .ttl n => some n | _ => none) entries
    certificates := lastOf (fun | .certificates t => some t | _ => none) entries
    withdrawals := lastOf (fun | .withdrawals ws => some ws | _ => none) entries
    update := lastOf (fun | .update t => some t | _ => none) entries
    auxiliaryDataHash := lastOf (fun | .auxiliaryDataHash h => some h | _ => none) entries
    validityStart := lastOf (fun | .validityStart n => some n | _ => none) entries
    mint := lastOf (fun | .mint m => some m | _ => none) entries
    scriptDataHash := lastOf (fun | .scriptDataHash h => some h | _ => none) entries
    collateral := lastOf (fun | .collateral s => some s.items | _ => none) entries
    requiredSigners := lastOf (fun | .requiredSigners s => some s.items | _ => none) entries
    networkId := lastOf (fun | .networkId n => some n | _ => none) entries
    collateralReturn := lastOf (fun | .collateralReturn o => some o | _ => none) entries
    totalCollateral := lastOf (fun | .totalCollateral n => some n | _ => none) entries
    referenceInputs := lastOf (fun | .referenceInputs s => some s.items | _ => none) entries
    taggedSets := .ofList ((entries.filter BodyEntry.isTagged).map fun e => .integer e.field.key) }

/-- The term of a body. -/
def toTerm (b : TxBody) : Term := .map (b.entries.map BodyEntry.toTerms)

/-- The body that a term spells. -/
def ofTerm (path : Path) (t : Term) : Except Fault TxBody := do
  let entries ← (← t.asMap path).mapM (BodyEntry.ofTerms path)
  match ofEntries? entries with
  | some b => return b
  | none =>
    throw (.decode path (.bodyIncomplete (firstOccurrences (entries.map fun e => e.field.name))))

instance : Codec TxBody where
  name := "transaction_body"
  toTerm := toTerm
  ofTerm := ofTerm

/-- The hash of a body, by which its transaction is known and which its witnesses sign. -/
def hash (b : TxBody) : Except Fault TransactionId := do
  return .hash (← Codec.toCbor b)

end TxBody

end Eutxo
