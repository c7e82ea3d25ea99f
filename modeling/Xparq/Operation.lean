import Xparq.Program.Authorization

/-!
# Block operations

A block carries deployments and program calls. An operation is identified by the hash of its
canonical bytes; a deployment's commitment binds owner, nonce, code and payment to one chain.
-/

namespace Xparq

open Machine Outcome

structure AuthorizedDeployProgram where
  deploy : DeployProgram
  payment : CoinTransition
  authorization : AccountAuthorization
  deriving DecidableEq

inductive BlockOperation
  | deployProgram (signed : AuthorizedDeployProgram)
  | programCall (tx : AuthorizedProgramInvocation)
  deriving DecidableEq

inductive OperationError
  | invalidDeploy | invalidProgramCall
  deriving DecidableEq, Repr

def DeployProgram.encode (d : DeployProgram) : Option (List Byte) :=
  (encodeBytes d.code).map fun code => d.owner.bytes ++ leBytes 8 d.nonce.val ++ code

def AuthorizedDeployProgram.encode (s : AuthorizedDeployProgram) : Option (List Byte) := do
  let deploy ← s.deploy.encode
  let payment ← s.payment.encode
  let authorization ← s.authorization.encode
  return deploy ++ payment ++ authorization

namespace BlockOperation

def encode : BlockOperation → Option (List Byte)
  | deployProgram signed => signed.encode.map (0 :: ·)
  | programCall tx => tx.encode.map (1 :: ·)

/-- `canonical_length` of an operation. -/
def canonicalLen (op : BlockOperation) : Except CodecError Nat := canonicalLength op.encode

def validateStructure : BlockOperation → Except OperationError Unit
  | deployProgram signed => do
      orError signed.deploy.validateStructure .invalidDeploy
      orError signed.payment.validate .invalidDeploy
  | programCall tx => orError tx.validateStructure .invalidProgramCall

def payment : BlockOperation → CoinTransition
  | deployProgram signed => signed.payment
  | programCall tx => tx.payment

variable [Crypto]

def id (op : BlockOperation) : Except CodecError Hash :=
  (okOr op.encode .encodeFailed).map (domain .operation)

end BlockOperation

section
variable [Crypto]

def deployBytes (signed : AuthorizedDeployProgram) (codeHash : ProgramHash) (chain : ChainContext) :
    Option (List Byte) :=
  signed.payment.encode.map fun payment =>
    ascii "xparq:deploy-program:v1" ++ chain.genesisHash.bytes ++ signed.deploy.owner.bytes ++
      leBytes 8 signed.deploy.nonce.val ++ codeHash.bytes ++ payment

def AuthorizedDeployProgram.commitment (signed : AuthorizedDeployProgram) (chain : ChainContext) :
    Except CodecError AuthorizationCommitment := do
  let codeHash ← orError (ProgramHash.derive signed.deploy.code) .encodeFailed
  let bytes ← okOr (deployBytes signed codeHash chain) .encodeFailed
  return domain .xparqArtifact bytes

end

end Xparq
