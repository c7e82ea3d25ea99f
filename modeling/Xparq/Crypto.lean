import Xparq.Lib.Machine
import Xparq.Lib.Outcome
import Mathlib.Order.Fin.Basic
import Mathlib.Data.List.Lex

/-!
# Hashes, domains and canonical bytes

A 32-byte array is modelled as the number it spells in big-endian order, so that the array
order of the source is the order of numbers. `domain` frames its input with the tag of the
domain and the length of the payload before hashing.

The primitives themselves (SHA3-256, signature verification, Argon2id) are the parameters
of the class `Crypto`. Nothing is assumed about them here; statements that need collision
freedom say on which inputs.
-/

namespace Xparq

open Machine Outcome List

/-- A 32-byte array, read as a big-endian number. -/
abbrev Hash := U256

instance Hash.lawfulBEq : LawfulBEq Hash := inferInstance

abbrev ProgramId := Hash
abbrev BlockHash := Hash
abbrev StateRoot := Hash
abbrev AuthorizationCommitment := Hash

/-- The bytes of an ASCII literal. -/
def ascii (s : String) : List Byte := s.toList.map fun c => Fin.ofNat 256 c.toNat

def Hash.bytes (h : Hash) : List Byte := (leBytes 32 h.val).reverse

def Hash.ofBytes (l : List Byte) : Hash := Fin.ofNat (2 ^ 256) (ofLeBytes l.reverse)

theorem Hash.val_lt (h : Hash) : h.val < 256 ^ 32 :=
  lt_of_lt_of_eq h.isLt (show 2 ^ 256 = 256 ^ 32 by decide)

@[simp] theorem Hash.length_bytes (h : Hash) : h.bytes.length = 32 := by
  simp [Hash.bytes]

theorem Hash.bytes_injective {h h' : Hash} (heq : h.bytes = h'.bytes) : h = h' := by
  apply Fin.ext
  exact leBytes_injective h.val_lt h'.val_lt (reverse_injective heq)

@[simp] theorem Hash.ofBytes_bytes (h : Hash) : Hash.ofBytes h.bytes = h := by
  apply Fin.ext
  rw [Hash.ofBytes, Hash.bytes, reverse_reverse, ofLeBytes_leBytes 32 _ h.val_lt,
    Fin.val_ofNat]
  exact Nat.mod_eq_of_lt h.isLt

inductive HashDomain
  | transaction | operation | coinTransition | assetIntent | header | chainSpec | merkleNode
  | accountState | xparqArtifact | protocolState | powSeed | powSalt | programAccount | asset
  | share | output | emission | compactBlockKey | raw
  deriving DecidableEq, Repr

def HashDomain.tag : HashDomain → List Byte
  | transaction => ascii "XPARQ_HASH_TX"
  | operation => ascii "XPARQ_HASH_OPERATION"
  | coinTransition => ascii "XPARQ_COIN_TRANSITION"
  | assetIntent => ascii "XPARQ_ASSET_INTENT"
  | header => ascii "XPARQ_HASH_BLOCK_HEADER"
  | chainSpec => ascii "XPARQ_HASH_CHAIN_SPEC"
  | merkleNode => ascii "XPARQ_HASH_MERKLE_NODE"
  | accountState => ascii "XPARQ_HASH_ACCOUNT_STATE"
  | xparqArtifact => ascii "XPARQ_HASH_ARTIFACT"
  | protocolState => ascii "XPARQ_HASH_PROTOCOL_STATE"
  | powSeed => ascii "XPARQ_POW_SEED"
  | powSalt => ascii "XPARQ_POW_SALT"
  | programAccount => ascii "XPARQ_HASH_PROGRAM_ACCOUNT"
  | asset => ascii "XPARQ_ASSET"
  | share => ascii "XPARQ_ASSET_SHARE"
  | output => ascii "XPARQ_COIN_OUTPUT"
  | emission => ascii "XPARQ_COIN_EMISSION"
  | compactBlockKey => ascii "XPARQ_COMPACT_BLOCK_KEY"
  | raw => ascii "XPARQ_HASH_RAW"

inductive AccountSignatureScheme
  | mlDsa44 | mlDsa65 | mlDsa87 | slhDsaShake128s | slhDsaShake192s | slhDsaShake256s
  deriving DecidableEq, Repr

/-- The external primitives: SHA3-256, the signature schemes and Argon2id. -/
class Crypto where
  sha3 : List Byte → Hash
  verify : AccountSignatureScheme → (publicKey message signature : List Byte) → Bool
  argon2id : (seed salt : List Byte) → Hash

/-- A polynomial checksum in the place of the hash, for concrete runs: every signature is
accepted and every header has enough work. -/
@[reducible] def Crypto.checksum : Crypto where
  sha3 bytes := Fin.ofNat (2 ^ 256)
    (bytes.foldl (fun h b => (h * 257 + b.val + 1) % (2 ^ 255 - 19)) 0)
  verify _ _ _ _ := true
  argon2id _ _ := 0

/-- What `domain` feeds to SHA3-256: tag, payload length, payload. -/
def preimage (d : HashDomain) (bytes : List Byte) : List Byte :=
  d.tag ++ leBytes 8 bytes.length ++ bytes

def domain [Crypto] (d : HashDomain) (bytes : List Byte) : Hash := Crypto.sha3 (preimage d bytes)

def hashBytes [Crypto] (bytes : List Byte) : Hash := domain .raw bytes

inductive CodecError
  | encodeFailed | decodeFailed | invalidBlock
  deriving DecidableEq, Repr

/-- The Borsh length prefix of a sequence; lengths beyond `u32` cannot be encoded. -/
def encodeLen (n : Nat) : Option (List Byte) := if n < 2 ^ 32 then some (leBytes 4 n) else none

/-- A Borsh byte vector. -/
def encodeBytes (l : List Byte) : Option (List Byte) := (encodeLen l.length).map (· ++ l)

/-- The length of an encoding as an unsigned 64-bit number. -/
def canonicalLength (bytes : Option (List Byte)) : Except CodecError Nat :=
  okOr ((bytes.bind fun l => ofNat? (2 ^ 64) l.length).map Fin.val) .encodeFailed

def canonicalFixedMapLength (entries entryBytes : Nat) : Except CodecError Nat :=
  if entries < 2 ^ 32 ∧ entries * entryBytes + 4 < 2 ^ 64 then .ok (entries * entryBytes + 4)
  else .error .encodeFailed

/-! ## Preimages of one domain -/

theorem preimage_injective {d : HashDomain} {x y : List Byte} (h : preimage d x = preimage d y) :
    x = y := by
  rw [preimage, preimage, append_assoc, append_assoc] at h
  have htail := append_cancel_left h
  exact (append_inj htail (by simp)).2

theorem preimage_emission_ne_output (x y : List Byte) :
    preimage .emission x ≠ preimage .output y := by
  simp [preimage, HashDomain.tag, ascii]

theorem preimage_assetIntent_ne_xparqArtifact (x y : List Byte) :
    preimage .assetIntent x ≠ preimage .xparqArtifact y := by
  simp [preimage, HashDomain.tag, ascii]

/-! ## Owners -/

inductive Owner
  | program (id : ProgramId)
  deriving DecidableEq, Repr

def Owner.programId : Owner → ProgramId
  | program id => id

theorem Owner.programId_injective : Function.Injective Owner.programId := by
  rintro ⟨a⟩ ⟨b⟩ h
  exact congrArg Owner.program h

instance : LinearOrder Owner := LinearOrder.lift' Owner.programId Owner.programId_injective

def Owner.encode (o : Owner) : List Byte := 0 :: o.programId.bytes

/-- Borsh decoding of an owner from the front of a byte string. -/
def Owner.decode (l : List Byte) : Option (Owner × List Byte) :=
  match takeBytes 1 l with
  | some ([tag], rest) =>
    if tag = 0 then (takeBytes 32 rest).map fun p => (Owner.program (Hash.ofBytes p.1), p.2)
    else none
  | _ => none

@[simp] theorem Owner.length_encode (o : Owner) : o.encode.length = 33 := by
  simp [Owner.encode]

theorem Owner.decode_encode_append (o : Owner) (rest : List Byte) :
    Owner.decode (o.encode ++ rest) = some (o, rest) := by
  obtain ⟨id⟩ := o
  have htake := takeBytes_append id.bytes rest
  rw [Hash.length_bytes] at htake
  simp only [Owner.decode, Owner.encode, Owner.programId, cons_append]
  rw [show takeBytes 1 (0 :: (id.bytes ++ rest)) = some ([0], id.bytes ++ rest) from rfl]
  simp [htake]

/-- Borsh decoding of a 32-byte value. -/
def Hash.decode (l : List Byte) : Option (Hash × List Byte) :=
  (takeBytes 32 l).map fun p => (Hash.ofBytes p.1, p.2)

end Xparq
