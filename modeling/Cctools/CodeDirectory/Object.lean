/-
# Cctools.CodeDirectory.Object -- the code-signing object, its setters and its code directory

`libcodedirectory.c`: what `libcd_create` and the setters store, and how
`libcd_superblob_size` and `_libcd_serialize_cd` read it.  Neither of the two checks what it
reads, so a read or a write outside an array, and one through `NULL`, is a `Fault` here.

The digests are a parameter (`Digests`), and so are the callbacks that read a page and
write the output (`Callbacks`).  No allocation fails.
-/
import Cctools.Theory.Bytes

namespace Cctools.CodeDirectory

set_option autoImplicit false

open Cctools.Theory

/-! ## Digests -/

/-- `struct _hash_info`; the function of a digest, if there is one. -/
structure HashInfo where
  hashLen : Nat
  di : Option (List UInt8 → List UInt8)

/-- The digests of the platform, and what lies in memory before the table of them. -/
structure Digests where
  sha1 : List UInt8 → List UInt8
  sha256 : List UInt8 → List UInt8
  sha1_length : ∀ bytes, (sha1 bytes).length = 20
  sha256_length : ∀ bytes, (sha256 bytes).length = 32
  before : Int → HashInfo

/-- Why a call does not return `LIBCD_SERIALIZE_SUCCESS`. -/
inductive Fault
  /-- a read or a write outside an array, or through `NULL` -/
  | outside
  | readPageError
  | writeError
  deriving DecidableEq, Repr

/-- `CS_CDHASH_LEN` -/
def cdhashLen : Nat := 20

/-- `CS_CDHASH_LEN` bytes. -/
abbrev Cdhash := { bytes : List UInt8 // bytes.length = cdhashLen }

def Cdhash.zero : Cdhash := ⟨List.replicate cdhashLen 0, List.length_replicate⟩

section Hashes

variable (digests : Digests)

/-- `_known_hash_types`: the first is no hash. -/
def knownHashTypes : List HashInfo := [⟨0, none⟩, ⟨20, some digests.sha1⟩, ⟨32, some digests.sha256⟩]

def knownHashTypesCount : Int := 3

def maxKnownHashLen : Nat := 32

/-- The word at `_known_hash_types[hash_type]`, below the end of the table. -/
def hashInfoAt (hashType : Int) : HashInfo :=
  if hashType < 0 then digests.before hashType else ((knownHashTypes digests)[hashType.toNat]?).getD ⟨0, none⟩

/-- `_libcd_get_hash_info`.  Only the upper end of the table is checked. -/
def getHashInfo (hashType : Int) : Option HashInfo :=
  if knownHashTypesCount ≤ hashType then none
  else if maxKnownHashLen < (hashInfoAt digests hashType).hashLen then none
  else some (hashInfoAt digests hashType)

/-- `hi = _libcd_get_hash_info(hash_type)` where what it points at is used without a check:
it has to be in the table. -/
def useHashInfo (hashType : Int) : Except Fault HashInfo :=
  if hashType < 0 then .error .outside
  else
    match getHashInfo digests hashType with
    | none => .error .outside
    | some info => .ok info

/-- `hi->di()` -/
def useDigest (info : HashInfo) : Except Fault (List UInt8 → List UInt8) :=
  match info.di with
  | none => .error .outside
  | some digest => .ok digest

end Hashes

/-! ## The object -/

/-- `struct _raw_blob` or `struct _sslot_data` -/
structure SlotData where
  slot : BitVec 32
  bytes : List UInt8

/-- `_cdhash_for_hash_type_t` -/
structure CdhashForHashType where
  hashType : Int
  cdhash : Cdhash
  isSet : Bool

/-- `struct _libcd`, without the callbacks.  Lists begin with what was put in last. -/
structure Libcd where
  imageSize : Nat
  flags : BitVec 32
  signingId : Option (List UInt8)
  rawBlobs : List SlotData
  sslotData : List SlotData
  specialSlotCount : BitVec 32
  signatureSpace : BitVec 32
  /-- `none` is `NULL` -/
  hashTypes : Option (List Int)
  hashTypesCount : Nat
  cdhashes : List CdhashForHashType
  platformIdentifier : UInt8
  teamId : Option (List UInt8)
  execSegBase : Nat
  execSegLimit : Nat
  execSegFlags : Nat
  /-- `linkage_hash_type` and `linkage_hash`, if `linkage_set` -/
  linkage : Option (UInt8 × Cdhash)

/-- `CS_HASHTYPE_SHA256` -/
def sha256Type : Int := 2

def unsetCdhash : CdhashForHashType := ⟨0, Cdhash.zero, false⟩

/-- `libcd_create` -/
def create (imageSize : Nat) : Libcd where
  imageSize := imageSize
  flags := 0
  signingId := none
  rawBlobs := []
  sslotData := []
  specialSlotCount := 0
  signatureSpace := 0
  hashTypes := some [sha256Type]
  hashTypesCount := 1
  cdhashes := [unsetCdhash]
  platformIdentifier := 0
  teamId := none
  execSegBase := 0
  execSegLimit := 0
  execSegFlags := 0
  linkage := none

/-! ## Setters -/

/-- A call of a setter.  The array of `libcd_set_hash_types` is as long as its `count`. -/
inductive Call
  | setHashTypes (hashTypes : List Int)
  | setLinkage (linkageHashType : Int) (linkageHash : Cdhash)
  | addSslotData (slot : BitVec 32) (bytes : List UInt8)
  | addRawBlob (slot : BitVec 32) (bytes : List UInt8)
  | addSignatureSpace (space : BitVec 32)

section Setters

variable (digests : Digests)

/-- `libcd_set_hash_types`: the old array is freed before the types are looked at. -/
def setHashTypes (s : Libcd) (hashTypes : List Int) : Bool × Libcd :=
  let s := { s with hashTypes := none }
  if hashTypes.any fun hashType => (getHashInfo digests hashType).isNone then (false, s)
  else
    (true, { s with
      hashTypes := some hashTypes
      hashTypesCount := hashTypes.length
      cdhashes := List.replicate hashTypes.length unsetCdhash })

/-- `libcd_set_linkage` -/
def setLinkage (s : Libcd) (linkageHashType : Int) (linkageHash : Cdhash) : Bool × Libcd :=
  match getHashInfo digests linkageHashType with
  | none => (false, s)
  | some _ => (true, { s with linkage := some (UInt8.ofNat (linkageHashType % 256).toNat, linkageHash) })

/-- `libcd_add_sslot_data_no_copy` -/
def addSslotData (s : Libcd) (slot : BitVec 32) (bytes : List UInt8) : Libcd :=
  { s with
    sslotData := ⟨slot, bytes⟩ :: s.sslotData
    specialSlotCount := if s.specialSlotCount > slot then s.specialSlotCount else slot }

/-- `libcd_add_raw_blob_no_copy` -/
def addRawBlob (s : Libcd) (slot : BitVec 32) (bytes : List UInt8) : Libcd :=
  { s with rawBlobs := ⟨slot, bytes⟩ :: s.rawBlobs }

/-- `libcd_add_signature_space` -/
def addSignatureSpace (s : Libcd) (space : BitVec 32) : Libcd := { s with signatureSpace := space }

/-- A call, and whether it returned without an error. -/
def call (s : Libcd) : Call → Bool × Libcd
  | .setHashTypes hashTypes => setHashTypes digests s hashTypes
  | .setLinkage linkageHashType linkageHash => setLinkage digests s linkageHashType linkageHash
  | .addSslotData slot bytes => (true, addSslotData s slot bytes)
  | .addRawBlob slot bytes => (true, addRawBlob s slot bytes)
  | .addSignatureSpace space => (true, addSignatureSpace s space)

def run (s : Libcd) (calls : List Call) : Libcd := calls.foldl (fun s c => (call digests s c).2) s

end Setters

/-! ## Sizes -/

def csPageBytes : Nat := 4096

/-- `offsetof(CS_CodeDirectory, end_withExecSeg)` or `end_withLinkage` -/
def Libcd.fixedSize (s : Libcd) : Nat := if s.linkage.isSome then 108 else 88

/-- A string with its terminator. -/
def stringBytes : Option (List UInt8) → List UInt8
  | none => []
  | some text => text ++ [0]

def Libcd.linkageBytes (s : Libcd) : List UInt8 :=
  match s.linkage with
  | none => []
  | some (_, linkageHash) => linkageHash.1

/-- `(image_size + _cs_page_bytes-1) >> _cs_page_shift`, before it is cut to 32 bits -/
def Libcd.codeSlots (s : Libcd) : Nat := (s.imageSize + (csPageBytes - 1)) % 2 ^ 64 / csPageBytes

def Libcd.pageCount (s : Libcd) : Nat := s.codeSlots % 2 ^ 32

section Sizes

variable (digests : Digests)

/-- `libcd_cd_size` -/
def cdSize (s : Libcd) (hashType : Int) : Except Fault Nat := do
  let hi ← useHashInfo digests hashType
  return s.fixedSize + (stringBytes s.signingId).length + (stringBytes s.teamId).length + s.linkageBytes.length +
    s.specialSlotCount.toNat * hi.hashLen + s.pageCount * hi.hashLen

/-- `s->hash_types[i]` -/
def Libcd.hashTypeAt (s : Libcd) (i : Nat) : Except Fault Int :=
  match s.hashTypes.bind (·[i]?) with
  | none => .error .outside
  | some hashType => .ok hashType

/-- `sizeof(CS_SuperBlob)` -/
def sizeofSuperBlob : Nat := 12

/-- `sizeof(CS_BlobIndex)` -/
def sizeofBlobIndex : Nat := 8

/-- The sizes of the code directories, one for each recorded hash type. -/
def cdSizes (s : Libcd) : Except Fault (List Nat) :=
  (List.range s.hashTypesCount).mapM fun i => do cdSize digests s (← s.hashTypeAt i)

/-- `libcd_superblob_size` -/
def superblobSize (s : Libcd) : Except Fault Nat := do
  let sizes ← cdSizes digests s
  let raw := s.rawBlobs.map fun blob => blob.bytes.length
  let signature := if s.signatureSpace.toNat > 0 then [s.signatureSpace.toNat] else []
  let blobs := sizes ++ raw ++ signature
  return sizeofSuperBlob + blobs.sum + blobs.length * sizeofBlobIndex

end Sizes

/-! ## The code directory -/

/-- `read_page`, which reads no more than a page, and `write`. -/
structure Callbacks where
  readPage : Nat → List UInt8
  write : List UInt8 → Bool
  readPage_le : ∀ page, (readPage page).length ≤ csPageBytes

/-- A write of `bytes` at `start`. -/
def writeAt (buffer : List UInt8) (start : Nat) (bytes : List UInt8) : Except Fault (List UInt8) :=
  if buffer.length < start + bytes.length then .error .outside
  else .ok (buffer.take start ++ bytes ++ buffer.drop (start + bytes.length))

/-- `s->write(..)` -/
def writeOut (callbacks : Callbacks) (bytes : List UInt8) : Except Fault Unit :=
  if callbacks.write bytes then .ok () else .error .writeError

/-- `special_slot_buf`: slot `k` is the `k`-th hash from the end. -/
def specialSlotBuf (count : BitVec 32) (hashLen : Nat) (digest : List UInt8 → List UInt8) :
    List SlotData → List UInt8 → Except Fault (List UInt8)
  | [], buffer => .ok buffer
  | sslot :: rest, buffer => do
      let buffer ← writeAt buffer ((count - sslot.slot).toNat * hashLen) (digest sslot.bytes)
      specialSlotBuf count hashLen digest rest buffer

def Libcd.specialSlots (s : Libcd) (hi : HashInfo) : Except Fault (List UInt8) :=
  if s.specialSlotCount.toNat > 0 then do
    let digest ← useDigest hi
    specialSlotBuf s.specialSlotCount hi.hashLen digest s.sslotData
      (List.replicate (s.specialSlotCount.toNat * hi.hashLen) 0)
  else .ok []

/-- `_libcd_hash_page` -/
def hashPage (callbacks : Callbacks) (hi : HashInfo) (page : Nat) : Except Fault (List UInt8) := do
  let digest ← useDigest hi
  if (callbacks.readPage page).length = 0 then .error .readPageError else .ok (digest (callbacks.readPage page))

/-- The hashes of the pages from `page` on. -/
def hashPages (callbacks : Callbacks) (hi : HashInfo) : Nat → Nat → Except Fault (List UInt8)
  | 0, _ => .ok []
  | count + 1, page => do
      let first ← hashPage callbacks hi page
      return first ++ (← hashPages callbacks hi count (page + 1))

/-- Where the identifier, the team and the linkage begin, and where they end. -/
def Libcd.identOffset (s : Libcd) : Nat := if s.signingId.isSome then s.fixedSize else 0

def Libcd.teamStart (s : Libcd) : Nat := s.fixedSize + (stringBytes s.signingId).length

def Libcd.teamOffset (s : Libcd) : Nat := if s.teamId.isSome then s.teamStart else 0

def Libcd.linkageOffset (s : Libcd) : Nat := s.teamStart + (stringBytes s.teamId).length

def Libcd.dataEnd (s : Libcd) : Nat := s.linkageOffset + s.linkageBytes.length

/-- `CS_CodeDirectory`: a field has a count of bytes and a value, most significant byte first. -/
def Libcd.cdFields (s : Libcd) (hashType : Int) (hashLen size : Nat) : List (Nat × Nat) :=
  [(4, 0xfade0c02), (4, size), (4, if s.linkage.isSome then 0x20600 else 0x20400), (4, s.flags.toNat),
    (4, s.dataEnd + s.specialSlotCount.toNat * hashLen), (4, s.identOffset), (4, s.specialSlotCount.toNat),
    (4, s.codeSlots), (4, if s.imageSize > 2 ^ 32 - 1 then 0 else s.imageSize), (1, hashLen),
    (1, (hashType % 256).toNat), (1, s.platformIdentifier.toNat), (1, 12), (4, 0), (4, 0), (4, s.teamOffset), (4, 0),
    (8, if s.imageSize > 2 ^ 32 - 1 then s.imageSize else 0), (8, s.execSegBase), (8, s.execSegLimit),
    (8, s.execSegFlags)] ++
  match s.linkage with
  | none => []
  | some (linkageHashType, _) =>
    [(4, 0), (4, 0), (1, linkageHashType.toNat), (1, 1), (2, 0), (4, s.linkageOffset), (4, cdhashLen)]

/-- What is written in front of the hashes. -/
def Libcd.cdHeader (s : Libcd) (hashType : Int) (hashLen size : Nat) : List UInt8 :=
  (s.cdFields hashType hashLen size).flatMap (fun field => beBytes field.1 field.2) ++ stringBytes s.signingId ++
    stringBytes s.teamId ++ s.linkageBytes

/-- The loop that records the hash of a code directory: `count` entries are left. -/
def recordCdhash (hashType : Int) (cdhash : Cdhash) :
    Nat → List CdhashForHashType → Except Fault (List CdhashForHashType)
  | 0, entries => .ok entries
  | _ + 1, [] => .error .outside
  | count + 1, entry :: rest =>
    if entry.isSet then
      if entry.hashType = hashType then .ok ({ entry with cdhash := cdhash } :: rest)
      else (recordCdhash hashType cdhash count rest).map (entry :: ·)
    else .ok (⟨hashType, cdhash, true⟩ :: rest)

/-- `memcpy(.., cdhash_buf, CS_CDHASH_LEN)` -/
def takeCdhash (bytes : List UInt8) : Except Fault Cdhash :=
  if long : cdhashLen ≤ bytes.length then .ok ⟨bytes.take cdhashLen, List.length_take_of_le long⟩ else .error .outside

/-- `_libcd_serialize_cd`: the object with the hash recorded, and the bytes written. -/
def serializeCd (digests : Digests) (callbacks : Callbacks) (s : Libcd) (hashType : Int) :
    Except Fault (Libcd × List UInt8) := do
  let hi ← useHashInfo digests hashType
  let size ← cdSize digests s hashType
  let special ← s.specialSlots hi
  let pages ← hashPages callbacks hi s.pageCount 0
  let cd ← writeAt (List.replicate size 0) 0 (s.cdHeader hashType hi.hashLen size ++ special ++ pages)
  writeOut callbacks cd
  let digest ← useDigest hi
  let cdhash ← takeCdhash (digest cd)
  let cdhashes ← recordCdhash hashType cdhash s.hashTypesCount s.cdhashes
  return ({ s with cdhashes }, cd)

/-- The code directories of the recorded hash types from `i` on, `count` of them. -/
def serializeCds (digests : Digests) (callbacks : Callbacks) : Nat → Nat → Libcd → Except Fault (Libcd × List UInt8)
  | 0, _, s => .ok (s, [])
  | count + 1, i, s => do
      let (s, first) ← serializeCd digests callbacks s (← s.hashTypeAt i)
      let (s, rest) ← serializeCds digests callbacks count (i + 1) s
      return (s, first ++ rest)

end Cctools.CodeDirectory
