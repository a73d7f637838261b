import Mathlib.Algebra.Group.Nat.Defs
import AttentionBroker.Infra.CString

/-!
# The expression hasher

`hasher/expression_hasher.{cc,h}`. A handle is the MD5 digest of a name, of a type and a name, or
of the handles of the elements, as 32 hex digits. The string to digest is built in a static
buffer that all calls share and that no call clears.

MD5 is a parameter. The arguments of a call are not in the static buffers, which no caller can
reach.
-/

namespace AttentionBroker

open Infra

namespace ExpressionHasher

/-- `JOINING_CHAR`, a space. -/
def joiningChar : UInt8 := 0x20

/-- `MAX_LITERAL_OR_SYMBOL_SIZE`. -/
def maxLiteralOrSymbolSize : Nat := 10000

/-- `MAX_HASHABLE_STRING_SIZE`. -/
def maxHashableStringSize : Nat := 100000

/-- `HANDLE_HASH_SIZE`. -/
def handleHashSize : Nat := 33

/-! ## State -/

/-- The static buffers. -/
structure Statics where
  md5Buffer : Buffer 16
  hash : Buffer handleHashSize
  hashableString : Buffer maxHashableStringSize

/-- The static buffers before the first call. -/
def Statics.init : Statics where
  md5Buffer := fun _ => 0
  hash := fun _ => 0
  hashableString := fun _ => 0

/-- How a call can fail to return. -/
inductive HashFault where
  /-- The process exited with this message. -/
  | exit (message : String)
  /-- A byte was written outside of `HASHABLE_STRING`, at this index. -/
  | written (index : Nat)
  /-- A byte was read outside of `HASHABLE_STRING`, at this index. -/
  | read (index : Nat)
  /-- A byte was accessed outside of `HASH`, at this index. -/
  | hash (index : Nat)
  /-- An entry was written outside of the array `composite`. -/
  | composite
deriving DecidableEq

/-- A call reads and changes the static buffers. -/
abbrev Hasher := StateT Statics (Except HashFault)

/-- `strlen`. -/
def strlen (s : CString) : UInt64 := UInt64.ofNat s.bytes.length

/-- The arguments `elements` and `nelements`, an `unsigned int`. -/
structure Elements where
  toList : List CString
  length_lt : toList.length < 2 ^ 32

/-- `nelements`. -/
def Elements.nelements (es : Elements) : Nat := es.toList.length

/-! ## Digests -/

/-- A digit of `"%02x"`. -/
def hexDigit (d : UInt8) : UInt8 := if d < 10 then 0x30 + d else 0x61 + (d - 10)

/-- What `"%02x"` prints. -/
def hex (b : UInt8) : List UInt8 := [hexDigit (b / 16), hexDigit (b % 16)]

/-- The loop of `compute_hash`, from index `i` on. -/
def writeHex : Nat → List UInt8 → Buffer handleHashSize → Except Nat (Buffer handleHashSize)
  | _, [], hash => .ok hash
  | i, b :: bs, hash => do
    let hash ← hash.writeString (2 * i) (hex b)
    writeHex (i + 1) bs hash

/-- `compute_hash`. -/
def computeHash (md5 : List UInt8 → Buffer 16) (input : CString) : Hasher CString := fun s => do
  let md5Buffer := md5 input.bytes
  let hash ← (writeHex 0 (List.ofFn md5Buffer) s.hash).mapError .hash
  let hash ← (hash.store 32 0).mapError .hash
  let handle ← (hash.readString 0).mapError .hash
  return (handle, { s with md5Buffer := md5Buffer, hash := hash })

/-! ## Strings to digest

What each function does up to its call of `compute_hash`. The result is the string that it passes.
-/

/-- `HASHABLE_STRING` after the writes of a call, as the string that is passed. -/
def passHashable (written : Except Nat (Buffer maxHashableStringSize)) : Hasher CString :=
  fun s => do
    let hashableString ← written.mapError .written
    let input ← (hashableString.readString 0).mapError .read
    return (input, { s with hashableString := hashableString })

/-- `named_type_hash`. -/
def namedTypeInput (name : CString) : Hasher CString := pure name

/-- `terminal_hash`. -/
def terminalInput (type name : CString) : Hasher CString := fun s =>
  if maxHashableStringSize ≤ (strlen type + strlen name).toNat then
    .error (.exit "Invalid (too large) terminal name")
  else
    passHashable
      (s.hashableString.writeString 0 (type.bytes ++ [joiningChar] ++ name.bytes)) s

/-- The first loop of `composite_hash`, with `total_size` so far. It returns `element_size`. -/
def elementSizes : List CString → UInt32 → Except HashFault (List UInt32 × UInt32)
  | [], totalSize => .ok ([], totalSize)
  | e :: es, totalSize =>
    let size := (strlen e).toUInt32
    if maxLiteralOrSymbolSize < size.toNat then
      .error (.exit "Invalid (too large) composite elements")
    else do
      let (elementSize, totalSize) ← elementSizes es (totalSize + size)
      return (size :: elementSize, totalSize)

/-- The second loop of `composite_hash`, from index `i` on. -/
def joinElements (nelements : Nat) : Nat → Nat → List (CString × UInt32) →
    Buffer maxHashableStringSize → Except Nat (Buffer maxHashableStringSize)
  | _, _, [], hashableString => .ok hashableString
  | i, cursor, (e, size) :: es, hashableString =>
    if i = nelements - 1 then do
      let hashableString ← hashableString.writeString cursor e.bytes
      joinElements nelements (i + 1) (cursor + size.toNat) es hashableString
    else do
      let hashableString ← hashableString.writeString cursor (e.bytes ++ [joiningChar])
      joinElements nelements (i + 1) (cursor + 1 + size.toNat) es hashableString

/-- `composite_hash`. Without elements it writes nothing. -/
def compositeInput (elements : Elements) : Hasher CString := fun s => do
  let (elementSize, totalSize) ← elementSizes elements.toList 0
  if maxHashableStringSize ≤ totalSize.toNat then
    .error (.exit "Invalid (too large) composite elements")
  else
    let sized := elements.toList.zip elementSize
    passHashable (joinElements elements.nelements 0 0 sized s.hashableString) s

/-- `expression_hash`. Where `nelements + 1` wraps, `composite` has no entries. -/
def expressionInput (typeHash : CString) (elements : Elements) : Hasher CString :=
  if h : elements.nelements + 1 < 2 ^ 32 then compositeInput ⟨typeHash :: elements.toList, h⟩
  else throw .composite

/-! ## Calls -/

/-- A call with its arguments. -/
inductive Call where
  | namedTypeHash (name : CString)
  | terminalHash (type name : CString)
  | compositeHash (elements : Elements)
  | expressionHash (typeHash : CString) (elements : Elements)

namespace Call

/-- What a call passes to `compute_hash`. -/
def input : Call → Hasher CString
  | namedTypeHash name => namedTypeInput name
  | terminalHash type name => terminalInput type name
  | compositeHash elements => compositeInput elements
  | expressionHash typeHash elements => expressionInput typeHash elements

variable (md5 : List UInt8 → Buffer 16)

/-- A whole call. It returns a handle. -/
def hash (c : Call) : Hasher CString := do
  let input ← c.input
  computeHash md5 input

/-- A call as a step of a run. There is no step where it does not return. -/
def step (s : Statics) (c : Call) : Option Statics := (c.hash md5 s).toOption.map Prod.snd

end Call

end ExpressionHasher

end AttentionBroker
