import RubyMachine.Cbor.Item

/-! Reading one data item. All well-formed encodings are accepted, also those that are not the
shortest; the nesting and the length of containers are bounded. -/

namespace RubyMachine.Cbor

inductive Error where
  | empty
  | truncated
  | malformed
  | trailing (count : Nat)
  | tooDeep
  | tooManyItems
  | tooManyEntries
  /-- Well-formed, but not of the form asked for. -/
  | mismatch
  deriving DecidableEq

/-- How many containers may stand inside each other. -/
def maxDepth : Nat := 32

/-- How many items or entries a container may hold. -/
def maxCount : Nat := 131072

def Error.message : Error → String
  | empty => "EOF"
  | truncated => "unexpected EOF"
  | malformed => "cbor: malformed data item"
  | trailing n => "cbor: " ++ toString n ++ " bytes of extraneous data"
  | tooDeep => "cbor: exceeded max nested level " ++ toString maxDepth
  | tooManyItems => "cbor: exceeded max number of elements " ++ toString maxCount ++ " for CBOR array"
  | tooManyEntries => "cbor: exceeded max number of key-value pairs " ++ toString maxCount ++ " for CBOR map"
  | mismatch => "cbor: cannot unmarshal data item"

/-- A reader takes what it needs from the front and gives the rest back. -/
abbrev Reader (α : Type) := List UInt8 → Except Error (α × List UInt8)

def takeBytes (n : Nat) : Reader (List UInt8) := fun s =>
  let front := s.take n
  if front.length < n then .error .truncated else .ok (front, s.drop n)

/-- The first byte of an item: its major type, and a number, or none for an open length. -/
structure Head where
  major : Nat
  /-- The low five bits. -/
  info : Nat
  value : Nat

namespace Head

def isOpen (h : Head) : Bool := h.info == 31

def read : Reader Head
  | [] => .error .truncated
  | b :: rest => do
    let major := b.toNat / 32
    let info := b.toNat % 32
    if info < 24 then return (⟨major, info, info⟩, rest)
    else if info < 28 then
      let (digits, rest) ← takeBytes (1 <<< (info - 24)) rest
      let value := digits.foldl (fun n d => 256 * n + d.toNat) 0
      if major = 7 ∧ info = 24 ∧ value < 32 then throw .malformed
      return (⟨major, info, value⟩, rest)
    else if info = 31 ∧ 2 ≤ major ∧ major ≤ 5 then return (⟨major, info, 0⟩, rest)
    else throw .malformed

end Head

def breakByte : UInt8 := 0xff

/-- The chunks of a string of open length, up to the break. -/
def readChunks (major : Nat) : Nat → Reader (List Bytes)
  | 0, _ => .error .truncated
  | _ + 1, [] => .error .truncated
  | fuel + 1, b :: rest =>
    if b = breakByte then .ok ([], rest)
    else do
      let (h, rest) ← Head.read (b :: rest)
      if h.major ≠ major ∨ h.isOpen then throw .malformed
      let (chunk, rest) ← takeBytes h.value rest
      let (chunks, rest) ← readChunks major fuel rest
      return (chunk.toArray :: chunks, rest)

def readString (h : Head) (fuel : Nat) : Reader (List Bytes) := fun s => do
  if h.isOpen then readChunks h.major fuel s
  else
    let (chunk, rest) ← takeBytes h.value s
    return ([chunk.toArray], rest)

/-- Keys and values that follow each other. -/
def pairUp : List Item → Option (List (Item × Item))
  | [] => some []
  | [_] => none
  | k :: v :: rest => (pairUp rest).map ((k, v) :: ·)

def startsTag : List UInt8 → Bool
  | b :: _ => b.toNat / 32 == 6
  | [] => false

/-- Booleans, null, other simple values and floats. -/
def ofPrimitive (h : Head) : Item :=
  match h.info with
  | 25 => .float (Number.NarrowFormat.half.widen h.value)
  | 26 => .float (Number.NarrowFormat.single.widen h.value)
  | 27 => .float (UInt64.ofNat h.value)
  | _ => .simple h.value

mutual

/-- Reads an item inside which `depth` more containers may be nested. A tag right inside a tag counts
as a container. -/
def readItem : Nat → Nat → Reader Item
  | 0, _, _ => .error .truncated
  | fuel + 1, depth, s => do
    let (h, rest) ← Head.read s
    match h.major with
    | 0 => return (.unsigned h.value, rest)
    | 1 => return (.negative h.value, rest)
    | 2 =>
      let (chunks, rest) ← readString h fuel rest
      return (.bytes (chunks.flatMap Array.toList).toArray, rest)
    | 3 =>
      let (chunks, rest) ← readString h fuel rest
      return (.text chunks, rest)
    | 4 =>
      if depth = 0 then throw .tooDeep
      if h.value > maxCount then throw .tooManyItems
      let (items, rest) ← if h.isOpen then readOpen fuel (depth - 1) rest else readItems fuel (depth - 1) h.value rest
      if items.length > maxCount then throw .tooManyItems
      return (.array items, rest)
    | 5 =>
      if depth = 0 then throw .tooDeep
      if h.value > maxCount then throw .tooManyEntries
      let (items, rest) ←
        if h.isOpen then readOpen fuel (depth - 1) rest else readItems fuel (depth - 1) (2 * h.value) rest
      if items.length > 2 * maxCount + 1 then throw .tooManyEntries
      match pairUp items with
      | some entries => return (.map entries, rest)
      | none => throw .malformed
    | 6 =>
      if startsTag rest ∧ depth = 0 then throw .tooDeep
      let (content, rest) ← readItem fuel (if startsTag rest then depth - 1 else depth) rest
      return (.tag h.value content, rest)
    | _ => return (ofPrimitive h, rest)

def readItems : Nat → Nat → Nat → Reader (List Item)
  | _, _, 0, s => .ok ([], s)
  | 0, _, _ + 1, _ => .error .truncated
  | fuel + 1, depth, n + 1, s => do
    let (x, rest) ← readItem fuel depth s
    let (xs, rest) ← readItems fuel depth n rest
    return (x :: xs, rest)

/-- The items of a container of open length, up to the break. -/
def readOpen : Nat → Nat → Reader (List Item)
  | 0, _, _ => .error .truncated
  | _ + 1, _, [] => .error .truncated
  | fuel + 1, depth, b :: rest =>
    if b = breakByte then .ok ([], rest)
    else do
      let (x, rest) ← readItem fuel depth (b :: rest)
      let (xs, rest) ← readOpen fuel depth rest
      return (x :: xs, rest)

end

/-- The one item that a byte string is. Every second step of reading takes a byte, which bounds the
steps. -/
def decode (b : Bytes) : Except Error Item := do
  if b.isEmpty then throw .empty
  let (x, rest) ← readItem (2 * b.size + 2) maxDepth b.toList
  if rest.isEmpty then return x else throw (.trailing rest.length)

end RubyMachine.Cbor
