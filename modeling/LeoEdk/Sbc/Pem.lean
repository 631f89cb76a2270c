import LeoEdk.Sbc.Basic

/-!
`SBC_ConvertRawKeyPem`: a DER key as PEM text, with `Base64Encode` of the base library. The size `Base64Encode` reports
counts the terminator it writes.
-/

namespace LeoEdk.Sbc

open Bytes

def asciiBytes (s : String) : Bytes := s.toList.map fun c => UInt8.ofNat c.toNat

def newline : UInt8 := 0x0A

def encodingTable : Bytes := asciiBytes "ABCDEFGHIJKLMNOPQRSTUVWXYZabcdefghijklmnopqrstuvwxyz0123456789+/"

def encoded (index : UInt8) : UInt8 := encodingTable.getD index.toNat 0

/-- The loop of `Base64Encode` and the `switch` behind it: the characters without the terminator. -/
def base64Text : Bytes → Bytes
  | [] => []
  | [s0] => [encoded ((s0 &&& 0xfc) >>> 2), encoded ((s0 &&& 0x03) <<< 4), 0x3D, 0x3D]
  | [s0, s1] =>
    [encoded ((s0 &&& 0xfc) >>> 2), encoded (((s0 &&& 0x03) <<< 4) + ((s1 &&& 0xf0) >>> 4)),
      encoded ((s1 &&& 0x0f) <<< 2), 0x3D]
  | s0 :: s1 :: s2 :: source =>
    encoded ((s0 &&& 0xfc) >>> 2) :: encoded (((s0 &&& 0x03) <<< 4) + ((s1 &&& 0xf0) >>> 4)) ::
      encoded (((s1 &&& 0x0f) <<< 2) + ((s2 &&& 0xc0) >>> 6)) :: encoded (s2 &&& 0x3f) :: base64Text source

def requiredSize (sourceLength : Nat) : Nat := (sourceLength + 2) / 3 * 4 + 1

inductive Base64Status where
  | success | invalidParameter | bufferTooSmall
  deriving DecidableEq, Repr

def maxAddress : Nat := 0xFFFFFFFFFFFFFFFF

/-- The status, the new `DestinationSize` and what has been written. `Destination` may be null only when the size is
    asked for. -/
def base64Encode (source : Nat) (data : Bytes) (destination : Option Nat) (destinationSize : Nat) :
    Base64Status × Nat × Bytes :=
  if data.length = 0 then
    if destinationSize < 1 then (.bufferTooSmall, 1, []) else (.success, 1, [0])
  else if maxAddress - source ≤ data.length ∨ maxAddress - destination.getD 0 ≤ destinationSize then
    (.invalidParameter, destinationSize, [])
  else if destination = none ∨ destinationSize < requiredSize data.length then
    (.bufferTooSmall, requiredSize data.length, [])
  else (.success, destinationSize, base64Text data ++ [0])

def base64Value (c : UInt8) : Option Nat :=
  if 0x41 ≤ c ∧ c ≤ 0x5A then some (c.toNat - 0x41)
  else if 0x61 ≤ c ∧ c ≤ 0x7A then some (26 + (c.toNat - 0x61))
  else if 0x30 ≤ c ∧ c ≤ 0x39 then some (52 + (c.toNat - 0x30))
  else if c = 0x2B then some 62
  else if c = 0x2F then some 63
  else none

def isSpace (c : UInt8) : Bool := c ∈ ([0x09, 0x0A, 0x0B, 0x0C, 0x0D, 0x20] : Bytes)

/-- The variables of the loop of `Base64Decode`. Octets for which there is no room are counted like the others. -/
structure Decoding where
  paddingMode : Bool
  sixBitGroupsConsumed : Nat
  accumulator : Nat
  octets : Bytes
  deriving DecidableEq, Repr

def Decoding.feed (d : Decoding) (value : Nat) : Decoding :=
  -- `Accumulator << 6 | Base64Value`
  let accumulator := d.accumulator * 64 + value
  match d.sixBitGroupsConsumed with
  | 0 => ⟨d.paddingMode, 1, accumulator, d.octets⟩
  | 1 => ⟨d.paddingMode, 2, accumulator % 16, d.octets ++ [.ofNat (accumulator / 16)]⟩
  | 2 => ⟨d.paddingMode, 3, accumulator % 4, d.octets ++ [.ofNat (accumulator / 4)]⟩
  | _ => ⟨d.paddingMode, 0, 0, d.octets ++ [.ofNat accumulator]⟩

def Decoding.char (d : Decoding) (c : UInt8) : Option Decoding :=
  if isSpace c then some d
  else if d.paddingMode then
    if c = 0x3D ∧ d.sixBitGroupsConsumed = 3 then some { d with sixBitGroupsConsumed := 0 } else none
  else
    match base64Value c with
    | some value => some (d.feed value)
    | none =>
      if c = 0x3D ∧ 2 ≤ d.sixBitGroupsConsumed ∧ d.accumulator = 0 then
        some { d with paddingMode := true, sixBitGroupsConsumed := if d.sixBitGroupsConsumed = 2 then 3 else 0 }
      else none

/-- The checks of the arguments of `Base64Decode`; `none` is `NULL`. -/
def decodable (source : Option Nat) (sourceSize : Nat) (destination : Option Nat) (destinationSize : Nat) : Bool :=
  source.elim (sourceSize == 0) (sourceSize ≤ maxAddress - ·) &&
    destination.elim (destinationSize == 0) (destinationSize ≤ maxAddress - ·) &&
    decide (∀ a ∈ source, ∀ b ∈ destination, a + sourceSize ≤ b ∨ b + destinationSize ≤ a)

/-- The status, the new `DestinationSize` and what has been written, all indeterminate if the text is refused. -/
def base64Decode (source : Option Nat) (text : Bytes) (destination : Option Nat) (destinationSize : Nat) :
    Base64Status × Nat × Bytes :=
  if !decodable source text.length destination destinationSize then (.invalidParameter, destinationSize, [])
  else
    match text.foldlM Decoding.char ⟨false, 0, 0, []⟩ with
    | none => (.invalidParameter, 0, [])
    | some d =>
      if d.sixBitGroupsConsumed ≠ 0 then (.invalidParameter, 0, [])
      else if d.octets.length ≤ destinationSize then (.success, d.octets.length, d.octets)
      else (.bufferTooSmall, d.octets.length, d.octets.take destinationSize)

/-- The addresses of the key and of the buffer for its text, and whether the two buffers can be allocated. -/
structure PemEnv where
  derData : Nat
  base64Encoded : Nat
  base64Pool : Bool
  pemPool : Bool
  deriving DecidableEq, Repr

def pemLines (base64Size : Nat) : Nat → Nat → Bytes → Bytes
  | _, _, [] => []
  | i, j, c :: cs =>
    if (j + 1) % 64 = 0 ∧ i + 1 < base64Size then c :: newline :: pemLines base64Size (i + 1) 0 cs
    else c :: pemLines base64Size (i + 1) (j + 1) cs

def newlineCount (base64Size : Nat) : Nat := if base64Size % 64 = 0 then base64Size / 64 - 1 else base64Size / 64

def totalSize (header footer : Bytes) (base64Size : Nat) : Nat :=
  header.length + 1 + base64Size + newlineCount base64Size + 1 + footer.length + 1 + 1

inductive PemResult where
  | returned (st : Status)
  /-- `*PemKey`, as long as it was allocated, and `*PemKeySize` -/
  | key (buffer : Bytes) (size : Nat)
  | fault
  deriving DecidableEq, Repr

/-- `SBC_ConvertRawKeyPem`; header and footer are given without their terminators. The bytes are written one behind the
    other into a buffer of zeros, and leaving it is a fault. -/
def convertRawKeyPem (e : PemEnv) (der header footer : Bytes) : PemResult :=
  -- The status of the first call is not looked at.
  let base64Size := (base64Encode e.derData der none 0).2.1
  if !e.base64Pool then .returned .nullp
  else
    let (status, base64Size, base64Encoded) := base64Encode e.derData der (some e.base64Encoded) base64Size
    if status ≠ .success then .returned .fail
    else if !e.pemPool then .returned .nullp
    else
      let text := header ++ [newline] ++ pemLines base64Size 0 0 base64Encoded ++ [newline] ++ footer ++ [newline]
      let total := totalSize header footer base64Size
      if total < text.length + 1 then .fault
      else .key (text ++ List.replicate (total - text.length) 0) text.length

end LeoEdk.Sbc
