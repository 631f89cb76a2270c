import LeoEdk.SecureBoot.Basic

/-!
`HashPeImage` and `HashPeImageByType`. The hash runs over ranges of the file: the headers without the checksum and the
security directory entry, the sections in the order of their file offsets, and what follows them up to the certificate
table.
-/

namespace LeoEdk.SecureBoot

open Bytes Prog

/-- The file (`mImageBase`, `mImageSize`) and `mPeCoffHeaderOffset`. -/
structure PeImage where
  bytes : Bytes
  peOfs : Nat
  deriving DecidableEq, Repr

namespace PeImage

variable (p : PeImage)

def magic32 : Nat := 0x10B
def magic64 : Nat := 0x20B

def optOfs : Nat := p.peOfs + 24
def checkSumOfs : Nat := p.optOfs + 64
def numberOfRvaAndSizesOfs (magic : Nat) : Nat := p.optOfs + if magic = magic32 then 92 else 108
def securityOfs (magic : Nat) : Nat := p.optOfs + if magic = magic32 then 128 else 144

end PeImage

/-! ### The ranges -/

/-- `HashUpdate` is skipped for a range of no bytes. -/
def nonEmpty (range : Nat × Nat) : List (Nat × Nat) := if range.2 ≠ 0 then [range] else []

def headerRanges (p : PeImage) (magic numberOfRvaAndSizes sizeOfHeaders : Nat) : List (Nat × Nat) :=
  let base := p.checkSumOfs + 4
  let dir := p.securityOfs magic
  (0, p.checkSumOfs) ::
    if numberOfRvaAndSizes ≤ 4 then nonEmpty (base, usub sizeOfHeaders base)
    else nonEmpty (base, dir - base) ++ nonEmpty (dir + 8, usub sizeOfHeaders (dir + 8))

structure Section where
  pointerToRawData : Nat
  sizeOfRawData : Nat
  deriving DecidableEq, Repr

def Section.ofBytes (bs : Bytes) : Section where
  sizeOfRawData := leNat (slice 16 4 bs)
  pointerToRawData := leNat (slice 20 4 bs)

/-- One round of the insertion sort on the table with its last entry in front: entries with a greater offset move up. -/
def insertSection (s : Section) : List Section → List Section
  | [] => [s]
  | t :: ts => if s.pointerToRawData < t.pointerToRawData then t :: insertSection s ts else s :: t :: ts

def sortSections (sections : List Section) : List Section :=
  (sections.foldl (fun table s => insertSection s table) []).reverse

def readSections (p : PeImage) : Option (List Section) := do
  let numberOfSections ← field p.bytes (p.peOfs + 6) 2
  let sizeOfOptionalHeader ← field p.bytes (p.peOfs + 20) 2
  (List.range numberOfSections).mapM fun i =>
    (slice? (p.optOfs + sizeOfOptionalHeader + 40 * i) 40 p.bytes).map Section.ofBytes

def sectionRanges (sections : List Section) : List (Nat × Nat) :=
  (sortSections sections).flatMap fun s => nonEmpty (s.pointerToRawData, s.sizeOfRawData)

def certSize (p : PeImage) (magic numberOfRvaAndSizes : Nat) : Option Nat :=
  if numberOfRvaAndSizes ≤ 4 then some 0 else field p.bytes (p.securityOfs magic + 4) 4

/-- What follows the hashed bytes, without the certificate table; `none` where they overlap. -/
def trailingRange (size certSize sumOfBytesHashed : Nat) : Option (List (Nat × Nat)) :=
  if certSize + sumOfBytesHashed < size then some [(sumOfBytesHashed, size - certSize - sumOfBytesHashed)]
  else if size < certSize + sumOfBytesHashed then none
  else some []

def hashRanges (img : Bytes) : Bytes → List (Nat × Nat) → Verify (Option Bytes)
  | ctx, [] => return some ctx
  | ctx, (base, size) :: ranges => do
    let bs ← bytesAt img base size
    if (← attempt) = false then return none
    hashRanges img (ctx ++ bs) ranges

def hashTrailing (p : PeImage) (magic numberOfRvaAndSizes sumOfBytesHashed : Nat) (ctx : Bytes) :
    Verify (Option Bytes) := do
  if p.bytes.length ≤ sumOfBytesHashed then return some ctx
  let certSize ← orFault (certSize p magic numberOfRvaAndSizes)
  match trailingRange p.bytes.length certSize sumOfBytesHashed with
  | none => return none
  | some ranges => hashRanges p.bytes ctx ranges

/-- The bytes that a hash context has taken in, or `none` once an operation has failed. -/
def hashPeBytes (p : PeImage) : Verify (Option Bytes) := do
  let magic ← natAt p.bytes p.optOfs 2
  if magic ≠ PeImage.magic32 ∧ magic ≠ PeImage.magic64 then return none
  let numberOfRvaAndSizes ← natAt p.bytes (p.numberOfRvaAndSizesOfs magic) 4
  let sizeOfHeaders ← natAt p.bytes (p.optOfs + 60) 4
  let some ctx ← hashRanges p.bytes [] (headerRanges p magic numberOfRvaAndSizes sizeOfHeaders) | return none
  -- the table of section headers
  if (← attempt) = false then return none
  let sections ← orFault (readSections p)
  let some ctx ← hashRanges p.bytes ctx (sectionRanges sections) | return none
  hashTrailing p magic numberOfRvaAndSizes (sizeOfHeaders + (sections.map (·.sizeOfRawData)).sum) ctx

def hashPeImage (p : PeImage) (alg : HashAlg) : Verify Bool := do
  modify fun w => { w with globals.mImageDigest := List.replicate 64 0 }
  match imageCertType (← ask (·.sha1Enabled)) alg with
  | none => return false
  | some certType =>
    modify fun w => { w with globals.mImageDigestSize := alg.digestLength, globals.mCertType := certType }
    -- the hash context, and `HashInit`
    if (← attempt) = false then return false
    if (← attempt) = false then return false
    let some bytes ← hashPeBytes p | return false
    if (← attempt) = false then return false
    let digest ← ask (·.digest alg bytes)
    modify fun w => { w with globals.mImageDigest := digest ++ List.replicate (64 - digest.length) 0 }
    return true

/-- The digest algorithm at its fixed place in Authenticode data, whose length takes two bytes. -/
def digestAlg (authData : Bytes) : Except EfiStatus HashAlg :=
  if 1 < authData.length ∧ authData.getD 1 0 &&& 0x82 ≠ 0x82 then .error .badBufferSize
  else
    match HashAlg.all.find? fun alg =>
      32 + alg.oidValue.length ≤ authData.length ∧ slice 32 alg.oidValue.length authData = alg.oidValue with
    | none => .error .unsupported
    | some alg => .ok alg

def hashPeImageByType (p : PeImage) (authData : Bytes) : Verify EfiStatus := do
  match digestAlg authData with
  | .error st => return st
  | .ok alg =>
    if (← hashPeImage p alg) = false then return .unsupported
    return .success

/-! ### What is hashed -/

def gather (img : Bytes) (ranges : List (Nat × Nat)) : Option Bytes :=
  (ranges.mapM fun range => slice? range.1 range.2 img).map List.flatten

def trailingBytes (p : PeImage) (magic numberOfRvaAndSizes sumOfBytesHashed : Nat) : Option Bytes :=
  if p.bytes.length ≤ sumOfBytesHashed then some []
  else do
    let certSize ← certSize p magic numberOfRvaAndSizes
    let ranges ← trailingRange p.bytes.length certSize sumOfBytesHashed
    gather p.bytes ranges

def imageMessage (p : PeImage) : Option Bytes := do
  let magic ← field p.bytes p.optOfs 2
  guard (magic = PeImage.magic32 ∨ magic = PeImage.magic64)
  let numberOfRvaAndSizes ← field p.bytes (p.numberOfRvaAndSizesOfs magic) 4
  let sizeOfHeaders ← field p.bytes (p.optOfs + 60) 4
  let header ← gather p.bytes (headerRanges p magic numberOfRvaAndSizes sizeOfHeaders)
  let sections ← readSections p
  let body ← gather p.bytes (sectionRanges sections)
  let rest ← trailingBytes p magic numberOfRvaAndSizes (sizeOfHeaders + (sections.map (·.sizeOfRawData)).sum)
  return header ++ body ++ rest

end LeoEdk.SecureBoot
