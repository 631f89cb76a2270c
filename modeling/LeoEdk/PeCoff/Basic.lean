import LeoEdk.Lib.Program
import LeoEdk.Lib.Bytes

/-!
`BasePeCoffLib`: the image context, the headers, and what `PeCoffLoaderGetImageInfo` reads from a file. `ImageRead`
copies as many of the requested bytes as the file has; every header field is read from the bytes at its offset.
-/

namespace LeoEdk.PeCoff

open Bytes

inductive ReturnStatus where
  | success | unsupported | loadError | bufferTooSmall | invalidParameter
  deriving DecidableEq, Repr

inductive ImageError where
  | success | imageRead | invalidMachineType | invalidSubsystem | invalidImageAddress | invalidImageSize
  | invalidSectionAlignment | sectionNotLoaded | failedRelocation | unsupported
  deriving DecidableEq, Repr

structure ImageInfo where
  imageAddress : Nat
  imageSize : Nat
  sectionAlignment : Nat
  peCoffHeaderOffset : Nat
  debugDirectoryEntryRva : Nat
  sizeOfHeaders : Nat
  machine : Nat
  imageType : Nat
  relocationsStripped : Bool
  isTeImage : Bool
  deriving DecidableEq, Repr

/-- `PE_COFF_LOADER_IMAGE_CONTEXT`; a null pointer is 0. -/
structure ImageContext extends ImageInfo where
  destinationAddress : Nat
  entryPoint : Nat
  fixupData : Nat
  codeView : Nat
  pdbPointer : Nat
  imageError : ImageError
  fixupDataSize : Nat
  hiiResourceData : Nat
  deriving DecidableEq, Repr

def ImageContext.fill (ctx : ImageContext) (info : ImageInfo) : ImageContext :=
  { ctx with
    toImageInfo := info
    destinationAddress := 0
    codeView := 0
    pdbPointer := 0
    imageError := .success }

def field (bs : Bytes) (ofs width : Nat) : Nat := leNat (slice ofs width bs)

def sub32 (a b : Nat) : Nat := (a + 2 ^ 32 - b) % 2 ^ 32

def sub64 (a b : Nat) : Nat := (a + 2 ^ 64 - b) % 2 ^ 64

def headerUnionSize : Nat := 264

def teHeaderSize : Nat := 40

def dosSignature : Nat := 0x5A4D
def teSignature : Nat := 0x5A56
def ntSignature : Nat := 0x4550
def magic32 : Nat := 0x10B
def magic64 : Nat := 0x20B

/-- `PeCoffLoaderImageFormatSupported` on IA32, X64, EBC and AARCH64. -/
def imageFormatSupported (machine : Nat) : Bool :=
  machine = 0x014C || machine = 0x8664 || machine = 0x0EBC || machine = 0xAA64

def numberOfRvaAndSizesOfs (magic : Nat) : Nat := if magic = magic32 then 116 else 132
def dataDirectoryOfs (magic i : Nat) : Nat := (if magic = magic32 then 120 else 136) + 8 * i

def resourceEntry : Nat := 2
def securityEntry : Nat := 4
def baseRelocEntry : Nat := 5
def debugEntry : Nat := 6

structure SectionHeader where
  virtualSize : Nat
  virtualAddress : Nat
  sizeOfRawData : Nat
  pointerToRawData : Nat
  deriving DecidableEq, Repr

def sectionHeaderSize : Nat := 40

def SectionHeader.ofBytes (bs : Bytes) : SectionHeader where
  virtualSize := field bs 8 4
  virtualAddress := field bs 12 4
  sizeOfRawData := field bs 16 4
  pointerToRawData := field bs 20 4

def adjustOffsetForTeImage (teStrippedOffset : Nat) (s : SectionHeader) : SectionHeader :=
  { s with
    virtualAddress := sub32 s.virtualAddress teStrippedOffset
    pointerToRawData := sub32 s.pointerToRawData teStrippedOffset }

structure DebugEntry where
  type : Nat
  sizeOfData : Nat
  rva : Nat
  fileOffset : Nat
  deriving DecidableEq, Repr

def debugEntrySize : Nat := 28

def DebugEntry.ofBytes (bs : Bytes) : DebugEntry where
  type := field bs 12 4
  sizeOfData := field bs 16 4
  rva := field bs 20 4
  fileOffset := field bs 24 4

def typeCodeView : Nat := 2
def typeExDllCharacteristics : Nat := 20

/-! ### Reading the file -/

abbrev Info := Except (ReturnStatus × ImageError)

def throwIf (c : Prop) [Decidable c] (e : ReturnStatus × ImageError) : Info Unit := if c then .error e else .ok ()

/-- `ImageRead` of a whole range: a short read makes the image unsupported. -/
def readExact (file : Bytes) (ofs size : Nat) : Info Bytes :=
  if ofs + size ≤ file.length then return slice ofs size file else .error (.unsupported, .imageRead)

def checkSecurity (file : Bytes) (numberOfRvaAndSizes address size : Nat) : Info Unit := do
  if securityEntry < numberOfRvaAndSizes ∧ size ≠ 0 then
    throwIf (2 ^ 32 - 1 - address < size) (.unsupported, .unsupported)
    let _ ← readExact file (address + size - 1) 1

def ntInfo (hdr : Bytes) (peCoffHeaderOffset : Nat) : ImageInfo where
  imageAddress := if field hdr 24 2 = magic32 then field hdr 52 4 else field hdr 48 8
  imageSize := field hdr 80 4
  sectionAlignment := field hdr 56 4
  peCoffHeaderOffset := peCoffHeaderOffset
  debugDirectoryEntryRva := 0
  sizeOfHeaders := field hdr 84 4
  machine := field hdr 4 2
  imageType := field hdr 92 2
  -- `EFI_IMAGE_FILE_RELOCS_STRIPPED`
  relocationsStripped := field hdr 22 2 % 2 = 1
  isTeImage := false

/-- The header of a PE32 or PE32+ image: the checks are the same, at other offsets. -/
def getNtHeader (file hdr : Bytes) (peCoffHeaderOffset : Nat) : Info ImageInfo := do
  let magic := field hdr 24 2
  throwIf (magic ≠ magic32 ∧ magic ≠ magic64) (.unsupported, .invalidMachineType)
  let numberOfRvaAndSizes := field hdr (numberOfRvaAndSizesOfs magic) 4
  let sizeOfOptionalHeader := field hdr 20 2
  let numberOfSections := field hdr 6 2
  let sizeOfImage := field hdr 80 4
  let sizeOfHeaders := field hdr 84 4
  throwIf (16 < numberOfRvaAndSizes) (.unsupported, .unsupported)
  throwIf (sub32 sizeOfOptionalHeader (dataDirectoryOfs magic 0 - 24) ≠ numberOfRvaAndSizes * 8)
    (.unsupported, .unsupported)
  let sectionHeaderOffset := (peCoffHeaderOffset + 24 + sizeOfOptionalHeader) % 2 ^ 32
  throwIf (sizeOfImage ≤ sectionHeaderOffset) (.unsupported, .unsupported)
  throwIf ((sizeOfImage - sectionHeaderOffset) / sectionHeaderSize ≤ numberOfSections) (.unsupported, .unsupported)
  throwIf (sizeOfHeaders ≤ sectionHeaderOffset) (.unsupported, .unsupported)
  throwIf (sizeOfImage ≤ sizeOfHeaders) (.unsupported, .unsupported)
  throwIf ((sizeOfHeaders - sectionHeaderOffset) / sectionHeaderSize < numberOfSections) (.unsupported, .unsupported)
  let _ ← readExact file (sizeOfHeaders - 1) 1
  checkSecurity file numberOfRvaAndSizes (field hdr (dataDirectoryOfs magic securityEntry) 4)
    (field hdr (dataDirectoryOfs magic securityEntry + 4) 4)
  return ntInfo hdr peCoffHeaderOffset

def teStrippedOffset (hdr : Bytes) : Nat := sub32 (field hdr 6 2) teHeaderSize

def getTeHeader (file hdr : Bytes) (peCoffHeaderOffset : Nat) : Info ImageInfo := do
  let strippedSize := field hdr 6 2
  let baseOfCode := field hdr 12 4
  let sizeOfHeaders := sub64 (teHeaderSize + baseOfCode) strippedSize
  throwIf (strippedSize ≤ teHeaderSize) (.unsupported, .unsupported)
  throwIf (baseOfCode ≤ strippedSize) (.unsupported, .unsupported)
  let _ ← readExact file (sizeOfHeaders - 1) 1
  throwIf ((field hdr 28 4 ≠ 0 ∧ field hdr 24 4 = 0) ∨ (field hdr 36 4 ≠ 0 ∧ field hdr 32 4 = 0))
    (.unsupported, .unsupported)
  return {
    imageAddress := (field hdr 16 8 + teStrippedOffset hdr) % 2 ^ 64
    imageSize := 0
    sectionAlignment := 0
    peCoffHeaderOffset := peCoffHeaderOffset
    debugDirectoryEntryRva := 0
    sizeOfHeaders := sizeOfHeaders
    machine := field hdr 2 2
    imageType := field hdr 5 1
    -- there is no relocation directory
    relocationsStripped := field hdr 28 4 = 0 && field hdr 24 4 = 0
    isTeImage := true }

def checkSection (file : Bytes) (sizeOfHeaders : Nat) (s : SectionHeader) : Info Unit := do
  if 0 < s.sizeOfRawData then
    throwIf (s.virtualAddress < sizeOfHeaders ∨ s.pointerToRawData < sizeOfHeaders) (.unsupported, .unsupported)
    throwIf (2 ^ 32 - 1 - s.pointerToRawData < s.sizeOfRawData) (.unsupported, .unsupported)
    let _ ← readExact file (s.pointerToRawData + s.sizeOfRawData - 1) 1

def checkSections (file : Bytes) (adjust : SectionHeader → SectionHeader) (sizeOfHeaders : Nat) :
    (n sectionHeaderOffset : Nat) → Info Unit
  | 0, _ => return ()
  | n + 1, sectionHeaderOffset => do
    let bs ← readExact file sectionHeaderOffset sectionHeaderSize
    checkSection file sizeOfHeaders (adjust (.ofBytes bs))
    checkSections file adjust sizeOfHeaders n ((sectionHeaderOffset + sectionHeaderSize) % 2 ^ 32)

def sectionTable (info : ImageInfo) (hdr : Bytes) : Nat × Nat :=
  if info.isTeImage then (teHeaderSize, field hdr 4 1)
  else ((info.peCoffHeaderOffset + 24 + field hdr 20 2) % 2 ^ 32, field hdr 6 2)

def getHeader (file hdr : Bytes) (peCoffHeaderOffset : Nat) : Info ImageInfo :=
  if field hdr 0 2 = teSignature then getTeHeader file hdr peCoffHeaderOffset
  else if field hdr 0 4 = ntSignature then getNtHeader file hdr peCoffHeaderOffset
  else throw (.unsupported, .invalidMachineType)

def headerOffset (dosHdr : Bytes) : Nat := if field dosHdr 0 2 = dosSignature then field dosHdr 0x3C 4 else 0

/-- With the fields that `PeCoffLoaderGetImageInfo` takes from the same header. -/
def getPeHeader (file : Bytes) : Info (Bytes × ImageInfo) := do
  let dosHdr ← readExact file 0 64
  let hdr ← readExact file (headerOffset dosHdr) headerUnionSize
  let info ← getHeader file hdr (headerOffset dosHdr)
  throwIf (imageFormatSupported info.machine = false) (.unsupported, .success)
  let (sectionHeaderOffset, numberOfSections) := sectionTable info hdr
  let adjust := if info.isTeImage then adjustOffsetForTeImage (teStrippedOffset hdr) else id
  checkSections file adjust info.sizeOfHeaders numberOfSections sectionHeaderOffset
  return (hdr, info)

/-! ### `PeCoffLoaderGetImageInfo` -/

def SectionHeader.holds (s : SectionHeader) (rva : Nat) : Bool :=
  s.virtualAddress ≤ rva && rva < (s.virtualAddress + s.virtualSize) % 2 ^ 32

def debugFileOffset (file : Bytes) (rva : Nat) : (n sectionHeaderOffset : Nat) → Info Nat
  | 0, _ => return 0
  | n + 1, sectionHeaderOffset => do
    let bs ← readExact file sectionHeaderOffset sectionHeaderSize
    let s := SectionHeader.ofBytes bs
    if s.holds rva then return rva - s.virtualAddress + s.pointerToRawData
    debugFileOffset file rva n (sectionHeaderOffset + sectionHeaderSize)

/-- The loop over the debug directory of an image with NT headers; CodeView data that has no address enlarges the
    image. -/
def debugDirectory (file : Bytes) (rva fileOffset size : Nat) : (fuel index : Nat) → ImageInfo → Info ImageInfo
  | 0, _, info => return info
  | fuel + 1, index, info => do
    if size ≤ index then return info
    let bs ← readExact file (fileOffset + index) debugEntrySize
    let entry := DebugEntry.ofBytes bs
    let nextIndex := index + debugEntrySize
    if entry.type = typeCodeView then
      let added := if entry.rva = 0 ∧ entry.fileOffset ≠ 0 then entry.sizeOfData else 0
      let info := { info with
        debugDirectoryEntryRva := (rva + index) % 2 ^ 32
        imageSize := info.imageSize + added }
      if nextIndex < size ∧ entry.fileOffset = fileOffset + nextIndex then return info
      debugDirectory file rva fileOffset size fuel nextIndex info
    else if entry.type = typeExDllCharacteristics then
      -- `DllCharacteristicsEx`
      let _ ← readExact file entry.fileOffset 4
      debugDirectory file rva fileOffset size fuel nextIndex info
    else debugDirectory file rva fileOffset size fuel nextIndex info

/-- The section loop for a TE image; once the debug directory is found it goes on with the last section. -/
def teSections (file : Bytes) (rva teStripped numberOfSections : Nat) :
    (fuel index sectionHeaderOffset fileOffset imageSize : Nat) → Info (Nat × Nat)
  | 0, _, _, fileOffset, imageSize => return (fileOffset, imageSize)
  | fuel + 1, index, sectionHeaderOffset, fileOffset, imageSize => do
    if numberOfSections ≤ index then return (fileOffset, imageSize)
    let bs ← readExact file sectionHeaderOffset sectionHeaderSize
    let s := SectionHeader.ofBytes bs
    let fileOffset := if s.holds rva then sub64 (rva - s.virtualAddress + s.pointerToRawData) teStripped else fileOffset
    if s.holds rva ∧ index < numberOfSections - 1 then
      teSections file rva teStripped numberOfSections fuel (numberOfSections - 1)
        (sectionHeaderOffset + (numberOfSections - 1 - index) * sectionHeaderSize) fileOffset imageSize
    else
      let imageSize := if index + 1 = numberOfSections then
        sub32 (s.virtualAddress + s.virtualSize) teStripped else imageSize
      teSections file rva teStripped numberOfSections fuel (index + 1) (sectionHeaderOffset + sectionHeaderSize)
        fileOffset imageSize

def teDebugDirectory (file : Bytes) (rva fileOffset size : Nat) : (fuel index : Nat) → ImageInfo → Info ImageInfo
  | 0, _, info => return info
  | fuel + 1, index, info => do
    if size ≤ index then return info
    let bs ← readExact file (fileOffset + index) debugEntrySize
    if (DebugEntry.ofBytes bs).type = typeCodeView then
      return { info with debugDirectoryEntryRva := (rva + index) % 2 ^ 32 }
    teDebugDirectory file rva fileOffset size fuel (index + debugEntrySize) info

def ntDebugInfo (file hdr : Bytes) (info : ImageInfo) : Info ImageInfo := do
  let magic := field hdr 24 2
  if field hdr (numberOfRvaAndSizesOfs magic) 4 ≤ debugEntry then return info
  let rva := field hdr (dataDirectoryOfs magic debugEntry) 4
  let size := field hdr (dataDirectoryOfs magic debugEntry + 4) 4
  let fileOffset ← debugFileOffset file rva (field hdr 6 2) (info.peCoffHeaderOffset + 24 + field hdr 20 2)
  if fileOffset = 0 then return info
  debugDirectory file rva fileOffset size size 0 info

def teDebugInfo (file hdr : Bytes) (info : ImageInfo) : Info ImageInfo := do
  let rva := field hdr 32 4
  let size := field hdr 36 4
  let numberOfSections := field hdr 4 1
  let (fileOffset, imageSize) ← teSections file rva (teStrippedOffset hdr) numberOfSections (numberOfSections + 1) 0
    teHeaderSize 0 info.imageSize
  let info := { info with imageSize := imageSize }
  if fileOffset = 0 then return info
  teDebugDirectory file rva fileOffset size size 0 info

def getImageInfo (file : Bytes) : Info ImageInfo := do
  let (hdr, info) ← getPeHeader file
  if info.isTeImage then teDebugInfo file hdr info else ntDebugInfo file hdr info

end LeoEdk.PeCoff
