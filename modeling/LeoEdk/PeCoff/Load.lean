import LeoEdk.PeCoff.Basic

/-!
`PeCoffLoaderLoadImage`, over a memory of bytes. The load buffer is part of the memory, and so is everything around it:
an address that the code does not check is written to all the same.
-/

namespace LeoEdk.PeCoff

open Bytes Prog

/-- What a load reads behind the headers: memory in the debug and resource steps, and ranges of the file. -/
inductive Access where
  | fetch (addr len : Nat)
  | file (ofs len : Nat)
  deriving DecidableEq, Repr

structure World where
  mem : Store
  ctx : ImageContext
  /-- A history variable: nothing reads it. -/
  history : List Access

abbrev Loader := Prog Bytes World ReturnStatus

def setError (e : ImageError) : Loader Unit := modify fun w => { w with ctx.imageError := e }

def fail {α : Type} (e : ImageError) (status : ReturnStatus) : Loader α := do
  setError e
  halt status

def failIf (c : Prop) [Decidable c] (e : ImageError) (status : ReturnStatus) : Loader Unit :=
  if c then fail e status else pure ()

def log (a : Access) : Loader Unit := modify fun w => { w with history := w.history ++ [a] }

def store (addr : Nat) (bs : Bytes) : Loader Unit := modify fun w => { w with mem := w.mem.write addr bs }

def peek (addr len : Nat) : Loader Bytes := return (← get).mem.read addr len

def fetch (addr len : Nat) : Loader Bytes := do
  log (.fetch addr len)
  peek addr len

def fetchNat (addr width : Nat) : Loader Nat := return leNat (← fetch addr width)

def context : Loader ImageContext := return (← get).ctx

def headerAddress (ctx : ImageContext) : Nat :=
  if ctx.isTeImage then ctx.imageAddress else ctx.imageAddress + ctx.peCoffHeaderOffset

def imageAddress (address teStripped : Nat) : Loader (Option Nat) := do
  let ctx ← context
  if (ctx.imageSize + teStripped) % 2 ^ 64 ≤ address then
    setError .invalidImageAddress
    return none
  return some (sub64 (ctx.imageAddress + address) teStripped)

def SectionHeader.copied (s : SectionHeader) : Nat :=
  if s.virtualSize = 0 ∨ s.sizeOfRawData < s.virtualSize then s.sizeOfRawData else s.virtualSize

/-- One section: its bytes of the file, then zeros up to the virtual size that its header has in memory by then. -/
def loadSection (teStripped section' : Nat) : Loader Unit := do
  let s := SectionHeader.ofBytes (← peek section' sectionHeaderSize)
  let base ← imageAddress s.virtualAddress teStripped
  let stop ← imageAddress (sub32 (s.virtualAddress + s.virtualSize) 1) teStripped
  failIf (0 < s.copied ∧ (base = none ∨ stop = none)) .sectionNotLoaded .loadError
  match base with
  | none => return ()
  | some base =>
    let ofs := sub32 s.pointerToRawData teStripped
    log (.file ofs s.copied)
    let data ← ask (slice ofs s.copied)
    store base data
    let virtualSize := (SectionHeader.ofBytes (← peek section' sectionHeaderSize)).virtualSize
    store (base + data.length) (List.replicate (virtualSize - data.length) 0)

def loadSections (teStripped : Nat) : (n section' : Nat) → Loader Unit
  | 0, _ => return ()
  | n + 1, section' => do
    loadSection teStripped section'
    loadSections teStripped n (section' + sectionHeaderSize)

/-! ### Debug data -/

def signatureNb10 : Nat := 0x3031424E
def signatureRsds : Nat := 0x53445352
def signatureMtoc : Nat := 0x434F544D

def pdbPointer (debugEntryAddr codeView : Nat) : Loader Unit := do
  let signature ← fetchNat codeView 4
  let headerSize := if signature = signatureNb10 then 16 else if signature = signatureRsds then 24 else 20
  if signature = signatureNb10 ∨ signature = signatureRsds ∨ signature = signatureMtoc then
    let sizeOfData ← fetchNat (debugEntryAddr + 16) 4
    failIf (sizeOfData < headerSize) .unsupported .unsupported
    modify fun w => { w with ctx.pdbPointer := codeView + headerSize }

def debugDataRva (entry : DebugEntry) (lastSection : Nat) : Loader Nat := do
  if entry.rva = 0 ∧ entry.fileOffset ≠ 0 then
    let s := SectionHeader.ofBytes (← fetch lastSection sectionHeaderSize)
    let span := if s.sizeOfRawData < s.virtualSize then s.virtualSize else s.sizeOfRawData
    return (s.virtualAddress + span) % 2 ^ 32
  else return entry.rva

def copyCodeView (teStripped addr rva codeView : Nat) (entry : DebugEntry) : Loader Unit := do
  if entry.rva = 0 then
    let ofs := sub32 entry.fileOffset teStripped
    log (.file ofs entry.sizeOfData)
    let data ← ask (slice ofs entry.sizeOfData)
    store codeView data
    store (addr + 20) (leBytes 4 rva)

def loadDebug (teStripped lastSection : Nat) : Loader Unit := do
  let ctx ← context
  if ctx.debugDirectoryEntryRva ≠ 0 then
    match ← imageAddress ctx.debugDirectoryEntryRva teStripped with
    | none => fail .failedRelocation .loadError
    | some addr =>
      let entry := DebugEntry.ofBytes (← fetch addr debugEntrySize)
      let rva ← debugDataRva entry lastSection
      if rva ≠ 0 then
        let codeView? ← imageAddress rva teStripped
        modify fun w => { w with ctx.codeView := codeView?.getD 0 }
        match codeView? with
        | none => fail .failedRelocation .loadError
        | some codeView =>
          copyCodeView teStripped addr rva codeView entry
          pdbPointer addr codeView

/-! ### Resources -/

def resourceDirectory (base size offset : Nat) : Loader Nat := do
  let named ← fetchNat (base + offset + 12) 2
  let ids ← fetchNat (base + offset + 14) 2
  failIf (size < (offset + 16 + 8 * (named + ids)) % 2 ^ 32) .unsupported .unsupported
  return base + offset

def resourceLevel (base size dir entry : Nat) : Loader (Nat × Nat) := do
  let data ← fetchNat (entry + 4) 4
  if 2 ^ 31 ≤ data then
    failIf (size ≤ data % 2 ^ 31) .unsupported .unsupported
    let dir ← resourceDirectory base size (data % 2 ^ 31)
    return (dir, dir + 16)
  else return (dir, entry)

def resourceLevels (base size dir entry : Nat) : Loader (Nat × Nat) := do
  let below ← fetchNat (entry + 4) 4
  let (dir₁, entry₁) ← resourceLevel base size dir entry
  if 2 ^ 31 ≤ below then resourceLevel base size dir₁ entry₁ else return (dir₁, entry₁)

def namedHii (base nameOffset : Nat) : Loader Bool := do
  let length ← fetchNat (base + nameOffset) 2
  if length ≠ 3 then return false
  let name ← fetch (base + nameOffset + 2) 6
  return name = [0x48, 0, 0x49, 0, 0x49, 0]

def resourceData (base size data : Nat) : Loader Unit := do
  failIf (size ≤ data) .unsupported .unsupported
  let rva ← fetchNat (base + data) 4
  let addr ← imageAddress rva 0
  modify fun w => { w with ctx.hiiResourceData := addr.getD 0 }

/-- The loop over the named entries; it ends with the first that leads to resource data. One that does not leaves the
    loop in the directory below, with the count of that directory. -/
def hiiEntries (base size : Nat) : (fuel index dir entry : Nat) → Loader Unit
  | 0, _, _, _ => return ()
  | fuel + 1, index, dir, entry => do
    if (← fetchNat (dir + 12) 2) ≤ index then return ()
    let name ← fetchNat entry 4
    if name < 2 ^ 31 then return ← hiiEntries base size fuel (index + 1) dir (entry + 8)
    failIf (size ≤ name % 2 ^ 31) .unsupported .unsupported
    if (← namedHii base (name % 2 ^ 31)) = false then return ← hiiEntries base size fuel (index + 1) dir (entry + 8)
    let (dir, entry) ← resourceLevels base size dir entry
    let data ← fetchNat (entry + 4) 4
    if data < 2 ^ 31 then resourceData base size data
    else hiiEntries base size fuel (index + 1) dir (entry + 8)

def loadResources (hdr : Nat) : Loader Unit := do
  modify fun w => { w with ctx.hiiResourceData := 0 }
  let ctx ← context
  if ctx.isTeImage = false then
    let magic := leNat (← peek (hdr + 24) 2)
    let numberOfRvaAndSizes := leNat (← peek (hdr + numberOfRvaAndSizesOfs magic) 4)
    let rva ← fetchNat (hdr + dataDirectoryOfs magic resourceEntry) 4
    let size ← fetchNat (hdr + dataDirectoryOfs magic resourceEntry + 4) 4
    if resourceEntry < numberOfRvaAndSizes ∧ size ≠ 0 then
      match ← imageAddress rva 0 with
      | none => return ()
      | some base =>
        let dir ← resourceDirectory base size 0
        -- a directory has fewer than `2 ^ 16` named entries
        hiiEntries base size (2 ^ 16) 0 dir (dir + 16)

/-! ### `PeCoffLoaderLoadImage` -/

def checkContext : Loader Unit := do
  setError .success
  let ctx ← context
  match ← ask getImageInfo with
  | .error (status, _) => halt status
  | .ok check =>
    failIf (ctx.imageSize < check.imageSize) .invalidImageSize .bufferTooSmall
    failIf (ctx.imageAddress = 0) .invalidImageAddress .invalidParameter
    -- `EFI_IMAGE_SUBSYSTEM_EFI_RUNTIME_DRIVER`
    failIf (check.relocationsStripped ∧ check.imageType = 12) .invalidSubsystem .loadError
    failIf (check.relocationsStripped ∧ check.imageAddress ≠ ctx.imageAddress) .invalidImageAddress .invalidParameter
    failIf (ctx.isTeImage = false ∧ ctx.imageAddress &&& sub32 check.sectionAlignment 1 ≠ 0) .invalidSectionAlignment
      .invalidParameter

def loadEntryPoint (hdr teStripped : Nat) : Loader Unit := do
  let ctx ← context
  let rva := leNat (← peek (hdr + if ctx.isTeImage then 8 else 40) 4)
  let entryPoint ← imageAddress rva teStripped
  let magic := leNat (← peek (hdr + 24) 2)
  let present := ctx.isTeImage || baseRelocEntry < leNat (← peek (hdr + numberOfRvaAndSizesOfs magic) 4)
  let size := leNat (← peek (hdr + (if ctx.isTeImage then 28 else dataDirectoryOfs magic baseRelocEntry + 4)) 4)
  modify fun w => { w with
    ctx.entryPoint := entryPoint.getD 0
    ctx.fixupDataSize := if present then size / 2 * 8 else 0
    ctx.fixupData := 0 }

def loadBody (hdr teStripped numberOfSections firstSection : Nat) : Loader Unit := do
  loadSections teStripped numberOfSections firstSection
  loadEntryPoint hdr teStripped
  loadDebug teStripped (firstSection + numberOfSections * sectionHeaderSize - sectionHeaderSize)
  loadResources hdr

def loadChecked : Loader Unit := do
  let ctx ← context
  let headers ← ask (slice 0 ctx.sizeOfHeaders)
  store ctx.imageAddress headers
  modify fun w => { w with ctx.sizeOfHeaders := headers.length }
  let hdr := headerAddress ctx
  let numberOfSections := leNat (← peek (hdr + if ctx.isTeImage then 4 else 6) (if ctx.isTeImage then 1 else 2))
  let optionalHeader := leNat (← peek (hdr + 20) 2)
  let firstSection := hdr + if ctx.isTeImage then teHeaderSize else 24 + optionalHeader
  let stripped := leNat (← peek (hdr + 6) 2)
  let teStripped := if ctx.isTeImage then sub32 stripped teHeaderSize else 0
  loadBody hdr teStripped numberOfSections firstSection

def loadImage : Loader Unit := do
  checkContext
  loadChecked

end LeoEdk.PeCoff
