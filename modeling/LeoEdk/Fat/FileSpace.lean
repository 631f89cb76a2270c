import LeoEdk.Lib.Bytes

/-!
Disk space and FAT entries of the FAT driver (`EnhancedFatDxe/FileSpace.c`).

The FAT is a store that begins at the first byte of the table; every access to it succeeds. Loops that follow the table
end on every sound volume; on another one they may run out of fuel, which is the result `none`.
-/

namespace LeoEdk.Fat

open Bytes

inductive FatType
  | fat12
  | fat16
  | fat32
deriving DecidableEq

/-! ### Entry values -/

/-- `FAT_CLUSTER_SPECIAL_EXT`, the upper bits of `MAX_UINTN`. -/
def clusterSpecialExt : Nat := 0xFFFFFFFFFFFFFFF0

def clusterSpecial : Nat := clusterSpecialExt ||| 0x07

def clusterFree : Nat := 0

def clusterLast : Nat := 0xFFFFFFFFFFFFFFFF

def minCluster : Nat := 2

def endOfFatChain (cluster : Nat) : Prop := cluster > clusterSpecial

instance (cluster : Nat) : Decidable (endOfFatChain cluster) := inferInstanceAs (Decidable (_ > _))

namespace FatType

/-- `FAT_CLUSTER_SPECIAL_FAT12` and its siblings: from here on an entry is not the number of a cluster. -/
def special : FatType → Nat
  | fat12 => 0xFF7
  | fat16 => 0xFFF7
  | fat32 => 0x0FFFFFF7

def entrySize : FatType → Nat
  | fat12 => 2
  | fat16 => 2
  | fat32 => 4

def pos : FatType → Nat → Nat
  | fat12, index => index * 3 / 2
  | fat16, index => index * 2
  | fat32, index => index * 4

end FatType

/-- The numbers of clusters with which `FatOpenDevice` takes a volume for one of the type. For FAT32 there is no upper
    limit. -/
def FatType.Accepts : FatType → Nat → Prop
  | fat12, maxCluster => maxCluster < 0xFF5
  | fat16, maxCluster => 0xFF5 ≤ maxCluster ∧ maxCluster < 0xFFF5
  | fat32, maxCluster => 0xFFF5 ≤ maxCluster

/-- The clusters are numbered from 2 to `maxCluster + 1`. -/
structure Geometry where
  fatType : FatType
  maxCluster : Nat
  clusterAlignment : Nat
  dirtyValue : Nat
  accepted : fatType.Accepts maxCluster

/-- `FAT_VOLUME`, as far as the table is concerned; `clusterCount` and `nextCluster` are `FatInfoSector.FreeInfo`. -/
structure Volume where
  fat : Store
  fatEntryPos : Nat
  fatDirty : Bool
  freeInfoValid : Bool
  clusterCount : UInt32
  nextCluster : Nat
  diskError : Bool

structure OFile where
  fileSize : Nat
  fileCluster : Nat
  fileCurrentCluster : Nat
  fileLastCluster : Nat
  dirty : Bool
deriving DecidableEq

inductive Status
  | success
  | volumeCorrupted
  | volumeFull
  | unsupported
deriving DecidableEq

variable (g : Geometry)

def entryBits (fatType : FatType) (index word : Nat) : Nat :=
  match fatType with
  | .fat12 => if index &&& 1 ≠ 0 then word >>> 4 else word &&& 0xFFF
  | .fat16 => word
  | .fat32 => word &&& 0x0FFFFFFF

def decodeEntry (fatType : FatType) (index word : Nat) : Nat :=
  let accum := entryBits fatType index word
  accum ||| if accum ≥ fatType.special then clusterSpecialExt else 0

def encodeEntry (fatType : FatType) (index word value : Nat) : Nat :=
  match fatType with
  | .fat12 =>
    if index &&& 1 ≠ 0 then (value &&& 0xFFF) <<< 4 ||| (word &&& 0xF) else (value &&& 0xFFF) ||| (word &&& 0xF000)
  | .fat16 => value % 2 ^ 16
  | .fat32 => (word &&& 0xF0000000) ||| (value &&& 0x0FFFFFFF)

/-- An index behind the table leaves the position of the previous entry in place. -/
def fatLoadFatEntry (v : Volume) (index : Nat) : Nat × Volume :=
  if index > g.maxCluster + 1 then (2 ^ (8 * g.fatType.entrySize) - 1, v)
  else
    let pos := g.fatType.pos index
    (leNat (v.fat.read pos g.fatType.entrySize), { v with fatEntryPos := pos })

def fatGetFatEntry (v : Volume) (index : Nat) : Nat × Volume :=
  let (word, v) := fatLoadFatEntry g v index
  if index > g.maxCluster + 1 then (2 ^ 64 - 1, v) else (decodeEntry g.fatType index word, v)

def updateFreeInfo (v : Volume) (index original value : Nat) : Volume :=
  if value = clusterFree ∧ original ≠ clusterFree then
    { v with
      clusterCount := v.clusterCount + 1
      nextCluster := if index < v.nextCluster then index else v.nextCluster }
  else if value ≠ clusterFree ∧ original = clusterFree then
    { v with clusterCount := if v.clusterCount ≠ 0 then v.clusterCount - 1 else v.clusterCount }
  else v

def fatAccessVolumeDirty (v : Volume) : Volume :=
  { v with fat := v.fat.write g.fatType.entrySize (leBytes g.fatType.entrySize g.dirtyValue) }

def fatSetFatEntry (v : Volume) (index value : Nat) : Volume :=
  if index < minCluster then v
  else
    let (original, v) := fatGetFatEntry g v index
    let v := updateFreeInfo v index original value
    let (word, v) := fatLoadFatEntry g v index
    let v := if ¬ v.fatDirty ∧ g.fatType ≠ .fat12 then fatAccessVolumeDirty g { v with fatDirty := true } else v
    let entry := leBytes g.fatType.entrySize (encodeEntry g.fatType index word value)
    { v with fat := v.fat.write v.fatEntryPos entry }

/-! ### Free clusters -/

def freeClustersLoop : Nat → Volume → Nat → Option (Status × Volume)
  | 0, _, _ => none
  | fuel + 1, v, cluster =>
    if endOfFatChain cluster then some (.success, v)
    else if cluster = clusterFree ∨ cluster ≥ clusterSpecial then some (.volumeCorrupted, v)
    else
      let (next, v) := fatGetFatEntry g v cluster
      freeClustersLoop fuel (fatSetFatEntry g v cluster clusterFree) next

def fatFreeClusters (v : Volume) (cluster : Nat) : Option (Status × Volume) :=
  freeClustersLoop g (g.maxCluster + 1) v cluster

def countFree (v : Volume) (index : Nat) : Volume :=
  let (entry, v) := fatGetFatEntry g v index
  if entry = clusterFree then { v with clusterCount := v.clusterCount + 1, nextCluster := index } else v

def fatComputeFreeInfo (v : Volume) : Volume :=
  if v.freeInfoValid then v
  else
    let v := { v with freeInfoValid := true, clusterCount := 0 }
    if v.diskError then v else ((List.range g.maxCluster).reverse.map (· + minCluster)).foldl (countFree g) v

def allocateLoop : Nat → Volume → Option (Nat × Volume)
  | 0, _ => none
  | fuel + 1, v =>
    let v :=
      if v.nextCluster > g.maxCluster + 1 then
        fatComputeFreeInfo g { v with freeInfoValid := v.freeInfoValid && ! (0 < v.clusterCount.toInt32) }
      else v
    if v.nextCluster > g.maxCluster + 1 then some (clusterLast, v)
    else
      let (entry, v) := fatGetFatEntry g v v.nextCluster
      if entry = clusterFree then some (v.nextCluster, { v with nextCluster := (v.nextCluster + 1) % 2 ^ 32 })
      else allocateLoop fuel { v with nextCluster := (v.nextCluster + 1) % 2 ^ 32 }

def fatAllocateCluster (v : Volume) : Option (Nat × Volume) :=
  if v.diskError then some (clusterLast, v) else allocateLoop g (g.maxCluster + 3) v

/-! ### The end of a file -/

def fatSizeToClusters (size : Nat) : Nat :=
  let clusters := size >>> g.clusterAlignment
  if size &&& (1 <<< g.clusterAlignment - 1) > 0 then clusters + 1 else clusters

/-- The walk of `FatShrinkEof` over the clusters that stay; `none` is a chain that ends too early. -/
def keepLoop : Nat → Volume → Nat → Nat → Option (Nat × Nat) × Volume
  | 0, v, cluster, lastCluster => (some (cluster, lastCluster), v)
  | count + 1, v, cluster, _ =>
    if cluster = clusterFree ∨ cluster ≥ clusterSpecial then (none, v)
    else
      let (next, v) := fatGetFatEntry g v cluster
      keepLoop count v next cluster

def fatShrinkEof (f : OFile) (v : Volume) : Option (Status × OFile × Volume) :=
  let newSize := fatSizeToClusters g f.fileSize
  if newSize ≠ 0 then
    match keepLoop g newSize v f.fileCluster clusterFree with
    | (none, v) => some (.volumeCorrupted, f, v)
    | (some (cluster, lastCluster), v) => do
      let v := fatSetFatEntry g v lastCluster clusterLast
      let (status, v) ← fatFreeClusters g v cluster
      return (status, { f with fileCurrentCluster := f.fileCluster, fileLastCluster := lastCluster, dirty := true }, v)
  else if f.fileCluster = clusterFree then some (.success, f, v)
  else do
    let (status, v) ← fatFreeClusters g v f.fileCluster
    let f := { f with fileCluster := clusterFree, fileCurrentCluster := clusterFree, fileLastCluster := clusterFree }
    return (status, { f with dirty := true }, v)

/-- The search of `FatGrowEof` for the last cluster of the file. `none` is a cluster out of range. -/
def lastClusterLoop : Nat → Volume → OFile → Nat → Nat → Option (Option Nat × OFile × Volume)
  | 0, _, _, _, _ => none
  | fuel + 1, v, f, cluster, clusterCount =>
    if endOfFatChain cluster then some (some clusterCount, f, v)
    else if cluster < minCluster ∨ cluster > g.maxCluster + 1 then some (none, f, v)
    else
      let (next, v) := fatGetFatEntry g v cluster
      lastClusterLoop fuel v { f with fileLastCluster := cluster } next (clusterCount + 1)

def findLastCluster (f : OFile) (v : Volume) (curSize : Nat) : Option (Bool × OFile × Volume) :=
  if f.fileCluster ≠ 0 ∧ f.fileLastCluster = 0 then do
    let (clusterCount, f, v) ← lastClusterLoop g (g.maxCluster + 1) v f f.fileCluster 0
    return (clusterCount = some curSize, f, v)
  else some (true, f, v)

def growLoop : Nat → OFile → Volume → Nat → Option (Status × OFile × Volume)
  | 0, f, v, _ => some (.success, f, v)
  | count + 1, f, v, lastCluster => do
    let (newCluster, v) ← fatAllocateCluster g v
    if endOfFatChain newCluster then
      if lastCluster ≠ clusterFree then
        return (.volumeFull, { f with fileLastCluster := lastCluster }, fatSetFatEntry g v lastCluster clusterLast)
      else return (.volumeFull, f, v)
    else if newCluster < minCluster ∨ newCluster > g.maxCluster + 1 then return (.volumeCorrupted, f, v)
    else
      let f := if lastCluster ≠ 0 then f else { f with fileCluster := newCluster, fileCurrentCluster := newCluster }
      let v := if lastCluster ≠ 0 then fatSetFatEntry g v lastCluster newCluster else v
      growLoop count { f with fileLastCluster := newCluster } (fatSetFatEntry g v newCluster clusterLast) newCluster

def addClusters (f : OFile) (v : Volume) (curSize newSize : Nat) : Option (Status × OFile × Volume) :=
  if curSize < newSize then do
    let (found, f, v) ← findLastCluster g f v curSize
    if found then growLoop g (newSize - curSize) f v f.fileLastCluster else return (.volumeCorrupted, f, v)
  else some (.success, f, v)

def fatGrowEof (f : OFile) (v : Volume) (newSizeInBytes : Nat) : Option (Status × OFile × Volume) :=
  if newSizeInBytes > 0x0FFFFFFFF then some (.unsupported, f, v)
  else do
    let (status, f, v) ← addClusters g f v (fatSizeToClusters g f.fileSize) (fatSizeToClusters g newSizeInBytes)
    if status = .success then return (.success, { f with fileSize := newSizeInBytes, dirty := true }, v)
    else
      let (_, f, v) ← fatShrinkEof g f v
      return (status, f, v)

/-! ### The files of a volume -/

/-- A file that is not open has the record it would be opened with. -/
structure System (ι : Type) where
  volume : Volume
  file : ι → OFile

inductive Call (ι : Type)
  | grow (i : ι) (newSizeInBytes : Nat)
  | shrink (i : ι) (fileSize : Nat)

variable {ι : Type} [DecidableEq ι]

def System.update (s : System ι) (i : ι) (f : OFile) (v : Volume) : System ι where
  volume := v
  file j := if j = i then f else s.file j

/-- A shrink comes after the caller has set the size (`FatTruncateOFile`). -/
def perform (s : System ι) : Call ι → Option (Status × System ι)
  | .grow i newSizeInBytes => do
    let (status, f, v) ← fatGrowEof g (s.file i) s.volume newSizeInBytes
    return (status, s.update i f v)
  | .shrink i fileSize => do
    let (status, f, v) ← fatShrinkEof g { s.file i with fileSize := fileSize } s.volume
    return (status, s.update i f v)

end LeoEdk.Fat
