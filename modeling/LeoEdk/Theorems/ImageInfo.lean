import LeoEdk.PeCoff.Load

/-! The steps of `PeCoffLoaderLoadImage` that only read the image, and what `PeCoffLoaderGetImageInfo` has checked of
    a file. A relation that holds of single reads holds of these steps (`Reads`). -/

namespace LeoEdk.PeCoff

open Bytes Prog List

/-- The relation holds of the programs that read the image and note things in the context. -/
structure Reads (T : (α : Type) → Loader α → Prop) : Prop where
  pure : ∀ {α : Type} (a : α), T α (Pure.pure a)
  halt : ∀ {α : Type} (status : ReturnStatus), T α (Prog.halt status)
  bind : ∀ {α β : Type} {m : Loader α} {k : α → Loader β}, T α m → (∀ a, T β (k a)) → T β (m >>= k)
  ite : ∀ {α : Type} {q : Prop} [Decidable q] {m n : Loader α}, T α m → T α n → T α (if q then m else n)
  fetch : ∀ addr len, T _ (fetch addr len)
  imageAddress : ∀ a te, T _ (imageAddress a te)
  note : ∀ f : ImageContext → ImageContext, T _ (modify fun w => { w with ctx := f w.ctx })

namespace Reads

variable {T : (α : Type) → Loader α → Prop} (r : Reads T) {α : Type}
include r

theorem setError (e : ImageError) : T _ (setError e) :=
  r.note fun ctx => { ctx with imageError := e }

theorem fail (e : ImageError) (status : ReturnStatus) : T α (fail e status) :=
  r.bind (r.setError e) fun _ => r.halt status

theorem failIf (q : Prop) [Decidable q] (e : ImageError) (status : ReturnStatus) : T _ (failIf q e status) :=
  r.ite (r.fail e status) (r.pure ())

theorem fetchNat (addr width : Nat) : T _ (fetchNat addr width) := r.bind (r.fetch addr width) fun _ => r.pure _

theorem pdbPointer (entry codeView : Nat) : T _ (pdbPointer entry codeView) := by
  refine r.bind (r.fetchNat _ _) fun _ => r.ite (r.bind (r.fetchNat _ _) fun _ => r.bind (r.failIf _ _ _) fun _ => ?_)
    (r.pure ())
  exact r.note fun ctx => { ctx with pdbPointer := _ }

theorem debugDataRva (entry : DebugEntry) (lastSection : Nat) : T _ (debugDataRva entry lastSection) :=
  r.ite (r.bind (r.fetch _ _) fun _ => r.pure _) (r.pure _)

theorem resourceDirectory (base size offset : Nat) : T _ (resourceDirectory base size offset) :=
  r.bind (r.fetchNat _ _) fun _ => r.bind (r.fetchNat _ _) fun _ => r.bind (r.failIf _ _ _) fun _ => r.pure _

theorem resourceLevel (base size dir entry : Nat) : T _ (resourceLevel base size dir entry) :=
  r.bind (r.fetchNat _ _) fun _ => r.ite (r.bind (r.failIf _ _ _) fun _ =>
    r.bind (r.resourceDirectory _ _ _) fun _ => r.pure _) (r.pure _)

theorem resourceLevels (base size dir entry : Nat) : T _ (resourceLevels base size dir entry) :=
  r.bind (r.fetchNat _ _) fun _ => r.bind (r.resourceLevel _ _ _ _) fun _ => r.ite (r.resourceLevel _ _ _ _) (r.pure _)

theorem namedHii (base nameOffset : Nat) : T _ (namedHii base nameOffset) := by
  refine r.bind (r.fetchNat _ _) fun length => ?_
  split
  · exact r.pure _
  · exact r.bind (r.fetch _ _) fun _ => r.pure _

theorem resourceData (base size data : Nat) : T _ (resourceData base size data) := by
  refine r.bind (r.failIf _ _ _) fun _ => r.bind (r.fetchNat _ _) fun _ => r.bind (r.imageAddress _ _) fun _ => ?_
  exact r.note fun ctx => { ctx with hiiResourceData := _ }

theorem hiiEntries (base size fuel index dir entry : Nat) : T _ (hiiEntries base size fuel index dir entry) := by
  induction fuel generalizing index dir entry with
  | zero => exact r.pure ()
  | succ fuel ih =>
    refine r.bind (r.fetchNat _ _) fun _ => r.ite (r.pure ()) ?_
    refine r.bind (r.fetchNat _ _) fun _ => r.ite (ih _ _ _) (r.bind (r.failIf _ _ _) fun _ => ?_)
    refine r.bind (r.namedHii _ _) fun _ => r.ite (ih _ _ _) (r.bind (r.resourceLevels _ _ _ _) fun _ => ?_)
    exact r.bind (r.fetchNat _ _) fun _ => r.ite (r.resourceData _ _ _) (ih _ _ _)

end Reads

/-! ### What the checks of the headers give -/

section Headers

variable {file hdr : Bytes}

theorem ensures_throwIf {α : Type} {q : Prop} [Decidable q] {e : ReturnStatus × ImageError} {Q : α → Prop}
    {k : Unit → Info α} (next : ¬q → Ensures Q (k ())) : Ensures Q (throwIf q e >>= k) := by
  unfold throwIf
  split
  · exact .error e
  · exact next ‹_›

theorem ensures_readExact {ofs size : Nat} :
    Ensures (fun bs => bs = slice ofs size file ∧ ofs + size ≤ file.length) (readExact file ofs size) := by
  unfold readExact
  split
  · exact .pure ⟨rfl, ‹_›⟩
  · exact .error _

theorem field_lt (bs : Bytes) (ofs width : Nat) : field bs ofs width < 256 ^ width :=
  (leNat_lt _).trans_le (Nat.pow_le_pow_right (by decide) (length_take_le _ _))

theorem optionalHeader_bounds {opt n magic : Nat} (small : opt < 2 ^ 16) (entries : ¬16 < n)
    (optional : ¬sub32 opt (dataDirectoryOfs magic 0 - 24) ≠ n * 8) : 32 ≤ opt ∧ 24 + opt ≤ headerUnionSize := by
  rw [not_not] at optional
  unfold sub32 dataDirectoryOfs at optional
  unfold headerUnionSize
  split_ifs at optional <;> omega

def Grows (info info' : ImageInfo) : Prop :=
  info.imageSize ≤ info'.imageSize ∧ info' = { info with
    imageSize := info'.imageSize
    debugDirectoryEntryRva := info'.debugDirectoryEntryRva }

theorem Grows.refl (info : ImageInfo) : Grows info info := ⟨le_rfl, rfl⟩

theorem Grows.trans {i i' i'' : ImageInfo} (first : Grows i i') (next : Grows i' i'') : Grows i i'' := by
  obtain ⟨le, eq⟩ := first
  obtain ⟨le', eq'⟩ := next
  refine ⟨le.trans le', ?_⟩
  rw [eq', eq]

theorem ensures_debugDirectory (rva fileOffset size fuel index : Nat) (info : ImageInfo) :
    Ensures (Grows info) (debugDirectory file rva fileOffset size fuel index info) := by
  induction fuel generalizing index info with
  | zero => exact .pure (.refl info)
  | succ fuel ih =>
    refine .ite (.pure (.refl info)) (.skip fun bs => .ite ?_ (.ite (.skip fun _ => ih _ _) (ih _ _)))
    have grows : ∀ added, Grows info { info with
        debugDirectoryEntryRva := (rva + index) % 2 ^ 32
        imageSize := info.imageSize + added } := fun _ => ⟨Nat.le_add_right _ _, rfl⟩
    exact .ite (.pure (grows _)) ((ih _ _).mono fun _ => (grows _).trans)

theorem ensures_ntDebugInfo (info : ImageInfo) : Ensures (Grows info) (ntDebugInfo file hdr info) :=
  .ite (.pure (.refl info)) (.skip fun _ => .ite (.pure (.refl info)) (ensures_debugDirectory _ _ _ _ _ info))

end Headers

def start (mem : Store) (ctx : ImageContext) (info : ImageInfo) (addr : Nat) : World :=
  { mem := mem, ctx := { ctx.fill info with imageAddress := addr, fixupData := 0 }, history := [] }

def oneSectionInfo : ImageInfo :=
  { imageAddress := 4096, imageSize := 200, sectionAlignment := 1, peCoffHeaderOffset := 0, debugDirectoryEntryRva := 0
    sizeOfHeaders := 160, machine := 0x14C, imageType := 0, relocationsStripped := true, isTeImage := false }

def noContext : ImageContext :=
  { toImageInfo := oneSectionInfo, destinationAddress := 0, entryPoint := 0, fixupData := 0, codeView := 0
    pdbPointer := 0, imageError := .success, fixupDataSize := 0, hiiResourceData := 0 }

end LeoEdk.PeCoff
