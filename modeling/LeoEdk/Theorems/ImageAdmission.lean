import LeoEdk.SecureBoot.Handler
import LeoEdk.Theorems.SignatureLists

/-! Which images secure boot admits, compared with what the databases allow and revoke. The handler accepts the images
    of `Accepted`; what parts them from those of `Admissible` is hidden from it (`NothingHidden`). -/

set_option maxRecDepth 8000

namespace LeoEdk.SecureBoot

open Bytes Prog List

variable {e : Env} {dbs : Databases} {signers : Bytes → List Bytes}

section Hashing

variable {g : Globals}

theorem tries_orFault {α β : Type} {I : World → Prop} {o : Option β} {f : β → Verify (Option α)} {k : β → Option α}
    (next : ∀ b, Tries I e (f b) (k b)) : Tries I e (orFault o >>= f) (o.bind k) := by
  cases o with
  | none => exact fun _ _ => rfl
  | some b => exact next b

theorem map_gather_cons (img ctx : Bytes) (range : Nat × Nat) (ranges : List (Nat × Nat)) :
    (gather img (range :: ranges)).map (ctx ++ ·) =
      (slice? range.1 range.2 img).bind fun bs => (gather img ranges).map (ctx ++ bs ++ ·) := by
  simp only [gather, mapM_cons, Option.bind_eq_bind, Option.pure_def]
  cases slice? range.1 range.2 img with
  | none => rfl
  | some bs => cases List.mapM (fun range => slice? range.1 range.2 img) ranges <;> simp

theorem bind_append_append (header : Bytes) (body rest : Option Bytes) :
    (body.bind fun body => rest.bind fun rest => some (header ++ body ++ rest)) =
      (body.map (header ++ ·)).bind fun ctx => rest.map (ctx ++ ·) := by
  rw [Option.bind_map]
  simp only [Function.comp_def, Option.map_eq_bind]

structure Computes (T : (α : Type) → Verify (Option α) → Option α → Prop) : Prop where
  pure : ∀ {α : Type} (o : Option α), T α (Pure.pure o) o
  orFault : ∀ {α β : Type} {o : Option β} {f : β → Verify (Option α)} {k : β → Option α},
    (∀ b, T α (f b) (k b)) → T α (orFault o >>= f) (o.bind k)
  attempt : ∀ {α : Type} {m : Verify (Option α)} {o : Option α}, T α m o →
    T α (attempt >>= fun granted => if granted = false then return none else m) o
  bind : ∀ {α β : Type} {m : Verify (Option β)} {o : Option β} {f : Option β → Verify (Option α)} {k : β → Option α},
    T β m o → f none = Pure.pure none → (∀ b, T α (f (some b)) (k b)) → T α (m >>= f) (o.bind k)

section Computes

variable {T : (α : Type) → Verify (Option α) → Option α → Prop} (computes : Computes T)
include computes

theorem Computes.hashRanges (img ctx : Bytes) (ranges : List (Nat × Nat)) :
    T _ (hashRanges img ctx ranges) ((gather img ranges).map (ctx ++ ·)) := by
  induction ranges generalizing ctx with
  | nil =>
    have all : (gather img []).map (ctx ++ ·) = some ctx := by simp [gather]
    rw [all]
    exact computes.pure _
  | cons range ranges ih =>
    rw [map_gather_cons]
    exact computes.orFault fun bs => computes.attempt (ih (ctx ++ bs))

theorem Computes.hashTrailing (p : PeImage) (magic numberOfRvaAndSizes sumOfBytesHashed : Nat) (ctx : Bytes) :
    T _ (hashTrailing p magic numberOfRvaAndSizes sumOfBytesHashed ctx)
      ((trailingBytes p magic numberOfRvaAndSizes sumOfBytesHashed).map (ctx ++ ·)) := by
  rw [SecureBoot.hashTrailing, trailingBytes]
  by_cases all : p.bytes.length ≤ sumOfBytesHashed
  · rw [if_pos all, if_pos all, Option.map_some, append_nil]
    exact computes.pure _
  · rw [if_neg all, if_neg all, Option.bind_eq_bind, Option.map_bind]
    refine computes.orFault fun certSize => ?_
    rw [Function.comp_apply]
    cases trailingRange p.bytes.length certSize sumOfBytesHashed with
    | none => exact computes.pure none
    | some ranges => exact computes.hashRanges p.bytes ctx ranges

theorem Computes.hashPeBytes (p : PeImage) : T _ (hashPeBytes p) (imageMessage p) := by
  refine computes.orFault fun magic => ?_
  by_cases valid : magic = PeImage.magic32 ∨ magic = PeImage.magic64
  · have kept : ¬(magic ≠ PeImage.magic32 ∧ magic ≠ PeImage.magic64) := by
      rwa [← not_or, not_not]
    rw [if_neg kept, guard, if_pos valid]
    refine computes.orFault fun numberOfRvaAndSizes => computes.orFault fun sizeOfHeaders => ?_
    have header := computes.hashRanges p.bytes [] (headerRanges p magic numberOfRvaAndSizes sizeOfHeaders)
    simp only [nil_append, Option.map_id'] at header
    refine computes.bind header rfl fun header => computes.attempt (computes.orFault fun sections => ?_)
    refine (congrArg (T _ _) (bind_append_append _ _ _)).mpr
      (computes.bind (computes.hashRanges _ _ _) ?_ fun ctx => ?_)
    · rfl
    · exact computes.hashTrailing p magic numberOfRvaAndSizes _ ctx
  · have invalid : magic ≠ PeImage.magic32 ∧ magic ≠ PeImage.magic64 := not_or.mp valid
    rw [if_pos invalid, guard, if_neg valid]
    exact computes.pure none

end Computes

variable (ideal : Ideal e dbs signers)
include ideal

theorem computes_tries : Computes fun _ m o => Tries (·.globals = g) e m o :=
  ⟨.pure, tries_orFault, fun next => .after (yields_attempt ideal) next, fun first => first.bind⟩

def digestGlobals (e : Env) (alg : HashAlg) (certType message : Bytes) : Globals :=
  ⟨e.digest alg message ++ List.replicate (64 - (e.digest alg message).length) 0, alg.digestLength, certType⟩

omit ideal in
@[simp] theorem take_digestGlobals (alg : HashAlg) (certType message : Bytes) :
    (digestGlobals e alg certType message).mImageDigest.take alg.digestLength = e.digest alg message :=
  take_left' (e.length_digest alg message)

theorem wp_hashPeImage {Q : Bool → World → Prop} {R : Halt → World → Prop} {w : World} (p : PeImage) (alg : HashAlg)
    (hashed : ∀ m certType w', imageMessage p = some m → imageCertType e.sha1Enabled alg = some certType →
      w'.globals = digestGlobals e alg certType m → Q true w')
    (fails : imageMessage p = none ∨ imageCertType e.sha1Enabled alg = none → ∀ w', Q false w')
    (stops : imageMessage p = none → ∀ h w', R h w') : wp (hashPeImage p alg) e Q R w := by
  rw [hashPeImage, wp_bind, wp_modify, wp_bind, wp_ask]
  cases type : imageCertType e.sha1Enabled alg with
  | none => exact fails (.inr type) _
  | some certType =>
    rw [wp_bind, wp_modify, wp_bind]
    refine (yields_attempt ideal).wp rfl fun w₁ inv₁ => ?_
    rw [if_neg Bool.true_eq_false.mp, wp_bind]
    refine (yields_attempt ideal).wp inv₁ fun w₂ inv₂ => ?_
    rw [if_neg Bool.true_eq_false.mp, wp_bind]
    refine wp_mono ?_ (fun h w' none => stops none h w') ((computes_tries ideal).hashPeBytes p w₂ inv₂)
    rintro r w₃ ⟨rfl, inv₃⟩
    cases message : imageMessage p with
    | none => exact fails (.inl message) w₃
    | some m =>
      simp only [wp_bind]
      refine (yields_attempt ideal).wp inv₃ fun w₄ inv₄ => ?_
      refine hashed m certType _ message type ?_
      dsimp only
      rw [inv₄]
      rfl

end Hashing

/-! ### Unsigned images -/

def listed (e : Env) (dbs : Databases) (v : Database) (message : Bytes) (alg : HashAlg) : Bool :=
  (imageCertType e.sha1Enabled alg).any fun certType => contains (dbs.entries v) certType (e.digest alg message)

section Unsigned

variable (ideal : Ideal e dbs signers) {p : PeImage}
include ideal

theorem yields_digestLookup (v : Database) (alg : HashAlg) (certType message : Bytes)
    (supported : imageCertType e.sha1Enabled alg = some certType) :
    Yields (·.globals = digestGlobals e alg certType message) e (isSignatureFoundInDatabase v)
      (.success, listed e dbs v message alg) := by
  have look := yields_isSignatureFoundInDatabase ideal (g := digestGlobals e alg certType message) v (by
    rw [show (digestGlobals e alg certType message).mImageDigestSize = alg.digestLength from rfl, take_digestGlobals]
    exact e.length_digest alg message)
  rw [listed, supported, Option.any_some, ← take_digestGlobals alg certType message]
  exact look

omit ideal in
theorem hasFunctions_eq (sha1Enabled : Bool) (alg : HashAlg) :
    alg.hasFunctions sha1Enabled = (imageCertType sha1Enabled alg).isSome := by
  cases sha1Enabled <;> cases alg <;> rfl

theorem wp_verifyDigests {m : Bytes} (message : imageMessage p = some m) (algs : List HashAlg) (found : Bool)
    (w : World) :
    wp (verifyDigests p found algs) e (fun r _ => r = some true ↔
        (∀ alg ∈ algs, listed e dbs .dbx m alg = false) ∧ (found = true ∨ ∃ alg ∈ algs, listed e dbs .db m alg = true))
      (fun _ _ => False) w := by
  induction algs generalizing found w with
  | nil => exact ⟨fun h => ⟨fun _ mem => absurd mem not_mem_nil, .inl (Option.some.inj h)⟩,
      fun h => congrArg some (h.2.resolve_right fun ⟨_, mem, _⟩ => absurd mem not_mem_nil)⟩
  | cons alg algs ih =>
    -- an algorithm without a digest changes nothing
    have skip : ∀ w, imageCertType e.sha1Enabled alg = none →
      wp (verifyDigests p found algs) e (fun r _ => r = some true ↔ (∀ a ∈ alg :: algs, listed e dbs .dbx m a = false) ∧
          (found = true ∨ ∃ a ∈ alg :: algs, listed e dbs .db m a = true)) (fun _ _ => False) w := by
      intro w unsupported
      have none : ∀ v, listed e dbs v m alg = false := fun v => by rw [listed, unsupported, Option.any_none]
      simpa only [forall_mem_cons, exists_mem_cons_iff, none, true_and, Bool.false_eq_true, false_or] using ih found w
    rw [verifyDigests, wp_bind, wp_ask, hasFunctions_eq]
    cases supported : imageCertType e.sha1Enabled alg with
    | none => exact skip w supported
    | some certType =>
      rw [if_neg (by simp), wp_bind]
      refine wp_hashPeImage ideal p alg (fun m' certType' w' message' type' globals => ?_) ?_ ?_
      · cases message.symm.trans message'
        cases supported.symm.trans type'
        rw [if_neg Bool.true_eq_false.mp, wp_bind]
        refine (yields_digestLookup ideal .dbx alg certType m supported).wp globals fun w₀ inv₀ => ?_
        rw [wp_bind]
        refine (yields_note _ _).wp inv₀ fun w₁ inv₁ => ?_
        simp only [forall_mem_cons, exists_mem_cons_iff]
        cases listed e dbs .dbx m alg with
        | true => simp
        | false =>
          simp only [ne_eq, not_true_eq_false, Bool.false_eq_true, or_self, ↓reduceIte, wp_bind, true_and]
          refine (yields_digestLookup ideal .db alg certType m supported).wp inv₁ fun w₂ _ => ?_
          simpa only [decide_true, Bool.true_and, Bool.or_eq_true, or_assoc] using ih
            (found || listed e dbs .db m alg) w₂
      · rintro (none | none) w'
        · cases message.symm.trans none
        · cases supported.symm.trans none
      · intro none
        cases message.symm.trans none

theorem wp_verifyDigests_none (message : imageMessage p = none) (algs : List HashAlg) (w : World) :
    wp (verifyDigests p false algs) e (fun r _ => r = some false) (fun _ _ => True) w := by
  induction algs generalizing w with
  | nil => exact rfl
  | cons alg algs ih =>
    rw [verifyDigests, wp_bind, wp_ask]
    by_cases functions : alg.hasFunctions e.sha1Enabled = false
    · rw [if_pos functions]
      exact ih w
    · rw [if_neg functions, wp_bind]
      refine wp_hashPeImage ideal p alg ?_ (fun _ w' => ih w') fun _ _ _ => trivial
      intro m certType w' some
      cases message.symm.trans some

end Unsigned

/-! ### Signed images -/

def signatureAlg (e : Env) (authData : Bytes) : Option HashAlg :=
  (digestAlg authData).toOption.filter fun alg => (imageCertType e.sha1Enabled alg).isSome

def refuses (e : Env) (dbs : Databases) (signers : Bytes → List Bytes) (message authData : Bytes) : Bool :=
  (signatureAlg e authData).any fun alg =>
    forbidden e dbs signers authData (e.digest alg message) || listed e dbs .dbx message alg

def admits (e : Env) (dbs : Databases) (message authData : Bytes) : Bool :=
  (signatureAlg e authData).any fun alg =>
    allowed e dbs authData (e.digest alg message) || listed e dbs .db message alg

def certificateTable (img : Bytes) (stop : Nat) : Nat → Nat → Option (List Bytes)
  | 0, _ => none
  | fuel + 1, ofs =>
    if ofs = stop then some []
    else if stop < ofs ∨ stop - ofs ≤ 8 then none
    else do
      let dwLength ← field img ofs 4
      if stop - ofs < dwLength ∨ stop - ofs - dwLength < alignSize dwLength then none
      else
        match ← winCert img ofs dwLength with
        | .broken => none
        | .other => certificateTable img stop fuel (ofs + (dwLength + alignSize dwLength))
        | .pkcs7 authData =>
          return authData :: (← certificateTable img stop fuel (ofs + (dwLength + alignSize dwLength)))

section Signed

variable (ideal : Ideal e dbs signers) {p : PeImage}
include ideal

omit ideal in
theorem digestAlg_ne_success {authData : Bytes} {st : EfiStatus} (error : digestAlg authData = .error st) :
    st ≠ .success := by
  rw [digestAlg] at error
  split at error
  · cases error
    exact nofun
  · split at error <;> cases error
    exact nofun

theorem wp_hashPeImageByType {Q : EfiStatus → World → Prop} {R : Halt → World → Prop} {w : World} (authData : Bytes)
    (hashed : ∀ m alg certType w', imageMessage p = some m → signatureAlg e authData = some alg →
      imageCertType e.sha1Enabled alg = some certType → w'.globals = digestGlobals e alg certType m → Q .success w')
    (fails : imageMessage p = none ∨ signatureAlg e authData = none → ∀ st w', st ≠ .success → Q st w')
    (stops : imageMessage p = none → ∀ h w', R h w') : wp (hashPeImageByType p authData) e Q R w := by
  rw [hashPeImageByType]
  cases named : digestAlg authData with
  | error st =>
    refine fails (.inr ?_) st w (digestAlg_ne_success named)
    rw [signatureAlg, named]
    rfl
  | ok alg =>
    have alg? : signatureAlg e authData = if (imageCertType e.sha1Enabled alg).isSome then some alg else none := by
      rw [signatureAlg, named]
      rfl
    simp only [wp_bind]
    refine wp_hashPeImage ideal p alg (fun m certType w' message supported globals => ?_) (fun none w' => ?_) stops
    · rw [supported] at alg?
      exact hashed m alg certType w' message alg? supported globals
    · refine fails (none.imp_right fun unsupported => ?_) _ w' (by simp)
      rw [alg?, unsupported]
      rfl

theorem wp_verifyHash {m certType : Bytes} {alg : HashAlg} (supported : imageCertType e.sha1Enabled alg = some certType)
    (isVerified : Bool) (action : Action) {w : World} (globals : w.globals = digestGlobals e alg certType m) :
    wp (verifyHash isVerified action) e (fun r _ => r.1 = listed e dbs .dbx m alg ∧
        r.2.isVerified = (!listed e dbs .dbx m alg && (isVerified || listed e dbs .db m alg)))
      (fun _ _ => False) w := by
  rw [verifyHash, wp_bind]
  refine (yields_digestLookup ideal .dbx alg certType m supported).wp globals fun w₀ inv₀ => ?_
  rw [wp_bind]
  refine (yields_note _ _).wp inv₀ fun w₁ inv₁ => ?_
  cases listed e dbs .dbx m alg with
  | true => exact ⟨rfl, rfl⟩
  | false =>
    cases isVerified with
    | true => exact ⟨rfl, rfl⟩
    | false =>
      simp only [ne_eq, not_true_eq_false, Bool.false_eq_true, or_self, ↓reduceIte, wp_bind]
      refine (yields_digestLookup ideal .db alg certType m supported).wp inv₁ fun w₂ _ => ?_
      cases listed e dbs .db m alg <;> exact ⟨rfl, rfl⟩

theorem wp_verifySignature {m : Bytes} (message : imageMessage p = some m) (authData : Bytes) (v : Verdict)
    (w : World) :
    wp (verifySignature p authData v) e (fun r _ => r.1 = refuses e dbs signers m authData ∧
        r.2.isVerified = (!refuses e dbs signers m authData && (v.isVerified || admits e dbs m authData)))
      (fun _ _ => False) w := by
  rw [verifySignature, wp_bind]
  refine wp_hashPeImageByType ideal authData (fun m' alg certType w' message' named supported globals => ?_) ?_ ?_
  · cases message.symm.trans message'
    rw [refuses, admits, named, Option.any_some, Option.any_some]
    have taken : (digestGlobals e alg certType m).mImageDigest.take (digestGlobals e alg certType m).mImageDigestSize =
        e.digest alg m := take_digestGlobals alg certType m
    have forbids := yields_isForbiddenByDbx ideal authData (g := digestGlobals e alg certType m)
    have allows := yields_isAllowedByDb ideal authData (g := digestGlobals e alg certType m)
    rw [taken] at forbids allows
    simp only [ne_eq, not_true_eq_false, ↓reduceIte, wp_bind]
    refine forbids.wp globals fun w₁ inv₁ => ?_
    cases forbidden e dbs signers authData (e.digest alg m) with
    | true => exact ⟨rfl, rfl⟩
    | false =>
      simp only [Bool.false_eq_true, ↓reduceIte, Bool.false_or, wp_ite]
      cases v.isVerified with
      | true => simpa using wp_verifyHash ideal supported true v.action inv₁
      | false =>
        simp only [Bool.false_eq_true, ↓reduceIte, wp_bind]
        refine allows.wp inv₁ fun w₂ inv₂ => ?_
        simpa using wp_verifyHash ideal supported _ v.action inv₂
  · rintro (none | unsupported) st w' other
    · cases message.symm.trans none
    · rw [if_pos other, refuses, admits, unsupported]
      simp
  · intro none
    cases message.symm.trans none

/-- The certificates from one offset on leave the image verified and the loop at the end of the table. -/
def TableAdmits (e : Env) (dbs : Databases) (signers : Bytes → List Bytes) (message : Bytes) (verified : Bool)
    (table : Option (List Bytes)) : Prop :=
  ∃ sigs, table = some sigs ∧ (∀ a ∈ sigs, refuses e dbs signers message a = false) ∧
    (verified = true ∨ ∃ a ∈ sigs, admits e dbs message a = true)

omit ideal in
theorem not_tableAdmits_none {m : Bytes} {verified : Bool} : ¬TableAdmits e dbs signers m verified none := by
  rintro ⟨_, none, -⟩
  cases none

omit ideal in
theorem tableAdmits_cons {m a : Bytes} {verified : Bool} {table : Option (List Bytes)} :
    TableAdmits e dbs signers m verified (table.bind fun sigs => some (a :: sigs)) ↔
      refuses e dbs signers m a = false ∧ TableAdmits e dbs signers m (verified || admits e dbs m a) table := by
  cases table with
  | none => simp [TableAdmits]
  | some sigs =>
    simp only [TableAdmits, Option.bind_some, Option.some.injEq, exists_eq_left', forall_mem_cons,
      exists_mem_cons_iff, Bool.or_eq_true, or_assoc, and_assoc]

theorem wp_certificateLoop {m : Bytes} (message : imageMessage p = some m) (stop fuel ofs : Nat) (v : Verdict)
    (w : World) :
    wp (certificateLoop p stop fuel ofs v) e
      (fun r _ => r.2.isVerified = true ∧ r.1 = stop ↔
        TableAdmits e dbs signers m v.isVerified (certificateTable p.bytes stop fuel ofs))
      (fun _ _ => certificateTable p.bytes stop fuel ofs = none) w := by
  induction fuel generalizing ofs v w with
  | zero => exact rfl
  | succ fuel ih =>
    rw [certificateLoop, certificateTable]
    by_cases done : stop ≤ ofs
    · rw [if_pos done]
      by_cases last : ofs = stop
      · rw [if_pos last]
        simp [TableAdmits, last]
      · rw [if_neg last, if_pos (.inl (lt_of_le_of_ne done (Ne.symm last)))]
        exact iff_of_false (fun h => last h.2) not_tableAdmits_none
    · have before : ofs ≠ stop := by omega
      rw [if_neg done, if_neg before]
      by_cases short : stop - ofs ≤ 8
      · rw [if_pos short, if_pos (.inr short)]
        exact iff_of_false (fun h => before h.2) not_tableAdmits_none
      · rw [if_neg short, if_neg (by omega), wp_bind, natAt]
        have broken : ∀ {r : Nat × Verdict} {b : Bool}, r.1 = ofs →
            (r.2.isVerified = true ∧ r.1 = stop ↔ TableAdmits e dbs signers m b none) :=
          fun same => iff_of_false (fun h => before (same.symm.trans h.2)) not_tableAdmits_none
        cases field p.bytes ofs 4 with
        | none => exact rfl
        | some dwLength =>
          rw [orFault, wp_pure, Option.bind_eq_bind, Option.bind_some]
          by_cases overrun : stop - ofs < dwLength ∨ stop - ofs - dwLength < alignSize dwLength
          · rw [if_pos overrun, if_pos overrun]
            exact broken rfl
          · rw [if_neg overrun, if_neg overrun, wp_bind]
            cases winCert p.bytes ofs dwLength with
            | none => exact rfl
            | some cert =>
              cases cert with
              | broken => exact broken rfl
              | other => exact ih _ v w
              | pkcs7 authData =>
                simp only [orFault, wp_pure, wp_bind, Option.pure_def]
                refine wp_mono ?_ (fun _ _ => False.elim) (wp_verifySignature ideal message authData v w)
                rintro ⟨ends, v'⟩ w' ⟨refused, verified⟩
                dsimp only at refused verified ⊢
                rw [refused]
                cases refusal : refuses e dbs signers m authData with
                | true =>
                  refine iff_of_false (fun h => before h.2) fun h => ?_
                  cases (tableAdmits_cons.mp h).1.symm.trans refusal
                | false =>
                  rw [refusal, Bool.not_false, Bool.true_and] at verified
                  refine wp_mono (fun r _ admitted => ?_) (fun _ _ none => ?_) (ih _ v' w')
                  · rw [verified] at admitted
                    exact admitted.trans ((and_iff_right refusal).symm.trans tableAdmits_cons.symm)
                  · rw [none]
                    rfl

theorem wp_certificateLoop_none (message : imageMessage p = none) (stop fuel ofs : Nat) (v : Verdict) (w : World) :
    wp (certificateLoop p stop fuel ofs v) e (fun r _ => r.2 = v) (fun _ _ => True) w := by
  induction fuel generalizing ofs w with
  | zero => trivial
  | succ fuel ih =>
    rw [certificateLoop, wp_ite]
    split_ifs
    · exact rfl
    rw [wp_ite]
    split_ifs
    · exact rfl
    rw [wp_bind, natAt]
    cases field p.bytes ofs 4 with
    | none => trivial
    | some dwLength =>
      rw [orFault, wp_pure, wp_ite]
      split_ifs
      · exact rfl
      rw [wp_bind]
      cases winCert p.bytes ofs dwLength with
      | none => trivial
      | some cert =>
        cases cert with
        | broken => exact rfl
        | other => exact ih _ w
        | pkcs7 authData =>
          simp only [orFault, wp_pure, wp_bind, verifySignature]
          refine wp_hashPeImageByType ideal authData (fun m _ _ _ some => ?_) (fun _ st w' other => ?_) fun _ _ _ =>
            trivial
          · cases message.symm.trans some
          · rw [if_pos other, wp_pure]
            exact ih _ w'

end Signed

def peImage (e : Env) : Option PeImage := do
  let img ← e.fileBuffer
  guard (e.peCoffLoaderGetImageInfo img = true)
  let peOfs ← peCoffHeaderOffset img
  guard (field img peOfs 4 = some ntSignature)
  return ⟨img, peOfs⟩

def imageSignatures (p : PeImage) : Option (List Bytes) := do
  match ← securityDirectory p with
  | none => return []
  | some (virtualAddress, size) =>
    let stop := (virtualAddress + size) % 2 ^ 32
    certificateTable p.bytes stop (stop - virtualAddress + 1) virtualAddress

def Accepts (e : Env) (dbs : Databases) (signers : Bytes → List Bytes) (p : PeImage) (m : Bytes) (sigs : List Bytes) :
    Prop :=
  if securityDirectory p = some none then
    (∀ alg, listed e dbs .dbx m alg = false) ∧ ∃ alg, listed e dbs .db m alg = true
  else (∀ a ∈ sigs, refuses e dbs signers m a = false) ∧ ∃ a ∈ sigs, admits e dbs m a = true

/-- What the handler reads from the file: an image, the bytes that are hashed and the signatures. -/
structure Reads (e : Env) (p : PeImage) (m : Bytes) (sigs : List Bytes) : Prop where
  image : peImage e = some p
  message : imageMessage p = some m
  table : imageSignatures p = some sigs

structure Accepted (e : Env) (dbs : Databases) (signers : Bytes → List Bytes) (p : PeImage) (m : Bytes)
    (sigs : List Bytes) : Prop where
  reads : Reads e p m sigs
  policy : policy e ≠ neverExecute ∧ policy e ≠ queryUserOnSecurityViolation ∧
    policy e ≠ allowExecuteOnSecurityViolation
  accepts : Accepts e dbs signers p m sigs

section Verdict

theorem wp_attempt {Q : Bool → World → Prop} {R : Halt → World → Prop} {w : World} (all : ∀ b w', Q b w') :
    wp attempt e Q R w := all _ _

theorem wp_orFault_some {α : Type} {Q : α → World → Prop} {R : Halt → World → Prop} {w : World} (a : α) :
    wp (orFault (some a)) e Q R w ↔ Q a w := Iff.rfl

theorem wp_failed (action : Action) (signature : Bytes) (w : World) :
    wp (failed action signature) e (fun r _ => r ≠ .success) (fun _ _ => False) w := by
  have refusal : (if policy e = deferExecuteOnSecurityViolation then EfiStatus.securityViolation else .accessDenied) ≠
      .success := by
    split <;> exact nofun
  rw [failed, wp_bind, wp_ask, id_eq]
  by_cases named : e.file.isSome = true
  · rw [if_pos named, wp_bind]
    refine wp_attempt fun b w' => ?_
    cases b <;> exact refusal
  · rw [if_neg named]
    exact refusal

theorem wp_refuseSigned (action : Action) (w : World) :
    wp (refuseSigned action) e (fun r _ => r ≠ .success) (fun _ _ => False) w := by
  rw [refuseSigned, wp_ite]
  split_ifs
  · rw [wp_bind]
    refine wp_attempt fun b w' => ?_
    cases b <;> exact wp_failed _ _ w'
  · exact wp_failed _ _ w

theorem wp_refused {m : Verify EfiStatus} {P : Prop} {R : Halt → World → Prop} {w : World}
    (refuses : wp m e (fun r _ => r ≠ .success) (fun _ _ => False) w) (no : ¬P) :
    wp m e (fun r _ => r = .success ↔ P) R w :=
  wp_mono (fun _ _ error => iff_of_false error no) (fun _ _ => False.elim) refuses

theorem HashAlg.mem_all (alg : HashAlg) : alg ∈ HashAlg.all := by
  cases alg <;> decide

variable (ideal : Ideal e dbs signers) {p : PeImage}
include ideal

theorem wp_verifyUnsigned (unsigned : securityDirectory p = some none) (w : World) : wp (verifyUnsigned p) e
      (fun r _ => r = .success ↔ ∃ m, imageMessage p = some m ∧ Accepts e dbs signers p m [])
      (fun _ _ => imageMessage p = none) w := by
  rw [verifyUnsigned, wp_bind]
  cases message : imageMessage p with
  | none =>
    refine wp_mono ?_ (fun _ _ _ => rfl) (wp_verifyDigests_none ideal message _ w)
    rintro _ w' rfl
    exact wp_refused (wp_failed _ _ w') (by simp)
  | some m =>
    refine wp_mono (fun r w' found => ?_) (fun _ _ => False.elim) (wp_verifyDigests ideal message _ false w)
    have accepts : Accepts e dbs signers p m [] ↔ r = some true := by
      rw [found, Accepts, if_pos unsigned]
      simp [HashAlg.mem_all]
    simp only [Option.some.injEq, exists_eq_left', accepts]
    match r with
    | some true => exact ⟨fun _ => rfl, fun _ => rfl⟩
    | some false => exact wp_refused (wp_failed _ _ w') (by simp)
    | none => exact wp_refused (wp_failed _ _ w') (by simp)

theorem wp_verifySigned {virtualAddress size : Nat} (signed : securityDirectory p = some (some (virtualAddress, size)))
    (w : World) :
    wp (verifySigned p virtualAddress size) e
      (fun r _ => r = .success ↔ ∃ m sigs, imageMessage p = some m ∧ imageSignatures p = some sigs ∧
        Accepts e dbs signers p m sigs)
      (fun _ _ => imageMessage p = none ∨ imageSignatures p = none) w := by
  have table : imageSignatures p = certificateTable p.bytes ((virtualAddress + size) % 2 ^ 32)
      ((virtualAddress + size) % 2 ^ 32 - virtualAddress + 1) virtualAddress := by
    rw [imageSignatures, signed]
    rfl
  rw [verifySigned, wp_bind]
  cases message : imageMessage p with
  | none =>
    refine wp_mono ?_ (fun _ _ _ => .inl rfl) (wp_certificateLoop_none ideal message _ _ _ _ w)
    rintro ⟨ofs, v⟩ w' rfl
    dsimp only
    rw [if_neg fun verified => Bool.false_ne_true verified.1]
    refine wp_refused (wp_refuseSigned _ w') ?_
    rintro ⟨_, _, eq, -⟩
    cases eq
  | some m =>
    refine wp_mono ?_ (fun _ _ none => .inr (table.trans none)) (wp_certificateLoop ideal message _ _ _ _ w)
    rintro ⟨ofs, v⟩ w' verdict
    have accepts : (∃ m' sigs, some m = some m' ∧ imageSignatures p = some sigs ∧ Accepts e dbs signers p m' sigs) ↔
        v.isVerified = true ∧ ofs = (virtualAddress + size) % 2 ^ 32 := by
      rw [verdict, ← table, TableAdmits]
      simp [Accepts, signed]
    rw [accepts]
    dsimp only
    by_cases verified : v.isVerified = true ∧ ofs = (virtualAddress + size) % 2 ^ 32
    · rw [if_pos verified]
      exact iff_of_true rfl verified
    · rw [if_neg verified]
      exact wp_refused (wp_refuseSigned _ w') verified

theorem wp_verifyImage {img : Bytes} (file : e.fileBuffer = some img) (w : World) : wp (verifyImage img) e
      (fun r _ => r = .success ↔ ∃ p m sigs, peImage e = some p ∧ imageMessage p = some m ∧
        imageSignatures p = some sigs ∧ Accepts e dbs signers p m sigs)
      (fun _ _ => ∀ p, peImage e = some p → imageMessage p = none ∨ imageSignatures p = none) w := by
  have image : peImage e = if e.peCoffLoaderGetImageInfo img = true then (peCoffHeaderOffset img).bind fun peOfs =>
      if field img peOfs 4 = some ntSignature then some ⟨img, peOfs⟩ else none else none := by
    simp only [peImage, file, Option.bind_eq_bind, Option.bind_some, guard, Option.pure_def]
    split_ifs
    · rw [Option.bind_some]
      congr 1
      funext peOfs
      split_ifs <;> rfl
    · rfl
  rw [verifyImage, wp_bind, wp_ask]
  cases info : e.peCoffLoaderGetImageInfo img with
  | false =>
    rw [info, if_neg Bool.false_ne_true] at image
    exact wp_refused (wp_failed _ _ w) (by simp [image])
  | true =>
    rw [info, if_pos rfl] at image
    rw [if_neg Bool.true_eq_false.mp, wp_bind]
    cases header : peCoffHeaderOffset img with
    | none =>
      rw [header, Option.bind_none] at image
      intro p some
      cases image.symm.trans some
    | some peOfs =>
      rw [header, Option.bind_some] at image
      rw [wp_orFault_some, natAt, wp_bind]
      cases signature : field img peOfs 4 with
      | none =>
        rw [signature, if_neg nofun] at image
        intro p some
        cases image.symm.trans some
      | some value =>
        rw [signature] at image
        by_cases nt : value = ntSignature
        · rw [if_pos (congrArg some nt)] at image
          rw [wp_orFault_some, if_neg (not_not.mpr nt), wp_bind]
          cases directory : securityDirectory ⟨img, peOfs⟩ with
          | none =>
            intro p some
            cases image.symm.trans some
            right
            rw [imageSignatures, directory]
            rfl
          | some entry =>
            rw [wp_orFault_some]
            cases entry with
            | none =>
              have empty : imageSignatures ⟨img, peOfs⟩ = some [] := by
                rw [imageSignatures, directory]
                rfl
              refine wp_mono (fun r _ verdict => verdict.trans ?_) ?_ (wp_verifyUnsigned ideal directory w)
              · intro _ _ none p some
                cases image.symm.trans some
                exact .inl none
              · simp [image, empty]
            | some entry =>
              refine wp_mono (fun r _ verdict => verdict.trans ?_) ?_ (wp_verifySigned ideal directory w)
              · intro _ _ none p some
                cases image.symm.trans some
                exact none
              · simp [image]
        · rw [if_neg fun eq => nt (Option.some.inj eq)] at image
          rw [wp_orFault_some, if_pos nt]
          exact wp_refused (wp_failed _ _ w) (by simp [image])

theorem returned_success_iff (notAlways : policy e ≠ alwaysExecute) (exists' : e.secureBoot.status = .success)
    (enabled : e.secureBoot.value = 1) (w : World) :
    (dxeImageVerificationHandler e w).1 = .ok .success ↔ ∃ p m sigs, Accepted e dbs signers p m sigs := by
  have split : (∃ p m sigs, Accepted e dbs signers p m sigs) ↔
      policy e ≠ neverExecute ∧ policy e ≠ queryUserOnSecurityViolation ∧ policy e ≠ allowExecuteOnSecurityViolation ∧
      ∃ p m sigs, peImage e = some p ∧ imageMessage p = some m ∧ imageSignatures p = some sigs ∧
        Accepts e dbs signers p m sigs :=
    ⟨fun ⟨p, m, sigs, ⟨image, message, table⟩, ⟨never, query, allow⟩, accepts⟩ =>
        ⟨never, query, allow, p, m, sigs, image, message, table, accepts⟩,
      fun ⟨never, query, allow, p, m, sigs, image, message, table, accepts⟩ =>
        ⟨p, m, sigs, ⟨image, message, table⟩, ⟨never, query, allow⟩, accepts⟩⟩
  rw [split]
  rw [returned_iff_wp, dxeImageVerificationHandler, wp_bind, wp_ask, id_eq, if_neg notAlways]
  by_cases never : policy e = neverExecute
  · rw [if_pos never]
    exact iff_of_false nofun fun h => h.1 never
  rw [if_neg never]
  by_cases stops : policy e = queryUserOnSecurityViolation ∨ policy e = allowExecuteOnSecurityViolation
  · rw [if_pos stops]
    exact iff_of_false id fun h => stops.elim h.2.1 h.2.2.1
  rw [if_neg stops, if_neg (by rw [exists']; exact nofun), if_neg (by rw [enabled]; exact nofun)]
  rw [not_or] at stops
  simp only [ne_eq, never, stops, not_false_eq_true, true_and]
  cases file : e.fileBuffer with
  | none =>
    refine iff_of_false nofun ?_
    rintro ⟨p, _, _, image, -⟩
    rw [peImage, file] at image
    cases image
  | some img =>
    refine wp_iff_of_wp (wp_verifyImage ideal file w) (fun _ _ verdict => verdict) fun _ _ none => ?_
    refine iff_of_false id ?_
    rintro ⟨p, m, sigs, image, message, table, -⟩
    rcases none p image with none | none
    · cases message.symm.trans none
    · cases table.symm.trans none

end Verdict

/-! ### What the databases allow and revoke -/

def EfiTime.fields (t : EfiTime) : List Nat := [t.year, t.month, t.day, t.hour, t.minute, t.second]

def EfiTime.Precedes (s t : EfiTime) : Prop := s.fields < t.fields

theorem precedes_or_eq {s t : EfiTime} (valid : isValidSignatureByTimestamp s t = true) : s.Precedes t ∨ s = t := by
  obtain ⟨y, mo, d, h, mi, sec⟩ := s
  obtain ⟨y', mo', d', h', mi', sec'⟩ := t
  simp only [isValidSignatureByTimestamp] at valid
  simp only [EfiTime.Precedes, EfiTime.fields, cons_lt_cons_iff, EfiTime.mk.injEq]
  split_ifs at valid <;> simp at valid <;> omega

/-- The forbidden database has a certificate that the signature leads to, or the hash of a signer with a time of
    revocation before which no trusted timestamp lies. -/
def Revoked (e : Env) (dbs : Databases) (signers : Bytes → List Bytes) (authData : Bytes) : Prop :=
  (∃ c ∈ certificates (dbs.entries .dbx), e.pkcs7Verify authData c = true) ∨
    ∃ cert ∈ signers authData, ∃ tbsCert, e.x509GetTBSCert cert = some tbsCert ∧
      ∃ t ∈ revocations e (dbs.entries .dbx) tbsCert, ∀ signed ∈ trustedTimes e dbs authData, ¬signed.Precedes t

structure Admissible (e : Env) (dbs : Databases) (signers : Bytes → List Bytes) (m : Bytes) (sigs : List Bytes) :
    Prop where
  allowed : (∃ a ∈ sigs, ∃ alg, signatureAlg e a = some alg ∧
      ∃ c ∈ certificates (dbs.entries .db), e.authenticodeVerify a c (e.digest alg m) = true) ∨
    ∃ alg, listed e dbs .db m alg = true
  unrevoked : ∀ a ∈ sigs, ∀ alg, signatureAlg e a = some alg → ¬Revoked e dbs signers a
  unlisted : ∀ alg, listed e dbs .dbx m alg = false

def Signs (e : Env) (authData digest : Bytes) : Prop :=
  ∃ content, e.spcIndirectDataContent authData = some content ∧ content.drop (content.length - digest.length) = digest

structure NothingHidden (e : Env) (dbs : Databases) (signers : Bytes → List Bytes) (m : Bytes) (sigs : List Bytes) :
    Prop where
  /-- No digest is revoked under an algorithm that no signature uses. -/
  digests : ∀ alg, (∀ a ∈ sigs, signatureAlg e a ≠ some alg) → listed e dbs .dbx m alg = false
  /-- A signature of something else than the image does not lead to a revoked certificate. -/
  chains : ∀ a ∈ sigs, ∀ alg, signatureAlg e a = some alg → ¬Signs e a (e.digest alg m) →
    ∀ c ∈ certificates (dbs.entries .dbx), e.pkcs7Verify a c = false
  /-- A signer whose first time of revocation is a trusted timestamp itself was also trusted before it, and all further
      times of revocation come after a trusted timestamp. -/
  times : ∀ a ∈ sigs, ∀ alg, signatureAlg e a = some alg → ∀ cert ∈ signers a, ∀ tbsCert,
    e.x509GetTBSCert cert = some tbsCert → ∀ t ts, revocations e (dbs.entries .dbx) tbsCert = t :: ts →
      (t ∈ trustedTimes e dbs a → ∃ signed ∈ trustedTimes e dbs a, signed.Precedes t) ∧
      ∀ t' ∈ ts, ∃ signed ∈ trustedTimes e dbs a, signed.Precedes t'

section Databases

variable {p : PeImage} {m : Bytes} {sigs : List Bytes}

theorem authenticodeVerify_iff {a c d : Bytes} :
    e.authenticodeVerify a c d = true ↔ Signs e a d ∧ e.pkcs7Verify a c = true := by
  rw [Env.authenticodeVerify, Signs]
  cases e.spcIndirectDataContent a <;> simp

theorem isSome_of_mem {c : Bytes} (mem : c ∈ certificates (dbs.entries .dbx)) : (dbs.lists .dbx).isSome = true := by
  cases some : dbs.lists .dbx with
  | none => simp [Databases.entries, some, certificates] at mem
  | some _ => rfl

theorem isSome_of_revocation {tbsCert : Bytes} {t : EfiTime} (mem : t ∈ revocations e (dbs.entries .dbx) tbsCert) :
    (dbs.lists .dbx).isSome = true := by
  cases some : dbs.lists .dbx with
  | none => simp [Databases.entries, some, revocations] at mem
  | some _ => rfl

theorem not_revoked {a : Bytes} {alg : HashAlg} (nothing : NothingHidden e dbs signers m sigs) (mem : a ∈ sigs)
    (named : signatureAlg e a = some alg) (fits : refuses e dbs signers m a = false) : ¬Revoked e dbs signers a := by
  rw [refuses, named, Option.any_some, Bool.or_eq_false_iff] at fits
  have pure := fits.1
  rw [forbidden] at pure
  rintro (⟨c, dbx, leads⟩ | ⟨cert, signer, tbsCert, tbs, t, entry, late⟩)
  · by_cases signs : Signs e a (e.digest alg m)
    · rw [isSome_of_mem dbx, Bool.true_and, Bool.or_eq_false_iff, Bool.or_eq_false_iff, any_eq_false] at pure
      exact pure.1.1 c dbx (authenticodeVerify_iff.mpr ⟨signs, leads⟩)
    · cases leads.symm.trans (nothing.chains a mem alg named signs c dbx)
  · rw [isSome_of_revocation entry, Bool.true_and, Bool.or_eq_false_iff, any_eq_false] at pure
    have passed := pure.2 cert signer
    rw [signerRevoked, tbs] at passed
    cases all : revocations e (dbs.entries .dbx) tbsCert with
    | nil =>
      rw [all] at entry
      cases entry
    | cons first ts =>
      simp only [all, List.head?_cons, Option.any_some, Bool.not_eq_true', Bool.not_eq_false, passes, Bool.and_eq_true,
        any_eq_true] at passed
      obtain ⟨-, signed, trusted, valid⟩ := passed
      obtain ⟨equal, further⟩ := nothing.times a mem alg named cert signer tbsCert tbs first ts all
      rw [all, mem_cons] at entry
      have before : ∃ signed ∈ trustedTimes e dbs a, signed.Precedes t := by
        rcases entry with rfl | entry
        · rcases precedes_or_eq valid with before | rfl
          · exact ⟨signed, trusted, before⟩
          · exact equal trusted
        · exact further t entry
      obtain ⟨signed, trusted, before⟩ := before
      exact late signed trusted before

theorem admissible_of_accepted (accepted : Accepted e dbs signers p m sigs)
    (nothing : NothingHidden e dbs signers m sigs) :
    Admissible e dbs signers m sigs := by
  obtain ⟨reads, -, accepts⟩ := accepted
  rw [Accepts] at accepts
  split_ifs at accepts with unsigned
  · have empty : sigs = [] := by
      have table := reads.table
      rw [imageSignatures, unsigned] at table
      exact (Option.some.inj table).symm
    subst empty
    exact ⟨.inr accepts.2, fun a mem => absurd mem not_mem_nil, accepts.1⟩
  · obtain ⟨fits, a, mem, admitted⟩ := accepts
    refine ⟨?_, fun a mem alg named => not_revoked nothing mem named (fits a mem), fun alg => ?_⟩
    · rw [admits, Option.any_eq_true] at admitted
      obtain ⟨alg, named, admitted⟩ := admitted
      rcases (Bool.or_eq_true _ _).mp admitted with db | db
      · rw [allowed, Option.any_eq_true] at db
        obtain ⟨c, found, -⟩ := db
        have verified : e.authenticodeVerify a c (e.digest alg m) = true := by simpa using List.find?_some found
        exact .inl ⟨a, mem, alg, named, c, mem_of_find?_eq_some found, verified⟩
      · exact .inr ⟨alg, db⟩
    · by_cases used : ∃ a ∈ sigs, signatureAlg e a = some alg
      · obtain ⟨a, mem, named⟩ := used
        have fit := fits a mem
        rw [refuses, named, Option.any_some, Bool.or_eq_false_iff] at fit
        exact fit.2
      · exact nothing.digests alg fun a mem named => used ⟨a, mem, named⟩

theorem nothingHidden_of_admissible (admissible : Admissible e dbs signers m sigs) :
    NothingHidden e dbs signers m sigs where
  digests alg _ := admissible.unlisted alg
  chains a mem alg named _ c dbx :=
    Bool.eq_false_iff.mpr fun leads => admissible.unrevoked a mem alg named (.inl ⟨c, dbx, leads⟩)
  times a mem alg named cert signer tbsCert tbs t ts all := by
    have before : ∀ t' ∈ t :: ts, ∃ signed ∈ trustedTimes e dbs a, signed.Precedes t' := by
      intro t' entry
      by_contra none
      refine admissible.unrevoked a mem alg named (.inr ⟨cert, signer, tbsCert, tbs, t', all ▸ entry, ?_⟩)
      exact fun signed trusted before => none ⟨signed, trusted, before⟩
    exact ⟨fun _ => before t mem_cons_self, fun t' entry => before t' (mem_cons_of_mem t entry)⟩

end Databases

/-! ### A signed image -/

def sampleSignature : Bytes := [0x30, 0x82] ++ List.replicate 30 0 ++ HashAlg.sha256.oidValue

def sampleImage : Bytes :=
  leBytes 4 ntSignature ++ List.replicate 20 0 ++ leBytes 2 PeImage.magic32 ++ List.replicate 58 0 ++ leBytes 4 160 ++
    List.replicate 28 0 ++ leBytes 4 5 ++ List.replicate 32 0 ++ leBytes 4 160 ++ leBytes 4 56 ++
    (leBytes 4 49 ++ leBytes 2 0x0200 ++ leBytes 2 0x0002 ++ sampleSignature ++ List.replicate 7 0)

def certificateList : SignatureList where
  signatureType := certX509Guid
  header := []
  signatureSize := 17
  signatures := [List.replicate 16 0 ++ [1]]
  length_type := by decide
  length_signature := by decide
  owner_le := by decide
  size_lt := by decide
  fits := by decide
  size_certHash alg type := nomatch type

/-- The SHA-512 digest of the image, when a digest repeats the sum of the bytes. -/
def digestList512 : SignatureList where
  signatureType := certSha512Guid
  header := []
  signatureSize := 80
  signatures := [List.replicate 16 0 ++ List.replicate 64 70]
  length_type := by decide
  length_signature := by decide
  owner_le := by decide
  size_lt := by decide
  fits := by decide
  size_certHash alg type := nomatch type

def sampleDatabases (dbx : Option SignatureList) : Databases where
  lists
    | .db => some [certificateList]
    | .dbx => dbx.map ([·])
    | .dbt => none
  nonempty v := by cases v <;> cases dbx <;> exact nofun

def sampleEnv (dbx : Option SignatureList) : Env where
  sha1Enabled := true
  file := some []
  inFirmwareVolume := false
  blockIo := some false
  simpleFileSystem := false
  optionRomPolicy := denyExecuteOnSecurityViolation
  removableMediaPolicy := denyExecuteOnSecurityViolation
  fixedMediaPolicy := denyExecuteOnSecurityViolation
  secureBoot := ⟨.success, 6, 1⟩
  fileBuffer := some sampleImage
  peCoffLoaderGetImageInfo _ := true
  databases v := ((sampleDatabases dbx).lists v).map (·.flatMap SignatureList.encode)
  digest alg m := List.replicate alg.digestLength m.sum
  length_digest _ _ := length_replicate
  x509GetTBSCert cert := some cert
  spcIndirectDataContent _ := some (List.replicate 32 70)
  pkcs7Verify _ cert := cert = [1]
  pkcs7GetSigners _ := certStack [[2]]
  imageTimestampVerify _ _ := none
  grants _ := true

theorem ideal_sampleEnv (dbx : Option SignatureList) : Ideal (sampleEnv dbx) (sampleDatabases dbx) fun _ => [[2]] where
  granted _ := rfl
  databases _ := rfl
  stack _ := rfl
  signers_lt _ := by decide
  signer_lt _ := by decide

def idle : World := ⟨0, ⟨[], 0, []⟩, [], []⟩

/-- The handler admits only what the databases allow and do not revoke, provided that nothing is hidden from it in the
    images it accepts. -/
theorem success_admissible_iff {e : Env} {dbs : Databases} {signers : Bytes → List Bytes}
    (ideal : Ideal e dbs signers) (notAlways : policy e ≠ alwaysExecute)
    (exists' : e.secureBoot.status = .success) (enabled : e.secureBoot.value = 1) (w : World) :
    ((dxeImageVerificationHandler e w).1 = .ok .success →
        ∃ p m sigs, Reads e p m sigs ∧ Admissible e dbs signers m sigs) ↔
      ∀ p m sigs, Accepted e dbs signers p m sigs → NothingHidden e dbs signers m sigs := by
  rw [returned_success_iff ideal notAlways exists' enabled]
  constructor
  · intro sound p m sigs accepted
    obtain ⟨p', m', sigs', reads, admissible⟩ := sound ⟨p, m, sigs, accepted⟩
    cases accepted.reads.image.symm.trans reads.image
    cases accepted.reads.message.symm.trans reads.message
    cases accepted.reads.table.symm.trans reads.table
    exact nothingHidden_of_admissible admissible
  · rintro nothing ⟨p, m, sigs, accepted⟩
    exact ⟨p, m, sigs, accepted.reads, admissible_of_accepted accepted (nothing p m sigs accepted)⟩

/-- An image is admitted by its SHA-256 signature although its SHA-512 digest is revoked. -/
theorem revoked_digest_admitted :
    Ideal (sampleEnv (some digestList512)) (sampleDatabases (some digestList512)) (fun _ => [[2]]) ∧
    policy (sampleEnv (some digestList512)) ≠ alwaysExecute ∧
    (sampleEnv (some digestList512)).secureBoot.status = .success ∧
      (sampleEnv (some digestList512)).secureBoot.value = 1 ∧
    (dxeImageVerificationHandler (sampleEnv (some digestList512)) idle).1 = .ok .success ∧
    ¬∃ p m sigs, Reads (sampleEnv (some digestList512)) p m sigs ∧
      Admissible (sampleEnv (some digestList512)) (sampleDatabases (some digestList512)) (fun _ => [[2]]) m sigs := by
  refine ⟨ideal_sampleEnv _, by decide, rfl, rfl, by decide, ?_⟩
  rintro ⟨p, m, sigs, ⟨image, message, -⟩, admissible⟩
  have parsed : peImage (sampleEnv (some digestList512)) = some ⟨sampleImage, 0⟩ := by decide
  cases parsed.symm.trans image
  have sum : (imageMessage ⟨sampleImage, 0⟩).map List.sum = some 70 := by decide
  rw [message, Option.map_some, Option.some.injEq] at sum
  have unlisted := admissible.unlisted .sha512
  rw [listed, show (sampleEnv (some digestList512)).digest .sha512 m = List.replicate 64 m.sum from rfl,
    sum] at unlisted
  revert unlisted
  decide

/-- With no forbidden database the same image is admitted, and rightly so. -/
theorem success_admissible_sample : (dxeImageVerificationHandler (sampleEnv none) idle).1 = .ok .success ∧
    ∃ p m sigs, Reads (sampleEnv none) p m sigs ∧ Admissible (sampleEnv none) (sampleDatabases none) (fun _ =>
      [[2]]) m sigs := by
  have returned : (dxeImageVerificationHandler (sampleEnv none) idle).1 = .ok .success := by decide
  refine ⟨returned, (success_admissible_iff (ideal_sampleEnv none) (by decide) rfl rfl idle).mpr ?_ returned⟩
  intro p m sigs _
  have none : ∀ {tbsCert t ts}, revocations (sampleEnv none) ((sampleDatabases none).entries .dbx)
      tbsCert ≠ t :: ts := by
    intro _ _ _
    exact nofun
  exact {
    digests := fun alg _ => by cases alg <;> rfl
    chains := fun _ _ _ _ _ c dbx => nomatch dbx
    times := fun _ _ _ _ _ _ _ _ _ _ some => absurd some none }

end LeoEdk.SecureBoot
