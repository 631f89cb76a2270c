import LeoEdk.SecureBoot.Lookup

/-! Well-formed signature databases and what the searches of the library find in them. Where every call succeeds
    (`Ideal`), a search yields a function of the decoded lists. -/

namespace LeoEdk.SecureBoot

open Bytes Prog List

structure SignatureList where
  signatureType : Bytes
  header : Bytes
  signatureSize : Nat
  signatures : List Bytes
  length_type : signatureType.length = 16
  length_signature : ∀ s ∈ signatures, s.length = signatureSize
  owner_le : ownerSize ≤ signatureSize
  size_lt : signatureSize < 2 ^ 31
  fits : sigListHdrSize + header.length + signatures.length * signatureSize < 2 ^ 31
  /-- A hash of a certificate is followed by the time of revocation. -/
  size_certHash : ∀ alg, certHashAlg signatureType = some alg → signatureSize = ownerSize + alg.digestLength + 16

namespace SignatureList

variable (l : SignatureList)

def size : Nat := sigListHdrSize + l.header.length + l.signatures.length * l.signatureSize

def encode : Bytes :=
  l.signatureType ++ (leBytes 4 l.size ++ (leBytes 4 l.header.length ++ (leBytes 4 l.signatureSize ++
    (l.header ++ l.signatures.flatten))))

theorem length_signatures : l.signatures.flatten.length = l.signatures.length * l.signatureSize := by
  rw [length_flatten, map_congr_left l.length_signature, map_const', sum_replicate]
  rfl

@[simp] theorem length_encode : l.encode.length = l.size := by
  simp only [encode, length_append, length_leBytes, l.length_type, length_signatures, size, sigListHdrSize]
  omega

theorem encode_ne_nil : l.encode ≠ [] := by
  intro nil
  have := congrArg List.length nil
  simp [size, sigListHdrSize] at this

end SignatureList

section Reading

variable {I : World → Prop} {e : Env}

theorem yields_orFault {α : Type} {o : Option α} {a : α} (h : o = some a) : Yields I e (orFault o) a := by
  subst h
  exact .pure a

theorem yields_bytesAt {bs part : Bytes} {ofs len : Nat} (h : ofs + len ≤ bs.length) (value : slice ofs len bs = part) :
    Yields I e (bytesAt bs ofs len) part := by
  refine yields_orFault ?_
  rw [slice?, if_pos h, value]

theorem yields_natAt {bs : Bytes} {ofs width n : Nat} (h : ofs + width ≤ bs.length)
    (value : leNat (slice ofs width bs) = n) : Yields I e (natAt bs ofs width) n := by
  refine yields_orFault ?_
  rw [field, slice?, if_pos h, Option.map_some, value]

theorem yields_number {bs : Bytes} {ofs n : Nat} (here : At bs ofs (leBytes 4 n)) (small : n < 2 ^ 32) :
    Yields I e (natAt bs ofs 4) n := by
  have inside := here.inside (by simp)
  rw [length_leBytes] at inside
  exact yields_natAt inside (here.leNat_eq small)

variable (l : SignatureList) (tail : Bytes)

theorem at_fields : At (l.encode ++ tail) 0 l.signatureType ∧ At (l.encode ++ tail) 16 (leBytes 4 l.size) ∧
    At (l.encode ++ tail) 20 (leBytes 4 l.header.length) ∧ At (l.encode ++ tail) 24 (leBytes 4 l.signatureSize) := by
  have here : At (l.encode ++ tail) 0 l.encode := at_middle [] l.encode tail
  generalize l.encode ++ tail = bs at here
  simp only [SignatureList.encode, at_append, length_leBytes, l.length_type] at here
  exact ⟨here.1, here.2.1, here.2.2.1, here.2.2.2.1⟩

theorem yields_type : Yields I e (bytesAt (l.encode ++ tail) 0 16) l.signatureType := by
  have here := (at_fields l tail).1
  have inside := here.inside (by rw [l.length_type]; decide)
  rw [l.length_type] at inside
  exact yields_bytesAt inside (here.slice_eq l.length_type)

theorem yields_nextList_nil {bound : Nat → Nat} : Yields I e (nextList bound [] 0) none := .pure none

theorem yields_nextList {bound : Nat → Nat} {left : Nat} (some : l.size ≤ left) (admits : l.size ≤ bound left) :
    Yields I e (nextList bound (l.encode ++ tail) left) (.some l.size) := by
  have pos : left ≠ 0 := by
    rw [SignatureList.size, sigListHdrSize] at some
    omega
  rw [nextList, if_neg pos]
  refine (yields_number (at_fields l tail).2.1 (Nat.lt_trans l.fits (by decide))).bind ?_
  rw [if_neg (Nat.not_lt.mpr admits)]
  exact .pure _

theorem yields_signatures : Yields I e (signatures l.size (l.encode ++ tail))
      (l.signatures.length, l.signatureSize, l.signatures.flatten ++ tail) := by
  have fits := l.fits
  have size := l.size_lt
  obtain ⟨_, _, headerSize, sigSize⟩ := at_fields l tail
  have pos : 0 < l.signatureSize := lt_of_lt_of_le (by decide) l.owner_le
  have count : usub (usub l.size sigListHdrSize) l.header.length / l.signatureSize = l.signatures.length := by
    rw [SignatureList.size, Nat.add_assoc, usub_of_le (Nat.le_add_right ..), Nat.add_sub_cancel_left,
      usub_of_le (Nat.le_add_right ..), Nat.add_sub_cancel_left, Nat.mul_div_cancel _ pos]
  have entries : (l.encode ++ tail).drop (sigListHdrSize + l.header.length) = l.signatures.flatten ++ tail := by
    rw [SignatureList.encode, ← append_assoc, ← append_assoc, ← append_assoc, ← append_assoc, append_assoc]
    refine drop_left' ?_
    simp only [length_append, length_leBytes, l.length_type, sigListHdrSize]
  rw [signatures]
  refine (yields_number headerSize (by omega)).bind ((yields_number sigSize (by omega)).bind ?_)
  rw [if_neg pos.ne', count, entries]
  exact .pure _

end Reading

/-! ### The searches -/

def certificates (lists : List SignatureList) : List Bytes :=
  lists.flatMap fun l => if l.signatureType = certX509Guid then l.signatures.map (·.drop ownerSize) else []

section Searching

variable {I : World → Prop} {e : Env} (lists : List SignatureList)

theorem length_le_flatMap_encode : lists.length ≤ (lists.flatMap SignatureList.encode).length := by
  induction lists with
  | nil => exact Nat.zero_le _
  | cons l lists ih =>
    rw [flatMap_cons, length_append, length_cons, l.length_encode, SignatureList.size, sigListHdrSize]
    omega

theorem yields_forLists {α : Type} {bound : Nat → Nat} {body : Nat → Bytes → Verify (Option α)}
    {found : SignatureList → Option α} (admits : ∀ l ∈ lists, ∀ left, l.size ≤ left → l.size ≤ bound left)
    (visits : ∀ l ∈ lists, ∀ tail, Yields I e (body l.size (l.encode ++ tail)) (found l)) :
    Yields I e (forLists bound body (lists.flatMap SignatureList.encode)) (lists.findSome? found) := by
  refine yields_walk lists yields_nextList_nil (fun l mem tail left some => ?_) (fun l mem tail => ?_)
    (fun l _ => l.encode_ne_nil) (Nat.lt_succ_of_le (length_le_flatMap_encode lists))
  · rw [l.length_encode] at some ⊢
    exact yields_nextList l tail some (admits l mem left some)
  · rw [l.length_encode]
    exact visits l mem tail

theorem yields_forCerts {α : Type} {body : Bytes → Bytes → Verify (Option α)} {found : Bytes → Option α}
    (visits : ∀ entry cert, Yields I e (body entry cert) (found cert)) :
    Yields I e (forCerts body (lists.flatMap SignatureList.encode)) ((certificates lists).findSome? found) := by
  rw [certificates, findSome?_flatMap]
  refine yields_forLists lists (fun _ _ _ some => some) fun l _ tail => (yields_type l tail).bind ?_
  by_cases type : l.signatureType = certX509Guid
  · have small : ¬2 ^ 31 ≤ usub l.signatureSize ownerSize := by
      have := l.size_lt
      rw [usub_of_le l.owner_le]
      omega
    rw [if_neg (not_not.mpr type), if_pos type, List.findSome?_map]
    refine (yields_signatures l tail).bind (yields_visitEach l.signatures tail l.length_signature fun s mem tail => ?_)
    have len := l.length_signature s mem
    have cert : slice ownerSize (usub l.signatureSize ownerSize) (s ++ tail) = s.drop ownerSize := by
      rw [usub_of_le l.owner_le, slice_append_left _ (by have := l.owner_le; omega), slice, take_of_length_le]
      rw [length_drop, len]
    rw [if_neg small]
    refine (yields_bytesAt ?_ cert).bind (visits _ _)
    rw [usub_of_le l.owner_le, length_append, len]
    have := l.owner_le
    omega
  · rw [if_pos type, if_neg type]
    exact .pure none

end Searching

structure Databases where
  lists : Database → Option (List SignatureList)
  nonempty : ∀ v, lists v ≠ some []

def Databases.entries (dbs : Databases) (v : Database) : List SignatureList := (dbs.lists v).getD []

def certStack : List Bytes → Bytes
  | [] => []
  | certs => UInt8.ofNat certs.length :: certs.flatMap fun c => leBytes 4 c.length ++ c

/-- Every call succeeds, the databases are well formed, and the signers of Authenticode data are given in full. -/
structure Ideal (e : Env) (dbs : Databases) (signers : Bytes → List Bytes) : Prop where
  granted : ∀ n, e.grants n = true
  databases : ∀ v, e.databases v = (dbs.lists v).map (·.flatMap SignatureList.encode)
  stack : ∀ a, e.pkcs7GetSigners a = certStack (signers a)
  signers_lt : ∀ a, (signers a).length < 256
  signer_lt : ∀ a, ∀ c ∈ signers a, c.length < 2 ^ 32

/-- The time of revocation that an entry gives for a certificate, which is known by its `TBSCertificate`. -/
def revocation (e : Env) (alg : HashAlg) (tbsCert entry : Bytes) : Option EfiTime :=
  if slice ownerSize alg.digestLength entry = e.digest alg tbsCert then
    some (EfiTime.ofBytes (slice (ownerSize + alg.digestLength) 16 entry))
  else none

def SignatureList.revocations (e : Env) (tbsCert : Bytes) (l : SignatureList) : List EfiTime :=
  match certHashAlg l.signatureType with
  | none => []
  | some alg => l.signatures.filterMap (revocation e alg tbsCert)

def revocations (e : Env) (lists : List SignatureList) (tbsCert : Bytes) : List EfiTime :=
  lists.flatMap (SignatureList.revocations e tbsCert)

def trustedTimes (e : Env) (dbs : Databases) (authData : Bytes) : List EfiTime :=
  (certificates (dbs.entries .dbt)).filterMap (e.imageTimestampVerify authData)

def passes (e : Env) (dbs : Databases) (authData : Bytes) (revocationTime : EfiTime) : Bool :=
  !isTimeZero revocationTime && (trustedTimes e dbs authData).any (isValidSignatureByTimestamp · revocationTime)

def SignatureList.contains (type digest : Bytes) (l : SignatureList) : Bool :=
  l.signatureType = type && l.signatures.any (·.drop ownerSize = digest)

def contains (lists : List SignatureList) (type digest : Bytes) : Bool := lists.any (SignatureList.contains type digest)

/-- The first time of revocation of a certificate rules out its signature. -/
def signerRevoked (e : Env) (dbs : Databases) (authData cert : Bytes) : Bool :=
  match e.x509GetTBSCert cert with
  | none => false
  | some tbsCert => (revocations e (dbs.entries .dbx) tbsCert).head?.any fun t => !passes e dbs authData t

def forbidden (e : Env) (dbs : Databases) (signers : Bytes → List Bytes) (authData digest : Bytes) : Bool :=
  (dbs.lists .dbx).isSome && ((certificates (dbs.entries .dbx)).any (e.authenticodeVerify authData · digest) ||
    (signers authData).isEmpty || (signers authData).any (signerRevoked e dbs authData))

/-- A certificate of `db` that verifies a signature still has to stand the forbidden database, where there is one. -/
def rootTrusted (e : Env) (dbs : Databases) (authData cert : Bytes) : Bool :=
  (dbs.lists .dbx).isNone || (e.x509GetTBSCert cert).isSome && !signerRevoked e dbs authData cert

def allowed (e : Env) (dbs : Databases) (authData digest : Bytes) : Bool :=
  ((certificates (dbs.entries .db)).find? (e.authenticodeVerify authData · digest)).any (rootTrusted e dbs authData)

section Lookups

variable {e : Env} {dbs : Databases} {signers : Bytes → List Bytes} (ideal : Ideal e dbs signers) {g : Globals}
include ideal

theorem yields_attempt : Yields (·.globals = g) e attempt true := fun w inv => ⟨ideal.granted w.calls, inv⟩

theorem yields_getVariableSize (v : Database) :
    Yields (·.globals = g) e (getVariableSize v) (if (dbs.lists v).isSome then .bufferTooSmall else .notFound) := by
  refine (yields_attempt ideal).bind ((Yields.ask _).bind ?_)
  rw [ideal.databases]
  cases some : dbs.lists v with
  | none => exact .pure _
  | some lists =>
    cases lists with
    | nil => exact absurd some (dbs.nonempty v)
    | cons l lists =>
      cases data : (l :: lists).flatMap SignatureList.encode with
      | nil => exact absurd (flatMap_eq_nil_iff.mp data l mem_cons_self) l.encode_ne_nil
      | cons b bs =>
        rw [Option.map_some, data]
        exact .pure _

theorem yields_getVariable {v : Database} {lists : List SignatureList} (exist : dbs.lists v = some lists) :
    Yields (·.globals = g) e (getVariable v) (.ok (lists.flatMap SignatureList.encode)) := by
  refine (yields_attempt ideal).bind ((yields_attempt ideal).bind ((Yields.ask _).bind ?_))
  rw [ideal.databases, exist]
  exact .pure _

omit ideal in
theorem yields_matchCertHash {l : SignatureList} {alg : HashAlg} (type : certHashAlg l.signatureType = some alg)
    {s : Bytes} (mem : s ∈ l.signatures) (tail tbsCert : Bytes) :
    Yields (·.globals = g) e (matchCertHash alg (e.digest alg tbsCert) (s ++ tail))
      ((revocation e alg tbsCert s).map fun t => (.success, some t)) := by
  have len : s.length = ownerSize + alg.digestLength + 16 := (l.length_signature s mem).trans (l.size_certHash alg type)
  have read : ∀ {ofs n}, ofs + n ≤ s.length → Yields (·.globals = g) e (bytesAt (s ++ tail) ofs n) (slice ofs n s) := by
    intro ofs n inside
    exact yields_bytesAt (by rw [length_append]; omega) (slice_append_left tail inside)
  refine (read (by omega)).bind ?_
  by_cases same : slice ownerSize alg.digestLength s = e.digest alg tbsCert
  · rw [revocation, if_pos same, if_neg (not_not.mpr same)]
    exact (read (by omega)).bind (.pure _)
  · rw [revocation, if_neg same, if_pos same]
    exact .pure _

theorem yields_certHashInList (tbsCert : Bytes) (l : SignatureList) (tail : Bytes) :
    Yields (·.globals = g) e (certHashInList tbsCert l.size (l.encode ++ tail))
      ((l.revocations e tbsCert).head?.map fun t => (.success, some t)) := by
  have granted := yields_attempt ideal (g := g)
  refine (yields_type l tail).bind ?_
  rw [SignatureList.revocations]
  cases type : certHashAlg l.signatureType with
  | none => exact .pure _
  | some alg =>
    refine granted.bind (granted.bind (granted.bind (granted.bind ((Yields.ask _).bind ?_))))
    rw [List.head?_filterMap, map_findSome?]
    exact (yields_signatures l tail).bind
      (yields_visitEach l.signatures tail l.length_signature fun s mem tail =>
        yields_matchCertHash type mem tail tbsCert)

theorem yields_isCertHashFoundInDbx (certificate : Bytes) (lists : List SignatureList) :
    Yields (·.globals = g) e (isCertHashFoundInDbx certificate (lists.flatMap SignatureList.encode))
      (match e.x509GetTBSCert certificate with
        | none => (.aborted, none)
        | some tbsCert => (.success, (revocations e lists tbsCert).head?)) := by
  refine (Yields.ask _).bind ?_
  cases e.x509GetTBSCert certificate with
  | none => exact .pure _
  | some tbsCert =>
    have bounded : ∀ l ∈ lists, l.size ≤ (lists.flatMap SignatureList.encode).length := by
      intro l mem
      rw [← l.length_encode]
      exact (sublist_flatten_of_mem (mem_map_of_mem mem)).length_le
    have search := yields_forLists lists (fun l mem _ _ => bounded l mem) fun l _ =>
      yields_certHashInList ideal (g := g) tbsCert l
    rw [← Function.comp_def (Option.map _), ← map_findSome?, ← List.head?_flatMap] at search
    refine search.bind ?_
    simp only [revocations]
    cases (lists.flatMap (SignatureList.revocations e tbsCert)).head? with
    | none => exact .pure _
    | some t => exact .pure _

omit ideal in
theorem yields_emit (ev : Event) : Yields (·.globals = g) e (emit ev) () := fun _ inv => ⟨rfl, inv⟩

omit ideal in
theorem yields_record (f : Nat → Finding) : Yields (·.globals = g) e (record f) () := fun _ inv => ⟨rfl, inv⟩

omit ideal in
theorem yields_note (l : Lookup) (status : EfiStatus) : Yields (·.globals = g) e (note l status) () := by
  rw [note]
  split
  · exact .pure ()
  · exact yields_record _

theorem yields_lookUp (l : Lookup) (certificate : Bytes) (lists : List SignatureList) :
    Yields (·.globals = g) e (lookUp l certificate (lists.flatMap SignatureList.encode))
      (match e.x509GetTBSCert certificate with
        | none => (.aborted, none)
        | some tbsCert => (.success, (revocations e lists tbsCert).head?)) := by
  refine (yields_record _).bind ((yields_isCertHashFoundInDbx ideal certificate lists).bind ((yields_note _ _).bind ?_))
  exact .pure _

omit ideal in
theorem yields_matchDigest (v : Database) {s : Bytes} (len : s.length = ownerSize + g.mImageDigestSize) (tail : Bytes) :
    Yields (·.globals = g) e (matchDigest v g (ownerSize + g.mImageDigestSize) (s ++ tail))
      (if s.drop ownerSize = g.mImageDigest.take g.mImageDigestSize then some () else none) := by
  have data : slice ownerSize g.mImageDigestSize (s ++ tail) = s.drop ownerSize := by
    rw [slice_append_left _ len.ge, slice, take_of_length_le]
    rw [length_drop, len, Nat.add_sub_cancel_left]
  refine (yields_bytesAt (by rw [length_append]; omega) data).bind ?_
  by_cases same : s.drop ownerSize = g.mImageDigest.take g.mImageDigestSize
  · rw [if_pos same, if_neg (not_not.mpr same)]
    by_cases measured : v = .db
    · rw [if_pos measured]
      exact (yields_emit _).bind (.pure _)
    · rw [if_neg measured]
      exact .pure _
  · rw [if_neg same, if_pos same]
    exact .pure _

omit ideal in
theorem findSome?_ite {α : Type} (p : α → Bool) (l : List α) :
    (l.findSome? fun a => if p a then some () else none) = if l.any p then some () else none := by
  induction l with
  | nil => rfl
  | cons a l ih =>
    rw [List.findSome?_cons, any_cons]
    cases p a with
    | true => rfl
    | false => exact ih

omit ideal in
theorem yields_digestInList (v : Database) (full : (g.mImageDigest.take g.mImageDigestSize).length = g.mImageDigestSize)
    (l : SignatureList) (tail : Bytes) :
    Yields (·.globals = g) e (digestInList v g l.size (l.encode ++ tail))
      (if l.contains g.mCertType (g.mImageDigest.take g.mImageDigestSize) then some () else none) := by
  refine (yields_signatures l tail).bind ((yields_type l tail).bind ?_)
  by_cases fits : l.signatureSize = ownerSize + g.mImageDigestSize ∧ l.signatureType = g.mCertType
  · obtain ⟨size, type⟩ := fits
    rw [if_neg (by simp [size, type]), SignatureList.contains, decide_eq_true type, Bool.true_and, ← findSome?_ite]
    refine yields_visitEach l.signatures tail l.length_signature fun s mem tail => ?_
    rw [size]
    simpa only [decide_eq_true_eq] using yields_matchDigest v ((l.length_signature s mem).trans size) tail
  · have miss : ¬l.contains g.mCertType (g.mImageDigest.take g.mImageDigestSize) = true := by
      intro hit
      rw [SignatureList.contains, Bool.and_eq_true, decide_eq_true_eq, any_eq_true] at hit
      obtain ⟨type, s, mem, same⟩ := hit
      have len := congrArg List.length (of_decide_eq_true same)
      rw [length_drop, full, l.length_signature s mem] at len
      have owner := l.owner_le
      exact fits ⟨by omega, type⟩
    rw [if_pos (by rwa [not_and_or] at fits), if_neg miss]
    exact .pure none

theorem yields_isSignatureFoundInDatabase (v : Database)
    (full : (g.mImageDigest.take g.mImageDigestSize).length = g.mImageDigestSize) :
    Yields (·.globals = g) e (isSignatureFoundInDatabase v)
      (.success, contains (dbs.entries v) g.mCertType (g.mImageDigest.take g.mImageDigestSize)) := by
  refine (yields_getVariableSize ideal v).bind ?_
  rw [Databases.entries]
  cases exist : dbs.lists v with
  | none => exact .pure _
  | some lists =>
    refine (yields_getVariable ideal exist).bind (.get fun w same => ?_)
    rw [same]
    refine (yields_forLists lists (fun _ _ _ some => some) fun l _ tail => yields_digestInList v full l tail).bind ?_
    rw [findSome?_ite, Option.getD_some, contains]
    cases lists.any (SignatureList.contains g.mCertType (g.mImageDigest.take g.mImageDigestSize)) <;> exact .pure _

omit ideal in
theorem yields_checkTimestamp (authData : Bytes) (revocationTime : EfiTime) (rootCert : Bytes) :
    Yields (·.globals = g) e (checkTimestamp authData revocationTime rootCert)
      (if (e.imageTimestampVerify authData rootCert).any (isValidSignatureByTimestamp · revocationTime)
        then some () else none) := by
  refine (Yields.ask _).bind ?_
  cases e.imageTimestampVerify authData rootCert with
  | none => exact .pure _
  | some t => exact .pure _

omit ideal in
theorem any_trustedTimes (authData : Bytes) (p : EfiTime → Bool) : (trustedTimes e dbs authData).any p =
      (certificates (dbs.entries .dbt)).any fun cert => (e.imageTimestampVerify authData cert).any p := by
  rw [trustedTimes, any_filterMap]
  rfl

theorem yields_passTimestampCheck (authData : Bytes) (revocationTime : EfiTime) :
    Yields (·.globals = g) e (passTimestampCheck authData revocationTime) (passes e dbs authData revocationTime) := by
  rw [passTimestampCheck, passes]
  cases isTimeZero revocationTime with
  | true => exact .pure _
  | false =>
    refine (yields_getVariableSize ideal .dbt).bind ?_
    rw [any_trustedTimes, Databases.entries]
    cases exist : dbs.lists .dbt with
    | none => exact .pure _
    | some lists =>
      refine (yields_getVariable ideal exist).bind ?_
      refine (yields_forCerts lists fun _ cert => yields_checkTimestamp authData revocationTime cert).bind ?_
      rw [findSome?_ite, Option.getD_some]
      cases (certificates lists).any _ <;> exact .pure _

theorem yields_revokedSigner (authData : Bytes) {dbx : List SignatureList} (exist : dbs.lists .dbx = some dbx)
    (certs : List Bytes) (small : ∀ c ∈ certs, c.length < 2 ^ 32) :
    Yields (·.globals = g) e
      (revokedSigner authData (dbx.flatMap SignatureList.encode) certs.length
        (certs.flatMap fun c => leBytes 4 c.length ++ c))
      (certs.any (signerRevoked e dbs authData)) := by
  induction certs with
  | nil => exact .pure _
  | cons c certs ih =>
    rw [flatMap_cons, append_assoc, length_cons, revokedSigner, any_cons]
    -- As a name the memory is not computed when the programs are compared.
    generalize memory : leBytes 4 c.length ++ (c ++ certs.flatMap fun c => leBytes 4 c.length ++ c) = bytes
    have certSize : Yields (·.globals = g) e (natAt bytes 0 4) c.length := by
      rw [← memory]
      exact yields_number (at_middle [] _ _) (small c mem_cons_self)
    have cert : Yields (·.globals = g) e (bytesAt bytes 4 c.length) c := by
      rw [← memory]
      exact yields_bytesAt (by simp) (at_middle (leBytes 4 c.length) c _)
    have next : Yields (·.globals = g) e (revokedSigner authData (dbx.flatMap SignatureList.encode) certs.length
        (bytes.drop (4 + c.length))) (certs.any (signerRevoked e dbs authData)) := by
      rw [← memory, ← append_assoc, drop_left' (by simp)]
      exact ih fun c mem => small c (mem_cons_of_mem _ mem)
    refine certSize.bind (cert.bind ((yields_lookUp ideal _ c dbx).bind ?_))
    have entries : dbs.entries .dbx = dbx := by rw [Databases.entries, exist, Option.getD_some]
    rw [signerRevoked, entries]
    cases e.x509GetTBSCert c with
    | none => exact next
    | some tbsCert =>
      dsimp only
      cases (revocations e dbx tbsCert).head? with
      | none => exact next
      | some t =>
        refine (yields_passTimestampCheck ideal authData t).bind ?_
        rw [Option.any_some]
        cases passes e dbs authData t with
        | true => exact next
        | false => exact .pure true

theorem yields_isForbiddenByDbx (authData : Bytes) : Yields (·.globals = g) e (isForbiddenByDbx authData)
      (forbidden e dbs signers authData (g.mImageDigest.take g.mImageDigestSize)) := by
  refine (yields_getVariableSize ideal .dbx).bind ((yields_note _ _).bind ?_)
  rw [forbidden, Databases.entries]
  cases exist : dbs.lists .dbx with
  | none => exact .pure _
  | some dbx =>
    refine (yields_getVariable ideal exist).bind (.get fun w same => ?_)
    rw [same, Option.getD_some, Option.isSome_some, Bool.true_and]
    have verify : ∀ cert, Yields (·.globals = g) e
        (do if ← verifyWith authData cert g then return some () else return none : Verify (Option Unit))
        (if e.authenticodeVerify authData cert (g.mImageDigest.take g.mImageDigestSize) then some () else none) := by
      intro cert
      refine (Yields.ask _).bind ?_
      cases e.authenticodeVerify authData cert (g.mImageDigest.take g.mImageDigestSize) <;> exact .pure _
    refine (yields_forCerts dbx fun _ cert => verify cert).bind ?_
    rw [findSome?_ite]
    cases (certificates dbx).any (e.authenticodeVerify authData · (g.mImageDigest.take g.mImageDigestSize)) with
    | true => exact .pure true
    | false =>
      refine (Yields.ask _).bind ?_
      rw [ideal.stack]
      cases stack : signers authData with
      | nil => exact .pure true
      | cons c certs =>
        have few := ideal.signers_lt authData
        have small := ideal.signer_lt authData
        rw [stack] at few small
        have count : (UInt8.ofNat (c :: certs).length).toNat = (c :: certs).length := by simpa using few
        have some : UInt8.ofNat (c :: certs).length ≠ 0 := by
          intro zero
          rw [zero] at count
          cases count
        have loop := @yields_revokedSigner _ _ _ ideal g authData _ exist (c :: certs) small
        rw [← count] at loop
        rw [isEmpty_cons, Bool.or_self, Bool.false_or]
        simpa only [certStack, some, ↓reduceIte] using loop

theorem yields_fetchDbx :
    Yields (·.globals = g) e fetchDbx (.ok ((dbs.lists .dbx).map (·.flatMap SignatureList.encode))) := by
  refine (yields_record _).bind ((yields_getVariableSize ideal .dbx).bind ((yields_note _ _).bind ?_))
  cases exist : dbs.lists .dbx with
  | none => exact .pure _
  | some dbx => exact (yields_getVariable ideal exist).bind (.pure _)

theorem yields_isRootCertTrusted (authData cert : Bytes) : Yields (·.globals = g) e
      (isRootCertTrusted authData cert ((dbs.lists .dbx).map (·.flatMap SignatureList.encode)))
      (rootTrusted e dbs authData cert) := by
  rw [rootTrusted, signerRevoked, Databases.entries]
  cases dbs.lists .dbx with
  | none => exact .pure _
  | some dbx =>
    refine (yields_lookUp ideal _ cert dbx).bind ?_
    cases e.x509GetTBSCert cert with
    | none => exact .pure _
    | some tbsCert =>
      dsimp only [Option.getD_some]
      cases (revocations e dbx tbsCert).head? with
      | none => exact .pure _
      | some t => simpa using yields_passTimestampCheck ideal authData t

theorem yields_admitWith (authData entry cert : Bytes) : Yields (·.globals = g) e
      (admitWith authData ((dbs.lists .dbx).map (·.flatMap SignatureList.encode)) g entry cert)
      (if e.authenticodeVerify authData cert (g.mImageDigest.take g.mImageDigestSize)
        then some (rootTrusted e dbs authData cert) else none) := by
  refine (Yields.ask _).bind ?_
  cases e.authenticodeVerify authData cert (g.mImageDigest.take g.mImageDigestSize) with
  | false => exact .pure _
  | true =>
    refine (yields_isRootCertTrusted ideal authData cert).bind ?_
    cases rootTrusted e dbs authData cert with
    | false => exact .pure _
    | true => exact (yields_emit _).bind (.pure _)

omit ideal in
theorem findSome?_getD {α : Type} (p q : α → Bool) (l : List α) :
    (l.findSome? fun a => if p a then some (q a) else none).getD false = (l.find? p).any q := by
  induction l with
  | nil => rfl
  | cons a l ih =>
    rw [List.findSome?_cons, List.find?_cons]
    cases p a with
    | true => rfl
    | false => exact ih

theorem yields_isAllowedByDb (authData : Bytes) : Yields (·.globals = g) e (isAllowedByDb authData)
      (allowed e dbs authData (g.mImageDigest.take g.mImageDigestSize)) := by
  refine (yields_getVariableSize ideal .db).bind ?_
  rw [allowed, Databases.entries]
  cases exist : dbs.lists .db with
  | none => exact .pure _
  | some db =>
    refine (yields_getVariable ideal exist).bind ((yields_fetchDbx ideal).bind (.get fun w same => ?_))
    rw [same, Option.getD_some, ← findSome?_getD]
    exact (yields_forCerts db (yields_admitWith ideal authData)).bind (.pure _)

end Lookups

end LeoEdk.SecureBoot
