import LeoEdk.Theorems.ImageAdmission

/-!
What becomes of errors in the lookups of the forbidden database, for every pattern of failing calls.

The history of a run names each lookup of a certificate with the database and the number of calls made so far, from
which it can be told beforehand that the lookup will have an answer (`Finding.Met`). Where this holds of every lookup of
a certificate, the errors that are left are those of reading the database for a signature and of looking up digests, and
they refuse the image.
-/

set_option maxRecDepth 8000

namespace LeoEdk.SecureBoot

open Bytes Prog List

/-! ### The searches leave no findings -/

section Keeps

variable {e : Env} {R : World → World → Prop}

theorem same_attempt : Within (Same World.findings) e attempt :=
  .bind .get fun _ => .bind (.modify fun _ => rfl) fun _ => .ask _

theorem within_orFault [Std.Refl R] {α : Type} (o : Option α) : Within R e (orFault o) := by
  cases o with
  | none => exact .halt _
  | some a => exact .pure a

theorem same_emit (ev : Event) : Within (Same World.findings) e (emit ev) := .modify fun _ => rfl

theorem same_getVariableSize (v : Database) : Within (Same World.findings) e (getVariableSize v) := by
  refine same_attempt.bind fun _ => .ite (.pure _) (.bind (.ask _) fun data => ?_)
  split <;> exact .pure _

theorem same_getVariable (v : Database) : Within (Same World.findings) e (getVariable v) := by
  refine same_attempt.bind fun _ => .ite (.pure _)
    (same_attempt.bind fun _ => .ite (.pure _) (.bind (.ask _) fun data => ?_))
  split <;> exact .pure _

theorem within_signatures [Std.Refl R] [IsTrans World R] (listSize : Nat) (list : Bytes) :
    Within R e (signatures listSize list) :=
  .bind (within_orFault _) fun _ => .bind (within_orFault _) fun _ => .ite (.halt _) (.pure _)

theorem within_forLists [Std.Refl R] [IsTrans World R] {α : Type} {body : Nat → Bytes → Verify (Option α)}
    (bodies : ∀ n bs, Within R e (body n bs)) (bound : Nat → Nat) (data : Bytes) :
    Within R e (forLists bound body data) := by
  refine within_walk (fun bs left => ?_) bodies _ _ _ _
  exact .ite (.pure _) (.bind (within_orFault _) fun _ => .ite (.pure _) (.pure _))

theorem within_forCerts [Std.Refl R] [IsTrans World R] {α : Type} {body : Bytes → Bytes → Verify (Option α)}
    (bodies : ∀ entry cert, Within R e (body entry cert)) (data : Bytes) : Within R e (forCerts body data) := by
  refine within_forLists (fun n list => .bind (within_orFault _) fun type => .ite (.pure _) ?_) _ _
  refine .bind (within_signatures _ _) fun _ => within_visitEach (fun entry => ?_) _ _ _
  exact .ite (.pure _) (.bind (within_orFault _) fun _ => bodies _ _)

theorem same_isCertHashFoundInDbx (certificate dbx : Bytes) :
    Within (Same World.findings) e (isCertHashFoundInDbx certificate dbx) := by
  refine .option (.ask _) (.pure _) fun tbsCert => ?_
  refine .bind (within_forLists (fun n list => .bind (within_orFault _) fun type => ?_) _ _) fun _ => .pure _
  cases certHashAlg type with
  | none => exact .pure _
  | some alg =>
    refine same_attempt.bind fun _ => .ite (.pure _) (same_attempt.bind fun _ => .ite (.pure _)
      (same_attempt.bind fun _ => .ite (.pure _) (same_attempt.bind fun _ => .ite (.pure _) ?_)))
    refine .bind (.ask _) fun _ => .bind (within_signatures _ _) fun _ => within_visitEach (fun entry => ?_) _ _ _
    exact .bind (within_orFault _) fun _ => .ite (.pure _) (.bind (within_orFault _) fun _ => .pure _)

theorem same_isSignatureFoundInDatabase (v : Database) :
    Within (Same World.findings) e (isSignatureFoundInDatabase v) := by
  refine (same_getVariableSize v).bind fun status => .ite (.pure _)
    (.except (same_getVariable v) (fun _ => .pure _) fun data => ?_)
  refine .bind .get fun w => .bind (within_forLists (fun n list => ?_) _ _) fun _ => .pure _
  refine .bind (within_signatures _ _) fun _ => .bind (within_orFault _) fun _ => .ite (.pure _) ?_
  refine within_visitEach (fun entry => .bind (within_orFault _) fun _ => .ite (.pure _) ?_) _ _ _
  exact .ite (.bind (same_emit _) fun _ => .pure _) (.pure _)

theorem same_passTimestampCheck (authData : Bytes) (t : EfiTime) :
    Within (Same World.findings) e (passTimestampCheck authData t) := by
  refine .ite (.pure _) (.bind (same_getVariableSize _) fun _ => .ite (.pure _)
    (.except (same_getVariable _) (fun _ => .pure _) fun dbt => ?_))
  refine .bind (within_forCerts (fun _ cert => .bind (.ask _) fun signingTime => ?_) _) fun _ => .pure _
  cases signingTime with
  | none => exact .pure _
  | some t => exact .pure _

theorem computes_same : Computes fun _ m _ => Within (Same World.findings) e m where
  pure _ := .pure _
  orFault next := .bind (within_orFault _) next
  attempt next := same_attempt.bind fun _ => .ite (.pure _) next
  bind first stop next := .option first (stop ▸ .pure _) next

theorem same_hashPeImage (p : PeImage) (alg : HashAlg) : Within (Same World.findings) e (hashPeImage p alg) := by
  refine .bind (.modify fun _ => rfl) fun _ => .bind (.ask _) fun sha1Enabled => ?_
  cases imageCertType sha1Enabled alg with
  | none => exact .pure _
  | some certType =>
    refine .bind (.modify fun _ => rfl) fun _ => same_attempt.bind fun _ => .ite (.pure _) ?_
    refine same_attempt.bind fun _ => .ite (.pure _) (.option (computes_same.hashPeBytes p) (.pure _) fun bytes => ?_)
    refine same_attempt.bind fun _ => .ite (.pure _) (.bind (.ask _) fun digest => ?_)
    exact .bind (.modify fun _ => rfl) fun _ => .pure _

theorem same_hashPeImageByType (p : PeImage) (authData : Bytes) :
    Within (Same World.findings) e (hashPeImageByType p authData) := by
  rw [hashPeImageByType]
  cases digestAlg authData with
  | error => exact .pure _
  | ok alg => exact .bind (same_hashPeImage p alg) fun _ => .ite (.pure _) (.pure _)

end Keeps

/-! ### Lookups of certificates -/

/-- How many lists of certificate hashes a search of the database comes by. -/
def certHashLists (bound : Nat) : Nat → Bytes → Nat → Nat
  | 0, _, _ => 0
  | fuel + 1, list, left =>
    if left = 0 then 0
    else
      match field list 16 4 with
      | none => 0
      | some size =>
        if bound < size then 0
        else
          (if certHashAlg (list.take 16) = none then 0 else 1) + certHashLists bound fuel (list.drop size)
            (usub left size)

/-- The certificate can be taken apart, and none of the calls fails that make its hash for the lists of the database:
    an allocation and three operations for each of them. -/
def Answerable (e : Env) (cert dbx : Bytes) (calls : Nat) : Prop :=
  (e.x509GetTBSCert cert).isSome ∧
    ∀ k < 4 * certHashLists dbx.length (dbx.length + 1) dbx dbx.length, e.grants (calls + k) = true

instance (e : Env) (cert dbx : Bytes) (calls : Nat) : Decidable (Answerable e cert dbx calls) :=
  inferInstanceAs (Decidable (_ ∧ _))

/-- None of the calls fails that read the forbidden database: one for its size, and if there is something to read an
    allocation and the read. -/
def DbxReadable (e : Env) (calls : Nat) : Prop :=
  e.grants calls = true ∧ (((e.databases .dbx).getD []) ≠ [] → e.grants (calls + 1) = true ∧
    e.grants (calls + 2) = true)

instance (e : Env) (calls : Nat) : Decidable (DbxReadable e calls) := inferInstanceAs (Decidable (_ ∧ _))

/-- The lookup that is about to begin will have an answer. -/
def Finding.Met (e : Env) : Finding → Prop
  | lookup cert dbx calls => Answerable e cert dbx calls
  | fetch calls => DbxReadable e calls
  | unanswered _ => True

instance (e : Env) (f : Finding) : Decidable (f.Met e) :=
  match f with
  | .lookup cert dbx calls => inferInstanceAs (Decidable (Answerable e cert dbx calls))
  | .fetch calls => inferInstanceAs (Decidable (DbxReadable e calls))
  | .unanswered _ => inferInstanceAs (Decidable True)

section Lookups

variable {e : Env}

theorem wp_attempt_else {α : Type} {stop : α} {m : Verify α} {Q : α → World → Prop}
    {S : Halt → World → Prop} {w : World}
    (failed : e.grants w.calls = false → Q stop { w with calls := w.calls + 1 })
    (next : e.grants w.calls = true → wp m e Q S { w with calls := w.calls + 1 }) :
    wp (do if (← attempt) = false then return stop else m) e Q S w := by
  change wp (if e.grants w.calls = false then pure stop else m) e Q S { w with calls := w.calls + 1 }
  rw [wp_ite]
  split
  next off => exact failed off
  next on => exact next (Bool.eq_true_of_not_eq_false on)

theorem wp_visitEach_matchCertHash (alg : HashAlg) (digest : Bytes) (stride n : Nat) (entries : Bytes) (w : World) :
    wp (visitEach (matchCertHash alg digest) stride n entries) e
      (fun r w' => w' = w ∧ (r.getD (.success, none)).1 = .success) (fun _ _ => True) w := by
  induction n generalizing entries with
  | zero => exact ⟨rfl, rfl⟩
  | succ n ih =>
    rw [visitEach, wp_bind, matchCertHash, wp_bind]
    refine (within_orFault (R := Eq) _).wp ?_
    rintro hash _ rfl
    rw [wp_ite]
    split
    · exact ih _
    · rw [wp_bind]
      refine (within_orFault (R := Eq) _).wp ?_
      rintro time _ rfl
      exact ⟨rfl, rfl⟩

/-- One list: it has no certificate hashes and is passed by, or it takes four calls. -/
theorem wp_certHashInList (tbsCert : Bytes) (listSize : Nat) (list : Bytes) (w : World) :
    wp (certHashInList tbsCert listSize list) e (fun r w' =>
      certHashAlg (list.take 16) = none ∧ r = none ∧ w'.calls = w.calls ∨
        certHashAlg (list.take 16) ≠ none ∧ ((∀ k < 4, e.grants (w.calls + k) = true) →
          w'.calls = w.calls + 4 ∧ (r.getD (.success, none)).1 = .success)) (fun _ _ => True) w := by
  rw [certHashInList, wp_bind, bytesAt]
  cases bytes : slice? 0 16 list with
  | none => trivial
  | some type =>
    obtain ⟨-, rfl⟩ : 0 + 16 ≤ list.length ∧ list.take 16 = type := by simpa [slice?, slice] using bytes
    refine (wp_pure (list.take 16)).mpr ?_
    dsimp only
    cases certHashAlg (list.take 16) with
    | none => exact .inl ⟨rfl, rfl, rfl⟩
    | some alg =>
      have refused {k : Nat} {P : Prop} (lt : k < 4) (off : e.grants (w.calls + k) = false)
          (granted : ∀ k < 4, e.grants (w.calls + k) = true) : P := by
        rw [granted k lt] at off
        cases off
      dsimp only
      refine wp_attempt_else (fun off => .inr ⟨Option.some_ne_none alg, refused (k := 0) (by decide) off⟩) fun _ => ?_
      refine wp_attempt_else (fun off => .inr ⟨Option.some_ne_none alg, refused (k := 1) (by decide) off⟩) fun _ => ?_
      refine wp_attempt_else (fun off => .inr ⟨Option.some_ne_none alg, refused (k := 2) (by decide) off⟩) fun _ => ?_
      refine wp_attempt_else (fun off => .inr ⟨Option.some_ne_none alg, refused (k := 3) (by decide) off⟩) fun _ => ?_
      rw [wp_bind, wp_ask, wp_bind]
      refine (within_signatures (R := Eq) _ _).wp ?_
      rintro ⟨count, size, entries⟩ _ rfl
      refine wp_mono ?_ (fun _ _ _ => trivial) (wp_visitEach_matchCertHash alg _ size count entries _)
      rintro r _ ⟨rfl, success⟩
      exact .inr ⟨Option.some_ne_none alg, fun _ => ⟨rfl, success⟩⟩

/-- The search has an answer if the calls for the lists it comes by are granted. -/
theorem wp_walk_certHashInList (tbsCert : Bytes) (bound fuel : Nat) (list : Bytes) (left : Nat) (w : World) :
    wp (walk (nextList fun _ => bound) (certHashInList tbsCert) .hang fuel list left) e (fun r _ =>
      (∀ k < 4 * certHashLists bound fuel list left, e.grants (w.calls + k) = true) →
        (r.getD (.success, none)).1 = .success) (fun _ _ => True) w := by
  induction fuel generalizing list left w with
  | zero => trivial
  | succ fuel ih =>
    rw [walk, certHashLists, wp_bind, nextList, wp_ite]
    split
    · exact fun _ => rfl
    rw [natAt, wp_bind]
    cases size : field list 16 4 with
    | none => trivial
    | some listSize =>
      change wp (if bound < listSize then _ else _) e _ _ w
      rw [wp_ite]
      split
      · exact fun _ => rfl
      next fits =>
      rw [wp_pure]
      dsimp only
      rw [if_neg fits]
      refine wp_seq ?_ (wp_certHashInList tbsCert listSize list w)
      rintro r w₁ (⟨other, rfl, calls⟩ | ⟨hashes, answer⟩)
      · dsimp only
        rw [if_pos other, Nat.zero_add, wp_ite, ← calls]
        split
        · trivial
        · exact ih _ _ w₁
      · rw [if_neg hashes]
        have first (granted : ∀ k < 4 * (1 + certHashLists bound fuel (list.drop listSize) (usub left listSize)),
            e.grants (w.calls + k) = true) := answer fun k lt => granted k (by omega)
        cases r with
        | some a => exact fun granted => (first granted).2
        | none =>
          dsimp only
          rw [wp_ite]
          split
          · trivial
          · refine wp_mono (fun r _ success granted => success fun k lt => ?_) (fun _ _ _ => trivial) (ih _ _ w₁)
            rw [(first granted).1, Nat.add_assoc]
            exact granted (4 + k) (by omega)

theorem wp_isCertHashFoundInDbx (cert dbx : Bytes) (w : World) :
    wp (isCertHashFoundInDbx cert dbx) e (fun r _ => Answerable e cert dbx w.calls → r.1 = .success)
      (fun _ _ => True) w := by
  rw [isCertHashFoundInDbx, wp_bind, wp_ask]
  cases tbs : e.x509GetTBSCert cert with
  | none => exact fun answerable => by simp [Answerable, tbs] at answerable
  | some tbsCert =>
    refine wp_seq ?_ (wp_walk_certHashInList tbsCert dbx.length (dbx.length + 1) dbx dbx.length w)
    exact fun found _ success answerable => success answerable.2

theorem wp_note {Q : Unit → World → Prop} {S : Halt → World → Prop} {l : Lookup} {status : EfiStatus} {w : World}
    (answered : Q () w) (error : status ≠ .success → status ≠ .notFound → status ≠ .bufferTooSmall →
      Q () { w with findings := w.findings ++ [.unanswered l] }) : wp (note l status) e Q S w := by
  rw [note]
  split_ifs with good
  · exact answered
  · rw [not_or, not_or] at good
    exact error good.1 good.2.1 good.2.2

theorem wp_getVariableSize_dbx (w : World) : wp (getVariableSize .dbx) e (fun status w' =>
      (DbxReadable e w.calls → status = .success ∨ status = .notFound ∨ status = .bufferTooSmall) ∧
        (status = .bufferTooSmall → w'.calls = w.calls + 1 ∧ (e.databases .dbx).getD [] ≠ [])) (fun _ _ => True) w := by
  refine wp_attempt_else (fun off => ⟨fun readable => ?_, nofun⟩) fun _ => ?_
  · rw [readable.1] at off
    cases off
  rw [wp_bind, wp_ask]
  rcases e.databases .dbx with _ | _ | _
  · exact ⟨fun _ => .inr (.inl rfl), nofun⟩
  · exact ⟨fun _ => .inl rfl, nofun⟩
  · exact ⟨fun _ => .inr (.inr rfl), fun _ => ⟨rfl, by simp⟩⟩

theorem wp_getVariable_dbx (stored : (e.databases .dbx).getD [] ≠ []) (w : World) : wp (getVariable .dbx) e (fun r _ =>
      e.grants w.calls = true → e.grants (w.calls + 1) = true → ∃ data, r = .ok data) (fun _ _ => True) w := by
  refine wp_attempt_else (fun off on => ?_) fun _ => ?_
  · rw [on] at off
    cases off
  refine wp_attempt_else (fun off _ on => ?_) fun _ => ?_
  · rw [on] at off
    cases off
  rw [wp_bind, wp_ask]
  cases dbx : e.databases .dbx with
  | none => simp [dbx] at stored
  | some data => exact fun _ _ => ⟨data, rfl⟩

end Lookups

/-! ### Runs without an error -/

/-- If every lookup that is begun will have an answer, no lookup ends in an error. -/
def Clean (e : Env) (w w' : World) : Prop :=
  ∃ new, w'.findings = w.findings ++ new ∧ ((∀ f ∈ new, f.Met e) → ∀ l, .unanswered l ∉ new)

namespace Clean

variable {e : Env} {w w' w'' : World}

theorem of_eq (same : w'.findings = w.findings) : Clean e w w' := ⟨[], by rw [same, append_nil], fun _ _ => not_mem_nil⟩

instance : Std.Refl (Clean e) := ⟨fun _ => of_eq rfl⟩

theorem trans (first : Clean e w w') (next : Clean e w' w'') : Clean e w w'' := by
  obtain ⟨new, eq, clean⟩ := first
  obtain ⟨new', eq', clean'⟩ := next
  refine ⟨new ++ new', by rw [eq', eq, append_assoc], fun met l mem => ?_⟩
  rw [forall_mem_append] at met
  exact (mem_append.mp mem).elim (clean met.1 l) (clean' met.2 l)

instance : IsTrans World (Clean e) := ⟨fun _ _ _ => trans⟩

theorem of_same {α : Type} {m : Verify α} (same : Within (Same World.findings) e m) : Within (Clean e) e m :=
  same.mono fun _ _ => of_eq

/-- A lookup that begins with an entry in the history and may end with an error. -/
theorem of_begun {f : Finding} (begun : w'.findings = w.findings ++ [f]) (answered : ∀ l, f ≠ .unanswered l) :
    Clean e w w' := by
  refine ⟨[f], begun, fun _ l mem => answered l (mem_singleton.mp mem).symm⟩

theorem of_error {f : Finding} {l : Lookup} (begun : w'.findings = w.findings ++ [f, .unanswered l])
    (unmet : ¬f.Met e) : Clean e w w' :=
  ⟨_, begun, fun met => absurd (met f mem_cons_self) unmet⟩

end Clean

section Checks

variable {e : Env}

open Clean (of_same)

theorem clean_lookUp (l : Lookup) (cert dbx : Bytes) : Within (Clean e) e (lookUp l cert dbx) := by
  intro w
  rw [lookUp, wp_bind]
  refine wp_seq ?_ (wp_mono (fun _ _ => id) (fun _ w' same => ?_)
    ((same_isCertHashFoundInDbx cert dbx).wp_and (wp_isCertHashFoundInDbx cert dbx _)))
  · rintro ⟨status, found⟩ w₁ ⟨same, success⟩
    rw [wp_bind]
    refine wp_note ?_ fun bad _ _ => ?_
    · exact .of_begun same nofun
    · refine .of_error (f := .lookup cert dbx w.calls) (l := l) ?_ fun met => bad (success met)
      exact (congrArg (· ++ _) same).trans (append_assoc _ _ _)
  · exact .of_begun same nofun

theorem clean_fetchDbx : Within (Clean e) e fetchDbx := by
  intro w
  rw [fetchDbx, wp_bind]
  refine wp_seq ?_ (wp_mono (fun _ _ => id) (fun _ w' same => ?_)
    ((same_getVariableSize .dbx).wp_and (wp_getVariableSize_dbx _)))
  · rintro status w₁ ⟨same₁, read, stored⟩
    rw [wp_bind]
    refine wp_note ?_ fun bad missing small => ?_
    · rw [wp_ite]
      split
      · exact .of_begun same₁ nofun
      rw [wp_ite]
      split
      · exact .of_begun same₁ nofun
      next small =>
      obtain ⟨calls, stored⟩ := stored (not_not.mp small)
      refine wp_seq ?_ (wp_mono (fun _ _ => id) (fun _ w' same => ?_)
        ((same_getVariable .dbx).wp_and (wp_getVariable_dbx stored _)))
      · rintro result w₂ ⟨same₂, granted⟩
        cases result with
        | ok dbx => exact .of_begun (same₂.trans same₁) nofun
        | error status =>
          dsimp only
          rw [wp_bind]
          refine wp_note (.of_begun (same₂.trans same₁) nofun) fun _ _ _ => ?_
          refine .of_error (f := .fetch w.calls) (l := .root) ?_ fun met => ?_
          · exact (congrArg (· ++ _) (same₂.trans same₁)).trans (append_assoc _ _ _)
          · rw [calls] at granted
            obtain ⟨_, ⟨⟩⟩ := granted (met.2 stored).1 (met.2 stored).2
      · exact .of_begun (same.trans same₁) nofun
    · rw [if_neg missing, if_pos small]
      refine .of_error (f := .fetch w.calls) (l := .root) ?_ fun met => ?_
      · exact (congrArg (· ++ _) same₁).trans (append_assoc _ _ _)
      · exact (read met).elim bad (·.elim missing small)
  · exact .of_begun same nofun

theorem clean_revokedSigner (authData dbx : Bytes) (n : Nat) (certPtr : Bytes) :
    Within (Clean e) e (revokedSigner authData dbx n certPtr) := by
  induction n generalizing certPtr with
  | zero => exact .pure _
  | succ n ih =>
    refine .bind (within_orFault _) fun certSize => .bind (within_orFault _) fun cert => ?_
    refine .bind (clean_lookUp .signer cert dbx) fun ⟨status, found⟩ => ?_
    dsimp only
    refine .ite ?_ (ih _)
    cases found with
    | none => exact ih _
    | some t => exact .bind (of_same (same_passTimestampCheck authData t)) fun _ => .ite (.pure _) (ih _)

/-- A signature that is not forbidden is one without an error. -/
theorem wp_isForbiddenByDbx (authData : Bytes) (w : World) :
    wp (isForbiddenByDbx authData) e (fun b w' => b = true ∨ Clean e w w') (fun _ _ => True) w := by
  rw [isForbiddenByDbx, wp_bind]
  refine (same_getVariableSize _).wp fun status w₁ same₁ => ?_
  rw [wp_bind]
  refine wp_note ?_ fun _ missing small => ?_
  · by_cases read : status = .bufferTooSmall
    · rw [if_neg (not_not.mpr read), wp_bind]
      refine (same_getVariable _).wp fun data w₃ same₃ => ?_
      cases data with
      | error status =>
        dsimp only
        rw [wp_bind]
        exact wp_note (.inl rfl) fun _ _ _ => .inl rfl
      | ok dbx =>
        have bodies : ∀ g (entry cert : Bytes), Within (Same World.findings) e
            (do if ← verifyWith authData cert g then return some () else return none : Verify (Option Unit)) :=
          fun g entry cert => .bind (.ask _) fun _ => .ite (.pure _) (.pure _)
        dsimp only
        rw [wp_bind, wp_get, wp_bind]
        refine (within_forCerts (bodies _) dbx).wp fun verified w₄ same₄ => ?_
        cases verified with
        | some _ => exact .inl rfl
        | none =>
          rw [if_neg (by simp), wp_bind, wp_ask]
          cases e.pkcs7GetSigners authData with
          | nil => exact .inl rfl
          | cons certNumber certPtr =>
            dsimp only
            rw [wp_ite]
            split
            · exact .inl rfl
            · refine (clean_revokedSigner authData dbx _ certPtr).wp fun b w' clean => .inr ?_
              exact .trans (.of_eq (same₄.trans (same₃.trans same₁))) clean
    · rw [if_pos read]
      exact .inr (.of_eq same₁)
  · rw [if_pos small, wp_pure, decide_eq_true missing]
    exact .inl rfl

theorem clean_isRootCertTrusted (authData rootCert : Bytes) (dbx : Option Bytes) :
    Within (Clean e) e (isRootCertTrusted authData rootCert dbx) := by
  cases dbx with
  | none => exact .pure _
  | some dbx =>
    refine .bind (clean_lookUp .root rootCert dbx) fun ⟨status, found⟩ => .ite (.pure _) ?_
    cases found with
    | none => exact .pure _
    | some t => exact of_same (same_passTimestampCheck authData t)

theorem clean_isAllowedByDb (authData : Bytes) : Within (Clean e) e (isAllowedByDb authData) := by
  refine .bind (of_same (same_getVariableSize _)) fun status => .ite (.pure _) ?_
  refine .except (of_same (same_getVariable _)) (fun _ => .pure _) fun db => ?_
  refine .except clean_fetchDbx (fun _ => .pure _) fun dbx => ?_
  refine .bind .get fun w => .bind (within_forCerts (fun entry cert => ?_) _) fun _ => .pure _
  refine .bind (.ask _) fun verified => .ite (.pure _) ?_
  refine .bind (clean_isRootCertTrusted authData cert dbx) fun trusted => ?_
  exact .ite (.bind (of_same (same_emit _)) fun _ => .pure _) (.pure _)

theorem wp_verifyHash_findings (isVerified : Bool) (action : Action) (w : World) : wp (verifyHash isVerified action) e
      (fun r w' => r.1 = true ∧ r.2.isVerified = false ∨ r.1 = false ∧ w'.findings = w.findings)
        (fun _ _ => True) w := by
  rw [verifyHash, wp_bind]
  refine (same_isSignatureFoundInDatabase _).wp fun result w₁ same₁ => ?_
  obtain ⟨status, forbidden⟩ := result
  dsimp only
  rw [wp_bind]
  refine wp_note ?_ fun bad _ _ => ?_
  · by_cases refused : status ≠ .success ∨ forbidden = true
    · rw [if_pos refused]
      exact .inl ⟨rfl, rfl⟩
    · rw [if_neg refused]
      cases isVerified with
      | true => exact .inr ⟨rfl, same₁⟩
      | false =>
        rw [if_neg Bool.false_ne_true, wp_bind]
        refine (same_isSignatureFoundInDatabase _).wp fun result w₂ same₂ => ?_
        rw [wp_ite]
        split_ifs
        · exact .inr ⟨rfl, same₂.trans same₁⟩
        · exact .inr ⟨rfl, same₂.trans same₁⟩
  · rw [if_pos (.inl bad)]
    exact .inl ⟨rfl, rfl⟩

theorem wp_verifySignature_findings (p : PeImage) (authData : Bytes) (v : Verdict) (w : World) :
    wp (verifySignature p authData v) e
      (fun r w' => r.1 = true ∧ r.2.isVerified = false ∨ r.1 = false ∧ Clean e w w')
      (fun _ _ => True) w := by
  have hash : ∀ isVerified w', Clean e w w' → wp (verifyHash isVerified v.action) e
      (fun r w' => r.1 = true ∧ r.2.isVerified = false ∨ r.1 = false ∧ Clean e w w')
      (fun _ _ => True) w' := by
    intro isVerified w' clean
    refine wp_mono ?_ (fun _ _ _ => trivial) (wp_verifyHash_findings isVerified v.action w')
    rintro r w'' (refused | ⟨goes, same⟩)
    · exact .inl refused
    · exact .inr ⟨goes, clean.trans (.of_eq same)⟩
  rw [verifySignature, wp_bind]
  refine (same_hashPeImageByType p authData).wp fun status w₁ same₁ => ?_
  rw [wp_ite]
  split
  · exact .inr ⟨rfl, .of_eq same₁⟩
  refine wp_seq (fun forbidden w₂ passed => ?_) (wp_isForbiddenByDbx authData w₁)
  cases forbidden with
  | true => exact .inl ⟨rfl, rfl⟩
  | false =>
    have start : Clean e w w₂ := .trans (.of_eq same₁) (passed.resolve_left Bool.false_ne_true)
    rw [if_neg Bool.false_ne_true]
    cases v.isVerified with
    | true => exact hash true w₂ start
    | false =>
      rw [if_neg Bool.false_ne_true, wp_bind]
      exact (clean_isAllowedByDb authData).wp fun b w₃ more => hash b w₃ (start.trans more)

theorem wp_certificateLoop_findings (p : PeImage) (stop fuel ofs : Nat) (v : Verdict) (w : World) :
    wp (certificateLoop p stop fuel ofs v) e
      (fun r w' => r.2.isVerified = true → Clean e w w') (fun _ _ => True) w := by
  induction fuel generalizing ofs v w with
  | zero => trivial
  | succ fuel ih =>
    have stays : ∀ {w' : World}, Same World.findings w w' → v.isVerified = true → Clean e w w' :=
      fun same _ => .of_eq same
    rw [certificateLoop, wp_ite]
    split
    · exact stays rfl
    rw [wp_ite]
    split
    · exact stays rfl
    rw [wp_bind]
    refine (within_orFault _).wp fun dwLength w₁ (same₁ : Same World.findings w w₁) => ?_
    rw [wp_ite]
    split
    · exact stays same₁
    rw [wp_bind]
    refine (within_orFault _).wp fun cert w₂ (same₂ : Same World.findings w₁ w₂) => ?_
    have start : Clean e w w₂ := .of_eq (same₂.trans same₁)
    have next : ∀ v' w', Clean e w w' →
        wp (certificateLoop p stop fuel (ofs + (dwLength + alignSize dwLength)) v') e
          (fun r w' => r.2.isVerified = true → Clean e w w') (fun _ _ => True) w' := fun v' w' clean =>
      wp_mono (fun _ _ more verified => clean.trans (more verified)) (fun _ _ _ => trivial) (ih _ v' w')
    cases cert with
    | broken => exact fun _ => start
    | other => exact next v w₂ start
    | pkcs7 authData =>
      dsimp only
      refine wp_seq ?_ (wp_verifySignature_findings p authData v w₂)
      rintro ⟨ends, v'⟩ w₃ (⟨done, unverified⟩ | ⟨goes, clean⟩)
      · dsimp only at done unverified ⊢
        rw [if_pos done, wp_pure, unverified]
        exact fun verified => absurd verified Bool.false_ne_true
      · dsimp only at goes ⊢
        rw [if_neg (by rw [goes]; exact Bool.false_ne_true)]
        exact next v' w₃ (start.trans clean)

theorem wp_verifyDigests_findings (p : PeImage) (found : Bool) (algs : List HashAlg) (w : World) :
    wp (verifyDigests p found algs) e (fun r w' => r = some true → w'.findings = w.findings) (fun _ _ => True) w := by
  induction algs generalizing found w with
  | nil => exact fun _ => rfl
  | cons alg algs ih =>
    have next : ∀ found w', w'.findings = w.findings → wp (verifyDigests p found algs) e
        (fun r w' => r = some true → w'.findings = w.findings) (fun _ _ => True) w' := fun found w' same =>
      wp_mono (fun _ _ more verified => (more verified).trans same) (fun _ _ _ => trivial) (ih found w')
    rw [verifyDigests, wp_bind, wp_ask, wp_ite]
    split
    · exact next found w rfl
    rw [wp_bind]
    refine (same_hashPeImage p alg).wp fun hashed w₁ same₁ => ?_
    rw [wp_ite]
    split
    · exact next found w₁ same₁
    rw [wp_bind]
    refine (same_isSignatureFoundInDatabase _).wp fun result w₂ same₂ => ?_
    obtain ⟨status, forbidden⟩ := result
    dsimp only
    rw [wp_bind]
    refine wp_note ?_ fun bad _ _ => ?_
    · rw [wp_ite]
      split
      · simp
      rw [wp_bind]
      refine (same_isSignatureFoundInDatabase _).wp fun result w₃ same₃ => ?_
      exact next _ w₃ (same₃.trans (same₂.trans same₁))
    · rw [if_pos (.inl bad)]
      simp

theorem wp_handler_findings (w : World) :
    wp dxeImageVerificationHandler e (fun r w' => r = .success → Clean e w w') (fun _ _ => True) w := by
  have refused : ∀ {m : Verify EfiStatus} (w' : World), (∀ w, wp m e (fun r _ => r ≠ .success) (fun _ _ => False) w) →
      wp m e (fun r w' => r = .success → Clean e w w') (fun _ _ => True) w' := fun w' error =>
    wp_mono (fun _ _ bad good => absurd good bad) (fun _ _ _ => trivial) (error w')
  rw [dxeImageVerificationHandler, wp_bind, wp_ask, id_eq, wp_ite]
  split
  · exact fun _ => .of_eq rfl
  rw [wp_ite]
  split
  · simp
  rw [wp_ite]
  split
  · trivial
  rw [wp_ite]
  split
  · exact fun _ => .of_eq rfl
  rw [wp_ite]
  split
  · exact fun _ => .of_eq rfl
  cases e.fileBuffer with
  | none => simp
  | some img =>
    dsimp only
    rw [verifyImage, wp_bind, wp_ask, wp_ite]
    split
    · exact refused w (wp_failed _ _)
    rw [wp_bind]
    refine (within_orFault _).wp fun peOfs w₁ (same₁ : Same World.findings w w₁) => ?_
    rw [wp_bind]
    refine (within_orFault _).wp fun signature w₂ (same₂ : Same World.findings w₁ w₂) => ?_
    rw [wp_ite]
    split
    · exact refused w₂ (wp_failed _ _)
    rw [wp_bind]
    refine (within_orFault _).wp fun directory w₃ (same₃ : Same World.findings w₂ w₃) => ?_
    have start : w₃.findings = w.findings := same₃.trans (same₂.trans same₁)
    cases directory with
    | none =>
      dsimp only
      rw [verifyUnsigned]
      refine wp_seq (fun verdict w₄ same => ?_) (wp_verifyDigests_findings _ _ _ w₃)
      rcases verdict with _ | _ | _
      · exact refused w₄ (wp_failed _ _)
      · exact refused w₄ (wp_failed _ _)
      · exact fun _ => .of_eq ((same rfl).trans start)
    | some entry =>
      obtain ⟨virtualAddress, size⟩ := entry
      dsimp only
      rw [verifySigned]
      refine wp_seq ?_ (wp_certificateLoop_findings _ _ _ _ _ w₃)
      rintro ⟨ofs, v⟩ w₄ clean
      dsimp only at clean ⊢
      rw [wp_ite]
      split_ifs with verified
      · exact fun _ => .trans (.of_eq start) (clean verified.1)
      · exact refused w₄ (wp_refuseSigned _)

end Checks

/-! ### Errors and the verdict -/

def added (w w' : World) : List Finding := w'.findings.drop w.findings.length

/-- An error in the lookup of a signer forbids the signature, and no image is admitted after an error in any lookup. -/
structure FailsClosed (e : Env) : Prop where
  signer : ∀ authData w b w', isForbiddenByDbx authData e w = (.ok b, w') → .unanswered .signer ∈ added w w' → b = true
  success : ∀ w w', dxeImageVerificationHandler e w = (.ok .success, w') → ∀ l, .unanswered l ∉ added w w'

section Errors

variable {e : Env}

theorem added_eq {w w' : World} {new : List Finding} (eq : w'.findings = w.findings ++ new) : added w w' = new := by
  rw [added, eq, drop_left]

theorem unanswered_notMem {w w' : World} (clean : Clean e w w') (met : ∀ f ∈ added w w', f.Met e) (l : Lookup) :
    .unanswered l ∉ added w w' := by
  obtain ⟨new, eq, sound⟩ := clean
  rw [added_eq eq] at met ⊢
  exact sound met l

end Errors

/-! ### A failing allocation -/

def certHashList : SignatureList where
  signatureType := certX509Sha256Guid
  header := []
  signatureSize := 64
  signatures := [List.replicate 64 0]
  length_type := by decide
  length_signature := by decide
  owner_le := by decide
  size_lt := by decide
  fits := by decide
  size_certHash alg type := by cases alg <;> first | rfl | cases type

def failingEnv (n : Nat) : Env := { sampleEnv (some certHashList) with grants := fun k => k ≠ n }

/-! ### Failing closed -/

end LeoEdk.SecureBoot
