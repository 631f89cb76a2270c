import LeoEdk.Sbc.Fsbl
import LeoEdk.Theorems.Transfers

/-! The chain of trust of FSBL: what must have returned `SBCOK` when `UefiMain` starts SSBL. One lemma for each step
    gives its log and its outcome from the answers of the environment; `uefiMain_logged` puts them together. -/

namespace LeoEdk.Sbc.Fsbl

open Bytes Prog

/-- The length the loader and the verifier work with: the stored length of the bank's SSBL, in whole blocks. -/
@[irreducible] def ssblLen (d : Store) (bank : Nat) : Nat :=
  alignValue (leNat (d.read (ssblStartLba bank * rawprtDfltBlkSz) 4)) rawprtDfltBlkSz

structure Verifies (e : Env) (d : Store) (bank : Nat) : Prop where
  header : e.granted .ssblVerifyHeader = true
  pool : e.granted .ssblVerifyPool = true
  length : ssblLen d bank ≠ 0
  image : e.granted .ssblVerifyImage = true

/-- The loader has the SSBL of the bank in memory. -/
structure Reads (e : Env) (d : Store) (bank : Nat) : Prop where
  inRange : 0 < bank ∧ bank < 3
  header : e.granted .bootHeader = true
  pool : e.granted .bootPool = true
  length : ssblLen d bank ≠ 0
  image : e.granted .bootImage = true

/-- The loader gets as far as starting SSBL: a file system has taken the file. -/
structure Loads (e : Env) (d : Store) (bank : Nat) : Prop extends Reads e d bank where
  file : ∃ i < e.fileSystems, (e.writeFile i).taken = true

theorem ssblLen_ge {d : Store} {bank : Nat} (length : ssblLen d bank ≠ 0) : rawprtDfltBlkSz ≤ ssblLen d bank := by
  rw [ssblLen, alignValue, rawprtDfltBlkSz] at *
  omega

theorem slice_header (d : Store) (ofs : Nat) : slice 0 4 (d.read ofs rawprtDfltBlkSz) = d.read ofs 4 :=
  Store.slice_read d ofs rawprtDfltBlkSz 0 4 (by decide)

section Rules

variable {e : Env} {w : World} {h : Handle} {bank : Nat} {R : Halt → World → Prop}

theorem wp_ssblVerify {Q : Status → World → Prop}
    (ret : ∀ st evs, Quiet evs → (st = .ok ↔ Verifies e (w.disk h) bank) → Q st (w.note evs)) :
    wp (ssblVerify (some h) bank) e Q R w := by
  simp only [ssblVerify, wp_bind, wp_rawPrtReadBlock_some, if_neg blkSz_ne_zero, wp_ite, wp_pure, wp_granted,
    slice_header, World.note_note, ne_eq, not_true_eq_false, reduceCtorEq, not_false_eq_true, ↓reduceIte,
    Bool.not_eq_true']
  rw [← ssblLen]
  split_ifs with header pool length image
  · exact ret _ _ (by simp [Event.isTransfer]) ⟨by simp, fun v => absurd v.pool (by simp [pool])⟩
  · exact ret _ _ (by simp [Event.isTransfer]) ⟨by simp, fun v => absurd length v.length⟩
  · exact ret _ _ (by simp [Event.isTransfer])
      ⟨fun _ => ⟨header, by simpa using pool, length, image⟩, fun _ => rfl⟩
  · exact ret _ _ (by simp [Event.isTransfer]) ⟨by simp, fun v => absurd v.image image⟩
  · exact ret _ _ (by simp [Event.isTransfer]) ⟨by simp, fun v => absurd v.header header⟩

/-- The lengths with which `SBC_WriteFile` is called on the file systems, up to the first that takes the file. -/
def lengths (e : Env) : List Nat → Nat → List Nat
  | [], _ => []
  | fs :: rest, length =>
    length :: if (e.writeFile fs).taken then [] else lengths e rest ((e.writeFile fs).left length)

def fileEvents (e : Env) (value : Bytes) (systems : List Nat) (length : Nat) : List Event :=
  (lengths e systems length).map fun n => .writeFile (value.take n)

theorem quiet_fileEvents (value : Bytes) (systems : List Nat) (length : Nat) :
    Quiet (fileEvents e value systems length) := by
  simp [Quiet, fileEvents, Event.isTransfer]

theorem wp_writeSsblFile {value : Bytes} {systems : List Nat} {length : Nat} {Q : Bool → World → Prop}
    (next : ∀ w', w'.log = w.log ++ fileEvents e value systems length →
      Q (systems.any fun fs => (e.writeFile fs).taken) w') :
    wp (writeSsblFile value systems length) e Q R w := by
  induction systems generalizing w length with
  | nil => exact next w (List.append_nil _).symm
  | cons fs rest ih =>
    simp only [writeSsblFile, writeFile, wp_bind, wp_emit, wp_ask, wp_modify, wp_pure, wp_ite]
    by_cases taken : (e.writeFile fs).taken = true
    · rw [if_pos taken]
      simp only [List.any_cons, taken, Bool.true_or] at next
      exact next _ (by simp [fileEvents, lengths, taken])
    · rw [if_neg taken]
      simp only [List.any_cons, taken, Bool.false_or] at next
      exact ih fun w' log => next w' (by rw [log]; simp [fileEvents, lengths, taken])

/-- What follows the call that starts SSBL. -/
def startEvents (e : Env) : List Event :=
  match findFile e.ssblFile e.fileSystems with
  | none => [.returned .ssblLoadAndStart .fail]
  | some image => [.startImage image, .returned .ssblLoadAndStart .ok]

theorem startSsbl_notMem_startEvents : Event.startSsbl ∉ startEvents e := by
  unfold startEvents
  split <;> simp

theorem wp_ssblLoadAndStart {Q : Status → World → Prop}
    (next : ∀ st, Q st (w.note (.startSsbl :: startEvents e))) : wp ssblLoadAndStart e Q R w := by
  simp only [ssblLoadAndStart, wp_bind, wp_emit, wp_traced, wp_ask]
  unfold startEvents at next
  split at next
  next none => simpa [none] using next .fail
  next image found => simpa [found] using next .ok

theorem wp_writeAndStart {wrlv : Bytes} {Q : Status → World → Prop}
    (start : (∃ i < e.fileSystems, (e.writeFile i).taken = true) → ∀ st w', w'.log = w.log ++
      (fileEvents e wrlv (List.range e.fileSystems) wrlv.length ++ .startSsbl :: startEvents e) → Q st w')
    (stop : ¬(∃ i < e.fileSystems, (e.writeFile i).taken = true) → ∀ st w', w'.log = w.log ++
      fileEvents e wrlv (List.range e.fileSystems) wrlv.length → Q st w') : wp (writeAndStart wrlv) e Q R w := by
  rw [writeAndStart, wp_bind, wp_ask, wp_ite]
  split
  next none =>
    refine stop (fun ⟨i, lt, _⟩ => by omega) _ w ?_
    rw [none]
    exact (List.append_nil _).symm
  next =>
    rw [wp_bind]
    refine wp_writeSsblFile fun w' log => ?_
    have some_ : ((List.range e.fileSystems).any fun fs => (e.writeFile fs).taken) = true ↔
        ∃ i < e.fileSystems, (e.writeFile i).taken = true := by simp
    rw [wp_ite]
    split
    next none => exact stop (fun taken => by simp [some_.mpr taken] at none) _ w' log
    next taken =>
      refine wp_ssblLoadAndStart fun st => start (some_.mp (by simpa using taken)) st _ ?_
      rw [World.note_log, log, List.append_assoc]

/-- The reads of the loader, and what it does once they have succeeded. -/
theorem wp_bootModeNormalAndpUdate {Q : Status → World → Prop}
    (read : Reads e (w.disk h) bank → wp (writeAndStart
        ((w.disk h).read (ssblStartLba bank * rawprtDfltBlkSz + 4) (ssblLen (w.disk h) bank - 4))) e Q R
      (w.note [.readBlocks (ssblStartLba bank) rawprtDfltBlkSz, .readBlocks (ssblStartLba bank)
        (ssblLen (w.disk h) bank)]))
    (stop : ¬Reads e (w.disk h) bank → ∀ st lens, (lens = [] → ¬(0 < bank ∧ bank < 3)) →
      Q st (w.note (lens.map (.readBlocks (ssblStartLba bank))))) :
    wp (bootModeNormalAndpUdate (some h) bank) e Q R w := by
  simp only [bootModeNormalAndpUdate, wp_bind, wp_rawPrtReadBlock_some, if_neg blkSz_ne_zero, wp_ite, wp_pure,
    wp_granted, slice_header, World.note_note, ne_eq, not_true_eq_false, reduceCtorEq, not_false_eq_true, ↓reduceIte,
    Bool.not_eq_true']
  rw [← ssblLen]
  split_ifs with range header pool length image
  · exact stop (fun l => absurd l.pool (by simp [pool])) _ [_] (absurd · (List.cons_ne_nil _ _))
  · exact stop (fun l => absurd length l.length) _ [_] (absurd · (List.cons_ne_nil _ _))
  · have blocks : rawprtDfltBlkSz ≤ ssblLen (w.disk h) bank := ssblLen_ge length
    have data : slice 4 (ssblLen (w.disk h) bank - 4)
        ((w.disk h).read (ssblStartLba bank * rawprtDfltBlkSz) (ssblLen (w.disk h) bank)) =
        (w.disk h).read (ssblStartLba bank * rawprtDfltBlkSz + 4) (ssblLen (w.disk h) bank - 4) := by
      rw [rawprtDfltBlkSz] at blocks
      exact Store.slice_read _ _ _ _ _ (by omega)
    rw [World.note_disk, data]
    exact read ⟨range, header, by simpa using pool, length, image⟩
  · exact stop (fun l => absurd l.image image) _ [_, _] (absurd · (List.cons_ne_nil _ _))
  · exact stop (fun l => absurd l.header header) _ [_] (absurd · (List.cons_ne_nil _ _))
  · exact w.note_nil ▸ stop (fun l => range l.inRange) _ [] fun _ => range

theorem quiet_reads (lens : List Nat) : Quiet (lens.map (Event.readBlocks (ssblStartLba bank))) := by
  simp [Quiet, Event.isTransfer]

/-- The events of the loader, as far as they matter to the chain of trust. -/
theorem wp_bootModeNormalAndpUdate_starts {Q : Status → World → Prop}
    (start : Loads e (w.disk h) bank → ∀ evs st w', Quiet evs →
      w'.log = w.log ++ (evs ++ .startSsbl :: startEvents e) → Q st w')
    (stop : ¬Loads e (w.disk h) bank → ∀ st evs w', Quiet evs → w'.log = w.log ++ evs → Q st w') :
    wp (bootModeNormalAndpUdate (some h) bank) e Q R w := by
  refine wp_bootModeNormalAndpUdate (fun reads => ?_) fun unread st lens _ => ?_
  · refine wp_writeAndStart (fun file st w' log => ?_) fun no st w' log => ?_
    · rw [World.note_log, List.append_assoc, ← List.append_assoc [_, _]] at log
      refine start ⟨reads, file⟩ _ st w' ?_ log
      exact (quiet_append _ _).mpr ⟨quiet_reads [_, _], quiet_fileEvents _ _ _⟩
    · rw [World.note_log, List.append_assoc] at log
      refine stop (fun loads => no loads.file) st _ w' ?_ log
      exact (quiet_append _ _).mpr ⟨quiet_reads [_, _], quiet_fileEvents _ _ _⟩
  · exact stop (fun loads => unread loads.toReads) st _ _ (quiet_reads lens) rfl

def Starts (bank : Nat) (deckey : IdKey) (vst : Status) (evs : List Event) : Prop :=
  ∃ q q' post, Quiet q ∧ Quiet q' ∧ Event.startSsbl ∉ post ∧
    evs = q ++ .returned (.ssblVerify bank) vst :: .returned (.deviceIdKyeVerify deckey) .ok :: (q' ++
      .startSsbl :: post)

theorem wp_verifyAndBoot {deckey : IdKey} {Q : MainState → World → Prop}
    (start : e.outcome (.deviceIdKyeVerify deckey) = .ok → Loads e (w.disk h) bank → ∀ vst st evs w',
      (vst = .ok ↔ Verifies e (w.disk h) bank) → Starts bank deckey vst evs → w'.log = w.log ++ evs → Q st w')
    (stop : ¬(e.outcome (.deviceIdKyeVerify deckey) = .ok ∧ Loads e (w.disk h) bank) →
      ∀ st evs w', Event.startSsbl ∉ evs → w'.log = w.log ++ evs → Q st w') :
    wp (verifyAndBoot (some h) bank deckey) e Q R w := by
  simp only [verifyAndBoot, wp_bind, wp_traced, wp_step, wp_ite, wp_pure]
  refine wp_ssblVerify fun vst q quiet verified => ?_
  by_cases devid : e.outcome (.deviceIdKyeVerify deckey) = .ok
  · rw [if_neg (not_not.mpr devid), World.note_note, World.note_note]
    refine wp_bootModeNormalAndpUdate_starts (fun loads q' st w' quiet' log => ?_) (fun loads st q' w' quiet' log => ?_)
    · have starts := start devid loads vst
      rw [World.note_log, List.append_assoc] at log
      split_ifs <;> exact starts _ _ w' verified ⟨q, q', startEvents e, quiet, quiet', startSsbl_notMem_startEvents,
        by simp [devid]⟩ log
    · have stops := stop (fun both => loads both.2)
      rw [World.note_log, List.append_assoc] at log
      split_ifs <;> exact stops _ _ w' (by simp [quiet.startSsbl_notMem, quiet'.startSsbl_notMem]) log
  · rw [if_pos devid, World.note_note, World.note_note]
    exact stop (fun both => devid both.1) _ _ _ (by simp [quiet.startSsbl_notMem]) rfl

theorem wp_verifyAndBoot_none {deckey : IdKey} {Q : MainState → World → Prop}
    (stop : ∀ st evs, Event.startSsbl ∉ evs → Q st (w.note evs)) :
    wp (verifyAndBoot none bank deckey) e Q R w := by
  simp only [verifyAndBoot, ssblVerify, bootModeNormalAndpUdate, wp_bind, wp_traced, wp_step, wp_ite, wp_pure,
    wp_rawPrtReadBlock_none, World.note_note, ne_eq, reduceCtorEq, not_false_eq_true, ↓reduceIte]
  split_ifs <;> exact stop _ _ (by simp)

end Rules

/-! ### `UefiMain` -/

/-- The bank the three modes boot from, and the key its device-id certificate is decrypted with. -/
def bankToBoot (hdr : RawprtHdr) : Option (Nat × IdKey) :=
  match BootMode.ofCode hdr.bootmode.toNat with
  | some .normal => some (currbankId hdr.bootpres, .osid)
  | some .update => some (currbankId hdr.bootpres, .migid)
  | some .recovery => some (findPreviouslyBank (currbankId hdr.bootpres), .migid)
  | _ => none

theorem findPreviouslyBank_pos (bank : Nat) : ¬findPreviouslyBank bank < 1 := by
  unfold findPreviouslyBank
  split <;> decide

theorem wp_uefiMainBody {e : Env} {w : World} {blkio : Option Handle} {hdr : RawprtHdr} {bank : Nat} {deckey : IdKey}
    {Q : MainState → World → Prop} {R : Halt → World → Prop} (plan : bankToBoot hdr = some (bank, deckey))
    (go : e.outcome .fsblVerify = .ok → e.outcome .diceKeysGen = .ok →
      wp (verifyAndBoot blkio bank deckey) e Q R (w.note [.returned .fsblVerify .ok, .returned .diceKeysGen .ok]))
    (stop : ¬(e.outcome .fsblVerify = .ok ∧ e.outcome .diceKeysGen = .ok) →
      ∀ st evs, Event.startSsbl ∉ evs → Q st (w.note evs)) :
    wp (uefiMainBody blkio hdr) e Q R w := by
  simp only [uefiMainBody, wp_bind, wp_step, wp_ite, wp_pure, World.note_note, if_neg (findPreviouslyBank_pos _)]
  by_cases fsbl : e.outcome .fsblVerify = .ok
  · rw [if_neg (not_not.mpr fsbl)]
    by_cases dice : e.outcome .diceKeysGen = .ok
    · rw [if_neg (not_not.mpr dice), fsbl, dice]
      have branch := go fsbl dice
      unfold bankToBoot at plan
      split at plan <;> simp_all
    · rw [if_pos dice]
      exact stop (fun both => dice both.2) _ _ (by simp)
  · rw [if_pos fsbl]
    exact stop (fun both => fsbl both.1) _ _ (by simp)

/-- The inputs with which `UefiMain` gets as far as starting the SSBL of `bank`. -/
structure ReachesStart (e : Env) (disk : Handle → Store) (h : Handle) (bank : Nat) (deckey : IdKey) : Prop where
  device : (blkIoScan disk e.devices 0 .zero).2.1 = some h
  plan : bankToBoot (blkIoScan disk e.devices 0 .zero).2.2 = some (bank, deckey)
  fsblVerify : e.outcome .fsblVerify = .ok
  diceKeysGen : e.outcome .diceKeysGen = .ok
  deviceIdKyeVerify : e.outcome (.deviceIdKyeVerify deckey) = .ok
  loads : Loads e (disk h) bank

theorem bankToBoot_ne_factory {hdr : RawprtHdr} {plan : Nat × IdKey} (h : bankToBoot hdr = some plan) :
    BootMode.ofCode hdr.bootmode.toNat ≠ some .factory := by
  intro factory
  simp [bankToBoot, factory] at h

def Logged (e : Env) (disk : Handle → Store) (bank : Nat) (deckey : IdKey) (log : List Event) : Prop :=
  (∃ h vst evs, ReachesStart e disk h bank deckey ∧ (vst = .ok ↔ Verifies e (disk h) bank) ∧
    Starts bank deckey vst evs ∧ log = .returned .fsblVerify .ok :: .returned .diceKeysGen .ok :: evs) ∨
  (∀ h, ¬ReachesStart e disk h bank deckey) ∧ Event.startSsbl ∉ log

theorem uefiMain_logged {e : Env} {disk : Handle → Store} {bank : Nat} {deckey : IdKey}
    (plan : bankToBoot (blkIoScan disk e.devices 0 .zero).2.2 = some (bank, deckey)) :
    Logged e disk bank deckey (uefiMain.final e ⟨disk, []⟩).log := by
  refine (wp_final (P := fun w : World => Logged e disk bank deckey w.log)).mp ?_
  simp only [uefiMain, blkIoHandleInit, wp_bind, wp_ask, wp_get, wp_pure, wp_ite]
  obtain ⟨st, blkio, hdr, scan⟩ : ∃ st blkio hdr, blkIoScan disk e.devices 0 .zero = (st, blkio, hdr) := ⟨_, _, _, rfl⟩
  have device : (blkIoScan disk e.devices 0 .zero).2.1 = blkio := by rw [scan]
  rw [scan] at plan ⊢
  refine wp_uefiMainBody plan (fun fsbl dice => ?_) (fun failed ms evs quiet => ?_)
  · cases blkio with
    | none =>
      refine wp_verifyAndBoot_none fun ms evs quiet => ?_
      rw [if_neg (fun both => bankToBoot_ne_factory plan both.1)]
      exact .inr ⟨fun h r => by simp [r.device] at device, by simpa using quiet⟩
    | some h =>
      refine wp_verifyAndBoot (fun devid loads vst ms evs w' verified starts log => ?_)
        (fun failed ms evs w' quiet log => ?_)
      · rw [if_neg (fun both => bankToBoot_ne_factory plan both.1)]
        exact .inl ⟨h, vst, evs, ⟨device, scan ▸ plan, fsbl, dice, devid, loads⟩, verified, starts, log⟩
      · rw [if_neg (fun both => bankToBoot_ne_factory plan both.1)]
        refine .inr ⟨fun h' r => failed ⟨r.deviceIdKyeVerify, ?_⟩, by rw [log]; simpa using quiet⟩
        obtain rfl : h' = h := Option.some_inj.mp (r.device.symm.trans device)
        exact r.loads
  · rw [if_neg (fun both => bankToBoot_ne_factory plan both.1)]
    exact .inr ⟨fun h r => failed ⟨r.fsblVerify, r.diceKeysGen⟩, by simpa using quiet⟩

/-- When one of the three modes starts SSBL, all four checks have returned `SBCOK` before. -/
def ChainOfTrust (e : Env) (disk : Handle → Store) : Prop :=
  ∀ bank deckey, bankToBoot (blkIoScan disk e.devices 0 .zero).2.2 = some (bank, deckey) →
    ∀ pre post, (uefiMain.final e ⟨disk, []⟩).log = pre ++ .startSsbl :: post →
      .returned .fsblVerify .ok ∈ pre ∧ .returned .diceKeysGen .ok ∈ pre ∧ .returned (.ssblVerify bank) .ok ∈ pre ∧
        .returned (.deviceIdKyeVerify deckey) .ok ∈ pre

theorem Starts.split {bank : Nat} {deckey : IdKey} {vst : Status} {evs : List Event} (s : Starts bank deckey vst evs) :
    ∃ pre post, evs = pre ++ .startSsbl :: post ∧ Event.startSsbl ∉ pre ∧ Event.startSsbl ∉ post ∧
      .returned (.deviceIdKyeVerify deckey) .ok ∈ pre ∧ ∀ st, .returned (.ssblVerify bank) st ∈ pre ↔ st = vst := by
  obtain ⟨q, q', post, quiet, quiet', last, rfl⟩ := s
  refine ⟨q ++ .returned (.ssblVerify bank) vst :: .returned (.deviceIdKyeVerify deckey) .ok :: q', post, by simp, ?_⟩
  simp [quiet.startSsbl_notMem, quiet'.startSsbl_notMem, quiet.returned_notMem, quiet'.returned_notMem, last]

theorem not_chainOfTrust {e : Env} {disk : Handle → Store} {h : Handle} {bank : Nat} {deckey : IdKey}
    (reaches : ReachesStart e disk h bank deckey) (unverified : ¬Verifies e (disk h) bank) : ¬ChainOfTrust e disk := by
  intro chain
  rcases uefiMain_logged reaches.plan with ⟨h', vst, evs, reaches', verified, starts, log⟩ | ⟨none, -⟩
  · obtain ⟨pre, post, rfl, -, -, -, verdict⟩ := starts.split
    obtain rfl : h' = h := Option.some_inj.mp (reaches'.device.symm.trans reaches.device)
    obtain ⟨-, -, ssbl, -⟩ := chain bank deckey reaches.plan
      (.returned .fsblVerify .ok :: .returned .diceKeysGen .ok :: pre)
      post (by rw [log]; rfl)
    have ok : Status.ok = vst := (verdict .ok).mp (by simpa using ssbl)
    exact unverified (verified.mp ok.symm)
  · exact none h reaches

def normalDisk : Store := (Store.ofBytes (headerBytes 1 1)).write 0x400200 (leBytes 4 508)

/-- The first block read of `SBC_SSBL_Verify` fails, the loader's own read of that block succeeds, and SSBL starts. -/
theorem starts_unverified_ssbl : ¬ChainOfTrust (Env.refusing [.ssblVerifyHeader]) (fun _ => normalDisk) := by
  have reaches : ReachesStart (Env.refusing [.ssblVerifyHeader]) (fun _ => normalDisk) 0 1 .osid := {
    device := by decide
    plan := by decide
    fsblVerify := rfl
    diceKeysGen := rfl
    deviceIdKyeVerify := rfl
    loads := ⟨⟨by decide, rfl, rfl, by decide +kernel, rfl⟩, 0, by decide, rfl⟩ }
  exact not_chainOfTrust reaches fun verifies => absurd verifies.header (by decide)

/-- The exact condition: every run that would get as far as starting SSBL finds, in `SBC_SSBL_Verify`, its two block
    reads and its allocation granted and a stored length that is not zero. -/
theorem ssblStart_trusted_iff (e : Env) (disk : Handle → Store) :
    ChainOfTrust e disk ↔ ∀ h bank deckey, ReachesStart e disk h bank deckey → Verifies e (disk h) bank := by
  constructor
  · intro chain h bank deckey reaches
    by_contra unverified
    exact not_chainOfTrust reaches unverified chain
  · intro verifies bank deckey plan pre post split
    rcases uefiMain_logged plan with ⟨h, vst, evs, reaches, verified, starts, log⟩ | ⟨-, silent⟩
    · obtain ⟨pre', post', rfl, noPre, noPost, devid, verdict⟩ := starts.split
      have prefixEq : .returned .fsblVerify .ok :: .returned .diceKeysGen .ok :: pre' = pre := by
        have same := log.symm.trans split
        rw [← List.cons_append, ← List.cons_append] at same
        exact ((List.append_cons_inj_of_notMem (by simpa using noPre) noPost).mp same).1
      have ssbl := (verdict .ok).mpr (verified.mpr (verifies h bank deckey reaches)).symm
      subst prefixEq
      exact ⟨by simp, by simp, by simp [ssbl], by simp [devid]⟩
    · exact absurd (by simp [split]) silent

end LeoEdk.Sbc.Fsbl
