import LeoEdk.Lib.Digest
import LeoEdk.Sbc.AntiTampering

/-! What the DICE identities bind: the first 32 bytes of the FSBL, nothing of the SSBL, and the kernel in full. A run
    is reduced to the messages that it hashes, no two of which collide. -/

set_option maxRecDepth 8000

namespace LeoEdk.Sbc

open Bytes Prog

@[simp] theorem wp_hashCompute {e : Env} {w : World} {R : Halt → World → Prop} (message : Bytes)
    (Q : Status × Bytes → World → Prop) :
    wp (hashCompute message) e Q R w ↔
      if message.length = 0 then Q (.zerol, []) w else Q (.ok, e.sha256 message) (w.note [.hashed message]) := by
  simp [hashCompute]

namespace Dice

/-! ### The messages the identities are digests of -/

def devidMessage (e : Env) (fsbl : Bytes) : Bytes := e.hwInfo.bytes ++ fsbl.take hashLen

def fwidMessage (e : Env) (devid : Bytes) : Bytes := devid ++ e.sha256 (List.replicate hashLen 0)

def osidMessage (e : Env) (fwid kernel : Bytes) : Bytes := fwid ++ e.sha256 kernel

structure Derives (e : Env) (ids : AtpIdent) (fsbl kernel : Bytes) (log : List Event) : Prop where
  file : e.fsblFile = some fsbl
  image : findFile e.kernelFile e.fileSystems = some kernel
  devid : ids.devid = e.sha256 (devidMessage e fsbl)
  fwid : ids.fwid = e.sha256 (fwidMessage e ids.devid)
  osid : ids.osid = e.sha256 (osidMessage e ids.fwid kernel)
  devid_hashed : .hashed (devidMessage e fsbl) ∈ log
  fwid_hashed : .hashed (fwidMessage e ids.devid) ∈ log
  kernel_hashed : .hashed kernel ∈ log
  osid_hashed : .hashed (osidMessage e ids.fwid kernel) ∈ log

section Steps

variable {e : Env} {w : World} {Q : Status × Bytes → World → Prop} {R : Halt → World → Prop}

theorem wp_genDeviceID (ret : ∀ st id w', w.log ⊆ w'.log →
      (st = .ok → ∃ fsbl, e.fsblFile = some fsbl ∧ id = e.sha256 (devidMessage e fsbl) ∧
        .hashed (devidMessage e fsbl) ∈ w'.log) → Q (st, id) w')
    (stop : ∀ h w', R h w') : wp genDeviceID e Q R w := by
  simp only [genDeviceID, wp_bind, wp_ask]
  cases file : e.fsblFile with
  | none => exact ret .nullp [] w (List.Subset.refl _) (by simp)
  | some fsbl =>
    simp only [wp_bind, wp_hashCompute, wp_ite, wp_pure, wp_granted, wp_halt, World.note_note, ne_eq, reduceCtorEq,
      not_true_eq_false, not_false_eq_true, ↓reduceIte]
    split_ifs
    · exact ret .zerol [] w (List.Subset.refl _) (by simp)
    · exact ret .nullp [] _ (by simp) (by simp)
    · exact stop _ _
    · exact ret .zerol [] _ (by simp) (by simp)
    · exact ret .ok _ _ (by simp) fun _ => ⟨fsbl, file, rfl, by simp [devidMessage]⟩

theorem wp_ssblImageLoad {blkio : Option Handle} {normbank : Nat}
    (ret : ∀ st img w', w.log ⊆ w'.log → Q (st, img) w') : wp (ssblImageLoad blkio normbank) e Q R w := by
  cases blkio with
  | none =>
    simp only [ssblImageLoad, wp_bind, wp_rawPrtReadBlock_none, ne_eq, reduceCtorEq, not_false_eq_true, ↓reduceIte,
      wp_pure]
    exact ret .nullp [] w (List.Subset.refl _)
  | some h =>
    simp only [ssblImageLoad, wp_bind, wp_rawPrtReadBlock_some, if_neg blkSz_ne_zero, wp_ite, wp_pure, wp_granted,
      World.note_note, ne_eq, reduceCtorEq, not_true_eq_false, not_false_eq_true, ↓reduceIte]
    generalize alignValue _ _ = imglen
    split_ifs
    all_goals exact ret _ _ _ (by simp)

theorem wp_genFWID {blkio : Option Handle} {devid : Bytes} {normbank : Nat} (ret : ∀ st id w', w.log ⊆ w'.log →
      (st = .ok → id = e.sha256 (fwidMessage e devid) ∧ .hashed (fwidMessage e devid) ∈ w'.log) → Q (st, id) w') :
    wp (genFWID blkio devid normbank) e Q R w := by
  simp only [genFWID, wp_bind]
  refine wp_ssblImageLoad fun st img w' grown => ?_
  simp only [wp_bind, wp_hashCompute, wp_ite, wp_pure, wp_granted, World.note_note, ne_eq, reduceCtorEq,
    not_true_eq_false, not_false_eq_true, ↓reduceIte]
  have later : ∀ evs, w.log ⊆ (w'.note evs).log := fun evs => List.subset_append_of_subset_left evs grown
  by_cases failed : st = .ok
  · rw [if_neg (not_not.mpr failed)]
    split_ifs
    · exact ret .zerol [] w' grown (by simp)
    · exact ret .zerol [] w' grown (by simp)
    · exact ret .nullp [] _ (later _) (by simp)
    · exact ret .zerol [] _ (later _) (by simp)
    · exact ret .ok _ _ (later _) fun _ => ⟨rfl, by simp [fwidMessage]⟩
  · rw [if_pos failed]
    exact ret st [] w' grown fun ok => absurd ok failed

theorem wp_genOSID {fwid : Bytes} (ret : ∀ st id w', w.log ⊆ w'.log →
      (st = .ok → ∃ kernel, findFile e.kernelFile e.fileSystems = some kernel ∧
        id = e.sha256 (osidMessage e fwid kernel) ∧ .hashed kernel ∈ w'.log ∧
        .hashed (osidMessage e fwid kernel) ∈ w'.log) → Q (st, id) w') :
    wp (genOSID fwid) e Q R w := by
  simp only [genOSID, kernelImageLoad, wp_bind, wp_ask]
  cases file : findFile e.kernelFile e.fileSystems with
  | none =>
    simp only [wp_pure, ne_eq, reduceCtorEq, not_false_eq_true, ↓reduceIte]
    exact ret .fail [] w (List.Subset.refl _) (by simp)
  | some kernel =>
    simp only [wp_bind, wp_hashCompute, wp_ite, wp_pure, wp_granted, World.note_note, ne_eq, reduceCtorEq,
      not_true_eq_false, not_false_eq_true, ↓reduceIte]
    cases e.granted .kernelInfo with
    | false =>
      simp only [Bool.false_eq_true, ↓reduceIte, List.take_zero, List.length_nil]
      split_ifs
      all_goals exact ret _ [] w (List.Subset.refl _) (by simp)
    | true =>
      simp only [↓reduceIte, List.take_length]
      split_ifs
      · exact ret .fail [] w (List.Subset.refl _) (by simp)
      · exact ret .nullp [] w (List.Subset.refl _) (by simp)
      · exact ret .notfnd [] w (List.Subset.refl _) (by simp)
      · exact ret .zerol [] w (List.Subset.refl _) (by simp)
      · exact ret .nullp [] _ (by simp) (by simp)
      · exact ret .zerol [] _ (by simp) (by simp)
      · exact ret .ok _ _ (by simp) fun _ => ⟨kernel, file, rfl, by simp, by simp [osidMessage]⟩

theorem wp_diceKeysGen {blkio : Option Handle} {before : AtpIdent} {normbank bm : Nat} :
    wp (diceKeysGen blkio before normbank bm) e
      (fun res w' => res.1 = .ok → ∃ fsbl kernel, Derives e res.2 fsbl kernel w'.log) (fun _ _ => True) w := by
  simp only [diceKeysGen, wp_bind]
  refine wp_genDeviceID (fun st devid w₁ _ device => ?_) fun _ _ => trivial
  by_cases ok : st = .ok
  · rw [if_neg (not_not.mpr ok), wp_bind]
    refine wp_genFWID fun st fwid w₂ sub₂ firmware => ?_
    by_cases ok' : st = .ok
    · rw [if_neg (not_not.mpr ok'), wp_bind]
      refine wp_genOSID fun st osid w₃ sub₃ os => ?_
      by_cases ok'' : st = .ok
      · rw [if_neg (not_not.mpr ok''), wp_pure]
        obtain ⟨fsbl, file, rfl, devid_hashed⟩ := device ok
        obtain ⟨rfl, fwid_hashed⟩ := firmware ok'
        obtain ⟨kernel, image, rfl, kernel_hashed, osid_hashed⟩ := os ok''
        exact fun _ => ⟨fsbl, kernel, file, image, rfl, rfl, rfl, sub₃ (sub₂ devid_hashed), sub₃ fwid_hashed,
          kernel_hashed, osid_hashed⟩
      · rw [if_pos ok'', wp_pure]
        exact fun h => absurd h ok''
    · rw [if_pos ok', wp_pure]
      exact fun h => absurd h ok'
  · rw [if_pos ok, wp_pure]
    exact fun h => absurd h ok

end Steps

/-! ### Whole runs -/

structure Run where
  e : Env
  disk : Handle → Store
  blkio : Handle
  before : AtpIdent
  normbank : Nat
  bm : Nat
  ids : AtpIdent
  returned : (diceKeysGen (some blkio) before normbank bm e ⟨disk, []⟩).1 = .ok (.ok, ids)

namespace Run

def log (r : Run) : List Event := ((diceKeysGen (some r.blkio) r.before r.normbank r.bm).final r.e ⟨r.disk, []⟩).log

def messages (r : Run) : Set Bytes := {m | .hashed m ∈ r.log}

theorem mem_messages (r : Run) {m : Bytes} : m ∈ r.messages ↔ .hashed m ∈ r.log := Iff.rfl

def fsbl (r : Run) : Bytes := r.e.fsblFile.getD []

def kernel (r : Run) : Bytes := (findFile r.e.kernelFile r.e.fileSystems).getD []

def ssbl (r : Run) (bank : Nat) : Bytes := mbrImage (r.disk r.blkio) bank bootSsblOfs

theorem derives (r : Run) : Derives r.e r.ids r.fsbl r.kernel r.log := by
  obtain ⟨fsbl, kernel, derives⟩ := wp_returned wp_diceKeysGen r.returned rfl
  have hf : r.fsbl = fsbl := by rw [Run.fsbl, derives.file, Option.getD_some]
  have hk : r.kernel = kernel := by rw [Run.kernel, derives.image, Option.getD_some]
  rw [hf, hk]
  exact derives

end Run

section Binding

variable {r₁ r₂ : Run}

theorem ids_eq_iff (serials : r₁.e.hwInfo = r₂.e.hwInfo) (hash : r₁.e.sha256 = r₂.e.sha256)
    (free : CollisionFree r₁.e.sha256 hashLen (r₁.messages ∪ r₂.messages)) :
    r₁.ids = r₂.ids ↔ r₁.fsbl.take hashLen = r₂.fsbl.take hashLen ∧ r₁.kernel = r₂.kernel := by
  have d₁ := r₁.derives
  have d₂ := r₂.derives
  constructor
  · intro same
    have devids : r₁.e.sha256 (devidMessage r₁.e r₁.fsbl) = r₁.e.sha256 (devidMessage r₂.e r₂.fsbl) := by
      rw [← d₁.devid, same, d₂.devid, hash]
    have osids : r₁.e.sha256 (osidMessage r₁.e r₁.ids.fwid r₁.kernel) =
        r₁.e.sha256 (osidMessage r₂.e r₂.ids.fwid r₂.kernel) := by
      rw [← d₁.osid, same, d₂.osid, hash]
    have heads := (free.digest_eq_iff (.inl d₁.devid_hashed) (.inr d₂.devid_hashed)).mp devids
    have tails := (free.digest_eq_iff (.inl d₁.osid_hashed) (.inr d₂.osid_hashed)).mp osids
    rw [devidMessage, devidMessage, serials] at heads
    rw [osidMessage, osidMessage, same, ← hash] at tails
    exact ⟨List.append_cancel_left heads,
      (free.digest_eq_iff (.inl d₁.kernel_hashed) (.inr d₂.kernel_hashed)).mp (List.append_cancel_left tails)⟩
  · rintro ⟨fsbl, kernel⟩
    have devid : r₁.ids.devid = r₂.ids.devid := by
      rw [d₁.devid, d₂.devid, devidMessage, devidMessage, serials, hash, fsbl]
    have fwid : r₁.ids.fwid = r₂.ids.fwid := by
      rw [d₁.fwid, d₂.fwid, fwidMessage, fwidMessage, devid, hash]
    have osid : r₁.ids.osid = r₂.ids.osid := by
      rw [d₁.osid, d₂.osid, osidMessage, osidMessage, fwid, hash, kernel]
    exact AtpIdent.ext devid fwid osid

/-- Equal identities mean equal images: of the FSBL file, of the SSBL in bank `bank`, and of the kernel. -/
def Binds (r₁ r₂ : Run) (bank : Nat) : Prop :=
  r₁.ids = r₂.ids → r₁.fsbl = r₂.fsbl ∧ r₁.ssbl bank = r₂.ssbl bank ∧ r₁.kernel = r₂.kernel

end Binding

/-! ### A changed SSBL with the same identities -/

def ssblDisk (b : UInt8) : Handle → Store := fun _ i => if i = 0x400200 then 4 else if i = 0x400204 then b else 0

def sampleIds (kernel : Bytes) : AtpIdent :=
  let devid := sampleDigest (devidMessage (Env.refusing []) (List.replicate 40 0x46))
  let fwid := sampleDigest (fwidMessage (Env.refusing []) devid)
  ⟨devid, fwid, sampleDigest (osidMessage (Env.refusing []) fwid kernel)⟩

def genuineRun : Run where
  e := Env.refusing []
  disk := ssblDisk 1
  blkio := 0
  before := ⟨[], [], []⟩
  normbank := 1
  bm := 1
  ids := sampleIds [0x4B]
  returned := by decide

def tamperedRun : Run where
  e := Env.refusing []
  disk := ssblDisk 2
  blkio := 0
  before := ⟨[], [], []⟩
  normbank := 1
  bm := 1
  ids := sampleIds [0x4B]
  returned := by decide

/-- The SSBL and the kernel are not those of `genuineRun`. -/
def updatedRun : Run where
  e := { Env.refusing [] with kernelFile := fun _ => some [0x4C] }
  disk := ssblDisk 2
  blkio := 0
  before := ⟨[], [], []⟩
  normbank := 1
  bm := 1
  ids := sampleIds [0x4C]
  returned := by decide

def sampleMessages (kernel : Bytes) : List Bytes :=
  let e := Env.refusing []
  let ids := sampleIds kernel
  [List.replicate 40 0x46, devidMessage e (List.replicate 40 0x46), List.replicate 32 0,
    fwidMessage e ids.devid, kernel, osidMessage e ids.fwid kernel]

theorem Run.messages_subset {r : Run} {l : List Bytes} (all : ∀ ev ∈ r.log, ∀ m ∈ ev.message?, m ∈ l) :
    r.messages ⊆ {m | m ∈ l} := fun m hashed => all (.hashed m) (r.mem_messages.mp hashed) m rfl

theorem collisionFree_sample {r : Run}
    (all : ∀ ev ∈ r.log, ∀ m ∈ ev.message?, m ∈ sampleMessages [0x4B] ++ sampleMessages [0x4C]) :
    CollisionFree sampleDigest hashLen (genuineRun.messages ∪ r.messages) := by
  refine (collisionFree_of_nodup (l := sampleMessages [0x4B] ++ sampleMessages [0x4C]) (by decide) (by decide)).mono ?_
  exact Set.union_subset (Run.messages_subset (by decide)) (Run.messages_subset all)

end Dice

end LeoEdk.Sbc
