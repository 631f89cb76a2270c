import LeoEdk.Sbc.SystemControl

/-! A change of the boot and key mode, seen from block 0 and from the header that the caller keeps. -/

namespace LeoEdk.Sbc

open Bytes Prog

def ModeField (a : Nat) : Prop := 114 ≤ a ∧ a < 118

instance (a : Nat) : Decidable (ModeField a) := inferInstanceAs (Decidable (_ ∧ _))

def headerBlock (hdr : RawprtHdr) : Bytes := hdr.toBytes ++ List.replicate 384 0

theorem length_headerBlock (hdr : RawprtHdr) : (headerBlock hdr).length = 512 := by
  rw [headerBlock, List.length_append, RawprtHdr.length_toBytes, List.length_replicate]

theorem writeHeader_some (site : Site) (h : Handle) (hdr : RawprtHdr) :
    writeHeader site (some h) hdr = rawPrtBlockWrite site (some h) (headerBlock hdr) 0 := rfl

theorem headerBlock_withModes (hdr : RawprtHdr) (newbm newkey : UInt32) {a : Nat} (other : ¬ ModeField a) :
    (headerBlock (hdr.withModes newbm newkey)).getD a 0 = (headerBlock hdr).getD a 0 := by
  obtain ⟨front, bm, km, back, lengthF, lengthB, lengthK, old⟩ : ∃ front bm km back : Bytes, front.length = 114 ∧
      bm.length = 2 ∧ km.length = 2 ∧ headerBlock hdr = front ++ (bm ++ (km ++ back)) ∧
      headerBlock (hdr.withModes newbm newkey) =
        front ++ (leBytes 2 newbm.toUInt16.toNat ++ (leBytes 2 newkey.toUInt16.toNat ++ back)) := by
    refine ⟨leBytes 4 hdr.magicid.toNat ++ (hdr.prtinfo ++ hdr.reserv), leBytes 2 hdr.bootmode.toNat,
      leBytes 2 hdr.keymode.toNat, leBytes 2 hdr.rcvmode.toNat ++ (hdr.bootpres ++ List.replicate 384 0), ?_,
      ?_, ?_, ?_, ?_⟩
    · simp [hdr.length_prtinfo, hdr.length_reserv]
    · exact length_leBytes ..
    · exact length_leBytes ..
    · simp only [headerBlock, RawprtHdr.toBytes, List.append_assoc]
    · simp only [headerBlock, RawprtHdr.toBytes, RawprtHdr.withModes, List.append_assoc]
  obtain ⟨old, new⟩ := old
  rw [old, new]
  simp only [List.getD_eq_getElem?_getD]
  rcases Nat.lt_or_ge a 114 with before | behind
  · rw [List.getElem?_append_left (by omega), List.getElem?_append_left (by omega)]
  · have last : 118 ≤ a := by
      by_contra inside
      exact other ⟨behind, Nat.not_le.mp inside⟩
    have size : (leBytes 2 newbm.toUInt16.toNat).length = 2 := length_leBytes ..
    have size' : (leBytes 2 newkey.toUInt16.toNat).length = 2 := length_leBytes ..
    rw [List.getElem?_append_right (by omega), List.getElem?_append_right (by omega),
      List.getElem?_append_right (by omega), List.getElem?_append_right (by omega),
      List.getElem?_append_right (by omega), List.getElem?_append_right (by omega), lengthB, lengthK, size, size']

/-- What a mode change should be: it succeeds and block 0 is changed in the mode fields alone, or it fails and neither
    the disks nor the header in memory have changed. -/
def ModeChangeLocal (bp : BootProc) (w : World) (result : Status × BootProc) (w' : World) : Prop :=
  (result.1 = .ok ∧ ∃ h, bp.blkhnd = some h ∧ ∀ a < rawprtDfltBlkSz, ¬ ModeField a → w'.disk h a = w.disk h a) ∨
    (result.1 ≠ .ok ∧ w'.disk = w.disk ∧ result.2.rawprtHdr = bp.rawprtHdr)

/-- Block 0 holds the header in memory and zeros behind it, the mode fields aside. -/
def HoldsHeader (d : Store) (hdr : RawprtHdr) : Prop :=
  ∀ a < rawprtDfltBlkSz, ¬ ModeField a → d a = (headerBlock hdr).getD a 0

theorem withModes_eq_self_iff (hdr : RawprtHdr) (newbm newkey : UInt32) :
    hdr.withModes newbm newkey = hdr ↔ hdr.bootmode = newbm.toUInt16 ∧ hdr.keymode = newkey.toUInt16 := by
  constructor
  · intro same
    rw [← same]
    exact ⟨rfl, rfl⟩
  · rintro ⟨bootmode, keymode⟩
    rw [RawprtHdr.withModes, ← bootmode, ← keymode]

theorem wp_bootKeyModeChangeHdr_some {e : Env} {w : World} (site : Site) (newbm newkey : UInt32) {bp : BootProc}
    {h : Handle} (some_ : bp.blkhnd = some h) (Q : Status × BootProc → World → Prop) (R : Halt → World → Prop) :
    wp (bootKeyModeChangeHdr site newbm newkey bp) e Q R w ↔
      if e.granted site then
        Q (.ok, { bp with rawprtHdr := bp.rawprtHdr.withModes newbm newkey })
          ((w.note [.writeBlocks 0 512]).write h 0 (headerBlock (bp.rawprtHdr.withModes newbm newkey)))
      else Q (.io, { bp with rawprtHdr := bp.rawprtHdr.withModes newbm newkey }) (w.note [.writeBlocks 0 512]) := by
  have whole : 512 % rawprtDfltBlkSz = 0 := rfl
  simp [bootKeyModeChangeHdr, some_, writeHeader_some, wp_bind, wp_rawPrtBlockWrite_some, length_headerBlock, whole]

/-- The mode change is local and atomic exactly when the write succeeds on a block 0 that holds the header in memory, or
    does not succeed and the header in memory has the new modes already. -/
theorem modeChange_local_iff (e : Env) (w : World) (site : Site) (newbm newkey : UInt32) (bp : BootProc) :
    wp (bootKeyModeChangeHdr site newbm newkey bp) e (ModeChangeLocal bp w) (fun _ _ => False) w ↔
      match bp.blkhnd with
      | some h => if e.granted site then HoldsHeader (w.disk h) bp.rawprtHdr
          else bp.rawprtHdr.bootmode = newbm.toUInt16 ∧ bp.rawprtHdr.keymode = newkey.toUInt16
      | none => bp.rawprtHdr.bootmode = newbm.toUInt16 ∧ bp.rawprtHdr.keymode = newkey.toUInt16 := by
  cases blk : bp.blkhnd with
  | none =>
    simp only [bootKeyModeChangeHdr, blk, writeHeader, wp_bind, wp_pure]
    simp [ModeChangeLocal, withModes_eq_self_iff]
  | some h =>
    rw [wp_bootKeyModeChangeHdr_some site newbm newkey blk]
    dsimp only
    by_cases grant : e.granted site
    · rw [if_pos grant, if_pos grant]
      have written : ∀ a < rawprtDfltBlkSz,
          ((w.note [.writeBlocks 0 512]).write h 0 (headerBlock (bp.rawprtHdr.withModes newbm newkey))).disk h a =
            (headerBlock (bp.rawprtHdr.withModes newbm newkey)).getD a 0 := by
        intro a inside
        rw [World.write_disk_self, Store.write, length_headerBlock, if_pos ⟨Nat.zero_le a, inside.trans_eq rfl⟩,
          Nat.sub_zero]
      constructor
      · rintro (⟨_, h', same, kept⟩ | ⟨failed, _⟩)
        · obtain rfl : h = h' := Option.some.inj (blk.symm.trans same)
          intro a inside other
          rw [← kept a inside other, written a inside, headerBlock_withModes _ _ _ other]
        · exact absurd rfl failed
      · intro holds
        refine .inl ⟨rfl, h, blk, fun a inside other => ?_⟩
        rw [written a inside, headerBlock_withModes _ _ _ other, holds a inside other]
    · rw [if_neg grant, if_neg grant]
      simp [ModeChangeLocal, withModes_eq_self_iff]

def zeroProc : BootProc where
  blkhnd := some 0
  rawprtHdr := .zero
  pvsSwBnk := 0
  bm := 0
  km := 0
  bootst := .nrma

/-- With a write that is refused, the header in memory has the new modes; with one that succeeds on a block of ones, the
    bytes behind the header are zeros. -/
theorem modes_left_and_block_cleared : ¬ wp (bootKeyModeChangeHdr .modeNormal 1 1 zeroProc) (.refusing [.modeNormal])
        (ModeChangeLocal zeroProc ⟨fun _ _ => 1, []⟩) (fun _ _ => False) ⟨fun _ _ => 1, []⟩ ∧
      ¬ wp (bootKeyModeChangeHdr .modeNormal 1 1 zeroProc) (.refusing [])
        (ModeChangeLocal zeroProc ⟨fun _ _ => 1, []⟩) (fun _ _ => False) ⟨fun _ _ => 1, []⟩ := by
  have refused : (Env.refusing [.modeNormal]).granted .modeNormal = false := by decide
  have granted : (Env.refusing []).granted .modeNormal = true := by decide
  constructor
  · rw [wp_bootKeyModeChangeHdr_some .modeNormal 1 1 rfl, refused, if_neg Bool.false_ne_true]
    rintro (⟨ok, _⟩ | ⟨_, _, same⟩)
    · exact absurd ok (by decide)
    · have modes := (withModes_eq_self_iff _ 1 1).mp same
      exact absurd modes.1 (by decide)
  · rw [wp_bootKeyModeChangeHdr_some .modeNormal 1 1 rfl, granted, if_pos rfl]
    rintro (⟨_, h, same, kept⟩ | ⟨failed, _⟩)
    · obtain rfl : 0 = h := Option.some.inj same
      have last := kept 511 (by decide) (by decide)
      rw [World.write_disk_self, Store.write, length_headerBlock, if_pos (by decide)] at last
      exact absurd last (by decide +kernel)
    · exact absurd rfl failed

end LeoEdk.Sbc
