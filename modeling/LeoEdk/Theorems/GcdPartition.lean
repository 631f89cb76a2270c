import LeoEdk.Gcd.Map
import LeoEdk.Lib.Tiling

/-! The entries of a GCD map tile the address space after every sequence of conversions and allocations. Splitting,
    changing and merging redraw the tiling inside the range of a call (`Outcome`), which keeps `Partition`. -/

namespace LeoEdk.Gcd

open Layout List

def layout : Layout GcdMapEntry GcdMapEntry where
  first := GcdMapEntry.baseAddress
  next e := e.endAddress + 1
  value e := { e with baseAddress := 0, endAddress := 0 }

def Outside (baseAddress length a : Nat) : Prop := a < baseAddress ∨ baseAddress + length ≤ a

theorem contains_iff {e : GcdMapEntry} {a : Nat} : e.contains a = true ↔ e.baseAddress ≤ a ∧ a ≤ e.endAddress := by
  simp [GcdMapEntry.contains]

theorem lastOf_eq {baseAddress length : Nat} (fits : baseAddress + length ≤ 2 ^ 64) :
    lastOf baseAddress length = baseAddress + length - 1 := by
  rw [lastOf]
  exact Nat.mod_eq_of_lt (by omega)

section Merge

variable {lo hi : Nat} {e adjacent : GcdMapEntry} {before after : List GcdMapEntry} {keep : Nat → Prop}

theorem value_eq_of_mergeable (merge : mergeable e adjacent = true) : layout.value e = layout.value adjacent := by
  simp only [mergeable, Bool.decide_and, Bool.and_eq_true, decide_eq_true_eq] at merge
  obtain ⟨capabilities, attributes, memoryType, ioType, image, device⟩ := merge
  simp [layout, capabilities, attributes, memoryType, ioType, image, device]

theorem redraws_mergeBackward (tiles : layout.Tiles lo hi (before.reverse ++ [e])) :
    layout.Redraws keep lo hi (before.reverse ++ [e]) (mergeBackward before e).reverse := by
  cases before with
  | nil => exact .refl tiles
  | cons adjacent before =>
    rw [mergeBackward]
    split
    · rename_i merge
      rw [reverse_cons, append_assoc, singleton_append] at tiles ⊢
      rw [reverse_cons]
      obtain ⟨mid, left, right⟩ := tiles_append.mp tiles
      exact .append (.refl left) (.join right rfl rfl (value_eq_of_mergeable merge) rfl)
    · have same : (e :: adjacent :: before).reverse = (adjacent :: before).reverse ++ [e] := reverse_cons
      rw [same]
      exact .refl tiles

theorem redraws_mergeForward (tiles : layout.Tiles lo hi (e :: after)) :
    layout.Redraws keep lo hi (e :: after) (mergeForward e after) := by
  cases after with
  | nil => exact .refl tiles
  | cons adjacent after =>
    rw [mergeForward]
    split
    · rename_i merge
      have both : layout.Tiles lo hi ([e, adjacent] ++ after) := tiles
      obtain ⟨mid, left, right⟩ := tiles_append.mp both
      have pair : layout.Redraws keep lo mid [e, adjacent] [{ e with endAddress := adjacent.endAddress }] :=
        .join left rfl rfl rfl (value_eq_of_mergeable merge)
      exact pair.append (.refl right)
    · exact .refl tiles

theorem redraws_foldl_mergeBackward {middle : List GcdMapEntry}
    (tiles : layout.Tiles lo hi (before.reverse ++ middle)) :
    layout.Redraws keep lo hi (before.reverse ++ middle) (middle.foldl mergeBackward before).reverse := by
  induction middle generalizing before with
  | nil =>
    rw [append_nil] at tiles ⊢
    exact .refl tiles
  | cons e middle ih =>
    rw [append_cons] at tiles ⊢
    obtain ⟨mid, left, right⟩ := tiles_append.mp tiles
    have first : layout.Redraws keep lo hi (before.reverse ++ [e] ++ middle)
        ((mergeBackward before e).reverse ++ middle) :=
      (redraws_mergeBackward left).append (.refl right)
    exact first.trans (ih first.tiles)

def Range.entries (r : Range) : List GcdMapEntry := r.before.reverse ++ r.middle ++ r.after

theorem redraws_cleanup {r : Range} (tiles : layout.Tiles lo hi r.entries) :
    layout.Redraws keep lo hi r.entries (coreCleanupGcdMapEntry r) := by
  obtain ⟨mid, left, right⟩ := tiles_append.mp tiles
  have first : layout.Redraws keep lo hi r.entries ((r.middle.foldl mergeBackward r.before).reverse ++ r.after) :=
    (redraws_foldl_mergeBackward left).append (.refl right)
  rw [coreCleanupGcdMapEntry]
  split
  · rename_i none
    rw [none] at first
    exact first
  · rename_i last before some
    rw [some, reverse_cons, ← append_cons] at first
    obtain ⟨mid', left', right'⟩ := tiles_append.mp first.tiles
    exact first.trans (.append (.refl left') (redraws_mergeForward right'))

end Merge

section Split

variable {baseAddress length lo hi : Nat} {σ : Type} {change : σ → GcdMapEntry → GcdMapEntry × σ}

/-- The change leaves the addresses of an entry alone and does not depend on them. -/
def KeepsAddresses (change : σ → GcdMapEntry → GcdMapEntry × σ) : Prop :=
  ∀ s e base last, change s { e with baseAddress := base, endAddress := last } =
    ({ (change s e).1 with baseAddress := base, endAddress := last }, (change s e).2)

theorem KeepsAddresses.kept (keeps : KeepsAddresses change) (s : σ) (e : GcdMapEntry) :
    (change s e).1.baseAddress = e.baseAddress ∧ (change s e).1.endAddress = e.endAddress :=
  have same := keeps s e e.baseAddress e.endAddress
  ⟨congrArg (fun p => p.1.baseAddress) same, congrArg (fun p => p.1.endAddress) same⟩

def changedEntries (change : σ → GcdMapEntry → GcdMapEntry × σ) : σ → List GcdMapEntry → List GcdMapEntry
  | _, [] => []
  | s, e :: es => (change s e).1 :: changedEntries change (change s e).2 es

def Meets (baseAddress length : Nat) (e : GcdMapEntry) : Prop :=
  baseAddress ≤ e.endAddress ∧ e.baseAddress < baseAddress + length

theorem splitBottom_eq (e : GcdMapEntry) (spare : Spare) (available : spare.bottom = true ∨
    baseAddress ≤ e.baseAddress) :
    ∃ bottom entry spare', splitBottom e baseAddress spare = .ok (bottom, entry, spare') ∧
      spare'.top = spare.top ∧ bottom.length ≤ 1 ∧
        entry = { e with baseAddress := if baseAddress > e.baseAddress then baseAddress else e.baseAddress } ∧
      bottom = if baseAddress > e.baseAddress then [{ e with endAddress := baseAddress - 1 }] else [] := by
  rw [splitBottom]
  by_cases below : baseAddress > e.baseAddress
  · have spared : spare.bottom = true := available.resolve_right (by omega)
    rw [if_pos below, if_pos spared]
    exact ⟨_, _, _, rfl, rfl, Nat.le_refl 1, by rw [if_pos below], (if_pos below).symm⟩
  · rw [if_neg below]
    exact ⟨_, _, _, rfl, rfl, Nat.zero_le 1, by rw [if_neg below], (if_neg below).symm⟩

theorem splitTop_eq (e : GcdMapEntry) (spare : Spare) (pos : 0 < length) (fits : baseAddress + length ≤ 2 ^ 64)
    (bound : e.endAddress < 2 ^ 64) (available : spare.top = true) :
    ∃ entry top spare', splitTop e baseAddress length spare = .ok (entry, top, spare') ∧
      entry = { e with endAddress :=
        if baseAddress + length ≤ e.endAddress then baseAddress + length - 1 else e.endAddress } ∧
      top = (if baseAddress + length ≤ e.endAddress then [{ e with baseAddress := baseAddress + length }] else []) ∧
      (e.endAddress < baseAddress + length → spare'.top = true) := by
  rw [splitTop, lastOf_eq fits]
  by_cases above : baseAddress + length - 1 < e.endAddress
  · rw [if_pos above, if_pos available]
    refine ⟨_, _, _, rfl, by rw [if_pos (by omega)], ?_, fun _ => by omega⟩
    rw [if_pos (by omega), Nat.mod_eq_of_lt (by omega)]
  · rw [if_neg above]
    exact ⟨_, _, _, rfl, by rw [if_neg (by omega)], (if_neg (by omega)).symm, fun _ => available⟩

def cutOut (baseAddress length : Nat) (e changed : GcdMapEntry) : List GcdMapEntry :=
  (if baseAddress > e.baseAddress then [{ e with endAddress := baseAddress - 1 }] else []) ++
    [{ changed with
      baseAddress := max baseAddress e.baseAddress, endAddress := min (baseAddress + length - 1) e.endAddress }] ++
    if baseAddress + length ≤ e.endAddress then [{ e with baseAddress := baseAddress + length }] else []

section CutOut

variable {e changed : GcdMapEntry} (pos : 0 < length) (valid : e.baseAddress ≤ e.endAddress)
  (meets : Meets baseAddress length e)
include pos valid meets

theorem tiles_cutOut : layout.Tiles e.baseAddress (e.endAddress + 1) (cutOut baseAddress length e changed) := by
  obtain ⟨reaches, starts⟩ := meets
  unfold cutOut
  by_cases below : baseAddress > e.baseAddress <;> by_cases above : baseAddress + length ≤ e.endAddress
  all_goals
    simp only [below, above, if_true, if_false]
    simp [Tiles, layout]
    omega

theorem redraws_cutOut : layout.Redraws (Outside baseAddress length) e.baseAddress (e.endAddress + 1) [e]
    (cutOut baseAddress length e changed) := by
  refine .cut ⟨rfl, Nat.lt_succ_of_le valid, rfl⟩ (tiles_cutOut pos valid meets) fun y mem a covers outside => ?_
  simp only [cutOut, mem_append, mem_singleton, mem_ite_nil_right] at mem
  rcases mem with (⟨-, rfl⟩ | rfl) | ⟨-, rfl⟩
  · rfl
  · simp only [Covers, layout, Outside] at covers outside
    omega
  · rfl

theorem redraws_cutOut_inside (base : changed.baseAddress = e.baseAddress) (last : changed.endAddress = e.endAddress) :
    layout.Redraws (fun a => ¬ Outside baseAddress length a) e.baseAddress (e.endAddress + 1) [changed]
      (cutOut baseAddress length e changed) := by
  refine .cut ⟨base, ?_, congrArg (· + 1) last⟩ (tiles_cutOut pos valid meets) fun y mem a covers inside => ?_
  · simp only [layout]
    omega
  simp only [cutOut, mem_append, mem_singleton, mem_ite_nil_right] at mem
  simp only [Outside] at inside
  rcases mem with (⟨below, rfl⟩ | rfl) | ⟨above, rfl⟩
  · simp only [Covers, layout] at covers
    omega
  · rfl
  · simp only [Covers, layout] at covers
    omega

end CutOut

theorem insert_eq (keeps : KeepsAddresses change) (e : GcdMapEntry) (spare : Spare) (s : σ) (pos : 0 < length)
    (fits : baseAddress + length ≤ 2 ^ 64) (bound : e.endAddress < 2 ^ 64) (meets : Meets baseAddress length e)
    (bottom : spare.bottom = true ∨ baseAddress ≤ e.baseAddress) (top : spare.top = true) :
    ∃ inserted, coreInsertGcdMapEntry e baseAddress length spare = .ok inserted ∧ inserted.bottom.length ≤ 1 ∧
      (e.endAddress < baseAddress + length → inserted.top = [] ∧ inserted.spare.top = true) ∧
      (change s inserted.entry).2 = (change s e).2 ∧
      inserted.bottom ++ [(change s inserted.entry).1] ++
        inserted.top = cutOut baseAddress length e (change s e).1 := by
  obtain ⟨bottoms, entry, spare', split, kept, single, entry_eq, bottoms_eq⟩ := splitBottom_eq e spare bottom
  obtain ⟨entry', tops, spare'', split', entry'_eq, tops_eq, unused⟩ :=
    splitTop_eq entry spare' pos fits (by rw [entry_eq]; exact bound) (kept.trans top)
  refine ⟨⟨bottoms, entry', tops, spare''⟩, ?_, single, fun inside => ?_, ?_⟩
  · rw [coreInsertGcdMapEntry, split]
    change (splitTop entry baseAddress length spare' >>= _) = _
    rw [split']
    rfl
  · have inside' : entry.endAddress < baseAddress + length := by rw [entry_eq]; exact inside
    exact ⟨tops_eq.trans (if_neg (by omega)), unused inside'⟩
  · have cut : entry' = { e with baseAddress := entry'.baseAddress, endAddress := entry'.endAddress } := by
      rw [entry'_eq, entry_eq]
    have changed := keeps s e entry'.baseAddress entry'.endAddress
    rw [← cut] at changed
    obtain ⟨reaches, starts⟩ := meets
    have first : entry'.baseAddress = max baseAddress e.baseAddress := by
      rw [entry'_eq, entry_eq]
      dsimp only
      split <;> omega
    have final : entry'.endAddress = min (baseAddress + length - 1) e.endAddress := by
      rw [entry'_eq, entry_eq]
      dsimp only
      split <;> omega
    rw [entry_eq] at tops_eq
    rw [changed, first, final]
    exact ⟨rfl, by rw [cutOut, bottoms_eq, tops_eq]⟩

theorem finish_eq (before done : List GcdMapEntry) {bottom : List GcdMapEntry} (entry : GcdMapEntry)
    (single : bottom.length ≤ 1) :
    (finish before done bottom entry).1.reverse ++ (finish before done bottom entry).2 =
      before.reverse ++ done ++ (bottom ++ [entry]) := by
  have reversed : bottom.reverse = bottom := by
    match bottom, single with
    | [], _ => rfl
    | [_], _ => rfl
  rw [finish]
  split
  · rename_i fresh
    rw [fresh, reverse_append, reversed, append_nil, append_assoc]
  · simp only [append_assoc]

theorem convertLoop_eq (keeps : KeepsAddresses change) (pos : 0 < length) (fits : baseAddress + length ≤ 2 ^ 64)
    {middle : List GcdMapEntry} (nonempty : middle ≠ []) (tiles : layout.Tiles lo hi middle) (bound : hi ≤ 2 ^ 64)
    (meets : ∀ e ∈ middle, Meets baseAddress length e) {spare : Spare} (top : spare.top = true)
    (bottom : spare.bottom = true ∨ baseAddress ≤ lo) {fuel : Nat} (enough : middle.length < fuel) (s : σ)
    (before done after : List GcdMapEntry) :
    ∃ r new, convertLoop change baseAddress length fuel s spare before done (middle ++ after) (middle.length - 1) =
      .ok r ∧ r.entries = before.reverse ++ done ++ new ++ after ∧
      layout.Redraws (Outside baseAddress length) lo hi middle new ∧
      layout.Redraws (fun a => ¬ Outside baseAddress length a) lo hi (changedEntries change s middle) new := by
  induction middle generalizing lo fuel spare s before done with
  | nil => exact absurd rfl nonempty
  | cons e middle ih =>
    obtain ⟨start, valid, rest⟩ := tiles
    have le := rest.le
    simp only [layout] at start valid le
    have here := meets e mem_cons_self
    have validE : e.baseAddress ≤ e.endAddress := by omega
    obtain ⟨inserted, run, single, inside, state, cut⟩ := insert_eq keeps e spare s pos fits (by omega) here
      (bottom.imp_right fun le => by omega) top
    have redraws := @redraws_cutOut _ _ e (change s e).1 pos validE here
    have redrawsIn := redraws_cutOut_inside pos validE here (keeps.kept s e).1 (keeps.kept s e).2
    rw [start, ← cut] at redraws redrawsIn
    obtain _ | fuel := fuel
    · omega
    have finished := finish_eq before done (change s inserted.entry).1 single
    rw [cons_append, convertLoop, run]
    cases middle with
    | nil =>
      obtain rfl : e.endAddress + 1 = hi := rest
      refine ⟨_, _, rfl, ?_, redraws, redrawsIn⟩
      change (finish before done inserted.bottom (change s inserted.entry).1).1.reverse ++
        (finish before done inserted.bottom (change s inserted.entry).1).2 ++ (inserted.top ++ after) = _
      rw [finished]
      simp only [append_assoc]
    | cons f middle =>
      -- the next entry meets the range too, so nothing of this one lies behind it
      obtain ⟨_, starts⟩ := meets f (by simp)
      have adjacent : f.baseAddress = e.endAddress + 1 := rest.1
      obtain ⟨noTop, spared⟩ := inside (by omega)
      have room : (f :: middle).length < fuel := Nat.lt_of_succ_lt_succ enough
      obtain ⟨r, new, run', entries, redraws', redrawsIn'⟩ :=
        ih nofun rest (fun x mem => meets x (mem_cons_of_mem e mem)) spared
        (.inr (Nat.le_succ_of_le here.1)) room (change s inserted.entry).2
        (finish before done inserted.bottom (change s inserted.entry).1).1
        (finish before done inserted.bottom (change s inserted.entry).1).2
      rw [noTop, append_nil] at redraws redrawsIn
      rw [state] at redrawsIn'
      refine ⟨r, inserted.bottom ++ [(change s inserted.entry).1] ++ new, ?_, ?_, redraws.append redraws',
        redrawsIn.append redrawsIn'⟩
      · change convertLoop change baseAddress length fuel _ inserted.spare _ _ (inserted.top ++ (f :: middle ++ after))
          (middle.length + inserted.top.length) = _
        rw [noTop]
        exact run'
      · rw [entries, finished]
        simp only [append_assoc]

end Split

section Search

variable {baseAddress length lo hi : Nat} {before middle rest : List GcdMapEntry} {r : Range}

structure Spans (baseAddress length : Nat) (r : Range) : Prop where
  first : ∃ e more, r.middle = e :: more ∧ e.contains baseAddress = true
  last : ∃ less e, r.middle = less ++ [e] ∧ e.contains (lastOf baseAddress length) = true

theorem searchFrom_eq (found : searchFrom baseAddress length before middle rest = some r)
    (start : middle = [] ∨ ∃ later e, middle = later ++ [e] ∧ e.contains baseAddress = true) :
    r.entries = before.reverse ++ middle.reverse ++ rest ∧ Spans baseAddress length r := by
  induction rest generalizing before middle with
  | nil => cases found
  | cons e rest ih =>
    rw [searchFrom] at found
    generalize moved : (if e.contains baseAddress then (middle ++ before, [e])
      else if middle = [] then (e :: before, []) else (before, e :: middle)) = next at found
    obtain ⟨before', middle'⟩ := next
    -- the entry in hand is the last one added to the range
    have step : before'.reverse ++ middle'.reverse ++ rest = before.reverse ++ middle.reverse ++ e :: rest ∧
        (middle' = [] ∨ (∃ less, middle' = e :: less) ∧ ∃ later e, middle' = later ++ [e] ∧
          e.contains baseAddress = true) := by
      split_ifs at moved with here empty <;> cases moved
      · exact ⟨by simp, .inr ⟨⟨[], rfl⟩, [], e, rfl, here⟩⟩
      · exact ⟨by simp [empty], .inl rfl⟩
      · obtain ⟨later, first, eq, contains⟩ := start.resolve_left empty
        exact ⟨by simp, .inr ⟨⟨middle, rfl⟩, e :: later, first, by rw [eq, cons_append], contains⟩⟩
    obtain ⟨kept, start'⟩ := step
    dsimp only at found
    split at found
    · rename_i done
      obtain ⟨nonempty, ends⟩ := done
      cases found
      obtain ⟨⟨less, eq⟩, later, first, eq', contains⟩ := start'.resolve_left nonempty
      exact ⟨kept, ⟨first, later.reverse, by simp [eq'], contains⟩, less.reverse, e, by simp [eq], ends⟩
    · obtain ⟨entries, spans⟩ := ih found (start'.imp_right And.right)
      exact ⟨entries.trans kept, spans⟩

theorem coreSearchGcdMapEntry_eq {map : List GcdMapEntry}
    (found : coreSearchGcdMapEntry baseAddress length map = some r) :
    r.entries = map ∧ Spans baseAddress length r := searchFrom_eq found (.inl rfl)

/-- The range runs past the end of the 64-bit address space and back into the entry that it starts in. -/
def GoesRound (baseAddress length : Nat) (map : List GcdMapEntry) : Prop :=
  ∃ e ∈ map, e.contains baseAddress = true ∧ 2 ^ 64 + e.baseAddress < baseAddress + length

theorem Spans.meets (spans : Spans baseAddress length r) (pos : 0 < length) (small : length < 2 ^ 64)
    (tiles : layout.Tiles lo hi r.entries) (bound : hi ≤ 2 ^ 64) (straight : ¬ GoesRound baseAddress length r.entries) :
    baseAddress + length ≤ hi ∧ ∀ e ∈ r.middle, Meets baseAddress length e := by
  obtain ⟨⟨first, more, eq, starts⟩, less, last, eq', ends⟩ := spans
  rw [contains_iff] at starts ends
  obtain ⟨mid, left, _⟩ := tiles_append.mp tiles
  obtain ⟨mid', _, middle⟩ := tiles_append.mp left
  have inMap : ∀ e ∈ r.middle, e ∈ r.entries := fun e mem => by simp [Range.entries, mem]
  have afterFirst : ∀ e ∈ r.middle, first.endAddress ≤ e.endAddress := by
    intro e mem
    rw [eq] at middle mem
    rcases mem_cons.mp mem with rfl | later
    · exact Nat.le_refl _
    · have := middle.2.2.bounds later
      simp only [layout] at this
      omega
  have beforeLast : ∀ e ∈ r.middle, e.baseAddress ≤ last.baseAddress := by
    intro e mem
    rw [eq'] at middle mem
    obtain ⟨cut, lower, upper⟩ := tiles_append.mp middle
    have here : last.baseAddress = cut := upper.1
    rcases mem_append.mp mem with earlier | final
    · have := lower.bounds earlier
      simp only [layout] at this
      omega
    · exact Nat.le_of_eq (congrArg _ (mem_singleton.mp final))
  have lastIn : last ∈ r.middle := by simp [eq']
  have firstIn : first ∈ r.middle := by simp [eq]
  have inside := tiles.bounds (inMap last lastIn)
  have inside' := tiles.bounds (inMap first firstIn)
  simp only [layout] at inside inside'
  have fits : baseAddress + length ≤ 2 ^ 64 := by
    by_contra outside
    have wrapped : lastOf baseAddress length = baseAddress + length - 1 - 2 ^ 64 := by
      rw [lastOf]
      omega
    have below := beforeLast first firstIn
    exact straight ⟨first, inMap first firstIn, contains_iff.mpr starts, by omega⟩
  rw [lastOf_eq fits] at ends
  refine ⟨by omega, fun e mem => ⟨?_, ?_⟩⟩
  · have := afterFirst e mem
    omega
  · have := beforeLast e mem
    omega

theorem changeRange_eq {σ : Type} {change : σ → GcdMapEntry → GcdMapEntry × σ} (keeps : KeepsAddresses change) (s : σ)
    {map : List GcdMapEntry} (found : coreSearchGcdMapEntry baseAddress length map = some r) (pos : 0 < length)
    (small : length < 2 ^ 64) (tiles : layout.Tiles lo hi map) (bound : hi ≤ 2 ^ 64)
    (straight : ¬ GoesRound baseAddress length map) :
    baseAddress + length ≤ hi ∧ ∃ map', changeRange change s baseAddress length r = .ok map' ∧
      layout.Redraws (Outside baseAddress length) lo hi map map' ∧
      layout.Redraws (fun a => ¬ Outside baseAddress length a) lo hi
        (r.before.reverse ++ changedEntries change s r.middle ++ r.after) map' := by
  obtain ⟨rfl, spans⟩ := coreSearchGcdMapEntry_eq found
  obtain ⟨inside, meets⟩ := spans.meets pos small tiles bound straight
  obtain ⟨mid, left, right⟩ := tiles_append.mp tiles
  obtain ⟨mid', before, middle⟩ := tiles_append.mp left
  have nonempty : r.middle ≠ [] := by
    obtain ⟨e, more, eq, _⟩ := spans.first
    rw [eq]
    exact nofun
  have le := right.le
  have room : r.middle.length < r.middle.length + 2 := Nat.lt_add_of_pos_right (by omega)
  have spare : (⟨true, true⟩ : Spare).bottom = true ∨ baseAddress ≤ mid' := .inl rfl
  obtain ⟨r', new, run, entries, redraws, redrawsIn⟩ :=
    convertLoop_eq keeps pos (by omega) nonempty middle (by omega) meets rfl spare room s r.before [] r.after
  have around : ∀ {keep : Nat → Prop} {old : List GcdMapEntry}, layout.Redraws keep mid' mid old new →
      layout.Redraws keep lo hi (r.before.reverse ++ old ++ r.after) (coreCleanupGcdMapEntry r') := by
    intro keep old drawn
    have redrawn : layout.Redraws keep lo hi (r.before.reverse ++ old ++ r.after) r'.entries := by
      rw [entries, append_nil]
      exact ((Redraws.refl before).append drawn).append (.refl right)
    exact redrawn.trans (redraws_cleanup redrawn.tiles)
  refine ⟨inside, coreCleanupGcdMapEntry r', ?_, around redraws, around redrawsIn⟩
  rw [changeRange, run]
  rfl

end Search

inductive Call where
  | convert (services : Services) (c : Conversion)
  | allocate (fuel : Nat) (services : Services) (a : Allocation)

def Call.operation : Call → Operation
  | .convert _ c => c.operation
  | .allocate _ _ a => a.operation

def Call.length : Call → Nat
  | .convert _ c => c.length.toNat
  | .allocate _ _ a => a.length.toNat

def Call.run (m : GcdMaps) : Call → Except Stop (EfiStatus × Option Nat × GcdMaps)
  | .convert services c => do
    let (status, m') ← coreConvertSpace services c m
    pure (status, if status = .success then some c.baseAddress.toNat else none, m')
  | .allocate fuel services a => coreAllocateSpace fuel services a m

/-- The range of the call does not run past the end of the 64-bit address space and back into the entry that it starts
    in. -/
def Call.Straight (m : GcdMaps) : Call → Prop
  | .convert _ c => ¬ GoesRound c.baseAddress.toNat c.length.toNat (m.map c.operation)
  | .allocate _ _ a =>
    ∀ base : Nat, 2 ^ a.alignment.toNat ∣ base →
      (gcdAllocateTypeOf a.gcdAllocateType = some .address → a.baseAddress.map UInt64.toNat = some base) →
      ¬ GoesRound base a.length.toNat (m.map a.operation)

structure Partition (maxMemory maxIo : UInt64) (m : GcdMaps) : Prop where
  memory : layout.Tiles 0 (maxMemory.toNat + 1) m.memorySpaceMap
  io : layout.Tiles 0 (maxIo.toNat + 1) m.ioSpaceMap

def maxOf (maxMemory maxIo : UInt64) (op : Operation) : UInt64 := if op.isMemory then maxMemory else maxIo

section Calls

variable {maxMemory maxIo : UInt64} {m m' : GcdMaps} {op : Operation} {map' : List GcdMapEntry} {base : Nat}

theorem Partition.map (partition : Partition maxMemory maxIo m) (op : Operation) :
    layout.Tiles 0 ((maxOf maxMemory maxIo op).toNat + 1) (m.map op) := by
  unfold GcdMaps.map maxOf
  split
  · exact partition.memory
  · exact partition.io

theorem Partition.setMap (partition : Partition maxMemory maxIo m)
    (tiles : layout.Tiles 0 ((maxOf maxMemory maxIo op).toNat + 1) map') :
    Partition maxMemory maxIo (m.setMap op map') := by
  unfold maxOf at tiles
  unfold GcdMaps.setMap
  split
  · rename_i isMemory
    rw [if_pos isMemory] at tiles
    exact ⟨tiles, partition.io⟩
  · rename_i isIo
    rw [if_neg isIo] at tiles
    exact ⟨partition.memory, tiles⟩

theorem map_setMap : (m.setMap op map').map op = map' := by
  unfold GcdMaps.map GcdMaps.setMap
  split <;> rfl

theorem map_setMap_of_ne {op' : Operation} (other : op'.isMemory ≠ op.isMemory) :
    (m.setMap op map').map op' = m.map op' := by
  unfold GcdMaps.map GcdMaps.setMap
  cases h : op.isMemory <;> cases h' : op'.isMemory <;> simp_all

/-- What a call may do: it fails and changes nothing, or it changes what its range, taken in unbounded integers, covers
    of the map that it works on, and that range lies in the map. -/
inductive Outcome (maxMemory maxIo : UInt64) (op : Operation) (length : Nat) (m : GcdMaps) :
    EfiStatus → Option Nat → GcdMaps → Prop where
  | failed (status : EfiStatus) : status ≠ .success → Outcome maxMemory maxIo op length m status none m
  | changed (base : Nat) (m' : GcdMaps) : base + length ≤ (maxOf maxMemory maxIo op).toNat + 1 →
    (∀ a, Outside base length a → layout.valueAt (m'.map op) a = layout.valueAt (m.map op) a) →
    (∀ op', op'.isMemory ≠ op.isMemory → m'.map op' = m.map op') → Partition maxMemory maxIo m' →
    Outcome maxMemory maxIo op length m .success (some base) m'

/-- The call does not end in an assertion, and when it comes back it has done what `Outcome` says. -/
def Behaves (maxMemory maxIo : UInt64) (op : Operation) (length : Nat) (m : GcdMaps)
    (result : Except Stop (EfiStatus × Option Nat × GcdMaps)) : Prop :=
  result ≠ .error .assertion ∧
    ∀ status base m', result = .ok (status, base, m') → Outcome maxMemory maxIo op length m status base m'

theorem behaves_ok {length : Nat} {status : EfiStatus} {base : Option Nat}
    (outcome : Outcome maxMemory maxIo op length m status base m') :
    Behaves maxMemory maxIo op length m (.ok (status, base, m')) := by
  refine ⟨nofun, ?_⟩
  rintro _ _ _ ⟨⟩
  exact outcome

theorem changed_of_found {σ : Type} {change : σ → GcdMapEntry → GcdMapEntry × σ} (keeps : KeepsAddresses change) (s : σ)
    (partition : Partition maxMemory maxIo m) {length : UInt64} (nonzero : length ≠ 0) {r : Range}
    (found : coreSearchGcdMapEntry base length.toNat (m.map op) = some r)
    (straight : ¬ GoesRound base length.toNat (m.map op)) :
    ∃ map', changeRange change s base length.toNat r = .ok map' ∧
      Outcome maxMemory maxIo op length.toNat m .success (some base) (m.setMap op map') := by
  have pos : 0 < length.toNat := by
    rw [Nat.pos_iff_ne_zero]
    exact fun zero => nonzero (UInt64.toNat_inj.mp zero)
  obtain ⟨inside, map', run, redraws, -⟩ := changeRange_eq keeps s found pos length.toNat_lt (partition.map op)
    (maxOf maxMemory maxIo op).toNat_lt straight
  refine ⟨map', run, .changed base _ inside (fun a outside => ?_) (fun op' other => map_setMap_of_ne other)
    (partition.setMap redraws.tiles)⟩
  rw [map_setMap]
  exact redraws.same a outside

theorem keepsAddresses_changeEntry (c : Conversion) : KeepsAddresses (changeEntry c) := by
  intro s e base last
  unfold changeEntry
  split <;> rfl

theorem coreConvertSpace_cases (services : Services) (c : Conversion) (m : GcdMaps) :
    (∃ status, status ≠ .success ∧ coreConvertSpace services c m = .ok (status, m)) ∨
      c.length ≠ 0 ∧ ∃ r, coreSearchGcdMapEntry c.baseAddress.toNat c.length.toNat (m.map c.operation) = some r ∧
        coreConvertSpace services c m =
          (changeRange (changeEntry c) c.attributes c.baseAddress.toNat c.length.toNat r).map
          fun map' => (.success, m.setMap c.operation map') := by
  rw [coreConvertSpace]
  split
  · exact .inl ⟨.invalidParameter, nofun, rfl⟩
  next nonzero =>
  split
  · exact .inl ⟨.unsupported, nofun, rfl⟩
  next r found =>
  split
  next status errors => exact .inl ⟨status, by simpa using List.find?_some errors, rfl⟩
  split
  · exact .inl ⟨.outOfResources, nofun, rfl⟩
  split
  next error => exact .inl ⟨_, error, rfl⟩
  exact .inr ⟨nonzero, r, found, rfl⟩

theorem behaves_convert (services : Services) (c : Conversion) (partition : Partition maxMemory maxIo m)
    (straight : (Call.convert services c).Straight m) :
    Behaves maxMemory maxIo c.operation c.length.toNat m ((Call.convert services c).run m) := by
  rw [Call.run]
  rcases coreConvertSpace_cases services c m with ⟨status, error, run⟩ | ⟨nonzero, r, found, run⟩
  · rw [run]
    change Behaves _ _ _ _ _ (.ok (status, if status = .success then some c.baseAddress.toNat else none, m))
    rw [if_neg error]
    exact behaves_ok (.failed status error)
  · obtain ⟨map', changed, outcome⟩ := changed_of_found (keepsAddresses_changeEntry c) c.attributes partition nonzero
      found straight
    rw [run, changed]
    exact behaves_ok outcome

def Located (alignment length : Nat) (map : List GcdMapEntry) (found : Nat × Range) : Prop :=
  2 ^ alignment ∣ found.1 ∧ coreSearchGcdMapEntry found.1 length map = some found.2

theorem alignDown_dvd (alignment value : Nat) : 2 ^ alignment ∣ alignDown alignment value := Nat.dvd_mul_left _ _

theorem searchLoop_located (topDown : Bool) (check : GcdMapEntry → EfiStatus) {candidate : GcdMapEntry → Candidate}
    {alignment : Nat} (length : Nat) (map : List GcdMapEntry) (aligned : ∀ e base, candidate e = .base base →
      2 ^ alignment ∣ base)
    (fuel : Nat) (link : Option Nat) :
    searchLoop topDown check candidate length map fuel link = .error .outOfFuel ∨
      ∃ result, searchLoop topDown check candidate length map fuel link = .ok result ∧
        ∀ found, result = some found → Located alignment length map found := by
  induction fuel generalizing link with
  | zero => exact .inl rfl
  | succ fuel ih =>
    have gaveUp : ∃ result : Option (Nat × Range), (.ok none : Except Stop (Option (Nat × Range))) = .ok result ∧
        ∀ found, result = some found → Located alignment length map found := ⟨none, rfl, nofun⟩
    cases link with
    | none => exact .inr gaveUp
    | some k =>
      rw [searchLoop]
      split
      · exact .inr gaveUp
      · dsimp only
        rename_i e _
        split
        · exact ih _
        split
        · exact ih _
        · exact .inr gaveUp
        · rename_i base here
          split
          · exact .inr gaveUp
          · rename_i r search
            split
            · refine .inr ⟨_, rfl, ?_⟩
              rintro _ ⟨⟩
              exact ⟨aligned e base here, search⟩
            · exact ih _

theorem candidate_aligned {alignment : Nat} (length maxAddress : Nat) (topDown : Bool) (e : GcdMapEntry) (base : Nat)
    (here : (if topDown then candidateTopDown alignment length maxAddress
      else candidateBottomUp alignment length maxAddress) e = .base base) : 2 ^ alignment ∣ base := by
  cases topDown with
  | true =>
    rw [if_pos rfl, candidateTopDown] at here
    dsimp only at here
    split at here
    · cases here
    · split at here
      · cases here
      · cases here
        exact alignDown_dvd _ _
  | false =>
    rw [if_neg (by decide), candidateBottomUp] at here
    split at here
    · cases here
    · cases here
      exact alignDown_dvd _ _

theorem findSpace_located (fuel : Nat) (gcdAllocateType : GcdAllocateType) (check : GcdMapEntry → EfiStatus)
    (alignment length baseAddress : Nat) (map : List GcdMapEntry) :
    findSpace fuel gcdAllocateType check alignment length baseAddress map = .error .outOfFuel ∨
      (∃ status, findSpace fuel gcdAllocateType check alignment length baseAddress map = .ok (.error status) ∧
        status ≠ .success) ∨
      ∃ found, findSpace fuel gcdAllocateType check alignment length baseAddress map = .ok (.ok found) ∧
        Located alignment length map found ∧ (gcdAllocateType = .address → found.1 = baseAddress) := by
  rw [findSpace]
  by_cases address : gcdAllocateType = .address
  · rw [if_pos address]
    split
    · exact .inr (.inl ⟨_, rfl, nofun⟩)
    · rename_i aligned
      split
      · exact .inr (.inl ⟨_, rfl, nofun⟩)
      · rename_i r search
        split
        · rename_i status error
          refine .inr (.inl ⟨status, rfl, ?_⟩)
          simpa using List.find?_some error
        · exact .inr (.inr ⟨_, rfl, ⟨Nat.dvd_of_mod_eq_zero (not_not.mp aligned), search⟩, fun _ => rfl⟩)
  · rw [if_neg address]
    dsimp only
    rcases searchLoop_located gcdAllocateType.isTopDown check length map (candidate_aligned length _ _) fuel _
      with out | ⟨result, run, located⟩
    · rw [out]
      exact .inl rfl
    · rw [run]
      cases result with
      | none => exact .inr (.inl ⟨_, rfl, nofun⟩)
      | some found => exact .inr (.inr ⟨found, rfl, located found rfl, fun same => absurd same address⟩)

theorem behaves_allocate (fuel : Nat) (services : Services) (a : Allocation) (partition : Partition maxMemory maxIo m)
    (straight : (Call.allocate fuel services a).Straight m) :
    Behaves maxMemory maxIo a.operation a.length.toNat m (coreAllocateSpace fuel services a m) := by
  have failed : ∀ status, status ≠ .success →
      Behaves maxMemory maxIo a.operation a.length.toNat m (.ok (status, none, m)) :=
    fun status error => behaves_ok (.failed status error)
  rw [coreAllocateSpace]
  split
  · rename_i gcdAllocateType gcdMemoryType gcdIoType baseAddress type _ _ given
    split
    · exact failed _ nofun
    split
    · exact failed _ nofun
    split
    · exact failed _ nofun
    rename_i nonzero
    dsimp only
    rcases findSpace_located fuel gcdAllocateType (coreAllocateSpaceCheckEntry a.operation gcdMemoryType gcdIoType)
      a.alignment.toNat a.length.toNat baseAddress.toNat (m.map a.operation)
      with out | ⟨status, run, error⟩ | ⟨⟨base, r⟩, run, ⟨aligned, search⟩, given'⟩
    · rw [out]
      exact ⟨nofun, nofun⟩
    · rw [run]
      exact failed status error
    · rw [run]
      change Behaves _ _ _ _ _ (takeSpace services a m base r)
      rw [takeSpace]
      split
      · exact failed _ nofun
      · have keeps : KeepsAddresses fun (_ : Unit) (e : GcdMapEntry) =>
            ({ e with imageHandle := a.imageHandle, deviceHandle := a.deviceHandle }, ()) := fun _ _ _ _ => rfl
        have notRound : ¬ GoesRound base a.length.toNat (m.map a.operation) := by
          refine straight base aligned fun address => ?_
          have same : base = baseAddress.toNat := given' (Option.some.inj (type.symm.trans address))
          rw [given, Option.map_some, same]
        obtain ⟨map', run', outcome⟩ := changed_of_found keeps () partition nonzero search notRound
        rw [run']
        exact behaves_ok outcome
  · exact failed _ nofun

theorem Outcome.partition {length : Nat} {status : EfiStatus} {result : Option Nat}
    (outcome : Outcome maxMemory maxIo op length m status result m') (partition : Partition maxMemory maxIo m) :
    Partition maxMemory maxIo m' := by
  cases outcome with
  | failed => exact partition
  | changed _ _ _ _ _ partition' => exact partition'

theorem behaves_call (c : Call) (partition : Partition maxMemory maxIo m) (straight : c.Straight m) :
    Behaves maxMemory maxIo c.operation c.length m (c.run m) := by
  cases c with
  | convert services c => exact behaves_convert services c partition straight
  | allocate fuel services a => exact behaves_allocate fuel services a partition straight

end Calls

def initialMaps (maxMemory maxIo : UInt64) : GcdMaps :=
  ⟨[mapEntryTemplate maxMemory.toNat], [mapEntryTemplate maxIo.toNat]⟩

/-- The states between calls, from the initialization on, as long as every call meets the condition. -/
inductive Reachable (maxMemory maxIo : UInt64) (condition : GcdMaps → Call → Prop) : GcdMaps → Prop where
  | init : Reachable maxMemory maxIo condition (initialMaps maxMemory maxIo)
  | call {m m'} (c : Call) (status : EfiStatus) (base : Option Nat) : Reachable maxMemory maxIo condition m →
    condition m c → c.run m = .ok (status, base, m') → Reachable maxMemory maxIo condition m'

theorem partition_of_reachable {maxMemory maxIo : UInt64} {m : GcdMaps}
    (reach : Reachable maxMemory maxIo (fun m c => c.Straight m) m) : Partition maxMemory maxIo m := by
  induction reach with
  | init => exact ⟨⟨rfl, Nat.succ_pos _, rfl⟩, ⟨rfl, Nat.succ_pos _, rfl⟩⟩
  | call c status base _ straight run ih => exact ((behaves_call c ih straight).2 status base _ run).partition ih

/-- While no range goes round the address space, the maps stay partitions of `[0, Max]`, and a successful call changes
    what lies in its range, which lies in the map, and nothing else. -/
theorem gcdMaps_stay_partitions {maxMemory maxIo : UInt64} {m : GcdMaps}
    (reach : Reachable maxMemory maxIo (fun m c => c.Straight m) m) :
    Partition maxMemory maxIo m ∧
      ∀ c : Call, c.Straight m → Behaves maxMemory maxIo c.operation c.length m (c.run m) :=
  ⟨partition_of_reachable reach, fun c straight => behaves_call c (partition_of_reachable reach) straight⟩

def sampleAddition : Conversion := ⟨.addMemory, .systemMemory, .nonExistent, 0x100000, 0x10000, 0xF, 0⟩

def sampleServices : Services := ⟨true, true, none⟩

theorem gcdMaps_stay_partitions_sample :
    ∃ m, Reachable 0xFFFFFFFFF 0xFFFF (fun m c => c.Straight m) m ∧ m.memorySpaceMap.length = 3 ∧
      Partition 0xFFFFFFFFF 0xFFFF m := by
  have straight : (Call.convert sampleServices sampleAddition).Straight (initialMaps 0xFFFFFFFFF 0xFFFF) := by
    rintro ⟨e, _, _, round⟩
    have : (2 : Nat) ^ 64 ≤ 2 ^ 64 + e.baseAddress := Nat.le_add_right _ _
    change 2 ^ 64 + e.baseAddress < 0x100000 + 0x10000 at round
    omega
  have reach := Reachable.call (.convert sampleServices sampleAddition) .success (some 0x100000) .init straight rfl
  exact ⟨_, reach, rfl, (gcdMaps_stay_partitions reach).1⟩

def goingRound : Conversion := ⟨.addMemory, .systemMemory, .nonExistent, 0x1000, 0xFFFFFFFFFFFFF800, 0xF, 0⟩

/-- The first call of a run may leave entries that end before they begin and that overlap. -/
theorem convertSpace_breaks_partition :
    ∃ m, (Call.convert sampleServices goingRound).run (initialMaps 0xFFFFFFFFF 0xFFFF) =
      .ok (.success, some 0x1000, m) ∧ m.memorySpaceMap.map (fun e => (e.baseAddress, e.endAddress)) =
        [(0, 0xFFF), (0x1000, 0x7FF), (0x800, 0xFFFFFFFFF)] ∧
      ¬ layout.Tiles 0 (0xFFFFFFFFF + 1) m.memorySpaceMap ∧
      ¬ 0x1000 + goingRound.length.toNat ≤ 0xFFFFFFFFF + 1 :=
  ⟨_, rfl, rfl, by decide, by decide⟩

end LeoEdk.Gcd
