import LeoEdk.Lib.Trail
import LeoEdk.Theorems.FatEntries

/-! The clusters of the files of a FAT volume. An `Edit` of one chain leaves every other entry alone; growing and
    shrinking a file are edits, so a volume stays `Formed` in every sequence of calls. -/

namespace LeoEdk.Fat

open List Bytes

variable {g : Geometry} {v : Volume} {f : OFile} {c cluster : Nat} {xs ys zs : List Nat}

theorem clusterSpecial_eq : clusterSpecial = 0xFFFFFFFFFFFFFFF7 := by decide

/-- Of FAT12 and FAT16 no volume is accepted with more clusters than an entry can tell apart. -/
theorem Geometry.lt_special (fits : g.maxCluster + 1 < FatType.special .fat32) :
    g.maxCluster + 1 < g.fatType.special := by
  have accepted := g.accepted
  cases kind : g.fatType with
  | fat12 =>
    rw [kind, FatType.Accepts] at accepted
    rw [FatType.special]
    omega
  | fat16 =>
    rw [kind, FatType.Accepts] at accepted
    rw [FatType.special]
    omega
  | fat32 => exact fits

theorem Geometry.lt_wrap (fits : g.maxCluster + 1 < FatType.special .fat32) : g.maxCluster + 2 < 2 ^ 32 := by
  rw [FatType.special] at fits
  omega

theorem InRange.ne_free (inRange : InRange g c) : c ≠ clusterFree := by
  have := inRange.1
  rw [minCluster] at this
  rw [clusterFree]
  omega

section Clusters

-- An entry can hold the number of every cluster.
variable (fits : g.maxCluster + 1 < FatType.special .fat32) (inRange : InRange g c)
include fits inRange

theorem InRange.lt_clusterSpecial : c < clusterSpecial := by
  have := inRange.2
  rw [FatType.special] at fits
  rw [clusterSpecial_eq]
  omega

theorem InRange.not_end : ¬ endOfFatChain c :=
  Nat.not_lt.mpr (InRange.lt_clusterSpecial fits inRange).le

theorem InRange.storable : Storable g.fatType c := .inl (inRange.2.trans_lt (g.lt_special fits))

end Clusters

theorem storable_free : Storable g.fatType clusterFree := by
  left
  cases g.fatType <;> decide

theorem storable_last : Storable g.fatType clusterLast := .inr rfl

theorem end_last : endOfFatChain clusterLast := by decide

theorem end_ne_free {e : Nat} (ends : endOfFatChain e) : e ≠ clusterFree := by
  rintro rfl
  exact absurd ends (by decide)

/-! ### The chain of a file -/

variable (g) in
/-- The clusters of a file: from the first one, each leads to the next and the last one to a mark of the end. -/
structure Chained (v : Volume) (f : OFile) (xs : List Nat) : Prop where
  trail : ∃ e, Trail (entry g v.fat) f.fileCluster xs e ∧ if xs = [] then e = clusterFree else endOfFatChain e
  inRange : ∀ c ∈ xs, InRange g c
  /-- The last cluster is unknown or the one on record. -/
  last : f.fileLastCluster = clusterFree ∨ xs.getLast? = some f.fileLastCluster

namespace Chained

theorem not_inRange_end {e : Nat} (fits : g.maxCluster + 1 < FatType.special .fat32)
    (ends : if xs = [] then e = clusterFree else endOfFatChain e) : ¬ InRange g e := by
  intro inRange
  split at ends
  · exact inRange.ne_free ends
  · exact inRange.not_end fits ends

theorem nodup (chained : Chained g v f xs) (fits : g.maxCluster + 1 < FatType.special .fat32) :
    xs.Nodup := by
  obtain ⟨e, trail, ends⟩ := chained.trail
  exact trail.nodup chained.inRange (not_inRange_end fits ends)

theorem entry_ne_free (chained : Chained g v f xs) (mem : c ∈ xs) : entry g v.fat c ≠ clusterFree := by
  obtain ⟨e, trail, ends⟩ := chained.trail
  rw [if_neg (ne_nil_of_mem mem)] at ends
  rcases trail.next_mem mem with inside | eq
  · exact (chained.inRange _ inside).ne_free
  · rw [eq]
    exact end_ne_free ends

theorem length_le (chained : Chained g v f xs) (fits : g.maxCluster + 1 < FatType.special .fat32) :
    xs.length ≤ g.maxCluster := by
  have subset : xs.toFinset ⊆ Finset.Ico 2 (g.maxCluster + 2) := by
    intro c mem
    obtain ⟨low, high⟩ := chained.inRange c (mem_toFinset.mp mem)
    exact Finset.mem_Ico.mpr ⟨low, Nat.lt_succ_of_le high⟩
  have card := Finset.card_le_card subset
  rw [toFinset_card_of_nodup (chained.nodup fits), Nat.card_Ico] at card
  omega

end Chained

/-! ### Edits of one chain -/

variable (g) in
/-- The table after one chain was changed: every other entry is as it was, the clusters that left the chain are free and
    those that joined it were. -/
structure Edit (v : Volume) (xs : List Nat) (v' : Volume) (xs' : List Nat) : Prop where
  apart : ∀ c, minCluster ≤ c → c ∉ xs → c ∉ xs' → entry g v'.fat c = entry g v.fat c
  freed : ∀ c ∈ xs, c ∉ xs' → entry g v'.fat c = clusterFree
  taken : ∀ c ∈ xs', c ∉ xs → InRange g c ∧ entry g v.fat c = clusterFree

namespace Edit

variable {v v' v'' : Volume} {xs xs' xs'' : List Nat}

theorem of_same (same : v'.fat = v.fat) : Edit g v xs v' xs :=
  ⟨fun c _ _ _ => by rw [same], fun _ mem out => absurd mem out, fun _ mem out => absurd mem out⟩

theorem trans (first : Edit g v xs v' xs') (second : Edit g v' xs' v'' xs'') (inRange : ∀ c ∈ xs, InRange g c) :
    Edit g v xs v'' xs'' := by
  refine ⟨fun c two out out'' => ?_, fun c mem out'' => ?_, fun c mem'' out => ?_⟩
  · by_cases mem' : c ∈ xs'
    · rw [second.freed c mem' out'', (first.taken c mem' out).2]
    · rw [second.apart c two mem' out'', first.apart c two out mem']
  · by_cases mem' : c ∈ xs'
    · exact second.freed c mem' out''
    · rw [second.apart c (inRange c mem).1 mem' out'', first.freed c mem mem']
  · by_cases mem' : c ∈ xs'
    · exact first.taken c mem' out
    · obtain ⟨range, free⟩ := second.taken c mem'' mem'
      rw [first.apart c range.1 out mem'] at free
      exact ⟨range, free⟩

end Edit

/-! ### The loops over a chain -/

section Loops

variable (fits : g.maxCluster + 1 < FatType.special .fat32)
include fits

theorem keepLoop_eq {b : Nat} (trail : Trail (entry g v.fat) cluster ys b)
    (inRange : ∀ c ∈ ys, InRange g c) (lastCluster : Nat) :
    ∃ p, keepLoop g ys.length v cluster lastCluster = (some (b, ys.getLastD lastCluster),
      { v with fatEntryPos := p }) := by
  induction ys generalizing v cluster lastCluster with
  | nil =>
    rw [Trail.nil_iff] at trail
    subst trail
    exact ⟨v.fatEntryPos, rfl⟩
  | cons y ys ih =>
    obtain ⟨rfl, rest⟩ := Trail.cons_iff.mp trail
    have here := inRange cluster mem_cons_self
    obtain ⟨p, got⟩ := fatGetFatEntry_eq (g := g) v cluster
    obtain ⟨q, run⟩ := ih (v := { v with fatEntryPos := p }) rest (fun c mem => inRange c (mem_cons_of_mem _ mem))
      cluster
    refine ⟨q, ?_⟩
    rw [length_cons, keepLoop, if_neg (not_or.mpr ⟨here.ne_free, Nat.not_le.mpr (here.lt_clusterSpecial fits)⟩), got]
    dsimp only
    rw [run, getLastD_cons]

theorem freeClustersLoop_spec {e : Nat} {fuel : Nat}
    (trail : Trail (entry g v.fat) cluster zs e) (ends : endOfFatChain e) (inRange : ∀ c ∈ zs, InRange g c)
    (enough : zs.length < fuel) (hint : minCluster ≤ v.nextCluster) :
    ∃ v', freeClustersLoop g fuel v cluster = some (.success, v') ∧ minCluster ≤ v'.nextCluster ∧
      ∀ c, minCluster ≤ c → entry g v'.fat c = if c ∈ zs then clusterFree else entry g v.fat c := by
  induction zs generalizing v cluster fuel with
  | nil =>
    rw [Trail.nil_iff] at trail
    subst trail
    obtain _ | fuel := fuel
    · cases enough
    exact ⟨v, by rw [freeClustersLoop, if_pos ends], hint, fun c _ => by simp⟩
  | cons z zs ih =>
    have nodup := trail.nodup inRange fun range => range.not_end fits ends
    obtain ⟨rfl, rest⟩ := Trail.cons_iff.mp trail
    obtain _ | fuel := fuel
    · cases enough
    have here := inRange cluster mem_cons_self
    obtain ⟨p, got⟩ := fatGetFatEntry_eq (g := g) v cluster
    have set : ∀ c, minCluster ≤ c → entry g (fatSetFatEntry g { v with fatEntryPos := p } cluster clusterFree).fat c =
        if c = cluster then clusterFree else entry g v.fat c :=
      fun c two => entry_fatSetFatEntry _ here storable_free two
    have rest' : Trail (entry g (fatSetFatEntry g { v with fatEntryPos := p } cluster clusterFree).fat)
        (entry g v.fat cluster) zs e := by
      refine rest.congr fun c mem => ?_
      rw [set c (inRange c (mem_cons_of_mem _ mem)).1, if_neg]
      rintro rfl
      exact (nodup_cons.mp nodup).1 mem
    obtain ⟨v', run, hint', freed⟩ := ih rest' (fun c mem => inRange c (mem_cons_of_mem _ mem))
      (Nat.lt_of_succ_lt_succ enough) (two_le_fatSetFatEntry _ hint)
    refine ⟨v', ?_, hint', fun c two => ?_⟩
    · rw [freeClustersLoop, if_neg (here.not_end fits),
        if_neg (not_or.mpr ⟨here.ne_free, Nat.not_le.mpr (here.lt_clusterSpecial fits)⟩), got]
      exact run
    · rw [freed c two, set c two]
      by_cases first : c = cluster
      · subst first
        simp
      · simp [first]

theorem fatFreeClusters_spec {e : Nat}
    (trail : Trail (entry g v.fat) cluster zs e) (ends : endOfFatChain e) (inRange : ∀ c ∈ zs, InRange g c)
    (short : zs.length ≤ g.maxCluster) (hint : minCluster ≤ v.nextCluster) :
    ∃ v', fatFreeClusters g v cluster = some (.success, v') ∧ minCluster ≤ v'.nextCluster ∧
      ∀ c, minCluster ≤ c → entry g v'.fat c = if c ∈ zs then clusterFree else entry g v.fat c :=
  freeClustersLoop_spec fits trail ends inRange (Nat.lt_succ_of_le short) hint

omit fits in
theorem exists_split {n : Nat} (some_ : n ≠ 0) (le : n ≤ xs.length) :
    ∃ ys z zs, xs = ys ++ z :: zs ∧ xs.take n = ys ++ [z] := by
  obtain ⟨k, rfl⟩ := Nat.exists_eq_succ_of_ne_zero some_
  refine ⟨xs.take k, xs[k], xs.drop (k + 1), ?_, ?_⟩
  · rw [← drop_eq_getElem_cons, take_append_drop]
  · exact (take_append_getElem le).symm

theorem shrink_to {z : Nat} (chained : Chained g v f (ys ++ z :: zs))
    (hint : minCluster ≤ v.nextCluster) :
    ∃ p v', keepLoop g (ys ++ [z]).length v f.fileCluster clusterFree =
        (some (entry g v.fat z, z), { v with fatEntryPos := p }) ∧
      fatFreeClusters g (fatSetFatEntry g { v with fatEntryPos := p } z clusterLast) (entry g v.fat z) =
        some (.success, v') ∧
      Trail (entry g v'.fat) f.fileCluster (ys ++ [z]) clusterLast ∧ Edit g v (ys ++ z :: zs) v' (ys ++ [z]) ∧
      minCluster ≤ v'.nextCluster := by
  obtain ⟨e, trail, ends⟩ := chained.trail
  rw [if_neg (by simp)] at ends
  have nodup := chained.nodup fits
  have short := chained.length_le fits
  rw [length_append, length_cons] at short
  obtain ⟨disjoint, zFresh⟩ : ys.Disjoint (z :: zs) ∧ z ∉ zs :=
    ⟨(nodup_append'.mp nodup).2.2, (nodup_cons.mp (nodup_append'.mp nodup).2.1).1⟩
  have yFresh : z ∉ ys := fun mem => disjoint mem mem_cons_self
  obtain ⟨b, front, back⟩ := Trail.append_iff.mp trail
  obtain ⟨rfl, rest⟩ := Trail.cons_iff.mp back
  have inFront : ∀ c ∈ ys, InRange g c := fun c mem => chained.inRange c (mem_append_left _ mem)
  have inBack : ∀ c ∈ zs, InRange g c := fun c mem => chained.inRange c (mem_append_right _ (mem_cons_of_mem _ mem))
  have here : InRange g b := chained.inRange b (mem_append_right _ mem_cons_self)
  obtain ⟨p, keep⟩ := keepLoop_eq fits (Trail.concat_iff.mpr ⟨front, rfl⟩)
    (fun c mem => (mem_append.mp mem).elim (inFront c) fun memZ => mem_singleton.mp memZ ▸ here) clusterFree
  rw [getLastD_concat] at keep
  have set : ∀ c, minCluster ≤ c → entry g (fatSetFatEntry g { v with fatEntryPos := p } b clusterLast).fat c =
      if c = b then clusterLast else entry g v.fat c := fun c two => entry_fatSetFatEntry _ here storable_last two
  have rest' : Trail (entry g (fatSetFatEntry g { v with fatEntryPos := p } b clusterLast).fat)
      (entry g v.fat b) zs e := by
    refine rest.congr fun c mem => ?_
    rw [set c (inBack c mem).1, if_neg]
    rintro rfl
    exact zFresh mem
  obtain ⟨v', run, hint', freed⟩ :=
    fatFreeClusters_spec fits rest' ends inBack (by omega) (two_le_fatSetFatEntry _ hint)
  have table : ∀ c, minCluster ≤ c → entry g v'.fat c =
      if c ∈ zs then clusterFree else if c = b then clusterLast else entry g v.fat c := by
    intro c two
    rw [freed c two, set c two]
  refine ⟨p, v', keep, run, ?_, ?_, hint'⟩
  · refine Trail.concat_iff.mpr ⟨front.congr fun c mem => ?_, ?_⟩
    · rw [table c (inFront c mem).1, if_neg fun memZ => disjoint mem (mem_cons_of_mem _ memZ), if_neg]
      rintro rfl
      exact yFresh mem
    · rw [table b here.1, if_neg zFresh, if_pos rfl]
  · refine ⟨fun c two out _ => ?_, fun c mem out => ?_, fun c mem out => ?_⟩
    · simp only [mem_append, mem_cons, not_or] at out
      rw [table c two, if_neg out.2.2, if_neg out.2.1]
    · simp only [mem_append, mem_cons, not_mem_nil, or_false, not_or] at mem out
      have memZ : c ∈ zs := (mem.resolve_left out.1).resolve_left out.2
      rw [table c (inBack c memZ).1, if_pos memZ]
    · simp only [mem_append, mem_cons, not_mem_nil, or_false, not_or] at mem out
      exact absurd mem (not_or.mpr ⟨out.1, out.2.1⟩)

theorem fatShrinkEof_spec (chained : Chained g v f xs)
    (hint : minCluster ≤ v.nextCluster) (le : fatSizeToClusters g f.fileSize ≤ xs.length) :
    ∃ f' v', fatShrinkEof g f v = some (.success, f', v') ∧ Chained g v' f' (xs.take (fatSizeToClusters g f.fileSize)) ∧
      Edit g v xs v' (xs.take (fatSizeToClusters g f.fileSize)) ∧ f'.fileSize = f.fileSize ∧
      minCluster ≤ v'.nextCluster := by
  rw [fatShrinkEof]
  by_cases zero : fatSizeToClusters g f.fileSize = 0
  · rw [zero, take_zero]
    simp only [ne_eq, not_true_eq_false, if_false]
    obtain ⟨e, trail, ends⟩ := chained.trail
    cases xs with
    | nil =>
      rw [if_pos rfl] at ends
      rw [Trail.nil_iff, ends] at trail
      rw [if_pos trail]
      exact ⟨f, v, rfl, chained, .of_same rfl, rfl, hint⟩
    | cons x xs =>
      rw [if_neg (cons_ne_nil x xs)] at ends
      have first := (Trail.cons_iff.mp trail).1
      have short := chained.length_le fits
      rw [if_neg (first ▸ (chained.inRange x mem_cons_self).ne_free)]
      obtain ⟨v', run, hint', freed⟩ := fatFreeClusters_spec fits trail ends chained.inRange short hint
      rw [run]
      refine ⟨_, v', rfl, ⟨⟨clusterFree, .nil _, by rw [if_pos rfl]⟩, fun c mem => (by cases mem), .inl rfl⟩,
        ?_, rfl, hint'⟩
      refine ⟨fun c two out _ => ?_, fun c mem _ => ?_, fun c mem => (by cases mem)⟩
      · rw [freed c two, if_neg out]
      · rw [freed c (chained.inRange c mem).1, if_pos mem]
  · obtain ⟨ys, z, zs, rfl, kept⟩ := exists_split zero le
    obtain ⟨p, v', keep, free, trail, edit, hint'⟩ := shrink_to fits chained hint
    have length : (ys ++ [z]).length = fatSizeToClusters g f.fileSize := by
      rw [← kept, length_take, Nat.min_eq_left le]
    rw [length] at keep
    rw [if_pos zero, keep, kept]
    dsimp only
    rw [free]
    refine ⟨_, v', rfl, ⟨⟨clusterLast, trail, ?_⟩, fun c mem => ?_, .inr ?_⟩, edit, rfl, hint'⟩
    · rw [if_neg (by simp)]
      exact end_last
    · refine chained.inRange c ?_
      rw [← kept] at mem
      exact mem_of_mem_take mem
    · exact List.getLast?_concat

theorem lastClusterLoop_eq {e : Nat} {fuel : Nat}
    (trail : Trail (entry g v.fat) cluster ys e) (ends : endOfFatChain e) (inRange : ∀ c ∈ ys, InRange g c)
    (enough : ys.length < fuel) (f : OFile) (count : Nat) :
    ∃ p, lastClusterLoop g fuel v f cluster count = some (some (count + ys.length),
      { f with fileLastCluster := ys.getLastD f.fileLastCluster }, { v with fatEntryPos := p }) := by
  induction ys generalizing v cluster fuel f count with
  | nil =>
    rw [Trail.nil_iff] at trail
    subst trail
    obtain _ | fuel := fuel
    · cases enough
    refine ⟨v.fatEntryPos, ?_⟩
    rw [lastClusterLoop, if_pos ends]
    rfl
  | cons y ys ih =>
    obtain ⟨rfl, rest⟩ := Trail.cons_iff.mp trail
    obtain _ | fuel := fuel
    · cases enough
    have here := inRange cluster mem_cons_self
    obtain ⟨p, got⟩ := fatGetFatEntry_eq (g := g) v cluster
    obtain ⟨q, run⟩ := ih (v := { v with fatEntryPos := p }) rest (fun c mem => inRange c (mem_cons_of_mem _ mem))
      (Nat.lt_of_succ_lt_succ enough) { f with fileLastCluster := cluster } (count + 1)
    refine ⟨q, ?_⟩
    rw [lastClusterLoop, if_neg (here.not_end fits), if_neg (not_or.mpr ⟨Nat.not_lt.mpr here.1, Nat.not_lt.mpr here.2⟩),
      got]
    dsimp only
    rw [run, getLastD_cons, length_cons, Nat.add_assoc, Nat.add_comm 1]

theorem findLastCluster_spec (chained : Chained g v f xs) :
    ∃ p, findLastCluster g f v xs.length =
      some (true, { f with fileLastCluster := xs.getLastD clusterFree }, { v with fatEntryPos := p }) := by
  obtain ⟨e, trail, ends⟩ := chained.trail
  rw [findLastCluster]
  split
  next search =>
    have some_ : xs ≠ [] := by
      rintro rfl
      rw [if_pos rfl] at ends
      exact search.1 ((Trail.nil_iff.mp trail).trans ends)
    rw [if_neg some_] at ends
    obtain ⟨p, run⟩ := lastClusterLoop_eq fits trail ends chained.inRange (Nat.lt_succ_of_le (chained.length_le fits))
      f 0
    refine ⟨p, ?_⟩
    rw [run, search.2, Nat.zero_add]
    simp [clusterFree]
  next known =>
    refine ⟨v.fatEntryPos, ?_⟩
    have last : xs.getLastD clusterFree = f.fileLastCluster := by
      rcases chained.last with unknown | eq
      · have first : f.fileCluster = clusterFree := by
          by_contra first
          exact known ⟨first, unknown⟩
        cases xs with
        | nil => exact unknown.symm
        | cons x xs =>
          have same := (Trail.cons_iff.mp trail).1
          exact absurd (same.symm.trans first) (chained.inRange x mem_cons_self).ne_free
      · rw [getLastD_eq_getLast?, eq, Option.getD_some]
    rw [last]

theorem link_cluster {w : Volume} (chained : Chained g v f xs)
    (same : w.fat = v.fat) (inRange : InRange g c) (free : entry g v.fat c = clusterFree) :
    let lastCluster := xs.getLastD clusterFree
    let f' : OFile := if lastCluster ≠ 0 then f else { f with fileCluster := c, fileCurrentCluster := c }
    let w' := if lastCluster ≠ 0 then fatSetFatEntry g w lastCluster c else w
    Chained g (fatSetFatEntry g w' c clusterLast) { f' with fileLastCluster := c } (xs ++ [c]) ∧
      Edit g v xs (fatSetFatEntry g w' c clusterLast) (xs ++ [c]) := by
  intro lastCluster f' w'
  have fresh : c ∉ xs := fun mem => chained.entry_ne_free mem free
  have inRange' : ∀ d ∈ xs ++ [c], InRange g d :=
    forall_mem_append.mpr ⟨chained.inRange, forall_mem_singleton.mpr inRange⟩
  have table : ∀ d, minCluster ≤ d → entry g (fatSetFatEntry g w' c clusterLast).fat d =
      if d = c then clusterLast else entry g w'.fat d := fun d two => entry_fatSetFatEntry _ inRange storable_last two
  rcases eq_nil_or_concat' xs with rfl | ⟨ys, z, rfl⟩
  · -- the first cluster of the file
    have noLast : ¬ lastCluster ≠ 0 := by simp [lastCluster, clusterFree]
    have first : f' = { f with fileCluster := c, fileCurrentCluster := c } := if_neg noLast
    have before : w' = w := if_neg noLast
    rw [first]
    refine ⟨⟨⟨clusterLast, ?_, ?_⟩, inRange', .inr List.getLast?_concat⟩, ?_⟩
    · refine .cons ?_
      rw [table c inRange.1, if_pos rfl]
      exact .nil _
    · rw [if_neg (by simp)]
      exact end_last
    · refine ⟨fun d two _ out => ?_, fun d mem => (by cases mem), fun d mem _ => ?_⟩
      · rw [table d two, if_neg fun eq : d = c => out (eq ▸ mem_singleton_self c), before, same]
      · rw [mem_singleton.mp mem]
        exact ⟨inRange, free⟩
  · have last : lastCluster = z := getLastD_concat
    have here : InRange g z := chained.inRange z mem_concat_self
    have isLast : lastCluster ≠ 0 := last ▸ here.ne_free
    have first : f' = f := if_pos isLast
    have before : w' = fatSetFatEntry g w z c := by
      rw [← last]
      exact if_pos isLast
    have linked : ∀ d, minCluster ≤ d → entry g (fatSetFatEntry g w' c clusterLast).fat d =
        if d = c then clusterLast else if d = z then c else entry g v.fat d := by
      intro d two
      rw [table d two, before, entry_fatSetFatEntry _ here (inRange.storable fits) two, same]
    obtain ⟨e, trail, ends⟩ := chained.trail
    have nodup := chained.nodup fits
    have zFresh : z ∉ ys := by
      intro mem
      exact (nodup_append'.mp nodup).2.2 mem (mem_singleton_self z)
    rw [first]
    refine ⟨⟨⟨clusterLast, ?_, ?_⟩, inRange', .inr List.getLast?_concat⟩, ?_⟩
    · refine Trail.concat_iff.mpr ⟨Trail.concat_iff.mpr ⟨(Trail.concat_iff.mp trail).1.congr fun d mem => ?_, ?_⟩, ?_⟩
      · have memXs : d ∈ ys ++ [z] := mem_append_left _ mem
        rw [linked d (chained.inRange d memXs).1, if_neg (ne_of_mem_of_not_mem memXs fresh),
          if_neg (ne_of_mem_of_not_mem mem zFresh)]
      · rw [linked z here.1, if_neg (ne_of_mem_of_not_mem mem_concat_self fresh), if_pos rfl]
      · rw [linked c inRange.1, if_pos rfl]
    · rw [if_neg (by simp)]
      exact end_last
    · refine ⟨fun d two out out' => ?_, fun d mem out => ?_, fun d mem out => ?_⟩
      · have notC : d ≠ c := (ne_of_mem_of_not_mem mem_concat_self out').symm
        have notZ : d ≠ z := (ne_of_mem_of_not_mem mem_concat_self out).symm
        rw [linked d two, if_neg notC, if_neg notZ]
      · exact absurd (mem_append_left _ mem) out
      · have eq : d = c := mem_singleton.mp ((mem_append.mp mem).resolve_left out)
        rw [eq]
        exact ⟨inRange, free⟩

theorem end_cluster {w : Volume} {z : Nat} (chained : Chained g v f (ys ++ [z]))
    (same : w.fat = v.fat) :
    Chained g (fatSetFatEntry g w z clusterLast) { f with fileLastCluster := z } (ys ++ [z]) ∧
      Edit g v (ys ++ [z]) (fatSetFatEntry g w z clusterLast) (ys ++ [z]) := by
  have here : InRange g z := chained.inRange z mem_concat_self
  have table : ∀ d, minCluster ≤ d → entry g (fatSetFatEntry g w z clusterLast).fat d =
      if d = z then clusterLast else entry g v.fat d := by
    intro d two
    rw [entry_fatSetFatEntry _ here storable_last two, same]
  obtain ⟨e, trail, ends⟩ := chained.trail
  have zFresh : z ∉ ys := fun mem => (nodup_append'.mp (chained.nodup fits)).2.2 mem (mem_singleton_self z)
  refine ⟨⟨⟨clusterLast, ?_, ?_⟩, chained.inRange, .inr List.getLast?_concat⟩, ?_⟩
  · refine Trail.concat_iff.mpr ⟨(Trail.concat_iff.mp trail).1.congr fun d mem => ?_, ?_⟩
    · rw [table d (chained.inRange d (mem_append_left _ mem)).1, if_neg (ne_of_mem_of_not_mem mem zFresh)]
    · rw [table z here.1, if_pos rfl]
  · rw [if_neg (by simp)]
    exact end_last
  · refine ⟨fun d two out _ => ?_, fun d mem out => absurd mem out, fun d mem out => absurd mem out⟩
    rw [table d two, if_neg (ne_of_mem_of_not_mem mem_concat_self out).symm]

theorem growLoop_spec {count : Nat} (chained : Chained g v f xs)
    (hint : minCluster ≤ v.nextCluster) :
    ∃ status f' v' ys, growLoop g count f v (xs.getLastD clusterFree) = some (status, f', v') ∧
      Chained g v' f' (xs ++ ys) ∧ Edit g v xs v' (xs ++ ys) ∧ f'.fileSize = f.fileSize ∧ minCluster ≤ v'.nextCluster ∧
      (status = .success ∧ ys.length = count ∨ status = .volumeFull) := by
  induction count generalizing v f xs with
  | zero =>
    refine ⟨.success, f, v, [], rfl, ?_, ?_, rfl, hint, .inl ⟨rfl, rfl⟩⟩
    · rw [append_nil]
      exact chained
    · rw [append_nil]
      exact .of_same rfl
  | succ count ih =>
    obtain ⟨c, w, run, same, hintW, rfl | ⟨inRange, free⟩⟩ := fatAllocateCluster_spec (g.lt_wrap fits) hint
    · rw [growLoop, run]
      simp only [Option.bind_eq_bind, Option.bind_some, if_pos end_last]
      rcases eq_nil_or_concat' xs with rfl | ⟨ys, z, rfl⟩
      · refine ⟨.volumeFull, f, w, [], rfl, ⟨?_, chained.inRange, chained.last⟩, .of_same same, rfl, hintW, .inr rfl⟩
        rw [same]
        exact chained.trail
      · have here : InRange g z := chained.inRange z mem_concat_self
        obtain ⟨kept, edit⟩ := end_cluster fits chained same
        refine ⟨.volumeFull, { f with fileLastCluster := z }, fatSetFatEntry g w z clusterLast, [], ?_, ?_, ?_, rfl,
          two_le_fatSetFatEntry _ hintW, .inr rfl⟩
        · rw [getLastD_concat, if_pos here.ne_free]
          rfl
        · rw [append_nil]
          exact kept
        · rw [append_nil]
          exact edit
    · obtain ⟨linked, edit⟩ := link_cluster fits chained same inRange free
      have hint' : minCluster ≤ (fatSetFatEntry g (if xs.getLastD clusterFree ≠ 0 then
          fatSetFatEntry g w (xs.getLastD clusterFree) c else w) c clusterLast).nextCluster := by
        apply two_le_fatSetFatEntry
        split
        · exact two_le_fatSetFatEntry _ hintW
        · exact hintW
      obtain ⟨status, f', v', ys, rest, chained', edit', size, hintV, outcome⟩ := ih linked hint'
      rw [getLastD_concat] at rest
      refine ⟨status, f', v', c :: ys, ?_, ?_, ?_, ?_, hintV, ?_⟩
      · rw [growLoop, run]
        simp only [Option.bind_eq_bind, Option.bind_some, if_neg (inRange.not_end fits),
          if_neg (not_or.mpr ⟨Nat.not_lt.mpr inRange.1, Nat.not_lt.mpr inRange.2⟩)]
        exact rest
      · rw [← append_cons] at chained'
        exact chained'
      · rw [← append_cons] at edit'
        exact edit.trans edit' chained.inRange
      · rw [size]
        split <;> rfl
      · rcases outcome with ⟨rfl, length⟩ | rfl
        · exact .inl ⟨rfl, congrArg Nat.succ length⟩
        · exact .inr rfl

theorem fatGrowEof_spec {newSizeInBytes : Nat} (chained : Chained g v f xs)
    (length : xs.length = fatSizeToClusters g f.fileSize) (hint : minCluster ≤ v.nextCluster)
    (grows : newSizeInBytes > 0xFFFFFFFF ∨ fatSizeToClusters g f.fileSize ≤ fatSizeToClusters g newSizeInBytes) :
    ∃ status f' v' xs', fatGrowEof g f v newSizeInBytes = some (status, f', v') ∧ Chained g v' f' xs' ∧
      Edit g v xs v' xs' ∧ xs'.length = fatSizeToClusters g f'.fileSize ∧ minCluster ≤ v'.nextCluster ∧
      (status = .volumeFull → xs' = xs) := by
  rw [fatGrowEof]
  by_cases large : newSizeInBytes > 0xFFFFFFFF
  · rw [if_pos large]
    exact ⟨_, f, v, xs, rfl, chained, .of_same rfl, length, hint, fun _ => rfl⟩
  · rw [if_neg large, addClusters]
    by_cases more : fatSizeToClusters g f.fileSize < fatSizeToClusters g newSizeInBytes
    · obtain ⟨p, found⟩ := findLastCluster_spec fits chained
      have chained' : Chained g { v with fatEntryPos := p } { f with fileLastCluster := xs.getLastD clusterFree }
          xs := by
        refine ⟨chained.trail, chained.inRange, ?_⟩
        rcases eq_nil_or_concat' xs with rfl | ⟨ys, z, rfl⟩
        · exact .inl rfl
        · right
          rw [List.getLast?_concat, getLastD_concat]
      obtain ⟨status, f', v', ys, run, grown, edit, size, hint', outcome⟩ :=
        @growLoop_spec g _ _ _ fits (fatSizeToClusters g newSizeInBytes - fatSizeToClusters g f.fileSize) chained' hint
      have edit : Edit g v xs v' (xs ++ ys) := ⟨edit.apart, edit.freed, edit.taken⟩
      rw [if_pos more, ← length, found]
      simp only [Option.bind_eq_bind, Option.bind_some, if_true]
      rw [length, run]
      simp only [Option.bind_some]
      rcases outcome with ⟨rfl, enough⟩ | rfl
      · rw [if_pos rfl]
        refine ⟨_, _, v', xs ++ ys, rfl, ⟨grown.trail, grown.inRange, grown.last⟩, edit, ?_, hint', fun full =>
          nomatch full⟩
        rw [length_append, enough, length]
        exact Nat.add_sub_cancel' more.le
      · -- the clusters that were added are given back
        have back : fatSizeToClusters g f'.fileSize ≤ (xs ++ ys).length := by
          rw [size, length_append, length]
          exact Nat.le_add_right ..
        have kept : (xs ++ ys).take (fatSizeToClusters g f'.fileSize) = xs := by
          rw [size]
          exact take_left' length
        obtain ⟨f'', v'', shrunk, chained'', edit', size', hint''⟩ := fatShrinkEof_spec fits grown hint' back
        rw [kept] at chained'' edit'
        rw [if_neg (by simp), shrunk]
        refine ⟨_, f'', v'', xs, rfl, chained'', ?_, ?_, hint'', fun _ => rfl⟩
        · exact edit.trans edit' chained.inRange
        · rw [size', size]
          exact length
    · rw [if_neg more]
      refine ⟨_, _, v, xs, rfl, ⟨chained.trail, chained.inRange, chained.last⟩, .of_same rfl, ?_, hint, fun _ => rfl⟩
      exact length.trans (Nat.le_antisymm (grows.resolve_left large) (Nat.not_lt.mp more))

end Loops

/-! ### The files of a volume -/

variable {ι : Type}

variable (g) in
/-- The table consists of the chains of the files, each as long as its file needs, and of free clusters. -/
structure Formed (s : System ι) (chain : ι → List Nat) : Prop where
  chained : ∀ i, Chained g s.volume (s.file i) (chain i)
  length : ∀ i, (chain i).length = fatSizeToClusters g (s.file i).fileSize
  disjoint : ∀ i j, i ≠ j → (chain i).Disjoint (chain j)
  free : ∀ c, InRange g c → (∀ i, c ∉ chain i) → entry g s.volume.fat c = clusterFree
  hint : minCluster ≤ s.volume.nextCluster

variable [DecidableEq ι]

theorem Formed.edit {s : System ι} {chain : ι → List Nat} (formed : Formed g s chain) {i : ι}
    (chained : Chained g v f xs) (edit : Edit g s.volume (chain i) v xs)
    (length : xs.length = fatSizeToClusters g f.fileSize) (hint : minCluster ≤ v.nextCluster) :
    Formed g (s.update i f v) (Function.update chain i xs) := by
  -- the clusters of another file were not free, so none of them has joined the chain
  have apart : ∀ j, j ≠ i → ∀ c ∈ chain j, c ∉ chain i ∧ c ∉ xs := by
    intro j ne c mem
    have out : c ∉ chain i := formed.disjoint j i ne mem
    exact ⟨out, fun taken => (formed.chained j).entry_ne_free mem (edit.taken c taken out).2⟩
  constructor
  · intro j
    by_cases eq : j = i
    · subst eq
      simp only [System.update, if_true, Function.update_self]
      exact chained
    · simp only [System.update, if_neg eq, Function.update_of_ne eq]
      obtain ⟨e, trail, ends⟩ := (formed.chained j).trail
      refine ⟨⟨e, trail.congr fun c mem => ?_, ends⟩, (formed.chained j).inRange, (formed.chained j).last⟩
      exact edit.apart c ((formed.chained j).inRange c mem).1 (apart j eq c mem).1 (apart j eq c mem).2
  · intro j
    by_cases eq : j = i
    · subst eq
      simp only [System.update, if_true, Function.update_self]
      exact length
    · simp only [System.update, if_neg eq, Function.update_of_ne eq]
      exact formed.length j
  · intro j k ne c memJ memK
    by_cases eqJ : j = i
    · subst eqJ
      rw [Function.update_self] at memJ
      rw [Function.update_of_ne ne.symm] at memK
      exact (apart k ne.symm c memK).2 memJ
    · rw [Function.update_of_ne eqJ] at memJ
      by_cases eqK : k = i
      · subst eqK
        rw [Function.update_self] at memK
        exact (apart j eqJ c memJ).2 memK
      · rw [Function.update_of_ne eqK] at memK
        exact formed.disjoint j k ne memJ memK
  · intro c inRange out
    have outXs : c ∉ xs := by
      have here := out i
      rwa [Function.update_self] at here
    simp only [System.update]
    by_cases mem : c ∈ chain i
    · exact edit.freed c mem outXs
    · rw [edit.apart c inRange.1 mem outXs]
      refine formed.free c inRange fun j => ?_
      by_cases eq : j = i
      · subst eq
        exact mem
      · have there := out j
        rwa [Function.update_of_ne eq] at there
  · exact hint

def Call.file : Call ι → ι
  | .grow i _ => i
  | .shrink i _ => i

variable (g) in
/-- A growth asks for as many clusters as the file has, or more; before a shrink the size is set to one that needs no
    more clusters than the file has. -/
def Call.Apt (s : System ι) : Call ι → Prop
  | .grow i newSizeInBytes => newSizeInBytes > 0xFFFFFFFF ∨
      fatSizeToClusters g (s.file i).fileSize ≤ fatSizeToClusters g newSizeInBytes
  | .shrink i fileSize => fatSizeToClusters g fileSize ≤ fatSizeToClusters g (s.file i).fileSize

theorem perform_spec (fits : g.maxCluster + 1 < FatType.special .fat32) {s : System ι} {chain : ι → List Nat}
    (formed : Formed g s chain) {call : Call ι} (apt : call.Apt g s) :
    ∃ status t chain', perform g s call = some (status, t) ∧ Formed g t chain' ∧
      (∀ j, j ≠ call.file → chain' j = chain j) ∧ (status = .volumeFull → chain' = chain) := by
  cases call with
  | grow i newSizeInBytes =>
    obtain ⟨status, f, v, xs, run, chained, edit, length, hint, full⟩ :=
      fatGrowEof_spec fits (formed.chained i) (formed.length i) formed.hint apt
    refine ⟨status, s.update i f v, Function.update chain i xs, ?_, formed.edit chained edit length hint, ?_,
      fun eq => ?_⟩
    · rw [perform, run]
      rfl
    · exact fun j ne => Function.update_of_ne ne _ _
    · rw [full eq, Function.update_eq_self]
  | shrink i fileSize =>
    have chained : Chained g s.volume { s.file i with fileSize := fileSize } (chain i) :=
      ⟨(formed.chained i).trail, (formed.chained i).inRange, (formed.chained i).last⟩
    have le : fatSizeToClusters g fileSize ≤ (chain i).length := apt.trans_eq (formed.length i).symm
    obtain ⟨f, v, run, chained', edit, size, hint⟩ := fatShrinkEof_spec fits chained formed.hint le
    have length : ((chain i).take (fatSizeToClusters g fileSize)).length = fatSizeToClusters g f.fileSize := by
      rw [size, length_take, Nat.min_eq_left le]
    refine ⟨.success, s.update i f v, Function.update chain i _, ?_, formed.edit chained' edit length hint, ?_,
      fun eq => nomatch eq⟩
    · rw [perform, run]
      rfl
    · exact fun j ne => Function.update_of_ne ne _ _

variable (g) in
inductive Run (s₀ : System ι) : List (Call ι) → System ι → Prop
  | nil : Run s₀ [] s₀
  | snoc {calls : List (Call ι)} {s t : System ι} {call : Call ι} {status : Status} :
    Run s₀ calls s → call.Apt g s → perform g s call = some (status, t) → Run s₀ (calls ++ [call]) t

theorem Run.formed (fits : g.maxCluster + 1 < FatType.special .fat32) {s₀ s : System ι} {chain₀ : ι → List Nat}
    {calls : List (Call ι)} (run : Run g s₀ calls s) (formed : Formed g s₀ chain₀) :
    ∃ chain, Formed g s chain ∧ ∀ j, (∀ call ∈ calls, call.file ≠ j) → chain j = chain₀ j := by
  induction run with
  | nil => exact ⟨chain₀, formed, fun _ _ => rfl⟩
  | @snoc calls s t call status run apt done ih =>
    obtain ⟨chain, formedS, same⟩ := ih
    obtain ⟨status', t', chain', done', formedT, others, _⟩ := perform_spec fits formedS apt
    rw [done', Option.some.injEq, Prod.mk.injEq] at done
    obtain ⟨_, rfl⟩ := done
    refine ⟨chain', formedT, fun j out => ?_⟩
    rw [others j (out call mem_concat_self).symm]
    exact same j fun other mem => out other (mem_append_left _ mem)

/-- After every sequence of calls the table has its form and the other files have their chains, and a call that finds
    the volume full leaves every chain as it is. -/
theorem chains_kept (fits : g.maxCluster + 1 < FatType.special .fat32) {s₀ s : System ι} {chain₀ : ι → List Nat}
    {calls : List (Call ι)} (formed : Formed g s₀ chain₀) (run : Run g s₀ calls s) :
    ∃ chain, Formed g s chain ∧ (∀ j, (∀ call ∈ calls, call.file ≠ j) → chain j = chain₀ j) ∧
      ∀ call : Call ι, call.Apt g s → ∃ status t chain', perform g s call = some (status, t) ∧ Formed g t chain' ∧
        (∀ j, j ≠ call.file → chain' j = chain j) ∧ (status = .volumeFull → chain' = chain) := by
  obtain ⟨chain, formedS, same⟩ := run.formed fits formed
  exact ⟨chain, formedS, same, fun call apt => perform_spec fits formedS apt⟩

/-! ### Two files on a volume of four clusters -/

def smallGeometry : Geometry where
  fatType := .fat12
  maxCluster := 4
  clusterAlignment := 9
  dirtyValue := 0
  accepted := by
    unfold FatType.Accepts
    decide

def smallSystem : System Bool where
  volume :=
    { fat := Store.ofBytes [0xF8, 0xFF, 0xFF, 0x03, 0xF0, 0xFF, 0xFF, 0x0F, 0x00], fatEntryPos := 0, fatDirty := false,
      freeInfoValid := false, clusterCount := 0, nextCluster := 2, diskError := false }
  file
    | false => { fileSize := 1024, fileCluster := 2, fileCurrentCluster := 2, fileLastCluster := 0, dirty := false }
    | true => { fileSize := 100, fileCluster := 4, fileCurrentCluster := 4, fileLastCluster := 0, dirty := false }

def smallChains : Bool → List Nat
  | false => [2, 3]
  | true => [4]

theorem formed_smallSystem : Formed smallGeometry smallSystem smallChains := by
  have two : entry smallGeometry smallSystem.volume.fat 2 = 3 := by decide
  have three : entry smallGeometry smallSystem.volume.fat 3 = clusterLast := by decide
  have four : entry smallGeometry smallSystem.volume.fat 4 = clusterLast := by decide
  have first : Trail (entry smallGeometry smallSystem.volume.fat) 2 [2, 3] clusterLast := by
    simp only [Trail.cons_iff, Trail.nil_iff, two, three, and_self]
  have second : Trail (entry smallGeometry smallSystem.volume.fat) 4 [4] clusterLast := by
    simp only [Trail.cons_iff, Trail.nil_iff, four, and_self]
  refine ⟨?_, by decide, ?_, fun c inRange out => ?_, by decide⟩
  · rintro (_ | _)
    · exact ⟨⟨clusterLast, first, end_last⟩, by decide, .inl rfl⟩
    · exact ⟨⟨clusterLast, second, end_last⟩, by decide, .inl rfl⟩
  · rintro (_ | _) (_ | _) ne
    · exact absurd rfl ne
    · simp [smallChains]
    · simp [smallChains]
    · exact absurd rfl ne
  · have five : c = 5 := by
      have outFirst := out false
      have outSecond := out true
      simp only [InRange, minCluster, smallGeometry] at inRange
      simp only [smallChains, mem_cons, not_mem_nil, or_false, not_or] at outFirst outSecond
      omega
    rw [five]
    decide

/-- One file gets the last free cluster, finds the volume full when it asks for more, and the other one gives up a
    cluster. -/
def smallCalls : List (Call Bool) := [.grow true 1000, .grow true 2000, .shrink false 512]

theorem chains_kept_smallSystem : ∃ s, Run smallGeometry smallSystem smallCalls s ∧
    ∃ chain, Formed smallGeometry s chain ∧ (∀ j, (∀ call ∈ smallCalls, call.file ≠ j) → chain j = smallChains j) ∧
      ∀ call : Call Bool, call.Apt smallGeometry s → ∃ status t chain',
        perform smallGeometry s call = some (status, t) ∧ Formed smallGeometry t chain' ∧
          (∀ j, j ≠ call.file → chain' j = chain j) ∧ (status = .volumeFull → chain' = chain) := by
  have grown : Run smallGeometry smallSystem [.grow true 1000] _ := .snoc .nil (.inr (by decide)) rfl
  have full : Run smallGeometry smallSystem [.grow true 1000, .grow true 2000] _ := .snoc grown (.inr (by decide)) rfl
  have shrunk : Run smallGeometry smallSystem smallCalls _ :=
    .snoc full (show fatSizeToClusters _ _ ≤ fatSizeToClusters _ _ by decide) rfl
  exact ⟨_, shrunk, chains_kept (by decide) formed_smallSystem shrunk⟩

/-! ### More clusters than an entry can tell apart -/

/-- A FAT32 volume with a cluster whose number means a bad one in an entry, and one whose number means an end. -/
def largeGeometry : Geometry where
  fatType := .fat32
  maxCluster := 0x0FFFFFF7
  clusterAlignment := 9
  dirtyValue := 0x0FFFFFFF
  accepted := by
    unfold FatType.Accepts
    decide

def largeSystem : System Unit where
  volume :=
    { fat := Store.write (fun _ => 0) 8 (leBytes 4 0x0FFFFFFF), fatEntryPos := 0, fatDirty := false,
      freeInfoValid := true, clusterCount := 1, nextCluster := 0x0FFFFFF7, diskError := false }
  file _ := { fileSize := 512, fileCluster := 2, fileCurrentCluster := 2, fileLastCluster := 0, dirty := false }

theorem formed_largeSystem : Formed largeGeometry largeSystem fun _ => [2] := by
  have two : entry largeGeometry largeSystem.volume.fat 2 = clusterLast := by decide
  have trail : Trail (entry largeGeometry largeSystem.volume.fat) 2 [2] clusterLast := by
    simp only [Trail.cons_iff, Trail.nil_iff, two, and_self]
  refine ⟨fun _ => ⟨⟨clusterLast, trail, end_last⟩, by decide, .inl rfl⟩, by decide, ?_, fun c inRange out =>
    ?_, by decide⟩
  · exact fun i j ne => absurd (Subsingleton.elim i j) ne
  · have other : c ≠ 2 := fun eq => out () (mem_singleton.mpr eq)
    have zero : largeSystem.volume.fat.read (c * 4) 4 = [0, 0, 0, 0] := by
      refine (Store.read_write_of_disjoint ?_).trans rfl
      have := inRange.1
      rw [minCluster] at this
      rw [length_leBytes]
      omega
    have word : leNat [0, 0, 0, 0] = 0 := by decide
    have bits : decodeEntry .fat32 c (leNat [0, 0, 0, 0]) = clusterFree := by
      simp [word, decodeEntry, entryBits, FatType.special, clusterFree]
    rw [entry, if_neg (Nat.not_lt.mpr inRange.2)]
    exact (congrArg (fun word => decodeEntry .fat32 c (leNat word)) zero).trans bits

/-- The file gets the cluster 0x0FFFFFF7, and the entry that should lead there is read as a bad cluster. -/
theorem grow_beyond_entries : Formed largeGeometry largeSystem (fun _ => [2]) ∧
    ∃ t, perform largeGeometry largeSystem (.grow () 1024) = some (.success, t) ∧
      ¬ ∃ chain, Formed largeGeometry t chain := by
  refine ⟨formed_largeSystem, _, rfl, fun ⟨chain, formed⟩ => ?_⟩
  have length : (chain ()).length = 2 := (formed.length ()).trans (by decide)
  obtain ⟨c, d, eq⟩ := length_eq_two.mp length
  obtain ⟨e, trail, -⟩ := (formed.chained ()).trail
  rw [eq] at trail
  obtain ⟨rfl, rest⟩ := Trail.cons_iff.mp trail
  obtain ⟨rfl, -⟩ := Trail.cons_iff.mp rest
  exact absurd ((formed.chained ()).inRange _ (eq ▸ mem_cons_of_mem _ mem_cons_self)) (by decide)

end LeoEdk.Fat
