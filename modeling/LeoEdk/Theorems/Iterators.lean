import LeoEdk.Theorems.OrderedCollection

/-! An ordered collection as a finite sorted set: what a caller who holds node pointers sees between calls. The
    functions of the library are operations on the set of stored nodes (`SortedSet`), from which only a deletion takes
    a node. -/

namespace LeoEdk.Collection

open RedBlack Prog List

variable {U K : Type}

def stored (w : World U) : Set (Addr × U) :=
  { x | Reaches w.heap w.root x.1 ∧ ∃ n, w.heap x.1 = some n ∧ n.userStruct = x.2 }

/-- `p` points to the node of `S` that comes first on the way towards side `s`; it is `NULL` if `S` is empty. -/
def IsFirst (e : Env U) (s : Side) (S : Set (Addr × U)) : Ptr → Prop
  | none => S = ∅
  | some a => ∃ u, (a, u) ∈ S ∧ ∀ y ∈ S, y = (a, u) ∨ InOrder e s (a, u) y

/-- `KeyCompare` places a standalone key among the user structures as `UserStructCompare` orders them. -/
structure KeyOrder (keyCompare : K → U → Int) (compare : U → U → Int) : Prop where
  less : ∀ k x y, compare x y < 0 → keyCompare k x ≤ 0 → keyCompare k y < 0
  greater : ∀ k x y, compare x y < 0 → 0 ≤ keyCompare k y → 0 < keyCompare k x

/-! ### The stored nodes are those of the tree -/

section Stored

variable {e : Env U} {w : World U} {root : Ptr} {p : List (Frame (Addr × U))} {t : Shape U} {x : Addr × U}

theorem reaches_of_mem (holds : Holds w.heap root p t) (mem : x ∈ t.toList) :
    Reaches w.heap (ptr t) x.1 ∧ ∃ n, w.heap x.1 = some n ∧ n.userStruct = x.2 := by
  induction t generalizing p with
  | nil => cases mem
  | node l c y r ihl ihr =>
    have here := Holds.lookup (s := .left) holds
    rw [Tree.toList, mem_append, mem_cons] at mem
    rcases mem with left | rfl | right
    · obtain ⟨reaches, node⟩ := ihl (Holds.down (s := .left) holds) left
      exact ⟨.child .left here reaches, node⟩
    · exact ⟨.here here, _, here, nodeOf_userStruct ..⟩
    · obtain ⟨reaches, node⟩ := ihr (Holds.down (s := .right) holds) right
      exact ⟨.child .right here reaches, node⟩

theorem mem_stored (holds : Holds w.heap w.root [] t) : x ∈ stored w ↔ x ∈ t.toList := by
  constructor
  · rintro ⟨reaches, n, found, same⟩
    rw [← holds.ptr_eq_root] at reaches
    obtain ⟨q, l, c, u, r, rfl⟩ := exists_of_reaches holds reaches
    have here := Holds.lookup (s := .left) holds.of_whole
    obtain rfl := Option.some.inj (here.symm.trans found)
    obtain rfl : u = x.2 := (nodeOf_userStruct ..).symm.trans same
    rw [Path.toList_fill, Tree.toList]
    simp
  · intro mem
    have found := reaches_of_mem holds mem
    rwa [holds.ptr_eq_root] at found

theorem stored_eq (holds : Holds w.heap w.root [] t) : stored w = { x | x ∈ t.toList } :=
  Set.ext fun _ => mem_stored holds

theorem mem_walk {s : Side} : x ∈ t.walk s ↔ x ∈ t.toList := by
  cases s with
  | left => exact mem_reverse
  | right => exact Iff.rfl

theorem InOrder.asymm (order : StrictOrder e.userStructCompare) {s : Side} {x y : Addr × U} (less : InOrder e s x y) :
    ¬ InOrder e s y x := by
  have flip := order.flip x.2 y.2
  have flip' := order.flip y.2 x.2
  cases s <;> simp only [InOrder] at less ⊢ <;> omega

theorem ahead_eq (order : StrictOrder e.userStructCompare) {s : Side} {before after : List (Addr × U)}
    (inOrder : (before ++ x :: after).Pairwise (InOrder e s)) :
    { y | y ∈ before ++ x :: after ∧ InOrder e s x y } = { y | y ∈ after } := by
  obtain ⟨_, tail, across⟩ := pairwise_append.mp inOrder
  ext y
  constructor
  · rintro ⟨mem, related⟩
    rcases mem_append.mp mem with left | right
    · exact absurd related ((across y left x mem_cons_self).asymm order)
    · rcases mem_cons.mp right with rfl | later
      · exact absurd related (related.asymm order)
      · exact later
  · intro later
    exact ⟨mem_append_right _ (mem_cons_of_mem _ later), (pairwise_cons.mp tail).1 y later⟩

theorem isFirst_firstOf {s : Side} {xs : List (Addr × U)} (inOrder : xs.Pairwise (InOrder e s)) :
    IsFirst e s { y | y ∈ xs } (firstOf xs) := by
  cases xs with
  | nil => exact Set.eq_empty_of_forall_notMem fun _ => not_mem_nil
  | cons x xs =>
    exact ⟨x.2, mem_cons_self, forall_mem_cons.mpr
      ⟨.inl rfl, fun y later => .inr ((pairwise_cons.mp inOrder).1 y later)⟩⟩

end Stored

section Lookup

variable {e : Env U} {w : World U} {t : Shape U} {R : Stop → World U → Prop} {fuel : Nat}

theorem wp_extremeOfTree_isFirst (order : StrictOrder e.userStructCompare) (maintained : Maintained e w t) (s : Side)
    (enough : Enough R t.size fuel) :
    wp (extremeOfTree s.other fuel) e (fun r w' => w' = w ∧ IsFirst e s (stored w) r) R w := by
  refine wp_extremeOfTree maintained.holds enough ⟨rfl, ?_⟩
  have nodes : stored w = { y | y ∈ t.walk s } := by
    rw [stored_eq maintained.holds]
    exact Set.ext fun _ => mem_walk.symm
  rw [nodes]
  exact isFirst_firstOf (inOrder_walk order maintained.increasing)

theorem wp_neighbour_isFirst (order : StrictOrder e.userStructCompare) (maintained : Maintained e w t) (s : Side)
    {x : Addr × U} (mem : x ∈ stored w) (enough : Enough R t.size fuel) :
    wp (neighbour s fuel (some x.1)) e (fun r w' => w' = w ∧ IsFirst e s { y ∈ stored w | InOrder e s x y } r) R w := by
  rw [mem_stored maintained.holds, ← mem_walk (s := s)] at mem
  obtain ⟨before, after, place⟩ := append_of_mem mem
  have inOrder := inOrder_walk (s := s) order maintained.increasing
  have nodes : { y ∈ stored w | InOrder e s x y } = { y | y ∈ after } := by
    rw [place] at inOrder
    rw [← ahead_eq order inOrder, ← place, stored_eq maintained.holds]
    exact Set.ext fun y => and_congr_left' mem_walk.symm
  obtain ⟨p, c, near, far, rfl, rest⟩ := Tree.exists_of_walk s place
  refine wp_neighbour maintained.holds.of_whole enough ⟨rfl, ?_⟩
  rw [nodes, rest]
  rw [place] at inOrder
  exact isFirst_firstOf (pairwise_cons.mp (pairwise_append.mp inOrder).2.1).2

def IsMatch (keyCompare : K → U → Int) (k : K) (S : Set (Addr × U)) : Ptr → Prop
  | none => ∀ y ∈ S, keyCompare k y.2 ≠ 0
  | some a => ∃ u, (a, u) ∈ S ∧ keyCompare k u = 0 ∧ ∀ y ∈ S, keyCompare k y.2 = 0 → y = (a, u)

variable {keyCompare : K → U → Int} {k : K} {root : Ptr} {p : List (Frame (Addr × U))}

theorem wp_findFrom (keys : KeyOrder keyCompare e.userStructCompare) (holds : Holds w.heap root p t)
    (less : ∀ y ∈ Path.before p, 0 < keyCompare k y.2) (greater : ∀ y ∈ Path.after p, keyCompare k y.2 < 0)
    (inc : Increasing e.userStructCompare (Path.fill p t).toList) (enough : Enough R t.size fuel) :
    wp (findFrom keyCompare k fuel (ptr t)) e
      (fun r w' => w' = w ∧ IsMatch keyCompare k { y | y ∈ (Path.fill p t).toList } r) R w := by
  induction fuel generalizing p t with
  | zero => exact enough.outOfFuel w
  | succ fuel ih =>
    cases t with
    | nil =>
      refine ⟨rfl, fun y mem => ?_⟩
      rw [Set.mem_ofPred_eq, Path.toList_fill, Tree.toList, append_nil, mem_append] at mem
      rcases mem with before | after
      · exact Int.ne_of_gt (less y before)
      · exact Int.ne_of_lt (greater y after)
    | node l c x r =>
      simp only [Tree.size] at enough
      have list : (Path.fill p (.node l c x r)).toList = (Path.before p ++ l.toList) ++
          x :: (r.toList ++ Path.after p) := by
        rw [Path.toList_fill, Tree.toList]
        simp only [append_assoc, cons_append]
      have inc' := inc
      rw [list] at inc'
      obtain ⟨_, tail, across⟩ := pairwise_append.mp inc'
      have below : ∀ y ∈ Path.before p ++ l.toList, e.userStructCompare y.2 x.2 < 0 :=
        fun y mem => across y mem x mem_cons_self
      have beyond : ∀ y ∈ r.toList ++ Path.after p, e.userStructCompare x.2 y.2 < 0 := (pairwise_cons.mp tail).1
      rw [findFrom, if_neg (by simp [ptr]), ptr, wp_bind, wp_deref_focus (s := .left) holds, nodeOf_userStruct]
      by_cases same : keyCompare k x.2 = 0
      · rw [if_pos same, wp_pure, list]
        refine ⟨rfl, x.2, mem_append_right _ mem_cons_self, same, fun y mem equal => ?_⟩
        rcases mem_append.mp mem with left | right
        · have := keys.greater k _ _ (below y left) (Int.le_of_eq same.symm)
          omega
        · rcases mem_cons.mp right with rfl | later
          · rfl
          · have := keys.less k _ _ (beyond y later) (Int.le_of_eq same)
            omega
      · rw [if_neg same]
        by_cases lower : keyCompare k x.2 < 0
        · rw [if_pos lower]
          refine ih (Holds.down (s := .left) holds) less ?_ inc (enough.mono (by omega))
          simp only [Path.after, cons_append, mem_cons]
          rintro y (rfl | later)
          · exact lower
          · exact keys.less k _ _ (beyond y later) (Int.le_of_lt lower)
        · rw [if_neg lower]
          refine ih (Holds.down (s := .right) holds) ?_ greater inc (enough.mono (by omega))
          simp only [Path.before, mem_append, mem_singleton]
          rintro y (earlier | earlier | rfl)
          · exact less y earlier
          · exact keys.greater k _ _ (below y (mem_append_right _ earlier)) (by omega)
          · omega

theorem wp_orderedCollectionFind (keys : KeyOrder keyCompare e.userStructCompare) (maintained : Maintained e w t)
    (enough : Enough R t.size fuel) :
    wp (orderedCollectionFind keyCompare k fuel) e (fun r w' => w' = w ∧ IsMatch keyCompare k (stored w) r) R w := by
  rw [orderedCollectionFind, wp_bind, wp_get, ← maintained.holds.ptr_eq_root, stored_eq maintained.holds]
  exact wp_findFrom (p := []) keys maintained.holds nofun nofun maintained.increasing enough

end Lookup

/-! ### The collection as a sorted set -/

inductive InsertsInto (compare : U → U → Int) (u : U) (pool : Ptr) (S : Set (Addr × U)) :
    Status × Ptr → Set (Addr × U) → Prop where
  | collision (x : Addr × U) : x ∈ S → compare u x.2 = 0 → InsertsInto compare u pool S (.alreadyStarted, some x.1) S
  | outOfResources : pool = none → (∀ x ∈ S, compare u x.2 ≠ 0) →
    InsertsInto compare u pool S (.outOfResources, none) S
  | linked (a : Addr) : pool = some a → (∀ x ∈ S, compare u x.2 ≠ 0) →
    InsertsInto compare u pool S (.success, some a) (insert (a, u) S)

/-- The functions of the library are the operations of the finite sorted set of the stored nodes. -/
structure SortedSet (e : Env U) (keyCompare : K → U → Int) (w : World U) : Prop where
  finite : (stored w).Finite
  sorted : ∀ x ∈ stored w, ∀ y ∈ stored w, x = y ∨ e.userStructCompare x.2 y.2 < 0 ∨ e.userStructCompare y.2 x.2 < 0
  find : ∀ k, Performs (orderedCollectionFind keyCompare k) e w fun r w' => w' = w ∧ IsMatch keyCompare k (stored w) r
  min : Performs orderedCollectionMin e w fun r w' => w' = w ∧ IsFirst e .right (stored w) r
  max : Performs orderedCollectionMax e w fun r w' => w' = w ∧ IsFirst e .left (stored w) r
  next : ∀ x ∈ stored w, Performs (orderedCollectionNext · (some x.1)) e w fun r w' =>
    w' = w ∧ IsFirst e .right { y ∈ stored w | e.userStructCompare x.2 y.2 < 0 } r
  prev : ∀ x ∈ stored w, Performs (orderedCollectionPrev · (some x.1)) e w fun r w' =>
    w' = w ∧ IsFirst e .left { y ∈ stored w | 0 < e.userStructCompare x.2 y.2 } r
  insert : ∀ u pool, Fresh w pool → Performs (orderedCollectionInsert · pool u) e w fun r w' =>
    InsertsInto e.userStructCompare u pool (stored w) r (stored w')
  delete : ∀ x ∈ stored w, Performs (orderedCollectionDelete · (some x.1)) e w fun u w' =>
    u = x.2 ∧ stored w' = stored w \ {x}

section SortedSet

variable {e : Env U} {w : World U} {t : Shape U} {keyCompare : K → U → Int}

theorem insertsInto_of_inserted {u : U} {pool : Ptr} {xs ys : List (Addr × U)} {r : Status × Ptr}
    (inserted : Inserted e.userStructCompare u pool xs r ys) :
    InsertsInto e.userStructCompare u pool { x | x ∈ xs } r { x | x ∈ ys } := by
  cases inserted with
  | collision x mem same => exact .collision x mem same
  | outOfResources none differs => exact .outOfResources none differs
  | linked a before after some eq differs =>
    subst eq
    have nodes : { x | x ∈ before ++ (a, u) :: after } = insert (a, u) { x | x ∈ before ++ after } := by
      ext x
      simp only [Set.mem_ofPred_eq, mem_append, mem_cons, Set.mem_insert_iff]
      tauto
    rw [nodes]
    exact .linked a some differs

theorem increasing_irrefl (order : StrictOrder e.userStructCompare) (u : U) : ¬ e.userStructCompare u u < 0 := by
  have := order.flip u u
  omega

theorem eq_of_stored {x y : Addr × U} (mem : x ∈ stored w) (mem' : y ∈ stored w) (same : x.1 = y.1) : x = y := by
  obtain ⟨_, n, found, user⟩ := mem
  obtain ⟨_, n', found', user'⟩ := mem'
  rw [same, found'] at found
  obtain rfl := Option.some.inj found
  exact Prod.ext same (user.symm.trans user')

theorem stored_of_deleted (order : StrictOrder e.userStructCompare) {xs ys : List (Addr × U)} {a : Addr} {u : U}
    (inc : Increasing e.userStructCompare xs) (deleted : Deleted a u xs ys) :
    (a, u) ∈ xs ∧ { x | x ∈ ys } = { x | x ∈ xs } \ {(a, u)} := by
  obtain ⟨before, after, rfl, rfl⟩ := deleted
  refine ⟨mem_append_right _ mem_cons_self, ?_⟩
  obtain ⟨_, tail, across⟩ := pairwise_append.mp inc
  have once : (a, u) ∉ before ++ after := by
    intro mem
    rcases mem_append.mp mem with mem | mem
    · exact increasing_irrefl order u (across _ mem _ mem_cons_self)
    · exact increasing_irrefl order u ((pairwise_cons.mp tail).1 _ mem)
  ext x
  simp only [Set.mem_ofPred_eq, Set.mem_sdiff, Set.mem_singleton_iff, mem_append, mem_cons] at once ⊢
  constructor
  · intro mem
    refine ⟨by tauto, ?_⟩
    rintro rfl
    exact once mem
  · tauto

theorem Maintained.sortedSet (order : StrictOrder e.userStructCompare) (keys : KeyOrder keyCompare e.userStructCompare)
    (maintained : Maintained e w t) : SortedSet e keyCompare w where
  finite := stored_eq maintained.holds ▸ t.toList.finite_toSet
  sorted := by
    intro x mem y mem'
    rw [mem_stored maintained.holds] at mem mem'
    let apart (x y : Addr × U) : Prop := e.userStructCompare x.2 y.2 < 0 ∨ e.userStructCompare y.2 x.2 < 0
    have symmetric : Std.Symm apart := ⟨fun _ _ => Or.symm⟩
    have pairwise : t.toList.Pairwise apart := maintained.increasing.imp .inl
    exact or_iff_not_imp_left.mpr fun ne => pairwise.forall mem mem' ne
  find k := performs_of_wp t.size fun _ _ enough => wp_orderedCollectionFind keys maintained enough
  min := performs_of_wp t.size fun _ _ enough => wp_extremeOfTree_isFirst order maintained .right enough
  max := performs_of_wp t.size fun _ _ enough => wp_extremeOfTree_isFirst order maintained .left enough
  next x mem := performs_of_wp t.size fun _ _ enough => wp_neighbour_isFirst order maintained .right mem enough
  prev x mem := performs_of_wp t.size fun _ _ enough => wp_neighbour_isFirst order maintained .left mem enough
  insert u pool fresh := by
    refine performs_of_wp (t.size + 1) fun fuel R enough => ?_
    refine wp_mono ?_ (fun _ _ h => h) (wp_orderedCollectionInsert order maintained fresh enough)
    rintro r w' ⟨t', maintained', inserted⟩
    rw [stored_eq maintained.holds, stored_eq maintained'.holds]
    exact insertsInto_of_inserted inserted
  delete x mem := by
    refine performs_of_wp (t.size + 1) fun fuel R enough => ?_
    refine wp_mono ?_ (fun _ _ h => h) (wp_orderedCollectionDelete order maintained mem.1 enough)
    rintro u w' ⟨t', maintained', deleted⟩
    obtain ⟨there, nodes⟩ := stored_of_deleted order maintained.increasing deleted
    have same : (x.1, u) = x := eq_of_stored ((mem_stored maintained.holds).mpr there) mem rfl
    rw [same] at nodes
    rw [stored_eq maintained.holds, stored_eq maintained'.holds]
    exact ⟨congrArg Prod.snd same, nodes⟩

end SortedSet

/-- The states that calls lead to from `w`, none of which deletes the node at `N`. -/
inductive Later (e : Env U) (N : Addr) (w : World U) : World U → Prop where
  | refl : Later e N w w
  | call {w' w''} (c : Call U) (fuel : Nat) : Later e N w w' → c.Admissible w' → c ≠ .delete N →
    c.run fuel e w' = (.ok (), w'') → Later e N w w''

theorem reachable_of_later {e : Env U} {N : Addr} {w w' : World U} (reach : Reachable e w) (later : Later e N w w') :
    Reachable e w' := by
  induction later with
  | refl => exact reach
  | call c fuel _ admissible _ run ih => exact .call c fuel ih admissible run

theorem mem_of_effect {e : Env U} {c : Call U} {xs ys : List (Addr × U)} {x : Addr × U} (effect : c.Effect e xs ys)
    (other : c ≠ .delete x.1) (mem : x ∈ xs) : x ∈ ys := by
  cases c with
  | insert u pool =>
    obtain ⟨r, inserted⟩ := effect
    cases inserted with
    | collision => exact mem
    | outOfResources => exact mem
    | linked a before after _ eq _ =>
      rw [eq, mem_append] at mem
      rw [mem_append, mem_cons]
      tauto
  | delete node =>
    obtain ⟨u, before, after, eq, eq'⟩ := effect
    have ne : x ≠ (node, u) := by
      rintro rfl
      exact other rfl
    rw [eq, mem_append, mem_cons] at mem
    rw [eq', mem_append]
    tauto

theorem stored_of_later {e : Env U} {w w' : World U} {x : Addr × U} (order : StrictOrder e.userStructCompare)
    (reach : Reachable e w) (mem : x ∈ stored w) (later : Later e x.1 w w') : x ∈ stored w' := by
  induction later with
  | refl => exact mem
  | call c fuel before admissible other run ih =>
    obtain ⟨t, maintained⟩ := maintained_of_reachable order (reachable_of_later reach before)
    have after := wp_call (R := fun _ _ => True) fuel order maintained c admissible (.inr fun _ => trivial)
    rw [wp, run] at after
    obtain ⟨t', maintained', effect⟩ := after
    rw [mem_stored maintained.holds] at ih
    rw [mem_stored maintained'.holds]
    exact mem_of_effect effect other ih

/-- A node pointer stays valid until its node is deleted: the node stays linked with its user structure, its neighbours
    are found as they are then, and the collection remains a sorted set. -/
theorem iterators_survive {e : Env U} {keyCompare : K → U → Int} {w w' : World U} {N : Addr} {userStruct : U}
    (order : StrictOrder e.userStructCompare) (keys : KeyOrder keyCompare e.userStructCompare) (reach : Reachable e w)
    (obtained : (N, userStruct) ∈ stored w) (later : Later e N w w') :
    (N, userStruct) ∈ stored w' ∧
      (Performs (orderedCollectionNext · (some N)) e w' fun r w'' =>
        w'' = w' ∧ IsFirst e .right { y ∈ stored w' | e.userStructCompare userStruct y.2 < 0 } r) ∧
      (Performs (orderedCollectionPrev · (some N)) e w' fun r w'' =>
        w'' = w' ∧ IsFirst e .left { y ∈ stored w' | 0 < e.userStructCompare userStruct y.2 } r) ∧
      SortedSet e keyCompare w' := by
  obtain ⟨t, maintained⟩ := maintained_of_reachable order (reachable_of_later reach later)
  have kept := stored_of_later order reach obtained later
  have sortedSet := maintained.sortedSet order keys
  exact ⟨kept, sortedSet.next _ kept, sortedSet.prev _ kept, sortedSet⟩

theorem iterators_survive_sample : (40, 4) ∈ stored (sampleWorld (sampleCalls.take 3)) ∧
      Later sampleEnv 40 (sampleWorld (sampleCalls.take 3)) (sampleWorld (sampleCalls.take 4)) ∧
      (40, 4) ∈ stored (sampleWorld (sampleCalls.take 4)) := by
  have keys : KeyOrder (fun k x : Int => k - x) sampleEnv.userStructCompare :=
    ⟨fun k x y => by simp only [sampleEnv]; omega, fun k x y => by simp only [sampleEnv]; omega⟩
  have obtained : ((40 : Nat), (4 : Int)) ∈ stored (sampleWorld (sampleCalls.take 3)) := ⟨.here rfl, _, rfl, rfl⟩
  have later : Later sampleEnv 40 (sampleWorld (sampleCalls.take 3)) (sampleWorld (sampleCalls.take 4)) :=
    .call (.insert 9 (some 90)) 16 .refl (by rintro a ⟨⟩; rfl) (by rintro ⟨⟩) rfl
  exact ⟨obtained, later, (iterators_survive strictOrder_sampleEnv keys reachable_three obtained later).1⟩

end LeoEdk.Collection
