import LeoEdk.Theorems.TreeDelete

/-! The red-black tree of an ordered collection over every sequence of insertions and deletions. Every call keeps
    `Maintained` and has an `Effect` on the list of nodes; what a caller sees of it is a `ValidTree`. -/

namespace LeoEdk.Collection

open RedBlack Separation Assertion Prog List

variable {U : Type}

/-! ### Walking the links -/

section Walk

variable {w : World U} {e : Env U} {R : Stop → World U → Prop} {root : Ptr} {p : List (Frame (Addr × U))}
  {t near far : Shape U} {s : Side} {c : Color} {x : Addr × U} {fuel : Nat} {Q : Ptr → World U → Prop}

def firstOf (xs : List (Addr × U)) : Ptr := xs.head?.map Prod.fst

theorem wp_ascend (holds : Holds w.heap root p t) (node : t ≠ .nil)
    (enough : Enough R p.length fuel) (next : Q (firstOf (Path.ahead s p)) w) :
    wp (ascend s fuel (ptr t) (above p)) e Q R w := by
  induction fuel generalizing p t with
  | zero => exact enough.outOfFuel w
  | succ fuel ih =>
    cases p with
    | nil =>
      rw [Path.ahead_nil] at next
      exact next
    | cons f p =>
      obtain ⟨side, c, x, sibling⟩ := f
      rw [ascend, above, if_neg (by simp), wp_bind, wp_deref_above holds]
      rcases Side.eq_or_other s side with rfl | rfl
      · rw [nodeOf_child, if_pos rfl, nodeOf_parent, ← ptr_join side c x t sibling]
        rw [Path.ahead_same] at next
        exact ih holds.up (by cases side <;> simp [Tree.join]) (enough.mono Nat.lt_of_succ_lt_succ) next
      · have ne : ptr t ≠ ptr sibling := holds.ptr_ne_sibling (.inl (mt ptr_eq_none.mp node))
        rw [nodeOf_other, nodeOf_child, if_neg ne, wp_pure]
        rw [Path.ahead_other] at next
        exact next

theorem firstOf_append {xs ys : List (Addr × U)} (ne : xs ≠ []) : firstOf (xs ++ ys) = firstOf xs := by
  cases xs with
  | nil => exact absurd rfl ne
  | cons => rfl

theorem wp_extreme_first (holds : Holds w.heap root p t) (node : t ≠ .nil)
    (enough : Enough R t.size fuel) (next : Q (firstOf (t.walk s)) w) : wp (extreme s.other fuel (ptr t)) e Q R w := by
  refine wp_extreme holds node enough fun q d y far same sides => ?_
  rw [same, Path.walk_fill, Path.ahead_eq_nil sides, Tree.join_other, Tree.walk_join] at next
  simpa [firstOf] using next

theorem wp_neighbour (holds : Holds w.heap root p (.join s c x near far))
    (enough : Enough R (Path.fill p (.join s c x near far)).size fuel)
    (next : Q (firstOf (near.walk s ++ Path.ahead s p)) w) : wp (neighbour s fuel (some x.1)) e Q R w := by
  have room := Path.size_fill p (.join s c x near far)
  rw [Tree.size_join] at room
  rw [neighbour, if_neg (by simp), wp_bind, wp_deref_focus holds, nodeOf_child, nodeOf_parent]
  cases near with
  | nil =>
    rw [if_pos (by rfl), ← ptr_join s c x .nil far]
    rw [Tree.walk_nil] at next
    exact wp_ascend holds (by cases s <;> simp [Tree.join]) (enough.mono (by omega)) next
  | node l d y r =>
    rw [if_neg (by simp [ptr])]
    refine wp_extreme_first holds.down (by simp) (enough.mono (by omega)) ?_
    rwa [firstOf_append] at next
    rw [← length_pos_iff, Tree.length_walk, Tree.size]
    omega

theorem wp_extremeOfTree (holds : Holds w.heap w.root [] t) (enough : Enough R t.size fuel)
    (next : Q (firstOf (t.walk s)) w) : wp (extremeOfTree s.other fuel) e Q R w := by
  rw [extremeOfTree, wp_bind, wp_get, ← holds.ptr_eq_root]
  cases t with
  | nil =>
    rw [if_pos (by rfl), wp_pure]
    rw [Tree.walk_nil] at next
    exact next
  | node l c x r =>
    rw [if_neg (by simp [ptr])]
    exact wp_extreme_first holds (by simp) enough next

end Walk

section Validate

variable {w : World U} {e : Env U} {R : Stop → World U → Prop} {root : Ptr} {p : List (Frame (Addr × U))}
  {t : Shape U} {s : Side} {c : Color} {fuel n : Nat} {Q : Nat → World U → Prop}

theorem wp_checkRedNode {Q : Unit → World U → Prop} {l r : Shape U} {x : Addr × U}
    (holds : Holds w.heap root p (.node l c x r)) (black : c = .red → l.color = .black ∧ r.color = .black)
    (next : Q () w) : wp (checkRedNode (nodeOf .left x.2 (above p) (ptr l) (ptr r) c)) e Q R w := by
  rw [checkRedNode, nodeOf_color]
  by_cases red : c = .red
  · obtain ⟨left, right⟩ := black red
    rw [if_pos red, nodeOf_left_left, nodeOf_left_right, wp_bind, wp_nodeIsNullOrBlack (Holds.down (s := .left) holds),
      left, wp_bind, wp_assert, if_pos (by simp), wp_bind, wp_nodeIsNullOrBlack (Holds.down (s := .right) holds), right,
      wp_assert, if_pos (by simp)]
    exact next
  · rw [if_neg red]
    exact next

theorem wp_recursiveCheck (holds : Holds w.heap root p t) (balanced : t.Balanced c n)
    (enough : Enough R t.size fuel) (next : Q ((n + 1) % 2 ^ 32) w) :
    wp (redBlackTreeRecursiveCheck fuel (ptr t)) e Q R w := by
  induction fuel generalizing p t c n Q with
  | zero => exact enough.outOfFuel w
  | succ fuel ih =>
    cases t with
    | nil =>
      cases balanced
      exact next
    | node l c' x r =>
      obtain rfl : c' = c := balanced.color_eq
      simp only [Tree.size] at enough
      rw [redBlackTreeRecursiveCheck, if_neg (by simp [ptr]), ptr, wp_bind, wp_deref_focus (s := .left) holds, wp_bind]
      refine wp_checkRedNode holds balanced.noRedRed.1 ?_
      obtain ⟨m, c₁, c₂, left, right, height⟩ : ∃ m c₁ c₂, l.Balanced c₁ m ∧ r.Balanced c₂ m ∧
          ((if c' = .black then 1 else 0) + (m + 1) % 2 ^ 32) % 2 ^ 32 = (n + 1) % 2 ^ 32 := by
        cases balanced with
        | red left right => exact ⟨_, _, _, left, right, by simp⟩
        | @black _ _ _ _ _ m left right => exact ⟨m, _, _, left, right, by simp; omega⟩
      rw [nodeOf_left_left, nodeOf_left_right, wp_bind]
      refine ih (Holds.down (s := .left) holds) left (enough.mono (by omega)) ?_
      rw [wp_bind]
      refine ih (Holds.down (s := .right) holds) right (enough.mono (by omega)) ?_
      rw [wp_bind, wp_assert, if_pos (by simp), wp_pure, nodeOf_color, height]
      exact next

/-- The second of two neighbours on a walk towards side `s` compares as the side says. -/
def InOrder (e : Env U) (s : Side) (x y : Addr × U) : Prop :=
  match s with
  | .right => e.userStructCompare x.2 y.2 < 0
  | .left => 0 < e.userStructCompare x.2 y.2

theorem inOrder_walk (order : StrictOrder e.userStructCompare) (inc : Increasing e.userStructCompare t.toList) :
    (t.walk s).Pairwise (InOrder e s) := by
  cases s with
  | right => exact inc
  | left => exact pairwise_reverse.mpr (inc.imp fun less => (order.flip _ _).mp less)

theorem wp_checkOrder {walkFuel count : Nat} {before after : List (Addr × U)}
    {x : Addr × U} (holds : Holds w.heap root [] t) (inOrder : (t.walk s).Pairwise (InOrder e s))
    (place : t.walk s = before ++ x :: after) (enough : Enough R t.size walkFuel)
    (more : Enough R after.length fuel) (small : count < 2 ^ 32) (next : Q ((count + after.length) % 2 ^ 32) w) :
    wp (checkOrder s walkFuel fuel (some x.1) count) e Q R w := by
  induction fuel generalizing before after x count with
  | zero => exact more.outOfFuel w
  | succ fuel ih =>
    obtain ⟨p, c, near, far, rfl, rfl⟩ := Tree.exists_of_walk s place
    rw [checkOrder, wp_bind]
    refine wp_neighbour holds.of_whole enough ?_
    cases rest : near.walk s ++ Path.ahead s p with
    | nil =>
      rw [rest, length_nil, Nat.add_zero, Nat.mod_eq_of_lt small] at next
      exact next
    | cons y ys =>
      rw [rest] at place next more
      have place' : (Path.fill p (.join s c x near far)).walk s = (before ++ [x]) ++ y :: ys := by
        rw [place, append_assoc, singleton_append]
      obtain ⟨q, d, near', far', whole, _⟩ := Tree.exists_of_walk s place'
      have there : Holds w.heap root q (.join s d y near' far') := Holds.of_whole (whole ▸ holds)
      have related : InOrder e s x y := by
        rw [place] at inOrder
        exact (pairwise_cons.mp (pairwise_append.mp inOrder).2.1).1 y mem_cons_self
      change wp (if (some y.1 : Ptr) = none then _ else _) e Q R w
      rw [if_neg (by simp), wp_bind, wp_deref_focus holds.of_whole, wp_bind, firstOf, List.head?_cons, Option.map_some,
        wp_deref_focus there, wp_bind, wp_ask, wp_bind, wp_assert]
      rw [if_pos ?_]
      · refine ih place' (more.mono Nat.lt_of_succ_lt_succ) (Nat.mod_lt _ (by decide)) ?_
        rw [length_cons] at next
        convert next using 1
        omega
      · cases s <;> simpa [InOrder] using related

theorem wp_countFrom (holds : Holds w.heap w.root [] t)
    (inOrder : (t.walk s).Pairwise (InOrder e s)) (enough : Enough R t.size fuel) (next : Q (t.size % 2 ^ 32) w) :
    wp (countFrom s fuel) e Q R w := by
  rw [countFrom, wp_bind]
  refine wp_extremeOfTree holds enough ?_
  have length := t.length_walk s
  cases place : t.walk s with
  | nil =>
    rw [place] at length
    rw [← length] at next
    cases fuel with
    | zero => exact enough.outOfFuel w
    | succ fuel => exact next
  | cons x xs =>
    rw [place, length_cons] at length
    rw [show firstOf (x :: xs) = some x.1 from rfl, if_neg (by simp)]
    refine wp_checkOrder (s := s) holds inOrder (place.trans (nil_append _).symm) enough (enough.mono (by omega))
      (by decide) ?_
    rw [Nat.add_comm, length]
    exact next

theorem wp_validate {Q : Unit → World U → Prop} (order : StrictOrder e.userStructCompare)
    (maintained : Maintained e w t) (enough : Enough R t.size fuel) (next : Q () w) :
    wp (validateIfEnabled fuel) e Q R w := by
  obtain ⟨holds, ⟨n, balanced⟩, inc⟩ := maintained
  rw [validateIfEnabled, wp_bind, wp_ask, wp_ite]
  split
  · rw [redBlackTreeValidate, wp_bind, wp_get, wp_bind, ← holds.ptr_eq_root, wp_nodeIsNullOrBlack holds,
      balanced.color_eq, wp_bind, wp_assert, if_pos (by simp), wp_bind]
    refine wp_recursiveCheck holds balanced enough ?_
    rw [wp_bind]
    refine wp_countFrom holds (inOrder_walk order inc) enough ?_
    rw [wp_bind]
    refine wp_countFrom holds (inOrder_walk order inc) enough ?_
    rw [wp_assert, if_pos (by simp)]
    exact next
  · exact next

end Validate

/-! ### Sequences of calls -/

/-- A call by the user of the collection. `pool` is what `AllocatePool` returns in it. -/
inductive Call (U : Type) where
  | insert (userStruct : U) (pool : Ptr)
  | delete (node : Addr)

def Call.run (fuel : Nat) : Call U → M U Unit
  | .insert userStruct pool => do
    let _ ← orderedCollectionInsert fuel pool userStruct
    pure ()
  | .delete node => do
    let _ ← orderedCollectionDelete fuel (some node)
    pure ()

inductive Reaches (heap : Addr → Option (Node U)) : Ptr → Addr → Prop where
  | here {a n} : heap a = some n → Reaches heap (some a) a
  | child {a b n} (s : Side) : heap a = some n → Reaches heap (n.child s) b → Reaches heap (some a) b

/-- What the caller and the allocator answer for: memory is handed out once, and a deleted node belongs to the tree. -/
def Call.Admissible (w : World U) : Call U → Prop
  | .insert _ pool => Fresh w pool
  | .delete node => Reaches w.heap w.root node

def orderedCollectionInit (heap : Addr → Option (Node U)) : World U := { heap := heap, root := none }

inductive Reachable (e : Env U) : World U → Prop where
  | init (heap : Addr → Option (Node U)) : Reachable e (orderedCollectionInit heap)
  | call {w w'} (c : Call U) (fuel : Nat) : Reachable e w → c.Admissible w → c.run fuel e w = (.ok (), w') →
    Reachable e w'

theorem exists_of_reaches {w : World U} {root : Ptr} {p : List (Frame (Addr × U))} {t : Shape U} {a : Addr}
    (holds : Holds w.heap root p t) (reaches : Reaches w.heap (ptr t) a) :
    ∃ q l c u r, t = Path.fill q (.node l c (a, u) r) := by
  induction t generalizing p with
  | nil => cases reaches
  | node l c x r ihl ihr =>
    have here := Holds.lookup (s := .left) holds
    obtain ⟨b, u⟩ := x
    cases reaches with
    | here => exact ⟨[], l, c, u, r, rfl⟩
    | child s found below =>
      obtain rfl := Option.some.inj (here.symm.trans found)
      cases s with
      | left =>
        obtain ⟨q, l', c', u', r', rfl⟩ := ihl (Holds.down (s := .left) holds) below
        refine ⟨q ++ [⟨.left, c, (b, u), r⟩], l', c', u', r', ?_⟩
        rw [Path.fill_append]
        rfl
      | right =>
        obtain ⟨q, l', c', u', r', rfl⟩ := ihr (Holds.down (s := .right) holds) below
        refine ⟨q ++ [⟨.right, c, (b, u), l⟩], l', c', u', r', ?_⟩
        rw [Path.fill_append]
        rfl

theorem wp_orderedCollectionInsert {e : Env U} {w : World U} {t : Shape U} {u : U} {pool : Ptr} {fuel : Nat}
    (order : StrictOrder e.userStructCompare) (maintained : Maintained e w t) (fresh : Fresh w pool)
    {R : Stop → World U → Prop} (enough : Enough R (t.size + 1) fuel) :
    wp (orderedCollectionInsert fuel pool u) e
      (fun result w' => ∃ t', Maintained e w' t' ∧ Inserted e.userStructCompare u pool t.toList result t'.toList)
        R w := by
  refine wp_insert order maintained fresh (enough.mono (by omega)) fun result w' t' maintained' inserted => ?_
  have size := inserted.length_le
  rw [Tree.length_toList, Tree.length_toList] at size
  exact wp_validate order maintained' (enough.mono (by omega)) ⟨t', maintained', inserted⟩

def Deleted (a : Addr) (u : U) (xs ys : List (Addr × U)) : Prop :=
  ∃ before after, xs = before ++ (a, u) :: after ∧ ys = before ++ after

theorem wp_orderedCollectionDelete {e : Env U} {w : World U} {t : Shape U} {a : Addr} {fuel : Nat}
    (order : StrictOrder e.userStructCompare) (maintained : Maintained e w t) (reaches : Reaches w.heap w.root a)
    {R : Stop → World U → Prop} (enough : Enough R (t.size + 1) fuel) :
    wp (orderedCollectionDelete fuel (some a)) e
      (fun u w' => ∃ t', Maintained e w' t' ∧ Deleted a u t.toList t'.toList) R w := by
  rw [← maintained.holds.ptr_eq_root] at reaches
  obtain ⟨p, l, c, u, r, rfl⟩ := exists_of_reaches maintained.holds reaches
  refine wp_delete (x := (a, u)) maintained enough fun w' t' before after maintained' list list' => ?_
  have size : t'.size ≤ (Path.fill p (.node l c (a, u) r)).size := by
    rw [← Tree.length_toList, ← Tree.length_toList, list, list']
    exact ((List.Sublist.refl _).append (sublist_cons_self _ _)).length_le
  exact wp_validate order maintained' (enough.mono (by omega)) ⟨t', maintained', before, after, list, list'⟩

def Call.Effect (e : Env U) (xs ys : List (Addr × U)) : Call U → Prop
  | .insert userStruct pool => ∃ result, Inserted e.userStructCompare userStruct pool xs result ys
  | .delete node => ∃ userStruct, Deleted node userStruct xs ys

theorem wp_call {e : Env U} {w : World U} {t : Shape U} (fuel : Nat) (order : StrictOrder e.userStructCompare)
    (maintained : Maintained e w t) (c : Call U) (admissible : c.Admissible w)
    {R : Stop → World U → Prop} (enough : Enough R (t.size + 1) fuel) :
    wp (c.run fuel) e (fun _ w' => ∃ t', Maintained e w' t' ∧ c.Effect e t.toList t'.toList) R w := by
  cases c with
  | insert userStruct pool =>
    rw [Call.run]
    refine wp_seq ?_ (wp_orderedCollectionInsert order maintained admissible enough)
    rintro result w' ⟨t', maintained', inserted⟩
    exact ⟨t', maintained', result, inserted⟩
  | delete node =>
    rw [Call.run]
    refine wp_seq ?_ (wp_orderedCollectionDelete order maintained admissible enough)
    rintro u w' ⟨t', maintained', deleted⟩
    exact ⟨t', maintained', u, deleted⟩

/-! ### The tree that a caller sees -/

/-- Every node of `t` is in the pool, with its links to its parent and to its children. -/
def Linked (heap : Addr → Option (Node U)) (parent : Ptr) : Shape U → Prop
  | .nil => True
  | .node l c x r =>
    heap x.1 = some ⟨x.2, parent, ptr l, ptr r, c⟩ ∧ Linked heap (some x.1) l ∧ Linked heap (some x.1) r

/-- A red-black tree with consistent links whose in-order walk is strictly increasing. -/
structure ValidTree (e : Env U) (w : World U) (t : Shape U) : Prop where
  root : w.root = ptr t
  links : Linked w.heap none t
  distinct : (t.toList.map Prod.fst).Nodup
  rootBlack : t.color = .black
  noRedRed : t.NoRedRed
  blackCounts : ∃ n, ∀ k ∈ t.blackCounts, k = n
  increasing : t.toList.Pairwise fun x y => e.userStructCompare x.2 y.2 < 0

section Valid

variable {heap : Addr → Option (Node U)} {e : Env U} {w : World U} {parent : Ptr} {t : Shape U} {F : Own U}

theorem linked_of_treeAt (own : (treeAt parent t + F : Own U) heap) : Linked heap parent t := by
  induction t generalizing parent F with
  | nil => trivial
  | node l c x r ihl ihr =>
    rw [treeAt, add_assoc] at own
    have here := lookup own
    rw [add_left_comm, add_assoc] at own
    have left := ihl own
    rw [add_left_comm] at own
    exact ⟨here, left, ihr own⟩

theorem treeAt_mem (parent : Ptr) {a : Addr} (mem : a ∈ t.toList.map Prod.fst) :
    ∃ n G, treeAt parent t = cell a n + G := by
  induction t generalizing parent with
  | nil => cases mem
  | node l c x r ihl ihr =>
    simp only [Tree.toList, map_append, map_cons, mem_append, mem_cons] at mem
    rcases mem with left | rfl | right
    · obtain ⟨n, G, eq⟩ := ihl (some x.1) left
      rw [treeAt, eq, add_assoc, add_left_comm]
      exact ⟨_, _, rfl⟩
    · exact ⟨_, _, rfl⟩
    · obtain ⟨n, G, eq⟩ := ihr (some x.1) right
      rw [treeAt, eq, add_left_comm (treeAt _ l), add_left_comm]
      exact ⟨_, _, rfl⟩

theorem ne_of_parts {P Q : Own U} {a b : Addr} {n m : Node U} {G H : Own U} (own : (P + (Q + F) : Own U) heap)
    (left : P = cell a n + G) (right : Q = cell b m + H) : a ≠ b := by
  rw [left, right, add_assoc (cell b m)] at own
  exact ne_of_cells own

theorem distinct_of_treeAt (own : (treeAt parent t + F : Own U) heap) : (t.toList.map Prod.fst).Nodup := by
  induction t generalizing parent F with
  | nil => exact nodup_nil
  | node l c x r ihl ihr =>
    rw [treeAt, add_assoc, add_assoc] at own
    have rootRight := own
    rw [add_left_comm (treeAt _ l)] at rootRight
    have leftRight := own
    rw [add_left_comm, add_left_comm (cell x.1 _)] at leftRight
    have right := leftRight
    rw [add_left_comm] at right
    rw [Tree.toList, map_append, map_cons, nodup_append, nodup_cons]
    refine ⟨ihl leftRight, ⟨fun mem => ?_, ihr right⟩, fun a memLeft b memRight => ?_⟩
    · obtain ⟨n, G, eq⟩ := treeAt_mem (some x.1) mem
      exact ne_of_parts rootRight (add_zero _).symm eq rfl
    · obtain ⟨n, G, eq⟩ := treeAt_mem (some x.1) memLeft
      rcases mem_cons.mp memRight with rfl | memRight
      · exact (ne_of_parts own (add_zero _).symm eq).symm
      · obtain ⟨m, H, eq'⟩ := treeAt_mem (some x.1) memRight
        exact ne_of_parts leftRight eq eq'

theorem Maintained.valid (maintained : Maintained e w t) : ValidTree e w t := by
  obtain ⟨holds, ⟨n, balanced⟩, inc⟩ := maintained
  have own : (treeAt none t + rest : Own U) w.heap := by simpa [pathAt, above] using holds.own
  exact ⟨holds.root_eq, linked_of_treeAt own, distinct_of_treeAt own, balanced.color_eq, balanced.noRedRed,
    ⟨n, balanced.blackCounts⟩, inc⟩

theorem maintained_of_reachable (order : StrictOrder e.userStructCompare) (reach : Reachable e w) :
    ∃ t, Maintained e w t := by
  induction reach with
  | init heap =>
    have holds : Holds heap none [] (.nil : Shape U) := by
      refine ⟨?_, rfl⟩
      rw [pathAt, treeAt, zero_add, zero_add]
      trivial
    exact ⟨.nil, holds, ⟨0, .nil⟩, List.Pairwise.nil⟩
  | @call w w' c fuel _ admissible run ih =>
    obtain ⟨t, maintained⟩ := ih
    have after := wp_call (R := fun h _ => h = .outOfFuel) fuel order maintained c admissible
      (.inr fun _ => rfl)
    rw [wp, run] at after
    obtain ⟨t', maintained', _⟩ := after
    exact ⟨t', maintained'⟩

end Valid

/-- The call comes back with what `Q` says, given the turns it needs; with fewer it only runs out of them. -/
structure Performs {α : Type} (m : Nat → M U α) (e : Env U) (w : World U) (Q : α → World U → Prop) : Prop where
  safe : ∀ fuel, (m fuel e w).1 = .error .outOfFuel ∨ ∃ r w', m fuel e w = (.ok r, w') ∧ Q r w'
  returns : ∃ enough, ∀ fuel, enough ≤ fuel → ∃ r w', m fuel e w = (.ok r, w') ∧ Q r w'

theorem performs_of_wp {α : Type} {m : Nat → M U α} {e : Env U} {w : World U} {Q : α → World U → Prop} (n : Nat)
    (spec : ∀ fuel R, Enough R n fuel → wp (m fuel) e Q R w) : Performs m e w Q := by
  refine ⟨fun fuel => ?_, n + 1, fun fuel enough => ?_⟩
  · have outcome := spec fuel (fun h _ => h = .outOfFuel) (.inr fun _ => rfl)
    unfold wp at outcome
    split at outcome
    · rename_i run
      exact .inr ⟨_, _, run, outcome⟩
    · rename_i run
      rw [run, outcome]
      exact .inl rfl
  · have outcome := spec fuel (fun _ _ => False) (.inl (by omega))
    unfold wp at outcome
    split at outcome
    · rename_i run
      exact ⟨_, _, run, outcome⟩
    · exact outcome.elim

/-- After every sequence of insertions and deletions the tree is valid, and a call that is given the turns it needs
    returns. -/
theorem redBlackTree_maintained {e : Env U} {w : World U} (order : StrictOrder e.userStructCompare)
    (reach : Reachable e w) :
    (∃ t, ValidTree e w t) ∧
      ∀ c : Call U, c.Admissible w →
        (∀ fuel, (c.run fuel e w).1 = .ok () ∨ (c.run fuel e w).1 = .error .outOfFuel) ∧
          ∃ enough, ∀ fuel, enough ≤ fuel → (c.run fuel e w).1 = .ok () := by
  obtain ⟨t, maintained⟩ := maintained_of_reachable order reach
  refine ⟨⟨t, maintained.valid⟩, fun c admissible => ?_⟩
  obtain ⟨safe, enough, returns⟩ :=
    performs_of_wp _ fun fuel R enough => wp_call (R := R) fuel order maintained c admissible enough
  refine ⟨fun fuel => ?_, enough, fun fuel more => ?_⟩
  · rcases safe fuel with out | ⟨_, w', run, _⟩
    · exact .inr out
    · rw [run]
      exact .inl rfl
  · obtain ⟨_, w', run, _⟩ := returns fuel more
    rw [run]

def sampleEnv : Env Int := { userStructCompare := fun x y => x - y, validateOrderedCollection := true }

def sampleCalls : List (Call Int) :=
  [.insert 5 (some 50), .insert 3 (some 30), .insert 4 (some 40), .insert 9 (some 90), .delete 40, .insert 3 (some 31)]

def sampleWorld (calls : List (Call Int)) : World Int :=
  calls.foldl (fun w c => (c.run 16 sampleEnv w).2) (orderedCollectionInit fun _ => none)

theorem strictOrder_sampleEnv : StrictOrder sampleEnv.userStructCompare :=
  ⟨fun x y => by simp only [sampleEnv]; omega, fun x y z => by simp only [sampleEnv]; omega⟩

theorem reachable_three : Reachable sampleEnv (sampleWorld (sampleCalls.take 3)) := by
  have one : Reachable sampleEnv (sampleWorld (sampleCalls.take 1)) :=
    .call (.insert 5 (some 50)) 16 (.init _) (by rintro a ⟨⟩; rfl) rfl
  have two : Reachable sampleEnv (sampleWorld (sampleCalls.take 2)) :=
    .call (.insert 3 (some 30)) 16 one (by rintro a ⟨⟩; rfl) rfl
  exact .call (.insert 4 (some 40)) 16 two (by rintro a ⟨⟩; rfl) rfl

theorem redBlackTree_maintained_sample :
    StrictOrder sampleEnv.userStructCompare ∧ Reachable sampleEnv (sampleWorld sampleCalls) ∧
      (∃ t, ValidTree sampleEnv (sampleWorld sampleCalls) t) := by
  have four : Reachable sampleEnv (sampleWorld (sampleCalls.take 4)) :=
    .call (.insert 9 (some 90)) 16 reachable_three (by rintro a ⟨⟩; rfl) rfl
  have five : Reachable sampleEnv (sampleWorld (sampleCalls.take 5)) :=
    .call (.delete 40) 16 four (.here rfl) rfl
  have six : Reachable sampleEnv (sampleWorld sampleCalls) :=
    .call (.insert 3 (some 31)) 16 five (by rintro a ⟨⟩; rfl) rfl
  exact ⟨strictOrder_sampleEnv, six, (redBlackTree_maintained strictOrder_sampleEnv six).1⟩

end LeoEdk.Collection
