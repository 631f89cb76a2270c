import LeoEdk.Theorems.TreeLinks

/-! Insertion into the ordered collection. The new node is red, and nothing but a red parent is wrong (`RedRepair`);
    each turn of the loop moves the defect up or ends it. -/

namespace LeoEdk.Collection

open RedBlack Separation Assertion Prog List

variable {U : Type}

/-- A turn of the loop finds `Tmp` red, and a black tree in its place would make the whole tree balanced. -/
structure RedRepair (w : World U) (tmp parent root : Ptr) (xs : List (Addr × U)) (p : List (Frame (Addr × U)))
    (t : Shape U) : Prop where
  holds : Holds w.heap root p t
  tmp_eq : tmp = ptr t
  parent_eq : parent = above p
  balance : ∃ n, t.Balanced .red n ∧ Path.Accepts p .black n
  list_eq : (Path.fill p t).toList = xs

section Step

variable {w : World U} {e : Env U} {R : Stop → World U → Prop} {root : Ptr} {p : List (Frame (Addr × U))}
  {t sibling uncle : Shape U} {s s' : Side} {c : Color} {xp xg : Addr × U} {n : Nat} {xs : List (Addr × U)}

theorem wp_insertFinish {Q : Ptr × Ptr × Ptr → World U → Prop}
    (holds : Holds w.heap root p (.join s .black xg (.join s .red xp t sibling) uncle))
    (red : t.Balanced .red n) (black : sibling.Balanced .black n) (uncleBlack : uncle.Balanced .black n)
    (accepts : Path.Accepts p .black (n + 1))
    (list : (Path.fill p (.join s .black xg (.join s .red xp t sibling) uncle)).toList = xs)
    (next : ∀ tmp parent root' w' q t', w'.root = w.root → q.length ≤ p.length + 1 →
      RedRepair w' tmp parent root' xs q t' → Q (tmp, parent, root') w') :
    wp (insertFinish s (ptr t) (some xp.1) (some xg.1) root) e Q R w := by
  rw [insertFinish, wp_bind]
  refine wp_recolor holds.down fun w₁ same₁ holds => ?_
  rw [wp_bind]
  refine wp_recolor holds.up fun w₂ same₂ holds => ?_
  rw [wp_bind]
  refine wp_rotation holds fun root' w₃ same₃ holds => ?_
  rw [wp_pure]
  refine next _ _ _ w₃ (⟨s, .black, xp, .join s .red xg sibling uncle⟩ :: p) t ?_ ?_ ⟨holds.down, rfl, rfl, ?_, ?_⟩
  · rw [same₃, same₂, same₁]
  · rw [length_cons]
  · exact ⟨n, red, .black (black.join_red uncleBlack) accepts⟩
  · rw [← list]
    refine Path.toList_fill_congr p ?_
    cases s <;> simp [Frame.fill, Tree.join, Tree.toList]

theorem wp_insertStep {Q : Ptr × Ptr × Ptr → World U → Prop}
    (holds : Holds w.heap root (⟨s', .red, xp, sibling⟩ :: ⟨s, .black, xg, uncle⟩ :: p) t)
    (red : t.Balanced .red n) (black : sibling.Balanced .black n) (uncleBalanced : uncle.Balanced c n)
    (accepts : Path.Accepts p .black (n + 1))
    (list : (Path.fill p (.join s .black xg (.join s' .red xp t sibling) uncle)).toList = xs)
    (next : ∀ tmp parent root' w' q t', w'.root = w.root → q.length ≤ p.length + 1 →
      RedRepair w' tmp parent root' xs q t' → Q (tmp, parent, root') w') :
    wp (insertStep s (ptr t) (some xp.1) (some xg.1) root) e Q R w := by
  have grand := holds.up.up
  rw [insertStep, wp_bind, wp_deref_focus grand, nodeOf_child_other, wp_bind, wp_nodeIsNullOrBlack grand.down_other,
    uncleBalanced.color_eq]
  cases c with
  | black =>
    rw [if_pos (by decide), wp_bind, wp_deref_above holds]
    rcases Side.eq_or_other s s' with rfl | rfl
    · have outer : ptr t ≠ ptr sibling := by
        obtain ⟨x, near, far, rfl⟩ := red.eq_join_of_red .left
        exact holds.ptr_ne_sibling (.inl (by simp))
      rw [nodeOf_child_other, if_neg outer]
      exact wp_insertFinish grand red black uncleBalanced accepts list next
    · -- `Tmp` is the inner grandchild: a first rotation makes it the parent of its parent.
      obtain ⟨x, near, far, rfl⟩ := red.eq_join_of_red s.other
      obtain ⟨nearBlack, farBlack⟩ := red.of_join_red
      rw [nodeOf_child, if_pos rfl, wp_bind]
      refine wp_rotation holds.up fun root' w₁ same₁ holds => ?_
      rw [wp_bind, wp_deref_focus holds.down_other, nodeOf_parent, wp_bind, above, wp_deref_focus holds, nodeOf_parent,
        wp_bind, wp_assert, if_pos (by simp [above])]
      have turned := holds.up
      rw [Tree.join_other s .red x] at turned
      rw [← ptr_join s.other .red xp far sibling]
      refine wp_insertFinish turned (farBlack.join_red black) nearBlack uncleBalanced accepts ?_
        fun tmp parent root' w' q t' same => next tmp parent root' w' q t' (same.trans same₁)
      rw [← list]
      refine Path.toList_fill_congr p ?_
      cases s <;> simp [Side.other, Tree.join, Tree.toList]
  | red =>
    obtain ⟨xu, ua, ub, rfl⟩ := uncleBalanced.eq_join_of_red s
    obtain ⟨uaBlack, ubBlack⟩ := uncleBalanced.of_join_red
    rw [if_neg (by decide), wp_bind]
    refine wp_recolor holds.up fun w₁ same₁ holds => ?_
    rw [wp_bind, ptr_join]
    refine wp_recolor holds.up.down_other fun w₂ same₂ holds => ?_
    rw [wp_bind]
    refine wp_recolor holds.up_other fun w₃ same₃ holds => ?_
    rw [wp_bind, wp_deref_focus holds, wp_pure, nodeOf_parent]
    refine next _ _ _ w₃ p _ ?_ (Nat.le_succ _) ⟨holds, by rw [ptr_join], rfl, ?_, ?_⟩
    · rw [same₃, same₂, same₁]
    · exact ⟨n + 1, (red.join_black black).join_red (uaBlack.join_black ubBlack), accepts⟩
    · rw [← list]
      refine Path.toList_fill_congr p ?_
      cases s <;> cases s' <;> rfl

theorem wp_insertLoop {Q : Ptr → World U → Prop} {tmp parent : Ptr} {fuel : Nat}
    (repair : RedRepair w tmp parent root xs p t) (enough : Enough R p.length fuel)
    (next : ∀ root' w' l c x r m, w'.root = w.root → Holds w'.heap root' [] (.node l c x r) →
      (RedBlack.Tree.node l .black x r).Balanced .black m → (RedBlack.Tree.node l c x r).toList = xs → Q root' w') :
    wp (insertLoop fuel tmp parent root) e Q R w := by
  induction fuel generalizing w tmp parent root p t with
  | zero => exact enough.outOfFuel w
  | succ fuel ih =>
    obtain ⟨holds, rfl, rfl, ⟨n, red, accepts⟩, list⟩ := repair
    cases accepts with
    | root =>
      rw [insertLoop, if_pos holds.ptr_eq_root, wp_pure]
      cases red with
      | red left right => exact next _ _ _ _ _ _ _ rfl holds (.black left right) list
    | @black s x u q _ _ _ sibling rest =>
      rw [insertLoop, if_neg holds.ptr_ne_root, above, wp_bind, wp_deref_above holds, nodeOf_color, if_pos rfl, wp_pure]
      have accepts : Path.Accepts (⟨s, .black, x, u⟩ :: q) .red n := .black sibling rest
      obtain ⟨m, whole⟩ := accepts.fill red
      have ne : Path.fill (⟨s, .black, x, u⟩ :: q) t ≠ .nil := Path.fill_ne_nil _ (by rintro rfl; cases red)
      have holds := holds.whole
      generalize Path.fill _ t = u at whole holds list ne
      cases whole with
      | nil => exact absurd rfl ne
      | black left right => exact next _ _ _ _ _ _ _ rfl holds (.black left right) list
    | red sibling rest =>
      obtain ⟨s, xg, uncle, q, c, rfl, uncleBalanced, rest⟩ := rest.of_red
      rw [insertLoop, if_neg holds.ptr_ne_root, above, wp_bind, wp_deref_above holds, nodeOf_color, if_neg (by decide),
        wp_bind, nodeOf_parent, above, wp_deref_above holds.up, ← ptr_join, holds.up.side_eq (.inl (by simp)), wp_bind,
        ptr_join]
      refine wp_insertStep holds red sibling uncleBalanced rest list
        fun tmp parent root' w' q' t' same shorter repair => ?_
      refine ih repair ?_ fun root'' w'' l c x r m same' => next root'' w'' l c x r m (same'.trans same)
      simp only [length_cons] at enough
      exact enough.mono (by omega)

end Step

structure StrictOrder (compare : U → U → Int) : Prop where
  flip : ∀ x y, compare x y < 0 ↔ 0 < compare y x
  trans : ∀ x y z, compare x y < 0 → compare y z < 0 → compare x z < 0

def Increasing (compare : U → U → Int) (xs : List (Addr × U)) : Prop := xs.Pairwise fun x y => compare x.2 y.2 < 0

structure Between (compare : U → U → Int) (u : U) (p : List (Frame (Addr × U))) : Prop where
  less : ∀ y ∈ Path.before p, compare y.2 u < 0
  greater : ∀ y ∈ Path.after p, compare u y.2 < 0

def SideOf (result : Int) : List (Frame (Addr × U)) → Prop
  | [] => True
  | f :: _ => (if result < 0 then Side.left else .right) = f.side

section Search

variable {compare : U → U → Int} {u : U} {l r : Shape U} {c : Color} {x : Addr × U} {p : List (Frame (Addr × U))}

theorem Between.left (order : StrictOrder compare) (between : Between compare u p) (less : compare u x.2 < 0)
    (inc : Increasing compare (Path.fill p (.node l c x r)).toList) : Between compare u (⟨.left, c, x, r⟩ :: p) := by
  refine ⟨between.less, ?_⟩
  simp only [Path.after, cons_append, mem_cons, mem_append]
  rintro y (rfl | mem | mem)
  · exact less
  · refine order.trans _ _ _ less ?_
    rw [Path.toList_fill, Tree.toList] at inc
    have tail := (pairwise_append.mp (pairwise_append.mp inc).1).2.1
    exact (pairwise_cons.mp (pairwise_append.mp tail).2.1).1 y mem
  · exact between.greater y mem

theorem Between.right (order : StrictOrder compare) (between : Between compare u p) (greater : 0 < compare u x.2)
    (inc : Increasing compare (Path.fill p (.node l c x r)).toList) : Between compare u (⟨.right, c, x, l⟩ :: p) := by
  refine ⟨?_, between.greater⟩
  have less := (order.flip x.2 u).mpr greater
  simp only [Path.before, mem_append, mem_singleton]
  rintro y (mem | mem | rfl)
  · exact between.less y mem
  · refine order.trans _ _ _ ?_ less
    rw [Path.toList_fill, Tree.toList] at inc
    have tail := (pairwise_append.mp (pairwise_append.mp inc).1).2.1
    exact (pairwise_append.mp tail).2.2 y mem x mem_cons_self
  · exact less

variable {w : World U} {e : Env U} {R : Stop → World U → Prop} {root : Ptr} {t : Shape U}

theorem wp_searchFrom {Q : Ptr × Ptr × Int → World U → Prop} {fuel : Nat} {result : Int}
    (order : StrictOrder e.userStructCompare) (holds : Holds w.heap root p t)
    (between : Between e.userStructCompare u p) (side : SideOf result p)
    (inc : Increasing e.userStructCompare (Path.fill p t).toList) (enough : Enough R t.size fuel)
    (found : ∀ x ∈ (Path.fill p t).toList, e.userStructCompare u x.2 = 0 →
      ∀ parent result, Q (some x.1, parent, result) w)
    (missing : ∀ q result, Path.fill q .nil = Path.fill p t → Between e.userStructCompare u q → SideOf result q →
      Q (none, above q, result) w) :
    wp (searchFrom u fuel (ptr t) (above p) result) e Q R w := by
  induction fuel generalizing p t result with
  | zero => exact enough.outOfFuel w
  | succ fuel ih =>
    cases t with
    | nil => exact missing p result rfl between side
    | node l c x r =>
      simp only [Tree.size] at enough
      rw [searchFrom, if_neg (by simp [ptr]), ptr, wp_bind, wp_deref_focus (s := .left) holds, wp_bind, wp_ask,
        nodeOf_userStruct]
      by_cases same : e.userStructCompare u x.2 = 0
      · rw [if_pos same]
        refine found x ?_ same _ _
        rw [Path.toList_fill, Tree.toList]
        exact mem_append_left _ (mem_append_right _ (mem_append_right _ mem_cons_self))
      rw [if_neg same]
      by_cases less : e.userStructCompare u x.2 < 0
      · rw [if_pos less]
        exact ih (Holds.down (s := .left) holds) (between.left order less inc) (if_pos less) inc
          (enough.mono (by omega)) found missing
      · rw [if_neg less]
        exact ih (Holds.down (s := .right) holds) (between.right order (by omega) inc) (if_neg less) inc
          (enough.mono (by omega)) found missing

end Search

/-- What every call keeps: the pool holds a balanced tree whose in-order list is increasing. -/
structure Maintained (e : Env U) (w : World U) (t : Shape U) : Prop where
  holds : Holds w.heap w.root [] t
  balanced : ∃ n, t.Balanced .black n
  increasing : Increasing e.userStructCompare t.toList

section Insert

variable {w : World U} {e : Env U} {R : Stop → World U → Prop} {u : U} {a : Addr}

theorem Between.increasing {q : List (Frame (Addr × U))} (between : Between e.userStructCompare u q)
    (inc : Increasing e.userStructCompare (Path.fill q .nil).toList) :
    Increasing e.userStructCompare (Path.before q ++ (a, u) :: Path.after q) := by
  rw [Path.toList_fill, Tree.toList, append_nil] at inc
  obtain ⟨first, last, across⟩ := pairwise_append.mp inc
  exact pairwise_append.mpr ⟨first, pairwise_cons.mpr ⟨between.greater, last⟩,
    fun x before => forall_mem_cons.mpr ⟨between.less x before, across x before⟩⟩

theorem Between.compare_ne {q : List (Frame (Addr × U))} (order : StrictOrder e.userStructCompare)
    (between : Between e.userStructCompare u q) {x : Addr × U} (mem : x ∈ (Path.fill q .nil).toList) :
    e.userStructCompare u x.2 ≠ 0 := by
  rw [Path.toList_fill, Tree.toList, append_nil] at mem
  rcases mem_append.mp mem with mem | mem
  · exact Int.ne_of_gt ((order.flip _ _).mp (between.less x mem))
  · exact Int.ne_of_lt (between.greater x mem)

theorem wp_insertNode {Q : Unit → World U → Prop} {q : List (Frame (Addr × U))} {fuel : Nat} {result : Int}
    (holds : Holds w.heap w.root q .nil) (accepts : Path.Accepts q .black 0) (side : SideOf result q)
    (free : w.heap a = none) (enough : Enough R q.length fuel)
    (next : ∀ w' t', Holds w'.heap w'.root [] t' → (∃ m, t'.Balanced .black m) →
      t'.toList = Path.before q ++ (a, u) :: Path.after q → Q () w') :
    wp (insertNode fuel u a (above q) result) e Q R w := by
  cases q with
  | nil =>
    rw [insertNode, above, if_pos rfl, wp_bind, wp_modify, setRoot, wp_modify]
    refine next _ (.node .nil .black (a, u) .nil) ⟨?_, rfl⟩ ⟨1, .black .nil .nil⟩ rfl
    have own : (cell a ⟨u, none, none, none, .black⟩ + rest : Own U) _ := alloc (F := rest) trivial free
    simpa [pathAt, treeAt, above, ptr, World.set] using own
  | cons f q =>
    obtain ⟨s, c, x, sibling⟩ := f
    have own : [cell a ⟨u, some x.1, none, none, .red⟩ + 0, pathAt none (⟨s, c, x, sibling⟩ :: q), rest].sum
        (w.set a (some ⟨u, some x.1, none, none, .red⟩)).heap := by
      have own := alloc (v := ⟨u, some x.1, none, none, .red⟩) holds.own free
      simpa [treeAt, ptr, World.set] using own
    rw [insertNode, above, if_neg (by simp), wp_bind, wp_modify, wp_bind]
    refine wp_store (k := 1) own rfl fun w₁ same₁ own => ?_
    have linked : Holds w₁.heap w₁.root (⟨s, c, x, sibling⟩ :: q) (.node .nil .red (a, u) .nil) := by
      refine ⟨of_eq own ?_, ?_⟩
      · change (if result < 0 then Side.left else .right) = s at side
        simp only [set_cons_succ, set_cons_zero, sum_cons, sum_nil, side, nodeOf_setChild, pathAt,
          treeAt, above, ptr]
        abel
      · rw [same₁]
        exact holds.root_eq
    rw [wp_bind, wp_get, wp_bind]
    refine wp_insertLoop ⟨linked, rfl, rfl, ⟨0, .red .nil .nil, accepts⟩, rfl⟩ enough
      fun root' w₂ l c x r m _ holds balanced list => ?_
    rw [wp_bind, ← holds.ptr_eq_root, ptr]
    refine wp_recolor (s := .left) (d := .black) holds fun w₃ _ holds => ?_
    rw [setRoot, wp_modify]
    refine next _ (.node l .black x r) ⟨holds.own, rfl⟩ ⟨m, balanced⟩ ?_
    rw [Path.toList_fill] at list
    simpa [Tree.toList] using list

def Fresh (w : World U) (pool : Ptr) : Prop := ∀ a, pool = some a → w.heap a = none

inductive Inserted (compare : U → U → Int) (u : U) (pool : Ptr) (xs : List (Addr × U)) :
    Status × Ptr → List (Addr × U) → Prop where
  | collision (x : Addr × U) : x ∈ xs → compare u x.2 = 0 → Inserted compare u pool xs (.alreadyStarted, some x.1) xs
  | outOfResources : pool = none → (∀ x ∈ xs, compare u x.2 ≠ 0) →
    Inserted compare u pool xs (.outOfResources, none) xs
  | linked (a : Addr) (before after : List (Addr × U)) : pool = some a → xs = before ++ after →
    (∀ x ∈ xs, compare u x.2 ≠ 0) → Inserted compare u pool xs (.success, some a) (before ++ (a, u) :: after)

theorem Inserted.length_le {compare : U → U → Int} {pool : Ptr} {xs ys : List (Addr × U)} {result : Status × Ptr}
    (inserted : Inserted compare u pool xs result ys) : ys.length ≤ xs.length + 1 := by
  cases inserted with
  | collision => exact Nat.le_succ _
  | outOfResources => exact Nat.le_succ _
  | linked a before after _ eq _ =>
    rw [eq, length_append, length_append, length_cons, Nat.add_assoc]

theorem wp_insert {Q : Status × Ptr → World U → Prop} {t : Shape U} {fuel : Nat} {pool : Ptr}
    (order : StrictOrder e.userStructCompare) (maintained : Maintained e w t) (fresh : Fresh w pool)
    (enough : Enough R t.size fuel)
    (next : ∀ result w' t', Maintained e w' t' → Inserted e.userStructCompare u pool t.toList result t'.toList →
      wp (validateIfEnabled fuel) e (fun _ w'' => Q result w'') R w') :
    wp (orderedCollectionInsert fuel pool u) e Q R w := by
  rw [orderedCollectionInsert, wp_bind, wp_get, wp_bind, ← maintained.holds.ptr_eq_root]
  refine wp_searchFrom (p := []) order maintained.holds ⟨nofun, nofun⟩ trivial maintained.increasing enough ?_ ?_
  · intro x mem same parent result
    rw [wp_bind, insertUnlessFound, wp_pure, wp_bind]
    exact next _ w t maintained (.collision x mem same)
  · intro q result same between side
    change Path.fill q .nil = t at same
    have differs : ∀ x ∈ t.toList, e.userStructCompare u x.2 ≠ 0 := fun x mem => between.compare_ne order (same ▸ mem)
    cases pool with
    | none =>
      rw [wp_bind, insertUnlessFound, wp_pure, wp_bind]
      exact next _ w t maintained (.outOfResources rfl differs)
    | some a =>
      obtain ⟨n, balanced⟩ := maintained.balanced
      rw [← same] at balanced
      obtain ⟨c, m, accepts, hole⟩ := Path.accepts_of_fill balanced
      cases hole
      rw [wp_bind, insertUnlessFound, wp_bind]
      refine wp_insertNode (Holds.of_whole (same ▸ maintained.holds)) accepts side (fresh a rfl) ?_ ?_
      · have := Path.size_fill q (.nil : Shape U)
        rw [same] at this
        exact enough.mono (by omega)
      · intro w' t' holds balanced list
        rw [wp_pure, wp_bind]
        refine next _ w' t' ⟨holds, balanced, ?_⟩ ?_
        · rw [list]
          exact between.increasing (same ▸ maintained.increasing)
        · rw [list]
          refine .linked a _ _ rfl ?_ differs
          rw [← same, Path.toList_fill, Tree.toList, append_nil]

end Insert

end LeoEdk.Collection
