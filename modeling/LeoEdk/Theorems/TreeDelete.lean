import LeoEdk.Theorems.TreeInsert

/-! Deletion from the ordered collection. A node that is taken out leaves a subtree one black short (`BlackRepair`);
    each turn of the loop moves the defect up or ends it. -/

namespace LeoEdk.Collection

open RedBlack Separation Assertion Prog List

variable {U : Type}

/-- Every path of `t` has `n` black nodes, and no red node has a red child, but for a red root. -/
def Deficient (t : Shape U) (n : Nat) : Prop :=
  t.Balanced .black n ∨ ∃ l x r c d, t = .node l .red x r ∧ l.Balanced c n ∧ r.Balanced d n

/-- A turn of the loop finds the subtree at `Child` one black short of what its path takes. -/
structure BlackRepair (w : World U) (child parent root : Ptr) (xs : List (Addr × U)) (p : List (Frame (Addr × U)))
    (t : Shape U) : Prop where
  holds : Holds w.heap root p t
  child_eq : child = ptr t
  parent_eq : p ≠ [] → parent = above p
  balance : ∃ n, Deficient t n ∧ Path.Accepts p .black (n + 1)
  list_eq : (Path.fill p t).toList = xs

def turns (p : List (Frame (Addr × U))) (t : Shape U) : Nat := p.length + if t.color = .black then 1 else 0

/-- What comes after a step of the repair, with at most `k` turns to go. -/
def Continues (w : World U) (xs : List (Addr × U)) (k : Nat) (Q : Ptr × Ptr × Ptr → World U → Prop) : Prop :=
  ∀ child parent root w' p t, w'.root = w.root → turns p t ≤ k → BlackRepair w' child parent root xs p t →
    Q (child, parent, root) w'

section Step

variable {w : World U} {e : Env U} {R : Stop → World U → Prop} {root : Ptr} {q : List (Frame (Addr × U))}
  {t near far sibling : Shape U} {s : Side} {c d : Color} {x y : Addr × U} {n : Nat} {xs : List (Addr × U)}
  {Q : Ptr × Ptr × Ptr → World U → Prop}

theorem Continues.mono {w' : World U} {k k' : Nat} (next : Continues w xs k Q)
    (same : w'.root = w.root) (le : k' ≤ k) : Continues w' xs k' Q :=
  fun _ _ _ _ _ _ same' few => next _ _ _ _ _ _ (same'.trans same) (few.trans le)

theorem wp_deleteFinish {a b : Shape U} {z : Addr × U}
    (holds : Holds w.heap root (⟨s, c, x, .join s .black y near (.join s .red z a b)⟩ :: q) t)
    (balanced : t.Balanced .black n) (nearBalanced : near.Balanced d n)
    (farBalanced : (Tree.join s .red z a b).Balanced .red n)
    (accepts : Path.Accepts (⟨s, c, x, sibling⟩ :: q) .black (n + 1))
    (list : (Path.fill q (.join s c x t (.join s .black y near (.join s .red z a b)))).toList = xs)
    (next : Continues w xs 1 Q) :
    wp (deleteFinish s (some x.1) (some y.1) (some z.1) root) e Q R w := by
  have focus := holds.up.down_other
  rw [deleteFinish, wp_bind, wp_assert, if_pos (by simp), wp_bind, wp_deref_focus focus.down_other, wp_bind, wp_assert,
    nodeOf_color, if_pos (by simp), wp_bind, wp_assert, if_pos (by simp), wp_bind, wp_deref_focus focus, wp_bind,
    wp_assert, nodeOf_color, if_pos (by simp), wp_bind, wp_deref_above holds, nodeOf_color, wp_bind]
  refine wp_recolor focus fun w₁ same₁ focus => ?_
  rw [wp_bind]
  refine wp_recolor (d := .black) focus.up_other fun w₂ same₂ holds => ?_
  rw [wp_bind]
  refine wp_recolor (d := .black) holds.down_other.down_other fun w₃ same₃ holds => ?_
  have focus := holds.up_other.up
  rw [← Tree.join_other s c y] at focus
  rw [wp_bind]
  refine wp_rotation focus fun root' w₄ same₄ holds => ?_
  rw [wp_pure]
  obtain ⟨aBlack, bBlack⟩ := farBalanced.of_join_red
  have turned : (Tree.join s.other c y (.join s .black z a b) (.join s.other .black x near t)).Balanced c
      (c.raise (n + 1)) := (aBlack.join_black bBlack).join_raise (nearBalanced.join_black balanced)
  obtain ⟨m, whole⟩ := accepts.tail.fill turned
  refine next _ _ root' w₄ [] _ ?_ (by simp [turns, whole.color_eq]) ⟨holds.whole, holds.whole.ptr_eq_root.symm,
    fun ne => absurd rfl ne, ?_, ?_⟩
  · rw [same₄, same₃, same₂, same₁]
  · exact ⟨m, .inl whole, .root⟩
  · rw [← list]
    refine Path.toList_fill_congr q ?_
    cases s <;> simp [Side.other, Tree.join, Tree.toList]

theorem wp_deleteBlackSibling {c₁ c₂ : Color}
    (holds : Holds w.heap root (⟨s, c, x, .join s .black y near far⟩ :: q) t)
    (balanced : t.Balanced .black n) (nearBalanced : near.Balanced c₁ n) (farBalanced : far.Balanced c₂ n)
    (accepts : Path.Accepts (⟨s, c, x, .join s .black y near far⟩ :: q) .black (n + 1))
    (list : (Path.fill q (.join s c x t (.join s .black y near far))).toList = xs)
    (next : Continues w xs (max 1 (q.length + if c = .black then 1 else 0)) Q) :
    wp (deleteBlackSibling s (some x.1) (some y.1) root) e Q R w := by
  have focus := holds.up.down_other
  rw [deleteBlackSibling, wp_bind, wp_deref_focus focus, wp_bind, wp_assert, nodeOf_color, if_pos (by simp),
    nodeOf_child, nodeOf_child_other, wp_bind, wp_nodeIsNullOrBlack focus.down, wp_bind,
    wp_nodeIsNullOrBlack focus.down_other, nearBalanced.color_eq, farBalanced.color_eq]
  cases c₂ with
  | red =>
    obtain ⟨z, a, b, rfl⟩ := farBalanced.eq_join_of_red s
    rw [if_neg (by simp), if_neg (by simp), ptr_join]
    exact wp_deleteFinish holds balanced nearBalanced farBalanced accepts list (next.mono rfl (le_max_left _ _))
  | black =>
    cases c₁ with
    | black =>
      rw [if_pos (by simp), wp_bind]
      refine wp_recolor (d := .red) focus fun w₁ same₁ focus => ?_
      have holds := focus.up_other
      rw [wp_bind, wp_deref_focus holds, nodeOf_parent, wp_pure]
      refine next _ _ _ w₁ q _ same₁ ?_ ⟨holds, by rw [ptr_join], fun _ => rfl, ?_, ?_⟩
      · rw [turns, Tree.color_join]
        exact le_max_right _ _
      · cases c with
        | red =>
          refine ⟨n, .inr ?_, accepts.tail.accepts_black⟩
          cases s
          · exact ⟨_, _, _, _, _, rfl, balanced, .red nearBalanced farBalanced⟩
          · exact ⟨_, _, _, _, _, rfl, .red farBalanced nearBalanced, balanced⟩
        | black => exact ⟨n + 1, .inl (balanced.join_black (nearBalanced.join_red farBalanced)), accepts.tail⟩
      · rw [← list]
        refine Path.toList_fill_congr q ?_
        cases s <;> rfl
    | red =>
      -- The near nephew comes above the sibling, which then is a red far nephew.
      obtain ⟨z, a, b, rfl⟩ := nearBalanced.eq_join_of_red s
      obtain ⟨aBlack, bBlack⟩ := nearBalanced.of_join_red
      rw [if_neg (by simp), if_pos (by simp), wp_bind, ptr_join]
      refine wp_recolor (d := .black) focus.down fun w₁ same₁ focus => ?_
      rw [wp_bind]
      refine wp_recolor (d := .red) focus.up fun w₂ same₂ focus => ?_
      rw [wp_bind]
      refine wp_rotation focus fun root' w₃ same₃ focus => ?_
      have holds := focus.up_other.down
      rw [wp_bind, wp_deref_above holds, nodeOf_child_other, ptr_join, wp_bind, wp_deref_focus focus,
        nodeOf_child_other, ptr_join]
      refine wp_deleteFinish holds balanced aBlack (bBlack.join_red farBalanced) accepts ?_
        (next.mono ?_ (le_max_left _ _))
      · rw [← list]
        refine Path.toList_fill_congr q ?_
        cases s <;> simp [Tree.join, Tree.toList]
      · rw [same₃, same₂, same₁]

theorem wp_deleteStep {d : Color}
    (holds : Holds w.heap root (⟨s, c, x, sibling⟩ :: q) t) (balanced : t.Balanced .black n)
    (siblingBalanced : sibling.Balanced d (n + 1)) (accepts : Path.Accepts (⟨s, c, x, sibling⟩ :: q) .black (n + 1))
    (list : (Path.fill q (.join s c x t sibling)).toList = xs)
    (next : Continues w xs (q.length + 1) Q) :
    wp (deleteStep s (some x.1) root) e Q R w := by
  obtain ⟨y, near, far, rfl⟩ := siblingBalanced.exists_join s
  have focus := holds.up.down_other
  rw [deleteStep, wp_bind, wp_deref_above holds, nodeOf_child_other, ptr_join, wp_bind, wp_assert, if_pos (by simp),
    wp_bind, wp_deref_focus focus, nodeOf_color]
  cases d with
  | black =>
    obtain ⟨c₁, c₂, nearBalanced, farBalanced⟩ := siblingBalanced.of_join_black
    rw [if_neg (by decide)]
    refine wp_deleteBlackSibling holds balanced nearBalanced farBalanced accepts list (next.mono rfl ?_)
    refine max_le (Nat.le_add_left _ _) ?_
    split <;> omega
  | red =>
    -- The red sibling comes above the parent, and its near child becomes the sibling.
    obtain ⟨nearBalanced, farBalanced⟩ := siblingBalanced.of_join_red
    obtain ⟨z, a, b, rfl⟩ := nearBalanced.exists_join s
    obtain ⟨c₁, c₂, aBalanced, bBalanced⟩ := nearBalanced.of_join_black
    cases accepts with
    | red siblingBlack rest =>
      have := siblingBlack.color_eq
      rw [Tree.color_join] at this
      cases this
    | black _ rest =>
      rw [if_pos rfl, wp_bind]
      refine wp_recolor (d := .black) focus fun w₁ same₁ focus => ?_
      rw [wp_bind]
      refine wp_recolor (d := .red) focus.up_other fun w₂ same₂ holds => ?_
      rw [← Tree.join_other s .red x, ← Tree.join_other s .black y] at holds
      rw [wp_bind]
      refine wp_rotation holds fun root' w₃ same₃ holds => ?_
      rw [Tree.join_other s .red x, Tree.join_other s .black y] at holds
      have holds := holds.down.down
      rw [wp_bind, wp_deref_above holds, nodeOf_child_other, ptr_join, wp_bind, wp_assert, if_pos (by simp)]
      refine wp_deleteBlackSibling holds balanced aBalanced bBalanced (.red nearBalanced (.black farBalanced rest)) ?_
        (next.mono ?_ ?_)
      · rw [← list]
        refine Path.toList_fill_congr q ?_
        cases s <;> simp [Frame.fill, Tree.join, Tree.toList]
      · rw [same₃, same₂, same₁]
      · simp

theorem wp_deleteLoop {Q : Ptr × Ptr → World U → Prop} {child parent : Ptr} {fuel : Nat}
    {p : List (Frame (Addr × U))} (repair : BlackRepair w child parent root xs p t) (enough : Enough R (turns p t) fuel)
    (next : ∀ root' w' p' t' m, w'.root = w.root → Holds w'.heap root' p' t' →
      (Path.fill p' t'.blacken).Balanced .black m → (Path.fill p' t').toList = xs → Q (ptr t', root') w') :
    wp (deleteLoop fuel child parent root) e Q R w := by
  induction fuel generalizing w child parent root p t with
  | zero => exact enough.outOfFuel w
  | succ fuel ih =>
    obtain ⟨holds, rfl, parent_eq, ⟨n, deficient, accepts⟩, list⟩ := repair
    cases p with
    | nil =>
      rw [deleteLoop, if_pos holds.ptr_eq_root, wp_pure]
      rcases deficient with balanced | ⟨l, x, r, c, d, rfl, left, right⟩
      · exact next root w [] t n rfl holds balanced.blacken list
      · exact next root w [] _ (n + 1) rfl holds (.black left right) list
    | cons f q =>
      rw [deleteLoop, if_neg holds.ptr_ne_root, wp_bind, wp_nodeIsNullOrBlack holds]
      rcases deficient with balanced | ⟨l, x, r, c, d, rfl, left, right⟩
      · obtain ⟨s, c, x, sibling⟩ := f
        obtain ⟨d, siblingBalanced⟩ : ∃ d, sibling.Balanced d (n + 1) := by
          cases accepts with
          | red sibling _ => exact ⟨_, sibling⟩
          | black sibling _ => exact ⟨_, sibling⟩
        have some' : ptr sibling ≠ none := by
          obtain ⟨y, near, far, rfl⟩ := siblingBalanced.exists_join .left
          simp
        rw [balanced.color_eq, if_pos (by simp), wp_bind, parent_eq (by simp), above, wp_deref_above holds,
          holds.side_eq (.inr some'), wp_bind]
        refine wp_deleteStep holds balanced siblingBalanced accepts list
          fun child parent root' w' p' t' same few repair => ?_
        refine ih repair ?_ fun root'' w'' p'' t'' m same' => next root'' w'' p'' t'' m (same'.trans same)
        simp only [turns, balanced.color_eq, length_cons, if_pos] at enough
        exact enough.mono (by omega)
      · rw [if_neg (by simp [Tree.color]), wp_pure]
        obtain ⟨m, whole⟩ := accepts.fill (Tree.Balanced.black (x := x) left right)
        exact next root w _ _ m rfl holds whole list

theorem wp_repairBlack {Q : Ptr → World U → Prop} {child parent : Ptr} {fuel : Nat}
    {p : List (Frame (Addr × U))} (repair : BlackRepair w child parent root xs p t) (enough : Enough R (turns p t) fuel)
    (next : ∀ root' w' t' m, Holds w'.heap root' [] t' → t'.Balanced .black m → t'.toList = xs → Q root' w') :
    wp (repairBlack fuel child parent root) e Q R w := by
  rw [repairBlack, wp_bind]
  refine wp_deleteLoop repair enough fun root' w' p' t' m _ holds balanced list => ?_
  rw [wp_bind]
  cases t' with
  | nil => exact next root' w' _ m holds.whole balanced list
  | node l c x r =>
    refine wp_recolor (s := .left) (d := .black) holds fun w'' _ holds => ?_
    rw [wp_pure]
    refine next root' w'' _ m holds.whole balanced ?_
    rw [← list]
    exact Path.toList_fill_congr p' rfl

end Step

structure Detached (heap : Addr → Option (Node U)) (a : Addr) (root : Ptr) (p : List (Frame (Addr × U))) (t : Shape U) :
    Prop where
  own : ∃ n, (cell a n + (pathAt (ptr t) p + (treeAt (above p) t + rest)) : Own U) heap
  root_eq : root = top p (ptr t)

section Unlink

variable {w : World U} {e : Env U} {R : Stop → World U → Prop} {root : Ptr} {p : List (Frame (Addr × U))}
  {l r t : Shape U} {c : Color} {x : Addr × U}

theorem wp_freePool {Q : Unit → World U → Prop} {a : Addr} (detached : Detached w.heap a root p t)
    (next : ∀ w', Holds w'.heap root p t → Q () w') : wp (freePool (some a)) e Q R w := by
  obtain ⟨⟨n, own⟩, rooted⟩ := detached
  exact next _ ⟨release own, rooted⟩

variable (holds : Holds w.heap root p (.node l c x r))
include holds

theorem wp_unlinkNode {Q : Ptr × Ptr × Ptr × Color → World U → Prop} (one : l = .nil ∨ r = .nil)
    (next : ∀ root' w' t, t = (if ptr l ≠ none then l else r) → Detached w'.heap x.1 root' p t →
      Q (ptr t, above p, root', c) w') : wp (unlinkNode (some x.1) root) e Q R w := by
  obtain ⟨t, t_eq, own⟩ : ∃ t, t = (if ptr l ≠ none then l else r) ∧
      [cell x.1 (nodeOf .left x.2 (above p) (ptr l) (ptr r) c) + 0, treeAt (some x.1) t, pathAt (some x.1) p,
        rest].sum w.heap := by
    have own := holds.own
    rcases one with rfl | rfl
    · refine ⟨r, by simp [ptr], of_eq own ?_⟩
      simp only [sum_cons, sum_nil, treeAt, ptr, nodeOf]
      abel
    · refine ⟨l, by cases l <;> simp [ptr], of_eq own ?_⟩
      simp only [sum_cons, sum_nil, treeAt, ptr, nodeOf]
      abel
  have child : (if ptr l ≠ none then ptr l else ptr r) = ptr t := by
    rw [t_eq]
    split <;> rfl
  rw [unlinkNode, wp_bind, wp_deref (k := 0) own rfl, wp_bind]
  change wp (storeIfAny (if ptr l ≠ none then ptr l else ptr r) _) e _ R w
  rw [child]
  refine wp_reparent (k := 1) own rfl fun w₁ _ own => ?_
  change wp (replaceChild _ _ (if ptr l ≠ none then ptr l else ptr r) _ >>= _) e _ R w₁
  rw [child, wp_bind]
  refine wp_replaceChild (k := 2) (j := 0) own rfl rfl (by decide) holds.root_eq fun w₂ _ own => ?_
  change Q (if ptr l ≠ none then ptr l else ptr r, above p, top p (ptr t), c) w₂
  rw [child]
  refine next _ w₂ t t_eq ⟨⟨nodeOf .left x.2 (above p) (ptr l) (ptr r) c, of_eq own ?_⟩, rfl⟩
  simp only [set_cons_succ, set_cons_zero, sum_cons, sum_nil, nodeOf_parent]
  abel

theorem wp_unlinkSuccessor {Q : Ptr × Ptr × Ptr → World U → Prop} {fuel : Nat}
    (two : r ≠ .nil) (enough : Enough R r.size fuel)
    (next : ∀ w' q d y rr parent, r = Path.fill q (.node .nil d y rr) → (∀ f ∈ q, f.side = .left) →
      [cell x.1 (nodeOf .left x.2 (above p) (ptr l) (ptr r) c) + 0,
        cell y.1 (nodeOf .left y.2 parent none (ptr (Path.fill q rr)) d) + 0, treeAt (some x.1) l,
        treeAt (some y.1) (Path.fill q rr), pathAt (some x.1) p, rest].sum w'.heap →
      Q (some y.1, ptr rr, above (q ++ ⟨.right, c, y, l⟩ :: p)) w') : wp (unlinkSuccessor fuel (ptr r)) e Q R w := by
  cases r with
  | nil => exact absurd rfl two
  | node rl rc rx rr =>
    have focus : Holds w.heap root (⟨.right, c, x, l⟩ :: p) (.node rl rc rx rr) := Holds.down (s := .right) holds
    rw [unlinkSuccessor, ptr, wp_bind, wp_deref_focus (s := .left) focus]
    by_cases noLeft : ptr rl = none
    · obtain rfl : rl = .nil := by
        cases rl with
        | nil => rfl
        | node => cases noLeft
      rw [nodeOf_left_left, if_pos noLeft, nodeOf_left_right, wp_pure]
      refine next w [] rc rx rr (some x.1) rfl (forall_mem_nil _) (of_eq holds.own ?_)
      simp only [sum_cons, sum_nil, treeAt, ptr, nodeOf, Path.fill]
      abel
    · have left : rl ≠ .nil := by
        rintro rfl
        exact noLeft rfl
      simp only [Tree.size] at enough
      rw [nodeOf_left_left, if_neg noLeft, wp_bind]
      refine wp_extreme (Holds.down (s := .left) focus) left (enough.mono (by omega)) fun q d y far same side => ?_
      subst same
      have deep := Holds.append_iff.mpr (Holds.down (s := .left) focus)
      rw [append_cons] at deep
      generalize chain : q ++ [⟨.left, rc, rx, rr⟩] = q' at deep
      have sides : ∀ f ∈ q', f.side = .left := chain ▸ forall_mem_append.mpr ⟨side, forall_mem_singleton.mpr rfl⟩
      have head : ∀ t, ptr (Path.fill q' t) = some rx.1 := fun t => chain ▸ ptr_fill_append q _ t
      obtain ⟨g, q'', rfl⟩ : ∃ g q'', q' = g :: q'' := by
        rw [← chain]
        cases q <;> exact ⟨_, _, rfl⟩
      obtain ⟨gs, gc, gx, gt⟩ := g
      obtain rfl : gs = .left := sides _ mem_cons_self
      have own : [pathAt (some y.1) (⟨.left, gc, gx, gt⟩ :: (q'' ++ ⟨.right, c, x, l⟩ :: p)),
          cell y.1 (nodeOf .left y.2 (some gx.1) none (ptr far) d) + 0, treeAt (some y.1) far, rest].sum w.heap := by
        refine of_eq deep.own ?_
        simp only [sum_cons, sum_nil, Tree.join, treeAt, ptr, nodeOf, above, cons_append]
        abel
      rw [wp_bind, wp_deref (k := 1) own rfl, nodeOf_parent, nodeOf_left_right, wp_bind]
      refine wp_store (k := 0) own rfl fun w₁ _ own => ?_
      rw [wp_bind]
      refine wp_reparent (k := 2) own rfl fun w₂ _ own => ?_
      have own : [cell x.1 (nodeOf .left x.2 (above p) (ptr l) (some rx.1) c) + 0,
          cell y.1 (nodeOf .left y.2 (some gx.1) none (ptr far) d) + 0, treeAt (some x.1) l,
          treeAt (some x.1) (Path.fill (⟨.left, gc, gx, gt⟩ :: q'') far), pathAt (some x.1) p, rest].sum w₂.heap := by
        refine of_eq own ?_
        have segment := pathAt_append (⟨.left, gc, gx, gt⟩ :: q'') (⟨.right, c, x, l⟩ :: p) far
        have frame : pathAt (some rx.1) (⟨.right, c, x, l⟩ :: p) =
            cell x.1 (nodeOf .left x.2 (above p) (ptr l) (some rx.1) c) +
              (treeAt (some x.1) l + pathAt (some x.1) p) := rfl
        rw [head far, frame] at segment
        change pathAt (ptr far) (⟨.left, gc, gx, gt⟩ :: (q'' ++ ⟨.right, c, x, l⟩ :: p)) +
          (cell y.1 (nodeOf .left y.2 (some gx.1) none (ptr far) d) + 0 + (treeAt (some gx.1) far + (rest + 0))) = _
        rw [add_left_comm _ (treeAt (some gx.1) far), ← add_assoc (pathAt _ _)]
        refine (congrArg (· + _) segment).trans ?_
        simp only [sum_cons, sum_nil, above]
        abel
      rw [wp_bind]
      refine wp_store (k := 1) own rfl fun w₃ _ own => ?_
      rw [wp_bind, ← head far]
      refine wp_reparent_node (k := 3) own rfl ?_ fun w₄ _ own => ?_
      · intro empty
        have := head far
        rw [empty] at this
        cases this
      rw [wp_pure]
      refine next w₄ _ d y far (some gx.1) ?_ sides ?_
      · rw [← chain, Path.fill_append]
        rfl
      · rw [head far]
        exact own

theorem wp_relinkSuccessor {Q : Ptr × Ptr × Ptr × Color → World U → Prop} {fuel : Nat}
    (left : l ≠ .nil) (right : r ≠ .nil) (enough : Enough R r.size fuel)
    (next : ∀ root' w' q d y rr, r = Path.fill q (.node .nil d y rr) → (∀ f ∈ q, f.side = .left) →
      Detached w'.heap x.1 root' (q ++ ⟨.right, c, y, l⟩ :: p) rr →
      Q (ptr rr, above (q ++ ⟨.right, c, y, l⟩ :: p), root', d) w') : wp (relinkSuccessor fuel (some x.1) root)
        e Q R w := by
  rw [relinkSuccessor, wp_bind, wp_deref_focus (s := .left) holds, nodeOf_left_right, nodeOf_left_left, wp_bind]
  refine wp_unlinkSuccessor holds right enough fun w₁ q d y rr parent same side own => ?_
  rw [wp_bind]
  refine wp_store (k := 1) own rfl fun w₂ _ own => ?_
  rw [wp_bind]
  refine wp_reparent_node (k := 2) own rfl left fun w₃ _ own => ?_
  rw [wp_bind, wp_deref (k := 1) own rfl, wp_bind, wp_deref (k := 0) own rfl, nodeOf_color, wp_bind]
  refine wp_store (k := 1) own rfl fun w₄ _ own => ?_
  rw [wp_bind]
  refine wp_store (k := 1) own rfl fun w₅ _ own => ?_
  rw [wp_bind, nodeOf_parent]
  refine wp_replaceChild (k := 4) (j := 0) own rfl rfl (by decide) holds.root_eq fun w₆ _ own => ?_
  rw [wp_pure]
  refine next _ w₆ q d y rr same side ⟨⟨nodeOf .left x.2 (above p) (ptr l) (ptr r) c, of_eq own ?_⟩, ?_⟩
  · rw [← add_assoc (pathAt _ _), pathAt_append]
    change [cell x.1 (nodeOf .left x.2 (above p) (ptr l) (ptr r) c) + 0,
      cell y.1 (nodeOf .left y.2 (above p) (ptr l) (ptr (Path.fill q rr)) c) + 0, treeAt (some y.1) l,
      treeAt (some y.1) (Path.fill q rr), pathAt (some y.1) p, rest].sum = cell x.1 _ +
      (cell y.1 (nodeOf .left y.2 (above p) (ptr l) (ptr (Path.fill q rr)) c) +
        (treeAt (some y.1) l + pathAt (some y.1) p) + treeAt (some y.1) (Path.fill q rr) + rest)
    simp only [sum_cons, sum_nil]
    abel
  · rw [top_append]

end Unlink

section Delete

variable {w : World U} {e : Env U} {R : Stop → World U → Prop} {p : List (Frame (Addr × U))} {l r t : Shape U}
  {c d : Color} {x : Addr × U} {n : Nat}

theorem deficient_of_balanced (balanced : t.Balanced c n) : Deficient t n := by
  cases balanced with
  | nil => exact .inl .nil
  | red left right => exact .inr ⟨_, _, _, _, _, rfl, left, right⟩
  | black left right => exact .inl (.black left right)

theorem unlinked_balance (accepts : Path.Accepts p d n) (balanced : (RedBlack.Tree.node l d x r).Balanced d n)
    (only : t = l ∨ t = r) :
    (d = .red → ∃ m, (Path.fill p t).Balanced .black m) ∧
      (d = .black → ∃ m, Deficient t m ∧ Path.Accepts p .black (m + 1)) := by
  cases balanced with
  | red left right =>
    refine ⟨fun _ => ?_, nofun⟩
    rcases only with rfl | rfl
    · exact accepts.accepts_black.fill left
    · exact accepts.accepts_black.fill right
  | @black _ _ _ _ _ m left right =>
    refine ⟨nofun, fun _ => ⟨m, ?_, accepts⟩⟩
    rcases only with rfl | rfl
    · exact deficient_of_balanced left
    · exact deficient_of_balanced right

theorem wp_finishDelete {Q : Unit → World U → Prop} {root : Ptr} {fuel : Nat} (detached : Detached w.heap x.1 root p t)
    (red : d = .red → ∃ m, (Path.fill p t).Balanced .black m)
    (black : d = .black → ∃ m, Deficient t m ∧ Path.Accepts p .black (m + 1)) (enough : Enough R (p.length + 1) fuel)
    (next : ∀ w' t', Holds w'.heap w'.root [] t' → (∃ m, t'.Balanced .black m) → t'.toList = (Path.fill p t).toList →
      Q () w') :
    wp (finishDelete fuel (some x.1) (ptr t) (above p) root d) e Q R w := by
  rw [finishDelete, wp_bind]
  refine wp_freePool detached fun w₁ holds => ?_
  rw [wp_bind, repairIfBlack]
  cases d with
  | red =>
    rw [if_neg (by decide), wp_pure, setRoot, wp_modify]
    exact next _ _ ⟨holds.whole.own, holds.whole.root_eq⟩ (red rfl) rfl
  | black =>
    rw [if_pos rfl]
    refine wp_repairBlack ⟨holds, rfl, fun _ => rfl, black rfl, rfl⟩ ?_ fun root' w₂ t' m holds balanced list => ?_
    · refine enough.mono fun less => ?_
      rw [turns]
      split <;> omega
    · rw [setRoot, wp_modify]
      exact next _ t' ⟨holds.own, holds.root_eq⟩ ⟨m, balanced⟩ list

theorem wp_delete {Q : U → World U → Prop} {fuel : Nat} (maintained : Maintained e w (Path.fill p (.node l c x r)))
    (enough : Enough R ((Path.fill p (.node l c x r)).size + 1) fuel)
    (next : ∀ w' t' before after, Maintained e w' t' →
      (Path.fill p (.node l c x r)).toList = before ++ x :: after → t'.toList = before ++ after →
      wp (validateIfEnabled fuel) e (fun _ w'' => Q x.2 w'') R w') :
    wp (orderedCollectionDelete fuel (some x.1)) e Q R w := by
  have holds := maintained.holds.of_whole
  obtain ⟨m, balanced⟩ := maintained.balanced
  have before : (Path.fill p (.node l c x r)).toList = (Path.before p ++ l.toList) ++
      x :: (r.toList ++ Path.after p) := by
    rw [Path.toList_fill, Tree.toList]
    simp only [append_assoc, cons_append]
  have finish : ∀ w' t', Holds w'.heap w'.root [] t' → (∃ m, t'.Balanced .black m) →
      t'.toList = (Path.before p ++ l.toList) ++ (r.toList ++ Path.after p) →
      wp (validateIfEnabled fuel) e (fun _ w'' => Q x.2 w'') R w' := by
    intro w' t' holds balanced list
    refine next w' t' _ _ ⟨holds, balanced, maintained.increasing.sublist ?_⟩ before list
    rw [list, before]
    exact (List.Sublist.refl _).append (sublist_cons_self _ _)
  rw [orderedCollectionDelete, wp_bind, wp_get, wp_bind, wp_deref_focus (s := .left) holds, wp_bind, unlink,
    nodeOf_left_left, nodeOf_left_right]
  have room := Path.size_fill p (.node l c x r)
  simp only [Tree.size] at room
  by_cases one : ptr l = none ∨ ptr r = none
  · obtain ⟨d, n, accepts, node⟩ := Path.accepts_of_fill balanced
    obtain rfl : c = d := node.color_eq
    rw [if_pos one]
    rw [ptr_eq_none, ptr_eq_none] at one
    refine wp_unlinkNode holds one fun root' w₁ t t_eq detached => ?_
    have only : t = l ∨ t = r := by
      rw [t_eq]
      split
      · exact .inl rfl
      · exact .inr rfl
    obtain ⟨red, black⟩ := unlinked_balance accepts node only
    rw [wp_bind]
    refine wp_finishDelete detached red black (enough.mono (by omega)) fun w₂ t' holds balanced list => ?_
    rw [wp_bind]
    refine finish w₂ t' holds balanced ?_
    have joined : t.toList = l.toList ++ r.toList := by
      rw [t_eq]
      rcases one with rfl | rfl
      · rw [if_neg (by simp [ptr])]
        rfl
      · cases l <;> simp [ptr, Tree.toList]
    rw [list, Path.toList_fill, joined]
    simp only [append_assoc]
  · rw [if_neg one]
    rw [ptr_eq_none, ptr_eq_none, not_or] at one
    refine wp_relinkSuccessor holds one.1 one.2 (enough.mono (by omega)) fun root' w₁ q d y rr same side detached => ?_
    have path : Path.fill p (.node l c x r) = Path.fill (q ++ ⟨.right, c, x, l⟩ :: p) (.node .nil d y rr) := by
      rw [Path.fill_append, ← same]
      rfl
    obtain ⟨d', n, accepts, node⟩ := Path.accepts_of_fill (path ▸ balanced)
    obtain rfl : d = d' := node.color_eq
    obtain ⟨red, black⟩ := unlinked_balance (accepts.set_value y) node (.inr rfl)
    have long := Path.size_fill (q ++ ⟨.right, c, x, l⟩ :: p) (.node .nil d y rr)
    rw [← path] at long
    simp only [length_append, length_cons] at long
    rw [wp_bind]
    refine wp_finishDelete detached red black ?_ fun w₂ t' holds balanced list => ?_
    · simp only [length_append, length_cons]
      exact enough.mono (by omega)
    rw [wp_bind]
    refine finish w₂ t' holds balanced ?_
    have successor : r.toList = y :: (Path.fill q rr).toList := by
      rw [same, Path.toList_fill, Path.toList_fill, Path.before_eq_nil side]
      rfl
    rw [list, Path.fill_append, Path.fill, Path.toList_fill, successor]
    simp only [Frame.fill, Tree.join, Tree.toList, append_assoc, cons_append]

end Delete

end LeoEdk.Collection
