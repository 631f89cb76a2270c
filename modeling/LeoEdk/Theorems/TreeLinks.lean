import LeoEdk.Collection.RedBlackTree
import LeoEdk.Lib.Separation

/-! The linked nodes of an ordered collection, as trees and paths. `Holds` splits the pool into a subtree and the path
    to it; an operation on the subtree leaves the path alone. -/

namespace LeoEdk.Collection

open RedBlack Separation Assertion Prog List

variable {U : Type}

abbrev Shape (U : Type) := RedBlack.Tree (Addr × U)

abbrev Own (U : Type) := Assertion Addr (Node U)

def ptr : Shape U → Ptr
  | .nil => none
  | .node _ _ x _ => some x.1

def above : List (Frame (Addr × U)) → Ptr
  | [] => none
  | f :: _ => some f.value.1

def top : List (Frame (Addr × U)) → Ptr → Ptr
  | [], hole => hole
  | f :: p, _ => top p (some f.value.1)

def nodeOf (s : Side) (u : U) (parent near far : Ptr) (c : Color) : Node U :=
  match s with
  | .left => ⟨u, parent, near, far, c⟩
  | .right => ⟨u, parent, far, near, c⟩

def treeAt (parent : Ptr) : Shape U → Own U
  | .nil => 0
  | .node l c x r => cell x.1 ⟨x.2, parent, ptr l, ptr r, c⟩ + (treeAt (some x.1) l + treeAt (some x.1) r)

def pathAt (hole : Ptr) : List (Frame (Addr × U)) → Own U
  | [] => 0
  | f :: p =>
    cell f.value.1 (nodeOf f.side f.value.2 (above p) hole (ptr f.sibling) f.color) +
      (treeAt (some f.value.1) f.sibling + pathAt (some f.value.1) p)

/-- The pool holds the tree `Path.fill p t` with all its links, and `root` points to it. -/
structure Holds (heap : Addr → Option (Node U)) (root : Ptr) (p : List (Frame (Addr × U))) (t : Shape U) : Prop where
  own : (pathAt (ptr t) p + (treeAt (above p) t + rest) : Own U) heap
  root_eq : root = top p (ptr t)

section

variable (s : Side) (u : U) (parent near far q : Ptr) (c d : Color)

@[simp] theorem nodeOf_userStruct : (nodeOf s u parent near far c).userStruct = u := by cases s <;> rfl

@[simp] theorem nodeOf_parent : (nodeOf s u parent near far c).parent = parent := by cases s <;> rfl

@[simp] theorem nodeOf_color : (nodeOf s u parent near far c).color = c := by cases s <;> rfl

@[simp] theorem nodeOf_child : (nodeOf s u parent near far c).child s = near := by cases s <;> rfl

@[simp] theorem nodeOf_child_other : (nodeOf s u parent near far c).child s.other = far := by cases s <;> rfl

@[simp] theorem nodeOf_setParent : (nodeOf s u parent near far c).setParent q = nodeOf s u q near far c := by
  cases s <;> rfl

@[simp] theorem nodeOf_setColor : (nodeOf s u parent near far c).setColor d = nodeOf s u parent near far d := by
  cases s <;> rfl

@[simp] theorem nodeOf_setChild : (nodeOf s u parent near far c).setChild s q = nodeOf s u parent q far c := by
  cases s <;> rfl

@[simp] theorem nodeOf_setChild_other :
    (nodeOf s u parent near far c).setChild s.other q = nodeOf s u parent near q c := by
  cases s <;> rfl

@[simp] theorem nodeOf_left_left : (nodeOf .left u parent near far c).left = near := rfl

@[simp] theorem nodeOf_left_right : (nodeOf .left u parent near far c).right = far := rfl

theorem nodeOf_other : nodeOf s.other u parent near far c = nodeOf s u parent far near c := by cases s <;> rfl

end

theorem ptr_eq_none {t : Shape U} : ptr t = none ↔ t = .nil := by cases t <;> simp [ptr]

@[simp] theorem ptr_join (s : Side) (c : Color) (x : Addr × U) (near far : Shape U) :
    ptr (Tree.join s c x near far) = some x.1 := by
  cases s <;> rfl

theorem treeAt_join (parent : Ptr) (s : Side) (c : Color) (x : Addr × U) (near far : Shape U) :
    treeAt parent (Tree.join s c x near far) =
      cell x.1 (nodeOf s x.2 parent (ptr near) (ptr far) c) + (treeAt (some x.1) near + treeAt (some x.1) far) := by
  cases s
  · rfl
  · rw [add_comm (treeAt _ near)]
    rfl

theorem pathAt_cons (s : Side) (c : Color) (x : Addr × U) (near far : Shape U) (p : List (Frame (Addr × U))) :
    pathAt (ptr near) (⟨s, c, x, far⟩ :: p) + treeAt (above (⟨s, c, x, far⟩ :: p)) near =
      pathAt (ptr (Tree.join s c x near far)) p + treeAt (above p) (Tree.join s c x near far) := by
  rw [treeAt_join, ptr_join, pathAt, above]
  abel

theorem pathAt_append (q p : List (Frame (Addr × U))) (t : Shape U) :
    pathAt (ptr t) (q ++ p) + treeAt (above (q ++ p)) t =
      pathAt (ptr (Path.fill q t)) p + treeAt (above p) (Path.fill q t) := by
  induction q generalizing t with
  | nil => rfl
  | cons f q ih => rw [cons_append, pathAt_cons, Path.fill, ← ih, Frame.fill]

theorem ptr_fill_append (q : List (Frame (Addr × U))) (f : Frame (Addr × U)) (t : Shape U) :
    ptr (Path.fill (q ++ [f]) t) = some f.value.1 := by
  rw [Path.fill_append, Path.fill, Path.fill, Frame.fill, ptr_join]

theorem top_append (q p : List (Frame (Addr × U))) (f : Frame (Addr × U)) (hole : Ptr) :
    top (q ++ f :: p) hole = top p (some f.value.1) := by
  induction q generalizing hole with
  | nil => rfl
  | cons g q ih => exact ih _

theorem sibling_mem (s : Side) (c d : Color) (x y : Addr × U) (l r : Shape U) (p : List (Frame (Addr × U)))
    (hole : Ptr) :
    ∃ m G, pathAt hole (⟨s, c, x, .node l d y r⟩ :: p) = cell y.1 m + G := by
  rw [pathAt, treeAt, add_assoc, add_left_comm]
  exact ⟨_, _, rfl⟩

/-- `n` turns of a loop fit into its fuel, unless a run out of fuel is accepted. -/
def Enough (R : Stop → World U → Prop) (n fuel : Nat) : Prop := n < fuel ∨ ∀ w, R .outOfFuel w

theorem Enough.mono {R : Stop → World U → Prop} {n n' fuel fuel' : Nat} (enough : Enough R n fuel)
    (less : n < fuel → n' < fuel') : Enough R n' fuel' := enough.imp_left less

theorem Enough.outOfFuel {R : Stop → World U → Prop} {n : Nat} (enough : Enough R n 0) (w : World U) :
    R .outOfFuel w := by
  rcases enough with less | accepted
  · cases less
  · exact accepted w

/-! ### Programs on parts of the pool -/

section Rules

variable {w : World U} {e : Env U} {R : Stop → World U → Prop} {L : List (Own U)} {k : Nat} {a : Addr} {n : Node U}
  {F : Own U}

variable (own : L.sum w.heap)
include own

theorem lookup_of_get (get : L[k]? = some (cell a n + F)) : w.heap a = some n := by
  obtain ⟨G, eq, _⟩ := sum_eq_of_get get 0
  rw [eq, add_assoc] at own
  exact lookup own

theorem wp_deref {Q : Node U → World U → Prop} (get : L[k]? = some (cell a n + F)) :
    wp (deref (some a)) e Q R w ↔ Q n w := by
  rw [deref, wp_bind, wp_get, Option.bind_some, lookup_of_get own get]
  exact wp_pure n

theorem wp_store {Q : Unit → World U → Prop} {f : Node U → Node U} (get : L[k]? = some (cell a n + F))
    (next : ∀ w', w'.root = w.root → (L.set k (cell a (f n) + F)).sum w'.heap → Q () w') :
    wp (store (some a) f) e Q R w := by
  rw [store, wp_bind, wp_deref own get]
  refine next _ rfl ?_
  obtain ⟨G, eq, after⟩ := sum_eq_of_get get (cell a (f n) + F)
  rw [eq, add_assoc] at own
  rw [after, add_assoc]
  exact update own

theorem wp_reparent {Q : Unit → World U → Prop} {parent parent' : Ptr} {t : Shape U}
    (get : L[k]? = some (treeAt parent t))
    (next : ∀ w', w'.root = w.root → (L.set k (treeAt parent' t)).sum w'.heap → Q () w') :
    wp (storeIfAny (ptr t) (·.setParent parent')) e Q R w := by
  cases t with
  | nil =>
    refine next w rfl ?_
    obtain ⟨G, eq, after⟩ := sum_eq_of_get get (treeAt parent' .nil)
    rw [after]
    rw [eq] at own
    exact own
  | node l c x r => exact wp_store own get next

theorem wp_reparent_node {Q : Unit → World U → Prop} {parent parent' : Ptr} {t : Shape U}
    (get : L[k]? = some (treeAt parent t)) (node : t ≠ .nil)
    (next : ∀ w', w'.root = w.root → (L.set k (treeAt parent' t)).sum w'.heap → Q () w') :
    wp (store (ptr t) (·.setParent parent')) e Q R w := by
  cases t with
  | nil => exact absurd rfl node
  | node l c x r => exact wp_store own get next

theorem ne_of_get {j : Nat} {b : Addr} {m : Node U} {G : Own U}
    (get : L[k]? = some (cell a n + F)) (get' : L[j]? = some (cell b m + G)) (ne : k ≠ j) : a ≠ b := by
  obtain ⟨H, eq, after⟩ := sum_eq_of_get get 0
  have there : (L.set k 0)[j]? = some (cell b m + G) := by rw [List.getElem?_set_ne ne, get']
  obtain ⟨K, eq', _⟩ := sum_eq_of_get there 0
  rw [after, zero_add] at eq'
  rw [eq, eq', add_assoc (cell b m)] at own
  exact ne_of_cells own

theorem wp_replaceChild {Q : Ptr → World U → Prop} {j : Nat} {p : List (Frame (Addr × U))} {root new : Ptr}
    (get : L[k]? = some (pathAt (some a) p)) (old : L[j]? = some (cell a n + F)) (ne : k ≠ j)
    (rooted : root = top p (some a))
    (next : ∀ w', w'.root = w.root → (L.set k (pathAt new p)).sum w'.heap → Q (top p new) w') :
    wp (replaceChild (above p) (some a) new root) e Q R w := by
  cases p with
  | nil =>
    refine next w rfl ?_
    obtain ⟨G, eq, after⟩ := sum_eq_of_get get (pathAt new [])
    rw [after]
    rw [eq] at own
    exact own
  | cons f p =>
    obtain ⟨s, c, x, sibling⟩ := f
    have side : (if some a = (nodeOf s x.2 (above p) (some a) (ptr sibling) c).left then Side.left else .right) =
      s := by
      cases s with
      | left => exact if_pos rfl
      | right =>
        refine if_neg fun same => ?_
        cases sibling with
        | nil => cases same
        | node l d y r =>
          obtain rfl : a = y.1 := Option.some.inj same
          obtain ⟨m, G, there⟩ := sibling_mem .right c d x y l r p (some y.1)
          exact ne_of_get own (get.trans (congrArg some there)) old ne rfl
    rw [replaceChild, if_neg (by simp [above]), wp_bind, above, wp_deref own get]
    simp only [side, wp_bind]
    refine wp_store own get fun w' same own' => ?_
    rw [wp_pure, rooted]
    refine next w' same ?_
    simpa [pathAt] using own'

end Rules

namespace Holds

variable {heap : Addr → Option (Node U)} {root : Ptr} {p : List (Frame (Addr × U))} {t near far : Shape U} {s : Side}
  {c d : Color} {x : Addr × U}

theorem focus_iff : Holds heap root (⟨s, c, x, far⟩ :: p) near ↔ Holds heap root p (Tree.join s c x near far) := by
  have same : pathAt (ptr near) (⟨s, c, x, far⟩ :: p) + (treeAt (above (⟨s, c, x, far⟩ :: p)) near + rest) =
      pathAt (ptr (Tree.join s c x near far)) p + (treeAt (above p) (Tree.join s c x near far) + rest) := by
    rw [← add_assoc, pathAt_cons, add_assoc]
  constructor
  · rintro ⟨own, rooted⟩
    refine ⟨same ▸ own, ?_⟩
    rw [rooted, ptr_join, top]
  · rintro ⟨own, rooted⟩
    refine ⟨same ▸ own, ?_⟩
    rw [rooted, ptr_join, top]

theorem up (holds : Holds heap root (⟨s, c, x, far⟩ :: p) near) : Holds heap root p (Tree.join s c x near far) :=
  focus_iff.mp holds

theorem down (holds : Holds heap root p (Tree.join s c x near far)) : Holds heap root (⟨s, c, x, far⟩ :: p) near :=
  focus_iff.mpr holds

theorem down_other (holds : Holds heap root p (Tree.join s c x near far)) :
    Holds heap root (⟨s.other, c, x, near⟩ :: p) far := by
  rw [focus_iff, Tree.join_other]
  exact holds

theorem up_other (holds : Holds heap root (⟨s.other, c, x, far⟩ :: p) near) :
    Holds heap root p (Tree.join s c x far near) := by
  rw [← Tree.join_other]
  exact holds.up

theorem whole (holds : Holds heap root p t) : Holds heap root [] (Path.fill p t) := by
  induction p generalizing t with
  | nil => exact holds
  | cons f p ih => exact ih (focus_iff.mp holds)

theorem of_whole (holds : Holds heap root [] (Path.fill p t)) : Holds heap root p t := by
  induction p generalizing t with
  | nil => exact holds
  | cons f p ih => exact focus_iff.mpr (ih holds)

theorem whole_iff : Holds heap root p t ↔ Holds heap root [] (Path.fill p t) := ⟨whole, of_whole⟩

theorem append_iff {q : List (Frame (Addr × U))} : Holds heap root (q ++ p) t ↔ Holds heap root p (Path.fill q t) := by
  rw [whole_iff, Path.fill_append, ← whole_iff]

theorem ptr_eq_root (holds : Holds heap root [] t) : ptr t = root := holds.root_eq.symm

theorem top_mem (f : Frame (Addr × U)) (p : List (Frame (Addr × U))) (hole : Ptr) :
    ∃ b m G, top (f :: p) hole = some b ∧ pathAt hole (f :: p) = cell b m + G := by
  induction p generalizing f hole with
  | nil => exact ⟨_, _, _, rfl, rfl⟩
  | cons g p ih =>
    obtain ⟨b, m, G, root, own⟩ := ih g (some f.value.1)
    obtain ⟨H, eq⟩ : ∃ H, pathAt hole (f :: g :: p) = cell b m + H := by
      rw [pathAt, own, ← add_assoc, add_left_comm]
      exact ⟨_, rfl⟩
    exact ⟨b, m, H, root, eq⟩

theorem ptr_ne_root {f : Frame (Addr × U)} (holds : Holds heap root (f :: p) t) : ptr t ≠ root := by
  obtain ⟨b, m, G, rooted, path⟩ := top_mem f p (ptr t)
  rw [holds.root_eq, rooted]
  cases t with
  | nil => nofun
  | node l c x r =>
    have own := holds.own
    rw [path, treeAt, add_assoc (cell x.1 _)] at own
    intro same
    exact ne_of_cells own (Option.some.inj same).symm

theorem focus_cell (holds : Holds heap root p (Tree.join s c x near far)) :
    ∃ F, (cell x.1 (nodeOf s x.2 (above p) (ptr near) (ptr far) c) + F : Own U) heap := by
  have own := holds.own
  rw [treeAt_join, add_assoc, add_left_comm] at own
  exact ⟨_, own⟩

theorem lookup (holds : Holds heap root p (Tree.join s c x near far)) :
    heap x.1 = some (nodeOf s x.2 (above p) (ptr near) (ptr far) c) := by
  obtain ⟨F, own⟩ := holds.focus_cell
  exact Assertion.lookup own

theorem ptr_ne_sibling (holds : Holds heap root (⟨s, c, x, far⟩ :: p) near) (some' : ptr near ≠ none ∨ ptr far ≠ none) :
    ptr near ≠ ptr far := by
  intro same
  have own := holds.own
  cases near with
  | nil =>
    rcases some' with h | h
    · exact h rfl
    · exact h same.symm
  | node l d y r =>
    cases far with
    | nil => cases same
    | node l' d' y' r' =>
      obtain ⟨m, G, there⟩ := sibling_mem s c d' x y' l' r' p (ptr (.node l d y r))
      rw [there, treeAt, add_assoc (cell y.1 _)] at own
      exact ne_of_cells own (Option.some.inj same).symm

theorem side_eq (holds : Holds heap root (⟨s, c, x, far⟩ :: p) near) (some' : ptr near ≠ none ∨ ptr far ≠ none) :
    (if ptr near = (nodeOf s x.2 (above p) (ptr near) (ptr far) c).left then Side.left else .right) = s := by
  cases s with
  | left => exact if_pos rfl
  | right => exact if_neg (holds.ptr_ne_sibling some')

end Holds

/-! ### Operations on the tree in focus -/

section Operations

variable {w : World U} {e : Env U} {R : Stop → World U → Prop} {root : Ptr} {p : List (Frame (Addr × U))}
  {A B C t near far : Shape U} {s : Side} {c d : Color} {x y : Addr × U}

theorem wp_rotate {Q : Ptr → World U → Prop} (holds : Holds w.heap root p (.join s c x (.join s d y A B) C))
    (next : ∀ root' w', w'.root = w.root → Holds w'.heap root' p (.join s d y A (.join s c x B C)) → Q root' w') :
    wp (rotate s (some x.1) root) e Q R w := by
  have own : [cell x.1 (nodeOf s x.2 (above p) (some y.1) (ptr C) c) + 0,
      cell y.1 (nodeOf s y.2 (some x.1) (ptr A) (ptr B) d) + 0, treeAt (some y.1) A, treeAt (some y.1) B,
      treeAt (some x.1) C, pathAt (some x.1) p, rest].sum w.heap := by
    have own := holds.own
    rw [treeAt_join, treeAt_join, ptr_join, ptr_join] at own
    refine of_eq own ?_
    simp only [sum_cons, sum_nil]
    abel
  rw [rotate, wp_bind, wp_deref (k := 0) own rfl]
  simp only [nodeOf_parent, nodeOf_child]
  rw [wp_bind, wp_deref (k := 1) own rfl]
  simp only [nodeOf_child_other]
  rw [wp_bind]
  refine wp_store (k := 0) own rfl fun w₁ same₁ own => ?_
  rw [wp_bind]
  refine wp_reparent (k := 3) own rfl fun w₂ same₂ own => ?_
  rw [wp_bind]
  refine wp_store (k := 1) own rfl fun w₃ same₃ own => ?_
  rw [wp_bind]
  refine wp_replaceChild (k := 5) (j := 0) own rfl rfl (by decide) ?_ fun w₄ same₄ own => ?_
  · rw [holds.root_eq, ptr_join]
  rw [wp_bind]
  refine wp_store (k := 1) own rfl fun w₅ same₅ own => ?_
  rw [wp_bind]
  refine wp_store (k := 0) own rfl fun w₆ same₆ own => ?_
  rw [wp_pure]
  refine next _ w₆ ?_ ⟨?_, ?_⟩
  · rw [same₆, same₅, same₄, same₃, same₂, same₁]
  · rw [treeAt_join, treeAt_join, ptr_join, ptr_join]
    refine of_eq own ?_
    simp only [set_cons_zero, set_cons_succ, sum_cons, sum_nil, nodeOf_setChild,
      nodeOf_setChild_other, nodeOf_setParent]
    abel
  · rw [ptr_join]

theorem wp_rotation {Q : Ptr → World U → Prop} (holds : Holds w.heap root p (.join s c x (.join s d y A B) C))
    (next : ∀ root' w', w'.root = w.root → Holds w'.heap root' p (.join s d y A (.join s c x B C)) → Q root' w') :
    wp (rotation s (some x.1) root) e Q R w := by
  cases s <;> exact wp_rotate holds next

theorem wp_deref_focus {Q : Node U → World U → Prop} (holds : Holds w.heap root p (.join s c x near far)) :
    wp (deref (some x.1)) e Q R w ↔ Q (nodeOf s x.2 (above p) (ptr near) (ptr far) c) w := by
  rw [deref, wp_bind, wp_get, Option.bind_some, holds.lookup]
  exact wp_pure _

theorem wp_deref_above {Q : Node U → World U → Prop} (holds : Holds w.heap root (⟨s, c, x, far⟩ :: p) t) :
    wp (deref (some x.1)) e Q R w ↔ Q (nodeOf s x.2 (above p) (ptr t) (ptr far) c) w := wp_deref_focus holds.up

@[simp] theorem wp_assert {Q : Unit → World U → Prop} (b : Bool) :
    wp (assert b) e Q R w ↔ if b then Q () w else R .assertion w := by
  cases b <;> rfl

theorem wp_recolor {Q : Unit → World U → Prop} (holds : Holds w.heap root p (.join s c x near far))
    (next : ∀ w', w'.root = w.root → Holds w'.heap root p (.join s d x near far) → Q () w') :
    wp (store (some x.1) (·.setColor d)) e Q R w := by
  have own := holds.own
  rw [treeAt_join, ptr_join] at own
  have own' : [pathAt (some x.1) p, cell x.1 (nodeOf s x.2 (above p) (ptr near) (ptr far) c) +
      (treeAt (some x.1) near + treeAt (some x.1) far), rest].sum w.heap := by simpa using own
  refine wp_store (k := 1) own' rfl fun w' same own => next w' same ⟨?_, ?_⟩
  · rw [treeAt_join, ptr_join]
    simpa using own
  · rw [holds.root_eq, ptr_join, ptr_join]

theorem wp_nodeIsNullOrBlack {Q : Bool → World U → Prop} (holds : Holds w.heap root p t) :
    wp (nodeIsNullOrBlack (ptr t)) e Q R w ↔ Q (t.color = .black) w := by
  cases t with
  | nil => rfl
  | node l c x r =>
    rw [nodeIsNullOrBlack, if_neg (by simp [ptr]), ptr, wp_bind, wp_deref_focus (s := .left) holds, wp_pure]
    rfl

theorem wp_extreme {Q : Ptr → World U → Prop} {fuel : Nat} (holds : Holds w.heap root p t) (ne : t ≠ .nil)
    (enough : Enough R t.size fuel)
    (next : ∀ q d y far, t = Path.fill q (.join s d y .nil far) → (∀ f ∈ q, f.side = s) → Q (some y.1) w) :
    wp (extreme s fuel (ptr t)) e Q R w := by
  induction fuel generalizing p t with
  | zero => exact enough.outOfFuel w
  | succ fuel ih =>
    cases t with
    | nil => exact absurd rfl ne
    | node l c x r =>
      obtain ⟨near, far, eq⟩ := Tree.node_eq_join s l c x r
      rw [eq] at holds enough next ⊢
      rw [Tree.size_join] at enough
      rw [extreme, ptr_join, wp_bind, wp_deref_focus holds, nodeOf_child]
      cases near with
      | nil => exact next [] c x far rfl nofun
      | node l' c' x' r' =>
        rw [if_neg (by simp [ptr])]
        refine ih holds.down nofun (enough.mono (by omega)) fun q d y far' same side => ?_
        refine next (q ++ [⟨s, c, x, far⟩]) d y far' ?_ ?_
        · rw [Path.fill_append, ← same]
          rfl
        · exact forall_mem_append.mpr ⟨side, forall_mem_singleton.mpr rfl⟩

end Operations

end LeoEdk.Collection
