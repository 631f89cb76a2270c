import Mathlib

/-! Red-black trees with a hole. -/

namespace LeoEdk.RedBlack

open List

inductive Color where
  | red
  | black
deriving DecidableEq, Repr

/-- The black height above a node of this colour whose subtrees have black height `n`. -/
def Color.raise : Color → Nat → Nat
  | .red, n => n
  | .black, n => n + 1

inductive Side where
  | left
  | right
deriving DecidableEq, Repr

def Side.other : Side → Side
  | .left => .right
  | .right => .left

theorem Side.eq_or_other (s s' : Side) : s' = s ∨ s' = s.other := by cases s <;> cases s' <;> simp [Side.other]

inductive Tree (α : Type) where
  | nil
  | node (left : Tree α) (color : Color) (value : α) (right : Tree α)

namespace Tree

variable {α : Type}

/-- The node whose subtree on side `s` is `near` and whose other subtree is `far`. -/
def join (s : Side) (c : Color) (x : α) (near far : Tree α) : Tree α :=
  match s with
  | .left => node near c x far
  | .right => node far c x near

/-- The empty tree counts as black. -/
def color : Tree α → Color
  | nil => .black
  | node _ c _ _ => c

def blacken : Tree α → Tree α
  | nil => nil
  | node l _ x r => node l .black x r

def toList : Tree α → List α
  | nil => []
  | node l _ x r => l.toList ++ x :: r.toList

def size : Tree α → Nat
  | nil => 0
  | node l _ _ r => l.size + r.size + 1

theorem node_eq_join (s : Side) (l : Tree α) (c : Color) (x : α) (r : Tree α) :
    ∃ near far, node l c x r = join s c x near far := by
  cases s
  · exact ⟨l, r, rfl⟩
  · exact ⟨r, l, rfl⟩

/-- Induction with the subtrees named by their side. -/
@[elab_as_elim] theorem join_induction (s : Side) {motive : Tree α → Prop} (nil : motive nil)
    (join : ∀ c x near far, motive near → motive far → motive (join s c x near far)) (t : Tree α) : motive t := by
  induction t with
  | nil => exact nil
  | node l c x r left right =>
    cases s
    · exact join c x l r left right
    · exact join c x r l right left

@[simp] theorem color_join (s : Side) (c : Color) (x : α) (near far : Tree α) : (join s c x near far).color = c := by
  cases s <;> rfl

@[simp] theorem size_join (s : Side) (c : Color) (x : α) (near far : Tree α) :
    (join s c x near far).size = near.size + far.size + 1 := by
  cases s
  · rfl
  · simp only [join, size]
    omega

theorem length_toList (t : Tree α) : t.toList.length = t.size := by
  induction t with
  | nil => rfl
  | node l c x r ihl ihr =>
    simp only [toList, size, length_append, length_cons, ihl, ihr]
    omega

theorem join_other (s : Side) (c : Color) (x : α) (near far : Tree α) :
    join s.other c x near far = join s c x far near := by
  cases s <;> rfl

/-! ### Balance -/

/-- `t` has colour `c` at its root, no red node with a red child, and `n` black nodes on every path to a leaf. -/
inductive Balanced : Tree α → Color → Nat → Prop where
  | nil : Balanced nil .black 0
  | red {l x r n} : Balanced l .black n → Balanced r .black n → Balanced (node l .red x r) .red n
  | black {l c x r d n} : Balanced l c n → Balanced r d n → Balanced (node l .black x r) .black (n + 1)

namespace Balanced

variable {t near far : Tree α} {c d : Color} {n : Nat} {x : α} {s : Side}

theorem color_eq (h : Balanced t c n) : t.color = c := by cases h <;> rfl

theorem join_red (h : Balanced near .black n) (h' : Balanced far .black n) :
    Balanced (join s .red x near far) .red n := by
  cases s
  · exact .red h h'
  · exact .red h' h

theorem join_black (h : Balanced near c n) (h' : Balanced far d n) :
    Balanced (join s .black x near far) .black (n + 1) := by
  cases s
  · exact .black h h'
  · exact .black h' h

theorem join_raise (h : Balanced near .black n) (h' : Balanced far .black n) :
    Balanced (join s c x near far) c (c.raise n) := by
  cases c
  · exact h.join_red h'
  · exact h.join_black h'

theorem of_join_red (h : Balanced (join s .red x near far) c n) : Balanced near .black n ∧ Balanced far .black n := by
  cases s
  · cases h with | red l r => exact ⟨l, r⟩
  · cases h with | red l r => exact ⟨r, l⟩

theorem of_join_black (h : Balanced (join s .black x near far) c (n + 1)) :
    ∃ c₁ c₂, Balanced near c₁ n ∧ Balanced far c₂ n := by
  cases s
  · cases h with | black l r => exact ⟨_, _, l, r⟩
  · cases h with | black l r => exact ⟨_, _, r, l⟩

/-- A tree of positive black height is a node, to be looked at from either side. -/
theorem exists_join (s : Side) (h : Balanced t c (n + 1)) : ∃ x near far, t = join s c x near far := by
  cases h with
  | red l r =>
    obtain ⟨near, far, eq⟩ := node_eq_join s _ .red _ _
    exact ⟨_, near, far, eq⟩
  | black l r =>
    obtain ⟨near, far, eq⟩ := node_eq_join s _ .black _ _
    exact ⟨_, near, far, eq⟩

theorem eq_join_of_red (s : Side) (h : Balanced t .red n) : ∃ x near far, t = join s .red x near far := by
  cases h with
  | red l r =>
    obtain ⟨near, far, eq⟩ := node_eq_join s _ .red _ _
    exact ⟨_, near, far, eq⟩

theorem blacken (h : Balanced t .black n) : Balanced t.blacken .black n := by
  cases h with
  | nil => exact .nil
  | black left right => exact .black left right

end Balanced

/-! ### What balance says, path by path -/

def NoRedRed : Tree α → Prop
  | nil => True
  | node l c _ r => (c = .red → l.color = .black ∧ r.color = .black) ∧ l.NoRedRed ∧ r.NoRedRed

/-- The number of black nodes on each path from the root to a leaf, from left to right. -/
def blackCounts : Tree α → List Nat
  | nil => [0]
  | node l c _ r => (l.blackCounts ++ r.blackCounts).map fun k => if c = .black then k + 1 else k

theorem Balanced.noRedRed {t : Tree α} {c : Color} {n : Nat} (h : Balanced t c n) : t.NoRedRed := by
  induction h with
  | nil => trivial
  | red l r ihl ihr => exact ⟨fun _ => ⟨l.color_eq, r.color_eq⟩, ihl, ihr⟩
  | black l r ihl ihr => exact ⟨nofun, ihl, ihr⟩

theorem Balanced.blackCounts {t : Tree α} {c : Color} {n : Nat} (h : Balanced t c n) : ∀ k ∈ t.blackCounts, k = n := by
  induction h with
  | nil => simp [Tree.blackCounts]
  | red l r ihl ihr =>
    simp only [Tree.blackCounts, mem_map, mem_append]
    rintro k ⟨m, hl | hr, rfl⟩
    · simpa using ihl m hl
    · simpa using ihr m hr
  | black l r ihl ihr =>
    simp only [Tree.blackCounts, mem_map, mem_append]
    rintro k ⟨m, hl | hr, rfl⟩
    · simpa using ihl m hl
    · simpa using ihr m hr

end Tree

/-! ### Paths -/

/-- A node on the way to the hole: the hole is on `side` of it, `sibling` on the other. -/
structure Frame (α : Type) where
  side : Side
  color : Color
  value : α
  sibling : Tree α

namespace Frame

variable {α : Type}

def fill (f : Frame α) (t : Tree α) : Tree α := Tree.join f.side f.color f.value t f.sibling

end Frame

namespace Path

variable {α : Type}

def fill : List (Frame α) → Tree α → Tree α
  | [], t => t
  | f :: p, t => fill p (f.fill t)

def before : List (Frame α) → List α
  | [] => []
  | ⟨.left, _, _, _⟩ :: p => before p
  | ⟨.right, _, x, t⟩ :: p => before p ++ (t.toList ++ [x])

def after : List (Frame α) → List α
  | [] => []
  | ⟨.left, _, x, t⟩ :: p => x :: t.toList ++ after p
  | ⟨.right, _, _, _⟩ :: p => after p

theorem fill_append (p q : List (Frame α)) (t : Tree α) : fill (p ++ q) t = fill q (fill p t) := by
  induction p generalizing t with
  | nil => rfl
  | cons f p ih => exact ih _

theorem toList_fill (p : List (Frame α)) (t : Tree α) : (fill p t).toList = before p ++ t.toList ++ after p := by
  induction p generalizing t with
  | nil => simp [fill, before, after]
  | cons f p ih =>
    obtain ⟨side, c, x, sibling⟩ := f
    cases side <;> simp [fill, Frame.fill, Tree.join, ih, before, after, Tree.toList]

theorem fill_ne_nil (p : List (Frame α)) {t : Tree α} (ne : t ≠ .nil) : fill p t ≠ .nil := by
  induction p generalizing t with
  | nil => exact ne
  | cons f p ih =>
    refine ih ?_
    obtain ⟨side, c, x, sibling⟩ := f
    cases side <;> exact nofun

theorem toList_fill_congr (p : List (Frame α)) {t t' : Tree α} (same : t.toList = t'.toList) :
    (fill p t).toList = (fill p t').toList := by
  rw [toList_fill, toList_fill, same]

theorem size_fill (p : List (Frame α)) (t : Tree α) : p.length + t.size ≤ (fill p t).size := by
  induction p generalizing t with
  | nil => simp [fill]
  | cons f p ih =>
    have := ih (f.fill t)
    simp only [Frame.fill, Tree.size_join] at this
    simp only [fill, length_cons, Frame.fill]
    omega

/-- A black tree with a hole for a tree of colour `c` (a hole for a red tree also takes a black one, see
    `accepts_black`) and black height `n`. -/
inductive Accepts : List (Frame α) → Color → Nat → Prop where
  | root {n} : Accepts [] .black n
  | red {s x t p n} : t.Balanced .black n → Accepts p .red n → Accepts (⟨s, .red, x, t⟩ :: p) .black n
  | black {s x t p c d n} : t.Balanced d n → Accepts p .black (n + 1) → Accepts (⟨s, .black, x, t⟩ :: p) c n

namespace Accepts

variable {p : List (Frame α)} {c : Color} {n : Nat}

theorem fill {t : Tree α} (accepts : Accepts p c n) (balanced : t.Balanced c n) :
    ∃ m, (Path.fill p t).Balanced .black m := by
  induction accepts generalizing t with
  | root => exact ⟨_, balanced⟩
  | red sibling _ ih => exact ih (balanced.join_red sibling)
  | black sibling _ ih => exact ih (balanced.join_black sibling)

theorem accepts_black (accepts : Accepts p c n) : Accepts p .black n := by
  cases accepts with
  | root => exact .root
  | red sibling rest => exact .red sibling rest
  | black sibling rest => exact .black sibling rest

theorem tail {s : Side} {x : α} {t : Tree α} {d : Color} (accepts : Accepts (⟨s, c, x, t⟩ :: p) d n) :
    Accepts p c (c.raise n) := by
  cases accepts with
  | red _ rest => exact rest
  | black _ rest => exact rest

theorem set_value {q : List (Frame α)} {s : Side} {x : α} (y : α) {t : Tree α} {d : Color}
    (accepts : Accepts (q ++ ⟨s, d, x, t⟩ :: p) c n) : Accepts (q ++ ⟨s, d, y, t⟩ :: p) c n := by
  induction q generalizing c n with
  | nil =>
    cases accepts with
    | red sibling rest => exact .red sibling rest
    | black sibling rest => exact .black sibling rest
  | cons f q ih =>
    cases accepts with
    | red sibling rest => exact .red sibling (ih rest)
    | black sibling rest => exact .black sibling (ih rest)

theorem of_red (accepts : Accepts p .red n) :
    ∃ s x t q d, p = ⟨s, .black, x, t⟩ :: q ∧ t.Balanced d n ∧ Accepts q .black (n + 1) := by
  cases accepts with
  | black sibling rest => exact ⟨_, _, _, _, _, rfl, sibling, rest⟩

end Accepts

theorem before_eq_nil {p : List (Frame α)} (left : ∀ f ∈ p, f.side = .left) : before p = [] := by
  induction p with
  | nil => rfl
  | cons f p ih =>
    obtain ⟨side, c, x, t⟩ := f
    obtain rfl : side = .left := left _ mem_cons_self
    exact ih fun f mem => left f (mem_cons_of_mem _ mem)

/-- A black tree that is some path filled with `t` leaves a hole that takes `t`. -/
theorem accepts_of_fill {p : List (Frame α)} {t : Tree α} {m : Nat} (balanced : (fill p t).Balanced .black m) :
    ∃ c n, Accepts p c n ∧ t.Balanced c n := by
  induction p generalizing t with
  | nil => exact ⟨_, _, .root, balanced⟩
  | cons f p ih =>
    obtain ⟨c, n, accepts, filled⟩ := ih balanced
    obtain ⟨side, color, x, sibling⟩ := f
    change (Tree.join side color x t sibling).Balanced c n at filled
    have same := filled.color_eq
    rw [Tree.color_join] at same
    subst same
    cases color with
    | red =>
      obtain ⟨near, far⟩ := filled.of_join_red
      exact ⟨_, _, .red far accepts, near⟩
    | black =>
      cases n with
      | zero => cases side <;> cases filled
      | succ n =>
        obtain ⟨c₁, c₂, near, far⟩ := filled.of_join_black
        exact ⟨_, _, .black far accepts, near⟩

end Path

/-! ### Walking towards a side -/

section Walk

variable {α : Type} (s : Side)

/-- The values in the order in which a walk towards side `s` meets them. -/
def Tree.walk (t : Tree α) : List α :=
  match s with
  | .left => t.toList.reverse
  | .right => t.toList

/-- What a walk towards side `s` meets after it has left the hole. -/
def Path.ahead (p : List (Frame α)) : List α :=
  match s with
  | .left => (before p).reverse
  | .right => after p

variable (c : Color) (x : α) (near far t : Tree α) (p q : List (Frame α))

@[simp] theorem Tree.walk_nil : (nil : Tree α).walk s = [] := by cases s <;> rfl

theorem Tree.walk_join : (join s c x near far).walk s = far.walk s ++ x :: near.walk s := by
  cases s <;> simp [walk, join, toList]

theorem Tree.length_walk : (t.walk s).length = t.size := by
  cases s <;> simp [walk, length_toList]

@[simp] theorem Path.ahead_nil : ahead s ([] : List (Frame α)) = [] := by cases s <;> rfl

@[simp] theorem Path.ahead_same : ahead s (⟨s, c, x, t⟩ :: p) = ahead s p := by cases s <;> rfl

@[simp] theorem Path.ahead_other : ahead s (⟨s.other, c, x, t⟩ :: p) = x :: (t.walk s ++ ahead s p) := by
  cases s <;> simp [ahead, Side.other, before, after, Tree.walk]

theorem Path.ahead_append : ahead s (q ++ p) = ahead s q ++ ahead s p := by
  induction q with
  | nil => simp
  | cons f q ih =>
    obtain ⟨side, c, x, t⟩ := f
    rw [cons_append]
    rcases Side.eq_or_other s side with rfl | rfl
    · rw [ahead_same, ahead_same, ih]
    · rw [ahead_other, ahead_other, ih, cons_append, append_assoc]

theorem Path.walk_fill : (fill p t).walk s = (ahead s.other p).reverse ++ t.walk s ++ ahead s p := by
  cases s <;> simp [Tree.walk, ahead, Side.other, toList_fill]

theorem Path.ahead_eq_nil {s : Side} {p : List (Frame α)} (sides : ∀ f ∈ p, f.side = s) : ahead s p = [] := by
  induction p with
  | nil => simp
  | cons f p ih =>
    obtain ⟨side, c, x, t⟩ := f
    obtain rfl : side = s := sides _ mem_cons_self
    rw [ahead_same]
    exact ih fun f mem => sides f (mem_cons_of_mem _ mem)

theorem Tree.exists_of_walk {t : Tree α} {before after : List α} {y : α} (eq : t.walk s = before ++ y :: after) :
    ∃ p c near far, t = Path.fill p (join s c y near far) ∧ near.walk s ++ Path.ahead s p = after := by
  induction t using join_induction s generalizing before after with
  | nil => simp at eq
  | join c x near far ihNear ihFar =>
    rw [walk_join, append_eq_append_iff] at eq
    rcases eq with ⟨tail, rfl, eq⟩ | ⟨tail, eq, eq'⟩
    · cases tail with
      | nil =>
        obtain ⟨rfl, rfl⟩ := List.cons.inj eq
        exact ⟨[], c, near, far, rfl, by simp⟩
      | cons z tail =>
        obtain ⟨rfl, inNear⟩ := List.cons.inj eq
        obtain ⟨p, d, near', far', rfl, rfl⟩ := ihNear inNear
        refine ⟨p ++ [⟨s, c, x, far⟩], d, near', far', ?_, ?_⟩
        · rw [Path.fill_append]
          rfl
        · rw [Path.ahead_append, Path.ahead_same, Path.ahead_nil, append_nil]
    · cases tail with
      | nil =>
        obtain ⟨rfl, rfl⟩ := List.cons.inj eq'
        exact ⟨[], c, near, far, rfl, by simp⟩
      | cons z tail =>
        obtain ⟨rfl, rfl⟩ := List.cons.inj eq'
        obtain ⟨p, d, near', far', rfl, rfl⟩ := ihFar eq
        refine ⟨p ++ [⟨s.other, c, x, near⟩], d, near', far', ?_, ?_⟩
        · rw [Path.fill_append, ← join_other]
          rfl
        · rw [Path.ahead_append, Path.ahead_other, Path.ahead_nil, append_nil]
          exact (append_assoc _ _ _).symm

end Walk

end LeoEdk.RedBlack
