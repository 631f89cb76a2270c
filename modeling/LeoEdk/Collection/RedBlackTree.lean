import LeoEdk.Lib.Program
import LeoEdk.Lib.RedBlack

/-!
BaseOrderedCollectionRedBlackTreeLib: the ordered collection on nodes with parent, left and right links.

The mirrored branches of the source are one definition with the side as a parameter.
-/

namespace LeoEdk.Collection

open RedBlack

abbrev Addr := Nat

/-- A node pointer; `none` is `NULL`. -/
abbrev Ptr := Option Addr

structure Node (U : Type) where
  userStruct : U
  parent : Ptr
  left : Ptr
  right : Ptr
  color : Color

namespace Node

variable {U : Type}

def child (n : Node U) : Side → Ptr
  | .left => n.left
  | .right => n.right

def setChild (n : Node U) (s : Side) (p : Ptr) : Node U :=
  match s with
  | .left => { n with left := p }
  | .right => { n with right := p }

def setParent (n : Node U) (p : Ptr) : Node U := { n with parent := p }

def setColor (n : Node U) (c : Color) : Node U := { n with color := c }

end Node

/-- The pool from which nodes are taken, and `Tree->Root`. -/
structure World (U : Type) where
  heap : Addr → Option (Node U)
  root : Ptr

def World.set {U : Type} (w : World U) (a : Addr) (n : Option (Node U)) : World U :=
  { w with heap := Function.update w.heap a n }

/-- What does not change while the collection lives: `Tree->UserStructCompare` and `PcdValidateOrderedCollection`. -/
structure Env (U : Type) where
  userStructCompare : U → U → Int
  validateOrderedCollection : Bool

/-- Why a call does not come back: it follows a pointer that is not a node, an `ASSERT` fails, or a loop outlives its
    fuel. -/
inductive Stop where
  | fault
  | assertion
  | outOfFuel
deriving DecidableEq, Repr

inductive Status where
  | success
  | outOfResources
  | alreadyStarted
deriving DecidableEq, Repr

abbrev M (U : Type) := Prog (Env U) (World U) Stop

variable {U : Type}

def deref (p : Ptr) : M U (Node U) := do
  let w ← Prog.get
  match p.bind w.heap with
  | some n => pure n
  | none => Prog.halt .fault

def store (p : Ptr) (f : Node U → Node U) : M U Unit := do
  let n ← deref p
  match p with
  | some a => Prog.modify (·.set a (some (f n)))
  | none => Prog.halt .fault

def storeIfAny (p : Ptr) (f : Node U → Node U) : M U Unit := if p = none then pure () else store p f

def setRoot (p : Ptr) : M U Unit := Prog.modify fun w => { w with root := p }

def assert (c : Bool) : M U Unit := if c then pure () else Prog.halt .assertion

/-- Link `new` where `old` hangs below `parent`; without a parent it becomes the new root. -/
def replaceChild (parent old new newRoot : Ptr) : M U Ptr := do
  if parent = none then
    pure new
  else
    let above ← deref parent
    store parent (·.setChild (if old = above.left then .left else .right) new)
    pure newRoot

def rotate (s : Side) (pivot newRoot : Ptr) : M U Ptr := do
  let p ← deref pivot
  let parent := p.parent
  let child := p.child s
  let inner := (← deref child).child s.other
  store pivot (·.setChild s inner)
  storeIfAny inner (·.setParent pivot)
  store child (·.setParent parent)
  let newRoot ← replaceChild parent pivot child newRoot
  store child (·.setChild s.other pivot)
  store pivot (·.setParent child)
  pure newRoot

def redBlackTreeRotateRight (pivot newRoot : Ptr) : M U Ptr := rotate .left pivot newRoot

def redBlackTreeRotateLeft (pivot newRoot : Ptr) : M U Ptr := rotate .right pivot newRoot

def rotation : Side → Ptr → Ptr → M U Ptr
  | .left => redBlackTreeRotateRight
  | .right => redBlackTreeRotateLeft

def nodeIsNullOrBlack (p : Ptr) : M U Bool :=
  if p = none then pure true else do
    pure ((← deref p).color = .black)

/-! ### Walking the tree -/

def extreme (s : Side) : Nat → Ptr → M U Ptr
  | 0, _ => Prog.halt .outOfFuel
  | fuel + 1, p => do
    let next := (← deref p).child s
    if next = none then pure p else extreme s fuel next

def extremeOfTree (s : Side) (fuel : Nat) : M U Ptr := do
  let root := (← Prog.get).root
  if root = none then pure none else extreme s fuel root

def orderedCollectionMin (fuel : Nat) : M U Ptr := extremeOfTree .left fuel

def orderedCollectionMax (fuel : Nat) : M U Ptr := extremeOfTree .right fuel

def findFrom {K : Type} (keyCompare : K → U → Int) (standaloneKey : K) : Nat → Ptr → M U Ptr
  | 0, _ => Prog.halt .outOfFuel
  | fuel + 1, node =>
    if node = none then pure node else do
      let n ← deref node
      let result := keyCompare standaloneKey n.userStruct
      if result = 0 then pure node
      else findFrom keyCompare standaloneKey fuel (if result < 0 then n.left else n.right)

def orderedCollectionFind {K : Type} (keyCompare : K → U → Int) (standaloneKey : K) (fuel : Nat) : M U Ptr := do
  findFrom keyCompare standaloneKey fuel (← Prog.get).root

def ascend (s : Side) : Nat → Ptr → Ptr → M U Ptr
  | 0, _, _ => Prog.halt .outOfFuel
  | fuel + 1, child, walk =>
    if walk = none then pure none else do
      let above ← deref walk
      if child = above.child s then ascend s fuel walk above.parent else pure walk

def neighbour (s : Side) (fuel : Nat) (node : Ptr) : M U Ptr :=
  if node = none then pure none else do
    let n ← deref node
    if n.child s = none then ascend s fuel node n.parent else extreme s.other fuel (n.child s)

def orderedCollectionNext (fuel : Nat) (node : Ptr) : M U Ptr := neighbour .right fuel node

def orderedCollectionPrev (fuel : Nat) (node : Ptr) : M U Ptr := neighbour .left fuel node

def checkRedNode (n : Node U) : M U Unit :=
  if n.color = .red then do
    assert (← nodeIsNullOrBlack n.left)
    assert (← nodeIsNullOrBlack n.right)
  else
    pure ()

def redBlackTreeRecursiveCheck : Nat → Ptr → M U Nat
  | 0, _ => Prog.halt .outOfFuel
  | fuel + 1, p =>
    if p = none then pure 1 else do
      let n ← deref p
      checkRedNode n
      let leftHeight ← redBlackTreeRecursiveCheck fuel n.left
      let rightHeight ← redBlackTreeRecursiveCheck fuel n.right
      assert (leftHeight = rightHeight)
      pure (((if n.color = .black then 1 else 0) + leftHeight) % 2 ^ 32)

def checkOrder (s : Side) (walkFuel : Nat) : Nat → Ptr → Nat → M U Nat
  | 0, _, _ => Prog.halt .outOfFuel
  | fuel + 1, last, count => do
    let node ← neighbour s walkFuel last
    if node = none then pure count else do
      let before := (← deref last).userStruct
      let here := (← deref node).userStruct
      let result ← Prog.ask fun e => e.userStructCompare before here
      assert (match s with
        | .right => result < 0
        | .left => 0 < result)
      checkOrder s walkFuel fuel node ((count + 1) % 2 ^ 32)

def countFrom (s : Side) (fuel : Nat) : M U Nat := do
  let first ← extremeOfTree s.other fuel
  checkOrder s fuel fuel first (if first = none then 0 else 1)

def redBlackTreeValidate (fuel : Nat) : M U Unit := do
  let root := (← Prog.get).root
  assert (← nodeIsNullOrBlack root)
  let _blackHeight ← redBlackTreeRecursiveCheck fuel root
  let forwardCount ← countFrom .right fuel
  let backwardCount ← countFrom .left fuel
  assert (forwardCount = backwardCount)

def validateIfEnabled (fuel : Nat) : M U Unit := do
  if (← Prog.ask (·.validateOrderedCollection)) then redBlackTreeValidate fuel else pure ()

def searchFrom (userStruct : U) : Nat → Ptr → Ptr → Int → M U (Ptr × Ptr × Int)
  | 0, _, _, _ => Prog.halt .outOfFuel
  | fuel + 1, tmp, parent, result =>
    if tmp = none then pure (tmp, parent, result) else do
      let n ← deref tmp
      let result ← Prog.ask fun e => e.userStructCompare userStruct n.userStruct
      if result = 0 then pure (tmp, parent, result)
      else searchFrom userStruct fuel (if result < 0 then n.left else n.right) tmp result

def insertFinish (s : Side) (tmp parent grandParent newRoot : Ptr) : M U (Ptr × Ptr × Ptr) := do
  store parent (·.setColor .black)
  store grandParent (·.setColor .red)
  let newRoot ← rotation s grandParent newRoot
  pure (tmp, parent, newRoot)

def insertStep (s : Side) (tmp parent grandParent newRoot : Ptr) : M U (Ptr × Ptr × Ptr) := do
  let uncle := (← deref grandParent).child s.other
  if (← nodeIsNullOrBlack uncle) then
    if tmp = (← deref parent).child s.other then
      let newRoot ← rotation s.other parent newRoot
      let above := (← deref parent).parent
      assert (grandParent = (← deref above).parent)
      insertFinish s parent above grandParent newRoot
    else
      insertFinish s tmp parent grandParent newRoot
  else
    store parent (·.setColor .black)
    store uncle (·.setColor .black)
    store grandParent (·.setColor .red)
    pure (grandParent, (← deref grandParent).parent, newRoot)

def insertLoop : Nat → Ptr → Ptr → Ptr → M U Ptr
  | 0, _, _, _ => Prog.halt .outOfFuel
  | fuel + 1, tmp, parent, newRoot =>
    if tmp = newRoot then pure newRoot else do
      let p ← deref parent
      if p.color = .black then pure newRoot else do
        let g ← deref p.parent
        let (tmp, parent, newRoot) ←
          insertStep (if parent = g.left then .left else .right) tmp parent p.parent newRoot
        insertLoop fuel tmp parent newRoot

def insertNode (fuel : Nat) (userStruct : U) (a : Addr) (parent : Ptr) (result : Int) : M U Unit :=
  if parent = none then do
    Prog.modify (·.set a (some ⟨userStruct, none, none, none, .black⟩))
    setRoot (some a)
  else do
    Prog.modify (·.set a (some ⟨userStruct, parent, none, none, .red⟩))
    store parent (·.setChild (if result < 0 then .left else .right) (some a))
    let newRoot ← insertLoop fuel (some a) parent (← Prog.get).root
    store newRoot (·.setColor .black)
    setRoot newRoot

def insertUnlessFound (fuel : Nat) (pool : Ptr) (userStruct : U) (tmp parent : Ptr) (result : Int) :
    M U (Status × Ptr) :=
  match tmp, pool with
  | some a, _ => pure (.alreadyStarted, some a)
  | none, none => pure (.outOfResources, none)
  | none, some a => do
    insertNode fuel userStruct a parent result
    pure (.success, some a)

/-- `pool` is what `AllocatePool` returns. The result is the status and what `*Node` is set to. -/
def orderedCollectionInsert (fuel : Nat) (pool : Ptr) (userStruct : U) : M U (Status × Ptr) := do
  let (tmp, parent, result) ← searchFrom userStruct fuel (← Prog.get).root none 0
  let done ← insertUnlessFound fuel pool userStruct tmp parent result
  validateIfEnabled fuel
  pure done

def deleteFinish (s : Side) (parent sibling farNephew newRoot : Ptr) : M U (Ptr × Ptr × Ptr) := do
  assert (farNephew ≠ none)
  assert ((← deref farNephew).color = .red)
  assert (sibling ≠ none)
  assert ((← deref sibling).color = .black)
  let color := (← deref parent).color
  store sibling (·.setColor color)
  store parent (·.setColor .black)
  store farNephew (·.setColor .black)
  let newRoot ← rotation s.other parent newRoot
  pure (newRoot, parent, newRoot)

def deleteBlackSibling (s : Side) (parent sibling newRoot : Ptr) : M U (Ptr × Ptr × Ptr) := do
  let sib ← deref sibling
  assert (sib.color = .black)
  let near := sib.child s
  let far := sib.child s.other
  let nearBlack ← nodeIsNullOrBlack near
  let farBlack ← nodeIsNullOrBlack far
  if nearBlack ∧ farBlack then
    store sibling (·.setColor .red)
    pure (parent, (← deref parent).parent, newRoot)
  else if farBlack then
    store near (·.setColor .black)
    store sibling (·.setColor .red)
    let newRoot ← rotation s sibling newRoot
    let sibling := (← deref parent).child s.other
    deleteFinish s parent sibling ((← deref sibling).child s.other) newRoot
  else
    deleteFinish s parent sibling far newRoot

def deleteStep (s : Side) (parent newRoot : Ptr) : M U (Ptr × Ptr × Ptr) := do
  let sibling := (← deref parent).child s.other
  assert (sibling ≠ none)
  if (← deref sibling).color = .red then
    store sibling (·.setColor .black)
    store parent (·.setColor .red)
    let newRoot ← rotation s.other parent newRoot
    let sibling := (← deref parent).child s.other
    assert (sibling ≠ none)
    deleteBlackSibling s parent sibling newRoot
  else
    deleteBlackSibling s parent sibling newRoot

def deleteLoop : Nat → Ptr → Ptr → Ptr → M U (Ptr × Ptr)
  | 0, _, _, _ => Prog.halt .outOfFuel
  | fuel + 1, child, parent, newRoot =>
    if child = newRoot then pure (child, newRoot) else do
      if (← nodeIsNullOrBlack child) then
        let p ← deref parent
        let (child, parent, newRoot) ← deleteStep (if child = p.left then .left else .right) parent newRoot
        deleteLoop fuel child parent newRoot
      else
        pure (child, newRoot)

def unlinkNode (node : Ptr) (newRoot : Ptr) : M U (Ptr × Ptr × Ptr × Color) := do
  let n ← deref node
  let child := if n.left ≠ none then n.left else n.right
  storeIfAny child (·.setParent n.parent)
  let newRoot ← replaceChild n.parent node child newRoot
  pure (child, n.parent, newRoot, n.color)

def unlinkSuccessor (fuel : Nat) (origRightChild : Ptr) : M U (Ptr × Ptr × Ptr) := do
  let r ← deref origRightChild
  if r.left = none then
    pure (origRightChild, r.right, origRightChild)
  else
    let toRelink ← extreme .left fuel r.left
    let succ ← deref toRelink
    store succ.parent (·.setChild .left succ.right)
    storeIfAny succ.right (·.setParent succ.parent)
    store toRelink (·.setChild .right origRightChild)
    store origRightChild (·.setParent toRelink)
    pure (toRelink, succ.right, succ.parent)

def relinkSuccessor (fuel : Nat) (node : Ptr) (newRoot : Ptr) : M U (Ptr × Ptr × Ptr × Color) := do
  let n ← deref node
  let (toRelink, child, parent) ← unlinkSuccessor fuel n.right
  store toRelink (·.setChild .left n.left)
  store n.left (·.setParent toRelink)
  let colorOfUnlinked := (← deref toRelink).color
  let color := (← deref node).color
  store toRelink (·.setColor color)
  store toRelink (·.setParent n.parent)
  let newRoot ← replaceChild n.parent node toRelink newRoot
  pure (child, parent, newRoot, colorOfUnlinked)

def freePool (node : Ptr) : M U Unit :=
  match node with
  | some a => Prog.modify (·.set a none)
  | none => Prog.halt .fault

/-- The black that the unlinked node carried goes to `child` or up the tree; the result is the new root. -/
def repairBlack (fuel : Nat) (child parent newRoot : Ptr) : M U Ptr := do
  let (child, newRoot) ← deleteLoop fuel child parent newRoot
  storeIfAny child (·.setColor .black)
  pure newRoot

def unlink (fuel : Nat) (node : Ptr) (n : Node U) (newRoot : Ptr) : M U (Ptr × Ptr × Ptr × Color) :=
  if n.left = none ∨ n.right = none then unlinkNode node newRoot else relinkSuccessor fuel node newRoot

def repairIfBlack (fuel : Nat) (colorOfUnlinked : Color) (child parent newRoot : Ptr) : M U Ptr :=
  if colorOfUnlinked = .black then repairBlack fuel child parent newRoot else pure newRoot

def finishDelete (fuel : Nat) (node child parent newRoot : Ptr) (colorOfUnlinked : Color) : M U Unit := do
  freePool node
  let newRoot ← repairIfBlack fuel colorOfUnlinked child parent newRoot
  setRoot newRoot

/-- The result is what `*UserStruct` is set to. -/
def orderedCollectionDelete (fuel : Nat) (node : Ptr) : M U U := do
  let newRoot := (← Prog.get).root
  let n ← deref node
  let (child, parent, newRoot, colorOfUnlinked) ← unlink fuel node n newRoot
  finishDelete fuel node child parent newRoot colorOfUnlinked
  validateIfEnabled fuel
  pure n.userStruct

end LeoEdk.Collection
