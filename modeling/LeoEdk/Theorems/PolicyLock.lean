import LeoEdk.Theorems.PolicyMatch
import LeoEdk.VariablePolicy.Enforcement

/-! What a locked policy keeps. No step changes the library any more (`Step.library_eq`), and a variable changes only
    by a write that the check allows. -/

namespace LeoEdk.VariablePolicy

open Bytes
open Variable (Name Guid)

variable {s t : System} {policy : Store} {name : Name} {guid : Guid}

structure System where
  library : Library
  vars : Variables

/-- The calls, and the writes that the check allows. A write changes its own variable, in any way. -/
inductive Step : System → System → Prop
  | register (s : System) (c : Registration) :
      Step s { s with library := (s.library.registerVariablePolicy c.newPolicy c.pool).2 }
  | lock (s : System) : Step s { s with library := s.library.lockVariablePolicy.2 }
  | disable (s : System) (allow : Bool) : Step s { s with library := (s.library.disableVariablePolicy allow).2 }
  | validate (s : System) (name : Name) (guid : Guid) (attributes : UInt32) (dataSize : Nat) : Step s s
  | write (s : System) (name : Name) (guid : Guid) (attributes : UInt32) (dataSize : Nat) (vars' : Variables)
      (allowed : s.library.validateSetVariable s.vars name guid attributes dataSize = .success)
      (others : ∀ n g, ¬(n = name.units ∧ g = guid.bytes) → vars' n g = s.vars n g) :
      Step s { s with vars := vars' }

def StepsWhile (P : System → Prop) : System → System → Prop := Relation.ReflTransGen fun s t => P s ∧ Step s t

def Steps : System → System → Prop := Relation.ReflTransGen Step

/-! ### The locked interface -/

structure Locked (s : Library) : Prop where
  initialized : s.initialized
  locked : s.mInterfaceLocked
  enforcing : s.mProtectionDisabled = false

theorem locked_of_lock {s : Library} (success : s.lockVariablePolicy.1 = .success)
    (enforcing : s.mProtectionDisabled = false) : Locked s.lockVariablePolicy.2 := by
  unfold Library.lockVariablePolicy at success ⊢
  split_ifs at success ⊢ with uninitialized locked
  exact ⟨by simpa using uninitialized, rfl, enforcing⟩

theorem Step.library_eq (step : Step s t) (locked : Locked s.library) : t.library = s.library := by
  obtain ⟨initialized, interface, enforcing⟩ := locked
  cases step with
  | register c =>
    rcases register_cases s.library c with ⟨_, result, -⟩ | ⟨_, _, -, unlocked, -⟩
    · exact congrArg Prod.snd result
    · rw [interface] at unlocked
      cases unlocked
  | lock => simp [Library.lockVariablePolicy, initialized, interface]
  | disable allow => simp [Library.disableVariablePolicy, initialized, interface, enforcing]
  | validate => rfl
  | write => rfl

theorem StepsWhile.library_eq {P : System → Prop} (steps : StepsWhile P s t) (locked : Locked s.library) :
    t.library = s.library := by
  induction steps with
  | refl => rfl
  | tail _ step ih => exact (step.2.library_eq (ih ▸ locked)).trans ih

/-! ### The variable under a policy -/

def Refuses (s : System) (name : Name) (guid : Guid) : Prop :=
  ∀ attributes dataSize, s.library.validateSetVariable s.vars name guid attributes dataSize ≠ .success

theorem Step.keeps (step : Step s t) (refuses : Refuses s name guid) :
    t.vars name.units guid.bytes = s.vars name.units guid.bytes := by
  cases step with
  | register | lock | disable | validate => rfl
  | write name' guid' attributes dataSize vars' allowed others =>
    refine others _ _ fun same => ?_
    have names : name = name' := by
      cases name
      cases name'
      simp_all
    have guids : guid = guid' := by
      cases guid
      cases guid'
      simp_all
    subst names guids
    exact refuses attributes dataSize allowed

theorem StepsWhile.keeps {P : System → Prop}
    (refuses : ∀ u, u.library = s.library → u.vars name.units guid.bytes = s.vars name.units guid.bytes →
      P u → Refuses u name guid)
    (locked : Locked s.library) (steps : StepsWhile P s t) :
    t.vars name.units guid.bytes = s.vars name.units guid.bytes := by
  induction steps with
  | refl => rfl
  | tail before step ih =>
    exact (step.2.keeps (refuses _ (StepsWhile.library_eq before locked) ih step.1)).trans ih

theorem refuses_of_checkLock (locked : Locked s.library)
    (best : s.library.bestPolicy name guid = some policy)
    (protected_ : checkLock policy s.vars name guid = .writeProtected) : Refuses s name guid := by
  intro attributes dataSize
  unfold Library.validateSetVariable
  rw [locked.initialized, locked.enforcing, best]
  dsimp only
  split_ifs <;> simp_all

/-- The state variable of the policy is one byte long and has the value of the policy. -/
def StateHolds (policy : Store) (s : System) : Prop :=
  ∃ v, s.vars (stateName policy) (stateNameSpace policy) = some v ∧ v.data = [stateValue policy]

theorem checkLock_now (type : lockPolicyType policy = typeLockNow) (vars : Variables) (name : Name)
    (guid : Guid) : checkLock policy vars name guid = .writeProtected := if_pos type

theorem checkLock_create (type : lockPolicyType policy = typeLockOnCreate) {vars : Variables}
    (existing : vars name.units guid.bytes ≠ none) :
    checkLock policy vars name guid = .writeProtected := by
  obtain ⟨v, found⟩ := Option.ne_none_iff_exists'.mp existing
  have long : 0 < v.data.length := List.length_pos_iff.mpr v.nonempty
  rw [checkLock, if_neg (by rw [type]; decide), if_pos type, getVariable, found]
  simp [long]

theorem checkLock_state (type : lockPolicyType policy = typeLockOnVarState)
    (holds : StateHolds policy s) (name : Name) (guid : Guid) :
    checkLock policy s.vars name guid = .writeProtected := by
  obtain ⟨v, found, data⟩ := holds
  rw [checkLock, if_neg (by rw [type]; decide), if_neg (by rw [type]; decide), if_pos type, getVariable, found]
  simp [data]

structure Enforced (s : System) : Prop where
  /-- A variable that exists under `LOCK_NOW` or `LOCK_ON_CREATE` stays as it is. -/
  locked : ∀ name guid policy, s.library.bestPolicy name guid = some policy →
    lockPolicyType policy = typeLockNow ∨ lockPolicyType policy = typeLockOnCreate →
    s.vars name.units guid.bytes ≠ none → ∀ t, Steps s t → t.vars name.units guid.bytes = s.vars name.units guid.bytes
  /-- A variable under `LOCK_ON_VAR_STATE` stays as it is while the state variable has the value of the policy. -/
  stateLocked : ∀ name guid policy, s.library.bestPolicy name guid = some policy →
    lockPolicyType policy = typeLockOnVarState → ∀ t, StepsWhile (StateHolds policy) s t →
    t.vars name.units guid.bytes = s.vars name.units guid.bytes

theorem Steps.while_true (steps : Steps s t) : StepsWhile (fun _ => True) s t :=
  Relation.ReflTransGen.mono (fun _ _ (step : Step _ _) => And.intro trivial step) _ _ steps

theorem enforced_of_locked (locked : Locked s.library) : Enforced s := by
  constructor
  · intro name guid policy best type existing t steps
    refine StepsWhile.keeps (fun u library vars _ => ?_) locked steps.while_true
    refine refuses_of_checkLock (library ▸ locked) (library ▸ best) ?_
    rcases type with now | create
    · exact checkLock_now now _ _ _
    · exact checkLock_create create (vars ▸ existing)
  · intro name guid policy best type t steps
    refine StepsWhile.keeps (fun u library _ holds => ?_) locked steps
    exact refuses_of_checkLock (library ▸ locked) (library ▸ best) (checkLock_state type holds name guid)

/-- Once `LockVariablePolicy` has succeeded with the enforcement on, every later state is enforced. -/
theorem locked_policy_stays_enforced {s t : System} (success : s.library.lockVariablePolicy.1 = .success)
    (enforcing : s.library.mProtectionDisabled = false)
    (steps : Steps { s with library := s.library.lockVariablePolicy.2 } t) : Enforced t := by
  have locked := locked_of_lock success enforcing
  have same := StepsWhile.library_eq steps.while_true locked
  exact enforced_of_locked (same ▸ locked)

def lockNowLibrary : Library :=
  let c := sampleRegistration (samplePolicy typeLockNow (some [0x42]))
  (initVariablePolicyLib.registerVariablePolicy c.newPolicy c.pool).2

def lockedName : Name := ⟨[0x42], by simp⟩

def lockedSystem : System :=
  ⟨lockNowLibrary, fun name guid => if name = [0x42] ∧ guid = zeroGuid.bytes then some ⟨3, [1], by decide⟩ else none⟩

/-- With a `LOCK_NOW` policy for it, a variable is still there after every run from the locked interface on. -/
theorem locked_policy_stays_enforced_now : lockNowLibrary.lockVariablePolicy.1 = .success ∧
      ∀ t, Steps { lockedSystem with library := lockNowLibrary.lockVariablePolicy.2 } t →
        t.vars [0x42] zeroGuid.bytes = some ⟨3, [1], by decide⟩ := by
  have success : lockNowLibrary.lockVariablePolicy.1 = .success := by decide
  refine ⟨success, ?_⟩
  intro t steps
  have enforcing : lockNowLibrary.mProtectionDisabled = false := by decide
  have enforced := @locked_policy_stays_enforced lockedSystem _ success enforcing .refl
  have found : (lockNowLibrary.lockVariablePolicy.2.getBestPolicyMatch (nameChars lockedName) zeroGuid.bytes).1 =
      some 0 := by decide
  have type : lockPolicyType (pointer lockNowLibrary.lockVariablePolicy.2.mPolicyTable 0) = typeLockNow := by
    decide
  exact enforced.locked lockedName zeroGuid _ (congrArg (Option.map _) found) (.inl type) nofun t steps

end LeoEdk.VariablePolicy
