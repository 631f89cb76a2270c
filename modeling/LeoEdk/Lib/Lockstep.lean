import LeoEdk.Lib.Program

/-! Two runs of one program side by side, in two environments and from two worlds. -/

namespace LeoEdk.Prog

variable {E W H α β : Type}

/-- From related worlds, `m` ends the same way in both environments and in related worlds, or the run in `e` is bad. -/
structure Lockstep (bad : W → Prop) (rel : W → W → Prop) (e e' : E) (m : Prog E W H α) : Prop where
  stays : ∀ w, bad w → bad (m.final e w)
  step : ∀ w w', rel w w' → bad (m.final e w) ∨ ((m e' w').1 = (m e w).1 ∧ rel (m.final e w) (m.final e' w'))

namespace Lockstep

variable {bad : W → Prop} {rel : W → W → Prop} {e e' : E} {m n : Prog E W H α}

theorem pure (a : α) : Lockstep bad rel e e' (Pure.pure a : Prog E W H α) := ⟨fun _ h => h, fun _ _ h => .inr ⟨rfl, h⟩⟩

theorem halt (h : H) : Lockstep bad rel e e' (Prog.halt h : Prog E W H α) := ⟨fun _ h => h, fun _ _ h => .inr ⟨rfl, h⟩⟩

theorem modify {g : W → W} (stays : ∀ w, bad w → bad (g w)) (step : ∀ w w', rel w w' → rel (g w) (g w')) :
    Lockstep bad rel e e' (Prog.modify g : Prog E W H Unit) := ⟨stays, fun w w' h => .inr ⟨rfl, step w w' h⟩⟩

theorem get {f : W → α} (same : ∀ w w', rel w w' → f w' = f w) :
    Lockstep bad rel e e' (Prog.get >>= fun w => Pure.pure (f w) : Prog E W H α) :=
  ⟨fun _ h => h, fun w w' h => .inr ⟨congrArg Except.ok (same w w' h), h⟩⟩

theorem ite {c : Prop} [Decidable c] (yes : Lockstep bad rel e e' m) (no : Lockstep bad rel e e' n) :
    Lockstep bad rel e e' (if c then m else n) := by
  split
  · exact yes
  · exact no

theorem bind {k : α → Prog E W H β} (first : Lockstep bad rel e e' m) (next : ∀ a, Lockstep bad rel e e' (k a)) :
    Lockstep bad rel e e' (m >>= k) := by
  refine ⟨fun w h => ?_, fun w w' h => ?_⟩
  · have stays := first.stays w h
    rcases run : m e w with ⟨h | a, v⟩
    · rw [final, run] at stays
      rw [final, bind_error run]
      exact stays
    · rw [final, run] at stays
      rw [final, bind_ok run]
      exact (next a).stays v stays
  · have step := first.step w w' h
    rcases run : m e w with ⟨h | a, v⟩ <;> rcases run' : m e' w' with ⟨h' | a', v'⟩ <;>
      simp only [final, run, run', Except.ok.injEq, Except.error.injEq, reduceCtorEq, false_and, or_false] at step ⊢
    · rw [bind_error run, bind_error run']
      exact step.imp id fun same => ⟨congrArg Except.error same.1, same.2⟩
    · rw [bind_error run]
      exact .inl step
    · rw [bind_ok run]
      exact .inl ((next a).stays v step)
    · rw [bind_ok run, bind_ok run']
      rcases step with bad | ⟨rfl, related⟩
      · exact .inl ((next a).stays v bad)
      · exact (next a').step v v' related

end Lockstep

end LeoEdk.Prog
