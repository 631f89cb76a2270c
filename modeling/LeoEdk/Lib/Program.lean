import Mathlib

/-! Programs that ask an environment, change a world and may stop before they return. -/

namespace LeoEdk

/-- A program over environments `E` and worlds `W` that returns an `α` or stops with an `H`. -/
def Prog (E W H α : Type) : Type := E → W → Except H α × W

namespace Prog

variable {E W H α β : Type}

instance : Monad (Prog E W H) where
  pure a := fun _ w => (.ok a, w)
  bind m f := fun e w =>
    match m e w with
    | (.ok a, w') => f a e w'
    | (.error h, w') => (.error h, w')

def ask (f : E → α) : Prog E W H α := fun e w => (.ok (f e), w)

def get : Prog E W H W := fun _ w => (.ok w, w)

def modify (f : W → W) : Prog E W H Unit := fun _ w => (.ok (), f w)

def halt (h : H) : Prog E W H α := fun _ w => (.error h, w)

def final (m : Prog E W H α) (e : E) (w : W) : W := (m e w).2

theorem bind_ok {m : Prog E W H α} {k : α → Prog E W H β} {e : E} {w v : W} {a : α} (run : m e w = (.ok a, v)) :
    (m >>= k) e w = k a e v := by
  change (match m e w with
    | (.ok a, w') => k a e w'
    | (.error h, w') => (.error h, w')) = _
  rw [run]

theorem bind_error {m : Prog E W H α} {k : α → Prog E W H β} {e : E} {w v : W} {h : H} (run : m e w = (.error h, v)) :
    (m >>= k) e w = (.error h, v) := by
  change (match m e w with
    | (.ok a, w') => k a e w'
    | (.error h, w') => (.error h, w')) = _
  rw [run]

/-! ### The weakest precondition -/

/-- In world `w` and environment `e`, `m` either returns with `Q` or stops with `R`. -/
def wp (m : Prog E W H α) (e : E) (Q : α → W → Prop) (R : H → W → Prop) (w : W) : Prop :=
  match m e w with
  | (.ok a, w') => Q a w'
  | (.error h, w') => R h w'

section Rules

variable {e : E} {w : W} {Q Q' : α → W → Prop} {R R' : H → W → Prop} {m : Prog E W H α}

@[simp] theorem wp_pure (a : α) : wp (pure a : Prog E W H α) e Q R w ↔ Q a w := Iff.rfl

@[simp] theorem wp_bind (m : Prog E W H α) (f : α → Prog E W H β) (Q : β → W → Prop) :
    wp (m >>= f) e Q R w ↔ wp m e (fun a w' => wp (f a) e Q R w') R w := by
  change (match (match m e w with
      | (.ok a, w') => f a e w'
      | (.error h, w') => (.error h, w')) with
    | (.ok a, w') => Q a w'
    | (.error h, w') => R h w') ↔ _
  rw [wp]
  rcases m e w with ⟨_ | _, w'⟩ <;> rfl

@[simp] theorem wp_ask (f : E → α) : wp (ask f : Prog E W H α) e Q R w ↔ Q (f e) w := Iff.rfl

@[simp] theorem wp_get (Q : W → W → Prop) : wp (get : Prog E W H W) e Q R w ↔ Q w w := Iff.rfl

@[simp] theorem wp_modify (f : W → W) (Q : Unit → W → Prop) :
    wp (modify f : Prog E W H Unit) e Q R w ↔ Q () (f w) := Iff.rfl

@[simp] theorem wp_halt (h : H) : wp (halt h : Prog E W H α) e Q R w ↔ R h w := Iff.rfl

@[simp] theorem wp_ite (c : Prop) [Decidable c] (m n : Prog E W H α) :
    wp (if c then m else n) e Q R w ↔ if c then wp m e Q R w else wp n e Q R w := by
  split <;> rfl

theorem wp_mono (hQ : ∀ a w', Q a w' → Q' a w') (hR : ∀ h w', R h w' → R' h w')
    (hw : wp m e Q R w) : wp m e Q' R' w := by
  unfold wp at hw ⊢
  split at hw
  · exact hQ _ _ hw
  · exact hR _ _ hw

theorem wp_seq {f : α → Prog E W H β} {Q' : β → W → Prop} (next : ∀ a w', Q a w' → wp (f a) e Q' R w')
    (first : wp m e Q R w) : wp (m >>= f) e Q' R w :=
  (wp_bind m f Q').mpr (wp_mono next (fun _ _ => id) first)

/-- If every outcome that a program can have decides a postcondition as `P`, then so does the program. -/
theorem wp_iff_of_wp {P : Prop} (hw : wp m e Q R w) (hQ : ∀ a w', Q a w' → (Q' a w' ↔ P))
    (hR : ∀ h w', R h w' → (R' h w' ↔ P)) : wp m e Q' R' w ↔ P := by
  unfold wp at hw ⊢
  split at hw
  · exact hQ _ _ hw
  · exact hR _ _ hw

theorem wp_and :
    wp m e (fun a w' => Q a w' ∧ Q' a w') (fun h w' => R h w' ∧ R' h w') w ↔ wp m e Q R w ∧ wp m e Q' R' w := by
  unfold wp
  split <;> rfl

theorem wp_final {P : W → Prop} : wp m e (fun _ => P) (fun _ => P) w ↔ P (m.final e w) := by
  unfold wp final
  split <;> rename_i h <;> rw [h]

theorem wp_returned (hw : wp m e Q R w) {a : α} (ret : (m e w).1 = .ok a) : Q a (m.final e w) := by
  unfold wp at hw
  rcases run : m e w with ⟨outcome, w'⟩
  rw [run] at ret hw
  cases ret
  rw [final, run]
  exact hw

theorem wp_stopped (hw : wp m e Q R w) {h : H} (stop : (m e w).1 = .error h) : R h (m.final e w) := by
  unfold wp at hw
  rcases run : m e w with ⟨outcome, w'⟩
  rw [run] at stop hw
  cases stop
  rw [final, run]
  exact hw

theorem exists_returned (hw : wp m e Q (fun _ _ => False) w) :
    ∃ a, (m e w).1 = .ok a ∧ Q a (m.final e w) := by
  rcases outcome : (m e w).1 with h | a
  · exact (wp_stopped hw outcome).elim
  · exact ⟨a, rfl, wp_returned hw outcome⟩

theorem returned_iff_wp {a : α} :
    (m e w).1 = .ok a ↔ wp m e (fun b _ => b = a) (fun _ _ => False) w := by
  unfold wp
  rcases m e w with ⟨_ | _, _⟩ <;> simp

end Rules

/-! ### Programs with one result -/

/-- From every world in `I`, `m` returns `a` and ends in a world of `I`. -/
def Yields (I : W → Prop) (e : E) (m : Prog E W H α) (a : α) : Prop :=
  ∀ w, I w → wp m e (fun r w' => r = a ∧ I w') (fun _ _ => False) w

namespace Yields

variable {I : W → Prop} {e : E} {m : Prog E W H α} {a : α} {b : β}

theorem pure (a : α) : Yields I e (Pure.pure a : Prog E W H α) a := fun _ inv => ⟨rfl, inv⟩

theorem ask (f : E → α) : Yields I e (Prog.ask f : Prog E W H α) (f e) := fun _ inv => ⟨rfl, inv⟩

theorem wp {Q : α → W → Prop} {R : H → W → Prop} {w : W} (yields : Yields I e m a) (inv : I w)
    (post : ∀ w', I w' → Q a w') : wp m e Q R w := by
  refine wp_mono ?_ (fun _ _ => False.elim) (yields w inv)
  rintro _ w' ⟨rfl, inv'⟩
  exact post w' inv'

theorem bind {f : α → Prog E W H β} (first : Yields I e m a) (next : Yields I e (f a) b) : Yields I e (m >>= f) b := by
  intro w inv
  rw [wp_bind]
  exact first.wp inv next

theorem get {f : W → Prog E W H β} (next : ∀ w, I w → Yields I e (f w) b) : Yields I e (Prog.get >>= f) b := by
  intro w inv
  rw [wp_bind]
  exact next w inv w inv

end Yields

/-- From every world in `I`, `m` returns `o` and ends in a world of `I`, unless `o` is `none`: then `m` may stop. -/
def Tries (I : W → Prop) (e : E) (m : Prog E W H (Option α)) (o : Option α) : Prop :=
  ∀ w, I w → wp m e (fun r w' => r = o ∧ I w') (fun _ _ => o = none) w

namespace Tries

variable {I : W → Prop} {e : E} {γ : Type}

theorem pure (o : Option α) : Tries I e (Pure.pure o : Prog E W H (Option α)) o := fun _ inv => ⟨rfl, inv⟩

theorem after {m : Prog E W H γ} {c : γ} {f : γ → Prog E W H (Option α)} {o : Option α} (first : Yields I e m c)
    (next : Tries I e (f c) o) : Tries I e (m >>= f) o := by
  intro w inv
  rw [wp_bind]
  exact first.wp inv next

theorem bind {m : Prog E W H (Option β)} {o : Option β} {f : Option β → Prog E W H (Option α)} {k : β → Option α}
    (first : Tries I e m o) (stop : f none = Pure.pure none) (next : ∀ b, Tries I e (f (some b)) (k b)) :
    Tries I e (m >>= f) (o.bind k) := by
  intro w inv
  rw [wp_bind]
  refine wp_mono ?_ ?_ (first w inv)
  · rintro r w' ⟨rfl, inv'⟩
    cases r with
    | none =>
      rw [stop]
      exact ⟨rfl, inv'⟩
    | some b => exact next b w' inv'
  · rintro h w' rfl
    rfl

end Tries

/-! ### Programs whose effect is bounded by a relation -/

/-- Every run of `m`, whether it returns or stops, ends in a world related to the one it started from. -/
def Within (R : W → W → Prop) (e : E) (m : Prog E W H α) : Prop :=
  ∀ w, wp m e (fun _ w' => R w w') (fun _ w' => R w w') w

/-- A part of the world that stays as it was. -/
def Same {γ : Type} (f : W → γ) (w w' : W) : Prop := f w' = f w

instance {γ : Type} (f : W → γ) : Std.Refl (Same f) := ⟨fun _ => rfl⟩

instance {γ : Type} (f : W → γ) : IsTrans W (Same f) := ⟨fun _ _ _ first next => Eq.trans next first⟩

namespace Within

variable {R : W → W → Prop} {e : E} {m : Prog E W H α}

theorem wp {Q : α → W → Prop} {w : W} (within : Within R e m) (post : ∀ a w', R w w' → Q a w') :
    wp m e Q (fun _ _ => True) w := wp_mono post (fun _ _ _ => trivial) (within w)

theorem wp_and {Q : α → W → Prop} {w : W} (within : Within R e m) (hw : Prog.wp m e Q (fun _ _ => True) w) :
    Prog.wp m e (fun a w' => R w w' ∧ Q a w') (fun _ w' => R w w') w :=
  wp_mono (fun _ _ => id) (fun _ _ => And.left) (Prog.wp_and.mpr ⟨within w, hw⟩)

theorem mono {R' : W → W → Prop} (sub : ∀ w w', R w w' → R' w w') (within : Within R e m) : Within R' e m :=
  fun w => wp_mono (fun _ w' => sub w w') (fun _ w' => sub w w') (within w)

theorem modify {g : W → W} (step : ∀ w, R w (g w)) : Within R e (Prog.modify g : Prog E W H Unit) := step

theorem halt [Std.Refl R] (h : H) : Within R e (Prog.halt h : Prog E W H α) := refl_of R

theorem ite {c : Prop} [Decidable c] {n : Prog E W H α} (yes : Within R e m) (no : Within R e n) :
    Within R e (if c then m else n) := by
  split
  · exact yes
  · exact no

theorem pure [Std.Refl R] (a : α) : Within R e (Pure.pure a : Prog E W H α) := refl_of R

theorem ask [Std.Refl R] (k : E → α) : Within R e (Prog.ask k : Prog E W H α) := refl_of R

theorem ask_bind {f : E → β} {k : β → Prog E W H α} (next : Within R e (k (f e))) :
    Within R e (Prog.ask f >>= k) := next

theorem get [Std.Refl R] : Within R e (Prog.get : Prog E W H W) := refl_of R

theorem bind [IsTrans W R] {k : α → Prog E W H β} (first : Within R e m) (next : ∀ a, Within R e (k a)) :
    Within R e (m >>= k) := by
  intro w
  rw [wp_bind]
  refine wp_mono (fun a w' step => ?_) (fun _ _ step => step) (first w)
  exact wp_mono (fun _ _ step' => trans_of R step step') (fun _ _ step' => trans_of R step step') (next a w')

theorem option [IsTrans W R] {m : Prog E W H (Option α)} {k : Option α → Prog E W H β} (first : Within R e m)
    (none : Within R e (k none)) (some : ∀ a, Within R e (k (some a))) : Within R e (m >>= k) :=
  first.bind fun o => Option.rec none some o

theorem except {ε : Type} [IsTrans W R] {m : Prog E W H (Except ε α)} {k : Except ε α → Prog E W H β}
    (first : Within R e m) (error : ∀ x, Within R e (k (.error x))) (ok : ∀ a, Within R e (k (.ok a))) :
    Within R e (m >>= k) := first.bind fun o => Except.rec error ok o

end Within

end Prog

/-! ### Results with an error -/

/-- If the computation gives a result, the result has the property. -/
def Ensures {ε α : Type} (Q : α → Prop) (m : Except ε α) : Prop := ∀ a, m = .ok a → Q a

namespace Ensures

variable {ε α β : Type} {Q Q' : α → Prop} {m : Except ε α}

theorem pure {a : α} (h : Q a) : Ensures Q (Pure.pure a : Except ε α) := by
  rintro _ ⟨⟩
  exact h

theorem error (e : ε) : Ensures Q (.error e : Except ε α) := nofun

theorem mono (sub : ∀ a, Q a → Q' a) (h : Ensures Q m) : Ensures Q' m := fun a ok => sub a (h a ok)

theorem bind {R : β → Prop} {f : α → Except ε β} (first : Ensures Q m) (next : ∀ a, Q a → Ensures R (f a)) :
    Ensures R (m >>= f) := by
  cases m with
  | error e => exact error e
  | ok a => exact next a (first a rfl)

theorem ite {c : Prop} [Decidable c] {n : Except ε α} (yes : Ensures Q m) (no : Ensures Q n) :
    Ensures Q (if c then m else n) := by
  split
  · exact yes
  · exact no

theorem skip {R : β → Prop} {f : α → Except ε β} (next : ∀ a, Ensures R (f a)) : Ensures R (m >>= f) := by
  cases m with
  | error e => exact error e
  | ok a => exact next a

end Ensures

end LeoEdk
