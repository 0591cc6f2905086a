import Mathlib.Order.Basic

/-!
# Programs that may fail

A program reads and changes a state, and returns a value or fails; what it changed before it
failed stays changed. A triple says what holds after a return and what holds after a failure.
-/

/-- A program on states `S` with failures `E`. -/
abbrev Prog (S E A : Type) := ExceptT E (StateM S) A

namespace Prog

variable {S E A B : Type} {P P' : S → Prop} {Q Q' : A → S → Prop} {R R' : E → S → Prop}
  {x : Prog S E A} {s : S}

def exec (x : Prog S E A) (s : S) : Except E A × S := x.run s

/-- The run returned with `Q` or failed with `R`. -/
def Meets (Q : A → S → Prop) (R : E → S → Prop) : Except E A × S → Prop
  | (.ok a, s) => Q a s
  | (.error e, s) => R e s

/-- Every run from a state with `P` returns with `Q` or fails with `R`. -/
def Ensures (P : S → Prop) (x : Prog S E A) (Q : A → S → Prop) (R : E → S → Prop) : Prop :=
  ∀ s, P s → Meets Q R (x.exec s)

theorem Meets.mono {out : Except E A × S} (h : Meets Q R out) (hQ : ∀ a s, Q a s → Q' a s)
    (hR : ∀ e s, R e s → R' e s) : Meets Q' R' out := by
  obtain ⟨result, s⟩ := out
  cases result with
  | ok a => exact hQ a s h
  | error e => exact hR e s h

theorem Ensures.mono (h : Ensures P x Q R) (hP : ∀ s, P' s → P s) (hQ : ∀ a s, Q a s → Q' a s)
    (hR : ∀ e s, R e s → R' e s) : Ensures P' x Q' R' := fun s hs => (h s (hP s hs)).mono hQ hR

theorem Ensures.pre (h : Ensures P x Q R) (hP : ∀ s, P' s → P s) : Ensures P' x Q R :=
  h.mono hP (fun _ _ h => h) fun _ _ h => h

theorem Ensures.post (h : Ensures P x Q R) (hQ : ∀ a s, Q a s → Q' a s) : Ensures P x Q' R :=
  h.mono (fun _ h => h) hQ fun _ _ h => h

/-- The program may be looked at one state at a time. -/
theorem ensures_of_forall (h : ∀ s, P s → Ensures (· = s) x Q R) : Ensures P x Q R :=
  fun s hs => h s hs s rfl

theorem ensures_pure {a : A} (h : ∀ s, P s → Q a s) : Ensures P (pure a : Prog S E A) Q R := h

theorem ensures_throw {e : E} (h : ∀ s, P s → R e s) : Ensures P (throw e : Prog S E A) Q R := h

theorem ensures_modify {f : S → S} {Q : Unit → S → Prop} (h : ∀ s, P s → Q () (f s)) :
    Ensures P (modify f : Prog S E Unit) Q R := h

theorem ensures_bind {f : A → Prog S E B} {Q' : B → S → Prop} (hx : Ensures P x Q R)
    (hf : ∀ a, Ensures (Q a) (f a) Q' R) : Ensures P (x >>= f) Q' R := by
  intro s hs
  have hrun := hx s hs
  change Meets Q' R ((ExceptT.bind x f) s)
  unfold ExceptT.bind ExceptT.mk
  change Meets Q' R (ExceptT.bindCont f (x.exec s).1 (x.exec s).2)
  generalize x.exec s = out at hrun ⊢
  obtain ⟨result, s'⟩ := out
  cases result with
  | ok a => exact hf a s' hrun
  | error e => exact hrun

/-- The state may be read and kept. -/
theorem ensures_get_bind {f : S → Prog S E B} {Q' : B → S → Prop}
    (hf : ∀ s, P s → Ensures (· = s) (f s) Q' R) : Ensures P (get >>= f) Q' R := by
  intro s hs
  exact hf s hs s rfl

theorem ensures_tryCatch {handler : E → Prog S E A} (hx : Ensures P x Q R')
    (hhandler : ∀ e, Ensures (R' e) (handler e) Q R) : Ensures P (tryCatch x handler) Q R := by
  intro s hs
  have hrun := hx s hs
  change Meets Q R ((ExceptT.tryCatch x handler) s)
  unfold ExceptT.tryCatch ExceptT.mk
  change Meets Q R (Id.run ((match (x.exec s).1 with
    | .ok a => pure (.ok a)
    | .error e => handler e : StateM S (Except E A)) (x.exec s).2))
  generalize x.exec s = out at hrun ⊢
  obtain ⟨result, s'⟩ := out
  cases result with
  | ok a => exact hrun
  | error e => exact hhandler e s' hrun

end Prog
