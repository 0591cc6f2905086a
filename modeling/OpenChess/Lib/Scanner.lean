import Mathlib.Data.List.Basic
import Mathlib.Data.List.Infix

/-!
# Scanners

A scanner reads a text from the left. One pass of its loop looks at the first
letter, may append a token, may change its state and leaves a suffix of what
followed that letter. Passes that see only what they consume do not depend on
the text behind it, so text can be put in after a token.
-/

namespace OpenChess

structure Scanner (σ α τ ε : Type) where
  step : σ → α → List α → Except ε (Option τ × σ × List α)
  finish : σ → Except ε Unit
  suffix : ∀ {s a cs out s' rest}, step s a cs = .ok (out, s', rest) → rest <:+ cs

namespace Scanner

variable {σ α τ ε : Type} (S : Scanner σ α τ ε)

/-- The loop: the tokens in order, or the first refusal. -/
def scan (s : σ) : List α → Except ε (List τ)
  | [] => (S.finish s).map fun _ => []
  | a :: cs =>
    match _h : S.step s a cs with
    | .error e => .error e
    | .ok (out, s', rest) => (scan s' rest).map (out.toList ++ ·)
termination_by t => t.length
decreasing_by
  have hle := (S.suffix _h).length_le
  simp only [List.length_cons]
  omega

/-- Passes from one state and text to another, with the tokens appended. -/
inductive Runs : σ → List α → List τ → σ → List α → Prop
  | refl (s t) : Runs s t [] s t
  | step {s a cs out s₁ rest toks s₂ t} (h : S.step s a cs = .ok (out, s₁, rest))
      (hr : Runs s₁ rest toks s₂ t) : Runs s (a :: cs) (out.toList ++ toks) s₂ t

variable {S}

theorem scan_cons {s s' : σ} {a : α} {cs rest : List α} {out : Option τ}
    (h : S.step s a cs = .ok (out, s', rest)) :
    S.scan s (a :: cs) = (S.scan s' rest).map (out.toList ++ ·) := by
  rw [scan]
  split
  · next e he => simp [h] at he
  · next o t u hu =>
    obtain ⟨rfl, rfl, rfl⟩ : o = out ∧ t = s' ∧ u = rest := by simpa [h, eq_comm] using hu
    rfl

theorem scan_cons_error {s : σ} {a : α} {cs : List α} {e : ε} (h : S.step s a cs = .error e) :
    S.scan s (a :: cs) = .error e := by
  rw [scan]
  split
  · next d he => simpa [h, eq_comm] using he
  · next o t u hu => simp [h] at hu

/-- A scan goes on where its passes have come to. -/
theorem Runs.scan_eq {s s' : σ} {t t' : List α} {toks : List τ} (h : S.Runs s t toks s' t') :
    S.scan s t = (S.scan s' t').map (toks ++ ·) := by
  induction h with
  | refl s t => cases S.scan s t <;> rfl
  | step h _ ih =>
    rw [scan_cons h, ih]
    cases S.scan _ _ <;> simp [Except.map]

theorem Runs.suffix {s s' : σ} {t t' : List α} {toks : List τ} (h : S.Runs s t toks s' t') :
    t' <:+ t := by
  induction h with
  | refl s t => exact List.suffix_refl t
  | step h _ ih => exact (ih.trans (S.suffix h)).trans (List.suffix_cons _ _)

theorem Runs.trans {s₁ s₂ s₃ : σ} {t₁ t₂ t₃ : List α} {xs ys : List τ}
    (h : S.Runs s₁ t₁ xs s₂ t₂) (h' : S.Runs s₂ t₂ ys s₃ t₃) :
    S.Runs s₁ t₁ (xs ++ ys) s₃ t₃ := by
  induction h with
  | refl s t => exact h'
  | step h _ ih =>
    rw [List.append_assoc]
    exact .step h (ih h')

theorem Runs.single {s s' : σ} {a : α} {cs rest : List α} {out : Option τ}
    (h : S.step s a cs = .ok (out, s', rest)) : S.Runs s (a :: cs) out.toList s' rest := by
  have hrun := Runs.step h (.refl s' rest)
  rwa [List.append_nil] at hrun

/-- Every token of an accepted text is appended by one pass of the loop. -/
theorem exists_pass {s : σ} {t : List α} {before after : List τ} {tok : τ}
    (h : S.scan s t = .ok (before ++ tok :: after)) :
    ∃ s₁ a cs s₂ rest, S.Runs s t before s₁ (a :: cs) ∧
      S.step s₁ a cs = .ok (some tok, s₂, rest) ∧ S.scan s₂ rest = .ok after := by
  induction hn : t.length using Nat.strong_induction_on generalizing s t before with
  | _ n ih =>
    cases t with
    | nil =>
      rw [scan] at h
      cases hf : S.finish s <;> simp [hf, Except.map] at h
    | cons a cs =>
      cases hstep : S.step s a cs with
      | error e => simp [scan_cons_error hstep] at h
      | ok pass =>
        obtain ⟨out, s', rest⟩ := pass
        rw [scan_cons hstep] at h
        have hlen := (S.suffix hstep).length_le
        have hlt : rest.length < n := by
          rw [← hn, List.length_cons]
          omega
        cases hrest : S.scan s' rest with
        | error e => simp [hrest, Except.map] at h
        | ok toks =>
          rw [hrest] at h
          have htoks : out.toList ++ toks = before ++ tok :: after := by simpa [Except.map] using h
          cases out with
          | none =>
            have heq : toks = before ++ tok :: after := by simpa using htoks
            obtain ⟨s₁, b, ds, s₂, r, hrun, hlast, hafter⟩ := ih _ hlt (heq ▸ hrest) rfl
            exact ⟨s₁, b, ds, s₂, r, .step hstep hrun, hlast, hafter⟩
          | some x =>
            cases before with
            | nil =>
              obtain ⟨rfl, rfl⟩ : x = tok ∧ toks = after := by simpa using htoks
              exact ⟨s, a, cs, s', rest, .refl _ _, hstep, hrest⟩
            | cons y before =>
              obtain ⟨rfl, heq⟩ : x = y ∧ toks = before ++ tok :: after := by simpa using htoks
              obtain ⟨s₁, b, ds, s₂, r, hrun, hlast, hafter⟩ := ih _ hlt (heq ▸ hrest) rfl
              exact ⟨s₁, b, ds, s₂, r, .step hstep hrun, hlast, hafter⟩

/-! ### Putting text in -/

/-- A pass that leaves part of the text before `post` does not depend on `post`. -/
def Local (S : Scanner σ α τ ε) : Prop :=
  ∀ {s a cs out s' b u post}, S.step s a (cs ++ post) = .ok (out, s', b :: u ++ post) →
    ∀ post', S.step s a (cs ++ post') = .ok (out, s', b :: u ++ post')

/-- Passes up to a letter before `post` do not depend on `post`. -/
theorem Runs.congr_post (hS : S.Local) {s s' : σ} {t t' : List α} {toks : List τ}
    (h : S.Runs s t toks s' t') {pre post u : List α} {b : α} (ht : t = pre ++ post)
    (ht' : t' = b :: u ++ post) (post' : List α) :
    S.Runs s (pre ++ post') toks s' (b :: u ++ post') := by
  induction h generalizing pre with
  | refl s t =>
    have hpre : pre = b :: u := List.append_cancel_right (ht.symm.trans ht')
    rw [hpre]
    exact .refl _ _
  | @step s a cs out s₁ rest toks s₂ t hstep hrun ih =>
    obtain ⟨w, hw⟩ := hrun.suffix
    obtain ⟨v, hv⟩ := S.suffix hstep
    -- what the pass leaves still holds `b :: u` and `post`
    have hcs : cs = (v ++ w ++ b :: u) ++ post := by
      rw [← hv, ← hw, ht']
      simp
    have hpre : pre = a :: (v ++ w ++ b :: u) := by
      have happ : pre ++ post = (a :: (v ++ w ++ b :: u)) ++ post := by
        rw [← ht, hcs]
        rfl
      exact List.append_cancel_right happ
    have hrest : rest = (w ++ b :: u) ++ post := by
      rw [← hw, ht']
      simp
    obtain ⟨c, x, hx⟩ : ∃ c x, w ++ b :: u = c :: x := by
      cases w with
      | nil => exact ⟨b, u, rfl⟩
      | cons c w => exact ⟨c, w ++ b :: u, rfl⟩
    rw [hcs, hrest, hx] at hstep
    have hnext := ih hrest ht'
    rw [hx] at hnext
    rw [hpre]
    exact .step (hS hstep post') hnext

/-- Text that the loop skips, put in where a pass has stopped before it. -/
theorem scan_insert (hS : S.Local) {s s₁ s₂ : σ} {pre post u gap : List α} {toks : List τ}
    {a : α} {out : Option τ} (hrun : S.Runs s (pre ++ post) toks s₁ (a :: u ++ post))
    (hstep : S.step s₁ a (u ++ post) = .ok (out, s₂, post))
    (hgap : S.step s₁ a (u ++ (gap ++ post)) = .ok (out, s₂, gap ++ post))
    (hskip : S.Runs s₂ (gap ++ post) [] s₂ post) :
    S.scan s (pre ++ (gap ++ post)) = S.scan s (pre ++ post) := by
  have hlong := (hrun.congr_post hS rfl rfl (gap ++ post)).trans
    ((Runs.single hgap).trans hskip)
  have hshort := hrun.trans (Runs.single hstep)
  rw [hlong.scan_eq, hshort.scan_eq, List.append_nil]

end Scanner
end OpenChess
