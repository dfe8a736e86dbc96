import Mathlib.Order.Basic
import ScuDb.Foundations.Refinement

/-!
One program followed by another.

The states of the two are related at a world, which says what is known of
them by now: worlds grow while the programs run, so that what held once can
be used later. `Simulates` says that where the first program ends without a
fault the second does so too, with related results and states, unless it
gives up; giving up is the one fault the second program may have. Every
construct has a rule.
-/

namespace ScuDb.Foundations

variable {ε δ σ τ α β α' β' W : Type}

/-- Where `m` ends, `n` ends or gives up. -/
def Simulates [Preorder W] (R : W → σ → τ → Prop) (giveUp : δ) (Q : W → α → β → Prop) (w : W)
    (m : Program ε σ α) (n : Program δ τ β) : Prop :=
  ∀ s t, R w s t → ∀ a s', m s = .ok (a, s') →
    n t = .error giveUp ∨ ∃ b t' w', n t = .ok (b, t') ∧ w ≤ w' ∧ R w' s' t' ∧ Q w' a b

namespace Simulates

variable [Preorder W] {R : W → σ → τ → Prop} {giveUp : δ} {P : W → α → β → Prop}
  {Q : W → α' → β' → Prop} {w : W} {m : Program ε σ α} {n : Program δ τ β}

theorem mono {Q : W → α → β → Prop} (h : Simulates R giveUp P w m n)
    (hPQ : ∀ w' a b, w ≤ w' → P w' a b → Q w' a b) : Simulates R giveUp Q w m n := by
  intro s t hR a s' hrun
  rcases h s t hR a s' hrun with hstop | ⟨b, t', w', hrun', hle, hR', hP⟩
  · exact .inl hstop
  · exact .inr ⟨b, t', w', hrun', hle, hR', hPQ w' a b hle hP⟩

theorem pure {a : α} {b : β} (h : P w a b) :
    Simulates R giveUp P w (Pure.pure a : Program ε σ α) (Pure.pure b) := by
  rintro s t hR _ _ ⟨⟩
  exact .inr ⟨b, t, w, rfl, le_rfl, hR, h⟩

theorem bind {f : α → Program ε σ α'} {g : β → Program δ τ β'} (h : Simulates R giveUp P w m n)
    (hf : ∀ w' a b, w ≤ w' → P w' a b → Simulates R giveUp Q w' (f a) (g b)) :
    Simulates R giveUp Q w (m >>= f) (n >>= g) := by
  intro s t hR a' s' hrun
  obtain ⟨a, s₁, hm, hrest⟩ := bind_ok hrun
  have hbind : (n >>= g) t = (n t >>= fun p => g p.1 p.2) := rfl
  rw [hbind]
  -- where `n` gives up, the rest is not run
  rcases h s t hR a s₁ hm with hstop | ⟨b, t₁, w₁, hn, hle, hR₁, hP⟩
  · rw [hstop]
    exact .inl rfl
  · rw [hn]
    rcases hf w₁ a b hle hP s₁ t₁ hR₁ a' s' hrest with hstop | ⟨b', t', w', hn', hle', hR', hQ⟩
    · exact .inl hstop
    · exact .inr ⟨b', t', w', hn', hle.trans hle', hR', hQ⟩

/-- What the first program throws need not be followed. -/
theorem throw {e : ε} : Simulates R giveUp P w (throw e : Program ε σ α) n := by
  rintro s t - _ _ ⟨⟩

theorem get : Simulates R giveUp (fun w s t => R w s t) w
    (MonadState.get : Program ε σ σ) (MonadState.get : Program δ τ τ) := by
  rintro s t hR _ _ ⟨⟩
  exact .inr ⟨t, t, w, rfl, le_rfl, hR, hR⟩

theorem modify {P : W → PUnit → PUnit → Prop} {g : σ → σ} {h : τ → τ}
    (hstep : ∀ s t, R w s t → R w (g s) (h t)) (hP : P w ⟨⟩ ⟨⟩) :
    Simulates R giveUp P w (modify g : Program ε σ PUnit) (modify h : Program δ τ PUnit) := by
  rintro s t hR _ _ ⟨⟩
  exact .inr ⟨⟨⟩, h t, w, rfl, le_rfl, hstep s t hR, hP⟩

theorem ite {c c' : Prop} [Decidable c] [Decidable c'] {m' : Program ε σ α}
    {n' : Program δ τ β} (hc : c ↔ c') (h : c → Simulates R giveUp P w m n)
    (h' : ¬c → Simulates R giveUp P w m' n') :
    Simulates R giveUp P w (if c then m else m') (if c' then n else n') := by
  by_cases hcase : c
  · rw [if_pos hcase, if_pos (hc.mp hcase)]
    exact h hcase
  · rw [if_neg hcase, if_neg (mt hc.mpr hcase)]
    exact h' hcase

theorem require {c c' : Prop} [Decidable c] [Decidable c'] {e : ε} {e' : δ}
    {P : W → Unit → Unit → Prop} (hc : c → c') (hP : c → P w () ()) :
    Simulates R giveUp P w (Foundations.require c e : Program ε σ Unit)
      (Foundations.require c' e' : Program δ τ Unit) := by
  by_cases hcase : c
  · rw [Foundations.require, if_pos hcase, Foundations.require, if_pos (hc hcase)]
    exact .pure (hP hcase)
  · rw [Foundations.require, if_neg hcase]
    exact .throw

/-- The first program goes on with what a computation yields. -/
theorem ofExcept_bind {γ : Type} {x : Except ε γ} {f : γ → Program ε σ α}
    (h : ∀ c, x = .ok c → Simulates R giveUp P w (f c) n) :
    Simulates R giveUp P w (MonadExcept.ofExcept x >>= f) n := by
  cases hx : x with
  | error e => exact .throw
  | ok c => exact h c hx

/-- What the first program only looks at need not be followed. -/
theorem leaves_bind {γ : Type} {look : Program ε σ γ} {f : γ → Program ε σ α}
    (hlook : Leaves id look) (h : ∀ c, Simulates R giveUp P w (f c) n) :
    Simulates R giveUp P w (look >>= f) n := by
  intro s t hR a s' hrun
  obtain ⟨c, s₁, hfirst, hrest⟩ := bind_ok hrun
  have hsame : s₁ = s := hlook s c s₁ hfirst
  subst hsame
  exact h c s₁ t hR a s' hrest

/-- The rule for a loop over a list. -/
theorem forM {γ : Type} {f : γ → Program ε σ PUnit} {g : γ → Program δ τ PUnit} {l : List γ}
    (hstep : ∀ c ∈ l, ∀ w', Simulates R giveUp (fun _ _ _ => True) w' (f c) (g c)) :
    Simulates R giveUp (fun _ _ _ => True) w (ForM.forM l f) (ForM.forM l g) := by
  induction l generalizing w with
  | nil => exact .pure trivial
  | cons c rest ih =>
      rw [List.forM_cons, List.forM_cons]
      rw [List.forall_mem_cons] at hstep
      exact (hstep.1 w).bind fun _ _ _ _ _ => ih hstep.2

/-- Operations that are followed one by one are followed in a row. -/
theorem runAll {Op Res : Type} {step : Op → Program ε σ Res} {step' : Op → Program δ τ Res}
    {ops : List Op} (hstep : ∀ op ∈ ops, ∀ w', Simulates R giveUp (fun _ r r' => r = r') w'
      (step op) (step' op)) :
    Simulates R giveUp (fun _ rs rs' => rs = rs') w (Foundations.runAll step ops)
      (Foundations.runAll step' ops) := by
  induction ops generalizing w with
  | nil => exact .pure rfl
  | cons op ops ih =>
      rw [List.forall_mem_cons] at hstep
      refine .bind (hstep.1 w) fun w₁ r r' _ hr => ?_
      refine .bind (ih hstep.2) fun w₂ rs rs' _ hrs => .pure ?_
      rw [hr, hrs]

end Simulates

end ScuDb.Foundations
