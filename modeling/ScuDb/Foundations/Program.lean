import Mathlib.Tactic.Basic

/-!
Programs over an explicit state that may stop with a fault, and the
weakest-precondition rules they are proved with.

A `Program ε σ α` maps a state to a result and a next state, or to a
fault of type `ε`. `wp m Q s` says that `m`, started in `s`, does not
fault and ends in a result and a state that satisfy `Q`: one statement
carries both the absence of faults and what was computed. Every
construct has a rule, stated as an equivalence and tagged `simp`, so
that `simp` walks through straight-line code and leaves the facts about
the states; a call is passed with `wp_mono` and the callee's own
specification.
-/

namespace ScuDb.Foundations

variable {ε σ α β : Type}

/-- A computation that reads and writes a state and may stop with a fault. -/
abbrev Program (ε σ α : Type) := StateT σ (Except ε) α

/-- `m` started in `s` ends without a fault, in a result and a state
that satisfy `Q`. -/
def wp (m : Program ε σ α) (Q : α → σ → Prop) (s : σ) : Prop :=
  ∃ a s', m s = .ok (a, s') ∧ Q a s'

/-- Stop with the fault `e` unless `c` holds. -/
def require {m : Type → Type} [Monad m] [MonadExcept ε m] (c : Prop) [Decidable c] (e : ε) :
    m Unit :=
  if c then pure () else throw e

theorem wp_mono {m : Program ε σ α} {Q R : α → σ → Prop} {s : σ}
    (h : wp m Q s) (hQR : ∀ a s', Q a s' → R a s') : wp m R s := by
  obtain ⟨a, s', hrun, hq⟩ := h
  exact ⟨a, s', hrun, hQR a s' hq⟩

@[simp] theorem wp_pure {a : α} {Q : α → σ → Prop} {s : σ} :
    wp (pure a : Program ε σ α) Q s ↔ Q a s := by
  constructor
  · rintro ⟨_, _, hrun, hq⟩
    cases hrun
    exact hq
  · intro hq
    exact ⟨a, s, rfl, hq⟩

@[simp] theorem wp_bind {m : Program ε σ α} {f : α → Program ε σ β}
    {Q : β → σ → Prop} {s : σ} :
    wp (m >>= f) Q s ↔ wp m (fun a s' => wp (f a) Q s') s := by
  have hbind : (m >>= f) s = (m s >>= fun p => f p.1 p.2) := rfl
  constructor
  · rintro ⟨b, s₂, hrun, hq⟩
    rw [hbind] at hrun
    cases hm : m s with
    | error e => rw [hm] at hrun; cases hrun
    | ok p =>
        rw [hm] at hrun
        exact ⟨p.1, p.2, hm, b, s₂, hrun, hq⟩
  · rintro ⟨a, s₁, hm, b, s₂, hf, hq⟩
    refine ⟨b, s₂, ?_, hq⟩
    rw [hbind, hm]
    exact hf

@[simp] theorem wp_map {m : Program ε σ α} {f : α → β} {Q : β → σ → Prop} {s : σ} :
    wp (f <$> m) Q s ↔ wp m (fun a s' => Q (f a) s') s := by
  rw [← bind_pure_comp, wp_bind]
  simp

@[simp] theorem wp_get {Q : σ → σ → Prop} {s : σ} :
    wp (get : Program ε σ σ) Q s ↔ Q s s := by
  constructor
  · rintro ⟨_, _, hrun, hq⟩
    cases hrun
    exact hq
  · intro hq
    exact ⟨s, s, rfl, hq⟩

@[simp] theorem wp_set {t : σ} {Q : PUnit → σ → Prop} {s : σ} :
    wp (set t : Program ε σ PUnit) Q s ↔ Q ⟨⟩ t := by
  constructor
  · rintro ⟨_, _, hrun, hq⟩
    cases hrun
    exact hq
  · intro hq
    exact ⟨⟨⟩, t, rfl, hq⟩

@[simp] theorem wp_modify {g : σ → σ} {Q : PUnit → σ → Prop} {s : σ} :
    wp (modify g : Program ε σ PUnit) Q s ↔ Q ⟨⟩ (g s) := by
  constructor
  · rintro ⟨_, _, hrun, hq⟩
    cases hrun
    exact hq
  · intro hq
    exact ⟨⟨⟩, g s, rfl, hq⟩

@[simp] theorem wp_throw {e : ε} {Q : α → σ → Prop} {s : σ} :
    wp (throw e : Program ε σ α) Q s ↔ False := by
  constructor
  · rintro ⟨_, _, hrun, -⟩
    cases hrun
  · exact False.elim

@[simp] theorem wp_ite {c : Prop} [Decidable c] {m n : Program ε σ α}
    {Q : α → σ → Prop} {s : σ} :
    wp (if c then m else n) Q s ↔ (c → wp m Q s) ∧ (¬c → wp n Q s) := by
  by_cases hc : c <;> simp [hc]

@[simp] theorem wp_require {c : Prop} [Decidable c] {e : ε}
    {Q : Unit → σ → Prop} {s : σ} :
    wp (require c e : Program ε σ Unit) Q s ↔ c ∧ Q () s := by
  by_cases hc : c <;> simp [require, hc]

@[simp] theorem wp_ofExcept {x : Except ε α} {Q : α → σ → Prop} {s : σ} :
    wp (MonadExcept.ofExcept x : Program ε σ α) Q s ↔ ∃ a, x = .ok a ∧ Q a s := by
  cases x with
  | error e => simp [MonadExcept.ofExcept]
  | ok a => simp [MonadExcept.ofExcept]

/-- What a program computes is determined: two postconditions of one
run hold together. -/
theorem wp_and {m : Program ε σ α} {Q R : α → σ → Prop} {s : σ}
    (hq : wp m Q s) (hr : wp m R s) : wp m (fun a s' => Q a s' ∧ R a s') s := by
  obtain ⟨a, s', hrun, hqa⟩ := hq
  obtain ⟨b, t', hrun', hrb⟩ := hr
  rw [hrun] at hrun'
  cases hrun'
  exact ⟨a, s', hrun, hqa, hrb⟩

/-- A run that has ended has the result and the state it has to have. -/
theorem wp_of_ok {m : Program ε σ α} {Q : α → σ → Prop} {a : α} {s s' : σ} (h : wp m Q s)
    (hrun : m s = .ok (a, s')) : Q a s' := by
  obtain ⟨b, t', hrun', hq⟩ := h
  rw [hrun] at hrun'
  cases hrun'
  exact hq

/-- A run that has ended has ended its first part. -/
theorem bind_ok {m : Program ε σ α} {f : α → Program ε σ β} {b : β} {s s' : σ}
    (hrun : (m >>= f) s = .ok (b, s')) :
    ∃ a s₁, m s = .ok (a, s₁) ∧ f a s₁ = .ok (b, s') := by
  have hwp : wp (m >>= f) (fun x y => x = b ∧ y = s') s := ⟨b, s', hrun, rfl, rfl⟩
  rw [wp_bind] at hwp
  obtain ⟨a, s₁, hm, b', s₂, hf, rfl, rfl⟩ := hwp
  exact ⟨a, s₁, hm, hf⟩

/-! ### Partial correctness -/

/-- If `m` started in `s` ends without a fault, then in a result and a
state that satisfy `Q`. -/
def wlp (m : Program ε σ α) (Q : α → σ → Prop) (s : σ) : Prop :=
  ∀ a s', m s = .ok (a, s') → Q a s'

theorem wlp_mono {m : Program ε σ α} {Q R : α → σ → Prop} {s : σ} (h : wlp m Q s)
    (hQR : ∀ a s', Q a s' → R a s') : wlp m R s :=
  fun a s' hrun => hQR a s' (h a s' hrun)

/-- A run without a fault satisfies what is known of every run that ends. -/
theorem wp_and_wlp {m : Program ε σ α} {Q R : α → σ → Prop} {s : σ} (hq : wp m Q s)
    (hr : wlp m R s) : wp m (fun a s' => Q a s' ∧ R a s') s := by
  obtain ⟨a, s', hrun, hqa⟩ := hq
  exact ⟨a, s', hrun, hqa, hr a s' hrun⟩

@[simp] theorem wlp_pure {a : α} {Q : α → σ → Prop} {s : σ} :
    wlp (pure a : Program ε σ α) Q s ↔ Q a s := by
  refine ⟨fun h => h a s rfl, ?_⟩
  rintro hq _ _ ⟨⟩
  exact hq

@[simp] theorem wlp_bind {m : Program ε σ α} {f : α → Program ε σ β}
    {Q : β → σ → Prop} {s : σ} :
    wlp (m >>= f) Q s ↔ wlp m (fun a s' => wlp (f a) Q s') s := by
  refine ⟨fun h a s₁ hm b s₂ hf => h b s₂ ?_, fun h b s₂ hrun => ?_⟩
  · change (m s >>= fun p => f p.1 p.2) = _
    rw [hm]
    exact hf
  · obtain ⟨a, s₁, hm, hf⟩ := bind_ok hrun
    exact h a s₁ hm b s₂ hf

@[simp] theorem wlp_map {m : Program ε σ α} {f : α → β} {Q : β → σ → Prop} {s : σ} :
    wlp (f <$> m) Q s ↔ wlp m (fun a s' => Q (f a) s') s := by
  rw [← bind_pure_comp, wlp_bind]
  simp

@[simp] theorem wlp_get {Q : σ → σ → Prop} {s : σ} :
    wlp (get : Program ε σ σ) Q s ↔ Q s s := by
  refine ⟨fun h => h s s rfl, ?_⟩
  rintro hq _ _ ⟨⟩
  exact hq

@[simp] theorem wlp_set {t : σ} {Q : PUnit → σ → Prop} {s : σ} :
    wlp (set t : Program ε σ PUnit) Q s ↔ Q ⟨⟩ t := by
  refine ⟨fun h => h ⟨⟩ t rfl, ?_⟩
  rintro hq _ _ ⟨⟩
  exact hq

@[simp] theorem wlp_modify {g : σ → σ} {Q : PUnit → σ → Prop} {s : σ} :
    wlp (modify g : Program ε σ PUnit) Q s ↔ Q ⟨⟩ (g s) := by
  refine ⟨fun h => h ⟨⟩ (g s) rfl, ?_⟩
  rintro hq _ _ ⟨⟩
  exact hq

@[simp] theorem wlp_throw {e : ε} {Q : α → σ → Prop} {s : σ} :
    wlp (throw e : Program ε σ α) Q s ↔ True := by
  refine ⟨fun _ => trivial, ?_⟩
  rintro - _ _ ⟨⟩

@[simp] theorem wlp_ite {c : Prop} [Decidable c] {m n : Program ε σ α}
    {Q : α → σ → Prop} {s : σ} :
    wlp (if c then m else n) Q s ↔ (c → wlp m Q s) ∧ (¬c → wlp n Q s) := by
  by_cases hc : c <;> simp [hc]

@[simp] theorem wlp_require {c : Prop} [Decidable c] {e : ε}
    {Q : Unit → σ → Prop} {s : σ} :
    wlp (require c e : Program ε σ Unit) Q s ↔ (c → Q () s) := by
  by_cases hc : c <;> simp [require, hc]

@[simp] theorem wlp_ofExcept {x : Except ε α} {Q : α → σ → Prop} {s : σ} :
    wlp (MonadExcept.ofExcept x : Program ε σ α) Q s ↔ ∀ a, x = .ok a → Q a s := by
  cases x with
  | error e => simp [MonadExcept.ofExcept]
  | ok a => simp [MonadExcept.ofExcept]

/-- The rule for a loop over a list whose rounds all keep one invariant. -/
theorem wlp_forM {f : α → Program ε σ PUnit} {I : σ → Prop} {l : List α}
    (hstep : ∀ a ∈ l, ∀ s, I s → wlp (f a) (fun _ s' => I s') s) {s : σ} (hI : I s) :
    wlp (forM l f) (fun _ s' => I s') s := by
  induction l generalizing s with
  | nil =>
      rw [List.forM_nil, wlp_pure]
      exact hI
  | cons a rest ih =>
      rw [List.forM_cons, wlp_bind]
      refine wlp_mono (hstep a List.mem_cons_self s hI) fun _ s' hI' => ?_
      exact ih (fun b hb => hstep b (List.mem_cons_of_mem a hb)) hI'

/-! ### What a program does not touch -/

/-- No run of the program changes what `f` shows of the state. -/
def Leaves {γ : Type} (f : σ → γ) (m : Program ε σ α) : Prop :=
  ∀ s, wlp m (fun _ s' => f s' = f s) s

namespace Leaves

variable {γ : Type} {f : σ → γ}

theorem pure (a : α) : Leaves f (Pure.pure a : Program ε σ α) :=
  fun _ => wlp_pure.mpr rfl

theorem bind {m : Program ε σ α} {k : α → Program ε σ β} (hm : Leaves f m)
    (hk : ∀ a, Leaves f (k a)) : Leaves f (m >>= k) := by
  intro s
  rw [wlp_bind]
  refine wlp_mono (hm s) fun a s₁ h₁ => wlp_mono (hk a s₁) fun _ s₂ h₂ => ?_
  rw [h₂, h₁]

theorem ite {c : Prop} [Decidable c] {m n : Program ε σ α} (hm : Leaves f m)
    (hn : Leaves f n) : Leaves f (if c then m else n) := by
  split
  · exact hm
  · exact hn

theorem get : Leaves f (MonadState.get : Program ε σ σ) :=
  fun _ => wlp_get.mpr rfl

theorem of_modify {g : σ → σ} (h : ∀ s, f (g s) = f s) :
    Leaves f (modify g : Program ε σ PUnit) :=
  fun s => wlp_modify.mpr (h s)

theorem ofExcept (x : Except ε α) : Leaves f (MonadExcept.ofExcept x : Program ε σ α) :=
  fun _ => wlp_ofExcept.mpr fun _ _ => rfl

theorem throw (e : ε) : Leaves f (MonadExcept.throw e : Program ε σ α) :=
  fun _ => wlp_throw.mpr trivial

theorem require {c : Prop} [Decidable c] {e : ε} :
    Leaves f (Foundations.require c e : Program ε σ Unit) :=
  fun _ => wlp_require.mpr fun _ => rfl

theorem forM {g : α → Program ε σ PUnit} {l : List α} (h : ∀ a ∈ l, Leaves f (g a)) :
    Leaves f (ForM.forM l g) := by
  intro s
  refine wlp_forM (I := fun s' => f s' = f s) (fun a ha s₁ h₁ => ?_) rfl
  exact wlp_mono (h a ha s₁) fun _ s₂ h₂ => h₂.trans h₁

end Leaves

/-! ### Programs with additional tests -/

/-- Whatever `m'` ends in, `m` ends in too: `m'` is `m` with tests that
may stop it earlier. -/
def Guards (m' m : Program ε σ α) : Prop :=
  ∀ s a s', m' s = .ok (a, s') → m s = .ok (a, s')

namespace Guards

theorem refl (m : Program ε σ α) : Guards m m := fun _ _ _ hrun => hrun

theorem bind {m' m : Program ε σ α} {k' k : α → Program ε σ β} (hm : Guards m' m)
    (hk : ∀ a, Guards (k' a) (k a)) : Guards (m' >>= k') (m >>= k) := by
  intro s b s' hrun
  obtain ⟨a, s₁, hfirst, hrest⟩ := bind_ok hrun
  change (m s >>= fun p => k p.1 p.2) = _
  rw [hm s a s₁ hfirst]
  exact hk a s₁ b s' hrest

theorem ite {c : Prop} [Decidable c] {m' m n' n : Program ε σ α} (hm : Guards m' m)
    (hn : Guards n' n) : Guards (if c then m' else n') (if c then m else n) := by
  split
  · exact hm
  · exact hn

/-- A test that leaves the state alone may come first. -/
theorem after {test : Program ε σ Unit} (htest : Leaves id test) (m : Program ε σ α) :
    Guards (test >>= fun _ => m) m := by
  intro s a s' hrun
  obtain ⟨_, s₁, hfirst, hrest⟩ := bind_ok hrun
  rwa [show s₁ = s from htest s _ _ hfirst] at hrest

end Guards

/-- A computation that has succeeded has succeeded in its first part. -/
theorem except_bind_ok {x : Except ε α} {f : α → Except ε β} {b : β} (h : (x >>= f) = .ok b) :
    ∃ a, x = .ok a ∧ f a = .ok b := by
  cases x with
  | error e => cases h
  | ok a => exact ⟨a, rfl, h⟩

theorem exists_ok_of_any {x : Except ε α} {f : α → Bool} (h : x.toOption.any f = true) :
    ∃ a, x = .ok a ∧ f a = true := by
  cases x with
  | error e => cases h
  | ok a => exact ⟨a, rfl, h⟩

theorem exists_ok {x : Except ε α} (h : x.toOption.isSome = true) : ∃ a, x = .ok a := by
  cases x with
  | error e => cases h
  | ok a => exact ⟨a, rfl⟩

end ScuDb.Foundations
