import ScuDb.Foundations.Program

/-!
Computations that ask an environment for something and may be refused.

An `Asking` computation is a program that also has an environment, which
answers its requests and changes with each. When a request is refused,
the computation stops. The state is then gone, but for what the error
carries; the environment is not, and remembers that it has refused.

`Realizes` relates such a computation to a program that is refused
nothing: where nothing is refused, the two compute the same, and where
something is, the computation has stopped with an error of a given kind.
Every construct has a rule, so that the proof for a function is read off
its text.
-/

namespace ScuDb.Foundations

variable {ε δ ρ σ α β : Type}

/-- An environment, and whether it has refused a request. -/
structure Supplier (ρ : Type) where
  env : ρ
  refused : Bool

/-- A computation over a state and an environment. -/
def Asking (ε ρ σ α : Type) : Type := σ → Supplier ρ → Except ε (α × σ) × Supplier ρ

namespace Asking

instance : Monad (Asking ε ρ σ) where
  pure a := fun s p => (.ok (a, s), p)
  bind m f := fun s p =>
    match m s p with
    | (.ok (a, s), p) => f a s p
    | (.error e, p) => (.error e, p)

/-- A program that asks for nothing. -/
def lift (onFault : δ → ε) (m : Program δ σ α) : Asking ε ρ σ α := fun s p =>
  ((m s).mapError onFault, p)

/-- A request. The computation stops with `onRefusal` when it is refused. -/
def ask (answer : σ → ρ → Option ρ) (onRefusal : ε) : Asking ε ρ σ Unit := fun s p =>
  match answer s p.env with
  | none => (.error onRefusal, { p with refused := true })
  | some env => (.ok ((), s), { p with env := env })

/-- The computation, with its errors renamed. -/
def renamed (rename : ε → ε) (m : Asking ε ρ σ α) : Asking ε ρ σ α := fun s p =>
  ((m s p).1.mapError rename, (m s p).2)

section

variable {m : Asking ε ρ σ α} {f : α → Asking ε ρ σ β} {s s' : σ} {p p' : Supplier ρ} {a : α}
    {e : ε}

theorem bind_of_ok (h : m s p = (.ok (a, s'), p')) : (m >>= f) s p = f a s' p' := by
  simp only [Bind.bind, h]

theorem bind_of_error (h : m s p = (.error e, p')) : (m >>= f) s p = (.error e, p') := by
  simp only [Bind.bind, h]

end

/-- The computation is the program, unless a request is refused; then it
stops with an error that satisfies `stops`. -/
def Realizes (onFault : δ → ε) (stops : ε → Prop) (m' : Asking ε ρ σ α) (m : Program δ σ α) :
    Prop :=
  ∀ s p, p.refused = false →
    ((m' s p).2.refused = false → (m' s p).1 = (m s).mapError onFault) ∧
    ((m' s p).2.refused = true → ∃ e, (m' s p).1 = .error e ∧ stops e)

namespace Realizes

variable {onFault : δ → ε} {stops : ε → Prop} {m' : Asking ε ρ σ α} {m : Program δ σ α}

theorem lift (m : Program δ σ α) :
    Realizes onFault stops (Asking.lift onFault m : Asking ε ρ σ α) m := by
  intro s p hp
  refine ⟨fun _ => rfl, fun hrefused => ?_⟩
  rw [show (Asking.lift onFault m s p).2.refused = false from hp] at hrefused
  cases hrefused

theorem pure (a : α) :
    Realizes onFault stops (Pure.pure a : Asking ε ρ σ α) (Pure.pure a : Program δ σ α) :=
  lift (Pure.pure a)

/-- What follows goes on from where the two agree. -/
theorem bind (h : Realizes onFault stops m' m) {f' : α → Asking ε ρ σ β}
    {f : α → Program δ σ β} (hf : ∀ a, Realizes onFault stops (f' a) (f a)) :
    Realizes onFault stops (m' >>= f') (m >>= f) := by
  intro s p hp
  obtain ⟨hagree, hstop⟩ := h s p hp
  have hbind : (m >>= f) s = (m s >>= fun x => f x.1 x.2) := rfl
  obtain ⟨⟨r, p'⟩, hm'⟩ : ∃ x, m' s p = x := ⟨_, rfl⟩
  simp only [hm'] at hagree hstop
  cases hrefused : p'.refused with
  | true =>
      -- the first part has stopped, and the second is not reached
      obtain ⟨e, rfl, he⟩ := hstop hrefused
      rw [bind_of_error hm']
      refine ⟨fun hnot => ?_, fun _ => ⟨e, rfl, he⟩⟩
      rw [hrefused] at hnot
      cases hnot
  | false =>
      obtain rfl := hagree hrefused
      rw [hbind]
      cases hm : m s with
      | error e =>
          rw [hm] at hm'
          rw [bind_of_error hm']
          refine ⟨fun _ => rfl, fun hyes => ?_⟩
          rw [hrefused] at hyes
          cases hyes
      | ok x =>
          rw [hm] at hm'
          rw [bind_of_ok hm']
          exact hf x.1 x.2 p' hrefused

/-- A request before a program. -/
theorem ask (answer : σ → ρ → Option ρ) {onRefusal : ε} (hstops : stops onRefusal)
    (h : Realizes onFault stops m' m) :
    Realizes onFault stops (Asking.ask answer onRefusal >>= fun _ => m') m := by
  intro s p hp
  cases hanswer : answer s p.env with
  | none =>
      have hask : (Asking.ask answer onRefusal : Asking ε ρ σ Unit) s p =
          (.error onRefusal, { p with refused := true }) := by rw [Asking.ask, hanswer]
      rw [bind_of_error hask]
      exact ⟨fun hnot => (by cases hnot), fun _ => ⟨onRefusal, rfl, hstops⟩⟩
  | some env =>
      have hask : (Asking.ask answer onRefusal : Asking ε ρ σ Unit) s p =
          (.ok ((), s), { p with env := env }) := by rw [Asking.ask, hanswer]
      rw [bind_of_ok hask]
      exact h s { p with env := env } hp

/-- The errors of the program are left as they are. -/
theorem renamed {rename : ε → ε} (hfault : ∀ e, rename (onFault e) = onFault e)
    (hstops : ∀ e, stops e → stops (rename e)) (h : Realizes onFault stops m' m) :
    Realizes onFault stops (Asking.renamed rename m') m := by
  intro s p hp
  obtain ⟨hagree, hstop⟩ := h s p hp
  refine ⟨fun hserved => ?_, fun hrefused => ?_⟩
  · change ((m' s p).1).mapError rename = _
    rw [hagree hserved]
    cases m s with
    | error e => exact congrArg Except.error (hfault e)
    | ok r => rfl
  · obtain ⟨e, he, hse⟩ := hstop hrefused
    refine ⟨rename e, ?_, hstops e hse⟩
    change ((m' s p).1).mapError rename = _
    rw [he]
    rfl

end Realizes

end Asking

end ScuDb.Foundations
