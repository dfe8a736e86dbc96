import ScuDb.Foundations.Program

/-!
Programs that are watched.

A watched program is a program with a second component in its state, which
does not influence what is computed but lets checks be made that stop the
program. `Passes` says of a state that the watched program does there
what the program does, so that no check has failed on the way. Every
construct has a rule.
-/

namespace ScuDb.Foundations

variable {ε δ σ γ α β : Type}

/-- A program that is not looked at. -/
def unwatched (onFault : ε → δ) (m : Program ε σ α) : Program δ (σ × γ) α := fun w =>
  match m w.1 with
  | .ok (a, s) => .ok (a, s, w.2)
  | .error e => .error (onFault e)

/-- Stop unless the state is as it is to be. -/
def check (c : σ × γ → Prop) [DecidablePred c] (stop : δ) : Program δ (σ × γ) Unit := do
  let w ← get
  require (c w) stop

/-- The watched program `m'`, started in `w`, does what `m` does, and
what it ends with satisfies `Q`. -/
structure Passes (onFault : ε → δ) (m' : Program δ (σ × γ) α) (m : Program ε σ α)
    (Q : α → σ × γ → Prop) (w : σ × γ) : Prop where
  ok : ∀ a s, m w.1 = .ok (a, s) → ∃ g, m' w = .ok (a, s, g) ∧ Q a (s, g)
  error : ∀ e, m w.1 = .error e → m' w = .error (onFault e)

namespace Passes

variable {onFault : ε → δ} {m' : Program δ (σ × γ) α} {m : Program ε σ α}
  {Q R : α → σ × γ → Prop} {w : σ × γ}

/-- No check has failed. -/
theorem map_eq (h : Passes onFault m' m Q w) :
    (m' w).map (fun r => (r.1, r.2.1)) = (m w.1).mapError onFault := by
  cases hm : m w.1 with
  | error e =>
      rw [h.error e hm]
      rfl
  | ok r =>
      obtain ⟨g, hrun, -⟩ := h.ok r.1 r.2 hm
      rw [hrun]
      rfl

theorem mono (h : Passes onFault m' m Q w) (hQR : ∀ a w', Q a w' → R a w') :
    Passes onFault m' m R w where
  ok a s hm := by
    obtain ⟨g, hrun, hq⟩ := h.ok a s hm
    exact ⟨g, hrun, hQR a _ hq⟩
  error := h.error

theorem pure {a : α} (hq : Q a w) : Passes onFault (Pure.pure a) (Pure.pure a) Q w where
  ok b s hm := by
    cases hm
    exact ⟨w.2, rfl, hq⟩
  error e hm := by cases hm

/-- What is not looked at is followed. -/
theorem unwatched (h : wlp m (fun a s => Q a (s, w.2)) w.1) :
    Passes onFault (unwatched onFault m) m Q w where
  ok a s hm := ⟨w.2, by rw [Foundations.unwatched, hm], h a s hm⟩
  error e hm := by rw [Foundations.unwatched, hm]

theorem bind {P : β → σ × γ → Prop} {f' : α → Program δ (σ × γ) β} {f : α → Program ε σ β}
    (h : Passes onFault m' m Q w) (hf : ∀ a w', Q a w' → Passes onFault (f' a) (f a) P w') :
    Passes onFault (m' >>= f') (m >>= f) P w := by
  have hbind : (m >>= f) w.1 = (m w.1 >>= fun p => f p.1 p.2) := rfl
  have hbind' : (m' >>= f') w = (m' w >>= fun p => f' p.1 p.2) := rfl
  cases hm : m w.1 with
  | error e =>
      rw [hm] at hbind
      rw [h.error e hm] at hbind'
      refine ⟨fun b s hrun => ?_, fun e' hrun => ?_⟩
      · rw [hbind] at hrun
        cases hrun
      · rw [hbind] at hrun
        cases hrun
        exact hbind'
  | ok r =>
      obtain ⟨g, hrun, hq⟩ := h.ok r.1 r.2 hm
      have hnext := hf r.1 (r.2, g) hq
      rw [hm] at hbind
      rw [hrun] at hbind'
      refine ⟨fun b s hend => ?_, fun e hend => ?_⟩
      · obtain ⟨g', hrun', hp⟩ := hnext.ok b s (hbind.symm.trans hend)
        exact ⟨g', hbind'.trans hrun', hp⟩
      · exact hbind'.trans (hnext.error e (hbind.symm.trans hend))

/-- A check that does not fail. -/
theorem check {c : σ × γ → Prop} [DecidablePred c] {stop : δ} (hc : c w)
    (h : Passes onFault m' m Q w) :
    Passes onFault (Foundations.check c stop >>= fun _ => m') m Q w := by
  have hrun : (Foundations.check c stop >>= fun _ => m') w = m' w := by
    show (require (c w) stop >>= fun _ => m') w = m' w
    rw [require, if_pos hc]
    rfl
  constructor
  · rw [hrun]
    exact h.ok
  · rw [hrun]
    exact h.error

theorem ite {c : Prop} [Decidable c] {n' : Program δ (σ × γ) α} {n : Program ε σ α}
    (h : c → Passes onFault m' m Q w) (hn : ¬c → Passes onFault n' n Q w) :
    Passes onFault (if c then m' else n') (if c then m else n) Q w := by
  by_cases hc : c
  · rw [if_pos hc, if_pos hc]
    exact h hc
  · rw [if_neg hc, if_neg hc]
    exact hn hc

/-- The watched program may look at the state first. -/
theorem look {k : σ → Program δ (σ × γ) α} (h : Passes onFault (k w.1) m Q w) :
    Passes onFault (Foundations.unwatched onFault get >>= k) m Q w :=
  ⟨h.ok, h.error⟩

/-- The watched program may write something down at the end. -/
theorem note {n' : Program δ (σ × γ) PUnit} {n : Program ε σ PUnit} {f : σ × γ → γ}
    {P : PUnit → σ × γ → Prop}
    (h : Passes onFault n' n (fun a w' => P a (w'.1, f w')) w) :
    Passes onFault (n' >>= fun _ => modify fun w => (w.1, f w)) n P w := by
  have hbind : (n' >>= fun _ => modify fun w => (w.1, f w)) w =
      (n' w >>= fun p => .ok (PUnit.unit, p.2.1, f p.2)) := rfl
  refine ⟨fun a s hm => ?_, fun e hm => ?_⟩
  · obtain ⟨g, hrun, hp⟩ := h.ok a s hm
    exact ⟨f (s, g), by rw [hbind, hrun]; rfl, hp⟩
  · rw [hbind, h.error e hm]
    rfl

/-- The rule for a loop over a list whose rounds all keep one invariant. -/
theorem forM {f' : α → Program δ (σ × γ) PUnit} {f : α → Program ε σ PUnit} {I : σ × γ → Prop}
    {l : List α}
    (hstep : ∀ a ∈ l, ∀ w, I w → Passes onFault (f' a) (f a) (fun _ w' => I w') w) (hI : I w) :
    Passes onFault (forM l f') (forM l f) (fun _ w' => I w') w := by
  induction l generalizing w with
  | nil => exact .pure hI
  | cons a rest ih =>
      rw [List.forM_cons, List.forM_cons]
      rw [List.forall_mem_cons] at hstep
      exact (hstep.1 w hI).bind fun _ _ hI' => ih hstep.2 hI'

end Passes

end ScuDb.Foundations
