import ScuDb.Foundations.Program

/-!
Runs of a machine whose operations are programs, and refinement of an
abstract machine by it.

The concrete machine executes operations `step op : Program ε σ Res`;
the abstract one is a total function `spec op : τ → Res × τ`. `Refines`
is what has to be shown of one operation: from related states, the
operation does not fault, returns what the abstract one returns, and
leaves related states. `Refines.run` is the induction over a whole run,
done once. The condition under which an operation may be issued may
depend on the abstract state before it.
-/

namespace ScuDb.Foundations

variable {ε σ τ Op Res : Type}

/-- Execute a list of operations in order and collect their results. -/
def runAll (step : Op → Program ε σ Res) : List Op → Program ε σ (List Res)
  | [] => pure []
  | op :: ops => do
      let r ← step op
      let rs ← runAll step ops
      pure (r :: rs)

/-- The results and the last state of the abstract machine. -/
def specAll (spec : Op → τ → Res × τ) : List Op → τ → List Res × τ
  | [], t => ([], t)
  | op :: ops, t =>
      let (r, t₁) := spec op t
      let (rs, t₂) := specAll spec ops t₁
      (r :: rs, t₂)

/-- Every operation of the list may be issued when its turn comes. -/
def Admissible (ok : Op → τ → Prop) (spec : Op → τ → Res × τ) : List Op → τ → Prop
  | [], _ => True
  | op :: ops, t => ok op t ∧ Admissible ok spec ops (spec op t).2

/-- One operation of the concrete machine simulates the abstract one. -/
def Refines (R : σ → τ → Prop) (ok : Op → τ → Prop) (step : Op → Program ε σ Res)
    (spec : Op → τ → Res × τ) : Prop :=
  ∀ op s t, R s t → ok op t →
    wp (step op) (fun r s' => r = (spec op t).1 ∧ R s' (spec op t).2) s

@[simp] theorem specAll_nil (spec : Op → τ → Res × τ) (t : τ) :
    specAll spec [] t = ([], t) := rfl

theorem specAll_cons (spec : Op → τ → Res × τ) (op : Op) (ops : List Op) (t : τ) :
    specAll spec (op :: ops) t =
      ((spec op t).1 :: (specAll spec ops (spec op t).2).1,
        (specAll spec ops (spec op t).2).2) := rfl

theorem specAll_append (spec : Op → τ → Res × τ) (ops ops' : List Op) (t : τ) :
    (specAll spec (ops ++ ops') t).2 = (specAll spec ops' (specAll spec ops t).2).2 := by
  induction ops generalizing t with
  | nil => rfl
  | cons op ops ih =>
      rw [List.cons_append, specAll_cons, specAll_cons]
      exact ih (spec op t).2

theorem specAll_concat (spec : Op → τ → Res × τ) (ops : List Op) (op : Op) (t : τ) :
    specAll spec (ops ++ [op]) t =
      ((specAll spec ops t).1 ++ [(spec op (specAll spec ops t).2).1],
        (spec op (specAll spec ops t).2).2) := by
  induction ops generalizing t with
  | nil => rfl
  | cons first ops ih =>
      rw [List.cons_append, specAll_cons, specAll_cons, ih]
      rfl

/-- A list of operations may be issued when each of them may be in the
state the ones before it lead to. -/
theorem admissible_iff {ok : Op → τ → Prop} {spec : Op → τ → Res × τ} {ops : List Op} {t : τ} :
    Admissible ok spec ops t ↔
      ∀ before op after, ops = before ++ op :: after → ok op (specAll spec before t).2 := by
  induction ops generalizing t with
  | nil => simp [Admissible]
  | cons op ops ih =>
      rw [Admissible, ih]
      constructor
      · rintro ⟨hop, hrest⟩ before op' after heq
        cases before with
        | nil =>
            cases heq
            exact hop
        | cons op'' before =>
            cases heq
            exact hrest before op' after rfl
      · intro h
        refine ⟨h [] op ops rfl, fun before op' after heq => ?_⟩
        exact h (op :: before) op' after (by rw [heq, List.cons_append])

theorem admissible_of_forall {ok : Op → τ → Prop} {spec : Op → τ → Res × τ}
    {ops : List Op} (h : ∀ op ∈ ops, ∀ t, ok op t) (t : τ) : Admissible ok spec ops t := by
  induction ops generalizing t with
  | nil => trivial
  | cons op ops ih =>
      exact ⟨h op List.mem_cons_self t,
        ih (fun op' hop' => h op' (List.mem_cons_of_mem op hop')) _⟩

/-- A run of two lists is a run of the first and then of the second. -/
theorem runAll_append (step : Op → Program ε σ Res) (ops ops' : List Op) :
    runAll step (ops ++ ops') = (do
      let rs ← runAll step ops
      let rs' ← runAll step ops'
      pure (rs ++ rs')) := by
  induction ops with
  | nil => simp [runAll]
  | cons op ops ih => simp [runAll, ih]

theorem runAll_concat {step : Op → Program ε σ Res} {ops : List Op} {op : Op} {s s₁ s₂ : σ}
    {rs : List Res} {r : Res} (hrun : runAll step ops s = .ok (rs, s₁))
    (hop : step op s₁ = .ok (r, s₂)) :
    runAll step (ops ++ [op]) s = .ok (rs ++ [r], s₂) := by
  have hbind : runAll step (ops ++ [op]) s = (runAll step ops s >>= fun p =>
      (step op p.2 >>= fun q => pure (p.1 ++ [q.1], q.2))) := by
    rw [runAll_append]
    simp only [runAll, bind_assoc, pure_bind]
    rfl
  rw [hbind, hrun]
  change (step op s₁ >>= fun q => pure (rs ++ [q.1], q.2)) = _
  rw [hop]
  rfl

/-- A run of operations with tests is a run of the operations. -/
theorem Guards.runAll {step' step : Op → Program ε σ Res} (h : ∀ op, Guards (step' op) (step op))
    (ops : List Op) : Guards (Foundations.runAll step' ops) (Foundations.runAll step ops) := by
  induction ops with
  | nil => exact Guards.refl _
  | cons op ops ih =>
      exact (h op).bind fun r => ih.bind fun rs => .refl _

/-- A run of the concrete machine returns what the abstract machine
returns and ends in a related state. -/
theorem Refines.run {R : σ → τ → Prop} {ok : Op → τ → Prop}
    {step : Op → Program ε σ Res} {spec : Op → τ → Res × τ}
    (h : Refines R ok step spec) {ops : List Op} {s : σ} {t : τ} (hR : R s t)
    (hok : Admissible ok spec ops t) :
    wp (runAll step ops)
      (fun rs s' => rs = (specAll spec ops t).1 ∧ R s' (specAll spec ops t).2) s := by
  induction ops generalizing s t with
  | nil => simpa [runAll] using hR
  | cons op ops ih =>
      rw [runAll, wp_bind]
      refine wp_mono (h op s t hR hok.1) ?_
      rintro r s₁ ⟨rfl, hR₁⟩
      rw [wp_bind]
      refine wp_mono (ih hR₁ hok.2) ?_
      rintro rs s₂ ⟨rfl, hR₂⟩
      simpa [specAll_cons] using hR₂

theorem Admissible.and {ok ok' : Op → τ → Prop} {spec : Op → τ → Res × τ} {ops : List Op}
    {t : τ} (h : Admissible ok spec ops t) (h' : Admissible ok' spec ops t) :
    Admissible (fun op t => ok op t ∧ ok' op t) spec ops t := by
  induction ops generalizing t with
  | nil => trivial
  | cons op ops ih => exact ⟨⟨h.1, h'.1⟩, ih h.2 h'.2⟩

/-! ### Operations that need not end -/

/-- One operation of the concrete machine, where it ends without a fault,
simulates the abstract one. -/
def Follows (R : σ → τ → Prop) (ok : Op → τ → Prop) (step : Op → Program ε σ Res)
    (spec : Op → τ → Res × τ) : Prop :=
  ∀ op s t r s', R s t → ok op t → step op s = .ok (r, s') →
    r = (spec op t).1 ∧ R s' (spec op t).2

/-- A run that ends is a run of its first operation and of the others. -/
theorem runAll_cons_ok {step : Op → Program ε σ Res} {op : Op} {ops : List Op} {s s' : σ}
    {rs : List Res} (hrun : runAll step (op :: ops) s = .ok (rs, s')) :
    ∃ r s₁ rs', step op s = .ok (r, s₁) ∧ runAll step ops s₁ = .ok (rs', s') ∧ rs = r :: rs' := by
  have hwp : wp (runAll step (op :: ops)) (fun x y => x = rs ∧ y = s') s :=
    ⟨rs, s', hrun, rfl, rfl⟩
  rw [runAll, wp_bind] at hwp
  obtain ⟨r, s₁, hop, hwp⟩ := hwp
  rw [wp_bind] at hwp
  obtain ⟨rs', s₂, hrest, hwp⟩ := hwp
  rw [wp_pure] at hwp
  obtain ⟨rfl, rfl⟩ := hwp
  exact ⟨r, s₁, rs', hop, hrest, rfl⟩

/-- Where an operation faults unless a condition on the abstract state
holds, a run that ends has met the condition at each of its operations. -/
theorem Refines.admissible_of_run {R : σ → τ → Prop} {may ok : Op → τ → Prop}
    {step : Op → Program ε σ Res} {spec : Op → τ → Res × τ}
    (h : Refines R (fun op t => may op t ∧ ok op t) step spec)
    (hfault : ∀ op s t, R s t → may op t → ¬ok op t → ∃ e, step op s = .error e)
    {ops : List Op} {s s' : σ} {t : τ} {rs : List Res} (hR : R s t)
    (hmay : Admissible may spec ops t) (hrun : runAll step ops s = .ok (rs, s')) :
    Admissible ok spec ops t := by
  induction ops generalizing s t rs with
  | nil => trivial
  | cons op ops ih =>
      obtain ⟨r, s₁, rs', hstep, hrest, -⟩ := runAll_cons_ok hrun
      have hok : ok op t := by
        apply Classical.byContradiction
        intro hnot
        obtain ⟨e, he⟩ := hfault op s t hR hmay.1 hnot
        rw [hstep] at he
        cases he
      obtain ⟨r', s₂, hstep', -, hR'⟩ := h op s t hR ⟨hmay.1, hok⟩
      rw [hstep] at hstep'
      cases hstep'
      exact ⟨hok, ih hR' hmay.2 hrest⟩

theorem runAll_cons_of_ok {step : Op → Program ε σ Res} {op : Op} {ops : List Op} {s s₁ s₂ : σ}
    {r : Res} {rs : List Res} (hop : step op s = .ok (r, s₁))
    (hrun : runAll step ops s₁ = .ok (rs, s₂)) :
    runAll step (op :: ops) s = .ok (r :: rs, s₂) := by
  show (step op s >>= fun y => runAll step ops y.2 >>= fun z => pure (y.1 :: z.1, z.2)) = _
  rw [hop]
  show (runAll step ops s₁ >>= fun z => pure (r :: z.1, z.2)) = _
  rw [hrun]
  rfl

theorem runAll_append_ok {step : Op → Program ε σ Res} {ops ops' : List Op} {s s' : σ}
    {rs : List Res} (hrun : runAll step (ops ++ ops') s = .ok (rs, s')) :
    ∃ rs₁ s₁ rs₂, runAll step ops s = .ok (rs₁, s₁) ∧ runAll step ops' s₁ = .ok (rs₂, s') := by
  induction ops generalizing s rs with
  | nil => exact ⟨[], s, rs, rfl, hrun⟩
  | cons op ops ih =>
      obtain ⟨r, s₁, rs', hop, hrest, rfl⟩ := runAll_cons_ok hrun
      obtain ⟨rs₁, s₂, rs₂, hfirst, hsecond⟩ := ih hrest
      refine ⟨r :: rs₁, s₂, rs₂, ?_, hsecond⟩
      show (step op s >>= fun p => _) = _
      rw [hop]
      show (runAll step ops s₁ >>= fun p => pure (r :: p.1, p.2)) = _
      rw [hfirst]
      rfl

/-- A run that ends returns what the abstract machine returns and ends in
a related state. -/
theorem Follows.run {R : σ → τ → Prop} {ok : Op → τ → Prop} {step : Op → Program ε σ Res}
    {spec : Op → τ → Res × τ} (h : Follows R ok step spec) {ops : List Op} {s s' : σ} {t : τ}
    {rs : List Res} (hR : R s t) (hok : Admissible ok spec ops t)
    (hrun : runAll step ops s = .ok (rs, s')) :
    rs = (specAll spec ops t).1 ∧ R s' (specAll spec ops t).2 := by
  induction ops generalizing s t rs with
  | nil =>
      cases hrun
      exact ⟨rfl, hR⟩
  | cons op ops ih =>
      obtain ⟨r, s₁, rs', hop, hrest, rfl⟩ := runAll_cons_ok hrun
      obtain ⟨rfl, hR₁⟩ := h op s t r s₁ hR hok.1 hop
      obtain ⟨rfl, hR₂⟩ := ih hR₁ hok.2 hrest
      exact ⟨rfl, hR₂⟩

/-! ### Reachable states -/

/-- The states that runs lead to, when every operation may be issued in
the state in which it is. -/
inductive Reachable (init : σ → Prop) (ok : Op → σ → Prop) (step : Op → Program ε σ Res) :
    σ → Prop
  | start {s : σ} (hs : init s) : Reachable init ok step s
  | next {s s' : σ} {op : Op} {r : Res} (hs : Reachable init ok step s) (hop : ok op s)
      (hrun : step op s = .ok (r, s')) : Reachable init ok step s'

theorem Reachable.mono {init : σ → Prop} {ok ok' : Op → σ → Prop} {step : Op → Program ε σ Res}
    {s : σ} (hs : Reachable init ok step s) (h : ∀ op s, ok op s → ok' op s) :
    Reachable init ok' step s := by
  induction hs with
  | start hs => exact .start hs
  | next _ hop hrun ih => exact ih.next (h _ _ hop) hrun

/-- A run of operations that may always be issued leads from reachable
states to reachable states. -/
theorem Reachable.runAll {init : σ → Prop} {ok : Op → σ → Prop} {step : Op → Program ε σ Res}
    {ops : List Op} {s s' : σ} {rs : List Res} (hs : Reachable init ok step s)
    (hrun : runAll step ops s = .ok (rs, s')) (hok : ∀ op ∈ ops, ∀ s, ok op s) :
    Reachable init ok step s' := by
  induction ops generalizing s rs with
  | nil =>
      cases hrun
      exact hs
  | cons op ops ih =>
      obtain ⟨r, s₁, rs', hop, hrest, -⟩ := runAll_cons_ok hrun
      apply ih (hs.next (hok op List.mem_cons_self s) hop) hrest
      exact fun op' hop' => hok op' (List.mem_cons_of_mem op hop')

/-- The state a run leads to, if every operation passes a test before it
is made. -/
def checkedRun (check : Op → σ → Bool) (step : Op → Program ε σ Res) : List Op → σ → Option σ
  | [], s => some s
  | op :: ops, s =>
      if check op s then
        match step op s with
        | .ok (_, s') => checkedRun check step ops s'
        | .error _ => none
      else none

/-- Every operation of a checked run passes the test in the state it is
made in. -/
theorem check_of_checkedRun {check : Op → σ → Bool} {step : Op → Program ε σ Res}
    {before after : List Op} {op : Op} {s s₁ : σ} {rs : List Res}
    (heval : (checkedRun check step (before ++ op :: after) s).isSome = true)
    (hrun : runAll step before s = .ok (rs, s₁)) : check op s₁ = true := by
  induction before generalizing s rs with
  | nil =>
      cases hrun
      rw [List.nil_append, checkedRun] at heval
      split at heval
      case isTrue hop => exact hop
      case isFalse => cases heval
  | cons op' before ih =>
      obtain ⟨r, s', rs', hop', hrest, -⟩ := runAll_cons_ok hrun
      rw [List.cons_append, checkedRun, hop'] at heval
      split at heval
      case isTrue => exact ih heval hrest
      case isFalse => cases heval

/-- A reachable state that is found by evaluating a run. What holds in
reachable states may be used to see that an operation may be made. -/
theorem exists_reachable_of_check {init : σ → Prop} {ok : Op → σ → Prop}
    {step : Op → Program ε σ Res} {ops : List Op} {s : σ} (hs : Reachable init ok step s)
    (check : Op → σ → Bool)
    (hcheck : ∀ op s, Reachable init ok step s → check op s = true → ok op s) (f : σ → Bool)
    (heval : ((checkedRun check step ops s).any f) = true) :
    ∃ s', Reachable init ok step s' ∧ f s' = true := by
  induction ops generalizing s with
  | nil => exact ⟨s, hs, heval⟩
  | cons op ops ih =>
      rw [checkedRun] at heval
      split at heval
      case isTrue hop =>
        split at heval
        case h_1 r s' hrun => exact ih (hs.next (hcheck op s hs hop) hrun) heval
        case h_2 => cases heval
      case isFalse => cases heval

theorem exists_reachable_of_eval {init : σ → Prop} {ok : Op → σ → Prop}
    {step : Op → Program ε σ Res} {ops : List Op} {s : σ} (hs : Reachable init ok step s)
    (check : Op → σ → Bool) (hcheck : ∀ op s, check op s = true → ok op s) (f : σ → Bool)
    (heval : ((checkedRun check step ops s).any f) = true) :
    ∃ s', Reachable init ok step s' ∧ f s' = true :=
  exists_reachable_of_check hs check (fun op s _ => hcheck op s) f heval

/-- An invariant that holds at the start and that every operation that
ends keeps holds in every state reached. -/
theorem Reachable.invariant_of_ok {I init : σ → Prop} {ok : Op → σ → Prop}
    {step : Op → Program ε σ Res} (hinit : ∀ s, init s → I s)
    (hstep : ∀ op s r s', I s → ok op s → step op s = .ok (r, s') → I s') {s : σ}
    (hs : Reachable init ok step s) : I s := by
  induction hs with
  | start hs => exact hinit _ hs
  | next _ hop hrun ih => exact hstep _ _ _ _ ih hop hrun

theorem Reachable.invariant {I init : σ → Prop} {ok : Op → σ → Prop}
    {step : Op → Program ε σ Res} (hinit : ∀ s, init s → I s)
    (hstep : ∀ op s, I s → ok op s → wp (step op) (fun _ s' => I s') s) {s : σ}
    (hs : Reachable init ok step s) : I s := by
  apply hs.invariant_of_ok hinit
  intro op s r s' hI hop hrun
  obtain ⟨r', s'', hrun', hI'⟩ := hstep op s hI hop
  rw [hrun] at hrun'
  cases hrun'
  exact hI'

end ScuDb.Foundations
