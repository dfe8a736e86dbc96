import ScuDb.Index.PoolUse

/-!
What one thread owes the buffer pool for the pages it has changed.

`DirtyUse` reads the recorded calls once more. It keeps the pins of every
page, and which pages have been changed since they were last unpinned as
dirty. A call that would lose a change has no next state: a store to a
page that is not pinned, or the last pin of a changed page given back as
clean. `DirtyUse.exists_unpin_dirty` says what a replay that goes through
shows about the order of the calls.
-/

namespace ScuDb

/-- The pins of the pages, the pages changed since they were last
unpinned as dirty, the deleted pages, and the next id to be given out. -/
structure DirtyUse where
  pins : PageId → Nat
  changed : PageId → Bool
  removed : PageId → Bool
  next : PageId

namespace DirtyUse

/-- A changed page may be unpinned as clean as long as another pin is left. -/
def step (u : DirtyUse) : PoolCall → Option DirtyUse
  | .newPage id =>
      if id = u.next then some { u with pins := addPin u.pins id, next := u.next + 1 } else none
  | .fetchPage id =>
      if 0 ≤ id ∧ id < u.next ∧ u.removed id = false then
        some { u with pins := addPin u.pins id }
      else none
  | .unpinPage id isDirty =>
      if 0 < u.pins id ∧ (u.changed id = true → isDirty = true ∨ 1 < u.pins id) then
        some { u with
          pins := Function.update u.pins id (u.pins id - 1)
          changed := if isDirty = true then Function.update u.changed id false else u.changed }
      else none
  | .deletePage id =>
      if id < u.next then
        some (if u.pins id = 0 then { u with removed := Function.update u.removed id true } else u)
      else none
  | .store id =>
      if 0 < u.pins id then some { u with changed := Function.update u.changed id true } else none
  | .lock _ _ => some u
  | .unlock _ _ => some u
  | .lockRoot _ => some u
  | .unlockRoot _ => some u

/-- The state after recorded calls, the latest of which comes first. -/
def replay (u : DirtyUse) : List PoolCall → Option DirtyUse
  | [] => some u
  | call :: earlier => (u.replay earlier).bind (·.step call)

/-- Before a call: nothing is pinned, and no change is owed. -/
def start (removed : PageId → Bool) (next : PageId) : DirtyUse :=
  ⟨fun _ => 0, fun _ => false, removed, next⟩

theorem replay_cons {u u' : DirtyUse} {call : PoolCall} {calls : List PoolCall}
    (h : u.replay (call :: calls) = some u') :
    ∃ v, u.replay calls = some v ∧ v.step call = some u' := by
  rw [replay] at h
  exact Option.bind_eq_some_iff.mp h

theorem replay_suffix {u u' : DirtyUse} {later earlier : List PoolCall}
    (h : u.replay (later ++ earlier) = some u') : ∃ v, u.replay earlier = some v := by
  induction later generalizing u' with
  | nil => exact ⟨u', h⟩
  | cons call later ih =>
      obtain ⟨v, hv, -⟩ := replay_cons h
      exact ih hv

section Order

variable {u u' : DirtyUse} {id : PageId}

/-- The only call that settles a change is an unpin as dirty. -/
theorem changed_of_step {call : PoolCall} (h : u.step call = some u')
    (hchanged : u.changed id = true) :
    u'.changed id = true ∨ call = .unpinPage id true := by
  cases call with
  | unpinPage y isDirty =>
      simp only [step] at h
      split at h
      · cases h
        cases isDirty with
        | false => exact Or.inl hchanged
        | true =>
            by_cases hy : id = y
            · exact Or.inr (by rw [hy])
            · exact Or.inl (by simpa [hy] using hchanged)
      · cases h
  | store y =>
      simp only [step] at h
      split at h
      · cases h
        by_cases hy : id = y
        · exact Or.inl (by simp [hy])
        · exact Or.inl (by simpa [hy] using hchanged)
      · cases h
  | newPage y | fetchPage y =>
      simp only [step] at h
      split at h
      · cases h
        exact Or.inl hchanged
      · cases h
  | deletePage y =>
      simp only [step] at h
      split at h
      · cases h
        split
        · exact Or.inl hchanged
        · exact Or.inl hchanged
      · cases h
  | lock | unlock | lockRoot | unlockRoot =>
      cases h
      exact Or.inl hchanged

/-- A page that was stored to, and for which nothing is owed in the end,
has been unpinned as dirty after the last store. -/
theorem exists_unpin_dirty {calls : List PoolCall} (h : u.replay calls = some u')
    (hstore : .store id ∈ calls) (hsettled : u'.changed id = false) :
    ∃ later earlier, calls = later ++ .unpinPage id true :: earlier ∧ .store id ∉ later := by
  induction calls generalizing u' with
  | nil => cases hstore
  | cons call calls ih =>
      obtain ⟨v, hv, hstep⟩ := replay_cons h
      by_cases hcall : call = .unpinPage id true
      · exact ⟨[], calls, by rw [hcall]; rfl, List.not_mem_nil⟩
      · have hnot : call ≠ .store id := by
          rintro rfl
          simp only [step] at hstep
          split at hstep
          · cases hstep
            simp at hsettled
          · cases hstep
        have hrest : .store id ∈ calls := (List.mem_cons.mp hstore).resolve_left (Ne.symm hnot)
        have hbefore : v.changed id = false := by
          cases hv' : v.changed id with
          | false => rfl
          | true =>
              rcases changed_of_step hstep hv' with htrue | heq
              · rw [hsettled] at htrue
                cases htrue
              · exact absurd heq hcall
        obtain ⟨later, earlier, rfl, hlater⟩ := ih hv hrest hbefore
        refine ⟨call :: later, earlier, rfl, ?_⟩
        rw [List.mem_cons, not_or]
        exact ⟨Ne.symm hnot, hlater⟩

theorem next_of_step {call : PoolCall} (h : u.step call = some u') :
    call = .newPage u.next ∧ u'.next = u.next + 1 ∨
      (∀ id, call ≠ .newPage id) ∧ u'.next = u.next := by
  cases call with
  | newPage y =>
      simp only [step] at h
      split at h
      · rename_i heq
        cases h
        exact Or.inl ⟨by rw [heq], rfl⟩
      · cases h
  | fetchPage y | unpinPage y isDirty | store y =>
      simp only [step] at h
      split at h
      · cases h
        exact Or.inr ⟨fun _ heq => (nomatch heq), rfl⟩
      · cases h
  | deletePage y =>
      simp only [step] at h
      split at h
      · cases h
        refine Or.inr ⟨fun _ heq => (nomatch heq), ?_⟩
        split
        · rfl
        · rfl
      · cases h
  | lock | unlock | lockRoot | unlockRoot =>
      cases h
      exact Or.inr ⟨fun _ heq => (nomatch heq), rfl⟩

/-- New pages get ids that have not been given out before. -/
theorem next_le_of_replay {calls : List PoolCall} (h : u.replay calls = some u') :
    u.next ≤ u'.next ∧ (.newPage id ∈ calls → u.next ≤ id) := by
  induction calls generalizing u' with
  | nil =>
      cases h
      exact ⟨Int.le_refl _, fun hmem => nomatch hmem⟩
  | cons call calls ih =>
      obtain ⟨v, hv, hstep⟩ := replay_cons h
      obtain ⟨hle, hmem⟩ := ih hv
      rcases next_of_step hstep with ⟨rfl, hnext⟩ | ⟨hother, hnext⟩
      · refine ⟨?_, fun hid => ?_⟩
        · rw [hnext]
          exact Int.le_trans hle (Int.le_of_lt (Int.lt_succ _))
        · rcases List.mem_cons.mp hid with hid | hid
          · cases hid
            exact hle
          · exact hmem hid
      · refine ⟨hnext ▸ hle, fun hid => hmem ?_⟩
        exact (List.mem_cons.mp hid).resolve_left (hother id).symm

end Order

/-- The calls since `old`, and what they have led to. -/
def Reached (u₀ : DirtyUse) (old calls : List PoolCall) (u : DirtyUse) : Prop :=
  ∃ recent, calls = recent ++ old ∧ u₀.replay recent = some u

theorem Reached.refl (u₀ : DirtyUse) (old : List PoolCall) : u₀.Reached old old u₀ :=
  ⟨[], rfl, rfl⟩

theorem Reached.next {u₀ u u' : DirtyUse} {old calls : List PoolCall} {call : PoolCall}
    (h : u₀.Reached old calls u) (hstep : u.step call = some u') :
    u₀.Reached old (call :: calls) u' := by
  obtain ⟨recent, rfl, hrun⟩ := h
  refine ⟨call :: recent, rfl, ?_⟩
  rw [replay, hrun]
  exact hstep

/-- The thread pins each page of `held` once besides the pins `extra`,
and owes changes to pages of `held` and `mine` only. -/
structure Covers (u : DirtyUse) (extra : PageId → Nat) (mine held : List PageId) : Prop where
  pins : ∀ y, u.pins y = extra y + held.count y
  changed : ∀ y, u.changed y = true → y ∈ held ∨ y ∈ mine

namespace Covers

variable {u : DirtyUse} {extra : PageId → Nat} {mine mine' held : List PageId} {id : PageId}

theorem pins_addPin (h : u.Covers extra mine held) (id : PageId) :
    ∀ y, addPin u.pins id y = addPin extra id y + held.count y := by
  intro y
  rw [addPin_apply, addPin_apply, h.pins]
  omega

theorem pos (h : u.Covers extra mine held) (hmine : ∀ y ∈ mine, 0 < extra y)
    (hid : id ∈ held ∨ id ∈ mine) : 0 < u.pins id := by
  rw [h.pins]
  rcases hid with hid | hid
  · exact Nat.add_pos_right _ (List.count_pos_iff.mpr hid)
  · exact Nat.add_pos_left (hmine id hid) _

theorem pins_unpin (h : u.Covers (addPin extra id) mine held) :
    0 < u.pins id ∧
      (∀ y, Function.update u.pins id (u.pins id - 1) y = extra y + held.count y) ∧
      ∀ y, u.pins y = 0 → Function.update u.pins id (u.pins id - 1) y = 0 := by
  have hid : u.pins id = extra id + 1 + held.count id := by
    rw [h.pins, addPin, Function.update_self]
  refine ⟨by omega, fun y => ?_, fun y hy => ?_⟩
  · by_cases hyid : y = id
    · subst hyid
      rw [Function.update_self, hid]
      omega
    · rw [Function.update_of_ne hyid, h.pins, addPin, Function.update_of_ne hyid]
  · by_cases hyid : y = id
    · subst hyid
      omega
    · rw [Function.update_of_ne hyid, hy]

theorem unpin_dirty (h : u.Covers (addPin extra id) mine' held)
    (hsub : ∀ y ∈ mine', y = id ∨ y ∈ mine) :
    ∃ u', u.step (.unpinPage id true) = some u' ∧ u'.Covers extra mine held ∧
      u'.removed = u.removed ∧ u'.next = u.next ∧ ∀ y, u.pins y = 0 → u'.pins y = 0 := by
  obtain ⟨hpos, hpins, hzero⟩ := h.pins_unpin
  refine ⟨_, if_pos ⟨hpos, fun _ => Or.inl rfl⟩, ⟨hpins, fun y hy => ?_⟩, rfl, rfl, hzero⟩
  simp only [if_true] at hy
  by_cases hyid : y = id
  · subst hyid
    simp at hy
  · rw [Function.update_of_ne hyid] at hy
    exact (h.changed y hy).imp_right fun hm => (hsub y hm).resolve_left hyid

/-- A pin of its own is given back as clean: a change of the page is
owed with another pin. -/
theorem unpin_clean (h : u.Covers (addPin extra id) mine held)
    (hmine : ∀ y ∈ mine, 0 < extra y) :
    ∃ u', u.step (.unpinPage id false) = some u' ∧ u'.Covers extra mine held ∧
      u'.removed = u.removed ∧ u'.next = u.next ∧ ∀ y, u.pins y = 0 → u'.pins y = 0 := by
  obtain ⟨hpos, hpins, hzero⟩ := h.pins_unpin
  have hid : u.pins id = extra id + 1 + held.count id := by
    rw [h.pins, addPin, Function.update_self]
  have hother : u.changed id = true → 1 < u.pins id := by
    intro hchanged
    rcases h.changed id hchanged with hheld | hm
    · have hcount := List.count_pos_iff.mpr hheld
      omega
    · have hextra := hmine id hm
      omega
  exact ⟨_, if_pos ⟨hpos, fun hc => Or.inr (hother hc)⟩, ⟨hpins, h.changed⟩, rfl, rfl, hzero⟩

/-- A page that was pinned on its own joins the others, or leaves them. -/
theorem join (h : u.Covers (addPin extra id) mine' held)
    (hsub : ∀ y ∈ mine', y = id ∨ y ∈ mine) : u.Covers extra mine (held ++ [id]) := by
  refine ⟨fun y => ?_, fun y hy => ?_⟩
  · rw [h.pins, addPin_apply, List.count_append]
    omega
  · rw [List.mem_append, List.mem_singleton]
    rcases h.changed y hy with hheld | hm
    · exact Or.inl (Or.inl hheld)
    · exact (hsub y hm).imp_left Or.inr

theorem leave (h : u.Covers extra mine (id :: held)) :
    u.Covers (addPin extra id) (id :: mine) held := by
  refine ⟨fun y => ?_, fun y hy => ?_⟩
  · rw [h.pins, addPin_apply, ← List.singleton_append, List.count_append]
    omega
  · rcases h.changed y hy with hheld | hm
    · rcases List.mem_cons.mp hheld with rfl | hheld
      · exact Or.inr List.mem_cons_self
      · exact Or.inl hheld
    · exact Or.inr (List.mem_cons_of_mem _ hm)

end Covers

end DirtyUse

end ScuDb
