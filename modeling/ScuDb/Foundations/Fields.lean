import Mathlib.Data.List.Basic
import Mathlib.Tactic.Basic

/-!
Lists cut into fields at a separator, and freed of what surrounds them.

`fields` takes fields off until nothing is left, so that a separator at the
end is followed by no field. On what `joinFields` has written it gives the
fields back, provided that they do not contain the separator and that the
last one is not empty.
-/

namespace ScuDb.Foundations

variable {α : Type}

section Separator

variable [DecidableEq α] {sep : α}

/-- The fields of a list. -/
def fields (sep : α) : List α → List (List α)
  | [] => []
  | a :: rest =>
      if a = sep then [] :: fields sep rest
      else
        match fields sep rest with
        | [] => [[a]]
        | field :: more => (a :: field) :: more

/-- The fields with a separator between each two. -/
def joinFields (sep : α) : List (List α) → List α
  | [] => []
  | [field] => field
  | field :: next :: more => field ++ sep :: joinFields sep (next :: more)

theorem fields_append {field : List α} (h : sep ∉ field) (rest : List α) :
    fields sep (field ++ sep :: rest) = field :: fields sep rest := by
  induction field with
  | nil => simp [fields]
  | cons a field ih =>
      obtain ⟨hne, hfield⟩ := not_or.mp (mt List.mem_cons.mpr h)
      simp only [List.cons_append, fields, if_neg (Ne.symm hne), ih hfield]

theorem fields_single {field : List α} (h : sep ∉ field) (hne : field ≠ []) :
    fields sep field = [field] := by
  induction field with
  | nil => exact absurd rfl hne
  | cons a field ih =>
      obtain ⟨hsep, hfield⟩ := not_or.mp (mt List.mem_cons.mpr h)
      simp only [fields, if_neg (Ne.symm hsep)]
      cases field with
      | nil => rfl
      | cons b field => rw [ih hfield (List.cons_ne_nil _ _)]

theorem fields_joinFields {items : List (List α)} (h : ∀ field ∈ items, sep ∉ field)
    (hlast : ∀ field ∈ items.getLast?, field ≠ []) : fields sep (joinFields sep items) = items := by
  induction items with
  | nil => rfl
  | cons field items ih =>
      have hfield := h field List.mem_cons_self
      cases items with
      | nil => exact fields_single hfield (hlast field rfl)
      | cons next items =>
          rw [joinFields, fields_append hfield,
            ih (fun f hf => h f (List.mem_cons_of_mem _ hf)) (by simpa using hlast)]

/-! Where the separator is first found. -/

theorem findIdx?_no_sep {l : List α} (h : sep ∉ l) : l.findIdx? (· = sep) = none := by
  rw [List.findIdx?_eq_none_iff]
  intro a ha
  simp only [decide_eq_false_iff_not]
  rintro rfl
  exact h ha

theorem findIdx?_sep {before : List α} (h : sep ∉ before) (after : List α) :
    (before ++ sep :: after).findIdx? (· = sep) = some before.length := by
  rw [List.findIdx?_append, findIdx?_no_sep h, List.findIdx?_cons]
  simp

omit [DecidableEq α] in
theorem drop_sep (before after : List α) :
    (before ++ sep :: after).drop (before.length + 1) = after := by
  rw [List.drop_append, List.drop_of_length_le (Nat.le_succ _), Nat.add_sub_cancel_left]
  rfl

omit [DecidableEq α] in
theorem mem_joinFields {items : List (List α)} {a : α} (h : a ∈ joinFields sep items) :
    a = sep ∨ ∃ field ∈ items, a ∈ field := by
  induction items with
  | nil => cases h
  | cons field items ih =>
      cases items with
      | nil => exact Or.inr ⟨field, List.mem_cons_self, h⟩
      | cons next items =>
          rw [joinFields, List.mem_append, List.mem_cons] at h
          rcases h with h | h | h
          · exact Or.inr ⟨field, List.mem_cons_self, h⟩
          · exact Or.inl h
          · obtain hsep | ⟨f, hf, ha⟩ := ih h
            · exact Or.inl hsep
            · exact Or.inr ⟨f, List.mem_cons_of_mem _ hf, ha⟩

end Separator

/-! ### Both ends -/

section Ends

variable {p : α → Bool}

/-- What is left without the elements at both ends that satisfy `p`. -/
def trim (p : α → Bool) (l : List α) : List α :=
  ((l.dropWhile p).reverse.dropWhile p).reverse

theorem dropWhile_append_of_head {before core : List α} (hbefore : ∀ a ∈ before, p a = true)
    (hcore : ∀ a ∈ core.head?, p a = false) : (before ++ core).dropWhile p = core := by
  rw [List.dropWhile_append_of_pos hbefore]
  cases core with
  | nil => rfl
  | cons a core =>
      rw [List.dropWhile_cons_of_neg]
      simp [hcore a rfl]

theorem trim_append {before core after : List α} (hbefore : ∀ a ∈ before, p a = true)
    (hafter : ∀ a ∈ after, p a = true) (hhead : ∀ a ∈ core.head?, p a = false)
    (hlast : ∀ a ∈ core.getLast?, p a = false) (hne : core ≠ []) :
    trim p (before ++ core ++ after) = core := by
  have hhead' : ∀ a ∈ (core ++ after).head?, p a = false := by
    cases core with
    | nil => exact absurd rfl hne
    | cons a core => exact hhead
  rw [trim, List.append_assoc, dropWhile_append_of_head hbefore hhead', List.reverse_append,
    dropWhile_append_of_head (fun a ha => hafter a (List.mem_reverse.mp ha))
      (by simpa using hlast), List.reverse_reverse]

end Ends

end ScuDb.Foundations
