import Mathlib.Data.Nat.Digits.Lemmas
import Mathlib.Tactic.Basic

/-!
Integers written in base ten, as bytes.

`leadingInt` reads the number in front of a text, however long it is and
whatever follows it. `IsDecimal` are the texts that are a number and
nothing else, leading zeros included, and `intText` is the one of them
without.
-/

namespace ScuDb.Foundations

/-! ### Reading -/

/-- `isspace`, in the C locale -/
def isSpace (b : UInt8) : Bool := b = 32 ∨ 9 ≤ b ∧ b ≤ 13

/-- `isdigit` -/
def isDigit (b : UInt8) : Bool := 48 ≤ b ∧ b ≤ 57

/-- The digits in front of a text, read after the number `n`. -/
def readDigits (n : Nat) : List UInt8 → Nat
  | [] => n
  | b :: rest => if isDigit b then readDigits (10 * n + (b.toNat - 48)) rest else n

def leadingNat (text : List UInt8) : Option Nat :=
  if text.head?.any isDigit then some (readDigits 0 text) else none

/-- White space, a sign or none, digits. -/
def leadingInt (text : List UInt8) : Option Int :=
  match text.dropWhile isSpace with
  | [] => none
  | b :: rest =>
      if b = 45 then (leadingNat rest).map fun (n : Nat) => -(n : Int)
      else if b = 43 then (leadingNat rest).map fun (n : Nat) => (n : Int)
      else (leadingNat (b :: rest)).map fun (n : Nat) => (n : Int)

/-- A text that is a number. -/
inductive IsDecimal : List UInt8 → Int → Prop
  | unsigned {digits : List UInt8} (hne : digits ≠ []) (hdigits : ∀ b ∈ digits, isDigit b = true) :
      IsDecimal digits (readDigits 0 digits)
  | plus {digits : List UInt8} (hne : digits ≠ []) (hdigits : ∀ b ∈ digits, isDigit b = true) :
      IsDecimal (43 :: digits) (readDigits 0 digits)
  | minus {digits : List UInt8} (hne : digits ≠ []) (hdigits : ∀ b ∈ digits, isDigit b = true) :
      IsDecimal (45 :: digits) (-(readDigits 0 digits : Int))

variable {text digits rest : List UInt8} {n : Int} {b : UInt8}

theorem isDigit_iff : isDigit b = true ↔ 48 ≤ b.toNat ∧ b.toNat ≤ 57 := by
  simp [isDigit, UInt8.le_iff_toNat_le]

theorem not_isSpace_of_isDigit (h : isDigit b = true) : isSpace b = false := by
  rw [isDigit_iff] at h
  simp only [isSpace, UInt8.le_iff_toNat_le, ← UInt8.toNat_inj, decide_eq_false_iff_not]
  have hspace : UInt8.toNat 32 = 32 := rfl
  have hlow : UInt8.toNat 9 = 9 := rfl
  have hhigh : UInt8.toNat 13 = 13 := rfl
  omega

/-- What follows the digits is not read. -/
theorem readDigits_append (hdigits : ∀ b ∈ digits, isDigit b = true)
    (hrest : ∀ b ∈ rest.head?, isDigit b = false) (m : Nat) :
    readDigits m (digits ++ rest) = readDigits m digits := by
  induction digits generalizing m with
  | nil =>
      cases rest with
      | nil => rfl
      | cons b rest => simp [readDigits, hrest b rfl]
  | cons b digits ih =>
      have hb := hdigits b List.mem_cons_self
      simp only [List.cons_append, readDigits, if_pos hb]
      exact ih (fun c hc => hdigits c (List.mem_cons_of_mem b hc)) _

theorem leadingNat_append (hne : digits ≠ []) (hdigits : ∀ b ∈ digits, isDigit b = true)
    (hrest : ∀ b ∈ rest.head?, isDigit b = false) :
    leadingNat (digits ++ rest) = some (readDigits 0 digits) := by
  have hhead : (digits ++ rest).head?.any isDigit = true := by
    cases digits with
    | nil => exact absurd rfl hne
    | cons b digits => simpa using hdigits b List.mem_cons_self
  rw [leadingNat, if_pos hhead, readDigits_append hdigits hrest]

/-- The number that a text begins with is what is read of it, unless more
digits follow. -/
theorem IsDecimal.leadingInt_append (h : IsDecimal text n)
    (hrest : ∀ b ∈ rest.head?, isDigit b = false) : leadingInt (text ++ rest) = some n := by
  cases h with
  | unsigned hne hdigits =>
      have hnat := leadingNat_append hne hdigits hrest
      cases text with
      | nil => exact absurd rfl hne
      | cons b digits =>
          have hb := hdigits b List.mem_cons_self
          have hminus : b ≠ 45 := fun heq => by subst heq; cases hb
          have hplus : b ≠ 43 := fun heq => by subst heq; cases hb
          rw [List.cons_append] at hnat ⊢
          rw [leadingInt, List.dropWhile_cons_of_neg (by simp [not_isSpace_of_isDigit hb])]
          simp only [if_neg hminus, if_neg hplus, hnat, Option.map_some]
  | plus hne hdigits =>
      have hnat := leadingNat_append hne hdigits hrest
      rw [List.cons_append, leadingInt, List.dropWhile_cons_of_neg (by decide)]
      simp only [hnat]
      rfl
  | minus hne hdigits =>
      have hnat := leadingNat_append hne hdigits hrest
      rw [List.cons_append, leadingInt, List.dropWhile_cons_of_neg (by decide)]
      simp only [hnat]
      rfl

theorem IsDecimal.leadingInt_eq (h : IsDecimal text n) : leadingInt text = some n := by
  rw [← List.append_nil text]
  exact h.leadingInt_append (by simp)

/-! ### Writing -/

/-- `std::to_string` of a number that is not negative. -/
def natText (n : Nat) : List UInt8 :=
  if n = 0 then [48] else (Nat.digits 10 n).reverse.map fun d => UInt8.ofNat (48 + d)

/-- `std::to_string` -/
def intText (n : Int) : List UInt8 :=
  if n < 0 then 45 :: natText n.natAbs else natText n.natAbs

theorem toNat_digit {d : Nat} (h : d < 10) : (UInt8.ofNat (48 + d)).toNat = 48 + d := by
  rw [UInt8.toNat_ofNat']
  omega

theorem isDigit_ofNat {d : Nat} (h : d < 10) : isDigit (UInt8.ofNat (48 + d)) = true := by
  rw [isDigit_iff, toNat_digit h]
  omega

theorem readDigits_map {ds : List Nat} (h : ∀ d ∈ ds, d < 10) (m : Nat) :
    readDigits m (ds.map fun d => UInt8.ofNat (48 + d)) =
      ds.foldl (fun m d => 10 * m + d) m := by
  induction ds generalizing m with
  | nil => rfl
  | cons d ds ih =>
      have hd := h d List.mem_cons_self
      rw [List.map_cons, readDigits, if_pos (isDigit_ofNat hd), toNat_digit hd, List.foldl_cons,
        Nat.add_sub_cancel_left]
      exact ih (fun e he => h e (List.mem_cons_of_mem d he)) _

theorem isDigit_natText (n : Nat) : ∀ b ∈ natText n, isDigit b = true := by
  intro b hb
  rw [natText] at hb
  split at hb
  · rw [List.mem_singleton.mp hb]
    rfl
  · obtain ⟨d, hd, rfl⟩ := List.mem_map.mp hb
    exact isDigit_ofNat (Nat.digits_lt_base (by decide) (List.mem_reverse.mp hd))

theorem natText_ne_nil (n : Nat) : natText n ≠ [] := by
  rw [natText]
  split
  · exact List.cons_ne_nil _ _
  · rename_i hn
    simpa using Nat.digits_ne_nil_iff_ne_zero.mpr hn

/-- What has been written is read back. -/
theorem readDigits_natText (n : Nat) : readDigits 0 (natText n) = n := by
  rw [natText]
  split
  · rename_i hn
    rw [hn]
    rfl
  · have hlt : ∀ d ∈ (Nat.digits 10 n).reverse, d < 10 := fun d hd =>
      Nat.digits_lt_base (by decide) (List.mem_reverse.mp hd)
    rw [readDigits_map hlt, List.foldl_reverse]
    have hof := Nat.ofDigits_digits 10 n
    rw [Nat.ofDigits_eq_foldr] at hof
    simpa [add_comm] using hof

theorem isDecimal_intText (n : Int) : IsDecimal (intText n) n := by
  have hread := readDigits_natText n.natAbs
  rw [intText]
  split
  · have h := IsDecimal.minus (natText_ne_nil n.natAbs) (isDigit_natText n.natAbs)
    rw [hread] at h
    have habs : -(n.natAbs : Int) = n := by omega
    rwa [habs] at h
  · have h := IsDecimal.unsigned (natText_ne_nil n.natAbs) (isDigit_natText n.natAbs)
    rw [hread] at h
    have habs : (n.natAbs : Int) = n := by omega
    rwa [habs] at h

theorem length_natText_le {n k : Nat} (hk : 0 < k) (h : n < 10 ^ k) : (natText n).length ≤ k := by
  rw [natText]
  split
  · exact hk
  · rw [List.length_map, List.length_reverse]
    exact (Nat.digits_length_le_iff (by decide) n).mpr h

theorem length_intText_le {k : Nat} (hk : 0 < k) (h : n.natAbs < 10 ^ k) :
    (intText n).length ≤ k + 1 := by
  have hlength := length_natText_le hk h
  rw [intText]
  split
  · exact Nat.succ_le_succ hlength
  · exact hlength.trans (Nat.le_succ k)

end ScuDb.Foundations
