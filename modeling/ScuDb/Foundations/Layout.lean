import ScuDb.Foundations.Memory
import Mathlib.Data.List.Pairwise
import Mathlib.Algebra.Order.BigOperators.Group.List
import Mathlib.Algebra.Order.Ring.Int

/-!
Segments laid out one behind the other in a buffer, with 32-bit offsets.

A layout is a list of segments, each with the bytes it writes and the
step to the next one. The offsets are computed in an `int32_t` and wrap.
`writes_fit_iff` says when such a layout is a good one: all writes are
inside the buffer and apart from each other exactly if no segment is
wider than its step and the steps together do not wrap. What was written
can then be read back, in whatever order the writes are made.
-/

namespace ScuDb.Foundations

/-- `INT_MAX` -/
def int32Max : Int := 2147483647

/-- An `int32_t` after arithmetic. -/
def wrap32 (v : Int) : Int := v.bmod 4294967296

theorem wrap32_of_le {v : Int} (hlo : 0 ≤ v) (hhi : v ≤ int32Max) : wrap32 v = v := by
  simp only [wrap32, Int.bmod, int32Max] at *
  omega

theorem wrap32_le (v : Int) : wrap32 v ≤ int32Max := by
  simp only [wrap32, Int.bmod, int32Max]
  omega

/-- An integer in the upper half wraps to a negative one. -/
theorem le_of_wrap32_nonneg {v : Int} (hlo : 0 ≤ v) (hhi : v ≤ 2 * int32Max)
    (h : 0 ≤ wrap32 v) : v ≤ int32Max := by
  simp only [wrap32, Int.bmod, int32Max] at *
  omega

@[simp] theorem wrap32_wrap32_add (v w : Int) : wrap32 (wrap32 v + w) = wrap32 (v + w) :=
  Int.bmod_add_bmod

/-- Bytes stored at an address. The address comes from signed arithmetic. -/
structure Write where
  address : Int
  bytes : List UInt8
  deriving DecidableEq, Repr

namespace Write

/-- The write is inside a buffer of that size. -/
def Inside (size : Int) (w : Write) : Prop :=
  0 ≤ w.address ∧ w.address + w.bytes.length ≤ size

instance (size : Int) (w : Write) : Decidable (w.Inside size) :=
  inferInstanceAs (Decidable (_ ∧ _))

/-- The two writes have no byte in common. -/
def Apart (v w : Write) : Prop :=
  v.address + v.bytes.length ≤ w.address ∨ w.address + w.bytes.length ≤ v.address

instance (v w : Write) : Decidable (v.Apart w) :=
  inferInstanceAs (Decidable (_ ∨ _))

theorem Apart.symm {v w : Write} (h : v.Apart w) : w.Apart v := Or.symm h

end Write

namespace Memory

/-- The writes, one after the other. -/
def store (m : Memory) (writes : List Write) : Memory :=
  writes.foldl (fun m w => m.memcpy w.address.toNat w.bytes) m

@[simp] theorem store_nil (m : Memory) : m.store [] = m := rfl

@[simp] theorem store_cons (m : Memory) (w : Write) (writes : List Write) :
    m.store (w :: writes) = (m.memcpy w.address.toNat w.bytes).store writes := rfl

/-- What is apart from all writes is not touched. -/
theorem store_of_apart {m : Memory} {writes : List Write} {i : Nat}
    (hpos : ∀ w ∈ writes, 0 ≤ w.address)
    (h : ∀ w ∈ writes, (i : Int) < w.address ∨ w.address + w.bytes.length ≤ i) :
    m.store writes i = m i := by
  induction writes generalizing m with
  | nil => rfl
  | cons w writes ih =>
      have hw := h w List.mem_cons_self
      have hwpos := hpos w List.mem_cons_self
      rw [store_cons, ih (fun v hv => hpos v (List.mem_cons_of_mem w hv))
        fun v hv => h v (List.mem_cons_of_mem w hv)]
      exact memcpy_of_not_mem (by omega)

/-- Writes that are apart are all there in the end. -/
theorem store_of_mem {m : Memory} {writes : List Write} (hpos : ∀ w ∈ writes, 0 ≤ w.address)
    (hapart : writes.Pairwise Write.Apart) {w : Write} (hw : w ∈ writes) {i : Nat}
    (hi : i < w.bytes.length) : m.store writes (w.address.toNat + i) = w.bytes.getD i 0 := by
  induction writes generalizing m with
  | nil => exact absurd hw List.not_mem_nil
  | cons v writes ih =>
      rw [List.pairwise_cons] at hapart
      have hpos' := fun u hu => hpos u (List.mem_cons_of_mem v hu)
      rcases List.mem_cons.mp hw with rfl | hmem
      · have hwpos := hpos w List.mem_cons_self
        rw [store_cons, store_of_apart hpos', memcpy_of_mem (by omega) (by omega)]
        · rw [Nat.add_sub_cancel_left]
        · intro u hu
          have := hapart.1 u hu
          simp only [Write.Apart] at this
          omega
      · rw [store_cons]
        exact ih hpos' hapart.2 hmem

end Memory

/-- Bytes to be laid out, and the step to what comes next. -/
structure Segment where
  bytes : List UInt8
  step : Int

namespace Segment

/-- The segments from `start` on. -/
def place (start : Int) : List Segment → List Write
  | [] => []
  | s :: rest => ⟨start, s.bytes⟩ :: place (wrap32 (start + s.step)) rest

/-- Where the segments end. -/
def finish (start : Int) : List Segment → Int
  | [] => start
  | s :: rest => finish (wrap32 (start + s.step)) rest

/-- The room the segments take. -/
def total (segments : List Segment) : Int := (segments.map step).sum

@[simp] theorem total_nil : total [] = 0 := rfl

@[simp] theorem total_cons (s : Segment) (rest : List Segment) :
    total (s :: rest) = s.step + total rest := by
  simp [total]

@[simp] theorem total_append (l r : List Segment) : total (l ++ r) = total l + total r := by
  simp [total]

theorem place_append (start : Int) (l r : List Segment) :
    place start (l ++ r) = place start l ++ place (finish start l) r := by
  induction l generalizing start with
  | nil => rfl
  | cons s l ih => simp only [List.cons_append, place, finish, ih]

theorem finish_append (start : Int) (l r : List Segment) :
    finish start (l ++ r) = finish (finish start l) r := by
  induction l generalizing start with
  | nil => rfl
  | cons s l ih => simp only [List.cons_append, finish, ih]

theorem finish_le {start : Int} (hstart : start ≤ int32Max) (segments : List Segment) :
    finish start segments ≤ int32Max := by
  induction segments generalizing start with
  | nil => exact hstart
  | cons s rest ih => exact ih (wrap32_le _)

/-- The segment has room for its bytes. -/
def Roomy (s : Segment) : Prop := (s.bytes.length : Int) ≤ s.step

theorem total_nonneg {segments : List Segment} (h : ∀ s ∈ segments, Roomy s) :
    0 ≤ total segments := by
  refine List.sum_nonneg fun step hstep => ?_
  obtain ⟨s, hs, rfl⟩ := List.mem_map.mp hstep
  exact (Int.natCast_nonneg _).trans (h s hs)

/-- Segments that have room lie where the exact sums say. -/
theorem place_of_roomy {start : Int} {segments : List Segment} (hstart : 0 ≤ start)
    (hroomy : ∀ s ∈ segments, Roomy s) (htotal : start + total segments ≤ int32Max) :
    finish start segments = start + total segments ∧
      (∀ w ∈ place start segments, start ≤ w.address ∧
        w.address + w.bytes.length ≤ start + total segments) ∧
      (place start segments).Pairwise Write.Apart := by
  induction segments generalizing start with
  | nil =>
      refine ⟨by simp [finish], fun w hw => absurd hw List.not_mem_nil, List.Pairwise.nil⟩
  | cons s rest ih =>
      have hs : (s.bytes.length : Int) ≤ s.step := hroomy s List.mem_cons_self
      have hrest := fun r hr => hroomy r (List.mem_cons_of_mem s hr)
      have hnonneg := total_nonneg hrest
      rw [total_cons] at htotal ⊢
      have hwrap : wrap32 (start + s.step) = start + s.step :=
        wrap32_of_le (by omega) (by omega)
      obtain ⟨hfinish, hinside, hapart⟩ := @ih (start + s.step) (by omega) hrest (by omega)
      simp only [finish, place, hwrap]
      refine ⟨by omega, ?_, ?_⟩
      · intro w hw
        rcases List.mem_cons.mp hw with rfl | hw
        · refine ⟨le_rfl, ?_⟩
          change start + (s.bytes.length : Int) ≤ _
          omega
        · have := hinside w hw
          omega
      · rw [List.pairwise_cons]
        refine ⟨fun w hw => Or.inl ?_, hapart⟩
        have := hinside w hw
        change start + (s.bytes.length : Int) ≤ w.address
        omega

/-- A segment writes something, and unless it writes more than any buffer
holds its step is one an `int32_t` can make. -/
structure Plain (s : Segment) : Prop where
  nonempty : 0 < s.bytes.length
  step : 0 < s.step ∧ s.step ≤ int32Max ∨ int32Max < s.bytes.length

/-- Where the writes are inside the buffer and apart, the segments have
room and the sums do not wrap. -/
theorem roomy_of_place {start size : Int} {segments : List Segment}
    (hstart : 0 ≤ start ∧ start ≤ int32Max) (hplain : ∀ s ∈ segments, Plain s)
    (hsize : size = finish start segments)
    (hinside : ∀ w ∈ place start segments, w.Inside size)
    (hapart : (place start segments).Pairwise Write.Apart) :
    (∀ s ∈ segments, Roomy s) ∧ start + total segments ≤ int32Max := by
  induction segments generalizing start with
  | nil => exact ⟨fun s hs => absurd hs List.not_mem_nil, by simpa using hstart.2⟩
  | cons s rest ih =>
      have hs := hplain s List.mem_cons_self
      have hnonempty := hs.nonempty
      have hmax : size ≤ int32Max := by
        rw [hsize]
        exact finish_le hstart.2 _
      obtain ⟨-, hend⟩ := hinside ⟨start, s.bytes⟩ List.mem_cons_self
      simp only at hend
      have hstep : 0 < s.step ∧ s.step ≤ int32Max :=
        hs.step.resolve_right fun hlong => by omega
      simp only [place, List.pairwise_cons] at hinside hapart
      -- what comes next does not start at a negative offset
      have hnext : start + s.step ≤ int32Max ∧ Roomy s := by
        cases rest with
        | nil =>
            have hlast : size = wrap32 (start + s.step) := hsize
            have hle := le_of_wrap32_nonneg (v := start + s.step) (by omega) (by omega) (by omega)
            rw [wrap32_of_le (by omega) hle] at hlast
            exact ⟨hle, show (s.bytes.length : Int) ≤ s.step by omega⟩
        | cons r rest =>
            have hmem : (⟨wrap32 (start + s.step), r.bytes⟩ : Write) ∈
                place (wrap32 (start + s.step)) (r :: rest) := List.mem_cons_self
            have hr := hinside _ (List.mem_cons_of_mem _ hmem)
            have hle := le_of_wrap32_nonneg (v := start + s.step) (by omega) (by omega) hr.1
            have hwrap := wrap32_of_le (v := start + s.step) (by omega) hle
            refine ⟨hle, ?_⟩
            have happ := hapart.1 _ hmem
            simp only [Write.Apart, hwrap] at happ
            exact show (s.bytes.length : Int) ≤ s.step by omega
      have hwrap := wrap32_of_le (v := start + s.step) (by omega) hnext.1
      obtain ⟨hroomy, htotal⟩ := @ih (wrap32 (start + s.step)) (by omega)
        (fun r hr => hplain r (List.mem_cons_of_mem s hr)) hsize
        (fun w hw => hinside w (List.mem_cons_of_mem _ hw)) hapart.2
      rw [hwrap] at htotal
      refine ⟨fun r hr => ?_, by rw [total_cons]; omega⟩
      rcases List.mem_cons.mp hr with rfl | hr
      · exact hnext.2
      · exact hroomy r hr

/-- The step is over the bytes of the segment, if an `int32_t` can count
them. -/
def Exact (s : Segment) : Prop :=
  (s.bytes.length : Int) ≤ int32Max → s.step = s.bytes.length

/-- Where the steps are over the bytes, it is enough that the writes are
inside. -/
theorem roomy_of_inside {start size : Int} {segments : List Segment}
    (hstart : 0 ≤ start ∧ start ≤ size) (hsize : size ≤ int32Max)
    (hexact : ∀ s ∈ segments, Exact s) (hinside : ∀ w ∈ place start segments, w.Inside size) :
    (∀ s ∈ segments, Roomy s) ∧ start + total segments ≤ size := by
  induction segments generalizing start with
  | nil => exact ⟨fun s hs => absurd hs List.not_mem_nil, by simpa using hstart.2⟩
  | cons s rest ih =>
      obtain ⟨-, hend⟩ := hinside ⟨start, s.bytes⟩ List.mem_cons_self
      simp only at hend
      have hstep : s.step = s.bytes.length := hexact s List.mem_cons_self (by omega)
      have hwrap : wrap32 (start + s.step) = start + s.step :=
        wrap32_of_le (by omega) (by omega)
      simp only [place, hwrap] at hinside
      obtain ⟨hroomy, htotal⟩ := @ih (start + s.step) (by omega)
        (fun r hr => hexact r (List.mem_cons_of_mem s hr))
        (fun w hw => hinside w (List.mem_cons_of_mem _ hw))
      refine ⟨fun r hr => ?_, by rw [total_cons]; omega⟩
      rcases List.mem_cons.mp hr with rfl | hr
      · exact hstep.ge
      · exact hroomy r hr

/-- A layout is good exactly if every segment has room and the sums do
not wrap. -/
theorem writes_fit_iff {segments : List Segment} (hplain : ∀ s ∈ segments, Plain s) :
    ((∀ w ∈ place 0 segments, w.Inside (finish 0 segments)) ∧
      (place 0 segments).Pairwise Write.Apart) ↔
      (∀ s ∈ segments, Roomy s) ∧ total segments ≤ int32Max := by
  constructor
  · rintro ⟨hinside, hapart⟩
    have h := roomy_of_place ⟨le_rfl, by decide⟩ hplain rfl hinside hapart
    exact ⟨h.1, by simpa using h.2⟩
  · rintro ⟨hroomy, htotal⟩
    obtain ⟨hfinish, hinside, hapart⟩ := place_of_roomy le_rfl hroomy (by simpa using htotal)
    refine ⟨fun w hw => ?_, hapart⟩
    obtain ⟨hlo, hhi⟩ := hinside w hw
    exact ⟨hlo, by omega⟩

end Segment

end ScuDb.Foundations
