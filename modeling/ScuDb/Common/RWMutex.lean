import Mathlib.Algebra.BigOperators.Group.Finset.Piecewise
import Mathlib.Algebra.Order.BigOperators.Group.Finset
import Mathlib.Data.Fintype.BigOperators
import ScuDb.Foundations.Refinement

/-!
The reader-writer lock, used by any number of threads.

What a member function does between taking `mutex_` and returning or
waiting is one step. A wait may end at any time, notified or not, so the
notifications leave no trace in the state. A writer first claims
`writer_entered_` and then waits for the readers to leave; that there is
one claim at most, counting the writer that has got in, is the invariant
that keeps writers apart.
-/

namespace ScuDb

open Foundations

structure RWMutex where
  readerCount : UInt32
  writerEntered : Bool
  deriving DecidableEq

namespace RWMutex

/-- `UINT_MAX` -/
def maxReaders : UInt32 := 4294967295

def init : RWMutex := ⟨0, false⟩

/-- The loop in which a call waits. -/
inductive Waiting
  | writerEntered
  | readersLeft
  | toRead
  deriving DecidableEq

/-! The critical sections. A call that does not wait returns. -/

/-- `WLock` from its second loop on. -/
def wLockDrain (m : RWMutex) : RWMutex × Option Waiting :=
  if m.readerCount > 0 then (m, some .readersLeft) else (m, none)

def wLock (m : RWMutex) : RWMutex × Option Waiting :=
  if m.writerEntered = true then (m, some .writerEntered)
  else wLockDrain { m with writerEntered := true }

def wUnlock (m : RWMutex) : RWMutex := { m with writerEntered := false }

def rLock (m : RWMutex) : RWMutex × Option Waiting :=
  if m.writerEntered = true ∨ m.readerCount = maxReaders then (m, some .toRead)
  else ({ m with readerCount := m.readerCount + 1 }, none)

def rUnlock (m : RWMutex) : RWMutex := { m with readerCount := m.readerCount - 1 }

theorem toNat_succ {n : UInt32} (h : n ≠ maxReaders) : (n + 1).toNat = n.toNat + 1 := by
  have hlt := n.toNat_lt
  have hne : n.toNat ≠ 4294967295 := fun heq => h (UInt32.toNat_inj.mp heq)
  rw [UInt32.toNat_add]
  simp
  omega

theorem toNat_pred {n : UInt32} (h : 0 < n.toNat) : (n - 1).toNat = n.toNat - 1 := by
  have hle : (1 : UInt32) ≤ n := UInt32.le_iff_toNat_le.mpr h
  rw [UInt32.toNat_sub_of_le _ _ hle]
  rfl

/-! ### Threads -/

/-- A thread: the loop it waits in, and how often it holds the lock. -/
structure Thread where
  waiting : Option Waiting
  writes : Nat
  reads : Nat
  deriving DecidableEq

namespace Thread

def idle : Thread := ⟨none, 0, 0⟩

def afterWLock (t : Thread) (w : Option Waiting) : Thread :=
  { t with waiting := w, writes := if w = none then t.writes + 1 else t.writes }

def afterRLock (t : Thread) (w : Option Waiting) : Thread :=
  { t with waiting := w, reads := if w = none then t.reads + 1 else t.reads }

/-- What the thread has got in as a writer, or has claimed to. -/
def claims (t : Thread) : Nat := t.writes + if t.waiting = some .readersLeft then 1 else 0

end Thread

/-- The lock and the threads that use it. -/
structure Locking (ι : Type) where
  mutex : RWMutex
  threads : ι → Thread

inductive Step (ι : Type)
  | wLock (i : ι)
  | wUnlock (i : ι)
  | rLock (i : ι)
  | rUnlock (i : ι)
  | wake (i : ι)

namespace Locking

variable {ι : Type}

def unused : Locking ι := ⟨init, fun _ => .idle⟩

/-! The sum of `f` over the threads. -/

section Total

variable [Fintype ι]

def total (s : Locking ι) (f : Thread → Nat) : Nat := ∑ i, f (s.threads i)

theorem le_total (s : Locking ι) (i : ι) (f : Thread → Nat) : f (s.threads i) ≤ s.total f :=
  Finset.single_le_sum (f := fun j => f (s.threads j)) (fun _ _ => Nat.zero_le _)
    (Finset.mem_univ i)

theorem writes_le_claims (s : Locking ι) : s.total Thread.writes ≤ s.total Thread.claims :=
  Finset.sum_le_sum fun _ _ => Nat.le_add_right _ _

/-- One writer at most has claimed the lock, the readers are counted, and
there is none while a writer is in. -/
structure Exclusive (s : Locking ι) : Prop where
  claims : s.total Thread.claims = if s.mutex.writerEntered = true then 1 else 0
  reads : s.mutex.readerCount.toNat = s.total Thread.reads
  apart : 0 < s.total Thread.writes → s.total Thread.reads = 0

theorem exclusive_unused : Exclusive (unused : Locking ι) where
  claims := Finset.sum_eq_zero fun _ _ => rfl
  reads := (Finset.sum_eq_zero fun _ _ => rfl).symm
  apart _ := Finset.sum_eq_zero fun _ _ => rfl

end Total

variable [DecidableEq ι]

/-- The thread `i` makes a step that leads to `m` and `t`. -/
def put (s : Locking ι) (i : ι) (m : RWMutex) (t : Thread) : Locking ι :=
  ⟨m, Function.update s.threads i t⟩

def next (s : Locking ι) : Step ι → Locking ι
  | .wLock i =>
      s.put i s.mutex.wLock.1 ((s.threads i).afterWLock s.mutex.wLock.2)
  | .wUnlock i =>
      s.put i s.mutex.wUnlock { s.threads i with writes := (s.threads i).writes - 1 }
  | .rLock i =>
      s.put i s.mutex.rLock.1 ((s.threads i).afterRLock s.mutex.rLock.2)
  | .rUnlock i =>
      s.put i s.mutex.rUnlock { s.threads i with reads := (s.threads i).reads - 1 }
  | .wake i =>
      match (s.threads i).waiting with
      | none => s
      | some .writerEntered =>
          s.put i s.mutex.wLock.1 ((s.threads i).afterWLock s.mutex.wLock.2)
      | some .readersLeft =>
          s.put i s.mutex.wLockDrain.1 ((s.threads i).afterWLock s.mutex.wLockDrain.2)
      | some .toRead =>
          s.put i s.mutex.rLock.1 ((s.threads i).afterRLock s.mutex.rLock.2)

/-- A thread makes one call at a time, and unlocks only what it holds. -/
def May : Step ι → Locking ι → Prop
  | .wLock i, s => (s.threads i).waiting = none
  | .wUnlock i, s => (s.threads i).waiting = none ∧ 0 < (s.threads i).writes
  | .rLock i, s => (s.threads i).waiting = none
  | .rUnlock i, s => (s.threads i).waiting = none ∧ 0 < (s.threads i).reads
  | .wake i, s => (s.threads i).waiting ≠ none

instance decidableMay : ∀ (a : Step ι) (s : Locking ι), Decidable (May a s)
  | .wLock i, s => inferInstanceAs (Decidable ((s.threads i).waiting = none))
  | .wUnlock i, s =>
      inferInstanceAs (Decidable ((s.threads i).waiting = none ∧ 0 < (s.threads i).writes))
  | .rLock i, s => inferInstanceAs (Decidable ((s.threads i).waiting = none))
  | .rUnlock i, s =>
      inferInstanceAs (Decidable ((s.threads i).waiting = none ∧ 0 < (s.threads i).reads))
  | .wake i, s => inferInstanceAs (Decidable ((s.threads i).waiting ≠ none))

def step (a : Step ι) : Program Empty (Locking ι) Unit :=
  modify fun s => s.next a

/-- The states that interleavings of the threads lead to. -/
def Reached (s : Locking ι) : Prop :=
  Reachable (fun s => s = (unused : Locking ι)) May step s

theorem Reached.next {s : Locking ι} (h : Reached s) (a : Step ι) (ha : May a s) :
    Reached (s.next a) :=
  Reachable.next h ha rfl

section Invariant

variable [Fintype ι]

theorem total_put (s : Locking ι) (i : ι) (m : RWMutex) (t : Thread) (f : Thread → Nat) :
    (s.put i m t).total f + f (s.threads i) = s.total f + f t := by
  have hold := Finset.add_sum_erase Finset.univ (fun j => f (s.threads j)) (Finset.mem_univ i)
  have hnew := Finset.add_sum_erase Finset.univ
    (fun j => f (Function.update s.threads i t j)) (Finset.mem_univ i)
  have hrest : ∑ j ∈ Finset.univ.erase i, f (Function.update s.threads i t j) =
      ∑ j ∈ Finset.univ.erase i, f (s.threads j) := by
    refine Finset.sum_congr rfl fun j hj => ?_
    rw [Function.update_of_ne (Finset.ne_of_mem_erase hj)]
  simp only [hrest, Function.update_self] at hnew
  simp only [total, put]
  omega

namespace Exclusive

variable {s : Locking ι} {i : ι}

/-- What a step that keeps the invariant may do. -/
theorem put (h : Exclusive s) {m : RWMutex} {t : Thread}
    (hclaims : t.claims + (if s.mutex.writerEntered = true then 1 else 0) =
      (s.threads i).claims + if m.writerEntered = true then 1 else 0)
    (hreads : t.reads + s.mutex.readerCount.toNat =
      (s.threads i).reads + m.readerCount.toNat)
    (hapart : m.readerCount.toNat = 0 ∨ t.writes ≤ (s.threads i).writes ∧
      (s.mutex.writerEntered ≠ true ∨
        m.readerCount.toNat ≤ s.mutex.readerCount.toNat)) :
    Exclusive (s.put i m t) := by
  have hc := s.total_put i m t Thread.claims
  have hr := s.total_put i m t Thread.reads
  have hw := s.total_put i m t Thread.writes
  have hle := s.writes_le_claims
  have hself := s.le_total i Thread.reads
  have hold := h.claims
  have hcount := h.reads
  have hreads' : m.readerCount.toNat = (s.put i m t).total Thread.reads := by omega
  refine ⟨?_, hreads', fun hpos => ?_⟩
  · change _ = if m.writerEntered = true then 1 else 0
    omega
  · rcases hapart with hzero | ⟨hwrites, hno | hless⟩
    · omega
    · rw [if_neg hno] at hold
      omega
    · have hnone := h.apart (by omega)
      omega

/-- The second loop of `WLock`. -/
theorem wLockDrain (h : Exclusive s) (hi : (s.threads i).waiting = some .readersLeft) :
    Exclusive (s.put i s.mutex.wLockDrain.1
      ((s.threads i).afterWLock s.mutex.wLockDrain.2)) := by
  rw [RWMutex.wLockDrain]
  split
  · exact h.put (by simp [Thread.afterWLock, Thread.claims, hi]) rfl
      (.inr ⟨by simp [Thread.afterWLock], .inr le_rfl⟩)
  · rename_i hzero
    refine h.put (by simp [Thread.afterWLock, Thread.claims, hi]) rfl (.inl ?_)
    simpa [UInt32.lt_iff_toNat_lt] using hzero

/-- `WLock` from its first loop on. -/
theorem wLock (h : Exclusive s) (hi : (s.threads i).waiting ≠ some .readersLeft) :
    Exclusive (s.put i s.mutex.wLock.1 ((s.threads i).afterWLock s.mutex.wLock.2)) := by
  rw [RWMutex.wLock]
  split
  · exact h.put (by simp [Thread.afterWLock, Thread.claims, hi]) rfl
      (.inr ⟨by simp [Thread.afterWLock], .inr le_rfl⟩)
  · rename_i hfree
    rw [RWMutex.wLockDrain]
    split
    · exact h.put (by simp [Thread.afterWLock, Thread.claims, hi, hfree]) rfl
        (.inr ⟨by simp [Thread.afterWLock], .inr le_rfl⟩)
    · rename_i hzero
      refine h.put (by simp [Thread.afterWLock, Thread.claims, hi, hfree]) rfl (.inl ?_)
      simpa [UInt32.lt_iff_toNat_lt] using hzero

theorem wUnlock (h : Exclusive s) (hi : (s.threads i).waiting = none)
    (hheld : 0 < (s.threads i).writes) :
    Exclusive (s.put i s.mutex.wUnlock
      { s.threads i with writes := (s.threads i).writes - 1 }) := by
  have hentered : s.mutex.writerEntered = true := by
    have hclaims := h.claims
    have hle := (s.le_total i Thread.writes).trans s.writes_le_claims
    by_contra hno
    rw [if_neg hno] at hclaims
    omega
  refine h.put ?_ rfl (.inr ⟨Nat.sub_le _ _, .inr le_rfl⟩)
  simp [Thread.claims, RWMutex.wUnlock, hi, hentered]
  omega

theorem rLock (h : Exclusive s) (hi : (s.threads i).waiting ≠ some .readersLeft) :
    Exclusive (s.put i s.mutex.rLock.1 ((s.threads i).afterRLock s.mutex.rLock.2)) := by
  rw [RWMutex.rLock]
  split
  · exact h.put (by simp [Thread.afterRLock, Thread.claims, hi]) rfl
      (.inr ⟨by simp [Thread.afterRLock], .inr le_rfl⟩)
  · rename_i hmay
    obtain ⟨hfree, hroom⟩ := not_or.mp hmay
    have hcount : (s.mutex.readerCount + 1).toNat = s.mutex.readerCount.toNat + 1 :=
      toNat_succ hroom
    refine h.put (by simp [Thread.afterRLock, Thread.claims, hi]) ?_
      (.inr ⟨by simp [Thread.afterRLock], .inl hfree⟩)
    simp only [Thread.afterRLock, if_true]
    omega

theorem rUnlock (h : Exclusive s) (hheld : 0 < (s.threads i).reads) :
    Exclusive (s.put i s.mutex.rUnlock
      { s.threads i with reads := (s.threads i).reads - 1 }) := by
  have hpos : 0 < s.mutex.readerCount.toNat := by
    have hle := s.le_total i Thread.reads
    rw [h.reads]
    omega
  have hcount := toNat_pred hpos
  refine h.put rfl ?_ (.inr ⟨le_rfl, .inr ?_⟩)
  · simp only [RWMutex.rUnlock]
    omega
  · simp only [RWMutex.rUnlock]
    omega

theorem next (h : Exclusive s) {a : Step ι} (ha : May a s) : Exclusive (s.next a) := by
  cases a with
  | wLock i => exact h.wLock (by rw [show _ = none from ha]; simp)
  | wUnlock i => exact h.wUnlock ha.1 ha.2
  | rLock i => exact h.rLock (by rw [show _ = none from ha]; simp)
  | rUnlock i => exact h.rUnlock ha.2
  | wake i =>
      rw [Locking.next]
      split
      · exact h
      case h_2 hi => exact h.wLock (by simp [hi])
      case h_3 hi => exact h.wLockDrain hi
      case h_4 hi => exact h.rLock (by simp [hi])

theorem of_reached (h : Reached s) : Exclusive s := by
  refine h.invariant ?_ fun a s hs ha => ?_
  · rintro _ rfl
    exact exclusive_unused
  · exact wp_modify.mpr (hs.next ha)

end Exclusive

omit [Fintype ι] in
/-- A step is made by one thread, which takes or gives back one read lock
at most. -/
theorem exists_put (s : Locking ι) (a : Step ι) : ∃ i m t, s.next a = s.put i m t ∧
    t.reads ≤ (s.threads i).reads + 1 ∧ (s.threads i).reads ≤ t.reads + 1 := by
  have hreader : ∀ (i : ι) (w : Option Waiting),
      ((s.threads i).afterRLock w).reads ≤ (s.threads i).reads + 1 ∧
        (s.threads i).reads ≤ ((s.threads i).afterRLock w).reads + 1 := by
    intro i w
    simp only [Thread.afterRLock]
    split <;> omega
  cases a with
  | wLock i => exact ⟨i, _, _, rfl, Nat.le_succ _, Nat.le_succ _⟩
  | wUnlock i => exact ⟨i, _, _, rfl, Nat.le_succ _, Nat.le_succ _⟩
  | rLock i => exact ⟨i, _, _, rfl, hreader i _⟩
  | rUnlock i =>
      refine ⟨i, _, _, rfl, ?_, ?_⟩
      · simp only
        omega
      · simp only
        omega
  | wake i =>
      rw [next]
      split
      · refine ⟨i, s.mutex, s.threads i, ?_, Nat.le_succ _, Nat.le_succ _⟩
        rw [put, Function.update_eq_self]
      · exact ⟨i, _, _, rfl, Nat.le_succ _, Nat.le_succ _⟩
      · exact ⟨i, _, _, rfl, Nat.le_succ _, Nat.le_succ _⟩
      · exact ⟨i, _, _, rfl, hreader i _⟩

/-- In every state that any number of threads reach: one of them at most
is past `WLock`, none holds the read lock then, and the reader count is
the number of read locks held, which no step makes wrap around. It is the
number of the threads that hold one, as long as none holds two. -/
theorem mutual_exclusion {s : Locking ι} (h : Reached s) :
    (∀ i j, 0 < (s.threads i).writes → 0 < (s.threads j).writes → i = j) ∧
      (∀ i, (s.threads i).writes ≤ 1) ∧
      (∀ i, 0 < (s.threads i).writes → ∀ j, (s.threads j).reads = 0) ∧
      s.mutex.readerCount.toNat = ∑ i, (s.threads i).reads ∧
      ((∀ i, (s.threads i).reads ≤ 1) →
        s.mutex.readerCount.toNat = Fintype.card {i // 0 < (s.threads i).reads}) ∧
      ∀ a, May a s → (s.next a).mutex.readerCount.toNat ≤ s.mutex.readerCount.toNat + 1 ∧
        s.mutex.readerCount.toNat ≤ (s.next a).mutex.readerCount.toNat + 1 := by
  have hs := Exclusive.of_reached h
  have hone : s.total Thread.writes ≤ 1 := by
    refine s.writes_le_claims.trans ?_
    rw [hs.claims]
    split <;> omega
  refine ⟨fun i j hi hj => ?_, fun i => (s.le_total i Thread.writes).trans hone, fun i hi j => ?_,
    hs.reads, fun hsingle => ?_, fun a ha => ?_⟩
  · by_contra hne
    have hpair := Finset.add_le_sum (f := fun k => (s.threads k).writes)
      (fun k _ => Nat.zero_le _) (Finset.mem_univ i) (Finset.mem_univ j) hne
    have htotal : (s.threads i).writes + (s.threads j).writes ≤ s.total Thread.writes := hpair
    omega
  · have hpos := hi.trans_le (s.le_total i Thread.writes)
    have hle := s.le_total j Thread.reads
    rw [hs.apart hpos] at hle
    exact Nat.le_zero.mp hle
  · rw [hs.reads, Fintype.card_subtype, Finset.card_filter]
    refine Finset.sum_congr rfl fun i _ => ?_
    have hle := hsingle i
    split <;> omega
  · obtain ⟨i, m, t, hput, hle, hge⟩ := s.exists_put a
    have hreads := (hs.next ha).reads
    have htotal := s.total_put i m t Thread.reads
    rw [hput] at hreads ⊢
    have hcount := hs.reads
    omega

end Invariant

/-- Two readers, then a writer that has to wait for them. -/
theorem mutual_exclusion_two_readers : ∃ s : Locking (Fin 3),
    s.mutex = ⟨1, true⟩ ∧ (s.threads 2).waiting = some .readersLeft ∧
      (∀ i j, 0 < (s.threads i).writes → 0 < (s.threads j).writes → i = j) ∧
      (∀ i, (s.threads i).writes ≤ 1) ∧
      (∀ i, 0 < (s.threads i).writes → ∀ j, (s.threads j).reads = 0) ∧
      s.mutex.readerCount.toNat = ∑ i, (s.threads i).reads ∧
      ((∀ i, (s.threads i).reads ≤ 1) →
        s.mutex.readerCount.toNat = Fintype.card {i // 0 < (s.threads i).reads}) ∧
      ∀ a, May a s → (s.next a).mutex.readerCount.toNat ≤ s.mutex.readerCount.toNat + 1 ∧
        s.mutex.readerCount.toNat ≤ (s.next a).mutex.readerCount.toNat + 1 := by
  have hreached : Reached ((((unused.next (.rLock 0)).next (.rLock 1)).next (.wLock 2)).next
      (.rUnlock 0) : Locking (Fin 3)) :=
    (((Reached.next (.start rfl) (.rLock 0) (by decide)).next (.rLock 1) (by decide)).next
      (.wLock 2) (by decide)).next (.rUnlock 0) (by decide)
  exact ⟨_, rfl, rfl, mutual_exclusion hreached⟩

/-- A thread that takes the read lock twice is one thread, and counts
twice. -/
theorem reader_counted_twice : ∃ s : Locking (Fin 1), Reached s ∧
    s.mutex.readerCount.toNat ≠ Fintype.card {i // 0 < (s.threads i).reads} := by
  refine ⟨(unused.next (.rLock 0)).next (.rLock 0),
    (Reached.next (.start rfl) (.rLock 0) (by decide)).next (.rLock 0) (by decide), ?_⟩
  decide

end Locking

end RWMutex

end ScuDb
