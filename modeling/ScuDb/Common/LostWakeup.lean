import ScuDb.Common.RWMutex
import ScuDb.Foundations.Notice

/-!
The notifications of the reader-writer lock.

A thread that waits sleeps until it is notified, or wakes for no reason.
Here a step also gives the notice of its critical section. What may go
wrong is that a thread sleeps on although what it waits for has come;
`RUnlock` gives a notice only when the count leaves its maximum, and only
to one thread, so that this depends on how many threads there are. The
end of the module is about writers, which come before the readers that
call after them.
-/

namespace ScuDb

open Foundations

namespace RWMutex

/-- The condition variables `reader_` and `writer_`. -/
inductive Condition
  | reader
  | writer
  deriving DecidableEq

def Waiting.on : Waiting → Condition
  | .writerEntered => .reader
  | .readersLeft => .writer
  | .toRead => .reader

/-- The conditions of the loops. -/
def Blocked : Waiting → RWMutex → Prop
  | .writerEntered, m => m.writerEntered = true
  | .readersLeft, m => m.readerCount > 0
  | .toRead, m => m.writerEntered = true ∨ m.readerCount = maxReaders

def wUnlockNotice : Notice Condition := .all .reader

def rUnlockNotice (m : RWMutex) : Notice Condition :=
  if m.rUnlock.writerEntered = true then
    if m.rUnlock.readerCount = 0 then .one .writer else .silent
  else
    if m.rUnlock.readerCount = maxReaders - 1 then .one .reader else .silent

section Attempts

variable {m : RWMutex} {l : Waiting}

/-! A call that waits is in a loop whose condition holds. -/

theorem blocked_wLockDrain (h : m.wLockDrain.2 = some l) : Blocked l m.wLockDrain.1 := by
  rw [wLockDrain] at h ⊢
  split at h
  case isTrue hreaders =>
    cases h
    rw [if_pos hreaders]
    exact hreaders
  case isFalse => cases h

theorem blocked_wLock (h : m.wLock.2 = some l) : Blocked l m.wLock.1 := by
  rw [wLock] at h ⊢
  split at h
  case isTrue hentered =>
    cases h
    rw [if_pos hentered]
    exact hentered
  case isFalse hfree =>
    rw [if_neg hfree]
    exact blocked_wLockDrain h

theorem blocked_rLock (h : m.rLock.2 = some l) : Blocked l m.rLock.1 := by
  rw [rLock] at h ⊢
  split at h
  case isTrue hfull =>
    cases h
    rw [if_pos hfull]
    exact hfull
  case isFalse => cases h

/-! A call that takes the lock, or attempts to, sets no loop free. -/

theorem wLockDrain_fst : m.wLockDrain.1 = m := by
  rw [wLockDrain]
  split <;> rfl

theorem Blocked.wLock (h : Blocked l m) : Blocked l m.wLock.1 := by
  rw [RWMutex.wLock]
  split
  case isTrue => exact h
  case isFalse hfree =>
    rw [wLockDrain_fst]
    cases l with
    | writerEntered => rfl
    | readersLeft => exact h
    | toRead => exact .inl rfl

theorem Blocked.rLock (h : Blocked l m) : Blocked l m.rLock.1 := by
  rw [RWMutex.rLock]
  split
  case isTrue => exact h
  case isFalse hroom =>
    obtain ⟨hfree, hmax⟩ := not_or.mp hroom
    cases l with
    | writerEntered => exact absurd h hfree
    | readersLeft =>
        refine UInt32.lt_iff_toNat_lt.mpr ?_
        rw [toNat_succ hmax]
        exact Nat.succ_pos _
    | toRead => exact absurd h hroom

end Attempts

namespace Thread

variable {t : Thread}

/-- The thread holds the lock once at most, and not at all while it waits. -/
structure Single (t : Thread) : Prop where
  held : t.writes + t.reads ≤ 1
  waiting : t.waiting ≠ none → t.writes + t.reads = 0

theorem Single.afterWLock (h : t.writes + t.reads = 0) (w : Option Waiting) :
    Single (t.afterWLock w) := by
  cases w with
  | none => exact ⟨by simp [Thread.afterWLock]; omega, fun hw => absurd rfl hw⟩
  | some l =>
      have hsame : (t.afterWLock (some l)).writes + (t.afterWLock (some l)).reads = 0 := h
      exact ⟨by omega, fun _ => hsame⟩

theorem Single.afterRLock (h : t.writes + t.reads = 0) (w : Option Waiting) :
    Single (t.afterRLock w) := by
  cases w with
  | none => exact ⟨by simp [Thread.afterRLock]; omega, fun hw => absurd rfl hw⟩
  | some l =>
      have hsame : (t.afterRLock (some l)).writes + (t.afterRLock (some l)).reads = 0 := h
      exact ⟨by omega, fun _ => hsame⟩

theorem claims_pos (h : t.waiting = some .readersLeft) : 0 < t.claims := by
  rw [claims, if_pos h]
  exact Nat.succ_pos _

theorem claims_eq (h : t.waiting ≠ some .readersLeft) : t.claims = t.writes := by
  rw [claims, if_neg h, Nat.add_zero]

/-- What a thread has yet to go through to be idle. -/
def weight (t : Thread) : Nat :=
  (match t.waiting with
    | none => 0
    | some .writerEntered => 3
    | some .readersLeft => 2
    | some .toRead => 2) + t.writes + t.reads

theorem eq_idle_of_weight (h : t.weight = 0) : t = idle := by
  obtain ⟨w, writes, reads⟩ := t
  cases w with
  | none =>
      simp only [weight, Nat.zero_add, Nat.add_eq_zero_iff] at h
      rw [h.1, h.2]
      rfl
  | some l => cases l <;> simp [weight] at h

theorem weight_wLockDrain (m : RWMutex) (h : t.waiting = some .readersLeft) :
    (t.afterWLock m.wLockDrain.2).weight < t.weight ∨ t.afterWLock m.wLockDrain.2 = t := by
  obtain ⟨w, writes, reads⟩ := t
  cases h
  rw [wLockDrain]
  split
  · exact .inr rfl
  · refine .inl ?_
    simp only [weight, afterWLock, if_true]
    omega

theorem weight_wLock (m : RWMutex) (h : t.waiting = some .writerEntered) :
    (t.afterWLock m.wLock.2).weight < t.weight ∨ t.afterWLock m.wLock.2 = t := by
  obtain ⟨w, writes, reads⟩ := t
  cases h
  rw [wLock]
  split
  · exact .inr rfl
  · rw [wLockDrain]
    split
    · refine .inl ?_
      simp only [weight, afterWLock]
      simp
    · refine .inl ?_
      simp only [weight, afterWLock, if_true]
      omega

theorem weight_rLock (m : RWMutex) (h : t.waiting = some .toRead) :
    (t.afterRLock m.rLock.2).weight < t.weight ∨ t.afterRLock m.rLock.2 = t := by
  obtain ⟨w, writes, reads⟩ := t
  cases h
  rw [rLock]
  split
  · exact .inr rfl
  · refine .inl ?_
    simp only [weight, afterRLock, if_true]
    omega

end Thread

theorem Locking.Exclusive.entered_of_claims {ι : Type} [Fintype ι] {s : Locking ι} {i : ι}
    (h : s.Exclusive) (hi : 0 < (s.threads i).claims) : s.mutex.writerEntered = true := by
  have hle := s.le_total i Thread.claims
  have hone := h.claims
  by_contra hout
  rw [if_neg hout] at hone
  omega

namespace Step

variable {ι : Type}

def thread : Step ι → ι
  | .wLock i => i
  | .wUnlock i => i
  | .rLock i => i
  | .rUnlock i => i
  | .wake i => i

def notice (m : RWMutex) : Step ι → Notice Condition
  | .wLock _ => .silent
  | .wUnlock _ => wUnlockNotice
  | .rLock _ => .silent
  | .rUnlock _ => m.rUnlockNotice
  | .wake _ => .silent

end Step

/-- The lock with its threads, and which of those that wait have been
notified. -/
structure Waking (ι : Type) where
  locking : Locking ι
  notified : ι → Bool

/-- A step of a thread, and the thread that a notice to one goes to. -/
structure Event (ι : Type) where
  step : Step ι
  pick : ι

namespace Waking

variable {ι : Type}

def unused : Waking ι := ⟨.unused, fun _ => false⟩

def mutex (s : Waking ι) : RWMutex := s.locking.mutex

def thread (s : Waking ι) (i : ι) : Thread := s.locking.threads i

/-- The threads that wait and have not been notified. -/
def asleep (s : Waking ι) (i : ι) : Option Waiting :=
  if s.notified i = true then none else (s.thread i).waiting

variable [DecidableEq ι]

def next (s : Waking ι) (e : Event ι) : Waking ι where
  locking := s.locking.next e.step
  notified j :=
    if j = e.step.thread then false
    else s.notified j ||
      (s.thread j).waiting.any fun l => (e.step.notice s.mutex).reaches e.pick j l.on

/-- A lock is taken by a thread that holds none. -/
def Unnested : Step ι → Waking ι → Prop
  | .wLock i, s => (s.thread i).writes = 0 ∧ (s.thread i).reads = 0
  | .wUnlock _, _ => True
  | .rLock i, s => (s.thread i).writes = 0 ∧ (s.thread i).reads = 0
  | .rUnlock _, _ => True
  | .wake _, _ => True

/-- A thread takes the lock when it holds it neither way, and unlocks only
what it holds. -/
structure May (e : Event ι) (s : Waking ι) : Prop where
  may : Locking.May e.step s.locking
  unnested : Unnested e.step s
  picks : (e.step.notice s.mutex).Picks Waiting.on s.asleep e.pick

def step (e : Event ι) : Program Empty (Waking ι) Unit :=
  modify fun s => s.next e

def Reached (s : Waking ι) : Prop :=
  Reachable (fun s => s = (unused : Waking ι)) May step s

theorem Reached.next {s : Waking ι} (h : Reached s) {e : Event ι} (he : May e s) :
    Reached (s.next e) :=
  Reachable.next h he rfl

/-- What is reached with the notifications is reached without. -/
theorem Reached.locking {s : Waking ι} (h : Reached s) : s.locking.Reached := by
  refine Reachable.invariant (I := fun s => s.locking.Reached) ?_ (fun e s hs he => ?_) h
  · rintro _ rfl
    exact .start rfl
  · exact wp_modify.mpr (hs.next e.step he.may)

/-! ### What one step does -/

section Steps

variable {s : Locking ι} {a : Step ι}

theorem next_threads_of_ne (s : Locking ι) (a : Step ι) {j : ι} (h : j ≠ a.thread) :
    (s.next a).threads j = s.threads j := by
  cases a with
  | wake i =>
      rw [Locking.next]
      split
      · rfl
      all_goals exact Function.update_of_ne h _ _
  | _ => exact Function.update_of_ne h _ _

/-- A step makes an attempt at the lock, gets on in `WLock`, or unlocks. -/
theorem next_cases (ha : Locking.May a s) :
    (s.next a = s.put a.thread s.mutex.wLock.1
        ((s.threads a.thread).afterWLock s.mutex.wLock.2) ∧
      (a = .wLock a.thread ∨ a = .wake a.thread ∧
        (s.threads a.thread).waiting = some .writerEntered)) ∨
    (s.next a = s.put a.thread s.mutex.wLockDrain.1
        ((s.threads a.thread).afterWLock s.mutex.wLockDrain.2) ∧
      a = .wake a.thread ∧ (s.threads a.thread).waiting = some .readersLeft) ∨
    (s.next a = s.put a.thread s.mutex.rLock.1
        ((s.threads a.thread).afterRLock s.mutex.rLock.2) ∧
      (a = .rLock a.thread ∨ a = .wake a.thread ∧
        (s.threads a.thread).waiting = some .toRead)) ∨
    (∃ i, a = .wUnlock i) ∨ ∃ i, a = .rUnlock i := by
  cases a with
  | wLock i => exact .inl ⟨rfl, .inl rfl⟩
  | wUnlock i => exact .inr (.inr (.inr (.inl ⟨i, rfl⟩)))
  | rLock i => exact .inr (.inr (.inl ⟨rfl, .inl rfl⟩))
  | rUnlock i => exact .inr (.inr (.inr (.inr ⟨i, rfl⟩)))
  | wake i =>
      rw [Locking.next]
      cases hw : (s.threads i).waiting with
      | none => exact absurd hw ha
      | some l =>
          cases l with
          | writerEntered => exact .inl ⟨rfl, .inr ⟨rfl, hw⟩⟩
          | readersLeft => exact .inr (.inl ⟨rfl, rfl, hw⟩)
          | toRead => exact .inr (.inr (.inl ⟨rfl, .inr ⟨rfl, hw⟩⟩))

end Steps

theorem asleep_next_of_ne (s : Waking ι) (e : Event ι) {j : ι} (h : j ≠ e.step.thread) :
    (s.next e).asleep j =
      (e.step.notice s.mutex).wake Waiting.on s.asleep e.pick j := by
  simp only [asleep, next, Notice.wake, thread, if_neg h, next_threads_of_ne s.locking e.step h]
  cases s.notified j with
  | true => rfl
  | false =>
      cases (s.locking.threads j).waiting with
      | none => rfl
      | some l =>
          cases h : (e.step.notice s.mutex).reaches e.pick j l.on <;> simp [Option.filter, h]

theorem asleep_next_self (s : Waking ι) (e : Event ι) :
    (s.next e).asleep e.step.thread = ((s.next e).thread e.step.thread).waiting := by
  simp [asleep, next]

/-! ### The invariant -/

section Invariant

variable [Fintype ι]

/-- No thread that waits holds the lock, none holds it twice, and none
sleeps on although it could go on. -/
structure Orderly (s : Waking ι) : Prop where
  exclusive : s.locking.Exclusive
  single : ∀ i, (s.thread i).Single
  accounted : Notice.Accounted Blocked s.asleep s.mutex

omit [DecidableEq ι] in
theorem orderly_unused : Orderly (unused : Waking ι) where
  exclusive := Locking.exclusive_unused
  single _ := ⟨Nat.zero_le _, fun _ => rfl⟩
  accounted i l hi := by cases hi

namespace Orderly

variable {s : Waking ι} {e : Event ι}

omit [Fintype ι] in
/-- The thread that made the step is in a loop only with its condition. -/
theorem blocked_self (he : May e s) {l : Waiting}
    (hl : ((s.next e).thread e.step.thread).waiting = some l) :
    Blocked l (s.next e).mutex := by
  obtain ⟨a, pick⟩ := e
  simp only [thread, mutex, next] at hl ⊢
  rcases next_cases he.may with ⟨heq, -⟩ | ⟨heq, -⟩ | ⟨heq, -⟩ | ⟨i, rfl⟩ | ⟨i, rfl⟩
  · rw [heq] at hl ⊢
    simp only [Locking.put, Function.update_self] at hl
    exact blocked_wLock hl
  · rw [heq] at hl ⊢
    simp only [Locking.put, Function.update_self] at hl
    exact blocked_wLockDrain hl
  · rw [heq] at hl ⊢
    simp only [Locking.put, Function.update_self] at hl
    exact blocked_rLock hl
  · simp [Locking.next, Locking.put, Step.thread, he.may.1] at hl
  · simp [Locking.next, Locking.put, Step.thread, he.may.1] at hl

omit [Fintype ι] in
theorem single_next (hsingle : ∀ i, (s.thread i).Single) (he : May e s) (j : ι) :
    ((s.next e).thread j).Single := by
  by_cases hj : j = e.step.thread
  case neg =>
    simp only [thread, next, next_threads_of_ne s.locking e.step hj]
    exact hsingle j
  subst hj
  obtain ⟨a, pick⟩ := e
  have hself := hsingle a.thread
  have hunnested := he.unnested
  simp only [thread, next] at hself hunnested ⊢
  have hempty (h : a = .wLock a.thread ∨ a = .rLock a.thread ∨
      ∃ l, (s.locking.threads a.thread).waiting = some l) :
      (s.locking.threads a.thread).writes + (s.locking.threads a.thread).reads = 0 := by
    rcases h with heq | heq | ⟨l, hl⟩
    · rw [heq] at hunnested
      exact Nat.add_eq_zero_iff.mpr hunnested
    · rw [heq] at hunnested
      exact Nat.add_eq_zero_iff.mpr hunnested
    · exact hself.waiting (by simp [hl])
  rcases next_cases he.may with ⟨heq, hwhy⟩ | ⟨heq, hwhy⟩ | ⟨heq, hwhy⟩ | ⟨i, rfl⟩ | ⟨i, rfl⟩
  · rw [heq]
    simp only [Locking.put, Function.update_self]
    exact .afterWLock (hempty (hwhy.imp_right fun h => .inr ⟨_, h.2⟩)) _
  · rw [heq]
    simp only [Locking.put, Function.update_self]
    exact .afterWLock (hempty (.inr (.inr ⟨_, hwhy.2⟩))) _
  · rw [heq]
    simp only [Locking.put, Function.update_self]
    exact .afterRLock (hempty (.inr (hwhy.imp_right fun h => ⟨_, h.2⟩))) _
  · simp only [Locking.next, Locking.put, Step.thread, Function.update_self] at hself ⊢
    have hheld := hself.held
    exact ⟨by simp only; omega, fun hw => absurd he.may.1 hw⟩
  · simp only [Locking.next, Locking.put, Step.thread, Function.update_self] at hself ⊢
    have hheld := hself.held
    exact ⟨by simp only; omega, fun hw => absurd he.may.1 hw⟩

/-- What two threads that wait leave for the readers. -/
theorem reads_add_two_le (h : Orderly s) {i j : ι} (hne : i ≠ j)
    (hi : (s.thread i).waiting ≠ none) (hj : (s.thread j).waiting ≠ none) :
    s.locking.total Thread.reads + 2 ≤ Fintype.card ι := by
  have hreads {k : ι} (hk : (s.thread k).waiting ≠ none) : (s.locking.threads k).reads = 0 := by
    have hnone := (h.single k).waiting hk
    simp only [thread] at hnone
    omega
  have htotal : s.locking.total Thread.reads =
      ∑ k ∈ (Finset.univ.erase i).erase j, (s.locking.threads k).reads := by
    rw [Finset.sum_erase (f := fun k => (s.locking.threads k).reads) _ (hreads hj),
      Finset.sum_erase (f := fun k => (s.locking.threads k).reads) _ (hreads hi)]
    rfl
  have hle : ∑ k ∈ (Finset.univ.erase i).erase j, (s.locking.threads k).reads ≤
      ((Finset.univ.erase i).erase j).card :=
    Finset.card_eq_sum_ones ((Finset.univ.erase i).erase j) ▸
      Finset.sum_le_sum fun k _ => (Nat.le_add_left _ _).trans (h.single k).held
  have hpair : ({i, j} : Finset ι).card ≤ Fintype.card ι := Finset.card_le_univ _
  rw [Finset.card_pair hne] at hpair
  rw [Finset.card_erase_of_mem (Finset.mem_erase.mpr ⟨hne.symm, Finset.mem_univ j⟩),
    Finset.card_erase_of_mem (Finset.mem_univ i), Finset.card_univ] at hle
  omega

omit [Fintype ι] [DecidableEq ι] in
theorem waiting_of_asleep {i : ι} {l : Waiting} (h : s.asleep i = some l) :
    (s.thread i).waiting = some l := by
  rw [asleep] at h
  split at h
  · cases h
  · exact h

/-- One thread at most waits for the readers to leave. -/
theorem alone_writer (h : Orderly s) : Notice.Alone Waiting.on s.asleep .writer := by
  have hclaims {k : ι} {l : Waiting} (hk : s.asleep k = some l) (hl : l.on = .writer) :
      (s.locking.threads k).claims = (s.locking.threads k).writes + 1 := by
    cases l with
    | readersLeft =>
        have hwaits : (s.locking.threads k).waiting = some .readersLeft := waiting_of_asleep hk
        rw [Thread.claims, if_pos hwaits]
    | writerEntered => cases hl
    | toRead => cases hl
  intro i j l l' hi hj hl hl'
  by_contra hne
  have hpair := Finset.add_le_sum (f := fun k => (s.locking.threads k).claims)
    (fun k _ => Nat.zero_le _) (Finset.mem_univ i) (Finset.mem_univ j) hne
  have htotal : _ ≤ s.locking.total Thread.claims := hpair
  have hone := h.exclusive.claims
  rw [hclaims hi hl, hclaims hj hl'] at htotal
  split at hone <;> omega

/-- One thread at most waits for the count to leave its maximum. -/
theorem alone_reader (h : Orderly s) (hcard : Fintype.card ι ≤ 4294967296)
    (hfull : s.mutex.readerCount = maxReaders) : Notice.Alone Waiting.on s.asleep .reader := by
  intro i j l l' hi hj _ _
  by_contra hne
  have hle := h.reads_add_two_le hne (by rw [waiting_of_asleep hi]; simp)
    (by rw [waiting_of_asleep hj]; simp)
  have hcount := h.exclusive.reads
  have hmax : s.locking.mutex.readerCount.toNat = 4294967295 := by
    rw [show s.locking.mutex.readerCount = maxReaders from hfull]
    rfl
  omega

theorem covers (h : Orderly s) (hcard : Fintype.card ι ≤ 4294967296) (he : May e s) :
    (e.step.notice s.mutex).Covers Waiting.on Blocked s.asleep s.mutex (s.next e).mutex := by
  obtain ⟨a, pick⟩ := e
  intro j l hj hblocked hfree
  simp only [mutex, next] at hfree hblocked ⊢
  rcases next_cases he.may with ⟨heq, -⟩ | ⟨heq, -⟩ | ⟨heq, -⟩ | ⟨i, rfl⟩ | ⟨i, rfl⟩
  · rw [heq] at hfree
    exact absurd hblocked.wLock hfree
  · rw [heq] at hfree
    simp only [Locking.put, wLockDrain_fst] at hfree
    exact absurd hblocked hfree
  · rw [heq] at hfree
    exact absurd hblocked.rLock hfree
  · cases l with
    | writerEntered => exact .inl rfl
    | readersLeft => exact absurd hblocked hfree
    | toRead => exact .inl rfl
  · cases l with
    | writerEntered => exact absurd hblocked hfree
    | readersLeft =>
        have hentered : s.locking.mutex.rUnlock.writerEntered = true :=
          h.exclusive.entered_of_claims (Thread.claims_pos (waiting_of_asleep hj))
        have hzero : s.locking.mutex.rUnlock.readerCount = 0 := by
          refine UInt32.toNat_inj.mp (Nat.eq_zero_of_not_pos fun hlt => hfree ?_)
          exact UInt32.lt_iff_toNat_lt.mpr hlt
        refine .inr ⟨?_, h.alone_writer⟩
        rw [Step.notice, rUnlockNotice, if_pos hentered, if_pos hzero]
        rfl
    | toRead =>
        have hout : ¬s.locking.mutex.rUnlock.writerEntered = true := (not_or.mp hfree).1
        have hfull : s.mutex.readerCount = maxReaders := hblocked.resolve_left hout
        have hleft : s.locking.mutex.rUnlock.readerCount = maxReaders - 1 := by
          rw [rUnlock, show s.locking.mutex.readerCount = maxReaders from hfull]
        refine .inr ⟨?_, h.alone_reader hcard hfull⟩
        rw [Step.notice, rUnlockNotice, if_neg hout, if_pos hleft]
        rfl

theorem next (h : Orderly s) (hcard : Fintype.card ι ≤ 4294967296) (he : May e s) :
    Orderly (s.next e) where
  exclusive := h.exclusive.next he.may
  single := single_next h.single he
  accounted i l hi := by
    by_cases hself : i = e.step.thread
    · subst hself
      rw [asleep_next_self] at hi
      exact blocked_self he hi
    · rw [s.asleep_next_of_ne e hself] at hi
      exact h.accounted.wake he.picks (h.covers hcard he) i l hi

theorem of_reached (hcard : Fintype.card ι ≤ 4294967296) (h : Reached s) : Orderly s := by
  refine Reachable.invariant ?_ (fun e s hs he => ?_) h
  · rintro _ rfl
    exact orderly_unused
  · exact wp_modify.mpr (hs.next hcard he)

end Orderly

/-! ### Threads that only give back what they hold -/

/-- A thread unlocks, or one that has been notified goes on. -/
def Returning : Step ι → Waking ι → Prop
  | .wLock _, _ => False
  | .wUnlock _, _ => True
  | .rLock _, _ => False
  | .rUnlock _, _ => True
  | .wake i, s => s.notified i = true

def GivesBack (e : Event ι) (s : Waking ι) : Prop := May e s ∧ Returning e.step s

/-- What is left to do when no thread calls for the lock again. -/
def work (s : Waking ι) : Nat :=
  s.locking.total Thread.weight * (Fintype.card ι + 1) +
    (Finset.univ.filter fun i => s.notified i = true).card

omit [DecidableEq ι] in
theorem work_lt {s s' : Waking ι}
    (h : s'.locking.total Thread.weight < s.locking.total Thread.weight) : s'.work < s.work := by
  have hle : (Finset.univ.filter fun i => s'.notified i = true).card ≤ Fintype.card ι :=
    Finset.card_le_univ _
  calc s'.work < (s'.locking.total Thread.weight + 1) * (Fintype.card ι + 1) := by
        rw [work, Nat.succ_mul]
        omega
    _ ≤ s.locking.total Thread.weight * (Fintype.card ι + 1) := Nat.mul_le_mul_right _ h
    _ ≤ s.work := Nat.le_add_right _ _

/-- A step that is not an unlocking makes the thread that was notified wait
again, or takes it further. -/
theorem work_put {s : Waking ι} {e : Event ι} {m : RWMutex} {t : Thread}
    (heq : s.locking.next e.step = s.locking.put e.step.thread m t)
    (hsilent : e.step.notice s.mutex = .silent) (hnotified : s.notified e.step.thread = true)
    (ht : t.weight < (s.thread e.step.thread).weight ∨ t = s.thread e.step.thread) :
    (s.next e).work < s.work := by
  have htotal := s.locking.total_put e.step.thread m t Thread.weight
  rcases ht with hlt | rfl
  · refine work_lt ?_
    rw [next, heq]
    simp only [thread] at hlt
    simp only
    omega
  · have hless : (Finset.univ.filter fun i => (s.next e).notified i = true).card <
        (Finset.univ.filter fun i => s.notified i = true).card := by
      refine Finset.card_lt_card
        (Finset.ssubset_iff_subset_ne.mpr ⟨fun j hj => ?_, fun hsame => ?_⟩)
      · simp only [Finset.mem_filter, Finset.mem_univ, true_and, next, hsilent] at hj ⊢
        split at hj
        · cases hj
        · simpa [Notice.reaches] using hj
      · have hmem : e.step.thread ∈ Finset.univ.filter fun i => s.notified i = true := by
          simpa using hnotified
        rw [← hsame] at hmem
        simp [next] at hmem
    have hweight : (s.next e).locking.total Thread.weight = s.locking.total Thread.weight := by
      rw [next, heq]
      simp only [thread] at htotal
      simp only [thread]
      omega
    rw [work, work, hweight]
    omega

theorem GivesBack.work_lt {s : Waking ι} {e : Event ι} (he : GivesBack e s) :
    (s.next e).work < s.work := by
  obtain ⟨a, pick⟩ := e
  obtain ⟨hmay, hreturning⟩ := he
  rcases next_cases hmay.may with ⟨heq, hwhy⟩ | ⟨heq, hwhy⟩ | ⟨heq, hwhy⟩ | ⟨i, rfl⟩ | ⟨i, rfl⟩
  · rcases hwhy with hcall | ⟨hwake, hloop⟩
    · rw [hcall] at hreturning
      exact hreturning.elim
    · refine work_put heq ?_ ?_ (Thread.weight_wLock _ hloop)
      · rw [hwake]
        rfl
      · rw [hwake] at hreturning
        exact hreturning
  · refine work_put heq ?_ ?_ (Thread.weight_wLockDrain _ hwhy.2)
    · rw [hwhy.1]
      rfl
    · rw [hwhy.1] at hreturning
      exact hreturning
  · rcases hwhy with hcall | ⟨hwake, hloop⟩
    · rw [hcall] at hreturning
      exact hreturning.elim
    · refine work_put heq ?_ ?_ (Thread.weight_rLock _ hloop)
      · rw [hwake]
        rfl
      · rw [hwake] at hreturning
        exact hreturning
  · refine Waking.work_lt ?_
    have htotal := s.locking.total_put i s.mutex.wUnlock
      { s.thread i with writes := (s.thread i).writes - 1 } Thread.weight
    have hheld := hmay.may.2
    simp only [Thread.weight, thread, mutex] at htotal
    simp only [next, Locking.next]
    omega
  · refine Waking.work_lt ?_
    have htotal := s.locking.total_put i s.mutex.rUnlock
      { s.thread i with reads := (s.thread i).reads - 1 } Thread.weight
    have hheld := hmay.may.2
    simp only [Thread.weight, thread, mutex] at htotal
    simp only [next, Locking.next]
    omega

omit [Fintype ι] [DecidableEq ι] in
/-- There is always a thread for a notice to go to. -/
theorem exists_picks [Nonempty ι] (s : Waking ι) (n : Notice Condition) :
    ∃ pick, n.Picks Waiting.on s.asleep pick := by
  obtain ⟨j⟩ := ‹Nonempty ι›
  cases n with
  | silent => exact ⟨j, trivial⟩
  | all c => exact ⟨j, trivial⟩
  | one c =>
      by_cases hsome : ∃ i l, s.asleep i = some l ∧ l.on = c
      · obtain ⟨i, hi⟩ := hsome
        exact ⟨i, fun _ => hi⟩
      · exact ⟨j, fun h => absurd h hsome⟩

omit [DecidableEq ι] in
/-- A thread that is in the way of nobody else can go on. -/
theorem Orderly.exists_givesBack {s : Waking ι} (h : Orderly s) {i : ι}
    (hi : s.thread i ≠ .idle) : ∃ e, GivesBack e s := by
  have : Nonempty ι := ⟨i⟩
  by_cases hheld : ∃ k, (s.thread k).waiting = none ∧ s.thread k ≠ .idle
  · obtain ⟨k, hwaiting, hbusy⟩ := hheld
    by_cases hwrites : 0 < (s.thread k).writes
    · obtain ⟨pick, hpick⟩ := s.exists_picks (Step.notice s.mutex (.wUnlock k))
      exact ⟨⟨.wUnlock k, pick⟩, ⟨⟨hwaiting, hwrites⟩, trivial, hpick⟩, trivial⟩
    · by_cases hreads : 0 < (s.thread k).reads
      · obtain ⟨pick, hpick⟩ := s.exists_picks (Step.notice s.mutex (.rUnlock k))
        exact ⟨⟨.rUnlock k, pick⟩, ⟨⟨hwaiting, hreads⟩, trivial, hpick⟩, trivial⟩
      · refine absurd (Thread.eq_idle_of_weight ?_) hbusy
        rw [Thread.weight, hwaiting]
        simp only
        omega
  -- Every thread that is not idle waits, so that the lock is held by none.
  have hwaits {k : ι} (hk : s.thread k ≠ .idle) : (s.thread k).waiting ≠ none :=
    fun hnone => hheld ⟨k, hnone, hk⟩
  have hnone (k : ι) : (s.thread k).writes + (s.thread k).reads = 0 := by
    by_cases hk : s.thread k = .idle
    · rw [hk]
      rfl
    · exact (h.single k).waiting (hwaits hk)
  have hcount : ¬s.mutex.readerCount > 0 := by
    intro hpos
    have hreads : s.locking.total Thread.reads = 0 :=
      Finset.sum_eq_zero fun k _ => (Nat.add_eq_zero_iff.mp (hnone k)).2
    have hlt := UInt32.lt_iff_toNat_lt.mp hpos
    rw [mutex, h.exclusive.reads, hreads] at hlt
    exact absurd hlt (Nat.lt_irrefl 0)
  by_cases hnotified : ∃ k, (s.thread k).waiting ≠ none ∧ s.notified k = true
  · obtain ⟨k, hk, htold⟩ := hnotified
    exact ⟨⟨.wake k, k⟩, ⟨hk, trivial, trivial⟩, htold⟩
  -- All of them sleep, and what they wait for has not come.
  have hblocked {k : ι} {l : Waiting} (hk : (s.thread k).waiting = some l) :
      Blocked l s.mutex := by
    refine h.accounted k l ?_
    rw [asleep, if_neg fun htold => hnotified ⟨k, by rw [hk]; simp, htold⟩]
    exact hk
  have hentered : s.mutex.writerEntered = true := by
    obtain ⟨l, hl⟩ := Option.ne_none_iff_exists'.mp (hwaits hi)
    cases l with
    | writerEntered => exact hblocked hl
    | readersLeft => exact absurd (hblocked hl) hcount
    | toRead =>
        refine (hblocked hl).resolve_right fun hfull => hcount ?_
        rw [hfull]
        decide
  have hclaims := h.exclusive.claims
  rw [if_pos (show s.locking.mutex.writerEntered = true from hentered)] at hclaims
  obtain ⟨k, -, hk⟩ := Finset.exists_ne_zero_of_sum_ne_zero
    (show ∑ k, (s.locking.threads k).claims ≠ 0 by
      rw [show ∑ k, (s.locking.threads k).claims = 1 from hclaims]
      exact Nat.one_ne_zero)
  have hdrain : (s.thread k).waiting = some .readersLeft := by
    by_contra hother
    exact hk ((Thread.claims_eq hother).trans (Nat.add_eq_zero_iff.mp (hnone k)).1)
  exact absurd (hblocked hdrain) hcount

/-- The state that events lead to, one after the other. -/
def after (events : List (Event ι)) (s : Waking ι) : Waking ι :=
  (specAll (fun e s => ((), s.next e)) events s).2

theorem Orderly.drain (hcard : Fintype.card ι ≤ 4294967296) {s : Waking ι} (h : Orderly s)
    {events : List (Event ι)}
    (hevents : Admissible GivesBack (fun e s => ((), s.next e)) events s) :
    Orderly (after events s) ∧ events.length + (after events s).work ≤ s.work := by
  induction events generalizing s with
  | nil => exact ⟨h, by simp [after]⟩
  | cons e events ih =>
      obtain ⟨he, hrest⟩ := hevents
      obtain ⟨horderly, hle⟩ := ih (h.next hcard he.1) hrest
      have hlt := he.work_lt
      refine ⟨horderly, ?_⟩
      simp only [after, specAll_cons, List.length_cons] at hle ⊢
      omega

/-- Threads that take the lock only when they hold it neither way never
end up all waiting: from every state they reach, once no thread calls for
the lock any more, the threads that hold it and those that have been
notified come to the end after finitely many steps, in whatever order
they make them, and then no thread waits and none holds the lock. -/
theorem every_thread_gets_in (hcard : Fintype.card ι ≤ 4294967296) {s : Waking ι}
    (h : Reached s) :
    ∃ bound, ∀ events, Admissible GivesBack (fun e s => ((), s.next e)) events s →
      events.length ≤ bound ∧
        ((∃ e, GivesBack e (after events s)) ∨ ∀ i, (after events s).thread i = .idle) := by
  refine ⟨s.work, fun events hevents => ?_⟩
  obtain ⟨horderly, hle⟩ := (Orderly.of_reached hcard h).drain hcard hevents
  refine ⟨by omega, ?_⟩
  by_cases hidle : ∀ i, (after events s).thread i = .idle
  · exact .inr hidle
  · obtain ⟨i, hi⟩ := not_forall.mp hidle
    exact .inl (horderly.exists_givesBack hi)

end Invariant

/-- A writer waits for a reader, and a second reader for the writer. -/
theorem every_thread_gets_in_three : ∃ s : Waking (Fin 3),
    (s.thread 0).reads = 1 ∧ (s.thread 1).waiting = some .readersLeft ∧
      (s.thread 2).waiting = some .toRead ∧
      ∃ bound, ∀ events, Admissible GivesBack (fun e s => ((), s.next e)) events s →
        events.length ≤ bound ∧
          ((∃ e, GivesBack e (after events s)) ∨ ∀ i, (after events s).thread i = .idle) := by
  have hfirst : Reached ((unused : Waking (Fin 3)).next ⟨.rLock 0, 0⟩) :=
    Reached.next (.start rfl) ⟨by decide, ⟨rfl, rfl⟩, trivial⟩
  have hsecond := hfirst.next (e := ⟨.wLock 1, 0⟩) ⟨by decide, ⟨rfl, rfl⟩, trivial⟩
  have hthird := hsecond.next (e := ⟨.rLock 2, 0⟩) ⟨by decide, ⟨rfl, rfl⟩, trivial⟩
  exact ⟨_, rfl, rfl, rfl, every_thread_gets_in (by decide) hthird⟩

/-! ### More threads than that -/

theorem thread_next_rLock (s : Waking ι) (i pick j : ι) :
    (s.next ⟨.rLock i, pick⟩).thread j =
      if j = i then (s.thread i).afterRLock s.mutex.rLock.2 else s.thread j :=
  Function.update_apply _ _ _ _

theorem thread_next_rUnlock (s : Waking ι) (i pick j : ι) :
    (s.next ⟨.rUnlock i, pick⟩).thread j =
      if j = i then { s.thread i with reads := (s.thread i).reads - 1 } else s.thread j :=
  Function.update_apply _ _ _ _

theorem exists_readers {l : List ι} (hnodup : l.Nodup) (hlen : l.length ≤ 4294967295) :
    ∃ s : Waking ι, Reached s ∧ s.mutex = ⟨UInt32.ofNat l.length, false⟩ ∧
      (∀ i ∈ l, s.thread i = ⟨none, 0, 1⟩) ∧ (∀ i, i ∉ l → s.thread i = .idle) ∧
      ∀ i, s.notified i = false := by
  induction l with
  | nil => exact ⟨unused, .start rfl, rfl, by simp, fun _ _ => rfl, fun _ => rfl⟩
  | cons i l ih =>
      obtain ⟨hfresh, hnodup⟩ := List.nodup_cons.mp hnodup
      rw [List.length_cons] at hlen
      obtain ⟨s, hs, hmutex, hin, hout, htold⟩ := ih hnodup (by omega)
      have hidle : s.thread i = .idle := hout i hfresh
      have hroom : UInt32.ofNat l.length ≠ maxReaders := by
        intro hfull
        have heq := congrArg UInt32.toNat hfull
        have hsize : UInt32.size = 4294967296 := rfl
        have hmax : maxReaders.toNat = 4294967295 := rfl
        rw [UInt32.toNat_ofNat_of_lt' (by omega)] at heq
        omega
      have hlock : s.mutex.rLock = (⟨UInt32.ofNat (l.length + 1), false⟩, none) := by
        rw [hmutex, rLock, if_neg (by simpa using hroom)]
        simp [UInt32.ofNat_add]
      have hmay : May ⟨.rLock i, i⟩ s :=
        ⟨congrArg Thread.waiting hidle, by rw [Unnested, hidle]; exact ⟨rfl, rfl⟩, trivial⟩
      refine ⟨_, hs.next hmay, congrArg Prod.fst hlock, fun j hj => ?_, fun j hj => ?_,
        fun j => ?_⟩
      · rw [thread_next_rLock, hlock, hidle]
        split
        · rfl
        · exact hin j ((List.mem_cons.mp hj).resolve_left ‹_›)
      · obtain ⟨hne, hnot⟩ := not_or.mp (fun h => hj (List.mem_cons.mpr h))
        rw [thread_next_rLock, if_neg hne]
        exact hout j hnot
      · simp [next, htold, Step.notice, Notice.reaches]

/-- A thread that finds the count at its maximum goes to sleep. -/
theorem sleep_rLock {s : Waking ι} {i : ι} (hs : Reached s)
    (hfull : s.mutex = ⟨maxReaders, false⟩) (hidle : s.thread i = .idle) :
    Reached (s.next ⟨.rLock i, i⟩) ∧ (s.next ⟨.rLock i, i⟩).mutex = ⟨maxReaders, false⟩ ∧
      (s.next ⟨.rLock i, i⟩).thread i = ⟨some .toRead, 0, 0⟩ ∧
      (s.next ⟨.rLock i, i⟩).notified i = false ∧
      ∀ j, j ≠ i → (s.next ⟨.rLock i, i⟩).thread j = s.thread j ∧
        (s.next ⟨.rLock i, i⟩).notified j = s.notified j := by
  have hlock : s.mutex.rLock = (⟨maxReaders, false⟩, some .toRead) := by
    rw [hfull]
    rfl
  have hmay : May ⟨.rLock i, i⟩ s :=
    ⟨congrArg Thread.waiting hidle, by rw [Unnested, hidle]; exact ⟨rfl, rfl⟩, trivial⟩
  refine ⟨hs.next hmay, congrArg Prod.fst hlock, ?_, ?_, fun j hj => ⟨?_, ?_⟩⟩
  · rw [thread_next_rLock, if_pos rfl, hlock, hidle]
    rfl
  · simp [next, Step.thread]
  · rw [thread_next_rLock, if_neg hj]
  · simp [next, Step.thread, hj, Step.notice, Notice.reaches]

/-- With two threads more than there can be readers, two may wait for the
count to leave its maximum, and two readers leave before the one that was
notified runs. -/
theorem exists_lost_wakeup {a b c d : ι} {l : List ι} (hnodup : (a :: b :: c :: d :: l).Nodup)
    (hlen : l.length = 4294967293) :
    ∃ s : Waking ι, Reached s ∧ (s.thread b).waiting = some .toRead ∧ s.notified b = false ∧
      ¬Blocked .toRead s.mutex := by
  obtain ⟨ha, hnodup⟩ := List.nodup_cons.mp hnodup
  obtain ⟨hb, hnodup⟩ := List.nodup_cons.mp hnodup
  have hcd : c ≠ d := fun h => (List.nodup_cons.mp hnodup).1 (by simp [h])
  simp only [List.mem_cons, not_or] at ha hb
  obtain ⟨hab, hac, had, hal⟩ := ha
  obtain ⟨hbc, hbd, hbl⟩ := hb
  obtain ⟨s, hs, hmutex, hin, hout, htold⟩ := exists_readers hnodup (by simp [hlen])
  have hfull : s.mutex = ⟨maxReaders, false⟩ := by
    rw [hmutex, List.length_cons, List.length_cons, hlen]
    rfl
  have hc := hin c (by simp)
  have hd := hin d (by simp)
  obtain ⟨hs₁, hmutex₁, ha₁, htolda₁, hother₁⟩ :=
    sleep_rLock hs hfull (hout a (by simp [hac, had, hal]))
  obtain ⟨hs₂, hmutex₂, hb₂, htoldb₂, hother₂⟩ := sleep_rLock (i := b) hs₁ hmutex₁
    ((hother₁ b (Ne.symm hab)).1.trans (hout b (by simp [hbc, hbd, hbl])))
  have ha₂ := (hother₂ a hab).1.trans ha₁
  have htolda₂ := (hother₂ a hab).2.trans htolda₁
  have hc₂ := (hother₂ c (Ne.symm hbc)).1.trans
    ((hother₁ c (Ne.symm hac)).1.trans (hin c (by simp)))
  have hd₂ := (hother₂ d (Ne.symm hbd)).1.trans
    ((hother₁ d (Ne.symm had)).1.trans (hin d (by simp)))
  generalize (s.next ⟨.rLock a, a⟩).next ⟨.rLock b, b⟩ = s₂ at *
  have hnotice : Step.notice s₂.mutex (.rUnlock c) = .one .reader := by
    rw [hmutex₂]
    rfl
  have hmay : May ⟨.rUnlock c, a⟩ s₂ := by
    refine ⟨⟨congrArg Thread.waiting hc₂, ?_⟩, trivial, ?_⟩
    · rw [show (s₂.locking.threads c).reads = 1 from congrArg Thread.reads hc₂]
      exact Nat.one_pos
    · rw [hnotice]
      refine fun _ => ⟨.toRead, ?_, rfl⟩
      rw [asleep, htolda₂, ha₂]
      rfl
  have hb₃ : (s₂.next ⟨.rUnlock c, a⟩).thread b = ⟨some .toRead, 0, 0⟩ := by
    rw [thread_next_rUnlock, if_neg hbc, hb₂]
  have htoldb₃ : (s₂.next ⟨.rUnlock c, a⟩).notified b = false := by
    simp [next, Step.thread, hbc, htoldb₂, hnotice, Notice.reaches, Ne.symm hab]
  have hd₃ : (s₂.next ⟨.rUnlock c, a⟩).thread d = ⟨none, 0, 1⟩ := by
    rw [thread_next_rUnlock, if_neg (Ne.symm hcd), hd₂]
  have hmutex₃ : (s₂.next ⟨.rUnlock c, a⟩).mutex = ⟨maxReaders - 1, false⟩ := by
    show s₂.mutex.rUnlock = _
    rw [hmutex₂]
    rfl
  have hs₃ := hs₂.next hmay
  generalize s₂.next ⟨.rUnlock c, a⟩ = s₃ at *
  have hsilent : Step.notice s₃.mutex (.rUnlock d) = .silent := by
    rw [hmutex₃]
    rfl
  have hmay₃ : May ⟨.rUnlock d, a⟩ s₃ := by
    refine ⟨⟨congrArg Thread.waiting hd₃, ?_⟩, trivial, ?_⟩
    · rw [show (s₃.locking.threads d).reads = 1 from congrArg Thread.reads hd₃]
      exact Nat.one_pos
    · rw [hsilent]
      trivial
  refine ⟨_, hs₃.next hmay₃, ?_, ?_, ?_⟩
  · rw [thread_next_rUnlock, if_neg hbd, hb₃]
  · simp [next, Step.thread, hbd, htoldb₃, hsilent, Notice.reaches]
  · show ¬Blocked .toRead s₃.mutex.rUnlock
    rw [hmutex₃]
    exact not_or.mpr ⟨by decide, by decide⟩

/-- No thread ever sleeps on although what it waits for has come, exactly
when there is at most one thread more than there can be readers. -/
theorem no_wakeup_lost_iff [Fintype ι] :
    (∀ s : Waking ι, Reached s → ∀ i l, (s.thread i).waiting = some l → s.notified i = false →
        Blocked l s.mutex) ↔
      Fintype.card ι ≤ 4294967296 := by
  constructor
  · intro h
    by_contra hmany
    obtain ⟨readers, -, hcard⟩ := Finset.exists_subset_card_eq
      (show 4294967297 ≤ (Finset.univ : Finset ι).card by rw [Finset.card_univ]; omega)
    have hlen := readers.length_toList
    have hnodup := readers.nodup_toList
    rw [hcard] at hlen
    generalize readers.toList = threads at hlen hnodup
    rcases threads with _ | ⟨a, _ | ⟨b, _ | ⟨c, _ | ⟨d, l⟩⟩⟩⟩
    case cons.cons.cons.cons =>
      simp only [List.length_cons] at hlen
      obtain ⟨s, hs, hwaiting, htold, hfree⟩ := exists_lost_wakeup hnodup (by omega)
      exact hfree (h s hs b .toRead hwaiting htold)
    all_goals simp at hlen
  · intro hcard s hs i l hl htold
    refine (Orderly.of_reached hcard hs).accounted i l ?_
    rw [asleep, htold]
    exact hl

end Waking

/-! ### Writers come first -/

namespace Locking

variable {ι : Type} [DecidableEq ι] [Fintype ι] {s : Locking ι} {i : ι}

omit [Fintype ι] in
theorem threads_put (s : Locking ι) (k : ι) (m : RWMutex) (t : Thread) (j : ι) :
    (s.put k m t).threads j = if j = k then t else s.threads j :=
  Function.update_apply _ _ _ _

/-- While a writer has claimed the lock, no step but its own `WUnlock`
gives up the claim, and none lets a reader in. -/
theorem Exclusive.claimed_next (h : Exclusive s) (hi : 0 < (s.threads i).claims) {a : Step ι}
    (ha : May a s) (hne : a ≠ .wUnlock i) :
    0 < ((s.next a).threads i).claims ∧
      ∀ j, ((s.next a).threads j).reads ≤ (s.threads j).reads := by
  have hentered := h.entered_of_claims hi
  have hput {k : ι} {m : RWMutex} {t : Thread} (heq : s.next a = s.put k m t)
      (hclaims : k = i → 0 < t.claims) (hreads : t.reads ≤ (s.threads k).reads) :
      0 < ((s.next a).threads i).claims ∧
        ∀ j, ((s.next a).threads j).reads ≤ (s.threads j).reads := by
    rw [heq]
    refine ⟨?_, fun j => ?_⟩
    · rw [threads_put]
      split
      case isTrue hik => exact hclaims hik.symm
      case isFalse => exact hi
    · rw [threads_put]
      split
      case isTrue hjk =>
        rw [hjk]
        exact hreads
      case isFalse => exact le_rfl
  have hwrites (hother : (s.threads i).waiting ≠ some .readersLeft) : 0 < (s.threads i).writes :=
    Thread.claims_eq hother ▸ hi
  rcases Waking.next_cases ha with ⟨heq, hwhy⟩ | ⟨heq, hwhy⟩ | ⟨heq, hwhy⟩ | ⟨k, rfl⟩ | ⟨k, rfl⟩
  · refine hput heq (fun hk => ?_) le_rfl
    have hother : (s.threads i).waiting ≠ some .readersLeft := by
      rcases hwhy with hcall | ⟨-, hloop⟩
      · rw [hcall] at ha
        rw [← hk, show (s.threads a.thread).waiting = none from ha]
        simp
      · rw [← hk, hloop]
        simp
    rw [hk, RWMutex.wLock, if_pos hentered]
    exact Nat.add_pos_left (hwrites hother) _
  · refine hput heq (fun hk => ?_) le_rfl
    rw [RWMutex.wLockDrain]
    split
    · exact Thread.claims_pos rfl
    · exact Nat.add_pos_left (Nat.succ_pos _) _
  · rw [RWMutex.rLock, if_pos (.inl hentered)] at heq
    refine hput heq (fun hk => ?_) le_rfl
    have hother : (s.threads i).waiting ≠ some .readersLeft := by
      rcases hwhy with hcall | ⟨-, hloop⟩
      · rw [hcall] at ha
        rw [← hk, show (s.threads a.thread).waiting = none from ha]
        simp
      · rw [← hk, hloop]
        simp
    rw [hk]
    exact Nat.add_pos_left (hwrites hother) _
  · exact hput rfl (fun hk => absurd (congrArg Step.wUnlock hk) hne) le_rfl
  · refine hput rfl (fun hk => ?_) (Nat.sub_le _ _)
    subst hk
    exact hi

/-- The state that steps lead to, one after the other. -/
def after (steps : List (Step ι)) (s : Locking ι) : Locking ι :=
  (specAll (fun a s => ((), s.next a)) steps s).2

theorem Exclusive.claimed_after {steps : List (Step ι)} (h : Exclusive s)
    (hi : 0 < (s.threads i).claims)
    (hsteps : Admissible (fun a s => May a s ∧ a ≠ .wUnlock i) (fun a s => ((), s.next a))
      steps s) :
    Exclusive (s.after steps) ∧ 0 < ((s.after steps).threads i).claims ∧
      ∀ j, ((s.after steps).threads j).reads ≤ (s.threads j).reads := by
  induction steps generalizing s with
  | nil => exact ⟨h, hi, fun _ => le_rfl⟩
  | cons a steps ih =>
      obtain ⟨⟨ha, hne⟩, hrest⟩ := hsteps
      obtain ⟨hclaims, hreads⟩ := h.claimed_next hi ha hne
      obtain ⟨hlast, hclaims', hreads'⟩ := ih (h.next ha) hclaims hrest
      exact ⟨hlast, hclaims', fun j => (hreads' j).trans (hreads j)⟩

/-- A writer that has claimed the lock is overtaken by nobody: until it
gives the lock up, whatever the other threads do, none of them gets in as
a writer, and none gets the read lock. -/
theorem writer_not_overtaken (h : Reached s) (hi : (s.threads i).waiting = some .readersLeft)
    {steps : List (Step ι)}
    (hsteps : Admissible (fun a s => May a s ∧ a ≠ .wUnlock i) (fun a s => ((), s.next a))
      steps s) :
    (s.after steps).mutex.writerEntered = true ∧
      (∀ j, j ≠ i → ((s.after steps).threads j).writes = 0) ∧
      ∀ j, ((s.after steps).threads j).reads ≤ (s.threads j).reads := by
  obtain ⟨hlast, hclaims, hreads⟩ :=
    (Exclusive.of_reached h).claimed_after (Thread.claims_pos hi) hsteps
  have hentered := hlast.entered_of_claims hclaims
  refine ⟨hentered, fun j hj => ?_, hreads⟩
  have hone := hlast.claims
  rw [if_pos hentered] at hone
  have hpair := Finset.add_le_sum (f := fun k => ((s.after steps).threads k).claims)
    (fun k _ => Nat.zero_le _) (Finset.mem_univ i) (Finset.mem_univ j) (Ne.symm hj)
  have htotal : _ ≤ (s.after steps).total Thread.claims := hpair
  have hwrites : ((s.after steps).threads j).writes ≤ ((s.after steps).threads j).claims :=
    Nat.le_add_right _ _
  omega

/-- A writer waits for a reader; another reader and another writer call. -/
theorem writer_not_overtaken_two : ∃ s : Locking (Fin 4),
    (s.threads 0).reads = 1 ∧ (s.threads 1).waiting = some .readersLeft ∧
      (s.after [.rLock 2, .wLock 3]).mutex.writerEntered = true ∧
      (∀ j, j ≠ 1 → ((s.after [.rLock 2, .wLock 3]).threads j).writes = 0) ∧
      ∀ j, ((s.after [.rLock 2, .wLock 3]).threads j).reads ≤ (s.threads j).reads := by
  have hreached : Reached ((unused.next (.rLock 0)).next (.wLock 1) : Locking (Fin 4)) :=
    (Reached.next (.start rfl) (.rLock 0) (by decide)).next (.wLock 1) (by decide)
  exact ⟨_, rfl, rfl, writer_not_overtaken hreached rfl
    ⟨⟨by decide, by simp⟩, ⟨by decide, by simp⟩, trivial⟩⟩

end Locking

end RWMutex

end ScuDb
