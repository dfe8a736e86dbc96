import ScuDb.Buffer.LruReplacer
import ScuDb.Foundations.Refinement

/-!
Runs of the replacer.

A recency queue remembers when each of its values was inserted last, and
gives up the value for which that was longest ago. The nodes of a
`LRUReplacer` are in this order, the latest in front, so that the node
before `mTail` is the one to give up.
-/

namespace ScuDb

open Foundations

/-- A call that changes the queue. -/
inductive QueueCall (T : Type)
  | insert (value : T)
  | victim
  | erase (value : T)

/-- What such a call returns, and hands out. -/
inductive QueueResult (T : Type)
  | inserted
  | victim (value : Option T)
  | erased (found : Bool)
  deriving DecidableEq

/-- The values in the queue with the times of their last insertions. -/
structure Recency (T : Type) where
  now : Nat
  lastInsert : T → Option Nat

variable {T : Type}

namespace Recency

def empty : Recency T := ⟨0, fun _ => none⟩

variable [DecidableEq T]

/-- The value is gone, or was inserted at the time given. -/
def set (q : Recency T) (value : T) (time : Option Nat) : Recency T :=
  ⟨q.now + 1, Function.update q.lastInsert value time⟩

/-- What a call may return, and what it does to the queue. -/
def Allows (q : Recency T) : QueueCall T → QueueResult T → Recency T → Prop
  | .insert v, .inserted, q' => q' = q.set v (some q.now)
  | .erase v, .erased found, q' => found = (q.lastInsert v).isSome ∧ q' = q.set v none
  | .victim, .victim none, q' => (∀ v, q.lastInsert v = none) ∧ q' = q
  | .victim, .victim (some v), q' => (∃ time, q.lastInsert v = some time ∧
      ∀ w later, w ≠ v → q.lastInsert w = some later → time < later) ∧ q' = q.set v none
  | _, _, _ => False

/-- The calls may return the results and lead to the queue. -/
inductive Run : List (QueueCall T) → List (QueueResult T) → Recency T → Prop
  | start : Run [] [] empty
  | next {calls : List (QueueCall T)} {results : List (QueueResult T)} {q q' : Recency T}
      {call : QueueCall T} {result : QueueResult T} (hrun : Run calls results q)
      (hallows : q.Allows call result q') : Run (calls ++ [call]) (results ++ [result]) q'

/-- The values of the queue, the latest in front. -/
structure Orders (q : Recency T) (queue : List T) : Prop where
  mem : ∀ v, v ∈ queue ↔ (q.lastInsert v).isSome
  nodup : queue.Nodup
  sorted : queue.Pairwise fun v w => ∀ later time, q.lastInsert v = some later →
    q.lastInsert w = some time → time < later
  past : ∀ v time, q.lastInsert v = some time → time < q.now

variable {q : Recency T} {queue : List T} {v : T}

@[simp] theorem set_self (q : Recency T) (v : T) (time : Option Nat) :
    (q.set v time).lastInsert v = time :=
  Function.update_self _ _ _

theorem set_of_ne (q : Recency T) (time : Option Nat) {w : T} (hne : w ≠ v) :
    (q.set v time).lastInsert w = q.lastInsert w :=
  Function.update_of_ne hne _ _

omit [DecidableEq T] in
theorem orders_empty : (empty : Recency T).Orders [] where
  mem v := by simp [empty]
  nodup := List.nodup_nil
  sorted := .nil
  past v time hv := by cases hv

theorem Orders.erase (h : q.Orders queue) (v : T) : (q.set v none).Orders (queue.erase v) where
  mem w := by
    rw [h.nodup.mem_erase_iff, h.mem]
    by_cases hw : w = v
    · simp [hw]
    · simp [set_of_ne, hw]
  nodup := h.nodup.erase v
  sorted := by
    refine (h.sorted.sublist List.erase_sublist).imp_of_mem fun {a b} ha hb hab => ?_
    rw [h.nodup.mem_erase_iff] at ha hb
    rw [set_of_ne q _ ha.1, set_of_ne q _ hb.1]
    exact hab
  past w time hw := by
    by_cases heq : w = v
    · simp [heq] at hw
    · rw [set_of_ne q _ heq] at hw
      exact (h.past w time hw).trans (Nat.lt_succ_self _)

theorem Orders.insert (h : q.Orders queue) (v : T) :
    (q.set v (some q.now)).Orders (v :: queue.erase v) where
  mem w := by
    rw [List.mem_cons, h.nodup.mem_erase_iff, h.mem]
    by_cases hw : w = v
    · simp [hw]
    · simp [set_of_ne, hw]
  nodup := List.nodup_cons.mpr ⟨h.nodup.not_mem_erase, h.nodup.erase v⟩
  sorted := by
    refine List.pairwise_cons.mpr ⟨fun w hw later time hlater htime => ?_, ?_⟩
    · rw [h.nodup.mem_erase_iff] at hw
      rw [set_self] at hlater
      rw [set_of_ne q _ hw.1] at htime
      cases hlater
      exact h.past w time htime
    · refine (h.sorted.sublist List.erase_sublist).imp_of_mem fun {a b} ha hb hab => ?_
      rw [h.nodup.mem_erase_iff] at ha hb
      rw [set_of_ne q _ ha.1, set_of_ne q _ hb.1]
      exact hab
  past w time hw := by
    by_cases heq : w = v
    · rw [heq, set_self] at hw
      cases hw
      exact Nat.lt_succ_self _
    · rw [set_of_ne q _ heq] at hw
      exact (h.past w time hw).trans (Nat.lt_succ_self _)

omit [DecidableEq T] in
theorem Orders.getLast (h : q.Orders (queue ++ [v])) : ∃ time, q.lastInsert v = some time ∧
    ∀ w later, w ≠ v → q.lastInsert w = some later → time < later := by
  obtain ⟨time, htime⟩ := Option.isSome_iff_exists.mp ((h.mem v).mp (by simp))
  refine ⟨time, htime, fun w later hne hw => ?_⟩
  have hmem := (h.mem w).mpr (by simp [hw])
  rw [List.mem_append, List.mem_singleton] at hmem
  have hin := hmem.resolve_right hne
  exact (List.pairwise_append.mp h.sorted).2.2 w hin v (by simp) later time hw htime

end Recency

/-! ### The replacer as a recency queue -/

namespace QueueCall

variable [DecidableEq T]

/-- What the call does to a replacer. -/
def run : QueueCall T → LruReplacer T → QueueResult T × LruReplacer T
  | .insert v, r => (.inserted, r.insert v)
  | .victim, r => (.victim r.victim.1, r.victim.2)
  | .erase v, r => (.erased (r.erase v).1, (r.erase v).2)

/-- What it does to the list of the values, the most recent one first. -/
def spec : QueueCall T → List T → QueueResult T × List T
  | .insert v, queue => (.inserted, v :: queue.erase v)
  | .victim, queue => (.victim queue.getLast?, queue.dropLast)
  | .erase v, queue => (.erased (decide (v ∈ queue)), queue.erase v)

theorem represents_run {r : LruReplacer T} {queue : List T} (h : r.Represents queue)
    (call : QueueCall T) :
    (call.run r).1 = (call.spec queue).1 ∧ (call.run r).2.Represents (call.spec queue).2 := by
  cases call with
  | insert v => exact ⟨rfl, h.insert v⟩
  | victim => exact ⟨congrArg QueueResult.victim h.victim.1, h.victim.2⟩
  | erase v => exact ⟨congrArg QueueResult.erased (h.erase v).1, (h.erase v).2⟩

/-- The list of the values behaves as a recency queue does. -/
theorem allows_spec {q : Recency T} {queue : List T} (h : q.Orders queue) (call : QueueCall T) :
    ∃ q', q.Allows call (call.spec queue).1 q' ∧ q'.Orders (call.spec queue).2 := by
  cases call with
  | insert v => exact ⟨_, rfl, h.insert v⟩
  | erase v =>
      refine ⟨_, ⟨?_, rfl⟩, h.erase v⟩
      rw [Bool.eq_iff_iff, decide_eq_true_iff, h.mem]
  | victim =>
      rcases List.eq_nil_or_concat' queue with rfl | ⟨rest, v, rfl⟩
      · refine ⟨q, ⟨fun v => ?_, rfl⟩, h⟩
        have hnot : v ∉ ([] : List T) := List.not_mem_nil
        rwa [h.mem, Option.not_isSome_iff_eq_none] at hnot
      · have hout : v ∉ rest := by
          intro hin
          exact List.disjoint_of_nodup_append h.nodup hin (List.mem_singleton_self v)
        have herase := h.erase v
        rw [List.erase_append_right _ hout, List.erase_cons_head, List.append_nil] at herase
        have hlast : (QueueCall.victim.spec (rest ++ [v])).1 = .victim (some v) := by
          simp [spec]
        have hrest : (QueueCall.victim.spec (rest ++ [v])).2 = rest := by
          simp [spec]
        rw [hlast, hrest]
        exact ⟨_, ⟨h.getLast, rfl⟩, herase⟩

end QueueCall

/-- The nodes between `mHead` and `mTail` are linked in both directions and
hold the keys of `mDataMap`, each once; these are the values in the queue. -/
structure LruReplacer.Mirrors [DecidableEq T] (r : LruReplacer T) (q : Recency T) : Prop where
  linked : ∃ (nodes : List Nat) (queue : List T), r.links.Linked (r.mHead :: nodes ++ [r.mTail]) ∧
    (r.mHead :: nodes ++ [r.mTail]).Nodup ∧ nodes.map r.data = queue.map some ∧ queue.Nodup ∧
    (∀ v, v ∈ r.mDataMap ↔ v ∈ queue) ∧
    ∀ v a, r.mDataMap.lookup v = some a → a ∈ nodes ∧ r.data a = some v
  mem : ∀ v, v ∈ r.mDataMap ↔ (q.lastInsert v).isSome

section Runs

variable [DecidableEq T]

theorem LruReplacer.Represents.mirrors {r : LruReplacer T} {q : Recency T} {queue : List T}
    (h : r.Represents queue) (hq : q.Orders queue) : r.Mirrors q := by
  have hmem : ∀ v, v ∈ r.mDataMap ↔ v ∈ queue := fun v => by
    rw [← AList.lookup_isSome]
    exact h.lookup_isSome_iff
  refine ⟨?_, fun v => (hmem v).trans (hq.mem v)⟩
  have hnodup := h.nodup
  obtain ⟨nodes, hnodes, hdata⟩ := h
  exact ⟨nodes, queue, hnodes.linked, hnodes.nodup, hdata, hnodup, hmem,
    fun v a => (hnodes.mapped v a).mp⟩

/-- Every run of a replacer is a run of a recency queue, whose values its
list and its map hold. -/
theorem replacer_refines_recency (calls : List (QueueCall T)) :
    ∃ q, Recency.Run calls (specAll QueueCall.run calls .empty).1 q ∧
      (specAll QueueCall.run calls .empty).2.Mirrors q := by
  suffices hall : ∃ q queue, Recency.Run calls (specAll QueueCall.run calls .empty).1 q ∧
      q.Orders queue ∧ (specAll QueueCall.run calls .empty).2.Represents queue by
    obtain ⟨q, queue, hrun, hq, hr⟩ := hall
    exact ⟨q, hrun, hr.mirrors hq⟩
  induction calls using List.reverseRecOn with
  | nil => exact ⟨.empty, [], .start, Recency.orders_empty, LruReplacer.represents_empty⟩
  | append_singleton calls call ih =>
      obtain ⟨q, queue, hrun, hq, hr⟩ := ih
      obtain ⟨q', hallows, hq'⟩ := call.allows_spec hq
      obtain ⟨hresult, hr'⟩ := call.represents_run hr
      rw [specAll_concat]
      exact ⟨q', _, hrun.next (hresult ▸ hallows), hq', hr'⟩

end Runs

end ScuDb
