import Mathlib.Data.List.AList
import ScuDb.Foundations.LinkedList

/-!
The replacer of the buffer pool, `lru_replacer.cpp`: a doubly linked list
between the two dummy nodes `mHead` and `mTail`, and a map from values to
the nodes that hold them.

What it is for is a recency queue, the list of the values inserted, the
most recent first. `Represents` relates the two, and each operation is
shown to do on the nodes what its list counterpart does on the queue.
-/

namespace ScuDb

open Foundations

/-- A `LRUReplacer`. The nodes are named by addresses: `data` and `links`
are the fields of every node, `made` is the address the next
`make_shared` gives. -/
structure LruReplacer (T : Type) where
  data : Nat → Option T
  links : Links Nat
  mHead : Nat
  mTail : Nat
  mDataMap : AList fun _ : T => Nat
  made : Nat

namespace LruReplacer

variable {T : Type}

/-- The constructor. -/
def empty : LruReplacer T where
  data := fun _ => none
  links := { next := fun _ => 1, prev := fun _ => 0 }
  mHead := 0
  mTail := 1
  mDataMap := ∅
  made := 2

variable [DecidableEq T]

/-- `Insert` -/
def insert (r : LruReplacer T) (value : T) : LruReplacer T :=
  let (cur, r) := match r.mDataMap.lookup value with
    | some cur =>
        let ptrPrev := r.links.prev cur
        let succ := r.links.next cur
        (cur, { r with links := (r.links.setNext ptrPrev succ).setPrev succ ptrPrev })
    | none =>
        (r.made, { r with data := Function.update r.data r.made (some value), made := r.made + 1 })
  let fir := r.links.next r.mHead
  { r with
    links := (((r.links.setNext cur fir).setPrev fir cur).setPrev cur r.mHead).setNext r.mHead cur
    mDataMap := r.mDataMap.insert value cur }

/-- `Victim`: the value it hands out, if it returns `true`. -/
def victim (r : LruReplacer T) : Option T × LruReplacer T :=
  if r.mDataMap.entries.isEmpty then (none, r)
  else
    let last := r.links.prev r.mTail
    let links := r.links.setPrev r.mTail (r.links.prev last)
    let links := links.setNext (links.prev last) r.mTail
    let mDataMap := match r.data last with
      | some value => r.mDataMap.erase value
      | none => r.mDataMap
    (r.data last, { r with links := links, mDataMap := mDataMap })

/-- `Erase` -/
def erase (r : LruReplacer T) (value : T) : Bool × LruReplacer T :=
  match r.mDataMap.lookup value with
  | some cur =>
      let links := r.links.setNext (r.links.prev cur) (r.links.next cur)
      let links := links.setPrev (links.next cur) (links.prev cur)
      (true, { r with links := links, mDataMap := r.mDataMap.erase value })
  | none => (false, r)

/-- `Size`, which does not look at the list -/
def size (_r : LruReplacer T) : Nat := 1

/-- The nodes between the dummies, in order from `mHead`, and the map
that finds them. -/
structure Queue (r : LruReplacer T) (nodes : List Nat) : Prop where
  linked : r.links.Linked (r.mHead :: nodes ++ [r.mTail])
  nodup : (r.mHead :: nodes ++ [r.mTail]).Nodup
  made : ∀ a ∈ r.mHead :: nodes ++ [r.mTail], a < r.made
  filled : ∀ a ∈ nodes, ∃ v, r.data a = some v
  mapped : ∀ v a, r.mDataMap.lookup v = some a ↔ a ∈ nodes ∧ r.data a = some v

/-- The values of the queue, the most recent one first. -/
def Represents (r : LruReplacer T) (queue : List T) : Prop :=
  ∃ nodes, r.Queue nodes ∧ nodes.map r.data = queue.map some

/-! ### The nodes -/

namespace Queue

variable {r : LruReplacer T} {nodes pre post : List Nat} {a : Nat} {v : T}

/-- Node `a` is taken out of the list and its value out of the map. The
pointers may be written in any way that agrees with `unlink`. -/
theorem detach (h : r.Queue (pre ++ a :: post)) (hv : r.data a = some v) {k : Links Nat}
    (hk : k = (r.links.setNext (r.links.prev a) (r.links.next a)).setPrev
      (r.links.next a) (r.links.prev a)) :
    Queue { r with links := k, mDataMap := r.mDataMap.erase v } (pre ++ post) := by
  have hlist : r.mHead :: (pre ++ a :: post) ++ [r.mTail] =
      (r.mHead :: pre) ++ a :: (post ++ [r.mTail]) := by simp
  have hrest : r.mHead :: (pre ++ post) ++ [r.mTail] =
      (r.mHead :: pre) ++ (post ++ [r.mTail]) := by simp
  have hsub : List.Sublist (r.mHead :: (pre ++ post) ++ [r.mTail])
      (r.mHead :: (pre ++ a :: post) ++ [r.mTail]) := by
    rw [hlist, hrest]
    exact (List.sublist_cons_self a _).append_left _
  have hmem (c : Nat) : c ∈ pre ++ post ↔ c ∈ pre ++ a :: post ∧ c ≠ a := by
    have ha : a ∉ pre ++ post := by
      have hnodup := h.nodup
      rw [hlist] at hnodup
      intro hin
      simp only [List.cons_append, List.nodup_cons, List.nodup_append, List.mem_append,
        List.mem_cons] at hnodup hin
      grind
    simp only [List.mem_append, List.mem_cons] at ha ⊢
    grind
  constructor
  case linked =>
    show k.Linked _
    rw [hk, hrest]
    have hlinked := h.linked
    have hnodup := h.nodup
    rw [hlist] at hlinked hnodup
    exact hlinked.unlink hnodup (by simp) (by simp)
  case nodup => exact hsub.nodup h.nodup
  case made => exact fun c hc => h.made c (hsub.subset hc)
  case filled => exact fun c hc => h.filled c ((hmem c).mp hc).1
  case mapped =>
    intro w c
    show (r.mDataMap.erase v).lookup w = some c ↔ _
    by_cases hw : w = v
    · subst hw
      rw [AList.lookup_erase]
      simp only [reduceCtorEq, false_iff, not_and]
      intro hc hcv
      have hmapped := (h.mapped w c).mpr ⟨((hmem c).mp hc).1, hcv⟩
      rw [(h.mapped w a).mpr ⟨by simp, hv⟩] at hmapped
      exact ((hmem c).mp hc).2 (Option.some.inj hmapped).symm
    · rw [AList.lookup_erase_ne hw, h.mapped, hmem]
      constructor
      · rintro ⟨hc, hcw⟩
        refine ⟨⟨hc, ?_⟩, hcw⟩
        rintro rfl
        exact hw (Option.some.inj (hcw.symm.trans hv))
      · rintro ⟨⟨hc, -⟩, hcw⟩
        exact ⟨hc, hcw⟩

theorem prev_ne (h : r.Queue (pre ++ a :: post)) : r.links.prev a ≠ a := by
  have hlist : r.mHead :: (pre ++ a :: post) ++ [r.mTail] =
      (r.mHead :: pre) ++ a :: (post ++ [r.mTail]) := by simp
  have hlinked := h.linked
  have hnodup := h.nodup
  rw [hlist] at hlinked hnodup
  have hmem := hlinked.prev_mem (List.cons_ne_nil _ _)
  intro heq
  rw [heq] at hmem
  exact List.disjoint_of_nodup_append hnodup hmem List.mem_cons_self

theorem pushFront (h : r.Queue nodes) (hv : r.data a = some v)
    (hnew : a ∉ r.mHead :: nodes ++ [r.mTail]) (hmade : a < r.made)
    (hout : r.mDataMap.lookup v = none) {k : Links Nat}
    (hk : k = (((r.links.setNext a (r.links.next r.mHead)).setPrev (r.links.next r.mHead) a).setPrev
      a r.mHead).setNext r.mHead a) {m : AList fun _ : T => Nat}
    (hm : ∀ w, m.lookup w = if w = v then some a else r.mDataMap.lookup w) :
    Queue { r with links := k, mDataMap := m } (a :: nodes) := by
  have hnodup : (r.mHead :: a :: (nodes ++ [r.mTail])).Nodup := by
    have hold := h.nodup
    simp only [List.cons_append, List.mem_cons, not_or, List.nodup_cons] at hold hnew ⊢
    exact ⟨⟨Ne.symm hnew.1, hold.1⟩, hnew.2, hold.2⟩
  constructor
  case linked =>
    show k.Linked (r.mHead :: a :: (nodes ++ [r.mTail]))
    obtain ⟨b, ys, hb⟩ := List.exists_cons_of_ne_nil (List.concat_ne_nil r.mTail nodes)
    have hlinked : r.links.Linked ([] ++ r.mHead :: b :: ys) := by
      rw [List.nil_append, ← hb]
      exact h.linked
    rw [hb] at hnodup ⊢
    have hfir : r.links.next r.mHead = b := (List.isChain_cons_cons.mp hlinked).1.1
    rw [hk, hfir]
    exact hlinked.insert hnodup
  case nodup => exact hnodup
  case made =>
    intro c hc
    show c < r.made
    simp only [List.cons_append, List.mem_cons] at hc
    rcases hc with rfl | rfl | hc
    · exact h.made _ (by simp)
    · exact hmade
    · exact h.made c (List.mem_cons_of_mem _ hc)
  case filled =>
    intro c hc
    rcases List.mem_cons.mp hc with rfl | hc
    · exact ⟨v, hv⟩
    · exact h.filled c hc
  case mapped =>
    intro w c
    show m.lookup w = some c ↔ _
    rw [hm, List.mem_cons]
    by_cases hw : w = v
    · subst hw
      rw [if_pos rfl, Option.some.injEq]
      constructor
      · rintro rfl
        exact ⟨Or.inl rfl, hv⟩
      · rintro ⟨rfl | hc, hcw⟩
        · rfl
        · rw [(h.mapped w c).mpr ⟨hc, hcw⟩] at hout
          cases hout
    · rw [if_neg hw, h.mapped]
      constructor
      · rintro ⟨hc, hcw⟩
        exact ⟨Or.inr hc, hcw⟩
      · rintro ⟨rfl | hc, hcw⟩
        · exact absurd (Option.some.inj (hcw.symm.trans hv)) hw
        · exact ⟨hc, hcw⟩

theorem alloc (h : r.Queue nodes) (v : T) :
    Queue { r with data := Function.update r.data r.made (some v), made := r.made + 1 } nodes := by
  have hold (c : Nat) (hc : c ∈ nodes) : Function.update r.data r.made (some v) c = r.data c := by
    apply Function.update_of_ne
    exact (h.made c (by simp [hc])).ne
  constructor
  case linked => exact h.linked
  case nodup => exact h.nodup
  case made => exact fun c hc => (h.made c hc).trans (Nat.lt_succ_self _)
  case filled =>
    intro c hc
    show ∃ w, Function.update r.data r.made (some v) c = some w
    rw [hold c hc]
    exact h.filled c hc
  case mapped =>
    intro w c
    show _ ↔ c ∈ nodes ∧ Function.update r.data r.made (some v) c = some w
    rw [h.mapped]
    apply and_congr_right
    intro hc
    rw [hold c hc]

end Queue

/-! ### The operations on the queue -/

theorem represents_empty : (empty : LruReplacer T).Represents [] := by
  refine ⟨[], ?_, rfl⟩
  constructor
  case linked => exact List.isChain_cons_cons.mpr ⟨⟨rfl, rfl⟩, List.isChain_singleton _⟩
  case nodup => exact List.nodup_cons.mpr ⟨by simp [empty], List.nodup_singleton _⟩
  case made => simp [empty]
  case filled => simp
  case mapped => simp [empty]

namespace Represents

variable {r : LruReplacer T} {queue : List T} {v : T}

theorem lookup_isSome_iff (h : r.Represents queue) :
    (r.mDataMap.lookup v).isSome ↔ v ∈ queue := by
  obtain ⟨nodes, hq, hdata⟩ := h
  have hmem : some v ∈ nodes.map r.data ↔ v ∈ queue := by simp [hdata]
  rw [← hmem, Option.isSome_iff_exists, List.mem_map]
  exact exists_congr fun a => hq.mapped v a

theorem nodup (h : r.Represents queue) : queue.Nodup := by
  obtain ⟨nodes, hq, hdata⟩ := h
  have hmap : (nodes.map r.data).Nodup := by
    apply List.Nodup.map_on
    · intro a ha b hb hab
      obtain ⟨w, hw⟩ := hq.filled a ha
      have hfst := (hq.mapped w a).mpr ⟨ha, hw⟩
      rw [(hq.mapped w b).mpr ⟨hb, hab ▸ hw⟩] at hfst
      exact (Option.some.inj hfst).symm
    · have hnodup := hq.nodup
      simp only [List.cons_append, List.nodup_cons, List.nodup_append] at hnodup
      exact hnodup.2.1
  rw [hdata] at hmap
  exact hmap.of_map some

theorem split (h : r.Represents queue) {a : Nat} (ha : r.mDataMap.lookup v = some a) :
    ∃ pre post qpre qpost, r.Queue (pre ++ a :: post) ∧ r.data a = some v ∧
      queue = qpre ++ v :: qpost ∧ pre.map r.data = qpre.map some ∧
      post.map r.data = qpost.map some := by
  obtain ⟨nodes, hq, hdata⟩ := h
  obtain ⟨hmem, hv⟩ := (hq.mapped v a).mp ha
  obtain ⟨pre, post, rfl⟩ := List.append_of_mem hmem
  rw [List.map_append, List.map_cons, hv] at hdata
  obtain ⟨qpre, qrest, rfl, hpre, hrest⟩ := List.map_eq_append_iff.mp hdata.symm
  obtain ⟨w, qpost, rfl, hw, hpost⟩ := List.map_eq_cons_iff.mp hrest
  obtain rfl := Option.some.inj hw
  exact ⟨pre, post, qpre, qpost, hq, hv, rfl, hpre.symm, hpost.symm⟩

/-- `Insert` makes the value the most recent one. -/
theorem insert (h : r.Represents queue) (v : T) :
    (r.insert v).Represents (v :: queue.erase v) := by
  cases ha : r.mDataMap.lookup v with
  | some a =>
      obtain ⟨pre, post, qpre, qpost, hq, hv, rfl, hpre, hpost⟩ := h.split ha
      have hout : v ∉ qpre := fun hin =>
        List.disjoint_of_nodup_append h.nodup hin List.mem_cons_self
      have hdetached := hq.detach hv rfl
      have hnew : a ∉ r.mHead :: (pre ++ post) ++ [r.mTail] := by
        have hnodup := hq.nodup
        simp only [List.cons_append, List.append_assoc, List.nodup_cons, List.nodup_append,
          List.mem_append, List.mem_cons] at hnodup ⊢
        grind
      refine ⟨a :: (pre ++ post), ?_, ?_⟩
      · rw [LruReplacer.insert, ha]
        apply hdetached.pushFront hv hnew (hq.made a (by simp)) (AList.lookup_erase v _) rfl
        intro w
        by_cases hw : w = v
        · rw [hw, if_pos rfl, AList.lookup_insert]
        · rw [if_neg hw, AList.lookup_insert_ne hw, AList.lookup_erase_ne hw]
      · rw [LruReplacer.insert, ha]
        simp [List.erase_append_right _ hout, hv, hpre, hpost]
  | none =>
      have hout : v ∉ queue := by
        rw [← h.lookup_isSome_iff, ha]
        exact Bool.false_ne_true
      obtain ⟨nodes, hq, hdata⟩ := h
      have hnew : r.made ∉ r.mHead :: nodes ++ [r.mTail] := fun hin =>
        lt_irrefl _ (hq.made _ hin)
      refine ⟨r.made :: nodes, ?_, ?_⟩
      · rw [LruReplacer.insert, ha]
        apply (hq.alloc v).pushFront (Function.update_self ..) hnew (Nat.lt_succ_self _) ha rfl
        intro w
        by_cases hw : w = v
        · rw [hw, if_pos rfl, AList.lookup_insert]
        · rw [if_neg hw, AList.lookup_insert_ne hw]
      · rw [LruReplacer.insert, ha, List.erase_of_not_mem hout]
        have hold : nodes.map (Function.update r.data r.made (some v)) = nodes.map r.data := by
          apply List.map_congr_left
          intro c hc
          exact Function.update_of_ne (hq.made c (by simp [hc])).ne _ _
        simp [hold, hdata]

theorem erase (h : r.Represents queue) (v : T) :
    (r.erase v).1 = decide (v ∈ queue) ∧ (r.erase v).2.Represents (queue.erase v) := by
  have hsome := h.lookup_isSome_iff (v := v)
  cases ha : r.mDataMap.lookup v with
  | some a =>
      rw [LruReplacer.erase, ha]
      rw [ha] at hsome
      constructor
      · simp [← hsome]
      · obtain ⟨pre, post, qpre, qpost, hq, hv, rfl, hpre, hpost⟩ := h.split ha
        have hout : v ∉ qpre := fun hin =>
          List.disjoint_of_nodup_append h.nodup hin List.mem_cons_self
        refine ⟨pre ++ post, hq.detach hv ?_, ?_⟩
        · -- the second assignment reads `cur` after the first has been made
          rw [Links.setNext_next_of_ne _ _ (hq.prev_ne).symm, Links.setNext_prev]
        · simp [List.erase_append_right _ hout, hpre, hpost]
  | none =>
      rw [LruReplacer.erase, ha]
      rw [ha] at hsome
      have hout : v ∉ queue := fun hin => Bool.false_ne_true (hsome.mpr hin)
      constructor
      · simp [hout]
      · rwa [List.erase_of_not_mem hout]

theorem isEmpty_eq (h : r.Represents queue) : r.mDataMap.entries.isEmpty = queue.isEmpty := by
  rw [Bool.eq_iff_iff, List.isEmpty_iff, List.isEmpty_iff]
  have hkeys : r.mDataMap.entries = [] ↔ ∀ v, ¬(r.mDataMap.lookup v).isSome := by
    simp only [AList.lookup_isSome, AList.mem_keys, AList.keys, List.keys]
    rw [← List.map_eq_nil_iff (f := Sigma.fst), List.eq_nil_iff_forall_not_mem]
  rw [hkeys, List.eq_nil_iff_forall_not_mem]
  exact forall_congr' fun v => not_congr h.lookup_isSome_iff

theorem victim_of_nil (h : r.Represents []) : r.victim = (none, r) := by
  have hnil : r.mDataMap.entries.isEmpty = true := h.isEmpty_eq
  rw [LruReplacer.victim, if_pos hnil]

/-- `Victim` takes out the least recent value. -/
theorem victim (h : r.Represents queue) :
    r.victim.1 = queue.getLast? ∧ r.victim.2.Represents queue.dropLast := by
  have hempty := h.isEmpty_eq
  rcases List.eq_nil_or_concat' queue with rfl | ⟨rest, v, rfl⟩
  · rw [h.victim_of_nil]
    exact ⟨rfl, h⟩
  · have hne : ¬r.mDataMap.entries.isEmpty = true := by
      rw [hempty]
      simp
    obtain ⟨nodes, hq, hdata⟩ := h
    rw [List.map_append, List.map_singleton] at hdata
    obtain ⟨pre, last, rfl, hpre, hlast⟩ := List.map_eq_append_iff.mp hdata
    obtain ⟨a, rfl, hv⟩ := List.map_eq_singleton_iff.mp hlast
    have hlinked := hq.linked
    have htail : r.links.prev r.mTail = a ∧ r.links.next a = r.mTail := by
      have hends : r.mHead :: (pre ++ [a]) ++ [r.mTail] =
          (r.mHead :: pre) ++ a :: r.mTail :: [] := by simp
      rw [hends] at hlinked
      exact (List.isChain_append_cons_cons.mp hlinked).2.1.symm
    have ha : a ≠ r.mTail := by
      rintro rfl
      have hnodup := hq.nodup
      exact List.disjoint_of_nodup_append hnodup (by simp) (List.mem_singleton_self _)
    rw [LruReplacer.victim, if_neg hne]
    simp only [htail.1, hv]
    constructor
    · simp
    · refine ⟨pre, ?_, ?_⟩
      · have hends : r.Queue (pre ++ a :: []) := hq
        have hdetached := hends.detach hv
          (k := (r.links.setPrev r.mTail (r.links.prev a)).setNext (r.links.prev a) r.mTail) ?_
        · rw [List.append_nil] at hdetached
          rwa [Links.setPrev_prev_of_ne _ _ ha]
        · rw [htail.2]
          rfl
      · simpa using hpre

end Represents

end LruReplacer

end ScuDb
