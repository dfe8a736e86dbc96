import ScuDb.Buffer.RecencyQueue

/-!
The replacer of `project1`, and what its successor in `project2` does
differently.

The two assign the pointers in different orders and do the same with
them. `Size` counts the map here, and is 1 there.
-/

namespace ScuDb

open Foundations

variable {T : Type} [DecidableEq T]

namespace Project1.LruReplacer

/-- `Insert` -/
def insert (r : LruReplacer T) (value : T) : LruReplacer T :=
  let (ptrNow, r) := match r.mDataMap.lookup value with
    | some ptrNow =>
        let links := r.links.setNext (r.links.prev ptrNow) (r.links.next ptrNow)
        let links := links.setPrev (links.next ptrNow) (links.prev ptrNow)
        (ptrNow, { r with links := links })
    | none =>
        (r.made, { r with data := Function.update r.data r.made (some value), made := r.made + 1 })
  let first := r.links.next r.mHead
  let links := (r.links.setNext ptrNow first).setPrev first ptrNow
  { r with
    links := (links.setPrev ptrNow r.mHead).setNext r.mHead ptrNow
    mDataMap := r.mDataMap.insert value ptrNow }

/-- `Victim`: the value it hands out, if it returns `true`. -/
def victim (r : LruReplacer T) : Option T × LruReplacer T :=
  if r.mDataMap.entries.isEmpty then (none, r)
  else
    let ptrLast := r.links.prev r.mTail
    let links := r.links.setPrev r.mTail (r.links.prev ptrLast)
    let links := links.setNext (links.prev ptrLast) r.mTail
    let mDataMap := match r.data ptrLast with
      | some value => r.mDataMap.erase value
      | none => r.mDataMap
    (r.data ptrLast, { r with links := links, mDataMap := mDataMap })

/-- `Erase` -/
def erase (r : LruReplacer T) (value : T) : Bool × LruReplacer T :=
  match r.mDataMap.lookup value with
  | some now =>
      let prev := r.links.prev now
      let next := r.links.next now
      let links := r.links.setNext prev (r.links.next now)
      let links := links.setPrev next (links.prev now)
      (true, { r with links := links, mDataMap := r.mDataMap.erase value })
  | none => (false, r)

/-- `Size` -/
def size (r : LruReplacer T) : Nat := r.mDataMap.entries.length

/-! ### The pointers come out the same -/

variable {r : LruReplacer T} {queue : List T}

theorem insert_eq (h : r.Represents queue) (v : T) : insert r v = r.insert v := by
  cases ha : r.mDataMap.lookup v with
  | none => rw [insert, ScuDb.LruReplacer.insert, ha]
  | some a =>
      obtain ⟨pre, post, -, -, hq, -⟩ := h.split ha
      have hnext := Links.setNext_next_of_ne r.links (r.links.next a) hq.prev_ne.symm
      rw [insert, ScuDb.LruReplacer.insert, ha]
      simp only [hnext, Links.setNext_prev]

theorem victim_eq (r : LruReplacer T) : victim r = r.victim := rfl

theorem erase_eq (h : r.Represents queue) (v : T) : erase r v = r.erase v := by
  cases ha : r.mDataMap.lookup v with
  | none => rw [erase, ScuDb.LruReplacer.erase, ha]
  | some a =>
      obtain ⟨pre, post, -, -, hq, -⟩ := h.split ha
      have hnext := Links.setNext_next_of_ne r.links (r.links.next a) hq.prev_ne.symm
      rw [erase, ScuDb.LruReplacer.erase, ha]
      simp only [hnext, Links.setNext_prev]

theorem size_eq (h : r.Represents queue) : size r = queue.length := by
  have hkeys : r.mDataMap.keys.Perm queue := by
    apply (List.perm_ext_iff_of_nodup r.mDataMap.keys_nodup h.nodup).mpr
    intro v
    rw [AList.mem_keys.symm, ← AList.lookup_isSome]
    exact h.lookup_isSome_iff
  rw [size, ← hkeys.length_eq, AList.keys, List.keys, List.length_map]

end Project1.LruReplacer

/-! ### Runs of both -/

/-- A call on a replacer. -/
inductive ReplacerCall (T : Type)
  | queue (call : QueueCall T)
  | size

inductive ReplacerResult (T : Type)
  | queue (result : QueueResult T)
  | size (n : Nat)
  deriving DecidableEq

namespace ReplacerCall

/-- The replacer of `project2`. -/
def run : ReplacerCall T → LruReplacer T → ReplacerResult T × LruReplacer T
  | .queue call, r => (.queue (call.run r).1, (call.run r).2)
  | .size, r => (.size r.size, r)

/-- The replacer of `project1`. -/
def run1 : ReplacerCall T → LruReplacer T → ReplacerResult T × LruReplacer T
  | .queue (.insert v), r => (.queue .inserted, Project1.LruReplacer.insert r v)
  | .queue .victim, r =>
      (.queue (.victim (Project1.LruReplacer.victim r).1), (Project1.LruReplacer.victim r).2)
  | .queue (.erase v), r =>
      (.queue (.erased (Project1.LruReplacer.erase r v).1), (Project1.LruReplacer.erase r v).2)
  | .size, r => (.size (Project1.LruReplacer.size r), r)

/-- The values inserted and neither victimised nor erased since then, each
once, and their number. -/
def spec : ReplacerCall T → List T → ReplacerResult T × List T
  | .queue call, values => (.queue (call.spec values).1, (call.spec values).2)
  | .size, values => (.size values.length, values)

/-- A size is asked for when there is one value. -/
def OneLeft : ReplacerCall T → List T → Prop
  | .queue _, _ => True
  | .size, values => values.length = 1

variable {r : LruReplacer T} {values : List T}

theorem represents_run (h : r.Represents values) (call : ReplacerCall T) :
    (call.run r).2.Represents (call.spec values).2 ∧
      ((call.run r).1 = (call.spec values).1 ↔ call.OneLeft values) := by
  cases call with
  | queue call =>
      obtain ⟨hresult, h'⟩ := call.represents_run h
      exact ⟨h', iff_of_true (congrArg ReplacerResult.queue hresult) trivial⟩
  | size =>
      refine ⟨h, ?_⟩
      rw [run, spec, ReplacerResult.size.injEq, LruReplacer.size, OneLeft]
      exact eq_comm

theorem represents_run1 (h : r.Represents values) (call : ReplacerCall T) :
    (call.run1 r).2 = (call.run r).2 ∧ (call.run1 r).1 = (call.spec values).1 := by
  cases call with
  | queue call =>
      have hresult := (call.represents_run h).1
      cases call with
      | insert v => exact ⟨Project1.LruReplacer.insert_eq h v, rfl⟩
      | victim => exact ⟨rfl, congrArg ReplacerResult.queue hresult⟩
      | erase v =>
          rw [run1, Project1.LruReplacer.erase_eq h]
          exact ⟨rfl, congrArg ReplacerResult.queue hresult⟩
  | size => exact ⟨rfl, congrArg ReplacerResult.size (Project1.LruReplacer.size_eq h)⟩

theorem results_run1 (h : r.Represents values) (calls : List (ReplacerCall T)) :
    (specAll run1 calls r).1 = (specAll spec calls values).1 := by
  induction calls generalizing r values with
  | nil => rfl
  | cons call calls ih =>
      obtain ⟨hstate, hresult⟩ := represents_run1 h call
      rw [specAll_cons, specAll_cons, hresult, hstate, ih (represents_run h call).1]

/-- The replacer of `project2` does so as long as there is one value left
whenever it is asked for its size. -/
theorem results_run_iff (h : r.Represents values) (calls : List (ReplacerCall T)) :
    (specAll run calls r).1 = (specAll spec calls values).1 ↔
      Admissible OneLeft spec calls values := by
  induction calls generalizing r values with
  | nil => exact iff_of_true rfl trivial
  | cons call calls ih =>
      obtain ⟨h', hresult⟩ := represents_run h call
      rw [specAll_cons, specAll_cons, List.cons.injEq, hresult, ih h']
      rfl

end ReplacerCall

/-- The two replacers return the same, and the size they tell is the number
of values, exactly if every size is asked for when there is one value. -/
theorem replacers_agree_iff (calls : List (ReplacerCall T)) :
    ((specAll ReplacerCall.run calls .empty).1 = (specAll ReplacerCall.run1 calls .empty).1 ∧
      (specAll ReplacerCall.run calls .empty).1 = (specAll ReplacerCall.spec calls []).1) ↔
      Admissible ReplacerCall.OneLeft ReplacerCall.spec calls [] := by
  have hempty : (LruReplacer.empty : LruReplacer T).Represents [] := LruReplacer.represents_empty
  rw [ReplacerCall.results_run1 hempty, and_self, ReplacerCall.results_run_iff hempty]

/-- A new replacer is asked for its size. -/
theorem replacers_differ :
    (specAll ReplacerCall.run [.size] (LruReplacer.empty : LruReplacer Nat)).1 ≠
      (specAll ReplacerCall.run1 [.size] LruReplacer.empty).1 := by
  decide

end ScuDb
