import Mathlib.Data.List.Range
import Mathlib.Data.List.Perm.Subperm
import Mathlib.Data.List.Sort

/-! First-in first-out queues whose elements carry a type, and which can be
asked for the oldest element of one type. This is the message queue of System V:
`msgrcv` with a positive type, with zero, and with a negative type. -/
namespace UdpFileProxy.Lib.TypedFifo

variable {α β : Type*}

/-- The oldest element that satisfies `wanted`, and the queue without it. -/
def takeFirst (wanted : α → Bool) : List α → Option (α × List α)
  | [] => none
  | item :: rest =>
      if wanted item then some (item, rest)
      else (takeFirst wanted rest).map fun found => (found.1, item :: found.2)

/-- A positive type asks for the oldest message of that type, zero for the
oldest of all, and a negative type for the oldest of the lowest type that does
not exceed its absolute value. -/
def msgrcv (mtype : α → Int) (queue : List α) (msgtyp : Int) : Option (α × List α) :=
  if msgtyp = 0 then takeFirst (fun _ => true) queue
  else if 0 < msgtyp then takeFirst (fun item => mtype item = msgtyp) queue
  else
    match ((queue.map mtype).filter (· ≤ -msgtyp)).min? with
    | none => none
    | some lowest => takeFirst (fun item => mtype item = lowest) queue

theorem takeFirst_eq_some {wanted : α → Bool} {queue rest : List α} {item : α} :
    takeFirst wanted queue = some (item, rest) ↔
      ∃ older newer, queue = older ++ item :: newer ∧ rest = older ++ newer ∧
        wanted item = true ∧ ∀ other ∈ older, wanted other = false := by
  induction queue generalizing rest with
  | nil => simp [takeFirst]
  | cons first tail ih =>
    constructor
    · intro found
      by_cases hfirst : wanted first
      · simp only [takeFirst, hfirst, if_true, Option.some.injEq, Prod.mk.injEq] at found
        obtain ⟨rfl, rfl⟩ := found
        exact ⟨[], _, rfl, rfl, hfirst, by simp⟩
      · simp only [takeFirst, hfirst, Bool.false_eq_true, if_false, Option.map_eq_some_iff,
          Prod.exists, Prod.mk.injEq] at found
        obtain ⟨_, remaining, found, rfl, rfl⟩ := found
        obtain ⟨older, newer, rfl, rfl, hitem, holder⟩ := ih.mp found
        refine ⟨first :: older, newer, rfl, rfl, hitem, ?_⟩
        simpa using ⟨by simpa using hfirst, holder⟩
    · rintro ⟨older, newer, hqueue, rfl, hitem, holder⟩
      cases older with
      | nil =>
        obtain ⟨rfl, rfl⟩ := List.cons.inj hqueue
        simp [takeFirst, hitem]
      | cons head older =>
        rw [List.cons_append, List.cons.injEq] at hqueue
        obtain ⟨rfl, rfl⟩ := hqueue
        have hhead : wanted first = false := holder first (by simp)
        have hrest := ih.mpr ⟨older, newer, rfl, rfl, hitem, fun other h => holder other (by simp [h])⟩
        simp [takeFirst, hhead, hrest]

theorem takeFirst_congr {wanted wanted' : α → Bool} {queue : List α}
    (h : ∀ item ∈ queue, wanted item = wanted' item) :
    takeFirst wanted queue = takeFirst wanted' queue := by
  induction queue with
  | nil => rfl
  | cons item rest ih =>
    rw [takeFirst, takeFirst, h item (by simp), ih fun other hother => h other (by simp [hother])]

theorem takeFirst_map (f : α → β) (wanted : β → Bool) (queue : List α) :
    takeFirst wanted (queue.map f) =
      (takeFirst (fun item => wanted (f item)) queue).map fun found =>
        (f found.1, found.2.map f) := by
  induction queue with
  | nil => rfl
  | cons item rest ih =>
    by_cases hitem : wanted (f item)
    · simp [takeFirst, hitem]
    · simp [takeFirst, hitem, ih, Function.comp_def]

theorem split_of_msgrcv {mtype : α → Int} {queue rest : List α} {item : α} {msgtyp : Int}
    (found : msgrcv mtype queue msgtyp = some (item, rest)) :
    ∃ older newer, queue = older ++ item :: newer ∧ rest = older ++ newer := by
  have hfirst {wanted : α → Bool} (hfound : takeFirst wanted queue = some (item, rest)) :
      ∃ older newer, queue = older ++ item :: newer ∧ rest = older ++ newer := by
    obtain ⟨older, newer, hqueue, hrest, -⟩ := takeFirst_eq_some.mp hfound
    exact ⟨older, newer, hqueue, hrest⟩
  unfold msgrcv at found
  split at found
  · exact hfirst found
  split at found
  · exact hfirst found
  split at found
  · contradiction
  · exact hfirst found

@[simp] theorem msgrcv_pos (mtype : α → Int) (queue : List α) {msgtyp : Int} (h : 0 < msgtyp) :
    msgrcv mtype queue msgtyp = takeFirst (fun item => mtype item = msgtyp) queue := by
  simp [msgrcv, h, h.ne']

@[simp] theorem msgrcv_zero_nil (mtype : α → Int) : msgrcv mtype ([] : List α) 0 = none := rfl

@[simp] theorem msgrcv_zero_cons (mtype : α → Int) (item : α) (rest : List α) :
    msgrcv mtype (item :: rest) 0 = some (item, rest) := rfl

theorem eq_range'_of_increasing {numbers : List Nat} {count : Nat}
    (increasing : numbers.Pairwise (· < ·)) (bounds : ∀ i ∈ numbers, 1 ≤ i ∧ i ≤ count)
    (length : numbers.length = count) : numbers = List.range' 1 count := by
  have nodup : numbers.Nodup := increasing.imp fun h => Nat.ne_of_lt h
  have subset : numbers ⊆ List.range' 1 count := by
    intro i hi
    have := bounds i hi
    rw [List.mem_range'_1]
    omega
  have perm : numbers.Perm (List.range' 1 count) :=
    (List.subperm_of_subset nodup subset).perm_of_length_le (by simp [length])
  exact perm.eq_of_pairwise (fun _ _ _ _ h h' => absurd h (Nat.lt_asymm h')) increasing
    List.pairwise_lt_range'

end UdpFileProxy.Lib.TypedFifo
