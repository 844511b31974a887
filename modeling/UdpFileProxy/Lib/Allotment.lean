import Mathlib.Algebra.Order.Group.Defs
import Mathlib.Algebra.BigOperators.Group.List.Basic
import Mathlib.Tactic.Abel

/-! Grants out of one capacity, each limited by what the grants before it leave.
Grants are given back in any order. What is left after so many grants has a
lower bound that depends on their number only. -/
namespace UdpFileProxy.Lib.Allotment

variable {α : Type*} [AddCommGroup α] [LinearOrder α] [IsOrderedAddMonoid α]

/-- The grants that are held, the latest first. -/
def Within (limit : α → α) (capacity : α) : List α → Prop
  | [] => True
  | grant :: older =>
      (0 ≤ grant ∧ grant ≤ limit (capacity - older.sum)) ∧ Within limit capacity older

/-- The least that can be left when this many grants are held. -/
def residue (limit : α → α) (capacity : α) : Nat → α
  | 0 => capacity
  | count + 1 => residue limit capacity count - limit (residue limit capacity count)

section
variable {limit : α → α} {capacity : α} {held : List α} {grant : α}

omit [IsOrderedAddMonoid α] in
theorem Within.nonneg (h : Within limit capacity held) : ∀ grant ∈ held, 0 ≤ grant := by
  induction held with
  | nil => simp
  | cons first older ih =>
    intro grant hgrant
    rcases List.mem_cons.mp hgrant with rfl | hgrant
    · exact h.1.1
    · exact ih h.2 grant hgrant

theorem Within.erase (mono : Monotone limit) (h : Within limit capacity held) (grant : α) :
    Within limit capacity (held.erase grant) := by
  induction held with
  | nil => exact h
  | cons first older ih =>
    by_cases hfirst : first = grant
    · rw [hfirst, List.erase_cons_head]
      exact h.2
    · rw [List.erase_cons_tail (by simpa using hfirst)]
      refine ⟨⟨h.1.1, ?_⟩, ih h.2⟩
      have hsum : (older.erase grant).sum ≤ older.sum := by
        by_cases hmem : grant ∈ older
        · rw [← List.sum_erase hmem]
          exact le_add_of_nonneg_left (h.2.nonneg grant hmem)
        · rw [List.erase_of_not_mem hmem]
      exact h.1.2.trans (mono (sub_le_sub_left hsum capacity))

theorem Within.residue_le (mono : Monotone fun left => left - limit left)
    (h : Within limit capacity held) :
    residue limit capacity held.length ≤ capacity - held.sum := by
  induction held with
  | nil => simp [residue]
  | cons grant older ih =>
    have hleft := mono (ih h.2)
    have hgrant := h.1.2
    calc
      residue limit capacity (grant :: older).length
          ≤ (capacity - older.sum) - limit (capacity - older.sum) := hleft
      _ ≤ (capacity - older.sum) - grant := sub_le_sub_left hgrant _
      _ = capacity - (grant :: older).sum := by rw [List.sum_cons, sub_sub, add_comm]

end

section
variable {β : Type*} {holders : List β} {index : Nat} {holder holder' : β}

theorem perm_of_get (h : holders[index]? = some holder) (holder' : β) :
    holders.Perm (holder :: holders.eraseIdx index) ∧
      (holders.set index holder').Perm (holder' :: holders.eraseIdx index) := by
  obtain ⟨hlt, rfl⟩ := List.getElem?_eq_some_iff.mp h
  exact ⟨(List.getElem_cons_eraseIdx_perm hlt).symm, List.set_perm_cons_eraseIdx hlt _⟩

theorem forall_mem_set {good : β → Prop} (hold : ∀ other ∈ holders, good other) (hnew : good holder') :
    ∀ other ∈ holders.set index holder', good other := by
  intro other hother
  rcases List.mem_or_eq_of_mem_set hother with hother | rfl
  · exact hold other hother
  · exact hnew

theorem sum_map_set {M : Type*} [AddCommMonoid M] (h : holders[index]? = some holder) (holder' : β)
    (worth : β → M) : ((holders.set index holder').map worth).sum + worth holder =
      (holders.map worth).sum + worth holder' := by
  obtain ⟨hbefore, hafter⟩ := perm_of_get h holder'
  rw [(hbefore.map worth).sum_eq, (hafter.map worth).sum_eq, List.map_cons, List.sum_cons,
    List.map_cons, List.sum_cons]
  abel

theorem sum_map_map_le {change : β → β} {worth : β → Nat}
    (h : ∀ holder, worth (change holder) ≤ worth holder + 1) (holders : List β) :
    ((holders.map change).map worth).sum ≤ (holders.map worth).sum + holders.length := by
  induction holders with
  | nil => simp
  | cons first rest ih =>
    have hfirst := h first
    simp only [List.map_cons, List.sum_cons, List.length_cons]
    omega

theorem getElem?_padded {count : Nat} {first : β}
    (h : (holders ++ List.replicate count first)[index]? = some holder) :
    holders[index]? = some holder ∨ (holders.length ≤ index ∧ holder = first) := by
  rw [List.getElem?_append] at h
  split at h
  · exact .inl h
  · rename_i hge
    have hmem := List.mem_of_getElem? h
    exact .inr ⟨not_lt.mp hge, List.eq_of_mem_replicate hmem⟩

end

end UdpFileProxy.Lib.Allotment
