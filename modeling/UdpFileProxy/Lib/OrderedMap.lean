import Mathlib.Data.List.Nodup
import Mathlib.Data.List.TakeWhile
import Mathlib.Logic.Function.Basic

/-! A map that is iterated in the order of its keys, as `std::map` is. -/
namespace UdpFileProxy.Lib

theorem lookup_eq_some {κ α : Type*} [BEq κ] [LawfulBEq κ] {entries : List (κ × α)} {key : κ}
    {value : α} (hnodup : (entries.map Prod.fst).Nodup) :
    entries.lookup key = some value ↔ (key, value) ∈ entries := by
  constructor
  · intro hfind
    obtain ⟨front, back, hsplit, -⟩ := List.lookup_eq_some_iff.mp hfind
    simp [hsplit]
  · intro hmem
    obtain ⟨front, back, hsplit⟩ := List.append_of_mem hmem
    refine List.lookup_eq_some_iff.mpr ⟨front, back, hsplit, ?_⟩
    rw [hsplit, (List.perm_middle.map Prod.fst).nodup_iff, List.map_cons, List.nodup_cons] at hnodup
    intro entry hentry
    have hne : key ≠ entry.1 := by
      intro heq
      apply hnodup.1
      rw [show (key, value).1 = entry.1 from heq]
      exact List.mem_map_of_mem (List.mem_append_left _ hentry)
    simpa using hne

theorem lookup_middle {κ α : Type*} [DecidableEq κ] [BEq κ] [LawfulBEq κ] {front back : List (κ × α)}
    {key : κ} {value : α} (hfront : key ∉ front.map Prod.fst) :
    (fun other => (front ++ (key, value) :: back).lookup other) =
      Function.update (fun other => (front ++ back).lookup other) key (some value) := by
  funext other
  rw [List.lookup_append, List.lookup_cons]
  by_cases hother : other = key
  · subst hother
    have hnone : front.lookup other = none := by
      rw [List.lookup_eq_none_iff]
      intro entry hentry
      have hne : other ≠ entry.1 := by
        rintro rfl
        exact hfront (List.mem_map_of_mem hentry)
      simpa using hne
    simp [hnone]
  · rw [Function.update_of_ne hother, List.lookup_append, beq_false_of_ne hother]

structure OrderedMap (κ α : Type*) where
  entries : List (κ × α)
  nodup : (entries.map Prod.fst).Nodup

namespace OrderedMap
variable {κ α : Type*} [DecidableEq κ]

def empty : OrderedMap κ α := ⟨[], List.nodup_nil⟩

def find (map : OrderedMap κ α) (key : κ) : Option α := map.entries.lookup key

/-- Erase the entry of a key. -/
def erase (map : OrderedMap κ α) (key : κ) : OrderedMap κ α :=
  ⟨map.entries.filter fun entry => entry.1 ≠ key, map.nodup.sublist (List.filter_sublist.map _)⟩

/-- Erase the first entry with a property, in the order of iteration. -/
def eraseFirst (map : OrderedMap κ α) (property : κ × α → Bool) : OrderedMap κ α :=
  ⟨map.entries.eraseP property, map.nodup.sublist (List.eraseP_sublist.map _)⟩

/-- `map[key] = value`. -/
def assign [LT κ] [DecidableLT κ] (map : OrderedMap κ α) (key : κ) (value : α) : OrderedMap κ α :=
  ⟨(map.erase key).entries.takeWhile (fun entry => entry.1 < key) ++
      (key, value) :: (map.erase key).entries.dropWhile fun entry => entry.1 < key, by
    rw [(List.perm_middle.map Prod.fst).nodup_iff, List.takeWhile_append_dropWhile,
      List.map_cons, List.nodup_cons]
    refine ⟨?_, (map.erase key).nodup⟩
    simp [erase]⟩

variable {map : OrderedMap κ α} {key : κ} {value : α} {entry : κ × α}

theorem entries_erase (map : OrderedMap κ α) (key : κ) :
    (map.erase key).entries = map.entries.filter fun entry => entry.1 ≠ key := rfl

theorem find_eq_some : map.find key = some value ↔ (key, value) ∈ map.entries :=
  lookup_eq_some map.nodup

theorem find_eq_none : map.find key = none ↔ ∀ entry ∈ map.entries, entry.1 ≠ key := by
  rw [find, List.lookup_eq_none_iff]
  constructor
  · intro hnone entry hentry heq
    exact absurd (hnone entry hentry) (by simp [heq])
  · intro hne entry hentry
    simpa using (hne entry hentry).symm

@[simp] theorem mem_erase : entry ∈ (map.erase key).entries ↔ entry ∈ map.entries ∧ entry.1 ≠ key := by
  simp [erase]

@[simp] theorem mem_assign [LT κ] [DecidableLT κ] : entry ∈ (map.assign key value).entries ↔
    entry = (key, value) ∨ entry ∈ map.entries ∧ entry.1 ≠ key := by
  rw [← mem_erase, assign, List.perm_middle.mem_iff, List.takeWhile_append_dropWhile, List.mem_cons]

theorem assign_perm [LT κ] [DecidableLT κ] (map : OrderedMap κ α) (key : κ) (value : α) :
    (map.assign key value).entries.Perm ((key, value) :: (map.erase key).entries) := by
  rw [assign]
  refine List.perm_middle.trans ?_
  rw [List.takeWhile_append_dropWhile]

theorem erase_of_find_none (h : map.find key = none) : map.erase key = map := by
  have hentries : (map.erase key).entries = map.entries := by
    rw [entries_erase, List.filter_eq_self]
    intro entry hentry
    simpa using find_eq_none.mp h entry hentry
  unfold erase at hentries ⊢
  congr

theorem perm_of_find (h : map.find key = some value) :
    map.entries.Perm ((key, value) :: (map.erase key).entries) := by
  obtain ⟨front, back, hsplit⟩ := List.append_of_mem (find_eq_some.mp h)
  have hnodup := map.nodup
  rw [hsplit, (List.perm_middle.map Prod.fst).nodup_iff, List.map_cons, List.nodup_cons] at hnodup
  have hrest : (map.erase key).entries = front ++ back := by
    rw [entries_erase, hsplit, List.filter_append, List.filter_cons_of_neg (by simp), ← List.filter_append,
      List.filter_eq_self]
    intro entry hentry
    have hne : entry.1 ≠ key := by
      intro heq
      apply hnodup.1
      rw [← show entry.1 = (key, value).1 from heq]
      exact List.mem_map_of_mem hentry
    simpa using hne
  rw [hrest, hsplit]
  exact List.perm_middle

@[simp] theorem find_erase_self : (map.erase key).find key = none := by
  rw [find_eq_none]
  intro entry hentry
  exact (mem_erase.mp hentry).2

@[simp] theorem find_erase_ne {other : κ} (h : other ≠ key) : (map.erase key).find other = map.find other := by
  apply Option.ext
  intro value
  simp [find_eq_some, h]

@[simp] theorem find_assign_self [LT κ] [DecidableLT κ] : (map.assign key value).find key = some value := by
  simp [find_eq_some]

@[simp] theorem find_assign_ne [LT κ] [DecidableLT κ] {other : κ} (h : other ≠ key) :
    (map.assign key value).find other = map.find other := by
  apply Option.ext
  intro found
  simp [find_eq_some, h]

theorem find_erase : (map.erase key).find = Function.update map.find key none := by
  funext other
  by_cases h : other = key
  · simp [h]
  · simp [h]

theorem find_assign [LT κ] [DecidableLT κ] :
    (map.assign key value).find = Function.update map.find key (some value) := by
  funext other
  by_cases h : other = key
  · simp [h]
  · simp [h]

omit [DecidableEq κ] in
theorem eraseFirst_cases (map : OrderedMap κ α) (property : κ × α → Bool) :
    (map.eraseFirst property = map ∧ ∀ entry ∈ map.entries, property entry = false) ∨
      ∃ first ∈ map.entries, property first = true ∧
        ∀ entry, entry ∈ (map.eraseFirst property).entries ↔ entry ∈ map.entries ∧ entry ≠ first := by
  rcases List.exists_or_eq_self_of_eraseP property map.entries with hsame | hfirst
  · refine .inl ⟨?_, by simpa using hsame⟩
    unfold eraseFirst
    congr
  · obtain ⟨first, front, back, -, hproperty, hsplit, herased⟩ := hfirst
    refine .inr ⟨first, by simp [hsplit], hproperty, ?_⟩
    intro entry
    have hnodup := map.nodup.of_map
    rw [hsplit, List.perm_middle.nodup_iff, List.nodup_cons] at hnodup
    have herase : (map.eraseFirst property).entries = front ++ back := herased
    rw [herase, hsplit, List.perm_middle.mem_iff, List.mem_cons]
    constructor
    · intro hentry
      refine ⟨.inr hentry, ?_⟩
      rintro rfl
      exact hnodup.1 hentry
    · rintro ⟨rfl | hentry, hne⟩
      · exact absurd rfl hne
      · exact hentry

end OrderedMap

end UdpFileProxy.Lib
