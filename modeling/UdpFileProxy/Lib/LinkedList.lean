import Mathlib.Data.List.Nodup
import Mathlib.Logic.Function.Basic

/-! Singly linked lists in a heap. A cell holds a value and the address of the
next cell; `Chain heap start cells` says that following the links from `start`
visits exactly these addresses with these values and ends at a null pointer. -/
namespace UdpFileProxy.Lib.LinkedList

abbrev Addr := Nat

@[ext] structure Cell (α : Type*) where
  value : α
  next : Option Addr
  deriving DecidableEq, Repr

/-- Addresses that are not allocated hold nothing. -/
abbrev Heap (α : Type*) := Addr → Option (Cell α)

variable {α : Type*}

def Chain (heap : Heap α) : Option Addr → List (Addr × α) → Prop
  | start, [] => start = none
  | start, (addr, value) :: rest =>
      start = some addr ∧ ∃ next, heap addr = some ⟨value, next⟩ ∧ Chain heap next rest

section
variable {heap heap' : Heap α} {start : Option Addr} {cells : List (Addr × α)} {addr : Addr}
  {value : α}

@[simp] theorem chain_nil : Chain heap start [] ↔ start = none := Iff.rfl

theorem Chain.start_eq_none_iff (h : Chain heap start cells) : start = none ↔ cells = [] := by
  cases cells with
  | nil => simpa using h
  | cons cell rest => simp [h.1]

theorem Chain.exists_start {cell : Addr × α} (h : Chain heap start cells) (hmem : cell ∈ cells) :
    ∃ first, start = some first := by
  rw [← Option.ne_none_iff_exists']
  intro hnone
  rw [h.start_eq_none_iff.mp hnone] at hmem
  contradiction

theorem Chain.allocated (h : Chain heap start cells) (hmem : (addr, value) ∈ cells) :
    ∃ next, heap addr = some ⟨value, next⟩ := by
  induction cells generalizing start with
  | nil => simp at hmem
  | cons cell rest ih =>
    obtain ⟨-, next, hcell, hrest⟩ := h
    rcases List.mem_cons.mp hmem with rfl | hmem
    · exact ⟨next, hcell⟩
    · exact ih hrest hmem

theorem Chain.unique {other : List (Addr × α)} (h : Chain heap start cells)
    (h' : Chain heap start other) : cells = other := by
  induction cells generalizing start other with
  | nil => exact ((h'.start_eq_none_iff).mp h).symm
  | cons cell rest ih =>
    obtain ⟨hstart, next, hcell, hrest⟩ := h
    cases other with
    | nil =>
      rw [chain_nil.mp h'] at hstart
      contradiction
    | cons cell' rest' =>
      obtain ⟨hstart', next', hcell', hrest'⟩ := h'
      have haddr : cell.1 = cell'.1 := Option.some.inj (hstart.symm.trans hstart')
      rw [← haddr, hcell, Option.some.injEq, Cell.mk.injEq] at hcell'
      rw [Prod.ext haddr hcell'.1, ih hrest (hcell'.2 ▸ hrest')]

theorem Chain.suffix {front back : List (Addr × α)} (h : Chain heap start (front ++ back)) :
    ∃ middle, Chain heap middle back := by
  induction front generalizing start with
  | nil => exact ⟨start, h⟩
  | cons cell front ih =>
    obtain ⟨-, next, -, hrest⟩ := h
    exact ih hrest

theorem Chain.nodup (h : Chain heap start cells) : (cells.map Prod.fst).Nodup := by
  induction cells generalizing start with
  | nil => exact List.nodup_nil
  | cons cell rest ih =>
    obtain ⟨hstart, next, hcell, hrest⟩ := id h
    rw [List.map_cons, List.nodup_cons]
    refine ⟨?_, ih hrest⟩
    intro hmem
    obtain ⟨other, hother, haddr⟩ := List.mem_map.mp hmem
    obtain ⟨front, back, hsplit⟩ := List.append_of_mem hother
    rw [hsplit] at hrest
    obtain ⟨middle, hback⟩ := hrest.suffix
    have hmiddle : middle = start := by
      rw [hback.1, hstart, haddr]
    have hlength := congrArg List.length (h.unique (hmiddle ▸ hback))
    rw [hsplit] at hlength
    simp only [List.length_cons, List.length_append] at hlength
    omega

theorem Chain.notMem_rest {front back : List (Addr × α)}
    (h : Chain heap start (front ++ (addr, value) :: back)) : addr ∉ (front ++ back).map Prod.fst := by
  have hnodup := h.nodup
  rw [(List.perm_middle.map _).nodup_iff, List.map_cons, List.nodup_cons] at hnodup
  exact hnodup.1

/-- Heaps that agree on the cells hold the same chain. -/
theorem Chain.congr (h : Chain heap start cells)
    (hsame : ∀ cell ∈ cells, heap' cell.1 = heap cell.1) : Chain heap' start cells := by
  induction cells generalizing start with
  | nil => exact h
  | cons cell rest ih =>
    obtain ⟨hstart, next, hcell, hrest⟩ := h
    refine ⟨hstart, next, ?_, ih hrest fun other hother => hsame other (by simp [hother])⟩
    rw [hsame cell (by simp), hcell]

theorem Chain.update_of_notMem (h : Chain heap start cells) (hnot : addr ∉ cells.map Prod.fst)
    (cell : Option (Cell α)) : Chain (Function.update heap addr cell) start cells := by
  refine h.congr ?_
  intro other hother
  have hne : other.1 ≠ addr := by
    rintro rfl
    exact hnot (List.mem_map_of_mem hother)
  exact Function.update_of_ne hne _ _

theorem Chain.notMem_of_free (h : Chain heap start cells) (hfree : heap addr = none) :
    addr ∉ cells.map Prod.fst := by
  intro hmem
  obtain ⟨⟨_, value⟩, hcell, rfl⟩ := List.mem_map.mp hmem
  obtain ⟨next, hallocated⟩ := h.allocated hcell
  rw [hfree] at hallocated
  contradiction

/-- Another link out of one cell: the chain goes on where the new link leads. -/
theorem Chain.relink {front back back' : List (Addr × α)} {next : Option Addr}
    (h : Chain heap start (front ++ (addr, value) :: back)) (hback : Chain heap next back')
    (hnot : addr ∉ back'.map Prod.fst) :
    Chain (Function.update heap addr (some ⟨value, next⟩)) start (front ++ (addr, value) :: back') := by
  have hnodup := h.nodup
  induction front generalizing start with
  | nil =>
    obtain ⟨hstart, -, -, -⟩ := h
    exact ⟨hstart, next, by simp, hback.update_of_notMem hnot _⟩
  | cons cell front ih =>
    obtain ⟨hstart, link, hcell, hrest⟩ := h
    rw [List.cons_append, List.map_cons, List.nodup_cons] at hnodup
    have hne : cell.1 ≠ addr := by
      intro heq
      apply hnodup.1
      simp [heq]
    refine ⟨hstart, link, ?_, ih hrest hnodup.2⟩
    rw [Function.update_of_ne hne, hcell]

theorem Chain.revalue {old : α} {link : Option Addr} (h : Chain heap start cells)
    (hcell : heap addr = some ⟨old, link⟩) (value : α) :
    Chain (Function.update heap addr (some ⟨value, link⟩)) start
      (cells.map fun cell => if cell.1 = addr then (addr, value) else cell) := by
  induction cells generalizing start with
  | nil => exact h
  | cons cell rest ih =>
    obtain ⟨hstart, next, hfirst, hrest⟩ := h
    rw [List.map_cons]
    by_cases heq : cell.1 = addr
    · rw [if_pos heq]
      rw [heq, hcell, Option.some.injEq, Cell.mk.injEq] at hfirst
      exact ⟨heq ▸ hstart, link, by simp, ih (hfirst.2 ▸ hrest)⟩
    · rw [if_neg heq]
      refine ⟨hstart, next, ?_, ih hrest⟩
      rw [Function.update_of_ne heq, hfirst]

/-- What a cell holds, wherever it links to. -/
def valueAt (heap : Heap α) (addr : Addr) : Option α := (heap addr).map Cell.value

theorem Chain.valueAt (h : Chain heap start cells) (hmem : (addr, value) ∈ cells) :
    valueAt heap addr = some value := by
  obtain ⟨next, hcell⟩ := h.allocated hmem
  rw [LinkedList.valueAt, hcell, Option.map_some]

theorem exists_of_valueAt (h : LinkedList.valueAt heap addr = some value) :
    ∃ next, heap addr = some ⟨value, next⟩ := by
  obtain ⟨cell, hcell, rfl⟩ := Option.map_eq_some_iff.mp h
  exact ⟨cell.next, hcell⟩

/-- The cells that the links lead to, at most `fuel` of them. -/
def follow (heap : Heap α) : Nat → Option Addr → List (Addr × α)
  | fuel + 1, some addr =>
      match heap addr with
      | none => []
      | some cell => (addr, cell.value) :: follow heap fuel cell.next
  | _, _ => []

theorem Chain.follow_eq {fuel : Nat} (h : Chain heap start cells) (hfuel : cells.length ≤ fuel) :
    follow heap fuel start = cells := by
  induction cells generalizing start fuel with
  | nil =>
    rw [chain_nil.mp h]
    cases fuel <;> rfl
  | cons cell rest ih =>
    obtain ⟨hstart, next, hcell, hrest⟩ := h
    cases fuel with
    | zero => simp at hfuel
    | succ fuel =>
      rw [hstart, follow, hcell]
      dsimp only
      rw [ih hrest (by simpa using hfuel)]

/-- The heap after a new cell was linked behind `last`. -/
def linkAfter (heap : Heap α) (last addr : Addr) (value : α) : Heap α :=
  Function.update (Function.update heap addr (some ⟨value, none⟩)) last
    ((heap last).map fun cell => ⟨cell.value, some addr⟩)

theorem Chain.link {front : List (Addr × α)} {last : Addr} {old : α}
    (h : Chain heap start (front ++ [(last, old)])) (hfree : heap addr = none) (value : α) :
    Chain (linkAfter heap last addr value) start
      (front ++ [(last, old), (addr, value)]) := by
  have hnot := h.notMem_of_free hfree
  have hne : last ≠ addr := by
    rintro rfl
    simp at hnot
  obtain ⟨next, hcell⟩ := h.allocated (List.mem_append_right front (List.mem_singleton_self (last, old)))
  have hnew : Chain (Function.update heap addr (some ⟨value, none⟩)) (some addr) [(addr, value)] :=
    ⟨rfl, none, Function.update_self addr _ heap, rfl⟩
  rw [linkAfter, hcell]
  exact (h.update_of_notMem hnot _).relink hnew (by simpa using hne)

end

/-- Every value of a heap replaced; the links stay. -/
def Heap.map {β : Type*} (f : α → β) (heap : Heap α) : Heap β :=
  fun addr => (heap addr).map fun cell => ⟨f cell.value, cell.next⟩

section
variable {β : Type*} {f : α → β} {heap : Heap α} {start : Option Addr} {cells : List (Addr × α)}

theorem Heap.map_update (f : α → β) (heap : Heap α) (addr : Addr) (cell : Option (Cell α)) :
    Heap.map f (Function.update heap addr cell) =
      Function.update (Heap.map f heap) addr (cell.map fun cell => ⟨f cell.value, cell.next⟩) := by
  funext other
  by_cases hsame : other = addr
  · subst hsame
    rw [Heap.map, Function.update_self, Function.update_self]
  · rw [Heap.map, Function.update_of_ne hsame, Function.update_of_ne hsame, Heap.map]

theorem Heap.map_linkAfter (f : α → β) (heap : Heap α) (last addr : Addr) (value : α) :
    Heap.map f (linkAfter heap last addr value) = linkAfter (Heap.map f heap) last addr (f value) := by
  rw [linkAfter, linkAfter, Heap.map_update, Heap.map_update]
  congr 1
  rw [Heap.map]
  cases heap last <;> rfl

theorem Chain.map (h : Chain heap start cells) (f : α → β) :
    Chain (Heap.map f heap) start (cells.map (Prod.map id f)) := by
  induction cells generalizing start with
  | nil => exact h
  | cons cell rest ih =>
    obtain ⟨hstart, next, hcell, hrest⟩ := h
    exact ⟨hstart, next, by rw [Heap.map, id_eq, hcell, Option.map_some], ih hrest⟩

end

end UdpFileProxy.Lib.LinkedList
