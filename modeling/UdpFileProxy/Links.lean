import UdpFileProxy.SendList
import UdpFileProxy.Lib.Run
import Mathlib.Data.List.Chain

/-! `SendList` with both links of its items, and the items that `get_next` has handed out
until they are deleted, for every order of the calls. -/
namespace UdpFileProxy.Links
open Lib.LinkedList Lib.Memory Lib.Run Protocol

/-- `next` leads to the item before; `per` is the link of the cell. -/
structure Node where
  data : SendData
  next : Option Addr
  deriving DecidableEq, Repr

/-- `nodes` is the memory that belongs to the queue. -/
structure Queue where
  stat : Int
  inData : Option Addr
  outData : Option Addr
  listCount : Int
  maxCount : Int
  nodes : Heap Node

/-- The constructor, with another `max_count`. -/
def new (maxCount : Int) : Queue where
  stat := sIdle
  inData := none
  outData := none
  listCount := 0
  maxCount := maxCount
  nodes := fun _ => none

/-- `none` is a link followed that is null or leads out of the queue's memory. -/
def appendFile (queue : Queue) (filename : Bytes) (delect : Bool) (memory : Addr) :
    Option (Int × Queue) :=
  if queue.listCount ≥ queue.maxCount then some (eFull, queue)
  else
    let stat := if queue.stat = sIdle then sBusy else queue.stat
    match queue.inData, queue.outData with
    | none, none =>
        some (eOk, { queue with
          stat := stat
          inData := some memory
          outData := some memory
          listCount := queue.listCount + 1
          nodes := Function.update queue.nodes memory (some ⟨⟨⟨filename, delect⟩, none⟩, none⟩) })
    | some last, _ =>
        (queue.nodes last).map fun _ => (eOk, { queue with
          stat := stat
          inData := some memory
          listCount := queue.listCount + 1
          nodes := linkAfter queue.nodes last memory ⟨⟨filename, delect⟩, some last⟩ })
    | none, some _ => none

/-- The item handed out leaves the queue's memory. -/
def getNext (queue : Queue) : Option (Option (Addr × Cell Node) × Queue) :=
  if queue.listCount = 0 then some (none, { queue with stat := sIdle })
  else
    match queue.outData with
    | none => some (none, queue)
    | some data =>
        (queue.nodes data).map fun cell =>
          (some (data, cell), { queue with
            stat := if cell.next.isNone then sIdle else queue.stat
            inData := if cell.next.isNone then none else queue.inData
            outData := cell.next
            listCount := queue.listCount - 1
            nodes := Function.update queue.nodes data none })

/-- `handed` is the memory of the consumer. `accepted` and `taken` are history. -/
structure State where
  queue : Queue
  handed : Heap Node
  accepted : List (Addr × SendData)
  taken : List (Addr × SendData)

def start (maxCount : Int) : State where
  queue := new maxCount
  handed := fun _ => none
  accepted := []
  taken := []

inductive Action where
  | append (filename : Bytes) (delect : Bool) (memory : Addr)
  | getNext
  | delete (data : Addr)
  deriving DecidableEq, Repr

/-- `new` returns memory that nobody has. -/
def step (state : State) : Action → Option State
  | .append filename delect memory =>
      if (state.queue.nodes memory).isNone ∧ (state.handed memory).isNone then
        (appendFile state.queue filename delect memory).map fun (ret, queue) =>
          { state with
            queue := queue
            accepted :=
              if ret = eOk then state.accepted ++ [(memory, ⟨filename, delect⟩)] else state.accepted }
      else none
  | .getNext =>
      (getNext state.queue).map fun (data, queue) =>
        match data with
        | none => { state with queue := queue }
        | some (addr, cell) => { state with
            queue := queue
            handed := Function.update state.handed addr (some cell)
            taken := state.taken ++ [(addr, cell.value.data)] }
  | .delete data =>
      if (state.handed data).isSome then
        some { state with handed := Function.update state.handed data none }
      else none

/-- The nodes from `out` to `in`, each linked back to the one before it. -/
structure Linked (queue : Queue) (cells : List (Addr × Node)) : Prop where
  chain : Chain queue.nodes queue.outData cells
  last : queue.inData = cells.getLast?.map Prod.fst
  count : queue.listCount = cells.length
  back : cells.IsChain fun older newer => newer.2.next = some older.1

/-- The queue without its back links, as the class is used elsewhere. -/
def plain (queue : Queue) : SendList where
  stat := queue.stat
  inData := queue.inData
  outData := queue.outData
  listCount := queue.listCount
  maxCount := queue.maxCount
  heap := queue.nodes.map Node.data

section
variable {queue after : Queue} {cells rest : List (Addr × Node)} {filename : Bytes} {delect : Bool}
  {memory data : Addr} {node : Node} {ret maxCount : Int} {state next final : State}
  {action : Action} {actions : List Action}

theorem Linked.queued (h : Linked queue cells) :
    SendList.Queued (plain queue) (cells.map (Prod.map id Node.data)) where
  chain := h.chain.map Node.data
  last := by
    rw [List.getLast?_map, Option.map_map]
    exact h.last
  count := by
    rw [List.length_map]
    exact h.count

theorem appendFile_plain (happend : appendFile queue filename delect memory = some (ret, after)) :
    SendList.appendFile (plain queue) filename delect memory = some (ret, plain after) := by
  unfold appendFile at happend
  unfold SendList.appendFile
  by_cases hfull : queue.listCount ≥ queue.maxCount
  · rw [if_pos hfull] at happend
    cases happend
    exact if_pos hfull
  · rw [if_neg hfull] at happend
    refine (if_neg hfull).trans ?_
    cases hin : queue.inData with
    | none =>
      cases hout : queue.outData with
      | none =>
        simp only [hin, hout, Option.some.injEq, Prod.mk.injEq] at happend
        obtain ⟨rfl, rfl⟩ := happend
        simp [plain, hin, hout, Heap.map_update]
      | some first => simp [hin, hout] at happend
    | some last =>
      simp only [hin, Option.map_eq_some_iff, Prod.mk.injEq] at happend
      obtain ⟨_, -, rfl, rfl⟩ := happend
      simp [plain, hin, Heap.map_linkAfter]

theorem getNext_plain {item : Option (Addr × Cell Node)} (hnext : getNext queue = some (item, after)) :
    ∃ list, SendList.getNext (plain queue) = some (item.map Prod.fst, list) ∧
      plain after = item.elim list fun item => SendList.delete list item.1 := by
  unfold getNext at hnext
  unfold SendList.getNext
  by_cases hzero : queue.listCount = 0
  · rw [if_pos hzero] at hnext
    cases hnext
    exact ⟨_, if_pos hzero, rfl⟩
  · rw [if_neg hzero] at hnext
    cases hout : queue.outData with
    | none =>
      simp only [hout, Option.some.injEq, Prod.mk.injEq] at hnext
      obtain ⟨rfl, rfl⟩ := hnext
      exact ⟨_, by simp [plain, hzero, hout], rfl⟩
    | some data =>
      simp only [hout, Option.map_eq_some_iff, Prod.mk.injEq] at hnext
      obtain ⟨cell, hcell, rfl, rfl⟩ := hnext
      have hplain : (queue.nodes.map Node.data) data = some ⟨cell.value.data, cell.next⟩ := by
        rw [Heap.map, hcell, Option.map_some]
      simp only [plain, hzero, hout, hplain, if_false, Option.map_some]
      refine ⟨_, rfl, ?_⟩
      simp [SendList.delete, Heap.map_update]

theorem linked_new (maxCount : Int) : Linked (new maxCount) [] := ⟨rfl, rfl, rfl, .nil⟩

theorem Linked.appendFile_full (h : Linked queue cells) (hfull : queue.maxCount ≤ cells.length) :
    appendFile queue filename delect memory = some (eFull, queue) := by
  rw [appendFile, if_pos (by rw [h.count]; exact hfull)]

theorem Linked.appendFile (h : Linked queue cells) (hroom : cells.length < queue.maxCount)
    (hfree : queue.nodes memory = none) (filename : Bytes) (delect : Bool) :
    ∃ after next, Links.appendFile queue filename delect memory = some (eOk, after) ∧
      Linked after (cells ++ [(memory, ⟨⟨filename, delect⟩, next⟩)]) ∧
      after.maxCount = queue.maxCount ∧
      ∀ addr, addr ≠ memory → queue.nodes addr = none → after.nodes addr = none := by
  have hopen : ¬queue.listCount ≥ queue.maxCount := by
    rw [h.count]
    omega
  have hcount (node : Node) : queue.listCount + 1 = (cells ++ [(memory, node)]).length := by
    rw [h.count, List.length_append]
    simp
  unfold Links.appendFile
  rw [if_neg hopen]
  cases hcells : cells.getLast? with
  | none =>
    obtain rfl := List.getLast?_eq_none_iff.mp hcells
    have hin : queue.inData = none := h.last
    have hout : queue.outData = none := h.chain
    simp only [hin, hout]
    refine ⟨_, none, rfl, ⟨⟨rfl, none, by simp, rfl⟩, rfl, hcount _, .singleton _⟩, rfl, ?_⟩
    intro addr hne hnone
    exact (Function.update_of_ne hne _ _).trans hnone
  | some last =>
    obtain ⟨front, rfl⟩ := List.getLast?_eq_some_iff.mp hcells
    have hin : queue.inData = some last.1 := by rw [h.last, hcells, Option.map_some]
    obtain ⟨link, hlast⟩ := h.chain.allocated (List.mem_append_right front (List.mem_singleton_self last))
    have hlinked := h.chain.link hfree ⟨⟨filename, delect⟩, some last.1⟩
    simp only [hin, hlast, Option.map_some]
    refine ⟨_, some last.1, rfl, ⟨by simpa [hlast] using hlinked, by simp, hcount _, ?_⟩, rfl, ?_⟩
    · refine h.back.append (.singleton _) ?_
      simp
    · intro addr hne hnone
      have hother : addr ≠ last.1 := by
        rintro rfl
        rw [hlast] at hnone
        contradiction
      exact (Function.update_of_ne hother _ _).trans ((Function.update_of_ne hne _ _).trans hnone)

theorem Linked.getNext_nil (h : Linked queue []) :
    getNext queue = some (none, { queue with stat := sIdle }) := by
  have hcount : queue.listCount = 0 := h.count
  rw [getNext, if_pos hcount]

theorem Linked.getNext_cons (h : Linked queue ((data, node) :: rest)) :
    ∃ link after, getNext queue = some (some (data, ⟨node, link⟩), after) ∧ Linked after rest ∧
      after.maxCount = queue.maxCount ∧ after.nodes = Function.update queue.nodes data none := by
  have hnot := h.chain.nodup
  rw [List.map_cons, List.nodup_cons] at hnot
  obtain ⟨hout, link, hcell, hrest⟩ := h.chain
  have hlength : queue.listCount - 1 = rest.length := by
    rw [h.count, List.length_cons]
    push_cast
    omega
  have hnonzero : queue.listCount ≠ 0 := by omega
  have hlink : link.isNone = true ↔ rest = [] := by
    rw [Option.isNone_iff_eq_none]
    exact hrest.start_eq_none_iff
  simp only [getNext, hnonzero, hout, hcell, if_false, Option.map_some, hlink]
  refine ⟨link, _, rfl, ⟨hrest.update_of_notMem hnot.1 none, ?_, hlength, h.back.tail⟩, rfl, rfl⟩
  dsimp only
  cases rest with
  | nil => simp
  | cons second others => rw [if_neg (by simp), h.last, List.getLast?_cons_cons]

/-- What holds between any two calls. -/
structure Inv (maxCount : Int) (state : State) (cells : List (Addr × Node)) : Prop where
  linked : Linked state.queue cells
  capacity : state.queue.maxCount = maxCount
  bound : (cells.length : Int) ≤ max 0 maxCount
  apart : ∀ addr, (state.handed addr).isSome → state.queue.nodes addr = none
  history : state.accepted = state.taken ++ cells.map (Prod.map id Node.data)

theorem inv_start (maxCount : Int) : Inv maxCount (start maxCount) [] where
  linked := linked_new maxCount
  capacity := rfl
  bound := le_max_left 0 maxCount
  apart := by simp [start]
  history := rfl

theorem Inv.append (h : Inv maxCount state cells)
    (hstep : Links.step state (.append filename delect memory) = some next) :
    ∃ cells, Inv maxCount next cells := by
  simp only [Links.step, Option.isNone_iff_eq_none, Option.ite_none_right_eq_some] at hstep
  obtain ⟨⟨hnodes, hhanded⟩, hstep⟩ := hstep
  by_cases hfull : state.queue.maxCount ≤ cells.length
  · rw [h.linked.appendFile_full hfull, Option.map_some, Option.some.injEq] at hstep
    subst hstep
    exact ⟨cells, h.linked, h.capacity, h.bound, h.apart, h.history⟩
  · have hroom : (cells.length : Int) < state.queue.maxCount := by omega
    obtain ⟨after, back, happend, hlinked, hmax, hkept⟩ :=
      h.linked.appendFile hroom hnodes filename delect
    rw [happend, Option.map_some, Option.some.injEq] at hstep
    subst hstep
    refine ⟨_, hlinked, hmax.trans h.capacity, ?_, ?_, ?_⟩
    · have hcapacity := h.capacity
      rw [List.length_append, List.length_singleton]
      push_cast
      omega
    · intro addr hsome
      have hne : addr ≠ memory := by
        rintro rfl
        simp [hhanded] at hsome
      exact hkept addr hne (h.apart addr hsome)
    · simp [h.history]

theorem Inv.getNext (h : Inv maxCount state cells) (hstep : Links.step state .getNext = some next) :
    ∃ cells, Inv maxCount next cells := by
  cases cells with
  | nil =>
    rw [Links.step, h.linked.getNext_nil, Option.map_some, Option.some.injEq] at hstep
    subst hstep
    exact ⟨[], ⟨h.linked.chain, h.linked.last, h.linked.count, .nil⟩, h.capacity, h.bound, h.apart,
      h.history⟩
  | cons cell rest =>
    obtain ⟨link, after, hnext, hlinked, hmax, hnodes⟩ := h.linked.getNext_cons
    rw [Links.step, hnext, Option.map_some, Option.some.injEq] at hstep
    subst hstep
    refine ⟨rest, hlinked, hmax.trans h.capacity, ?_, ?_, ?_⟩
    · have hbound := h.bound
      rw [List.length_cons] at hbound
      omega
    · intro addr hsome
      dsimp only at hsome ⊢
      rw [hnodes]
      by_cases hsame : addr = cell.1
      · rw [hsame, Function.update_self]
      · rw [Function.update_of_ne hsame] at hsome ⊢
        exact h.apart addr hsome
    · rw [h.history, List.map_cons, List.append_assoc]
      rfl

theorem Inv.delete (h : Inv maxCount state cells)
    (hstep : Links.step state (.delete data) = some next) : Inv maxCount next cells := by
  rw [Links.step, Option.ite_none_right_eq_some, Option.some.injEq] at hstep
  obtain ⟨-, rfl⟩ := hstep
  refine ⟨h.linked, h.capacity, h.bound, ?_, h.history⟩
  intro addr hsome
  by_cases hsame : addr = data
  · simp [hsame] at hsome
  · dsimp only at hsome
    rw [Function.update_of_ne hsame] at hsome
    exact h.apart addr hsome

theorem Inv.step (h : Inv maxCount state cells) (hstep : Links.step state action = some next) :
    ∃ cells, Inv maxCount next cells := by
  cases action with
  | append filename delect memory => exact h.append hstep
  | getNext => exact h.getNext hstep
  | delete data => exact ⟨cells, h.delete hstep⟩

theorem Linked.appendFile_isSome (h : Linked queue cells) (hfree : queue.nodes memory = none) :
    (Links.appendFile queue filename delect memory).isSome := by
  by_cases hfull : queue.maxCount ≤ cells.length
  · rw [h.appendFile_full hfull]
    rfl
  · obtain ⟨after, back, happend, -⟩ := h.appendFile (by omega) hfree filename delect
    rw [happend]
    rfl

theorem Linked.getNext_eq (h : Linked queue cells) :
    (getNext queue).map (fun (item, _) => item.map fun (addr, cell) => (addr, cell.value.data)) =
      some (cells.map (Prod.map id Node.data)).head? := by
  cases cells with
  | nil =>
    rw [h.getNext_nil]
    rfl
  | cons cell rest =>
    obtain ⟨link, after, hnext, -⟩ := h.getNext_cons
    rw [hnext]
    rfl

/-- After every sequence of calls the links lead from `out` over `list_count` nodes to `in`, the
nodes are the accepted files that are not taken, and the next call stays inside the queue. -/
theorem linked_queue (run : exec step (start maxCount) actions = some final) :
    ∃ cells, (final.queue.inData = none ↔ final.queue.outData = none) ∧
      Linked final.queue cells ∧ final.queue.listCount ≤ max 0 maxCount ∧
      final.accepted = final.taken ++ cells.map (Prod.map id Node.data) ∧
      (getNext final.queue).map (fun (item, _) => item.map fun (addr, cell) => (addr, cell.value.data)) =
        some (cells.map (Prod.map id Node.data)).head? ∧
      ∀ filename delect memory, final.queue.nodes memory = none →
        (appendFile final.queue filename delect memory).isSome := by
  have hinv : ∃ cells, Inv maxCount final cells := by
    have hpreserved : ∀ state action next, (∃ cells, Inv maxCount state cells) →
        step state action = some next → ∃ cells, Inv maxCount next cells := by
      rintro state action next ⟨cells, h⟩ hstep
      exact h.step hstep
    exact exec_invariant' hpreserved ⟨[], inv_start maxCount⟩ run
  obtain ⟨cells, h⟩ := hinv
  refine ⟨cells, ?_, h.linked, ?_, h.history, h.linked.getNext_eq, ?_⟩
  · rw [h.linked.chain.start_eq_none_iff, h.linked.last, Option.map_eq_none_iff,
      List.getLast?_eq_none_iff]
  · rw [h.linked.count]
    exact h.bound
  · intro filename delect memory hfree
    exact h.linked.appendFile_isSome hfree

end

/-- The last file gets the memory of the first, which the second node still links back to. -/
def recycled : List Action :=
  [.append [97] true 1, .append [98] false 2, .append [99] false 3, .getNext, .delete 1,
    .append [100] false 1]

theorem linked_queue_recycled : ∃ final, exec step (start 2) recycled = some final ∧
    final.queue.listCount = 2 ∧
    ∃ cells, (final.queue.inData = none ↔ final.queue.outData = none) ∧
      Linked final.queue cells ∧ final.queue.listCount ≤ max 0 2 ∧
      final.accepted = final.taken ++ cells.map (Prod.map id Node.data) ∧
      (getNext final.queue).map (fun (item, _) => item.map fun (addr, cell) => (addr, cell.value.data)) =
        some (cells.map (Prod.map id Node.data)).head? ∧
      ∀ filename delect memory, final.queue.nodes memory = none →
        (appendFile final.queue filename delect memory).isSome := by
  have hrun : exec step (start 2) recycled = some _ := rfl
  exact ⟨_, hrun, rfl, linked_queue hrun⟩

end UdpFileProxy.Links
