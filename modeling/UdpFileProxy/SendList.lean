import UdpFileProxy.Lib.LinkedList
import UdpFileProxy.Lib.Memory
import UdpFileProxy.Protocol

/-! The queue of files of one app, class `SendList` of `proxy_client.cpp`. Its
items are linked from `out` to `in` through `per`, which is the link of a cell
here. What runs under the mutex is one operation. -/
namespace UdpFileProxy
open Lib.LinkedList Lib.Memory Protocol

structure SendData where
  filename : Bytes
  delect : Bool
  deriving DecidableEq, Repr

structure SendList where
  stat : Int
  inData : Option Addr
  outData : Option Addr
  listCount : Int
  maxCount : Int
  heap : Heap SendData

namespace SendList

/-- The constructor. -/
def new : SendList where
  stat := sIdle
  inData := none
  outData := none
  listCount := 0
  maxCount := maxFile
  heap := fun _ => none

/-- `none` is a null pointer that is followed; `memory` is what `new` returns. -/
def appendFile (list : SendList) (filename : Bytes) (delect : Bool) (memory : Addr) :
    Option (Int × SendList) :=
  if list.listCount ≥ list.maxCount then some (eFull, list)
  else
    let stat := if list.stat = sIdle then sBusy else list.stat
    match list.inData, list.outData with
    | none, none =>
        some (eOk, { list with
          stat := stat
          inData := some memory
          outData := some memory
          listCount := list.listCount + 1
          heap := Function.update list.heap memory (some ⟨⟨filename, delect⟩, none⟩) })
    | some last, _ =>
        some (eOk, { list with
          stat := stat
          inData := some memory
          listCount := list.listCount + 1
          heap := linkAfter list.heap last memory ⟨filename, delect⟩ })
    | none, some _ => none

/-- The item that is handed out; `none` for a link that dangles. -/
def getNext (list : SendList) : Option (Option Addr × SendList) :=
  if list.listCount = 0 then some (none, { list with stat := sIdle })
  else
    match list.outData with
    | none => some (none, list)
    | some data =>
        (list.heap data).map fun cell =>
          (some data, { list with
            stat := if cell.next.isNone then sIdle else list.stat
            inData := if cell.next.isNone then none else list.inData
            outData := cell.next
            listCount := list.listCount - 1 })

/-- `delete data`. -/
def delete (list : SendList) (data : Addr) : SendList :=
  { list with heap := Function.update list.heap data none }

/-- The items of the queue, from `out` to `in`. -/
structure Queued (list : SendList) (cells : List (Addr × SendData)) : Prop where
  chain : Chain list.heap list.outData cells
  last : list.inData = cells.getLast?.map Prod.fst
  count : list.listCount = cells.length

section
variable {list next : SendList} {cells : List (Addr × SendData)} {filename : Bytes} {delect : Bool}
  {memory data : Addr} {item : SendData}

theorem queued_new (maxCount : Int) : Queued { SendList.new with maxCount := maxCount } [] :=
  ⟨rfl, rfl, rfl⟩

theorem Queued.appendFile_full (h : Queued list cells) (hfull : list.maxCount ≤ cells.length)
    (filename : Bytes) (delect : Bool) (memory : Addr) :
    appendFile list filename delect memory = some (eFull, list) := by
  rw [appendFile, if_pos (by rw [h.count]; exact hfull)]

theorem Queued.appendFile (h : Queued list cells) (hroom : cells.length < list.maxCount)
    (hfree : list.heap memory = none) (filename : Bytes) (delect : Bool) :
    ∃ next, appendFile list filename delect memory = some (eOk, next) ∧
      Queued next (cells ++ [(memory, ⟨filename, delect⟩)]) ∧ next.maxCount = list.maxCount ∧
      next.stat = (if list.stat = sIdle then sBusy else list.stat) ∧
      ∀ addr, addr ∉ cells.map Prod.fst → addr ≠ memory → next.heap addr = list.heap addr := by
  have hopen : ¬list.listCount ≥ list.maxCount := by
    rw [h.count]
    omega
  have hcount : list.listCount + 1 = (cells ++ [(memory, SendData.mk filename delect)]).length := by
    rw [h.count, List.length_append]
    simp
  unfold SendList.appendFile
  rw [if_neg hopen]
  cases hcells : cells.getLast? with
  | none =>
    obtain rfl := List.getLast?_eq_none_iff.mp hcells
    have hout : list.outData = none := h.chain
    have hin : list.inData = none := h.last
    simp only [hout, hin]
    refine ⟨_, rfl, ⟨⟨rfl, none, by simp, rfl⟩, rfl, hcount⟩, rfl, rfl, ?_⟩
    intro addr _ hne
    exact Function.update_of_ne hne _ _
  | some last =>
    obtain ⟨front, rfl⟩ := List.getLast?_eq_some_iff.mp hcells
    have hin : list.inData = some last.1 := by rw [h.last, hcells, Option.map_some]
    have hlinked := h.chain.link hfree (SendData.mk filename delect)
    simp only [hin]
    refine ⟨_, rfl, ⟨by simpa using hlinked, by simp, hcount⟩, rfl, rfl, ?_⟩
    intro addr hnot hne
    have hlast : addr ≠ last.1 := by
      rintro rfl
      simp at hnot
    simp [linkAfter, hlast, hne]

theorem Queued.getNext_nil (h : Queued list []) :
    getNext list = some (none, { list with stat := sIdle }) := by
  have hcount : list.listCount = 0 := h.count
  rw [getNext, if_pos hcount]

theorem Queued.getNext_cons {rest : List (Addr × SendData)} (h : Queued list ((data, item) :: rest)) :
    ∃ next, getNext list = some (some data, next) ∧ Queued next rest ∧ next.heap = list.heap ∧
      next.maxCount = list.maxCount ∧ next.stat = (if rest = [] then sIdle else list.stat) := by
  obtain ⟨hout, link, hcell, hrest⟩ := h.chain
  have hcount : list.listCount - 1 = rest.length := by
    rw [h.count, List.length_cons]
    push_cast
    omega
  have hnonzero : list.listCount ≠ 0 := by omega
  have hlink : link.isNone = true ↔ rest = [] := by
    rw [Option.isNone_iff_eq_none]
    exact hrest.start_eq_none_iff
  simp only [getNext, hnonzero, hout, hcell, if_false, Option.map_some, hlink]
  refine ⟨_, rfl, ⟨hrest, ?_, hcount⟩, rfl, rfl, rfl⟩
  dsimp only
  cases rest with
  | nil => simp
  | cons second others => rw [if_neg (by simp), h.last, List.getLast?_cons_cons]

theorem Queued.getNext (h : Queued list cells) :
    ∃ next, SendList.getNext list = some (cells.head?.map Prod.fst, next) ∧ Queued next cells.tail ∧
      next.heap = list.heap ∧ next.maxCount = list.maxCount := by
  cases cells with
  | nil => exact ⟨_, h.getNext_nil, ⟨h.chain, h.last, h.count⟩, rfl, rfl⟩
  | cons cell rest =>
    obtain ⟨next, hnext, hqueued, hheap, hmax, -⟩ := h.getNext_cons
    exact ⟨next, hnext, hqueued, hheap, hmax⟩

theorem Queued.delete (h : Queued list cells) (hnot : data ∉ cells.map Prod.fst) :
    Queued (delete list data) cells :=
  ⟨h.chain.update_of_notMem hnot none, h.last, h.count⟩

end

end SendList

end UdpFileProxy
