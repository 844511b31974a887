import UdpFileProxy.Lib.Run
import UdpFileProxy.Lib.TypedFifo

/-! The receiver with the packets reduced to where they come from. A packet is
the number of the file that was sent and its number in that file; `count` says
how many packets each file has. What `File_Process` writes, and when it takes a
file for complete, depends on nothing else as long as all packets of one output
file have names of one length. -/
namespace UdpFileProxy.Reassembly
open Lib.Run Lib.TypedFifo

@[ext] structure Origin where
  file : Nat
  number : Nat
  deriving DecidableEq, Repr

inductive Action where
  | recvfrom
  | msgsnd
  | poll
  | wait
  deriving DecidableEq, Repr

/-- `saved` are the packets in the open output file, `finished` those of every
file that was reported complete. `waiting` is set between a `msgrcv` that found
no packet of the wanted number and the one that takes any. -/
structure State where
  incoming : List Origin
  held : Option Origin
  queue : List Origin
  waiting : Bool
  saved : List Origin
  packMove : Nat
  finished : List (List Origin)
  deriving DecidableEq, Repr

def start (arrivals : List Origin) : State where
  incoming := arrivals
  held := none
  queue := []
  waiting := false
  saved := []
  packMove := 1
  finished := []

def append (saved : List Origin) (packet : Origin) : List Origin :=
  if saved = [] ∨ packet.number = 1 then [packet] else saved ++ [packet]

def opener (saved : List Origin) : Nat := saved.head?.elim 0 Origin.file

def take (count : Nat → Nat) (state : State) (packet : Origin) (rest : List Origin) : State :=
  let saved := append state.saved packet
  if count (opener saved) = saved.length then
    { state with
      queue := rest, waiting := false, saved := [], packMove := 1
      finished := state.finished ++ [saved] }
  else if count (opener saved) = packet.number then
    { state with queue := rest, waiting := false, saved := [], packMove := 1 }
  else
    { state with queue := rest, waiting := false, saved := saved, packMove := packet.number + 1 }

/-- The packet that a step takes out of the queue, and the queue without it. -/
def taken (state : State) (action : Action) : Option (Origin × List Origin) :=
  match action, state.waiting with
  | .poll, false => takeFirst (fun packet => packet.number = state.packMove) state.queue
  | .wait, true => takeFirst (fun _ => true) state.queue
  | _, _ => none

def step (count : Nat → Nat) (state : State) (action : Action) : Option State :=
  match action with
  | .recvfrom =>
      match state.incoming, state.held with
      | packet :: rest, none => some { state with incoming := rest, held := some packet }
      | _, _ => none
  | .msgsnd =>
      match state.held with
      | some packet => some { state with held := none, queue := state.queue ++ [packet] }
      | none => none
  | .poll =>
      if state.waiting then none
      else
        match taken state .poll with
        | some (packet, rest) => some (take count state packet rest)
        | none => some { state with waiting := true }
  | .wait =>
      match taken state .wait with
      | some (packet, rest) => some (take count state packet rest)
      | none => none

/-- What `File_Process` has yet to take, oldest first. -/
def pending (state : State) : List Origin := state.queue ++ state.held.toList ++ state.incoming

/-- All packets of one file, in order. -/
def whole (count : Nat → Nat) (file : Nat) : List Origin :=
  (List.range' 1 (count file)).map (Origin.mk file)

section
variable {count : Nat → Nat} {state next : State} {action : Action} {packet : Origin}
  {rest : List Origin}

/-- Everything a step can do: move a packet along without changing the order of
what is pending, start to wait, or take a packet. -/
theorem step_cases (h : step count state action = some next) :
    (pending next = pending state ∧ next.saved = state.saved ∧
      next.packMove = state.packMove ∧ next.finished = state.finished ∧
      taken state action = none) ∨
    ∃ packet rest, taken state action = some (packet, rest) ∧
      next = take count state packet rest := by
  cases action with
  | recvfrom =>
    left
    simp only [step] at h
    split at h
    · rename_i packet rest hincoming hheld
      cases h
      simp [pending, hincoming, hheld, taken]
    · contradiction
  | msgsnd =>
    left
    simp only [step] at h
    split at h
    · rename_i packet hheld
      cases h
      simp [pending, hheld, taken]
    · contradiction
  | poll =>
    simp only [step] at h
    split at h
    · contradiction
    · split at h
      · rename_i packet rest htaken
        exact Or.inr ⟨packet, rest, htaken, (Option.some.inj h).symm⟩
      · rename_i htaken
        cases h
        exact Or.inl ⟨rfl, rfl, rfl, rfl, htaken⟩
  | wait =>
    simp only [step] at h
    split at h
    · rename_i packet rest htaken
      exact Or.inr ⟨packet, rest, htaken, (Option.some.inj h).symm⟩
    · contradiction

/-- A packet is taken from between the older and the newer part of the queue.
It carries the wanted number, and no older packet does; or nothing is older. -/
theorem taken_cases (h : taken state action = some (packet, rest)) :
    ∃ older newer, state.queue = older ++ packet :: newer ∧ rest = older ++ newer ∧
      ((packet.number = state.packMove ∧ ∀ other ∈ older, other.number ≠ state.packMove) ∨
        older = []) := by
  unfold taken at h
  split at h
  · obtain ⟨older, newer, hqueue, hrest, hwanted, holder⟩ := takeFirst_eq_some.mp h
    refine ⟨older, newer, hqueue, hrest, Or.inl ⟨by simpa using hwanted, ?_⟩⟩
    intro other hother
    simpa using holder other hother
  · obtain ⟨older, newer, hqueue, hrest, -, holder⟩ := takeFirst_eq_some.mp h
    refine ⟨older, newer, hqueue, hrest, Or.inr ?_⟩
    apply List.eq_nil_iff_forall_not_mem.mpr
    intro other hother
    simpa using holder other hother
  · contradiction

end

section
variable {count : Nat → Nat} {state : State} {packet : Origin}

theorem take_complete (rest : List Origin)
    (h : count (opener (append state.saved packet)) = (append state.saved packet).length) :
    take count state packet rest = { state with
      queue := rest, waiting := false, saved := [], packMove := 1
      finished := state.finished ++ [append state.saved packet] } :=
  if_pos h

theorem take_last (rest : List Origin)
    (h : count (opener (append state.saved packet)) ≠ (append state.saved packet).length)
    (hlast : count (opener (append state.saved packet)) = packet.number) :
    take count state packet rest = { state with
      queue := rest, waiting := false, saved := [], packMove := 1 } :=
  (if_neg h).trans (if_pos hlast)

theorem take_continue (rest : List Origin)
    (h : count (opener (append state.saved packet)) ≠ (append state.saved packet).length)
    (hlast : count (opener (append state.saved packet)) ≠ packet.number) :
    take count state packet rest = { state with
      queue := rest, waiting := false, saved := append state.saved packet
      packMove := packet.number + 1 } :=
  (if_neg h).trans (if_neg hlast)

theorem take_cases (count : Nat → Nat) (state : State) (packet : Origin) (rest : List Origin) :
    (count (opener (append state.saved packet)) = (append state.saved packet).length ∧
      take count state packet rest = { state with
        queue := rest, waiting := false, saved := [], packMove := 1
        finished := state.finished ++ [append state.saved packet] }) ∨
    take count state packet rest = { state with
      queue := rest, waiting := false, saved := [], packMove := 1 } ∨
    take count state packet rest = { state with
      queue := rest, waiting := false, saved := append state.saved packet
      packMove := packet.number + 1 } := by
  by_cases hcomplete : count (opener (append state.saved packet)) = (append state.saved packet).length
  · exact Or.inl ⟨hcomplete, take_complete rest hcomplete⟩
  · by_cases hlast : count (opener (append state.saved packet)) = packet.number
    · exact Or.inr (Or.inl (take_last rest hcomplete hlast))
    · exact Or.inr (Or.inr (take_continue rest hcomplete hlast))

end

/-! ### Increasing packets of one file -/

/-- Packets of one file with increasing numbers, as they lie in an output file. -/
structure Ascending (count : Nat → Nat) (saved : List Origin) : Prop where
  oneFile : ∀ packet ∈ saved, packet.file = opener saved
  increasing : saved.Pairwise fun a b => a.number < b.number
  bounds : ∀ packet ∈ saved, 1 ≤ packet.number ∧ packet.number ≤ count packet.file

section
variable {count : Nat → Nat} {state : State} {saved : List Origin} {packet : Origin}
  {rest : List Origin}

@[simp] theorem opener_append (h : saved ≠ []) (packet : Origin) : opener (saved ++ [packet]) = opener saved := by
  cases saved with
  | nil => contradiction
  | cons first tail => rfl

@[simp] theorem opener_whole {file : Nat} (h : 0 < count file) : opener (whole count file) = file := by
  rw [opener, whole, List.head?_map, List.head?_range', if_neg (by omega)]
  rfl

theorem append_ne_nil (saved : List Origin) (packet : Origin) : append saved packet ≠ [] := by
  unfold append
  split <;> simp

@[simp] theorem length_whole (file : Nat) : (whole count file).length = count file := by
  simp [whole]

@[simp] theorem getElem_whole (file : Nat) (h : number < count file) :
    (whole count file)[number]? = some ⟨file, number + 1⟩ := by
  simp [whole, h, Nat.add_comm]

theorem take_whole_succ (h : number < count file) :
    (whole count file).take (number + 1) = (whole count file).take number ++ [⟨file, number + 1⟩] := by
  rw [List.take_add_one, getElem_whole file h]
  rfl

@[simp] theorem opener_take_whole (hcount : 0 < count file) :
    opener ((whole count file).take (number + 1)) = file := by
  rw [opener, List.head?_take, if_neg (by omega)]
  exact opener_whole hcount

theorem append_take_whole (h : number < count file) :
    append ((whole count file).take number) ⟨file, number + 1⟩ =
      (whole count file).take (number + 1) := by
  rw [take_whole_succ h, append]
  cases number with
  | zero => rfl
  | succ number =>
    rw [if_neg]
    simp only [← List.length_eq_zero_iff, List.length_take, length_whole]
    omega

theorem ascending_nil : Ascending count [] := ⟨by simp, .nil, by simp⟩

theorem ascending_singleton (h : 1 ≤ packet.number ∧ packet.number ≤ count packet.file) :
    Ascending count [packet] :=
  ⟨by simp [opener], List.pairwise_singleton _ _, by simpa using h⟩

theorem Ascending.eq_whole (h : Ascending count saved) (hlength : count (opener saved) = saved.length) :
    saved = whole count (opener saved) := by
  have numbers : saved.map Origin.number = List.range' 1 (count (opener saved)) := by
    apply eq_range'_of_increasing
    · exact List.pairwise_map.mpr h.increasing
    · intro i hi
      obtain ⟨packet, hpacket, rfl⟩ := List.mem_map.mp hi
      have := h.bounds packet hpacket
      rwa [h.oneFile packet hpacket] at this
    · simp [hlength]
  have hfile : saved = (saved.map Origin.number).map (Origin.mk (opener saved)) := by
    rw [List.map_map]
    conv_lhs => rw [← List.map_id saved]
    apply List.map_congr_left
    intro packet hpacket
    exact Origin.ext (h.oneFile packet hpacket) rfl
  rw [whole, ← numbers]
  exact hfile

/-- The open file is ascending up to `packMove`, and every finished one was
complete. -/
structure Sound (count : Nat → Nat) (state : State) : Prop where
  ascending : Ascending count state.saved
  idle : state.saved = [] → state.packMove = 1
  below : ∀ packet ∈ state.saved, packet.number < state.packMove
  finished : ∀ packets ∈ state.finished, ∃ file, 0 < count file ∧ packets = whole count file

theorem sound_start (arrivals : List Origin) : Sound count (start arrivals) where
  ascending := ascending_nil
  idle := fun _ => rfl
  below := by simp [start]
  finished := by simp [start]

theorem Ascending.append {packMove : Nat} (h : Ascending count saved)
    (below : ∀ other ∈ saved, other.number < packMove)
    (bounds : 1 ≤ packet.number ∧ packet.number ≤ count packet.file)
    (continues : saved ≠ [] → packet.number ≠ 1 →
      packet.file = opener saved ∧ packMove ≤ packet.number) :
    Ascending count (append saved packet) := by
  unfold Reassembly.append
  split
  · exact ascending_singleton bounds
  · rename_i hcontinue
    obtain ⟨hne, hnumber⟩ := not_or.mp hcontinue
    obtain ⟨hfile, hmove⟩ := continues hne hnumber
    refine ⟨?_, ?_, ?_⟩
    · rw [opener_append hne]
      intro other hother
      rcases List.mem_append.mp hother with hother | hother
      · exact h.oneFile other hother
      · rw [List.mem_singleton.mp hother, hfile]
    · rw [List.pairwise_append]
      refine ⟨h.increasing, List.pairwise_singleton _ _, ?_⟩
      intro other hother last hlast
      rw [List.mem_singleton.mp hlast]
      exact Nat.lt_of_lt_of_le (below other hother) hmove
    · intro other hother
      rcases List.mem_append.mp hother with hother | hother
      · exact h.bounds other hother
      · rw [List.mem_singleton.mp hother]
        exact bounds

theorem below_append {packMove : Nat} (below : ∀ other ∈ saved, other.number < packMove)
    (continues : saved ≠ [] → packet.number ≠ 1 → packMove ≤ packet.number) :
    ∀ other ∈ append saved packet, other.number < packet.number + 1 := by
  unfold Reassembly.append
  intro other hother
  split at hother
  · rw [List.mem_singleton.mp hother]
    exact Nat.lt_succ_self _
  · rename_i hcontinue
    obtain ⟨hne, hnumber⟩ := not_or.mp hcontinue
    rcases List.mem_append.mp hother with hother | hother
    · exact Nat.lt_succ_of_lt (Nat.lt_of_lt_of_le (below other hother) (continues hne hnumber))
    · rw [List.mem_singleton.mp hother]
      exact Nat.lt_succ_self _

theorem Sound.take (h : Sound count state)
    (bounds : 1 ≤ packet.number ∧ packet.number ≤ count packet.file)
    (continues : state.saved ≠ [] → packet.number ≠ 1 →
      packet.file = opener state.saved ∧ state.packMove ≤ packet.number) :
    Sound count (take count state packet rest) := by
  have ascending := h.ascending.append h.below bounds continues
  rcases take_cases count state packet rest with ⟨hlength, htake⟩ | htake | htake
  · rw [htake]
    refine ⟨ascending_nil, fun _ => rfl, by simp, ?_⟩
    intro packets hpackets
    rcases List.mem_append.mp hpackets with hpackets | hpackets
    · exact h.finished packets hpackets
    · rw [List.mem_singleton.mp hpackets]
      refine ⟨_, ?_, ascending.eq_whole hlength⟩
      rw [hlength]
      exact List.length_pos_iff.mpr (append_ne_nil _ _)
  · rw [htake]
    exact ⟨ascending_nil, fun _ => rfl, by simp, h.finished⟩
  · rw [htake]
    refine ⟨ascending, ?_, ?_, h.finished⟩
    · intro hnil
      exact absurd hnil (append_ne_nil _ _)
    · exact below_append h.below fun hne hnumber => (continues hne hnumber).2

end

/-! ### What is pending -/

section
variable {count : Nat → Nat} {state next : State} {action : Action} {packet : Origin}
  {rest : List Origin}

@[simp] theorem pending_take :
    pending (take count state packet rest) = rest ++ state.held.toList ++ state.incoming := by
  rcases take_cases count state packet rest with ⟨-, htake⟩ | htake | htake <;> rw [htake] <;> rfl

theorem taken_pending (count : Nat → Nat) (h : taken state action = some (packet, rest)) :
    ∃ older newer, pending state = older ++ packet :: newer ∧
      pending (take count state packet rest) = older ++ newer ∧
      ((packet.number = state.packMove ∧ ∀ other ∈ older, other.number ≠ state.packMove) ∨
        older = []) := by
  obtain ⟨older, newer, hqueue, hrest, hwanted⟩ := taken_cases h
  refine ⟨older, newer ++ state.held.toList ++ state.incoming, ?_, ?_, hwanted⟩
  · simp [pending, hqueue]
  · simp [hrest]

theorem saved_take (h : (take count state packet rest).saved ≠ []) :
    (take count state packet rest).saved = append state.saved packet ∧
      (take count state packet rest).packMove = packet.number + 1 := by
  rcases take_cases count state packet rest with ⟨-, htake⟩ | htake | htake
  · rw [htake] at h
    contradiction
  · rw [htake] at h
    contradiction
  · rw [htake]
    exact ⟨rfl, rfl⟩

theorem mem_pending_of_taken (h : taken state action = some (packet, rest)) :
    packet ∈ pending state := by
  obtain ⟨older, newer, hqueue, -, -⟩ := taken_cases h
  simp [pending, hqueue]

theorem pending_sublist (h : step count state action = some next) :
    (pending next).Sublist (pending state) := by
  rcases step_cases h with ⟨hpending, -⟩ | ⟨packet, rest, htaken, rfl⟩
  · rw [hpending]
  · obtain ⟨older, newer, hqueue, rfl, -⟩ := taken_cases htaken
    rw [pending_take, pending, hqueue]
    simp

/-- The packets that are sent for these files have these numbers. -/
def Numbered (count : Nat → Nat) (state : State) : Prop :=
  ∀ packet ∈ pending state, 1 ≤ packet.number ∧ packet.number ≤ count packet.file

theorem Numbered.step (h : Numbered count state) (hstep : step count state action = some next) :
    Numbered count next :=
  fun packet hpacket => h packet ((pending_sublist hstep).subset hpacket)

theorem Sound.congr (h : Sound count state) (hsaved : next.saved = state.saved)
    (hmove : next.packMove = state.packMove) (hfinished : next.finished = state.finished) :
    Sound count next := by
  refine ⟨?_, ?_, ?_, ?_⟩
  · rw [hsaved]
    exact h.ascending
  · rw [hsaved, hmove]
    exact h.idle
  · rw [hsaved, hmove]
    exact h.below
  · rw [hfinished]
    exact h.finished

/-- The packet that the step appends to the open file, number 1 apart, is of
that file and not behind the packets already in it. -/
def Continues (state : State) (action : Action) : Prop :=
  ∀ packet rest, taken state action = some (packet, rest) → state.saved ≠ [] →
    packet.number ≠ 1 → packet.file = opener state.saved ∧ state.packMove ≤ packet.number

theorem Sound.step (h : Sound count state) (numbered : Numbered count state)
    (continues : Continues state action) (hstep : step count state action = some next) :
    Sound count next := by
  rcases step_cases hstep with ⟨-, hsaved, hmove, hfinished, -⟩ | ⟨packet, rest, htaken, rfl⟩
  · exact h.congr hsaved hmove hfinished
  · exact h.take (numbered packet (mem_pending_of_taken htaken)) (continues packet rest htaken)

end

end UdpFileProxy.Reassembly
