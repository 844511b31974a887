import UdpFileProxy.Reassembly

/-! The receiver of packet origins when no datagram is lost, duplicated or
reordered: however far `File_Process` lags behind the receive loop, the packet
that it takes is the oldest one, although later packets of the same number may
be queued. -/
namespace UdpFileProxy.Delivery
open Lib.Run Reassembly

/-- The packets of the files from number `first` on. -/
def wholesFrom (count : Nat → Nat) (files first : Nat) : List Origin :=
  (List.range' first (files - first)).flatMap (whole count)

structure InOrder (count : Nat → Nat) (files : Nat) (state : State) : Prop where
  finished : state.finished = (List.range state.finished.length).map (whole count)
  bound : state.finished.length ≤ files
  rest : state.saved ++ pending state = wholesFrom count files state.finished.length
  packMove : state.packMove = state.saved.length + 1
  short : state.saved ≠ [] → state.saved.length < count state.finished.length

section
variable {count : Nat → Nat} {files file number : Nat} {state next : State} {action : Action}

theorem wholesFrom_of_lt (h : file < files) :
    wholesFrom count files file = whole count file ++ wholesFrom count files (file + 1) := by
  obtain ⟨rest, hrest⟩ : ∃ rest, files - file = rest + 1 := ⟨files - file - 1, by omega⟩
  have htail : files - (file + 1) = rest := by omega
  rw [wholesFrom, wholesFrom, hrest, htail, List.range'_succ, List.flatMap_cons]

@[simp] theorem wholesFrom_of_le (h : files ≤ file) : wholesFrom count files file = [] := by
  rw [wholesFrom, Nat.sub_eq_zero_of_le h]
  rfl

/-- The oldest pending packet is the one that `File_Process` waits for. -/
theorem InOrder.oldest (h : InOrder count files state) (hcount : ∀ file < files, 0 < count file)
    {packet : Origin} {tail : List Origin} (hpending : pending state = packet :: tail) :
    state.finished.length < files ∧ state.saved.length < count state.finished.length ∧
      state.saved = (whole count state.finished.length).take state.saved.length ∧
      packet = ⟨state.finished.length, state.saved.length + 1⟩ := by
  have hrest := h.rest
  rw [hpending] at hrest
  have hfile : state.finished.length < files := by
    by_contra hle
    rw [wholesFrom_of_le (Nat.le_of_not_lt hle)] at hrest
    simp at hrest
  rw [wholesFrom_of_lt hfile] at hrest
  have hshort : state.saved.length < count state.finished.length := by
    by_cases hsaved : state.saved = []
    · rw [hsaved]
      exact hcount _ hfile
    · exact h.short hsaved
  refine ⟨hfile, hshort, ?_, ?_⟩
  · have htake := congrArg (List.take state.saved.length) hrest
    rw [List.take_left, List.take_append_of_le_length (by simpa using hshort.le)] at htake
    exact htake
  · have hindex := congrArg (fun packets => packets[state.saved.length]?) hrest
    have hbound : state.saved.length < (whole count state.finished.length).length := by
      rw [length_whole]
      exact hshort
    simp only [List.getElem?_append_right (Nat.le_refl _), Nat.sub_self, List.getElem?_cons_zero,
      List.getElem?_append_left hbound, getElem_whole _ hshort] at hindex
    exact Option.some.inj hindex

theorem inOrder_start : InOrder count files
    (Reassembly.start ((List.range files).flatMap (whole count))) where
  finished := rfl
  bound := Nat.zero_le _
  rest := by
    rw [List.range_eq_range']
    rfl
  packMove := rfl
  short := by simp [Reassembly.start]

theorem InOrder.taken_oldest (h : InOrder count files state)
    (hcount : ∀ file < files, 0 < count file) {packet : Origin} {rest : List Origin}
    (htaken : taken state action = some (packet, rest)) : state.queue = packet :: rest := by
  obtain ⟨older, newer, hqueue, hrest, hwanted | rfl⟩ := taken_cases htaken
  · cases older with
    | nil =>
      rw [hqueue, hrest]
      rfl
    | cons first older =>
      -- the oldest packet has the wanted number as well
      have hpending : pending state = first :: (older ++ packet :: newer ++ state.held.toList ++
          state.incoming) := by
        simp [pending, hqueue]
      obtain ⟨-, -, -, hfirst⟩ := h.oldest hcount hpending
      have hnumber := hwanted.2 first (by simp)
      rw [hfirst, h.packMove] at hnumber
      contradiction
  · rw [hqueue, hrest]
    rfl

theorem InOrder.same_file (h : InOrder count files state) (hcount : ∀ file < files, 0 < count file)
    {packet : Origin} {rest : List Origin} (htaken : taken state action = some (packet, rest))
    (hne : state.saved ≠ []) : packet.file = opener state.saved := by
  have hqueue := h.taken_oldest hcount htaken
  have hpending : pending state = packet :: (rest ++ state.held.toList ++ state.incoming) := by
    simp [pending, hqueue]
  obtain ⟨hfile, -, hsaved, hpacket⟩ := h.oldest hcount hpending
  obtain ⟨number, hnumber⟩ : ∃ number, state.saved.length = number + 1 :=
    Nat.exists_eq_add_one.mpr (List.length_pos_iff.mpr hne)
  rw [hnumber] at hsaved
  rw [hsaved, opener_take_whole (hcount _ hfile), hpacket]

theorem InOrder.step (h : InOrder count files state) (hcount : ∀ file < files, 0 < count file)
    (hstep : Reassembly.step count state action = some next) : InOrder count files next := by
  rcases step_cases hstep with ⟨hpending, hsaved, hmove, hfinished, -⟩ | ⟨packet, rest, htaken, rfl⟩
  · refine ⟨?_, ?_, ?_, ?_, ?_⟩
    · rw [hfinished]
      exact h.finished
    · rw [hfinished]
      exact h.bound
    · rw [hsaved, hpending, hfinished]
      exact h.rest
    · rw [hmove, hsaved]
      exact h.packMove
    · rw [hsaved, hfinished]
      exact h.short
  have hqueue := h.taken_oldest hcount htaken
  have hpending : pending state = packet :: (rest ++ state.held.toList ++ state.incoming) := by
    simp [pending, hqueue]
  obtain ⟨hfile, hshort, hsaved, hpacket⟩ := h.oldest hcount hpending
  have hrest := h.rest
  rw [wholesFrom_of_lt hfile, hpending] at hrest
  have hadded : append state.saved packet =
      (whole count state.finished.length).take (state.saved.length + 1) := by
    generalize state.saved.length = number at hsaved hpacket hshort
    rw [hsaved, hpacket, append_take_whole hshort]
  have hlength : (append state.saved packet).length = state.saved.length + 1 := by
    rw [hadded, List.length_take, length_whole]
    omega
  have hopener : opener (append state.saved packet) = state.finished.length := by
    rw [hadded, opener_take_whole (hcount _ hfile)]
  have hall : append state.saved packet ++ (rest ++ state.held.toList ++ state.incoming) =
      whole count state.finished.length ++ wholesFrom count files (state.finished.length + 1) := by
    rw [hadded, take_whole_succ hshort, ← hsaved, ← hpacket, ← hrest]
    simp
  by_cases hcomplete : count state.finished.length = state.saved.length + 1
  · rw [take_complete rest (by rw [hopener, hlength, hcomplete])]
    have hwhole : append state.saved packet = whole count state.finished.length := by
      rw [hadded, List.take_of_length_le (by rw [length_whole, hcomplete])]
    have hcounted : (state.finished ++ [append state.saved packet]).length =
        state.finished.length + 1 := by simp
    refine ⟨?_, ?_, ?_, rfl, by simp⟩
    · rw [hcounted, List.range_succ, List.map_append, ← h.finished, hwhole]
      rfl
    · rw [hcounted]
      exact hfile
    · rw [hcounted]
      rw [hwhole] at hall
      exact List.append_cancel_left hall
  · have hlast : count (opener (append state.saved packet)) ≠ packet.number := by
      rw [hopener, hpacket]
      exact hcomplete
    rw [take_continue rest (by rw [hopener, hlength]; exact hcomplete) hlast]
    refine ⟨h.finished, h.bound, ?_, ?_, ?_⟩
    · rw [← wholesFrom_of_lt hfile] at hall
      exact hall
    · rw [hlength, hpacket]
    · intro _
      rw [hlength]
      dsimp only
      omega

theorem InOrder.all_finished (h : InOrder count files state)
    (hcount : ∀ file < files, 0 < count file) (hpending : pending state = []) :
    state.finished.length = files := by
  by_contra hne
  have hfile : state.finished.length < files := Nat.lt_of_le_of_ne h.bound hne
  have hrest := congrArg List.length h.rest
  rw [hpending, wholesFrom_of_lt hfile, List.append_nil, List.length_append, length_whole] at hrest
  have := hcount _ hfile
  have := h.short (by rintro hsaved; rw [hsaved] at hrest; simp at hrest; omega)
  omega

end

end UdpFileProxy.Delivery
