import UdpFileProxy.Bandwidth
import UdpFileProxy.Limits
import Mathlib.Tactic.Linarith
import Mathlib.Tactic.Ring

/-! How fast a sender thread sends. The packets of `SendPack_ex` wait for one another in
batches, and the wait is what the batch takes at the speed that was granted for it; as no
grant is above the peak of the limit, a thread never sends faster than that, whatever else the
client does. -/
namespace UdpFileProxy.Pacing
open Lib.Allotment Lib.LinkedList Lib.Memory Lib.Run Protocol ProxyClient FileThread Bandwidth
open SendPack (Reply resume)
open Speed (SpeedManger)
open Limits (Limit Within peak peak_nonneg within_start)
open Config (Section)

/-- The packets that a thread handed to the network, and its calls of `usleep(wait_t)`. -/
structure Pace where
  sent : Int
  sleeps : Int
  slept : Int
  deriving DecidableEq, Repr

def Pace.answer (pace : Pace) (sender : SendPack.State) (reply : Reply) : Pace :=
  match sender.pc, reply with
  | .sendto, .sent true => { pace with sent := pace.sent + 1 }
  | .sleepFirst, .done | .sleepBatch, .done =>
      { pace with sleeps := pace.sleeps + 1, slept := pace.slept + sender.waitT }
  | _, _ => pace

def Pace.observe (pace : Pace) (pc : Pc) (reply : Reply) : Pace :=
  match pc with
  | .sendPack _ _ sender => pace.answer sender reply
  | _ => pace

/-- `paces` is history, one for each thread. -/
structure State where
  client : Client
  paces : List Pace

/-- The client with the limit that `main` passed to `set_speed`. -/
def start (limit : Limit) : State where
  client := { ProxyClient.new with speed := SpeedManger.new.setSpeed limit }
  paces := []

/-- The limit of a client for which `main` called no `set_speed`. -/
def defaultLimit : Limit := ⟨Protocol.maxSpeed, by decide⟩

theorem start_defaultLimit : start defaultLimit = ⟨ProxyClient.new, []⟩ := rfl

def step (order : Endian) (conf : Section) (state : State) (action : Action) : Option State :=
  (Bandwidth.step order conf state.client action).map fun next =>
    let paces :=
      match action with
      | .call tid reply =>
          match state.client.threads[tid]? with
          | some thread => state.paces.modify tid fun pace => pace.observe thread.pc reply
          | none => state.paces
      | _ => state.paces
    ⟨next, paces ++ List.replicate (next.threads.length - paces.length) ⟨0, 0, 0⟩⟩

/-- The microseconds that `packT` packets of 8016 bits take at the greatest grant in Mbit/s. -/
def wait (limit : Limit) (packT : Int) : Int := 8016 * packT / peak limit

/-- What the sleep after the first packet leaves over for those of the batch that were not sent
by the packet `packNu`. -/
def slack (packT packNu : Int) : Int :=
  if packNu = 0 ∨ packT = 0 then 0 else packT - packNu % packT

/-- The slack of a file that is being sent. -/
def ahead (sender : SendPack.State) : Int :=
  match sender.pc with
  | .read => slack sender.packT sender.packNu
  | .giveBack | .query | .sendto => slack sender.packT (sender.packNu - 1)
  | _ => 0

/-- The first packet of a file is sent before the sleep that pays for it. -/
def owed : SendPack.Pc → Int
  | .sleepFirst | .dividedByZero => 1
  | _ => 0

/-- The wait of the last grant is in `wait_t`. -/
def Waits (limit : Limit) (sender : SendPack.State) : Prop :=
  match sender.pc with
  | .sendto | .sleepFirst | .sleepBatch => wait limit sender.packT ≤ sender.waitT
  | .read => sender.packNu ≠ 0 → wait limit sender.packT ≤ sender.waitT
  | _ => True

/-- A call of `SendPack_ex` with the pace of its thread. -/
structure Sends (limit : Limit) (sender : SendPack.State) (pace : Pace) : Prop where
  packT : 0 ≤ sender.packT
  packNu : 0 ≤ sender.packNu
  queryed : 0 ≤ sender.queryed
  fresh : sender.pc ∈ [.stat, .openFile] → sender.packNu = 0
  first : sender.pc = .sleepFirst → sender.packNu = 1
  begun : sender.pc ∈ [.giveBack, .query, .sendto] → sender.packNu ≠ 0
  batch : sender.pc = .sleepBatch → sender.packT ≠ 0 ∧ sender.packNu % sender.packT = 0
  waits : Waits limit sender
  sent : pace.sent + ahead sender ≤ sender.packT * pace.sleeps + owed sender.pc
  slept : wait limit sender.packT * pace.sleeps ≤ pace.slept

section
variable {limit : Limit} {order : Endian} {sender next : SendPack.State} {pace : Pace} {reply : Reply}
  {packT packNu : Int}

theorem slack_nonneg (h : 0 ≤ packT) (packNu : Int) : 0 ≤ slack packT packNu := by
  unfold slack
  split
  · exact le_refl 0
  · rename_i hne
    have hlt := Int.emod_lt_of_pos packNu (show 0 < packT by omega)
    omega

theorem slack_pred (h : 0 < packT) (hnu : 2 ≤ packNu) :
    (packNu % packT = 0 → slack packT (packNu - 1) = 1) ∧
      (packNu % packT ≠ 0 → slack packT (packNu - 1) = slack packT packNu + 1) := by
  have hnonneg := Int.emod_nonneg (packNu - 1) (show packT ≠ 0 by omega)
  have hlt := Int.emod_lt_of_pos (packNu - 1) h
  have hsplit : packNu = (packNu - 1) % packT + 1 + packT * ((packNu - 1) / packT) := by
    have hdiv := Int.emod_add_mul_ediv (packNu - 1) packT
    omega
  have hmod : packNu % packT = ((packNu - 1) % packT + 1) % packT := by
    conv_lhs => rw [hsplit, Int.add_mul_emod_self_left]
  have hfirst : ¬(packNu - 1 = 0 ∨ packT = 0) := by omega
  have hsecond : ¬(packNu = 0 ∨ packT = 0) := by omega
  rw [slack, slack, if_neg hfirst, if_neg hsecond, hmod]
  rcases (show (packNu - 1) % packT + 1 < packT ∨ (packNu - 1) % packT + 1 = packT by omega) with
    hless | hfull
  · rw [Int.emod_eq_of_lt (by omega) hless]
    omega
  · rw [hfull, Int.emod_self]
    omega

theorem wait_le {speed : Int} (h : 0 ≤ packT) (hpos : 0 < speed) (hle : speed ≤ peak limit) :
    wait limit packT ≤ (8016 * packT).tdiv speed := by
  have hnonneg : 0 ≤ 8016 * packT := by omega
  rw [Int.tdiv_eq_ediv_of_nonneg hnonneg, Int.le_ediv_iff_mul_le hpos]
  have hwait : 0 ≤ wait limit packT := Int.ediv_nonneg hnonneg (peak_nonneg limit)
  calc
    wait limit packT * speed ≤ wait limit packT * peak limit := Int.mul_le_mul_of_nonneg_left hle hwait
    _ ≤ 8016 * packT := Int.ediv_mul_le _ (by omega)

theorem Sends.start (h : 0 ≤ packT) (filePath : Bytes) (hsent : pace.sent ≤ packT * pace.sleeps)
    (hslept : wait limit packT * pace.sleeps ≤ pace.slept) : Sends limit (SendPack.start filePath packT) pace where
  packT := h
  packNu := le_refl 0
  queryed := le_refl 0
  fresh := fun _ => rfl
  first := by simp [SendPack.start]
  begun := by simp [SendPack.start]
  batch := by simp [SendPack.start]
  waits := trivial
  sent := by simpa [SendPack.start, ahead, owed] using hsent
  slept := hslept

theorem Sends.sent_le (h : Sends limit sender pace) :
    pace.sent ≤ sender.packT * pace.sleeps + owed sender.pc := by
  have hsent := h.sent
  have hahead : 0 ≤ ahead sender := by
    unfold ahead
    split
    · exact slack_nonneg h.packT _
    · exact slack_nonneg h.packT _
    · exact slack_nonneg h.packT _
    · exact slack_nonneg h.packT _
    · exact le_refl 0
  omega

theorem Sends.quiet (h : Sends limit sender pace) {pc : SendPack.Pc} {fileSize queryed : Int}
    (hqueryed : 0 ≤ queryed) (hnext : next = { sender with
      pc := pc, fileSize := fileSize, queryed := queryed })
    (hahead : pc ∉ [.read, .giveBack, .query, .sendto, .sleepFirst, .sleepBatch])
    (hfresh : pc ∈ [.stat, .openFile] → sender.packNu = 0) (howed : owed sender.pc = 0) :
    Sends limit next pace := by
  have hle := h.sent_le
  simp only [List.mem_cons, List.not_mem_nil, or_false, not_or] at hahead
  subst hnext
  refine ⟨h.packT, h.packNu, hqueryed, hfresh, by simp [hahead], by simp [hahead], by simp [hahead],
    ?_, ?_, h.slept⟩
  · unfold Waits
    split <;> simp_all
  · have hnone : ahead { sender with pc := pc, fileSize := fileSize, queryed := queryed } = 0 := by
      unfold ahead
      split <;> simp_all
    have howed' : 0 ≤ owed pc := by
      unfold owed
      split <;> omega
    rw [hnone]
    dsimp only
    omega

theorem Sends.read (h : Sends limit sender pace) (hpc : sender.pc = .read) (bytes : Lib.Memory.Bytes) :
    Sends limit { SendPack.packed sender bytes with pc := SendPack.afterRead (SendPack.packed sender bytes) }
      pace := by
  have hnu := h.packNu
  have hsent := h.sent
  have hwaits := h.waits
  simp only [ahead, owed, Waits, hpc] at hsent hwaits
  have hnonneg := slack_nonneg h.packT sender.packNu
  have hpacked : (SendPack.packed sender bytes).packNu = sender.packNu + 1 := rfl
  have hne : sender.packNu + 1 ≠ 0 := by omega
  have hback : sender.packNu + 1 - 1 = sender.packNu := by omega
  have hwaits' : SendPack.afterRead (SendPack.packed sender bytes) = .sendto →
      wait limit sender.packT ≤ sender.waitT := by
    intro hto
    apply hwaits
    rintro hzero
    simp only [SendPack.afterRead, hpacked, hzero] at hto
    simp at hto
    split at hto <;> contradiction
  rcases SendPack.afterRead_cases (SendPack.packed sender bytes) with hto | ⟨hto, -⟩ | ⟨hto, -⟩ | hto
  · refine ⟨h.packT, Int.le_add_one hnu, h.queryed, by simp [hto], by simp [hto], by simp [hto],
      by simp [hto], ?_, ?_, h.slept⟩
    · simp [Waits, hto]
    · simp only [ahead, hto, owed]
      simp only [SendPack.packed]
      omega
  · refine ⟨h.packT, Int.le_add_one hnu, h.queryed, by simp [hto], by simp [hto], fun _ => hne,
      by simp [hto], ?_, ?_, h.slept⟩
    · simp [Waits, hto]
    · simp only [ahead, hto, owed]
      simp only [SendPack.packed, hback]
      omega
  · refine ⟨h.packT, Int.le_add_one hnu, h.queryed, by simp [hto], by simp [hto], fun _ => hne,
      by simp [hto], ?_, ?_, h.slept⟩
    · simp [Waits, hto]
    · simp only [ahead, hto, owed]
      simp only [SendPack.packed, hback]
      omega
  · refine ⟨h.packT, Int.le_add_one hnu, h.queryed, by simp [hto], by simp [hto], fun _ => hne,
      by simp [hto], ?_, ?_, h.slept⟩
    · simp only [Waits, hto]
      exact hwaits' hto
    · simp only [ahead, hto, owed]
      simp only [SendPack.packed, hback]
      omega

theorem Sends.afterSend (h : Sends limit sender pace) {sent sleeps slept : Int}
    (hwait : wait limit sender.packT ≤ sender.waitT)
    (hslept : wait limit sender.packT * sleeps ≤ slept)
    (hzero : sender.packT = 0 → sent ≤ 1)
    (hbatch : sender.packT ≠ 0 → sender.packNu % sender.packT = 0 → sent ≤ sender.packT * sleeps)
    (hread : sender.packT ≠ 0 → sender.packNu % sender.packT ≠ 0 →
      sent + slack sender.packT sender.packNu ≤ sender.packT * sleeps) :
    Sends limit { sender with pc := SendPack.afterSend sender } ⟨sent, sleeps, slept⟩ := by
  have hmod : sender.packNu.tmod sender.packT = sender.packNu % sender.packT :=
    Int.tmod_eq_emod_of_nonneg h.packNu
  by_cases hnone : sender.packT = 0
  · have hto : SendPack.afterSend sender = .dividedByZero := by rw [SendPack.afterSend, if_pos hnone]
    refine ⟨h.packT, h.packNu, h.queryed, by simp [hto], by simp [hto], by simp [hto], by simp [hto],
      ?_, ?_, hslept⟩
    · simp [Waits, hto]
    · simp only [ahead, hto, owed, hnone, zero_mul]
      have hone := hzero hnone
      omega
  by_cases hfull : sender.packNu % sender.packT = 0
  · have hto : SendPack.afterSend sender = .sleepBatch := by
      rw [SendPack.afterSend, if_neg hnone, hmod, if_pos hfull]
    refine ⟨h.packT, h.packNu, h.queryed, by simp [hto], by simp [hto], by simp [hto],
      fun _ => ⟨hnone, hfull⟩, ?_, ?_, hslept⟩
    · simpa only [Waits, hto] using hwait
    · simp only [ahead, hto, owed]
      have hless := hbatch hnone hfull
      omega
  · have hto : SendPack.afterSend sender = .read := by
      rw [SendPack.afterSend, if_neg hnone, hmod, if_neg hfull]
    refine ⟨h.packT, h.packNu, h.queryed, by simp [hto], by simp [hto], by simp [hto], by simp [hto],
      ?_, ?_, hslept⟩
    · simp only [Waits, hto]
      exact fun _ => hwait
    · simp only [ahead, hto, owed]
      have hless := hread hnone hfull
      omega

theorem Sends.sendto (h : Sends limit sender pace) (hpc : sender.pc = .sendto) :
    Sends limit { sender with pc := if sender.packNu = 1 then .sleepFirst else SendPack.afterSend sender }
      { pace with sent := pace.sent + 1 } := by
  have hnu := h.packNu
  have hbegun : sender.packNu ≠ 0 := h.begun (by simp [hpc])
  have hsent := h.sent
  have hwait : wait limit sender.packT ≤ sender.waitT := by simpa only [Waits, hpc] using h.waits
  simp only [ahead, owed, hpc] at hsent
  by_cases hone : sender.packNu = 1
  · rw [if_pos hone]
    have hnone : slack sender.packT (sender.packNu - 1) = 0 := by simp [slack, hone]
    refine ⟨h.packT, hnu, h.queryed, by simp, fun _ => hone, by simp, by simp, hwait, ?_, h.slept⟩
    simp only [ahead, owed]
    omega
  · rw [if_neg hone]
    have htwo : 2 ≤ sender.packNu := by omega
    refine h.afterSend hwait h.slept ?_ ?_ ?_
    · intro hzero
      have hnonneg := slack_nonneg h.packT (sender.packNu - 1)
      have hnothing : sender.packT * pace.sleeps = 0 := by rw [hzero, zero_mul]
      omega
    · intro hne hfull
      have hlast := (slack_pred (show 0 < sender.packT by have := h.packT; omega) htwo).1 hfull
      omega
    · intro hne hpart
      have hlast := (slack_pred (show 0 < sender.packT by have := h.packT; omega) htwo).2 hpart
      omega

theorem Sends.sleepFirst (h : Sends limit sender pace) (hpc : sender.pc = .sleepFirst) :
    Sends limit { sender with pc := SendPack.afterSend sender }
      { pace with sleeps := pace.sleeps + 1, slept := pace.slept + sender.waitT } := by
  have hone : sender.packNu = 1 := h.first hpc
  have hsent := h.sent
  have hslept := h.slept
  have hwait : wait limit sender.packT ≤ sender.waitT := by simpa only [Waits, hpc] using h.waits
  simp only [ahead, owed, hpc] at hsent
  have hmore : sender.packT * (pace.sleeps + 1) = sender.packT * pace.sleeps + sender.packT := by ring
  refine h.afterSend hwait ?_ ?_ ?_ ?_
  · have hmore' : wait limit sender.packT * (pace.sleeps + 1) =
        wait limit sender.packT * pace.sleeps + wait limit sender.packT := by ring
    omega
  · intro hzero
    rw [hzero, zero_mul] at hsent
    omega
  · intro hne hfull
    have hpos := h.packT
    omega
  · intro hne hpart
    have hpos := h.packT
    have hmod : 1 % sender.packT = 1 := by
      rw [hone] at hpart
      by_cases hless : 1 < sender.packT
      · exact Int.emod_eq_of_lt (by omega) hless
      · rw [show sender.packT = 1 by omega] at hpart
        exact absurd (Int.emod_self) hpart
    have hslack : slack sender.packT sender.packNu = sender.packT - 1 := by
      rw [slack, if_neg (by omega), hone, hmod]
    omega

theorem Sends.sleepBatch (h : Sends limit sender pace) (hpc : sender.pc = .sleepBatch) :
    Sends limit { sender with pc := .read }
      { pace with sleeps := pace.sleeps + 1, slept := pace.slept + sender.waitT } := by
  obtain ⟨hne, hfull⟩ := h.batch hpc
  have hsent := h.sent
  have hslept := h.slept
  have hwait : wait limit sender.packT ≤ sender.waitT := by simpa only [Waits, hpc] using h.waits
  simp only [ahead, owed, hpc] at hsent
  refine ⟨h.packT, h.packNu, h.queryed, by simp, by simp, by simp, by simp, fun _ => hwait, ?_, ?_⟩
  · have hslack : slack sender.packT sender.packNu ≤ sender.packT := by
      have hpos := h.packT
      unfold slack
      split
      · exact hpos
      · omega
    have hmore : sender.packT * (pace.sleeps + 1) = sender.packT * pace.sleeps + sender.packT := by
      ring
    simp only [ahead, owed]
    omega
  · have hmore : wait limit sender.packT * (pace.sleeps + 1) =
        wait limit sender.packT * pace.sleeps + wait limit sender.packT := by ring
    dsimp only
    omega

theorem Sends.query (h : Sends limit sender pace) (hpc : sender.pc = .query) {speed : Int}
    (hpos : 0 < speed) (hle : speed ≤ peak limit) :
    Sends limit { sender with
      queryed := speed
      waitT := (8016 * sender.packT).tdiv speed
      pc := .sendto } pace := by
  have hsent := h.sent
  simp only [ahead, owed, hpc] at hsent
  exact ⟨h.packT, h.packNu, Int.le_of_lt hpos, by simp, by simp, fun _ => h.begun (by simp [hpc]),
    by simp, wait_le h.packT hpos hle, hsent, h.slept⟩

theorem Sends.giveBack (h : Sends limit sender pace) (hpc : sender.pc = .giveBack) :
    Sends limit { sender with queryed := 0, pc := .query } pace := by
  have hsent := h.sent
  simp only [ahead, owed, hpc] at hsent
  exact ⟨h.packT, h.packNu, le_refl 0, by simp, by simp, fun _ => h.begun (by simp [hpc]), by simp,
    trivial, hsent, h.slept⟩

theorem Sends.opened (h : Sends limit sender pace) (hpc : sender.pc = .openFile) :
    Sends limit { sender with pc := .read } pace := by
  have hnone : sender.packNu = 0 := h.fresh (by simp [hpc])
  have hsent := h.sent
  simp only [ahead, owed, hpc] at hsent
  refine ⟨h.packT, h.packNu, h.queryed, by simp, by simp, by simp, by simp, ?_, ?_, h.slept⟩
  · exact fun hne => absurd hnone hne
  · simpa [ahead, owed, slack, hnone] using hsent

theorem Pace.answer_other (h : sender.pc ∉ [.sendto, .sleepFirst, .sleepBatch]) :
    pace.answer sender reply = pace := by
  simp only [List.mem_cons, List.not_mem_nil, or_false, not_or] at h
  unfold Pace.answer
  split <;> simp_all

/-- Every call of `SendPack_ex` keeps the pace, whatever it returns. -/
theorem Sends.resume (h : Sends limit sender pace)
    (hgrant : ∀ speed, sender.pc = .query → reply = .grant speed → 0 ≤ speed ∧ speed ≤ peak limit)
    (hresume : resume sender reply = some next) : Sends limit next (pace.answer sender reply) := by
  unfold SendPack.resume at hresume
  split at hresume
  · -- stat
    rename_i size hpc
    cases hresume
    rw [Pace.answer_other (by simp [hpc])]
    have hnone : sender.packNu = 0 := h.fresh (by simp [hpc])
    refine h.quiet h.queryed rfl ?_ (fun _ => hnone) (by simp [hpc, owed])
    split <;> simp
  · -- openFile
    rename_i fd hpc
    cases hresume
    rw [Pace.answer_other (by simp [hpc])]
    by_cases hfd : fd = 0
    · rw [if_pos hfd]
      exact h.quiet h.queryed rfl (by simp) (by simp) (by simp [hpc, owed])
    · rw [if_neg hfd]
      exact h.opened hpc
  · -- a failed read
    rename_i hpc
    cases hresume
    rw [Pace.answer_other (by simp [hpc])]
    exact h.quiet h.queryed rfl (by simp) (by simp) (by simp [hpc, owed])
  · -- the end of the file
    rename_i hpc
    cases hresume
    rw [Pace.answer_other (by simp [hpc])]
    refine h.quiet h.queryed rfl ?_ ?_ (by simp [hpc, owed]) <;> split <;> simp
  · -- read
    rename_i bytes _ hpc
    split at hresume
    case isFalse => contradiction
    cases hresume
    rw [Pace.answer_other (by simp [hpc])]
    exact h.read hpc bytes
  · -- giveBack
    rename_i hpc
    cases hresume
    rw [Pace.answer_other (by simp [hpc])]
    exact h.giveBack hpc
  · -- query
    rename_i speed hpc
    rw [Pace.answer_other (by simp [hpc])]
    obtain ⟨hnonneg, hle⟩ := hgrant speed hpc rfl
    split at hresume
    · rename_i hzero
      cases hresume
      exact h.quiet hnonneg rfl (by simp) (by simp) (by simp [hpc, owed])
    · rename_i hne
      cases hresume
      exact h.query hpc (by omega) hle
  · -- a failed sendto
    rename_i hpc
    cases hresume
    rw [show pace.answer sender (.sent false) = pace by simp [Pace.answer, hpc]]
    exact h.quiet h.queryed rfl (by simp) (by simp) (by simp [hpc, owed])
  · -- sendto
    rename_i hpc
    cases hresume
    have hmore : pace.answer sender (.sent true) = { pace with sent := pace.sent + 1 } := by
      simp [Pace.answer, hpc]
    rw [hmore]
    exact h.sendto hpc
  · -- sleepFirst
    rename_i hpc
    cases hresume
    have hmore : pace.answer sender .done =
        { pace with sleeps := pace.sleeps + 1, slept := pace.slept + sender.waitT } := by
      simp [Pace.answer, hpc]
    rw [hmore]
    exact h.sleepFirst hpc
  · -- sleepBatch
    rename_i hpc
    cases hresume
    have hmore : pace.answer sender .done =
        { pace with sleeps := pace.sleeps + 1, slept := pace.slept + sender.waitT } := by
      simp [Pace.answer, hpc]
    rw [hmore]
    exact h.sleepBatch hpc
  · -- okGiveBack
    rename_i hpc
    cases hresume
    rw [Pace.answer_other (by simp [hpc])]
    exact h.quiet h.queryed rfl (by simp) (by simp) (by simp [hpc, owed])
  · -- okClose
    rename_i hpc
    cases hresume
    rw [Pace.answer_other (by simp [hpc])]
    exact h.quiet h.queryed rfl (by simp) (by simp) (by simp [hpc, owed])
  · -- errClose
    rename_i hpc
    cases hresume
    rw [Pace.answer_other (by simp [hpc])]
    refine h.quiet h.queryed rfl ?_ ?_ (by simp [hpc, owed]) <;> split <;> simp
  · -- errGiveBack
    rename_i hpc
    cases hresume
    rw [Pace.answer_other (by simp [hpc])]
    exact h.quiet h.queryed rfl (by simp) (by simp) (by simp [hpc, owed])
  · -- no such reply
    contradiction

theorem call_giveBack {speed : Int} (h : SendPack.call order sender = some (.returnSpeed speed)) :
    (sender.pc = .giveBack ∨ sender.pc = .okGiveBack ∨ sender.pc = .errGiveBack) ∧
      sender.queryed = speed := by
  unfold SendPack.call at h
  split at h <;> simp_all

theorem packT_resume (h : resume sender reply = some next) : next.packT = sender.packT := by
  unfold SendPack.resume at h
  split at h
  case h_5 =>
    -- read
    split at h
    · cases h
      rfl
    · contradiction
  case h_7 =>
    -- query
    split at h <;> cases h <;> rfl
  case h_16 => contradiction
  all_goals
    cases h
    rfl

theorem Sends.answer {manager manager' : SpeedManger} (h : Sends limit sender pace)
    (hlimit : 160 ≤ limit.val) (hmanager : Within limit manager)
    (hanswer : Speed.answer order manager sender reply = some (manager', next)) :
    next.packT = sender.packT ∧ Sends limit next (pace.answer sender reply) ∧ Within limit manager' := by
  unfold Speed.answer at hanswer
  split at hanswer
  · contradiction
  · -- query_speed
    rename_i hcall
    obtain ⟨resumed, hresume, hpair⟩ := Option.map_eq_some_iff.mp hanswer
    cases hpair
    have hpc := Speed.call_query hcall
    obtain ⟨hlow, hhigh, -⟩ := hmanager.granted hlimit
    have hnext := h.resume (fun speed _ hspeed => by cases hspeed; exact ⟨hlow, hhigh⟩) hresume
    rw [Pace.answer_other (by simp [hpc])] at hnext ⊢
    exact ⟨packT_resume hresume, hnext, hmanager.querySpeed hlimit⟩
  · -- return_speed
    rename_i speed hcall
    obtain ⟨resumed, hresume, hpair⟩ := Option.map_eq_some_iff.mp hanswer
    cases hpair
    obtain ⟨hpc, rfl⟩ := call_giveBack hcall
    have hnext := h.resume (fun speed _ hspeed => by cases hspeed) hresume
    have hother : sender.pc ∉ [.sendto, .sleepFirst, .sleepBatch] := by
      rcases hpc with hpc | hpc | hpc <;> simp [hpc]
    rw [Pace.answer_other hother] at hnext ⊢
    exact ⟨packT_resume hresume, hnext, hmanager.returnSpeed hlimit h.queryed⟩
  · rename_i made hquery hreturn hcall
    obtain ⟨resumed, hresume, hpair⟩ := Option.map_eq_some_iff.mp hanswer
    cases hpair
    refine ⟨packT_resume hresume, h.resume (fun speed hpc _ => ?_) hresume, hmanager⟩
    rw [SendPack.call, hpc] at hcall
    exact absurd (Option.some.inj hcall).symm hquery

end

/-- The first packet of a transfer that was cancelled may be left unpaid. -/
structure Paced (limit : Limit) (thread : Thread) (pace : Pace) : Prop where
  packT : 0 ≤ thread.packT
  fresh : thread.pc = .socket → pace = ⟨0, 0, 0⟩
  sends : ∀ data item sender, thread.pc = .sendPack data item sender →
    sender.packT = thread.packT ∧ Sends limit sender pace
  sent : transferring thread = false →
    pace.sent ≤ thread.packT * pace.sleeps + if thread.pc = .cancelled then 1 else 0
  slept : wait limit thread.packT * pace.sleeps ≤ pace.slept

section
variable {limit : Limit} {order : Endian} {manager manager' : SpeedManger} {packT : Int} {list list' : SendList}
  {thread thread' : Thread} {reply : Reply} {pace : Pace}

theorem Paced.unpaid (h : Paced limit thread pace) : pace.sent ≤ thread.packT * pace.sleeps + 1 := by
  by_cases htransfer : transferring thread
  · unfold transferring at htransfer
    split at htransfer
    · rename_i data item sender hpc
      obtain ⟨hpackT, hsends⟩ := h.sends data item sender hpc
      have hle := hsends.sent_le
      have howed : owed sender.pc ≤ 1 := by
        unfold owed
        split <;> omega
      rw [hpackT] at hle
      omega
    · contradiction
  · have hle := h.sent (by simpa using htransfer)
    split at hle <;> omega

/-- Never faster than at the greatest grant, but for one packet. -/
theorem Paced.limited (h : Paced limit thread pace) :
    (pace.sent - 1) * wait limit thread.packT ≤ thread.packT * pace.slept := by
  have hwait : 0 ≤ wait limit thread.packT :=
    Int.ediv_nonneg (Int.mul_nonneg (by decide) h.packT) (peak_nonneg limit)
  have hunpaid := h.unpaid
  calc
    (pace.sent - 1) * wait limit thread.packT
        ≤ thread.packT * pace.sleeps * wait limit thread.packT :=
      Int.mul_le_mul_of_nonneg_right (by omega) hwait
    _ = thread.packT * (wait limit thread.packT * pace.sleeps) := by ring
    _ ≤ thread.packT * pace.slept := Int.mul_le_mul_of_nonneg_left h.slept h.packT

theorem checkPackT_nonneg (packT : Int) : 0 ≤ checkPackT packT := by
  unfold checkPackT
  split
  · decide
  · omega

theorem Pace.observe_idle (h : transferring thread = false) (pace : Pace) (reply : Reply) :
    pace.observe thread.pc reply = pace := by
  unfold Pace.observe
  split
  · rename_i hpc
    simp [transferring, hpc] at h
  · rfl

theorem Paced.quiet (h : Paced limit thread pace) {pc : Pc} (reply : Reply)
    (hidle : transferring thread = false)
    (hpc : pc ≠ .socket ∧ pc ≠ .cancelled ∧ transferring { thread with pc := pc } = false)
    (hnot : thread.pc ≠ .cancelled) :
    Paced limit { thread with pc := pc } (pace.observe thread.pc reply) := by
  rw [Pace.observe_idle hidle]
  exact {
    packT := h.packT
    fresh := fun hsocket => absurd hsocket hpc.1
    sends := by
      rintro data item sender hsender
      have hidle' := hpc.2.2
      simp [transferring, show pc = .sendPack data item sender from hsender] at hidle'
    sent := by
      have hle := h.sent hidle
      rw [if_neg hnot] at hle
      rw [if_neg hpc.2.1]
      exact fun _ => hle
    slept := h.slept }

theorem Paced.returned (h : Paced limit thread pace) {data : Addr} {item : SendData}
    {sender : SendPack.State} {ret : Int} (hpc : thread.pc = .sendPack data item sender)
    (hfinished : sender.pc = .finished ret) {pc : Pc}
    (hnext : pc ≠ .socket ∧ pc ≠ .cancelled ∧ transferring { thread with pc := pc } = false) :
    Paced limit { thread with pc := pc } pace where
  packT := h.packT
  fresh := fun hsocket => absurd hsocket hnext.1
  sends := by
    rintro data item sender hsender
    have hidle := hnext.2.2
    simp [transferring, show pc = .sendPack data item sender from hsender] at hidle
  sent := by
    obtain ⟨hpackT, hsends⟩ := h.sends data item sender hpc
    have hle := hsends.sent_le
    rw [hpackT, hfinished] at hle
    rw [if_neg hnext.2.1]
    exact fun _ => hle
  slept := h.slept

theorem Paced.step (h : Paced limit thread pace) (hlimit : 160 ≤ limit.val)
    (hmanager : Within limit manager)
    (called : FileThread.step order manager packT list thread reply = some (manager', list', thread')) :
    Paced limit thread' (pace.observe thread.pc reply) ∧ Within limit manager' := by
  unfold FileThread.step at called
  split at called
  · -- socket
    rename_i fd hpc
    cases called
    obtain rfl := h.fresh hpc
    refine ⟨?_, hmanager⟩
    split
    · exact h.quiet _ (by simp [transferring, hpc]) (by simp [transferring]) (by simp [hpc])
    · rw [Pace.observe_idle (by simp [transferring, hpc])]
      exact ⟨checkPackT_nonneg packT, by simp, by simp, by simp, by simp⟩
  · -- isIdle
    rename_i hpc
    cases called
    refine ⟨h.quiet _ (by simp [transferring, hpc]) ?_ (by simp [hpc]), hmanager⟩
    split <;> simp [transferring]
  · -- isBusy
    rename_i hpc
    cases called
    refine ⟨h.quiet _ (by simp [transferring, hpc]) ?_ (by simp [hpc]), hmanager⟩
    split <;> simp [transferring]
  · -- isCancel
    rename_i hpc
    cases called
    refine ⟨h.quiet _ (by simp [transferring, hpc]) ?_ (by simp [hpc]), hmanager⟩
    split <;> simp [transferring]
  · -- sleep
    rename_i hpc
    cases called
    exact ⟨h.quiet _ (by simp [transferring, hpc]) (by simp [transferring]) (by simp [hpc]), hmanager⟩
  · -- getNext
    rename_i hpc
    obtain ⟨taken, -, hpair⟩ := Option.map_eq_some_iff.mp called
    cases hpair
    exact ⟨h.quiet _ (by simp [transferring, hpc]) (by simp [transferring]) (by simp [hpc]), hmanager⟩
  · -- a null pointer
    contradiction
  · -- filename
    rename_i hpc
    obtain ⟨cell, -, hpair⟩ := Option.map_eq_some_iff.mp called
    cases hpair
    exact ⟨h.quiet _ (by simp [transferring, hpc]) (by simp [transferring]) (by simp [hpc]), hmanager⟩
  · -- getFileSize
    rename_i data item size hpc
    cases called
    refine ⟨?_, hmanager⟩
    by_cases hsize : size ≤ 0
    · rw [if_pos hsize]
      exact h.quiet _ (by simp [transferring, hpc]) (by simp [transferring]) (by simp [hpc])
    · rw [if_neg hsize, Pace.observe_idle (by simp [transferring, hpc])]
      have hsent := h.sent (by simp [transferring, hpc])
      rw [if_neg (by simp [hpc]), add_zero] at hsent
      refine ⟨h.packT, by simp, ?_, by simp [transferring], h.slept⟩
      rintro data item sender hsender
      cases hsender
      exact ⟨rfl, Sends.start h.packT _ hsent h.slept⟩
  · -- sendPack
    rename_i reply _ _ data item sender hpc
    obtain ⟨hpackT, hsends⟩ := h.sends data item sender hpc
    split at called
    · rename_i ret hfinished
      cases called
      refine ⟨?_, hmanager⟩
      have hsame : pace.observe thread.pc reply = pace := by
        simp only [Pace.observe, hpc]
        exact Pace.answer_other (by simp [hfinished])
      rw [hsame]
      refine h.returned hpc hfinished ?_
      split
      · split <;> simp [transferring]
      · simp [transferring]
    · obtain ⟨⟨moved, next⟩, hanswer, hpair⟩ := Option.map_eq_some_iff.mp called
      cases hpair
      obtain ⟨hkept, hnext, hmoved⟩ := hsends.answer hlimit hmanager hanswer
      have hobserve : pace.observe thread.pc reply = pace.answer sender reply := by
        simp only [Pace.observe, hpc]
      rw [hpackT] at hkept
      rw [hobserve]
      refine ⟨⟨h.packT, by simp, ?_, by simp [transferring], ?_⟩, hmoved⟩
      · rintro data item sender hsender
        cases hsender
        exact ⟨hkept, hnext⟩
      · exact hkept ▸ hnext.slept
  · -- unlink
    rename_i hpc
    cases called
    exact ⟨h.quiet _ (by simp [transferring, hpc]) (by simp [transferring]) (by simp [hpc]), hmanager⟩
  · -- delete
    rename_i hpc
    cases called
    exact ⟨h.quiet _ (by simp [transferring, hpc]) (by simp [transferring]) (by simp [hpc]), hmanager⟩
  · -- close
    rename_i hpc
    cases called
    exact ⟨h.quiet _ (by simp [transferring, hpc]) (by simp [transferring]) (by simp [hpc]), hmanager⟩
  · -- no such reply
    contradiction

theorem Paced.cancel (h : Paced limit thread pace) :
    Paced limit { thread with pc := .cancelled } pace where
  packT := h.packT
  fresh := by simp
  sends := by simp
  sent := fun _ => by simpa using h.unpaid
  slept := h.slept

end

/-! ### Runs of the client -/

structure Inv (limit : Limit) (state : State) : Prop where
  speed : Within limit state.client.speed
  paces : state.paces.length = state.client.threads.length
  paced : ∀ (tid : Nat) (thread : Thread) (pace : Pace), state.client.threads[tid]? = some thread →
    state.paces[tid]? = some pace → Paced limit thread pace

section
variable {limit : Limit} {order : Endian} {conf : Section} {state next : State} {client : Client}

theorem inv_start (hlimit : 160 ≤ limit.val) : Inv limit (start limit) where
  speed := within_start hlimit
  paces := rfl
  paced := by simp [start]

theorem paced_created (info : Addr) : Paced limit (created info) ⟨0, 0, 0⟩ where
  packT := le_refl 0
  fresh := fun _ => rfl
  sends := by simp [created]
  sent := by simp [created]
  slept := by simp

theorem Inv.request (h : Inv limit state) (hspeed : client.speed = state.client.speed)
    (hthreads : Requested state.client.threads client.threads) :
    Inv limit ⟨client, state.paces ++
      List.replicate (client.threads.length - state.paces.length) ⟨0, 0, 0⟩⟩ := by
  have hgrows := hthreads.length_le
  have hpaces := h.paces
  refine ⟨hspeed ▸ h.speed, ?_, ?_⟩
  · simp only [List.length_append, List.length_replicate]
    omega
  · intro tid thread pace hthread hpace
    rcases hthreads.getElem? hthread with ⟨old, hold, hsame⟩ | ⟨hge, info, rfl⟩
    · have hlt := (List.getElem?_eq_some_iff.mp hold).1
      rcases getElem?_padded hpace with hpace | ⟨hge, -⟩
      · obtain ⟨hpackT, hfresh, hsends, hsent, hslept⟩ := h.paced tid old pace hold hpace
        rw [hsame]
        exact ⟨hpackT, hfresh, hsends, hsent, hslept⟩
      · omega
    · rcases getElem?_padded hpace with hpace | ⟨-, rfl⟩
      · have hlt := (List.getElem?_eq_some_iff.mp hpace).1
        omega
      · exact paced_created info

theorem Inv.focus (h : Inv limit state) {tid : Nat} {thread thread' : Thread} {observe : Pace → Pace}
    (hthread : state.client.threads[tid]? = some thread) (hspeed : Within limit client.speed)
    (hthreads : client.threads = state.client.threads.set tid thread')
    (hpaced : ∀ pace, Paced limit thread pace → Paced limit thread' (observe pace)) :
    Inv limit ⟨client, state.paces.modify tid observe⟩ := by
  have hlt := (List.getElem?_eq_some_iff.mp hthread).1
  refine ⟨hspeed, ?_, ?_⟩
  · rw [List.length_modify, hthreads, List.length_set]
    exact h.paces
  · intro other thread'' pace'' hother hpace
    rw [hthreads] at hother
    rw [List.getElem?_modify] at hpace
    obtain ⟨pace, hold, rfl⟩ := Option.map_eq_some_iff.mp hpace
    by_cases heq : tid = other
    · subst heq
      rw [List.getElem?_set_self hlt] at hother
      cases hother
      rw [if_pos rfl]
      exact hpaced pace (h.paced tid thread pace hthread hold)
    · rw [List.getElem?_set_ne heq] at hother
      rw [if_neg heq]
      exact h.paced other thread'' pace hother hold

theorem Inv.call (h : Inv limit state) (hlimit : 160 ≤ limit.val) {tid : Nat} {reply : Reply}
    (hstep : stepCall order state.client tid reply = some client) :
    ∃ thread, state.client.threads[tid]? = some thread ∧
      Inv limit ⟨client, state.paces.modify tid fun pace => pace.observe thread.pc reply⟩ := by
  unfold stepCall at hstep
  split at hstep
  · contradiction
  rename_i thread hthread
  split at hstep
  · contradiction
  split at hstep
  · contradiction
  obtain ⟨⟨speed, list, thread'⟩, called, rfl⟩ := Option.map_eq_some_iff.mp hstep
  have hlt : tid < state.paces.length := h.paces ▸ (List.getElem?_eq_some_iff.mp hthread).1
  have hpaced := h.paced tid thread _ hthread (List.getElem?_eq_getElem hlt)
  exact ⟨thread, hthread, h.focus hthread (hpaced.step hlimit h.speed called).2 rfl
    fun pace hpace => (hpace.step hlimit h.speed called).1⟩

theorem Inv.padded (h : Inv limit state) :
    Inv limit ⟨state.client, state.paces ++
      List.replicate (state.client.threads.length - state.paces.length) ⟨0, 0, 0⟩⟩ := by
  rw [h.paces, Nat.sub_self, List.replicate_zero, List.append_nil]
  exact h

theorem Inv.step (h : Inv limit state) (hlimit : 160 ≤ limit.val) {action : Action}
    (hstep : Pacing.step order conf state action = some next) : Inv limit next := by
  obtain ⟨client, hmoved, rfl⟩ := Option.map_eq_some_iff.mp hstep
  unfold Bandwidth.step at hmoved
  split at hmoved
  · contradiction
  cases action with
  | request world input =>
    obtain ⟨⟨answer, handled⟩, hhandled, rfl⟩ := Option.map_eq_some_iff.mp hmoved
    obtain ⟨hspeed, hthreads⟩ := handlerMsgC_threads hhandled
    exact h.request hspeed hthreads
  | call tid reply =>
    obtain ⟨thread, hthread, hnext⟩ := h.call hlimit hmoved
    simpa only [hthread] using hnext.padded
  | cancel tid =>
    obtain ⟨thread, hthread, rfl⟩ := stepCancel_eq hmoved
    have hnext : Inv limit ⟨{ state.client with
        threads := state.client.threads.set tid { thread with pc := .cancelled } },
        state.paces.modify tid id⟩ :=
      h.focus hthread h.speed rfl fun pace hpace => hpace.cancel
    rw [List.modify_id] at hnext
    exact hnext.padded

/-- Whatever the client is told and whatever its calls return, a thread sends no faster than
its packets take at the greatest grant, but for one packet. -/
theorem rate_limited (hlimit : 160 ≤ limit.val) {final : State} {actions : List Action} {tid : Nat}
    {thread : Thread} {pace : Pace}
    (run : exec (Pacing.step order conf) (start limit) actions = some final)
    (hthread : final.client.threads[tid]? = some thread) (hpace : final.paces[tid]? = some pace) :
    pace.sent - 1 ≤ thread.packT * pace.sleeps ∧
      (pace.sent - 1) * wait limit thread.packT ≤ thread.packT * pace.slept := by
  have hinv : Inv limit final :=
    exec_invariant' (fun state action next h hstep => Inv.step h hlimit hstep) (inv_start hlimit) run
  have hpaced := hinv.paced tid thread pace hthread hpace
  have hunpaid := hpaced.unpaid
  exact ⟨by omega, hpaced.limited⟩

end

/-- One packet was sent at 420 Mbit/s under the limit of the shipped configuration, and its file
is through. -/
theorem rate_limited_oneFile : ∃ final thread pace,
    exec (Pacing.step .little []) (start ⟨1000, by decide⟩) deletedWhenIdle = some final ∧
      final.client.threads[0]? = some thread ∧ final.paces[0]? = some pace ∧
      pace = ⟨1, 1, 3817⟩ ∧ peak ⟨1000, by decide⟩ = 420 ∧
      pace.sent - 1 ≤ thread.packT * pace.sleeps ∧
      (pace.sent - 1) * wait ⟨1000, by decide⟩ thread.packT ≤ thread.packT * pace.slept := by
  have hruns : (exec (Pacing.step .little []) (start ⟨1000, by decide⟩) deletedWhenIdle).any
      (fun final => final.client.threads[0]?.isSome ∧ final.paces[0]? = some ⟨1, 1, 3817⟩) = true := by
    decide +kernel
  obtain ⟨final, run, hany⟩ := (Option.any_eq_true _ _).mp hruns
  obtain ⟨hsome, hpace⟩ := of_decide_eq_true hany
  obtain ⟨thread, hthread⟩ := Option.isSome_iff_exists.mp hsome
  obtain ⟨hsent, hslept⟩ := rate_limited (by decide) run hthread hpace
  exact ⟨final, thread, _, run, hthread, hpace, rfl, by decide, hsent, hslept⟩

end UdpFileProxy.Pacing
