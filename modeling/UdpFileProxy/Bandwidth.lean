import UdpFileProxy.ProxyClient
import UdpFileProxy.Lib.Allotment
import UdpFileProxy.Lib.Run
import Mathlib.Algebra.Order.BigOperators.Group.List
import Mathlib.Algebra.Order.Group.Int

/-! Runs of the client: the main thread handles command frames while the sender
threads run and are cancelled. What is in use is what living threads hold, as
long as no thread is cancelled while it holds something. -/
namespace UdpFileProxy.Bandwidth
open Lib.Allotment Lib.Memory Lib.Run Lib.LinkedList Protocol ProxyClient FileThread
open SendPack (Reply)
open Speed (SpeedManger Bounded bounded_new held)
open Config (Section)

inductive Action where
  | request (world : World) (input : Bytes)
  | call (tid : Nat) (reply : Reply)
  | cancel (tid : Nat)

/-- A division by zero has ended the process. -/
def crashed (client : Client) : Bool :=
  client.threads.any fun thread =>
    match thread.pc with
    | .sendPack _ _ sender => sender.pc = .dividedByZero
    | _ => false

def stepCall (order : Endian) (client : Client) (tid : Nat) (reply : Reply) : Option Client :=
  match client.threads[tid]? with
  | none => none
  | some thread =>
      if thread.cancelRequest ∧ mustCancel thread.pc then none
      else
        match client.heap thread.info with
        | none => none
        | some cell =>
            (FileThread.step order client.speed cell.value.packT cell.value.listC thread reply).map
              fun (speed, list, next) => { client with
                speed := speed
                heap := setValue client.heap thread.info fun app => { app with listC := list }
                threads := client.threads.set tid next }

/-- A request to cancel takes effect; nothing cleans up after the thread. -/
def stepCancel (client : Client) (tid : Nat) : Option Client :=
  match client.threads[tid]? with
  | none => none
  | some thread =>
      if thread.cancelRequest ∧ (mustCancel thread.pc ∨ mayCancel thread.pc) then
        some { client with threads := client.threads.set tid { thread with pc := .cancelled } }
      else none

def step (order : Endian) (conf : Section) (client : Client) (action : Action) : Option Client :=
  if crashed client then none
  else
    match action with
    | .request world input => (handlerMsgC conf world client input).map Prod.snd
    | .call tid reply => stepCall order client tid reply
    | .cancel tid => stepCancel client tid

def total (client : Client) : Int := (client.threads.map grant).sum

def transferring (thread : Thread) : Bool :=
  match thread.pc with
  | .sendPack _ _ _ => true
  | _ => false

/-- What is in use is what living threads hold, so nothing without a transfer. -/
def Balanced (client : Client) : Prop :=
  client.speed.currentSpeed = total client ∧
    ((∀ thread ∈ client.threads, transferring thread = false) → client.speed.currentSpeed = 0)

/-- No thread is cancelled while it holds a grant. -/
def Spared (client : Client) : Action → Prop
  | .cancel tid => ∀ thread ∈ client.threads[tid]?, grant thread = 0
  | _ => True

instance decidableSpared (client : Client) : ∀ action, Decidable (Spared client action)
  | .request _ _ => inferInstanceAs (Decidable True)
  | .call _ _ => inferInstanceAs (Decidable True)
  | .cancel tid => inferInstanceAs (Decidable (∀ thread ∈ client.threads[tid]?, grant thread = 0))

section
variable {order : Endian} {conf : Section} {client next : Client} {action : Action} {tid : Nat}
  {thread thread' : Thread} {threads threads' : List Thread} {reply : Reply}

theorem grants_cancelThread : (cancelThread threads tid).map grant = threads.map grant := by
  apply List.ext_getElem?
  intro index
  simp only [cancelThread, List.getElem?_map, List.getElem?_modify]
  cases threads[index]? with
  | none => rfl
  | some thread => by_cases hindex : tid = index <;> simp [hindex, grant]

theorem mem_cancelThread (h : thread ∈ cancelThread threads tid) :
    ∃ old ∈ threads, thread.pc = old.pc := by
  obtain ⟨index, hindex⟩ := List.mem_iff_getElem?.mp h
  rw [cancelThread, List.getElem?_modify] at hindex
  obtain ⟨old, hold, hthread⟩ := Option.map_eq_some_iff.mp hindex
  refine ⟨old, List.mem_of_getElem? hold, ?_⟩
  subst hthread
  split <;> rfl

theorem requested_grants (h : Requested threads threads') :
    (threads'.map grant).sum = (threads.map grant).sum := by
  cases h with
  | same => rfl
  | create info => simp [grant, created]
  | cancel tid => rw [grants_cancelThread]

theorem requested_mem (h : Requested threads threads') (hthread : thread ∈ threads') :
    (∃ old ∈ threads, thread.pc = old.pc) ∨ thread.pc = .socket := by
  cases h with
  | same => exact .inl ⟨thread, hthread, rfl⟩
  | create info =>
    rcases List.mem_append.mp hthread with hthread | hthread
    · exact .inl ⟨thread, hthread, rfl⟩
    · rw [List.mem_singleton.mp hthread]
      exact .inr rfl
  | cancel tid => exact .inl (mem_cancelThread hthread)

theorem grants_set (h : threads[tid]? = some thread) (thread' : Thread) :
    ((threads.set tid thread').map grant).sum =
      (threads.map grant).sum - grant thread + grant thread' := by
  obtain ⟨hbefore, hafter⟩ := perm_of_get h thread'
  replace hbefore := (hbefore.map grant).sum_eq
  replace hafter := (hafter.map grant).sum_eq
  rw [List.map_cons, List.sum_cons] at hbefore hafter
  omega

structure Sound (client : Client) : Prop where
  bounded : Bounded client.speed
  total : client.speed.currentSpeed = total client
  ready : ∀ thread ∈ client.threads, Ready thread
  nonneg : ∀ thread ∈ client.threads, 0 ≤ grant thread

theorem sound_new : Sound ProxyClient.new :=
  ⟨bounded_new, rfl, by simp [ProxyClient.new], by simp [ProxyClient.new]⟩

theorem Sound.grant_le (h : Sound client) (hthread : thread ∈ client.threads) :
    grant thread ≤ client.speed.currentSpeed := by
  rw [h.total]
  apply List.single_le_sum
  · intro amount hamount
    obtain ⟨other, hother, rfl⟩ := List.mem_map.mp hamount
    exact h.nonneg other hother
  · exact List.mem_map_of_mem hthread

theorem Sound.balanced (h : Sound client) : Balanced client := by
  refine ⟨h.total, ?_⟩
  intro hnone
  rw [h.total, Bandwidth.total]
  apply List.sum_eq_zero
  intro amount hamount
  obtain ⟨thread, hthread, rfl⟩ := List.mem_map.mp hamount
  have hidle := hnone thread hthread
  cases hpc : thread.pc with
  | sendPack data item sender => simp [transferring, hpc] at hidle
  | _ => simp [grant, hpc]

theorem Sound.request (h : Sound client) (hspeed : next.speed = client.speed)
    (hthreads : Requested client.threads next.threads) : Sound next := by
  refine ⟨hspeed ▸ h.bounded, ?_, ?_, ?_⟩
  · rw [hspeed, h.total]
    exact (requested_grants hthreads).symm
  · intro thread hthread
    rcases requested_mem hthreads hthread with ⟨old, hold, hpc⟩ | hpc
    · have hready := h.ready old hold
      unfold Ready at hready ⊢
      rw [hpc]
      exact hready
    · simp [Ready, hpc]
  · intro thread hthread
    rcases requested_mem hthreads hthread with ⟨old, hold, hpc⟩ | hpc
    · have hnonneg := h.nonneg old hold
      unfold grant at hnonneg ⊢
      rw [hpc]
      exact hnonneg
    · simp [grant, hpc]

theorem Sound.set (h : Sound client) (hthread : client.threads[tid]? = some thread)
    (hready : Ready thread') (hnonneg : 0 ≤ grant thread') (hbounded : Bounded next.speed)
    (htotal : next.speed.currentSpeed =
      client.speed.currentSpeed - grant thread + grant thread')
    (hthreads : next.threads = client.threads.set tid thread') : Sound next := by
  refine ⟨hbounded, ?_, ?_, ?_⟩
  · rw [htotal, h.total, Bandwidth.total, Bandwidth.total, hthreads, grants_set hthread]
  · rw [hthreads]
    exact forall_mem_set h.ready hready
  · rw [hthreads]
    exact forall_mem_set h.nonneg hnonneg

theorem Sound.call (h : Sound client) (hstep : stepCall order client tid reply = some next) :
    Sound next := by
  unfold stepCall at hstep
  split at hstep
  · contradiction
  rename_i thread hthread
  split at hstep
  · contradiction
  split at hstep
  · contradiction
  obtain ⟨⟨speed, list, thread'⟩, hmoved, hnext⟩ := Option.map_eq_some_iff.mp hstep
  subst hnext
  have hmem : thread ∈ client.threads := List.mem_of_getElem? hthread
  obtain ⟨hready, hcases⟩ := step_cases (h.ready thread hmem) hmoved
  rcases hcases with ⟨hnone, hgrant, rfl⟩ | ⟨-, hnone, rfl⟩ | ⟨hsame, rfl⟩
  · have hgranted := h.bounded.granted
    refine h.set hthread hready (by omega) h.bounded.querySpeed ?_ rfl
    simp only [SpeedManger.querySpeed]
    omega
  · obtain ⟨hbounded, hcurrent⟩ :=
      h.bounded.returnSpeed ⟨h.nonneg thread hmem, h.grant_le hmem⟩
    refine h.set hthread hready (by omega) hbounded ?_ rfl
    dsimp only
    omega
  · have hnonneg := h.nonneg thread hmem
    exact h.set hthread hready (by omega) h.bounded (by dsimp only; omega) rfl

theorem stepCancel_eq (hstep : stepCancel client tid = some next) :
    ∃ thread, client.threads[tid]? = some thread ∧ next =
      { client with threads := client.threads.set tid { thread with pc := .cancelled } } := by
  unfold stepCancel at hstep
  split at hstep
  · contradiction
  rename_i thread hthread
  split at hstep
  · cases hstep
    exact ⟨thread, hthread, rfl⟩
  · contradiction

theorem Sound.step (h : Sound client) (spared : Spared client action)
    (hstep : Bandwidth.step order conf client action = some next) : Sound next := by
  unfold Bandwidth.step at hstep
  split at hstep
  · contradiction
  cases action with
  | request world input =>
    obtain ⟨⟨answer, handled⟩, hhandled, rfl⟩ := Option.map_eq_some_iff.mp hstep
    obtain ⟨hspeed, hthreads⟩ := handlerMsgC_threads hhandled
    exact h.request hspeed hthreads
  | call tid reply => exact h.call hstep
  | cancel tid =>
    obtain ⟨thread, hthread, rfl⟩ := stepCancel_eq hstep
    have hnone : grant thread = 0 := spared thread hthread
    refine h.set hthread ?_ (le_refl 0) h.bounded ?_ rfl
    · trivial
    · rw [hnone, show grant { thread with pc := Pc.cancelled } = 0 from rfl]
      simp

/-- The grant of a thread that is cancelled while it holds one is lost. -/
theorem Sound.leak (h : Sound client) (hnot : ¬Spared client action)
    (hstep : Bandwidth.step order conf client action = some next) : ¬Balanced next := by
  unfold Bandwidth.step at hstep
  split at hstep
  · contradiction
  cases action with
  | request world input => exact absurd trivial hnot
  | call tid reply => exact absurd trivial hnot
  | cancel tid =>
    obtain ⟨thread, hthread, rfl⟩ := stepCancel_eq hstep
    have hheld : grant thread ≠ 0 := by
      intro hnone
      apply hnot
      intro other hother
      rw [Option.mem_def, hthread, Option.some.injEq] at hother
      rw [← hother, hnone]
    rintro ⟨hbalanced, -⟩
    apply hheld
    have htotal := h.total
    have hset := grants_set hthread { thread with pc := .cancelled }
    simp only [Bandwidth.total] at hbalanced htotal
    simp only [show grant { thread with pc := Pc.cancelled } = 0 from rfl] at hset
    omega

/-- What is in use is what is held, in every state of a run, exactly when no
thread was cancelled while it held a grant. -/
theorem never_leaks {final : Client} {actions : List Action}
    (run : exec (step order conf) ProxyClient.new actions = some final) :
    Always (step order conf) Balanced ProxyClient.new actions ↔
      Meets (step order conf) Spared ProxyClient.new actions := by
  refine always_iff_meets (fun client h => Sound.balanced h) ?_ ?_ sound_new run
  · intro client action next h spared hstep
    exact h.step spared hstep
  · intro client action next h hnot hstep
    exact h.leak hnot hstep

end

/-- One app with one file of one byte; its thread has sent it and sleeps. -/
def sending : List Action :=
  [.request ⟨.other, 1, true⟩ (Manager.frame cmdRegister (ascii "app_name=a,max_file=2")),
    .request ⟨.other, 2, true⟩ (Manager.frame cmdAddFile (ascii "app_name=a,file_name=f")),
    .call 0 (.fd 3), .call 0 .done, .call 0 .done, .call 0 .done, .call 0 .done, .call 0 (.size 1),
    .call 0 (.size 1), .call 0 (.fd 4), .call 0 (.data (some [7])), .call 0 .done,
    .call 0 (.sent true)]

/-- The app is deleted while its thread sleeps in `SendPack_ex`. -/
def deletedInTransfer : List Action :=
  sending ++ [.request ⟨.other, 3, true⟩ (Manager.frame cmdDelect (ascii "app_name=a")), .cancel 0]

theorem leaked_grant : ∃ final,
    exec (step .little []) ProxyClient.new deletedInTransfer = some final ∧
      final.speed.currentSpeed = 320 ∧ total final = 0 ∧
      ¬Always (step .little []) Balanced ProxyClient.new deletedInTransfer := by
  have hleaked : (exec (step .little []) ProxyClient.new deletedInTransfer).any (fun final =>
      final.speed.currentSpeed = 320 ∧ total final = 0) = true := by decide +kernel
  obtain ⟨final, run, hany⟩ := (Option.any_eq_true _ _).mp hleaked
  obtain ⟨hcurrent, htotal⟩ := of_decide_eq_true hany
  refine ⟨final, run, hcurrent, htotal, ?_⟩
  intro always
  have hbalanced := (always.final run).1
  rw [hcurrent, htotal] at hbalanced
  exact absurd hbalanced (by decide)

/-- The app is deleted after its file; the thread sleeps until there is another. -/
def deletedWhenIdle : List Action :=
  sending ++ [.call 0 .done, .call 0 (.data (some [])), .call 0 .done, .call 0 .done, .call 0 .done,
    .call 0 .done, .call 0 .done, .request ⟨.other, 3, true⟩ (Manager.frame cmdDelect (ascii "app_name=a")),
    .cancel 0]

theorem never_leaks_idle : ∃ final,
    exec (step .little []) ProxyClient.new deletedWhenIdle = some final ∧
      Always (step .little []) Balanced ProxyClient.new deletedWhenIdle := by
  have hruns : (exec (step .little []) ProxyClient.new deletedWhenIdle).isSome := by decide +kernel
  have meets : Meets (step .little []) Spared ProxyClient.new deletedWhenIdle := by decide +kernel
  obtain ⟨final, run⟩ := Option.isSome_iff_exists.mp hruns
  exact ⟨final, run, (never_leaks run).mpr meets⟩

end UdpFileProxy.Bandwidth
