import UdpFileProxy.Numbers
import UdpFileProxy.ProxyClient
import UdpFileProxy.Transmission

/-! The batch size `pack_t` on its way from the configuration file to the divisions of
`SendPack_ex`: `CONF_get_number`, the registration of an app, and the range check of
`file_thread`, which lets 0 pass. -/
namespace UdpFileProxy.BatchSize
open Lib.Memory Lib.Run Config Numbers
open FileThread (checkPackT)
open ProxyClient (registration)

/-- The `pack_t` that `file_thread` passes for an app that was registered with
`helper`, when `conf` is the configuration file. -/
def reaching (conf helper : Section) (errno : Errno) : Int :=
  checkPackT (registration conf errno helper).packT

/-- No run of `SendPack_ex` with this batch size divides by zero. -/
def Divisor (packT : Int) : Prop :=
  1 ≤ packT ∧ ∀ order filePath content replies final,
    exec (Transmission.step order) (Transmission.start filePath packT content) replies = some final →
      final.machine.pc ≠ .dividedByZero

/-- The entry starts with a number that a `long` does not hold. -/
def Overflows (mSection : Section) (key : Bytes) : Prop :=
  ∃ text ∈ mSection.lookup key, ¬FitsLong (leading (cstr text))

/-- The entry is there, what it starts with is 0 modulo 2^32, which is so for any word,
and no call before it has left an `errno` behind. -/
def Vanishes (conf helper : Section) (errno : Errno) : Prop :=
  errno = .other ∧ ¬Overflows helper (ascii "server_port") ∧
    ¬Overflows helper (ascii "max_file") ∧ ∃ text ∈ conf.lookup (ascii "pack_t"),
      FitsLong (leading (cstr text)) ∧ (2 ^ 32 : Int) ∣ leading (cstr text)

section
variable {mSection conf helper : Section} {key text : Bytes} {errno : Errno} {packT : Int}

theorem overflows_iff (h : mSection.lookup key = some text) :
    Overflows mSection key ↔ ¬FitsLong (leading (cstr text)) := by
  simp [Overflows, h]

theorem errno_clean_iff : (confGetNumber mSection key errno).2 = .other ↔
    errno = .other ∧ ¬Overflows mSection key := by
  cases h : mSection.lookup key with
  | none =>
    rw [confGetNumber_none h]
    simp [Overflows, h]
  | some text =>
    rw [overflows_iff h, not_not]
    by_cases hlong : FitsLong (leading (cstr text))
    · simp only [confGetNumber, h, atoi_of_fits hlong, hlong, and_true]
      cases errno <;> simp
    · rw [confGetNumber_overflow h hlong]
      simp [hlong]

theorem number_zero_iff : (confGetNumber mSection key errno).1 = 0 ↔
    errno = .other ∧ ∃ text ∈ mSection.lookup key,
      FitsLong (leading (cstr text)) ∧ (2 ^ 32 : Int) ∣ leading (cstr text) := by
  cases h : mSection.lookup key with
  | none =>
    rw [confGetNumber_none h]
    simp
  | some text =>
    simp only [Option.mem_def, Option.some.injEq, exists_eq_left']
    by_cases hclean : errno = .other
    · subst hclean
      by_cases hlong : FitsLong (leading (cstr text))
      · rw [confGetNumber_long h hlong, and_iff_right rfl, and_iff_right hlong]
        exact Int.dvd_iff_bmod_eq_zero.symm
      · rw [confGetNumber_overflow h hlong]
        simp [hlong]
    · rw [confGetNumber_stale h hclean]
      simp [hclean]

@[simp] theorem checkPackT_pos_iff : 1 ≤ checkPackT packT ↔ packT ≠ 0 := by
  have hdefault : Protocol.packTDefault = 200 := rfl
  unfold checkPackT
  split <;> omega

theorem divisor_iff : Divisor packT ↔ 1 ≤ packT := by
  refine ⟨And.left, fun hpos => ⟨hpos, ?_⟩⟩
  intro order filePath content replies final run
  have hstart : Transmission.Inv order content (Transmission.start filePath packT content) :=
    Transmission.inv_start hpos filePath content
  exact (exec_invariant' (fun _ _ _ h hstep => h.step hstep) hstart run).defined

/-- `SendPack_ex` never divides by zero exactly when the entry does not vanish. -/
theorem divides_exactly (conf helper : Section) (errno : Errno) :
    Divisor (reaching conf helper errno) ↔ ¬Vanishes conf helper errno := by
  rw [divisor_iff, reaching, checkPackT_pos_iff]
  refine not_congr ?_
  dsimp only [registration]
  rw [number_zero_iff, errno_clean_iff, errno_clean_iff, Vanishes]
  simp only [and_assoc]

end

/-- An app whose thread sends a file when the entry is a word: the test after the first
packet divides by zero. -/
theorem word_divides : reaching [(ascii "pack_t", ascii "abc")] [] .other = 0 ∧
    ∃ final, exec (Transmission.step .little) (Transmission.start (ascii "f") 0 [7])
      [.size 1, .fd 3, .data (some [7]), .grant 320, .sent true, .done] = some final ∧
      final.machine.pc = .dividedByZero :=
  ⟨by decide +kernel, _, rfl, rfl⟩

end UdpFileProxy.BatchSize
