import Mathlib.Computability.StateTransition

/-! Chains of a partial successor function that are followed for a bounded number of links. -/
namespace UdpFileProxy.Lib.Chain
open Relation StateTransition

variable {α : Type*}

/-- The end of the chain, unless it has more links than the limit. -/
def follow (next : α → Option α) : Nat → α → Option α
  | 0, a => if (next a).isNone then some a else none
  | limit + 1, a =>
      match next a with
      | none => some a
      | some b => follow next limit b

/-- What the chain passes through, its start and its end included. -/
def way (next : α → Option α) : Nat → α → List α
  | 0, a => [a]
  | limit + 1, a =>
      match next a with
      | none => [a]
      | some b => a :: way next limit b

variable {next next' : α → Option α} {a b c : α} {limit fuel : Nat}

@[simp] theorem follow_end (h : next a = none) : follow next limit a = some a := by
  cases limit <;> simp [follow, h]

@[simp] theorem follow_link (h : next a = some b) :
    follow next (limit + 1) a = follow next limit b := by
  simp [follow, h]

@[simp] theorem way_end (h : next a = none) : way next limit a = [a] := by
  cases limit <;> simp [way, h]

@[simp] theorem way_link (h : next a = some b) : way next (limit + 1) a = a :: way next limit b := by
  simp [way, h]

theorem mem_way_self : a ∈ way next limit a := by
  cases limit with
  | zero => simp [way]
  | succ limit => cases h : next a <;> simp [way, h]

theorem reaches_of_mem_way (h : b ∈ way next limit a) : Reaches next a b := by
  induction limit generalizing a with
  | zero =>
    rw [List.mem_singleton.mp h]
    exact ReflTransGen.refl
  | succ limit ih =>
    cases hnext : next a with
    | none =>
      rw [way_end hnext, List.mem_singleton] at h
      rw [h]
      exact ReflTransGen.refl
    | some other =>
      rw [way_link hnext, List.mem_cons] at h
      rcases h with rfl | htail
      · exact ReflTransGen.refl
      · exact ReflTransGen.head hnext (ih htail)

theorem follow_mem (h : follow next limit a = some c) : c ∈ way next limit a ∧ next c = none := by
  induction limit generalizing a with
  | zero =>
    rw [follow, Option.ite_none_right_eq_some, Option.isNone_iff_eq_none] at h
    obtain ⟨hend, hsame⟩ := h
    rw [← Option.some.inj hsame]
    exact ⟨mem_way_self, hend⟩
  | succ limit ih =>
    cases hnext : next a with
    | none =>
      rw [follow_end hnext] at h
      rw [← Option.some.inj h]
      exact ⟨mem_way_self, hnext⟩
    | some b =>
      rw [follow_link hnext] at h
      obtain ⟨hmem, hend⟩ := ih h
      rw [way_link hnext]
      exact ⟨List.mem_cons_of_mem _ hmem, hend⟩

theorem not_reaches₁_self (h : Reaches next a c) (hend : next c = none) : ¬Reaches₁ next a a := by
  induction h using ReflTransGen.head_induction_on with
  | refl =>
    intro hloop
    obtain ⟨b, hlink, -⟩ := TransGen.head'_iff.mp hloop
    rw [Option.mem_def, hend] at hlink
    contradiction
  | head hlink _ ih =>
    intro hloop
    exact ih (TransGen.tail' (reaches₁_fwd hloop hlink) hlink)

theorem notMem_way (h : follow next limit a = some c) (hlink : next a = some b) :
    a ∉ way next fuel b := by
  obtain ⟨hmem, hend⟩ := follow_mem h
  intro hback
  exact not_reaches₁_self (reaches_of_mem_way hmem) hend
    (TransGen.head' hlink (reaches_of_mem_way hback))

theorem follow_loop (hlink : next a = some b) (hback : a ∈ way next fuel b) :
    follow next limit a = none := by
  by_contra hne
  obtain ⟨c, hc⟩ := Option.ne_none_iff_exists'.mp hne
  exact notMem_way hc hlink hback

/-- A chain depends on the links that it passes through only. -/
theorem follow_congr (h : ∀ b ∈ way next limit a, next' b = next b) :
    follow next' limit a = follow next limit a := by
  induction limit generalizing a with
  | zero => rw [follow, follow, h a mem_way_self]
  | succ limit ih =>
    have hself := h a mem_way_self
    cases hnext : next a with
    | none => rw [follow_end hnext, follow_end (hself.trans hnext)]
    | some b =>
      rw [follow_link hnext, follow_link (hself.trans hnext)]
      rw [way_link hnext] at h
      exact ih fun other hother => h other (List.mem_cons_of_mem _ hother)

theorem way_congr (h : ∀ b ∈ way next limit a, next' b = next b) :
    way next' limit a = way next limit a := by
  induction limit generalizing a with
  | zero => rfl
  | succ limit ih =>
    have hself := h a mem_way_self
    cases hnext : next a with
    | none => rw [way_end hnext, way_end (hself.trans hnext)]
    | some b =>
      rw [way_link hnext, way_link (hself.trans hnext)]
      rw [way_link hnext] at h
      rw [ih fun other hother => h other (List.mem_cons_of_mem _ hother)]

/-- A chain that is cut ends where it was cut. -/
theorem follow_cut (hmem : b ∈ way next limit a) (hcut : next' b = none)
    (h : ∀ c ∈ way next limit a, c ≠ b → next' c = next c) : follow next' limit a = some b := by
  induction limit generalizing a with
  | zero =>
    rw [← List.mem_singleton.mp hmem]
    exact follow_end (List.mem_singleton.mp hmem ▸ hcut)
  | succ limit ih =>
    by_cases heq : a = b
    · rw [heq, follow_end hcut]
    · have hself := h a mem_way_self heq
      cases hnext : next a with
      | none =>
        rw [way_end hnext, List.mem_singleton] at hmem
        exact absurd hmem.symm heq
      | some other =>
        rw [way_link hnext] at hmem h
        rw [follow_link (hself.trans hnext)]
        refine ih ?_ ?_
        · exact (List.mem_cons.mp hmem).resolve_left (Ne.symm heq)
        · exact fun c hc => h c (List.mem_cons_of_mem _ hc)

end UdpFileProxy.Lib.Chain
