import UdpFileProxy.Sessions

/-! The names of the files that the client accepts. Each came as a value in the body
of one frame, so it is no longer than a length byte can say. -/
namespace UdpFileProxy.Names
open Lib.Memory Lib.Run Protocol Config Sessions
open Status (handedOut)

section
variable {str pattern line key value data : Bytes}

theorem length_substr_le (str : Bytes) (pos : Nat) (count : Int) :
    (substr str pos count).length ≤ str.length - pos := by
  unfold substr
  split
  · rw [List.length_drop]
  · rw [List.length_take, List.length_drop]
    exact min_le_right _ _

theorem length_trim_le (str : Bytes) : (trim str).length ≤ str.length := by
  unfold trim
  split
  · simp
  · exact (length_substr_le _ _ _).trans (Nat.sub_le _ _)

theorem length_value_lt (h : analyseLine line = some (key, value)) : value.length < line.length := by
  unfold analyseLine at h
  split at h
  · contradiction
  dsimp only at h
  split at h
  · contradiction
  split at h
  · contradiction
  rename_i pos hpos
  split at h
  · contradiction
  obtain ⟨-, rfl⟩ := Prod.mk.inj (Option.some.inj h)
  have hlt := (List.findIdx?_eq_some_iff_getElem.mp hpos).1
  have hnew := length_substr_le line 0 (0 + 1 - ((line.findIdx? (· = commentChar)).elim
    ((line.length : Int) - 1) fun pos => (pos : Int) - 1))
  refine lt_of_le_of_lt (length_trim_le _) (lt_of_le_of_lt (length_substr_le _ _ _) ?_)
  omega

theorem length_piece_le {fuel i : Nat} {piece : Bytes} (h : piece ∈ splitLoop str pattern fuel i) :
    piece.length ≤ str.length := by
  induction fuel generalizing i with
  | zero => simp [splitLoop] at h
  | succ fuel ih =>
    rw [splitLoop] at h
    split at h
    · split at h
      · split at h
        · rcases List.mem_cons.mp h with rfl | hrest
          · exact (length_substr_le _ _ _).trans (Nat.sub_le _ _)
          · exact ih hrest
        · exact ih h
      · exact ih h
    · simp at h

theorem mem_foldl {lines : List Bytes} {mSection : Section} {pair : Bytes × Bytes}
    (h : pair ∈ lines.foldl (fun mSection line => (analyseLine line).toList ++ mSection) mSection) :
    pair ∈ mSection ∨ ∃ line ∈ lines, analyseLine line = some pair := by
  induction lines generalizing mSection with
  | nil => exact .inl h
  | cons line rest ih =>
    rcases ih h with hmem | ⟨later, hlater, hpair⟩
    · rcases List.mem_append.mp hmem with hnew | hold
      · exact .inr ⟨line, List.mem_cons_self, Option.mem_toList.mp hnew⟩
      · exact .inl hold
    · exact .inr ⟨later, List.mem_cons_of_mem _ hlater, hpair⟩

theorem mem_confPraseLine {pair : Bytes × Bytes} (h : pair ∈ confPraseLine data pattern) :
    pair.2.length < data.length + pattern.length := by
  rcases mem_foldl h with hnil | ⟨line, hline, hpair⟩
  · simp at hnil
  · have hvalue := length_value_lt hpair
    have hpiece := length_piece_le hline
    rw [List.length_append] at hpiece
    omega

theorem length_confGetString_le {mSection : Section} {bound : Nat}
    (h : ∀ pair ∈ mSection, pair.2.length ≤ bound) (key : Bytes) :
    (confGetString mSection key).length ≤ bound := by
  unfold confGetString
  cases hlookup : mSection.lookup key with
  | none => simp
  | some value =>
    obtain ⟨front, back, rfl, -⟩ := List.lookup_eq_some_iff.mp hlookup
    exact h (key, value) (by simp)

theorem length_cstr_concat_le (body : Bytes) : (cstr (body ++ [0])).length ≤ body.length := by
  induction body with
  | nil => simp [cstr]
  | cons byte rest ih =>
    by_cases hzero : byte = 0
    · simp [cstr, hzero]
    · simpa [cstr, hzero] using ih

end

theorem requested_short {input : Bytes} {command : Encoding.ClientCommand} {helper : Section}
    (h : requested input = some (command, helper)) (key : Bytes) :
    (confGetString helper key).length ≤ 255 := by
  unfold requested at h
  split at h
  case isFalse => contradiction
  rename_i hformat
  split at h
  case h_2 => contradiction
  rename_i cmdType msg hparts
  obtain ⟨found, -, hpair⟩ := Option.map_eq_some_iff.mp h
  obtain ⟨-, rfl⟩ := Prod.mk.inj hpair
  match input, hformat, hparts with
  | byte :: msgLen :: body, hformat, hparts =>
    simp only [List.cons_append, Manager.parts, Option.some.injEq, Prod.mk.injEq] at hparts
    obtain ⟨-, hbody⟩ := hparts
    split at hbody
    case isFalse => contradiction
    cases hbody
    have hle : body.length ≤ 255 := by
      have hbyte := msgLen.toNat_lt
      simp only [Manager.wellFormed, Bool.decide_or, Bool.or_eq_true, decide_eq_true_eq] at hformat
      omega
    refine length_confGetString_le ?_ key
    intro pair hpair
    have hlt := mem_confPraseLine hpair
    have hcstr := length_cstr_concat_le body
    have hcomma : (ascii ",").length = 1 := by decide
    omega

/-- No accepted file has a longer name. -/
def Short (state : State) : Prop :=
  ∀ session ∈ state.sessions, ∀ item ∈ session.accepted, item.filename.length ≤ 255

section
variable {order : Endian} {conf : Section} {state next : State} {sessions : List Session}

@[simp] theorem observe_accepted (session : Session) (pc : FileThread.Pc) (reply : SendPack.Reply)
    (list : SendList) (next : FileThread.Pc) :
    (session.observe pc reply list next).accepted = session.accepted := by
  unfold Session.observe
  split
  · split <;> rfl
  · obtain ⟨passed, hcheck⟩ := session.check_eq next
    rw [hcheck]
  · obtain ⟨passed, hcheck⟩ := session.check_eq next
    rw [hcheck]
  · obtain ⟨passed, hcheck⟩ := session.check_eq next
    rw [hcheck]
  · rfl
  · split <;> rfl
  · split
    · split <;> rfl
    · rfl
    · rfl
  · rfl
  · rfl

theorem Short.modify (h : Short state) (tid : Nat) {change : Session → Session}
    (hchange : ∀ session, ∀ item ∈ (change session).accepted,
      item ∈ session.accepted ∨ item.filename.length ≤ 255) :
    ∀ session ∈ state.sessions.modify tid change, ∀ item ∈ session.accepted,
      item.filename.length ≤ 255 := by
  intro session hsession item hitem
  obtain ⟨index, hindex⟩ := List.mem_iff_getElem?.mp hsession
  rw [List.getElem?_modify] at hindex
  obtain ⟨old, hold, rfl⟩ := Option.map_eq_some_iff.mp hindex
  have hmem := List.mem_of_getElem? hold
  split at hitem
  · rcases hchange old item hitem with hsame | hshort
    · exact h old hmem item hsame
    · exact hshort
  · exact h old hmem item hitem

theorem Short.change (h : Short state) (appName : Bytes) {change : Session → Session}
    (hchange : ∀ session, ∀ item ∈ (change session).accepted,
      item ∈ session.accepted ∨ item.filename.length ≤ 255) :
    ∀ session ∈ state.change appName change, ∀ item ∈ session.accepted,
      item.filename.length ≤ 255 := by
  unfold State.change
  split
  · exact h
  · exact h.modify _ hchange

theorem Short.step (h : Short state) {action : Action}
    (hstep : Sessions.step order conf state action = some next) : Short next := by
  unfold Sessions.step at hstep
  split at hstep
  · contradiction
  cases action with
  | request world input =>
    obtain ⟨⟨reply, client⟩, -, rfl⟩ := Option.map_eq_some_iff.mp hstep
    unfold Short
    dsimp only [State.answered]
    split
    · exact h
    rename_i command helper hrequested
    split
    case isFalse => exact h
    cases command with
    | register =>
      intro session hsession item hitem
      rcases List.mem_append.mp hsession with hold | hnew
      · exact h session hold item hitem
      · rw [List.mem_singleton.mp hnew] at hitem
        simp [Session.start] at hitem
    | addFile =>
      refine h.change _ fun session item hitem => ?_
      rcases List.mem_append.mp hitem with hold | hnew
      · exact .inl hold
      · rw [List.mem_singleton.mp hnew]
        exact .inr (requested_short hrequested _)
    | delect => exact h.change _ fun session item hitem => .inl hitem
  | delApp appName opt =>
    obtain ⟨⟨ret, client⟩, -, rfl⟩ := Option.map_eq_some_iff.mp hstep
    unfold Short
    dsimp only
    split
    · exact h.change _ fun session item hitem => .inl hitem
    · exact h
  | call tid reply =>
    obtain ⟨client, -, rfl⟩ := Option.map_eq_some_iff.mp hstep
    unfold Short
    dsimp only [State.observed]
    split
    · refine h.modify _ fun session item hitem => .inl ?_
      rwa [observe_accepted] at hitem
    · exact h
  | cancel tid =>
    obtain ⟨client, -, rfl⟩ := Option.map_eq_some_iff.mp hstep
    unfold Short
    dsimp only [State.interrupted]
    split
    · exact h.modify _ fun session item hitem => .inl hitem
    · exact h

theorem short_start : Short start := by
  intro session hsession
  simp [start] at hsession

end

end UdpFileProxy.Names
