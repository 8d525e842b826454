import Xv6.Pipe

/-!
# The invariant of a pipe

The lock's invariant, and what the buffer holds between the two counters. A process inside its critical section relies on values
it has loaded; they stay true because no other process is in a critical section and only there are `nread`, `nwrite` and `data`
changed.
-/

namespace Xv6

open Lib Peterson Function List

namespace PipeAux

/-! ### One step of a process -/

/-- The steps of a process: a call begins, or goes on in `peterson_enter`, `pipewrite` or `piperead`. -/
inductive Goes (pi : Pipe) (l : PipeProc) : PipeAct → Pipe → PipeProc → PipeEvent → Prop where
  | write {buf} (hpc : l.pc = .idle) (hopen : pi.writeopen = true) :
      Goes pi l (.write buf) pi { l with pc := .wLoop, buf := buf, i := 0, call := l.call + 1 } .quiet
  | read {n} (hpc : l.pc = .idle) : Goes pi l (.read n) pi { l with pc := .rLoop, n := n, i := 0, got := [] } .quiet
  | enter {e pi' pc} (h : petersonEnter pi l.pc = some (pi', pc)) : Goes pi l (.go e) pi' { l with pc := pc } .quiet
  | writes {e pi' l' ev} (h : pipewrite pi e l = some (pi', l', ev)) : Goes pi l (.go e) pi' l' ev
  | reads {e pi' l' ev} (h : piperead pi e l = some (pi', l', ev)) : Goes pi l (.go e) pi' l' ev

variable {pi pi' : Pipe} {l l' : PipeProc} {a : PipeAct} {ev : PipeEvent} {e : PipeEnv} {me : Party} {x : PipeProc} {pc : PC}

theorem goes_of_step (h : l.step pi a = some (pi', l', ev)) : Goes pi l a pi' l' ev := by
  cases a with
  | write | read =>
    simp only [PipeProc.step] at h
    split at h
    case h_1 hpc =>
      split_ifs at h with hopen
      cases h
      constructor <;> assumption
    case h_2 => nomatch h
  | go =>
    simp only [PipeProc.step] at h
    split at h
    case h_1 hent =>
      cases h
      exact .enter hent
    case h_2 =>
      rcases Option.or_eq_some_iff.1 h with h | ⟨-, h⟩
      · exact .writes h
      · exact .reads h

/-- What every step of a process does, whatever the process is doing: as far as the lock goes it makes one of the lock's moves; it
raises a flag only at the first store of `peterson_enter`; it changes
neither `writeopen` nor, outside a critical section, the buffer and its counters; and it enters a critical section at its start. -/
structure Frame (pi : Pipe) (l : PipeProc) (pi' : Pipe) (l' : PipeProc) (ev : PipeEvent) : Prop where
  move : Move pi.lock l.pc.phase pi'.lock l'.pc.phase
  flag : ∀ me, l.pc.phase = .out → l'.pc.phase = .flag me → l.pc = .want me
  writeopen : pi'.writeopen = pi.writeopen
  outside : (∀ me, l.pc.phase ≠ .crit me) →
    pi'.data = pi.data ∧ pi'.nread = pi.nread ∧ pi'.nwrite = pi.nwrite ∧ ev = .quiet
  starts : (∀ me, l.pc.phase ≠ .crit me) → ∀ me, l'.pc.phase = .crit me → l'.pc = entered me

/-- A step that stores nothing and stays where it is for the lock. -/
theorem Frame.stay (hx : x.pc = pc) (hph : pc.phase = l.pc.phase) : Frame pi l pi x .quiet where
  move := by
    rw [hx, hph]
    exact .stay _
  flag := by
    intro me h1 h2
    rw [hx, hph, h1] at h2
    nomatch h2
  writeopen := rfl
  outside := fun _ => ⟨rfl, rfl, rfl, rfl⟩
  starts := by
    intro hl me hc
    rw [hx, hph] at hc
    exact absurd hc (hl me)

/-- A step that lowers the flag. -/
theorem Frame.exit (hl : l.pc.phase = .crit me) (hx : x.pc.phase = .out)
    (ev : PipeEvent) : Frame pi l (petersonExit pi me) x ev where
  move := by
    rw [hl, hx]
    exact .exit me
  flag := by
    intro you h1
    rw [hl] at h1
    nomatch h1
  writeopen := rfl
  outside := fun h => absurd hl (h me)
  starts := fun h => absurd hl (h me)

/-- A step inside the critical section that changes the buffer or a counter. -/
theorem Frame.inside (hl : l.pc.phase = .crit me) (hx : x.pc.phase = .crit me)
    (hlock : pi'.lock = pi.lock) (hopen : pi'.writeopen = pi.writeopen) :
    Frame pi l pi' x ev where
  move := by
    rw [hl, hx, hlock]
    exact .stay _
  flag := by
    intro you h1
    rw [hl] at h1
    nomatch h1
  writeopen := hopen
  outside := fun h => absurd hl (h me)
  starts := fun h => absurd hl (h me)

/-- A step of `peterson_enter` from a place after the first store: it changes at most the lock. -/
theorem Frame.spin (me : Party) {k : Lock} (hl : l.pc.phase.inside me)
    (hm : Move pi.lock l.pc.phase k pc.phase) (hx : pc = .spinWant me ∨ pc = .spinTurn me ∨ pc = entered me) :
    Frame pi l { pi with lock := k } { l with pc := pc } .quiet where
  move := hm
  flag := by
    intro you h1
    rw [h1] at hl
    exact hl.elim
  writeopen := rfl
  outside := fun _ => ⟨rfl, rfl, rfl, rfl⟩
  starts := by
    intro _ you hc
    rcases hx with rfl | rfl | rfl
    · nomatch hc
    · nomatch hc
    · cases me <;> cases hc <;> rfl

theorem entered_phase (me : Party) : (entered me).phase = .crit me := by cases me <;> rfl

theorem petersonEnter_frame (h : petersonEnter pi l.pc = some (pi', pc)) :
    Frame pi l pi' { l with pc := pc } .quiet := by
  cases hpc : l.pc with
  | want me =>
    rw [hpc] at h
    cases h
    refine ⟨by rw [hpc]; exact .enter me, ?_, rfl, fun _ => ⟨rfl, rfl, rfl, rfl⟩, fun _ _ hc => nomatch hc⟩
    intro you _ hf
    cases hf
    exact hpc
  | turn me =>
    rw [hpc] at h
    cases h
    exact .spin me (by rw [hpc]; rfl) (by rw [hpc]; exact .yieldTurn me) (Or.inl rfl)
  | spinWant me =>
    rw [hpc] at h
    cases h
    refine .spin me (by rw [hpc]; rfl) ?_ ?_ <;> split_ifs with hw
    · rw [hpc]
      exact .wanted me hw
    · rw [hpc, entered_phase]
      exact .unwanted me (Bool.eq_false_iff.2 hw)
    · exact Or.inr (Or.inl rfl)
    · exact Or.inr (Or.inr rfl)
  | spinTurn me =>
    rw [hpc] at h
    cases h
    refine .spin me (by rw [hpc]; rfl) ?_ ?_ <;> split_ifs with ht
    · rw [hpc]
      exact .retry me ht
    · rw [hpc, entered_phase]
      exact .pass me ht
    · exact Or.inl rfl
    · exact Or.inr (Or.inr rfl)
  | _ => rw [hpc] at h; nomatch h

theorem pipewrite_frame (h : pipewrite pi e l = some (pi', l', ev)) : Frame pi l pi' l' ev := by
  have hidle : ∀ v, (l.return_ v).pc = .idle := fun _ => rfl
  unfold pipewrite at h
  split at h
  case h_1 hpc =>
    have hret : ∀ v, Frame pi l pi (l.return_ v) .quiet := fun v =>
      .stay (hidle v) (by rw [hpc]; rfl)
    split_ifs at h <;> cases h
    · exact hret _
    · exact hret _
    · exact .stay rfl (by rw [hpc]; rfl)
    · exact hret _
  case h_2 hpc =>
    cases h
    split_ifs <;> exact .stay rfl (by rw [hpc]; rfl)
  case h_3 hpc =>
    cases h
    exact .exit (by rw [hpc]; rfl) rfl _
  case h_5 nw hpc =>
    cases h
    split_ifs <;> exact .stay rfl (by rw [hpc]; rfl)
  case h_6 hpc =>
    cases h
    exact .exit (by rw [hpc]; rfl) rfl _
  case h_8 t hpc =>
    split_ifs at h <;> cases h <;> exact .inside (by rw [hpc]; rfl) rfl rfl rfl
  case h_9 t hpc | h_10 t hpc =>
    cases h
    exact .inside (by rw [hpc]; rfl) rfl rfl rfl
  case h_11 hpc =>
    cases h
    exact .exit (by rw [hpc]; rfl) rfl _
  case h_12 => nomatch h
  case h_4 hpc | h_7 hpc =>
    cases h
    exact .stay rfl (by rw [hpc]; rfl)

theorem piperead_frame (h : piperead pi e l = some (pi', l', ev)) : Frame pi l pi' l' ev := by
  have hidle : ∀ v, (l.return_ v).pc = .idle := fun _ => rfl
  unfold piperead at h
  split at h
  case h_1 hpc =>
    have hret : ∀ v, Frame pi l pi (l.return_ v) .quiet := fun v =>
      .stay (hidle v) (by rw [hpc]; rfl)
    split_ifs at h <;> cases h
    · exact hret _
    · exact .stay rfl (by rw [hpc]; rfl)
    · exact hret _
  case h_2 hpc =>
    cases h
    exact .stay rfl (by rw [hpc]; rfl)
  case h_3 nr hpc | h_4 hpc =>
    cases h
    split_ifs <;> exact .stay rfl (by rw [hpc]; rfl)
  case h_5 hpc | h_6 hpc =>
    cases h
    exact .exit (by rw [hpc]; rfl) rfl _
  case h_7 hpc | h_8 t hpc | h_9 c hpc =>
    cases h
    exact .stay rfl (by rw [hpc]; rfl)
  case h_10 c t hpc =>
    cases h
    exact .inside (by rw [hpc]; rfl) rfl rfl rfl
  case h_11 c hpc =>
    split_ifs at h <;> cases h <;> exact .exit (by rw [hpc]; rfl) rfl _
  case h_12 => nomatch h

/-- Every step of a process keeps to its frame. -/
theorem step_frame (h : l.step pi a = some (pi', l', ev)) : Frame pi l pi' l' ev := by
  cases goes_of_step h with
  | write hpc | read hpc => exact .stay rfl (by rw [hpc]; rfl)
  | enter hent => exact petersonEnter_frame hent
  | writes h => exact pipewrite_frame h
  | reads h => exact piperead_frame h

/-! ### The ring buffer -/

/-- `S` is every byte stored so far and `T` every byte removed: the removed ones are the first of the stored ones, the rest fit in
the buffer, `nread` counts the removed ones and the rest lie in the buffer from there on. -/
structure Ring (pi : Pipe) (S T : List Byte) : Prop where
  taken : T <+: S
  room : S.length ≤ T.length + PIPESIZE
  nread : pi.nread = BitVec.ofNat 32 T.length
  data : ∀ (j : Nat) (h : j < S.length), T.length ≤ j → pi.data (slot (BitVec.ofNat 32 j)) = S[j]

/-- `nwrite` counts the stored bytes, except that it is one ahead while a writer has reserved a place and not filled it. -/
def Count (pi : Pipe) (S : List Byte) (l : PipeProc) : Prop :=
  (∃ t, l.pc = .wData t) ∨ pi.nwrite = BitVec.ofNat 32 S.length

/-- What a process knows at each place from the values it has loaded. -/
def Known (pi : Pipe) (S T : List Byte) (l : PipeProc) : Prop :=
  match l.pc with
  | .wNread nw => nw = pi.nwrite
  | .wSlot => S.length < T.length + PIPESIZE
  | .wStore t => S.length < T.length + PIPESIZE ∧ t = BitVec.ofNat 32 S.length
  | .wData t => S.length < T.length + PIPESIZE ∧ t = BitVec.ofNat 32 S.length ∧ pi.nwrite = t + 1
  | .wIncr t => S.length < T.length + PIPESIZE ∧ t = BitVec.ofNat 32 S.length ∧ pi.data (slot t) = l.ch
  | .rNwrite nr => nr = pi.nread
  | .rOpen => S.length = T.length
  | .rEof => S.length = T.length ∧ pi.writeopen = false
  | .rSlot => T.length < S.length
  | .rData t => T.length < S.length ∧ t = pi.nread
  | .rLoad c => S[T.length]? = some c
  | .rStore c t => S[T.length]? = some c ∧ t = pi.nread
  | _ => True

/-- The stored bytes after a step. -/
def storedAfter (S : List Byte) (l : PipeProc) : PipeEvent → List Byte
  | .stored => S ++ [l.ch]
  | _ => S

/-- The removed bytes after a step. -/
def takenAfter (T : List Byte) : PipeEvent → List Byte
  | .took c => T ++ [c]
  | _ => T

theorem slot_ofNat (j : Nat) : (slot (BitVec.ofNat 32 j)).val = j % PIPESIZE := by
  simp only [slot, BitVec.toNat_ofNat, PIPESIZE]
  omega

theorem slot_ne {j k : Nat} (hjk : j < k) (hk : k < j + PIPESIZE) : slot (BitVec.ofNat 32 j) ≠ slot (BitVec.ofNat 32 k) := by
  intro h
  have h' := congrArg Fin.val h
  rw [slot_ofNat, slot_ofNat] at h'
  simp only [PIPESIZE] at h' hk
  omega

theorem ofNat_succ (n : Nat) : (BitVec.ofNat 32 n + 1 : Uint) = BitVec.ofNat 32 (n + 1) := by
  rw [BitVec.ofNat_add]
  rfl

/-- Two counters at most a buffer apart are equal only if the counts are. -/
theorem eq_of_ofNat_eq {m n : Nat} (h : BitVec.ofNat 32 m = BitVec.ofNat 32 n) (hmn : m ≤ n) (hn : n ≤ m + PIPESIZE) : m = n := by
  have h' := congrArg BitVec.toNat h
  simp only [BitVec.toNat_ofNat, PIPESIZE] at h' hn
  omega

variable {S T : List Byte} {c : Byte}

/-- Storing a byte at the next place of a buffer that is not full. -/
theorem Ring.setData (h : Ring pi S T) (hroom : S.length < T.length + PIPESIZE) (c : Byte) :
    Ring (pi.setData (BitVec.ofNat 32 S.length) c) S T where
  taken := h.taken
  room := h.room
  nread := h.nread
  data := by
    intro j hj hTj
    have hne := slot_ne hj (by omega)
    exact (update_of_ne hne _ _).trans (h.data j hj hTj)

/-- Publishing the byte that lies at the next place. -/
theorem Ring.push (h : Ring pi S T) (hroom : S.length < T.length + PIPESIZE)
    (hc : pi.data (slot (BitVec.ofNat 32 S.length)) = c) : Ring pi (S ++ [c]) T where
  taken := h.taken.trans (prefix_append _ _)
  room := by
    rw [length_append, length_singleton]
    omega
  nread := h.nread
  data := by
    intro j hj hTj
    rw [length_append, length_singleton] at hj
    by_cases he : j = S.length
    · subst he
      rw [hc, getElem_concat_length rfl]
    · rw [getElem_append_left (by omega)]
      exact h.data j (by omega) hTj

/-- Removing the oldest byte. -/
theorem Ring.pop (h : Ring pi S T) (hc : S[T.length]? = some c) :
    Ring { pi with nread := BitVec.ofNat 32 T.length + 1 } S (T ++ [c]) where
  taken := by
    obtain ⟨hlt, hget⟩ := List.getElem?_eq_some_iff.1 hc
    have ht := List.prefix_iff_eq_take.1 h.taken
    rw [← hget]
    nth_rewrite 1 [ht]
    rw [← take_succ_eq_append_getElem hlt]
    exact take_prefix _ _
  room := by
    have := h.room
    rw [length_append]
    omega
  nread := by
    rw [ofNat_succ, length_append, length_singleton]
  data := by
    intro j hj hTj
    rw [length_append] at hTj
    exact h.data j hj (by omega)

/-- The buffer does not depend on the lock, `nwrite` or the flags. -/
theorem Ring.congr (h : Ring pi S T) (h1 : pi'.data = pi.data) (h2 : pi'.nread = pi.nread) : Ring pi' S T where
  taken := h.taken
  room := h.room
  nread := h2 ▸ h.nread
  data := by
    rw [h1]
    exact h.data

/-- The part of the invariant that is about the buffer, for the process that is in its critical section. -/
structure Held (pi : Pipe) (S T : List Byte) (l : PipeProc) : Prop where
  ring : Ring pi S T
  count : Count pi S l
  known : Known pi S T l

theorem Ring.length_le (h : Ring pi S T) : T.length ≤ S.length := h.taken.length_le

/-- A step that leaves the buffer, the counters and the history alone. -/
theorem Held.quiet (h : Held pi S T l) (hl : ∀ t, l.pc ≠ .wData t) (h1 : pi'.data = pi.data)
    (h2 : pi'.nread = pi.nread) (h3 : pi'.nwrite = pi.nwrite) (hx : Known pi' S T x) : Held pi' S T x where
  ring := h.ring.congr h1 h2
  count := by
    rcases h.count with ⟨t, ht⟩ | hc
    · exact absurd ht (hl t)
    · exact Or.inr (h3.trans hc)
  known := hx

theorem Held.nwrite (h : Held pi S T l) (hl : ∀ t, l.pc ≠ .wData t) : pi.nwrite = BitVec.ofNat 32 S.length := by
  rcases h.count with ⟨t, ht⟩ | hc
  · exact absurd ht (hl t)
  · exact hc

theorem pipewrite_held (h : pipewrite pi e l = some (pi', l', ev)) (hcrit : l.pc.phase = .crit me)
    (hh : Held pi S T l) : Held pi' (storedAfter S l ev) (takenAfter T ev) l' := by
  have hk := hh.known
  have hr := hh.ring
  unfold pipewrite at h
  unfold Known at hk
  split at h
  all_goals rename_i hpc
  all_goals try (rw [hpc] at hk hcrit; cases hcrit)
  all_goals try
    have hnw : ∀ t, l.pc ≠ .wData t := by simp [hpc]
    have hw := hh.nwrite hnw
  case h_2 =>
    cases h
    split_ifs <;> exact hh.quiet hnw rfl rfl rfl trivial
  case h_3 =>
    cases h
    exact hh.quiet hnw rfl rfl rfl trivial
  case h_4 =>
    cases h
    exact hh.quiet hnw rfl rfl rfl rfl
  case h_5 nw =>
    cases h
    refine hh.quiet hnw rfl rfl rfl ?_
    split_ifs with hfull
    · trivial
    · refine lt_of_le_of_ne hr.room fun hlen => hfull ?_
      rw [hk, hw, hlen, BitVec.ofNat_add, hr.nread]
  case h_6 =>
    cases h
    exact hh.quiet hnw rfl rfl rfl trivial
  case h_7 =>
    cases h
    exact hh.quiet hnw rfl rfl rfl ⟨hk, hw⟩
  case h_8 t =>
    obtain ⟨hroom, rfl⟩ := hk
    split_ifs at h <;> cases h
    · exact ⟨hr.setData hroom _, Or.inr hw, hroom, rfl, update_self ..⟩
    · exact ⟨hr.congr rfl rfl, Or.inl ⟨_, rfl⟩, hroom, rfl, rfl⟩
  case h_9 t =>
    obtain ⟨hroom, rfl, hw⟩ := hk
    cases h
    refine ⟨(hr.setData hroom l.ch).push hroom (update_self ..), Or.inr ?_, trivial⟩
    rw [storedAfter, length_append, length_singleton, ← ofNat_succ]
    exact hw
  case h_10 t =>
    obtain ⟨hroom, rfl, hdata⟩ := hk
    cases h
    refine ⟨(hr.push hroom hdata).congr rfl rfl, Or.inr ?_, trivial⟩
    rw [storedAfter, length_append, length_singleton, ← ofNat_succ]
  case h_11 =>
    cases h
    exact hh.quiet hnw rfl rfl rfl trivial
  case h_12 => nomatch h

theorem piperead_held (h : piperead pi e l = some (pi', l', ev)) (hcrit : l.pc.phase = .crit me)
    (hh : Held pi S T l) : Held pi' (storedAfter S l ev) (takenAfter T ev) l' := by
  have hk := hh.known
  have hr := hh.ring
  unfold piperead at h
  unfold Known at hk
  split at h
  all_goals rename_i hpc
  all_goals try (rw [hpc] at hk hcrit; cases hcrit)
  all_goals try
    have hnw : ∀ t, l.pc ≠ .wData t := by simp [hpc]
    have hw := hh.nwrite hnw
  case h_2 =>
    cases h
    exact hh.quiet hnw rfl rfl rfl rfl
  case h_3 nr =>
    cases h
    refine hh.quiet hnw rfl rfl rfl ?_
    split_ifs with hempty
    · rw [hk, hr.nread, hw] at hempty
      exact (eq_of_ofNat_eq hempty hr.length_le hr.room).symm
    · refine lt_of_le_of_ne hr.length_le fun hlen => hempty ?_
      rw [hk, hw, hr.nread, hlen]
  case h_4 =>
    cases h
    refine hh.quiet hnw rfl rfl rfl ?_
    split_ifs with hopen
    · trivial
    · exact ⟨hk, Bool.eq_false_iff.2 hopen⟩
  case h_5 | h_6 =>
    cases h
    exact hh.quiet hnw rfl rfl rfl trivial
  case h_7 =>
    cases h
    exact hh.quiet hnw rfl rfl rfl ⟨hk, rfl⟩
  case h_8 t =>
    obtain ⟨hlt, rfl⟩ := hk
    cases h
    refine hh.quiet hnw rfl rfl rfl ?_
    show S[T.length]? = some _
    rw [getElem?_eq_getElem hlt, hr.nread, hr.data _ hlt le_rfl]
  case h_9 c =>
    cases h
    exact hh.quiet hnw rfl rfl rfl ⟨hk, rfl⟩
  case h_10 c t =>
    obtain ⟨hget, rfl⟩ := hk
    cases h
    refine ⟨?_, Or.inr hw, trivial⟩
    rw [hr.nread]
    exact hr.pop hget
  case h_11 c =>
    split_ifs at h <;> cases h <;> exact hh.quiet hnw rfl rfl rfl trivial
  case h_12 => nomatch h

/-- A step of the process that is in its critical section. -/
theorem step_held (h : l.step pi a = some (pi', l', ev)) (hcrit : l.pc.phase = .crit me) (hh : Held pi S T l) :
    Held pi' (storedAfter S l ev) (takenAfter T ev) l' := by
  cases goes_of_step h with
  | write hpc | read hpc =>
    rw [hpc] at hcrit
    nomatch hcrit
  | enter hent =>
    unfold petersonEnter at hent
    split at hent <;> rename_i hpc <;> first | cases hent; done | (rw [hpc] at hcrit; nomatch hcrit)
  | writes h => exact pipewrite_held h hcrit hh
  | reads h => exact piperead_held h hcrit hh

/-! ### The history -/

/-- What a step must have done to add to the history: a byte is stored on the way to `peterson_exit` and counted on leaving it. -/
def Noted (l l' : PipeProc) : PipeEvent → Prop
  | .stored => l.pc ≠ .wExit ∧ l'.pc = .wExit ∧ l'.call = l.call ∧ l'.ch = l.ch
  | .counted => l.pc = .wExit ∧ l'.pc ≠ .wExit
  | _ => l.pc ≠ .wExit ∧ l'.pc ≠ .wExit

theorem pipewrite_noted (h : pipewrite pi e l = some (pi', l', ev)) : Noted l l' ev := by
  unfold pipewrite at h
  split at h <;> rename_i hpc <;> try split_ifs at h
  all_goals cases h
  all_goals first
    | exact ⟨by simp [hpc], rfl, rfl, rfl⟩
    | exact ⟨hpc, nofun⟩
    | exact ⟨by simp [hpc], nofun⟩

theorem piperead_noted (h : piperead pi e l = some (pi', l', ev)) : Noted l l' ev := by
  unfold piperead at h
  split at h <;> rename_i hpc <;> try split_ifs at h
  all_goals cases h
  all_goals exact ⟨by simp [hpc], nofun⟩

theorem petersonEnter_noted (h : petersonEnter pi l.pc = some (pi', pc)) : Noted l { l with pc := pc } .quiet := by
  have hent : ∀ me, entered me ≠ .wExit := fun me => by cases me <;> nofun
  unfold petersonEnter at h
  split at h <;> rename_i hpc <;> cases h
  · exact ⟨by simp [hpc], nofun⟩
  · exact ⟨by simp [hpc], nofun⟩
  all_goals
    refine ⟨by simp [hpc], ?_⟩
    dsimp only
    split_ifs
    · nofun
    · exact hent _

theorem step_noted (h : l.step pi a = some (pi', l', ev)) : Noted l l' ev := by
  cases goes_of_step h with
  | write hpc | read hpc => exact ⟨by simp [hpc], nofun⟩
  | enter hent => exact petersonEnter_noted hent
  | writes h => exact pipewrite_noted h
  | reads h => exact piperead_noted h

/-! ### The side a process is on -/

/-- A call of `pipewrite` or `piperead` puts the process on its side, the first only while the write end is open; after that the
process stays on its side until the call returns. -/
def Sided (pi : Pipe) (l l' : PipeProc) : PipeAct → Prop
  | .write _ => pi.writeopen = true ∧ l'.pc.side = some writer
  | .read _ => l'.pc.side = some reader
  | .go _ => l'.pc.side = none ∨ l'.pc.side = l.pc.side

theorem pipewrite_side (h : pipewrite pi e l = some (pi', l', ev)) : l'.pc.side = none ∨ l'.pc.side = l.pc.side := by
  unfold pipewrite at h
  split at h <;> rename_i hpc <;> try split_ifs at h
  all_goals cases h
  all_goals first
    | exact Or.inl rfl
    | (rw [hpc]; exact Or.inr rfl)

theorem piperead_side (h : piperead pi e l = some (pi', l', ev)) : l'.pc.side = none ∨ l'.pc.side = l.pc.side := by
  unfold piperead at h
  split at h <;> rename_i hpc <;> try split_ifs at h
  all_goals cases h
  all_goals first
    | exact Or.inl rfl
    | (rw [hpc]; exact Or.inr rfl)

theorem petersonEnter_side (h : petersonEnter pi l.pc = some (pi', pc)) : pc.side = l.pc.side := by
  have hent : ∀ me, (entered me).side = some me := fun me => by cases me <;> rfl
  unfold petersonEnter at h
  split at h <;> rename_i hpc <;> cases h <;> rw [hpc]
  · rfl
  · rfl
  all_goals split_ifs
  all_goals first | rfl | exact hent _

theorem step_side (h : l.step pi a = some (pi', l', ev)) : Sided pi l l' a := by
  cases goes_of_step h with
  | write _ hopen => exact ⟨hopen, rfl⟩
  | read => rfl
  | enter hent => exact Or.inr (petersonEnter_side hent)
  | writes h => exact pipewrite_side h
  | reads h => exact piperead_side h

/-- No call of `pipewrite` starts once the write end is closed. -/
theorem side_of_closed (hc : pi.writeopen = false) (hl : l.pc.side ≠ some writer) (h : l.step pi a = some (pi', l', ev)) :
    l'.pc.side ≠ some writer := by
  have hs := step_side h
  cases a with
  | write => exact absurd hs.1 (by rw [hc]; nofun)
  | read =>
    rw [show l'.pc.side = some reader from hs]
    nofun
  | go =>
    rcases hs with hs | hs
    · rw [hs]
      nofun
    · rwa [hs]

/-! ### The invariant -/

variable {P : Type} {s : PipeSys P} {p : P}

/-- The bytes stored so far. -/
def bytes (s : PipeSys P) : List Byte := s.stored.map Prod.snd

/-- The invariant of the pipe: the lock's, the buffer's, what each process knows, that nobody writes to a closed end, and that
the bytes stored by each call are those it has counted and the one in flight. -/
structure Inv [DecidableEq P] (s : PipeSys P) : Prop where
  lock : Peterson.Inv s.pipe.lock (fun p => (s.proc p).pc.phase)
  ring : Ring s.pipe (bytes s) s.taken
  count : s.Reserved ∨ s.pipe.nwrite = BitVec.ofNat 32 (bytes s).length
  known : ∀ p, Known s.pipe (bytes s) s.taken (s.proc p)
  closed : s.pipe.writeopen = false → ∀ p, (s.proc p).pc.side ≠ some writer
  counted : ∀ k, (s.stored.filter (fun x => x.1 = k)).map Prod.snd = s.counted k ++ s.inFlight k

/-- A process outside its critical section knows nothing. -/
theorem known_of_not_crit (h : ∀ me, l.pc.phase ≠ .crit me) : Known pi S T l := by
  unfold Known
  split <;> rename_i hpc <;> first | trivial | (rw [hpc] at h; exact absurd rfl (h _))

theorem known_entered (h : l.pc = entered me) : Known pi S T l := by
  unfold Known
  rw [h]
  cases me <;> trivial

/-- What a process knows depends on the buffer, the counters and `writeopen` alone. -/
theorem Known.congr (h : Known pi S T l) (h1 : pi'.data = pi.data) (h2 : pi'.nread = pi.nread) (h3 : pi'.nwrite = pi.nwrite)
    (h4 : pi.writeopen = false → pi'.writeopen = false) : Known pi' S T l := by
  unfold Known at h ⊢
  rw [h1, h2, h3]
  split at h <;> first | exact h | exact ⟨h.1, h4 h.2⟩

theorem inFlight_of_ne (h : (s.proc p).pc ≠ .wExit) (c : Nat) : s.inFlight (p, c) = [] := by
  unfold PipeSys.inFlight
  split
  · exact absurd ‹_› h
  · rfl

theorem inFlight_exit (h : (s.proc p).pc = .wExit) (c : Nat) :
    s.inFlight (p, c) = if (s.proc p).call = c then [(s.proc p).ch] else [] := by
  unfold PipeSys.inFlight
  rw [h]

variable [DecidableEq P]

theorem inv_init (h : PipeInit s) : Inv s := by
  obtain ⟨data, hpipe⟩ := h.pipe
  have hb : bytes s = [] := by rw [bytes, h.stored, map_nil]
  have hphase : (fun p => (s.proc p).pc.phase) = fun _ => Phase.out := funext fun p => by rw [h.idle p]; rfl
  refine ⟨?_, ?_, ?_, ?_, ?_, ?_⟩
  · rw [hphase, hpipe]
    exact Peterson.Inv.init _
  · rw [hb, h.taken, hpipe]
    exact ⟨prefix_rfl, Nat.zero_le _, rfl, fun j hj => absurd hj (Nat.not_lt_zero j)⟩
  · rw [hb, hpipe]
    exact Or.inr rfl
  · intro p
    exact known_of_not_crit (by rw [h.idle p]; nofun)
  · intro _ p
    rw [h.idle p]
    nofun
  · intro k
    rw [h.stored, h.counted k, PipeSys.inFlight, h.idle]
    rfl

/-- The process in its critical section sees the whole buffer. -/
theorem Inv.held (h : Inv s) (hp : (s.proc p).pc.phase = .crit me) :
    Held s.pipe (bytes s) s.taken (s.proc p) where
  ring := h.ring
  count := by
    rcases h.count with ⟨q, t, hq⟩ | hc
    · have : p = q := h.lock.mutex hp (by rw [hq]; rfl)
      exact Or.inl ⟨t, this ▸ hq⟩
    · exact Or.inr hc
  known := h.known p

theorem bytes_after (s : PipeSys P) (p : P) (r : Pipe × PipeProc × PipeEvent) :
    bytes (s.after p r) = storedAfter (bytes s) (s.proc p) r.2.2 := by
  obtain ⟨pi', l', ev⟩ := r
  cases ev <;> simp [bytes, PipeSys.after, storedAfter]

theorem taken_after (s : PipeSys P) (p : P) (r : Pipe × PipeProc × PipeEvent) :
    (s.after p r).taken = takenAfter s.taken r.2.2 := by
  obtain ⟨pi', l', ev⟩ := r
  cases ev <;> rfl

theorem phase_after (s : PipeSys P) (p : P) (r : Pipe × PipeProc × PipeEvent) :
    (fun q => ((s.after p r).proc q).pc.phase) = update (fun q => (s.proc q).pc.phase) p r.2.1.pc.phase :=
  funext fun _ => Function.apply_update (fun _ (x : PipeProc) => x.pc.phase) s.proc p r.2.1 _

theorem proc_after (p : P) : (s.after p (pi', l', ev)).proc p = l' := update_self ..

theorem proc_after_of_ne {p q : P} (h : q ≠ p) : (s.after p (pi', l', ev)).proc q = s.proc q := update_of_ne h ..

/-- A step of one process does not touch the history of another's calls. -/
theorem counted_after_of_ne (h : Inv s) {p q : P} (hq : q ≠ p) (c : Nat) :
    ((s.after p (pi', l', ev)).stored.filter (fun x => x.1 = (q, c))).map Prod.snd =
      (s.after p (pi', l', ev)).counted (q, c) ++ (s.after p (pi', l', ev)).inFlight (q, c) := by
  have hk := h.counted (q, c)
  have hflight : (s.after p (pi', l', ev)).inFlight (q, c) = s.inFlight (q, c) := by
    simp only [PipeSys.inFlight, proc_after_of_ne hq]
  rw [hflight]
  cases ev with
  | quiet | took => exact hk
  | stored => simpa [PipeSys.after, filter_append, hq.symm] using hk
  | counted => simpa [PipeSys.after, hq] using hk

/-- A byte a call stores is in flight, and counting it takes it out of flight. -/
theorem counted_after (h : Inv s) (hn : Noted (s.proc p) l' ev) (c : Nat) :
    ((s.after p (pi', l', ev)).stored.filter (fun x => x.1 = (p, c))).map Prod.snd =
      (s.after p (pi', l', ev)).counted (p, c) ++ (s.after p (pi', l', ev)).inFlight (p, c) := by
  have hk := h.counted (p, c)
  cases ev with
  | quiet | took =>
    rw [inFlight_of_ne hn.1] at hk
    rw [inFlight_of_ne (by rw [proc_after]; exact hn.2)]
    exact hk
  | stored =>
    obtain ⟨hne, hexit, hcall, hch⟩ := hn
    rw [inFlight_of_ne hne] at hk
    rw [inFlight_exit (by rw [proc_after]; exact hexit), proc_after, hcall, hch]
    by_cases hc : (s.proc p).call = c <;> simp [PipeSys.after, filter_append, hc, hk]
  | counted =>
    obtain ⟨hexit, hne⟩ := hn
    rw [inFlight_exit hexit] at hk
    rw [inFlight_of_ne (by rw [proc_after]; exact hne)]
    by_cases hc : (s.proc p).call = c
    · subst hc
      simp [PipeSys.after, hk]
    · rw [if_neg hc] at hk
      simpa [PipeSys.after, Ne.symm hc] using hk

/-- A step of a process keeps the invariant, if it raises no flag that another process of the same side still holds. -/
theorem inv_proc (h : Inv s) (hstep : (s.proc p).step s.pipe a = some (pi', l', ev))
    (hone : OnePerSide s (.proc p a)) : Inv (s.after p (pi', l', ev)) := by
  have hf := step_frame hstep
  have hlock : Peterson.Inv pi'.lock (update (fun q => (s.proc q).pc.phase) p l'.pc.phase) :=
    h.lock.move hf.move fun me hout hflag => hone me (hf.flag me hout hflag)
  rw [← phase_after s p (pi', l', ev)] at hlock
  have hclosed : pi'.writeopen = false → ∀ q, ((s.after p (pi', l', ev)).proc q).pc.side ≠ some writer := by
    intro hc q
    rw [hf.writeopen] at hc
    by_cases hq : q = p
    · subst hq
      rw [proc_after]
      exact side_of_closed hc (h.closed hc q) hstep
    · rw [proc_after_of_ne hq]
      exact h.closed hc q
  have hcounted : ∀ k, ((s.after p (pi', l', ev)).stored.filter (fun x => x.1 = k)).map Prod.snd =
      (s.after p (pi', l', ev)).counted k ++ (s.after p (pi', l', ev)).inFlight k := by
    rintro ⟨q, c⟩
    by_cases hq : q = p
    · subst hq
      exact counted_after h (step_noted hstep) c
    · exact counted_after_of_ne h hq c
  by_cases hcrit : ∃ me, (s.proc p).pc.phase = .crit me
  · obtain ⟨me, hcrit⟩ := hcrit
    have hheld := step_held hstep hcrit (h.held hcrit)
    rw [← bytes_after s p (pi', l', ev), ← taken_after s p (pi', l', ev)] at hheld
    refine ⟨hlock, hheld.ring, ?_, ?_, hclosed, hcounted⟩
    · rcases hheld.count with ⟨t, ht⟩ | hc
      · exact Or.inl ⟨p, t, by rw [proc_after]; exact ht⟩
      · exact Or.inr hc
    · intro q
      by_cases hq : q = p
      · subst hq
        rw [proc_after]
        exact hheld.known
      · rw [proc_after_of_ne hq]
        exact known_of_not_crit fun you hyou => hq (h.lock.mutex hyou hcrit)
  · have hout : ∀ me, (s.proc p).pc.phase ≠ .crit me := fun me hme => hcrit ⟨me, hme⟩
    obtain ⟨h1, h2, h3, rfl⟩ := hf.outside hout
    refine ⟨hlock, h.ring.congr h1 h2, ?_, ?_, hclosed, hcounted⟩
    · rcases h.count with ⟨q, t, hq⟩ | hc
      · have hqp : q ≠ p := fun e => hout writer (by rw [← e, hq]; rfl)
        exact Or.inl ⟨q, t, by rw [proc_after_of_ne hqp]; exact hq⟩
      · exact Or.inr (h3.trans hc)
    · intro q
      by_cases hq : q = p
      · subst hq
        rw [proc_after]
        by_cases hin : ∃ me, l'.pc.phase = .crit me
        · obtain ⟨me, hme⟩ := hin
          exact known_entered (hf.starts hout me hme)
        · exact known_of_not_crit fun me hme => hin ⟨me, hme⟩
      · rw [proc_after_of_ne hq]
        exact (h.known q).congr h1 h2 h3 fun hc => hf.writeopen.trans hc

theorem inv_closeWrite (h : Inv s) (hnone : ∀ p, (s.proc p).pc.side ≠ some writer) :
    Inv { s with pipe := { s.pipe with writeopen := false } } where
  lock := h.lock
  ring := h.ring.congr rfl rfl
  count := h.count
  known := fun p => (h.known p).congr rfl rfl rfl fun _ => rfl
  closed := fun _ => hnone
  counted := h.counted

theorem inv_closeRead (h : Inv s) : Inv { s with pipe := { s.pipe with readopen := false } } where
  lock := h.lock
  ring := h.ring.congr rfl rfl
  count := h.count
  known := fun p => (h.known p).congr rfl rfl rfl id
  closed := h.closed
  counted := h.counted

theorem inv_step {s t : PipeSys P} {label : PipeLabel P} (h : Inv s) (hstep : Guarded OnePerSide PipeStep s label t) :
    Inv t := by
  obtain ⟨hone, hstep⟩ := hstep
  cases hstep with
  | proc p a hr => exact inv_proc h hr hone
  | closeWrite hnone => exact inv_closeWrite h hnone
  | closeRead => exact inv_closeRead h

/-- The invariant holds in every state of every run in which each side of the pipe is used by one process at a time. -/
theorem inv_run {s t : PipeSys P} {labels : List (PipeLabel P)} (hinit : PipeInit s)
    (hrun : Run (Guarded OnePerSide PipeStep) s labels t) : Inv t :=
  Run.invariant (I := Inv) (fun _ _ _ h hs => inv_step h hs) hrun (inv_init hinit)

/-! ### What the invariant says of the buffer -/

theorem Inv.published_eq (h : Inv s) : s.published = BitVec.ofNat 32 (bytes s).length := by
  unfold PipeSys.published
  split_ifs with hres
  · obtain ⟨p, t, hp⟩ := hres
    have hk := h.known p
    simp only [Known, hp] at hk
    rw [hk.2.2, ← hk.2.1, BitVec.add_sub_cancel]
  · exact h.count.resolve_left hres

theorem Ring.buffered_eq (h : Ring pi S T) :
    ((range (BitVec.ofNat 32 S.length - pi.nread).toNat).map fun j => pi.data (slot (pi.nread + BitVec.ofNat 32 j))) =
      S.drop T.length := by
  have hle := h.length_le
  have hroom := h.room
  have hlen : (BitVec.ofNat 32 S.length - pi.nread).toNat = S.length - T.length := by
    rw [h.nread]
    simp only [PIPESIZE, BitVec.toNat_sub, BitVec.toNat_ofNat] at hroom ⊢
    omega
  rw [hlen]
  refine ext_getElem (by simp) fun j hj _ => ?_
  rw [length_map, length_range] at hj
  rw [getElem_map, getElem_range, getElem_drop, h.nread, ← BitVec.ofNat_add]
  exact h.data _ (by omega) (by omega)

/-- The bytes removed and those in the buffer are the bytes stored. -/
theorem Inv.taken_append_buffered (h : Inv s) : s.taken ++ s.buffered = bytes s := by
  rw [PipeSys.buffered, h.published_eq, h.ring.buffered_eq]
  nth_rewrite 1 [prefix_iff_eq_take.1 h.ring.taken]
  exact take_append_drop ..

theorem Inv.noLostBytes (h : Inv s) : s.NoLostBytes :=
  ⟨s.stored, h.taken_append_buffered.symm, h.counted⟩

/-- The counters are at most a buffer apart, also across the wrap of either. -/
theorem Inv.nwrite_sub_nread (h : Inv s) : (s.pipe.nwrite - s.pipe.nread).toNat ≤ PIPESIZE := by
  have hroom := h.ring.room
  have hle := h.ring.length_le
  rw [h.ring.nread]
  rcases h.count with ⟨p, t, hp⟩ | hc
  · have hk := h.known p
    simp only [Known, hp] at hk
    obtain ⟨hlt, ht, hw⟩ := hk
    rw [hw, ht, ofNat_succ]
    simp only [PIPESIZE, BitVec.toNat_sub, BitVec.toNat_ofNat] at hlt ⊢
    omega
  · rw [hc]
    simp only [PIPESIZE, BitVec.toNat_sub, BitVec.toNat_ofNat] at hroom ⊢
    omega

/-- At the end-of-file exit every stored byte has been taken and the write end is closed. -/
theorem Inv.eof (h : Inv s) (hp : (s.proc p).pc = .rEof) : s.pipe.writeopen = false ∧ s.taken = bytes s := by
  have hk := h.known p
  simp only [Known, hp] at hk
  exact ⟨hk.2, h.ring.taken.eq_of_length hk.1.symm⟩

end PipeAux

end Xv6
