import Xv6.Console
import Xv6.Lib.Circular
import Xv6.Lib.Run

/-!
# The line discipline of the console

The buffer of the console holds what has been committed and not read, and then the unfinished line. Key by key and read by read it does
what the line editor does, for any interleaving, and wherever the indices have wrapped.
-/

namespace Xv6.Console

open Lib List

namespace ConsoleAux

variable {s t : Cons} {P L : List Byte} {c : Byte} {ed : Editor}

/-- The buffer holds the bytes `P` that are committed, and then the unfinished line `L`. -/
structure Holds (s : Cons) (P L : List Byte) : Prop where
  queue : Queue s.buf INPUT_BUF_SIZE s.r s.e (P ++ L)
  w : s.w = s.r + BitVec.ofNat 32 P.length
  line : ∀ c ∈ L, c ≠ NEWLINE ∧ c ≠ ctrl 'D'
  full : P.length + L.length = INPUT_BUF_SIZE → L = []

/-- The size of the buffer divides the range of the indices. -/
theorem size_dvd : INPUT_BUF_SIZE ∣ 2 ^ 32 := by decide

theorem size_lt : INPUT_BUF_SIZE < 2 ^ 32 := by decide

namespace Holds

/-! ## Indices -/

section

variable (h : Holds s P L)

include h

theorem le : P.length + L.length ≤ INPUT_BUF_SIZE := by
  have := h.queue.length_le
  rwa [length_append] at this

theorem sub_e : (s.e - s.r).toNat = P.length + L.length := by
  rw [h.queue.sub size_lt, length_append]

/-- What is committed, as a queue of its own. -/
theorem committed : Queue s.buf INPUT_BUF_SIZE s.r s.w P := ⟨h.queue.stored.of_append, h.w⟩

/-- The line, as a queue of its own. -/
theorem unfinished : Queue s.buf INPUT_BUF_SIZE s.w s.e L := by
  rw [h.w]
  exact h.queue.drop size_dvd

theorem w_eq_iff : s.r = s.w ↔ P = [] := h.committed.eq_iff size_lt

theorem e_eq_iff : s.e = s.w ↔ L = [] := eq_comm.trans (h.unfinished.eq_iff size_lt)

theorem between_rw : s.between s.r s.w = P := h.committed.eq_map size_dvd size_lt

theorem between_we : s.between s.w s.e = L := h.unfinished.eq_map size_dvd size_lt

end

/-! ## Keys -/

/-- The last character of the line, and the line without it. -/
theorem erase_last (h : Holds s P (L ++ [c])) : s.buf (slot (s.e - 1)) = c ∧ Holds (s.withE (s.e - 1)).backspace P L := by
  have hqueue := h.queue
  rw [← append_assoc] at hqueue
  obtain ⟨hlast, hrest⟩ := hqueue.unpush size_dvd
  refine ⟨hlast, hrest, h.w, fun d hd => h.line d (mem_append_left _ hd), fun hfull => ?_⟩
  have := h.le
  rw [length_append, length_singleton] at this
  omega

section

variable (h : Holds s P L)

include h

/-- Control-U takes away the line. -/
theorem killLoop : Holds (Cons.killLoop L.length s) P [] := by
  induction L using reverseRecOn generalizing s with
  | nil => exact h
  | append_singleton L c ih =>
    obtain ⟨hlast, hrest⟩ := h.erase_last
    have hne : s.e ≠ s.w := fun heq => concat_ne_nil c L (h.e_eq_iff.1 heq)
    have hc := (h.line c (mem_append_right L (mem_singleton_self c))).1
    rw [length_append, length_singleton, Cons.killLoop, hlast, if_pos ⟨hne, hc⟩]
    exact ih hrest

theorem kill : Holds s.kill P [] := by
  unfold Cons.kill
  rw [h.unfinished.sub size_lt]
  exact h.killLoop

theorem erase : Holds s.erase P L.dropLast := by
  unfold Cons.erase
  rcases eq_nil_or_concat L with rfl | ⟨L, c, rfl⟩
  · rw [if_neg (not_not.2 (h.e_eq_iff.2 rfl))]
    exact h
  · rw [concat_eq_append] at *
    have hne : s.e ≠ s.w := fun heq => concat_ne_nil c L (h.e_eq_iff.1 heq)
    rw [if_pos hne, dropLast_concat]
    exact h.erase_last.2

/-- A character is put behind the line. -/
theorem pushed (hlt : P.length + L.length < INPUT_BUF_SIZE) (c : Byte) :
    Queue ((s.consputc c).put c).buf INPUT_BUF_SIZE s.r (s.e + 1) (P ++ (L ++ [c])) := by
  rw [← append_assoc]
  exact h.queue.push size_dvd (by rw [length_append]; exact hlt) c

/-- The character becomes part of the line. -/
theorem put (hlt : P.length + L.length < INPUT_BUF_SIZE) (hc : c ≠ NEWLINE ∧ c ≠ ctrl 'D')
    (hroom : P.length + L.length + 1 ≠ INPUT_BUF_SIZE) : Holds ((s.consputc c).put c) P (L ++ [c]) := by
  refine ⟨h.pushed hlt c, h.w, fun d hd => ?_, fun hfull => ?_⟩
  · rcases mem_append.1 hd with hd | hd
    · exact h.line d hd
    · rw [mem_singleton.1 hd]
      exact hc
  · rw [length_append, length_singleton] at hfull
    omega

/-- The line is committed with the character. -/
theorem putCommit (hlt : P.length + L.length < INPUT_BUF_SIZE) (c : Byte) :
    Holds ((s.consputc c).put c).commit (P ++ (L ++ [c])) [] := by
  have hqueue := h.pushed hlt c
  refine ⟨?_, hqueue.last, fun d hd => absurd hd not_mem_nil, fun _ => rfl⟩
  rw [append_nil]
  exact hqueue

/-- A character that is not for editing, where there is room for it. -/
theorem insert (hc : c ≠ 0) (hlt : P.length + L.length < INPUT_BUF_SIZE) {d : Byte} (hd : d = if c = 13 then NEWLINE else c) :
    if d = NEWLINE ∨ d = ctrl 'D' ∨ P.length + L.length + 1 = INPUT_BUF_SIZE then Holds (s.insert c) (P ++ (L ++ [d])) []
    else Holds (s.insert c) P (L ++ [d]) := by
  have hnext : (((s.consputc d).put d).e - ((s.consputc d).put d).r).toNat = P.length + L.length + 1 := by
    have := (h.pushed hlt d).sub size_lt
    rwa [length_append, length_append, length_singleton, ← Nat.add_assoc] at this
  have hroom : c ≠ 0 ∧ (s.e - s.r).toNat < INPUT_BUF_SIZE := ⟨hc, by rw [h.sub_e]; exact hlt⟩
  unfold Cons.insert
  rw [if_pos hroom, ← hd]
  dsimp only
  rw [hnext]
  by_cases hcommit : d = NEWLINE ∨ d = ctrl 'D' ∨ P.length + L.length + 1 = INPUT_BUF_SIZE
  · rw [if_pos hcommit, if_pos hcommit]
    exact h.putCommit hlt d
  · rw [if_neg hcommit, if_neg hcommit]
    rw [not_or, not_or] at hcommit
    exact h.put hlt ⟨hcommit.1, hcommit.2.1⟩ hcommit.2.2

end

end Holds

/-- The console holds what the editor has not delivered. -/
structure Sim (s : Cons) (ed : Editor) : Prop where
  taken : ed.taken ≤ ed.committed.length
  holds : Holds s (ed.committed.drop ed.taken) ed.line

theorem Sim.pending : ed.pending = (ed.committed.drop ed.taken).length + ed.line.length := by
  unfold Editor.pending
  rw [length_drop]

/-- A key does to the console what it does to the editor. -/
theorem Sim.key (h : Sim s ed) (c : Byte) : Sim (s.consoleintr c) (ed.key c) := by
  have hle := h.holds.le
  rw [← Sim.pending] at hle
  unfold Cons.consoleintr Editor.key
  by_cases hP : c = ctrl 'P'
  · rw [if_pos hP, if_pos (.inr hP)]
    exact h
  rw [if_neg hP]
  by_cases h0 : c = 0
  · subst h0
    have hU : (0 : Byte) ≠ ctrl 'U' := by decide
    have hH : ¬((0 : Byte) = ctrl 'H' ∨ (0 : Byte) = 127) := by decide
    rw [if_neg hU, if_neg hH, if_pos (Or.inl rfl)]
    unfold Cons.insert
    rw [if_neg fun hc => hc.1 rfl]
    exact h
  rw [if_neg (not_or.2 ⟨h0, hP⟩)]
  by_cases hU : c = ctrl 'U'
  · rw [if_pos hU, if_pos hU]
    refine ⟨h.taken, ?_⟩
    exact h.holds.kill
  rw [if_neg hU, if_neg hU]
  by_cases hH : c = ctrl 'H' ∨ c = 127
  · rw [if_pos hH, if_pos hH]
    exact ⟨h.taken, h.holds.erase⟩
  rw [if_neg hH, if_neg hH]
  by_cases hfull : INPUT_BUF_SIZE ≤ ed.pending
  · rw [if_pos hfull]
    unfold Cons.insert
    rw [if_neg fun hc => absurd hc.2 (by rw [h.holds.sub_e, ← Sim.pending]; omega)]
    exact h
  · rw [if_neg hfull]
    have hput := h.holds.insert h0 (by rw [← Sim.pending]; omega) rfl
    rw [← Sim.pending] at hput
    generalize (if c = 13 then NEWLINE else c) = d at hput ⊢
    unfold Editor.add
    split
    · next hcommit =>
      rw [if_pos hcommit] at hput
      refine ⟨by rw [length_append]; exact h.taken.trans (Nat.le_add_right ..), ?_⟩
      dsimp only
      rw [drop_append_of_le_length h.taken]
      exact hput
    · next hkeep =>
      rw [if_neg hkeep] at hput
      exact ⟨h.taken, hput⟩

/-! ## Reads -/

/-- A part of `consoleread` takes from the front of what is committed, and gives what it should. -/
theorem readLoop_eq (target : Nat) (killed : Bool) (n : Nat) (h : Holds s P L) :
    ((readLoop target killed n s).1, (readLoop target killed n s).2.1) = Editor.read target killed n P ∧
      Holds (readLoop target killed n s).2.2 (P.drop (readLoop target killed n s).1.length) L ∧
      (readLoop target killed n s).1.map Item.char = P.take (readLoop target killed n s).1.length ∧
      (readLoop target killed n s).2.2.buf = s.buf := by
  induction n generalizing s P with
  | zero => exact ⟨rfl, h, rfl, rfl⟩
  | succ n ih =>
    cases P with
    | nil =>
      rw [readLoop, if_pos (h.w_eq_iff.2 rfl)]
      exact ⟨rfl, h, rfl, rfl⟩
    | cons c P =>
      have hne : s.r ≠ s.w := fun heq => cons_ne_nil c P (h.w_eq_iff.1 heq)
      obtain ⟨hhead, hqueue⟩ := h.queue.pop size_dvd
      have hhead : s.buf (slot s.r) = c := hhead
      have hrest : Holds (s.withR (s.r + 1)) P L := by
        refine ⟨hqueue, (h.committed.pop size_dvd).2.last, h.line, fun hfull => ?_⟩
        have := h.le
        rw [length_cons] at this
        omega
      rw [readLoop, if_neg hne, Editor.read]
      dsimp only
      rw [hhead]
      by_cases hD : c = ctrl 'D'
      · rw [if_pos hD, if_pos hD]
        by_cases hlt : n + 1 < target
        · have hback : (s.withR (s.r + 1)).withR ((s.withR (s.r + 1)).r - 1) = s := by
            show s.withR (s.r + 1 - 1) = s
            rw [BitVec.add_sub_cancel]
            rfl
          rw [if_pos hlt, if_pos hlt, hback]
          exact ⟨rfl, h, rfl, rfl⟩
        · rw [if_neg hlt, if_neg hlt]
          exact ⟨rfl, hrest, by rw [hD]; rfl, rfl⟩
      · rw [if_neg hD, if_neg hD]
        by_cases hnl : c = NEWLINE
        · rw [if_pos hnl, if_pos hnl]
          exact ⟨rfl, hrest, rfl, rfl⟩
        · rw [if_neg hnl, if_neg hnl]
          obtain ⟨hread, hholds, hitems, hbuf⟩ := ih hrest
          refine ⟨?_, hholds, ?_, hbuf⟩
          · rw [← hread]
          · rw [map_cons, hitems]
            rfl

/-! ## What is not written -/

/-- Only the end of the line differs. -/
structure Kept (s t : Cons) : Prop where
  buf : t.buf = s.buf
  r : t.r = s.r
  w : t.w = s.w

theorem Kept.killLoop (n : Nat) (s : Cons) : Kept s (Cons.killLoop n s) := by
  induction n generalizing s with
  | zero => exact ⟨rfl, rfl, rfl⟩
  | succ n ih =>
    rw [Cons.killLoop]
    split
    · have hrest := ih (s.withE (s.e - 1)).backspace
      exact ⟨hrest.buf, hrest.r, hrest.w⟩
    · exact ⟨rfl, rfl, rfl⟩

theorem Kept.erase (s : Cons) : Kept s s.erase := by
  unfold Cons.erase
  split
  · exact ⟨rfl, rfl, rfl⟩
  · exact ⟨rfl, rfl, rfl⟩

/-- Nothing from the first place to the end of the line is written. -/
def Intact (s t : Cons) : Prop := ∀ j : Uint, (j - s.r).toNat < (s.e - s.r).toNat → t.buf (slot j) = s.buf (slot j)

theorem Intact.of_eq (h : t.buf = s.buf) : Intact s t := fun j _ => by rw [h]

/-- The place behind the line is not one of those in use, as long as there is room. -/
theorem Intact.insert (s : Cons) (c : Byte) : Intact s (s.insert c) := by
  unfold Cons.insert
  by_cases hroom : c ≠ 0 ∧ (s.e - s.r).toNat < INPUT_BUF_SIZE
  · rw [if_pos hroom]
    dsimp only
    generalize (if c = 13 then NEWLINE else c) = d
    have hput : Intact s ((s.consputc d).put d) := by
      intro j hj
      refine Function.update_of_ne (fun heq => ?_) ..
      exact mod_ne_of_sub_lt size_dvd hj hroom.2 heq
    split
    · exact hput
    · exact hput
  · rw [if_neg hroom]
    exact .of_eq rfl

theorem Intact.consoleintr (s : Cons) (c : Byte) : Intact s (s.consoleintr c) := by
  unfold Cons.consoleintr
  split
  · exact .of_eq rfl
  split
  · exact .of_eq (Kept.killLoop _ s).buf
  split
  · exact .of_eq (Kept.erase s).buf
  · exact .insert s c

/-! ## Runs -/

variable {ι : Type} [DecidableEq ι] {x y : System ι} {items : List Item}

/-- What has been delivered is not touched by a key. -/
theorem key_delivered (h : ed.taken ≤ ed.committed.length) (c : Byte) :
    (ed.key c).committed.take (ed.key c).taken = ed.committed.take ed.taken := by
  unfold Editor.key
  split
  · rfl
  split
  · rfl
  split
  · rfl
  split
  · rfl
  unfold Editor.add
  generalize (if c = 13 then NEWLINE else c) = d
  split
  · exact take_append_of_le_length h
  · rfl

/-- A reader's part of the loop: what is handed out comes from the front of what is committed. -/
theorem Sim.serve {i : ι} {target n : Nat} {killed : Bool} (h : Sim x.cons ed)
    (heq : x.serve i target n killed = (items, y)) :
    Sim y.cons ⟨ed.committed, ed.line, ed.taken + items.length⟩ ∧
      ed.committed.take (ed.taken + items.length) = ed.committed.take ed.taken ++ items.map Item.char ∧ Intact x.cons y.cons := by
  obtain ⟨-, hholds, hitems, hbuf⟩ := readLoop_eq target killed n h.holds
  obtain ⟨rfl, rfl⟩ := Prod.mk.inj heq
  refine ⟨⟨?_, ?_⟩, ?_, .of_eq hbuf⟩
  · have hlen := congrArg length hitems
    rw [length_map, length_take, length_drop] at hlen
    have := h.taken
    dsimp only
    omega
  · rw [drop_drop] at hholds
    exact hholds
  · rw [take_add, hitems]

/-- A step of the system is one of the editor. -/
theorem Sim.step {event : Event ι} (h : Sim x.cons ed) (hstep : x.step event = some (items, y)) :
    Sim y.cons (ed.step (event, items)) ∧
      (ed.step (event, items)).committed.take (ed.step (event, items)).taken = ed.committed.take ed.taken ++ items.map Item.char ∧
      Intact x.cons y.cons := by
  cases event with
  | key c =>
    cases hstep
    refine ⟨h.key c, ?_, .consoleintr _ c⟩
    rw [map_nil, append_nil]
    exact key_delivered h.taken c
  | read i n killed =>
    unfold System.step at hstep
    dsimp only at hstep
    split at hstep
    · exact h.serve (Option.some.inj hstep)
    · cases hstep
  | resume i killed =>
    unfold System.step at hstep
    dsimp only at hstep
    split at hstep
    · cases hstep
    · exact h.serve (Option.some.inj hstep)

omit [DecidableEq ι] in
theorem Sim.init (h : x.Init) : Sim x.cons Editor.init := by
  refine ⟨Nat.le_refl 0, ?_, h.w.trans (BitVec.add_zero _).symm, fun c hc => absurd hc not_mem_nil, fun _ => rfl⟩
  rw [h.e]
  exact .nil ..

/-- After every run the console holds what the editor has not delivered, and the readers have what it has. -/
theorem Sim.run {ls : List (Event ι × List Item)} (h : x.Init) (hrun : Run System.Steps x ls y) :
    Sim y.cons (ls.foldl Editor.step .init) ∧
      received ls = (ls.foldl Editor.step .init).committed.take (ls.foldl Editor.step .init).taken := by
  induction hrun with
  | nil => exact ⟨.init h, rfl⟩
  | @snoc y z ls l _ hstep ih =>
    obtain ⟨hsim, hreceived⟩ := ih
    have hstep : y.step l.1 = some (l.2, z) := hstep
    obtain ⟨hnext, htaken, -⟩ := hsim.step hstep
    rw [foldl_append, foldl_cons, foldl_nil]
    refine ⟨hnext, htaken.trans ?_ |>.symm⟩
    unfold received
    rw [← hreceived, flatMap_append, map_append, flatMap_singleton]
    rfl

end ConsoleAux

open ConsoleAux

/-- The line discipline. After every run, of keys and of reads of any length by any number of readers:
* the indices are in order and at most the size of the buffer apart;
* the part that is not committed has no newline and no control-D, so control-U takes away exactly that part;
* no step writes a byte that is there to be read or erased;
* what readers have received, and then what is committed and not read, is the committed input of the line editor, whose unfinished line
  is the part that is not committed;
* a read gets what a read of the committed part is to give. -/
theorem console_line_discipline {ι : Type} [DecidableEq ι] {s t : System ι} {ls : List (Event ι × List Item)} (hinit : s.Init)
    (hrun : Run System.Steps s ls t) :
    ((t.cons.w - t.cons.r).toNat ≤ (t.cons.e - t.cons.r).toNat ∧ (t.cons.e - t.cons.r).toNat ≤ INPUT_BUF_SIZE) ∧
      (∀ c ∈ t.cons.between t.cons.w t.cons.e, c ≠ NEWLINE ∧ c ≠ ctrl 'D') ∧
      (t.cons.kill.e = t.cons.w ∧ t.cons.kill.r = t.cons.r ∧ t.cons.kill.w = t.cons.w ∧ t.cons.kill.buf = t.cons.buf) ∧
      (∀ l u, System.Steps t l u → ∀ j : Uint, (j - t.cons.r).toNat < (t.cons.e - t.cons.r).toNat → u.cons.buf (slot j) = t.cons.buf (slot j)) ∧
      received ls ++ t.cons.between t.cons.r t.cons.w = (ls.foldl Editor.step .init).committed ∧
      t.cons.between t.cons.w t.cons.e = (ls.foldl Editor.step .init).line ∧
      ∀ target killed n, ((readLoop target killed n t.cons).1, (readLoop target killed n t.cons).2.1) =
        Editor.read target killed n (t.cons.between t.cons.r t.cons.w) := by
  obtain ⟨hsim, hreceived⟩ := Sim.run hinit hrun
  have h := hsim.holds
  have hkept := Kept.killLoop (t.cons.e - t.cons.w).toNat t.cons
  have hkill : t.cons.kill.e = t.cons.w := (h.kill.e_eq_iff.2 rfl).trans hkept.w
  refine ⟨⟨?_, ?_⟩, ?_, ⟨hkill, hkept.r, hkept.w, hkept.buf⟩, fun l u hstep => (hsim.step hstep).2.2, ?_, h.between_we, ?_⟩
  · rw [h.committed.sub size_lt, h.sub_e]
    exact Nat.le_add_right ..
  · rw [h.sub_e]
    exact h.le
  · rw [h.between_we]
    exact h.line
  · rw [h.between_rw, hreceived]
    exact List.take_append_drop ..
  · intro target killed n
    rw [h.between_rw]
    exact (readLoop_eq target killed n h).1

/-- A console whose indices are about to wrap. -/
def aboutToWrap : System Unit := ⟨⟨fun _ => 0, 4294967295, 4294967295, 4294967295, []⟩, fun _ => none⟩

/-- A reader waits; `o`, a backspace, `h`, `i` and return are typed, and control-D; the reader takes the line, and then the end of the file. -/
def oneLine : List (Event Unit × List Item) :=
  [(.read () 8 false, []), (.key 111, []), (.key (ctrl 'H'), []), (.key 104, []), (.key 105, []), (.key 13, []), (.key (ctrl 'D'), []),
    (.resume () false, [.byte 104, .byte 105, .byte 10]), (.read () 8 false, [.eof])]

theorem console_line_discipline_oneLine :
    aboutToWrap.Init ∧ (∃ t, Run System.Steps aboutToWrap oneLine t ∧ t.cons.r = 3 ∧
      received oneLine ++ t.cons.between t.cons.r t.cons.w = (oneLine.foldl Editor.step .init).committed) ∧
      received oneLine = [104, 105, 10, ctrl 'D'] := by
  have hinit : aboutToWrap.Init := ⟨rfl, rfl, fun _ => rfl⟩
  refine ⟨hinit, ?_, by decide⟩
  have hrun : ∃ t, Run System.Steps aboutToWrap oneLine t ∧ t.cons.r = 3 :=
    ⟨_, .cons rfl (.cons rfl (.cons rfl (.cons rfl (.cons rfl (.cons rfl (.cons rfl (.cons rfl (.cons rfl (.nil _))))))))), rfl⟩
  obtain ⟨t, hrun, hr⟩ := hrun
  exact ⟨t, hrun, hr, (console_line_discipline hinit hrun).2.2.2.2.1⟩

end Xv6.Console
