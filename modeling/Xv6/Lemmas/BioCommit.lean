import Xv6.Lemmas.BioCache
import Xv6.Lemmas.LogCrash
import Xv6.Lemmas.Trans
import Xv6.Lib.Run

/-!
# `commit` and the cache

What the process that commits knows as it goes through the steps of `commit` is followed in `Sym`: the block it waits for, the blocks in
its two buffers and what is in them, the blocks still pinned, and how many copies in the log are in order. `Move` says how a step changes
that, `commit_moves` that the steps of `commit` are such a sequence, and `Link` what it means for the state.
-/

namespace Xv6.Bio

open Lib Function List Option

namespace BioAux

variable {P : Type} {L : Layout} {s t : State P} {p q : P} {i j : Slot} (r : Reg)

def Reg.other : Reg → Reg
  | .a => .b
  | .b => .a

@[simp] theorem Reg.other_a : Reg.other .a = .b := rfl

@[simp] theorem Reg.other_b : Reg.other .b = .a := rfl

@[simp] theorem Reg.other_other : Reg.other (Reg.other r) = r := by cases r <;> rfl

@[simp] theorem Reg.other_ne : Reg.other r ≠ r := by cases r <;> exact Reg.noConfusion

theorem Reg.eq_or (r r' : Reg) : r' = r ∨ r' = Reg.other r := by
  cases r <;> cases r' <;> first | exact .inl rfl | exact .inr rfl

/-- What is in a buffer of `commit`: nothing that has been read yet; what was left in its block, or has been written there just now; a copy of
the other buffer; a header. -/
inductive Val where
  | unread
  | clean
  | written
  | copied
  | header
deriving DecidableEq

/-- The blocks in the two buffers. -/
abbrev Regs := Reg → Option (Uint × Val)

structure Sym where
  want : Option Uint
  drop : Bool
  regs : Regs
  pins : List Uint
  lh : List Uint
  known : Nat
  cleared : Bool

/-- Between two calls: no buffer is waited for and no reference is being dropped. -/
abbrev Sym.still (regs : Regs) (pins lh : List Uint) (known : Nat) (cleared : Bool) : Sym := ⟨none, false, regs, pins, lh, known, cleared⟩

/-- The other buffer is no copy of this one. -/
abbrev Regs.Uncopied (g : Regs) (r : Reg) : Prop := ∀ b', g (Reg.other r) ≠ some (b', .copied)

/-- How a step of `commit` changes what is known. With nobody else at work (`alone`) the step can be taken: a block that is not pinned is
looked for only if a buffer is free, and a lock that the process holds itself is not waited for. -/
inductive Move (L : Layout) (alone : Prop) : Sym → Act → Sym → Prop where
  | bget {g : Regs} {pins lh k c b}
      (hfree : alone → b ∈ pins ∨ (∀ r, g r = none) ∧ pins.length < NBUF) :
      Move L alone (.still g pins lh k c) (.bget b) ⟨some b, false, g, pins, lh, k, c⟩
  | acquiresleep {g : Regs} {pins lh k c b} (r : Reg) (hr : g r = none)
      (ho : g.Uncopied r) (hne : alone → ∀ v, g (Reg.other r) ≠ some (b, v)) :
      Move L alone ⟨some b, false, g, pins, lh, k, c⟩ (.acquiresleep r) (.still (update g r (some (b, .unread))) pins lh k c)
  | fill {g : Regs} {pins lh k c b} (r : Reg) (hr : g r = some (b, .unread))
      (ho : g.Uncopied r) :
      Move L alone (.still g pins lh k c) (.fill r) (.still (update g r (some (b, .clean))) pins lh k c)
  | memmove {g : Regs} {pins lh k c b b'} (r : Reg) (hr : g r = some (b, .clean))
      (ho : g (Reg.other r) = some (b', .clean)) :
      Move L alone (.still g pins lh k c) (.memmove r (Reg.other r))
        (.still (update g r (some (b, .copied))) pins lh k c)
  | header {g : Regs} {pins lh k c b} (r : Reg) (lh' : List Uint)
      (hr : g r = some (b, .clean)) (ho : g (Reg.other r) = none) :
      Move L alone (.still g pins lh k c) (.header r lh') (.still (update g r (some (b, .header))) pins lh k c)
  | writeLog {g : Regs} {pins lh k c b} (r : Reg) (hb : lh[k]? = some b)
      (hr : g r = some (logSlot L.start k, .copied)) (ho : g (Reg.other r) = some (b, .clean)) :
      Move L alone (.still g pins lh k c) (.bwrite r)
        (.still (update g r (some (logSlot L.start k, .written))) pins lh (k + 1) c)
  | writeHead {g : Regs} {pins lh k c} (r : Reg) (hr : g r = some (L.start, .header))
      (ho : g (Reg.other r) = none) :
      Move L alone (.still g pins lh k c) (.bwrite r) (.still (update g r (some (L.start, .written))) pins lh k c)
  | install {g : Regs} {pins lh k n c b} (r : Reg) (hb : lh[n]? = some b)
      (hn : n < k) (hr : g r = some (b, .copied)) (ho : g (Reg.other r) = some (logSlot L.start n, .clean)) :
      Move L alone (.still g pins lh k c) (.bwrite r) (.still (update g r (some (b, .written))) pins lh k c)
  | bunpin {g : Regs} {pins lh k c b} (r : Reg) (hr : g r = some (b, .written))
      (hb : b ∈ pins) : Move L alone (.still g pins lh k c) (.bunpin r) (.still g (pins.erase b) lh k c)
  | releasesleep {g : Regs} {pins lh k c b v} (r : Reg)
      (hr : g r = some (b, v)) (hv : v = .clean ∨ v = .written) (ho : g.Uncopied r) :
      Move L alone (.still g pins lh k c) (.releasesleep r) ⟨none, true, update g r none, pins, lh, k, c⟩
  | decref {g : Regs} {pins lh k c} :
      Move L alone ⟨none, true, g, pins, lh, k, c⟩ .decref (.still g pins lh k c)
  | clear {g : Regs} {lh k} :
      Move L alone (.still g [] lh k false) .clear (.still g [] [] k true)

/-! ## The steps of `commit` are such moves -/

section

variable {alone : Prop} {g : Regs} {pins lh : List Uint} {k n : Nat} {c : Bool} {b b' : Uint} {r : Reg} {v : Val}
  {bs : List Uint}

theorem bread_moves (hr : g r = none) (ho : g.Uncopied r) (hfree : alone → b ∈ pins ∨ (∀ r, g r = none) ∧ pins.length < NBUF)
    (hne : alone → ∀ v, g (Reg.other r) ≠ some (b, v)) :
    Run (Move L alone) (.still g pins lh k c) (breadActs r b) (.still (update g r (some (b, .clean))) pins lh k c) := by
  have hfill : Move L alone (.still (update g r (some (b, .unread))) pins lh k c) (.fill r) _ :=
    .fill r (update_self ..) fun b' => by simpa using ho b'
  rw [update_idem] at hfill
  exact .cons (.bget hfree) (.cons (.acquiresleep r hr ho hne) (.single hfill))

theorem brelse_moves (hr : g r = some (b, v)) (hv : v = .clean ∨ v = .written) (ho : g.Uncopied r) :
    Run (Move L alone) (.still g pins lh k c) (brelseActs r) (.still (update g r none) pins lh k c) :=
  .cons (.releasesleep r hr hv ho) (.single .decref)

/-- What the two buffers of `commit` hold. -/
@[simp] def hands (a b : Option (Uint × Val)) : Regs
  | .a => a
  | .b => b

/-- Between two calls, with nothing in hand. -/
abbrev Sym.empty (pins lh : List Uint) (known : Nat) (cleared : Bool) : Sym := .still (hands none none) pins lh known cleared

@[simp] theorem update_hands_a (a b a' : Option (Uint × Val)) : update (hands a b) .a a' = hands a' b := by
  funext r
  cases r <;> rfl

@[simp] theorem update_hands_b (a b b' : Option (Uint × Val)) : update (hands a b) .b b' = hands a b' := by
  funext r
  cases r <;> rfl

theorem breadFirst_moves (halone : alone → pins.length < NBUF) :
    Run (Move L alone) (.empty pins lh k c) (breadActs .a b)
      (.still (hands (some (b, .clean)) none) pins lh k c) := by
  have hbread : Run (Move L alone) (.empty pins lh k c) (breadActs .a b) _ :=
    bread_moves rfl (fun b' => by simp) (fun ha => .inr ⟨fun r => by cases r <;> rfl, halone ha⟩) fun _ _ => by simp
  rwa [update_hands_a] at hbread

/-- A block of the log and the block it is for are read. -/
theorem breadBoth_moves (hmem : b ∈ pins) (halone : alone → pins.length < NBUF ∧ b ≠ logSlot L.start n) :
    Run (Move L alone) (.empty pins lh k c) (breadActs .a (logSlot L.start n) ++ breadActs .b b)
      (.still (hands (some (logSlot L.start n, .clean)) (some (b, .clean))) pins lh k c) := by
  have hbread : Run (Move L alone) (.still (hands (some (logSlot L.start n, .clean)) none) pins lh k c) (breadActs .b b) _ :=
    bread_moves rfl (fun b' => by simp) (fun _ => .inl hmem) fun ha v => by simp [(halone ha).2.symm]
  rw [update_hands_b] at hbread
  exact (breadFirst_moves fun ha => (halone ha).1).append hbread

/-- A round of the loop of `write_log`. -/
theorem writeLog_round (hb : lh[k]? = some b) (hmem : b ∈ pins) (halone : alone → pins.length < NBUF ∧ b ≠ logSlot L.start k) :
    Run (Move L alone) (.empty pins lh k c)
      (breadActs .a (logSlot L.start k) ++ breadActs .b b ++ [.memmove .a .b, .bwrite .a] ++ brelseActs .b ++ brelseActs .a)
      (.empty pins lh (k + 1) c) := by
  have h₁ : Move L alone (.still (hands (some (logSlot L.start k, .clean)) (some (b, .clean))) pins lh k c) (.memmove .a .b) _ :=
    .memmove .a rfl rfl
  have h₂ : Move L alone (.still (hands (some (logSlot L.start k, .copied)) (some (b, .clean))) pins lh k c) (.bwrite .a) _ :=
    .writeLog .a hb rfl rfl
  have h₃ : Run (Move L alone) (.still (hands (some (logSlot L.start k, .written)) (some (b, .clean))) pins lh (k + 1) c) (brelseActs .b) _ :=
    brelse_moves rfl (.inl rfl) fun b' => by simp
  have h₄ : Run (Move L alone) (.still (hands (some (logSlot L.start k, .written)) none) pins lh (k + 1) c) (brelseActs .a) _ :=
    brelse_moves rfl (.inr rfl) fun b' => by simp
  simp only [update_hands_a, update_hands_b] at h₁ h₂ h₃ h₄
  exact (((breadBoth_moves hmem halone).append (.cons h₁ (.single h₂))).append h₃).append h₄

/-- A round of the loop of `install_trans`. -/
theorem install_round (hb : lh[n]? = some b) (hn : n < k) (hmem : b ∈ pins) (halone : alone → pins.length < NBUF ∧ b ≠ logSlot L.start n) :
    Run (Move L alone) (.empty pins lh k c)
      (breadActs .a (logSlot L.start n) ++ breadActs .b b ++ [.memmove .b .a, .bwrite .b, .bunpin .b] ++ brelseActs .a ++ brelseActs .b)
      (.empty (pins.erase b) lh k c) := by
  have h₁ : Move L alone (.still (hands (some (logSlot L.start n, .clean)) (some (b, .clean))) pins lh k c) (.memmove .b .a) _ :=
    .memmove .b rfl rfl
  have h₂ : Move L alone (.still (hands (some (logSlot L.start n, .clean)) (some (b, .copied))) pins lh k c) (.bwrite .b) _ :=
    .install .b hb hn rfl rfl
  have h₃ : Move L alone (.still (hands (some (logSlot L.start n, .clean)) (some (b, .written))) pins lh k c) (.bunpin .b) _ :=
    .bunpin .b rfl hmem
  have h₄ : Run (Move L alone) (.still (hands (some (logSlot L.start n, .clean)) (some (b, .written))) (pins.erase b) lh k c)
      (brelseActs .a) _ := brelse_moves rfl (.inl rfl) fun b' => by simp
  have h₅ : Run (Move L alone) (.still (hands none (some (b, .written))) (pins.erase b) lh k c) (brelseActs .b) _ :=
    brelse_moves rfl (.inr rfl) fun b' => by simp
  simp only [update_hands_a, update_hands_b] at h₁ h₂ h₄ h₅
  exact (((breadBoth_moves hmem halone).append (.cons h₁ (.cons h₂ (.single h₃)))).append h₄).append h₅

theorem writeHead_moves (lh' : List Uint) (halone : alone → pins.length < NBUF) :
    Run (Move L alone) (.empty pins lh k c) (writeHeadActs L.start lh') (.empty pins lh k c) := by
  have h₁ : Move L alone (.still (hands (some (L.start, .clean)) none) pins lh k c) (.header .a lh') _ := .header .a lh' rfl rfl
  have h₂ : Move L alone (.still (hands (some (L.start, .header)) none) pins lh k c) (.bwrite .a) _ := .writeHead .a rfl rfl
  have h₃ : Run (Move L alone) (.still (hands (some (L.start, .written)) none) pins lh k c) (brelseActs .a) _ :=
    brelse_moves rfl (.inr rfl) fun b' => by simp
  simp only [update_hands_a] at h₁ h₂ h₃
  exact ((breadFirst_moves halone).append (.cons h₁ (.single h₂))).append h₃

theorem writeLog_moves (hbs : lh.drop k = bs) (hmem : ∀ b ∈ lh, b ∈ pins) (hlen : pins.length ≤ lh.length)
    (halone : alone → Fits L lh) :
    Run (Move L alone) (.empty pins lh k c) (writeLogActs L.start k bs)
      (.empty pins lh (k + bs.length) c) := by
  induction bs generalizing k with
  | nil => exact .nil _
  | cons b bs ih =>
    obtain ⟨hk, hbk, hdrop⟩ := LogAux.drop_eq_cons hbs
    have hb := List.getElem?_eq_some_iff.2 ⟨hk, hbk⟩
    have hround := writeLog_round (c := c) hb (hmem b (mem_of_getElem? hb)) fun ha =>
      ⟨lt_of_le_of_lt hlen (halone ha).1, (halone ha).2 k b hb⟩
    have hrest := ih hdrop
    rw [length_cons, show k + (bs.length + 1) = k + 1 + bs.length by omega]
    exact hround.append hrest

theorem install_moves (hbs : lh.drop n = bs) (hnodup : lh.Nodup) (hk : k = lh.length) (hpins : pins.Nodup)
    (hmem : ∀ b, b ∈ pins ↔ b ∈ bs) (halone : alone → Fits L lh) :
    Run (Move L alone) (.empty pins lh k c) (installActs L.start n bs)
      (.empty [] lh k c) := by
  induction bs generalizing n pins with
  | nil =>
    rw [eq_nil_iff_forall_not_mem.2 fun b hb => not_mem_nil ((hmem b).1 hb)]
    exact .nil _
  | cons b bs ih =>
    obtain ⟨hlt, hbn, hdrop⟩ := LogAux.drop_eq_cons hbs
    have hb := List.getElem?_eq_some_iff.2 ⟨hlt, hbn⟩
    have hnd : (b :: bs).Nodup := hbs ▸ hnodup.sublist (drop_sublist ..)
    have hlen : pins.length ≤ lh.length :=
      (hpins.subperm fun b' hb' => mem_of_mem_drop (hbs ▸ (hmem b').1 hb')).length_le
    have hround := install_round (c := c) hb (hk ▸ hlt) ((hmem b).2 mem_cons_self)
      fun ha => ⟨lt_of_le_of_lt hlen (halone ha).1, (halone ha).2 n b hb⟩
    refine hround.append (ih hdrop (hpins.erase b) fun b' => ?_)
    rw [hpins.mem_erase_iff, hmem b', mem_cons]
    refine ⟨fun h => h.2.resolve_left h.1, fun h => ⟨?_, .inr h⟩⟩
    rintro rfl
    exact (nodup_cons.1 hnd).1 h

theorem commit_moves (hne : lh ≠ []) (hnodup : lh.Nodup) (hpins : pins.Nodup) (hmem : ∀ b, b ∈ pins ↔ b ∈ lh) (halone : alone → Fits L lh) :
    Run (Move L alone) (.empty pins lh 0 false) (commitActs L.start lh)
      (.empty [] [] lh.length true) := by
  have hlen : pins.length ≤ lh.length := (hpins.subperm fun b hb => (hmem b).1 hb).length_le
  have h₁ := writeLog_moves (c := false) drop_zero (fun b => (hmem b).2) hlen halone
  rw [Nat.zero_add] at h₁
  have h₂ : Run (Move L alone) (.empty pins lh lh.length false) (writeHeadActs L.start lh) _ :=
    writeHead_moves lh fun ha => lt_of_le_of_lt hlen (halone ha).1
  have h₃ := install_moves (c := false) drop_zero hnodup rfl hpins hmem halone
  have h₄ : Run (Move L alone) (.empty [] [] lh.length true) (writeHeadActs L.start []) _ :=
    writeHead_moves [] fun _ => by decide
  unfold commitActs
  rw [if_pos (length_pos_iff.2 hne)]
  exact (((h₁.append h₂).append h₃).append (.single .clear)).append h₄

end

/-! ## What it means for the state -/

/-- Process `p` has buffer `i` in one hand, with block `b` in it and `v` in that. -/
structure Holds (L : Layout) (p : P) (s : State P) (r : Reg) (i : Slot) (b : Uint) (v : Val) : Prop where
  key : (s.buf i).key = (L.dev, b)
  lock : (s.buf i).lock = some p
  valid : v ≠ .unread → (s.buf i).valid = true
  clean : v = .unread ∨ v = .clean ∨ v = .written → s.dirty i = false
  disk : v = .written → s.disk (L.dev, b) = (s.buf i).data
  copied : v = .copied → ∀ j, s.regs p (Reg.other r) = some j → (s.buf i).data = (s.buf j).data

/-- What the process that commits knows is so. -/
structure Link (L : Layout) (p : P) (s : State P) (y : Sym) : Prop where
  idle : y.want = none → s.want p = none
  want : ∀ b, y.want = some b → ∃ i, s.want p = some i ∧ (s.buf i).key = (L.dev, b)
  drop : (s.drop p).isSome = y.drop
  empty : ∀ r, y.regs r = none → s.regs p r = none
  holds : ∀ r b v, y.regs r = some (b, v) → ∃ i, s.regs p r = some i ∧ Holds L p s r i b v
  ne : ∀ r i, s.regs p r = some i → s.regs p (Reg.other r) ≠ some i
  pins : s.pins = y.pins
  lh : s.trans.log.lh = y.lh
  pc : s.trans.pc p = if y.cleared then .committed else .commit
  known : s.polite = true → ∀ n b, n < y.known → y.lh[n]? = some b →
    s.left (L.dev, logSlot L.start n) = s.left (L.dev, b)

/-- A buffer that is kept still holds what it did. -/
theorem Holds.keep {r : Reg} {b : Uint} {v : Val} (h : Holds L p s r i b v) (hk : Kept s t i)
    (hkey : (t.buf i).key = (s.buf i).key)
    (hcopied : v = .copied → ∀ j, t.regs p (Reg.other r) = some j → s.regs p (Reg.other r) = some j ∧ (t.buf j).data = (s.buf j).data) :
    Holds L p t r i b v where
  key := hkey.trans h.key
  lock := hk.lock.trans h.lock
  valid hv := hk.valid.trans (h.valid hv)
  clean hv := hk.dirty.trans (h.clean hv)
  disk hv := by
    rw [← h.key, hk.disk, hk.data, h.key]
    exact h.disk hv
  copied hv j hj := by
    obtain ⟨hs, hd⟩ := hcopied hv j hj
    rw [hk.data, hd]
    exact h.copied hv j hs

section

variable {y : Sym} {g : Regs} {pins lh : List Uint} {k n : Nat} {c : Bool} {b : Uint} {r : Reg} {v v' : Val}
  {y' : Sym}

/-- What is in the hands of the process is locked by it. -/
theorem Link.held (h : Link L p s y) (hr : s.regs p r = some i) : (s.buf i).lock = some p := by
  cases hy : y.regs r with
  | none => simp [h.empty r hy] at hr
  | some x =>
    obtain ⟨j, hj, hh⟩ := h.holds r x.1 x.2 hy
    rw [some.inj (hr.symm.trans hj)]
    exact hh.lock

/-- A hand holds what it did if all that the process has locked is kept. -/
theorem Link.holds_keep (h : Link L p s y) (hregs : t.regs p = s.regs p) (hk : ∀ i, (s.buf i).lock = some p → Kept s t i)
    (hkey : ∀ i, (s.buf i).lock = some p → (t.buf i).key = (s.buf i).key) (hr : y.regs r = some (b, v)) :
    ∃ i, t.regs p r = some i ∧ Holds L p t r i b v := by
  obtain ⟨i, hi, hh⟩ := h.holds r b v hr
  refine ⟨i, by rw [hregs, hi], hh.keep (hk i hh.lock) (hkey i hh.lock) fun _ j hj => ?_⟩
  rw [hregs] at hj
  exact ⟨hj, (hk j (h.held hj)).data⟩

/-- Nothing that the process has in hand is touched. -/
theorem Link.keep (h : Link L p s y) (hregs : t.regs p = s.regs p) (hk : ∀ i, (s.buf i).lock = some p → Kept s t i)
    (hkey : ∀ i, (s.buf i).lock = some p → (t.buf i).key = (s.buf i).key) (hy : y'.regs = y.regs)
    (hidle : y'.want = none → t.want p = none) (hwant : ∀ b, y'.want = some b → ∃ i, t.want p = some i ∧ (t.buf i).key = (L.dev, b))
    (hdrop : (t.drop p).isSome = y'.drop) (hpins : t.pins = y'.pins) (hlh : t.trans.log.lh = y'.lh)
    (hpc : t.trans.pc p = if y'.cleared then .committed else .commit)
    (hknown : t.polite = true → ∀ n b, n < y'.known → y'.lh[n]? = some b →
      t.left (L.dev, logSlot L.start n) = t.left (L.dev, b)) : Link L p t y' where
  idle := hidle
  want := hwant
  drop := hdrop
  empty r hr := by rw [hregs]; exact h.empty r (hy ▸ hr)
  holds r b v hr := h.holds_keep hregs hk hkey (hy ▸ hr)
  ne r i hr := by rw [hregs] at hr ⊢; exact h.ne r i hr
  pins := hpins
  lh := hlh
  pc := hpc
  known := hknown

/-- The process has something else in one hand. -/
theorem Link.hand {x : Option Slot} {w : Option (Uint × Val)} (h : Link L p s y) (r : Reg)
    (hregs : t.regs p = update (s.regs p) r x) (hy : y'.regs = update y.regs r w) (hnone : w = none → x = none)
    (hsome : ∀ b v, w = some (b, v) → ∃ i, x = some i ∧ Holds L p t r i b v)
    (hother : ∀ j, s.regs p (Reg.other r) = some j → x ≠ some j ∧ Kept s t j ∧ (t.buf j).key = (s.buf j).key)
    (ho : ∀ b, y.regs (Reg.other r) ≠ some (b, .copied)) (hidle : t.want p = none) (hwant : y'.want = none)
    (hdrop : (t.drop p).isSome = y'.drop) (hpins : t.pins = y'.pins) (hlh : t.trans.log.lh = y'.lh)
    (hpc : t.trans.pc p = if y'.cleared then .committed else .commit)
    (hknown : t.polite = true → ∀ n b, n < y'.known → y'.lh[n]? = some b →
      t.left (L.dev, logSlot L.start n) = t.left (L.dev, b)) : Link L p t y' where
  idle _ := hidle
  want b hb := by simp [hwant] at hb
  drop := hdrop
  empty r' hr' := by
    rw [hregs]
    rw [hy] at hr'
    rcases Reg.eq_or r r' with rfl | rfl
    · simpa using hnone (by simpa using hr')
    · simpa using h.empty _ (by simpa using hr')
  holds r' b v hr' := by
    rw [hregs]
    rw [hy] at hr'
    rcases Reg.eq_or r r' with rfl | rfl
    · simpa using hsome b v (by simpa using hr')
    · have hr' : y.regs (Reg.other r) = some (b, v) := by simpa using hr'
      obtain ⟨j, hj, hhj⟩ := h.holds _ b v hr'
      obtain ⟨-, hk, hkey⟩ := hother j hj
      refine ⟨j, by simpa using hj, hhj.keep hk hkey ?_⟩
      rintro rfl
      exact absurd hr' (ho b)
  ne r' i hi := by
    rw [hregs] at hi ⊢
    rcases Reg.eq_or r r' with rfl | rfl
    · have hi : x = some i := by simpa using hi
      intro hj
      exact (hother i (by simpa using hj)).1 hi
    · have hi : s.regs p (Reg.other r) = some i := by simpa using hi
      simpa using (hother i hi).1
  pins := hpins
  lh := hlh
  pc := hpc
  known := hknown

/-- The buffer in one hand is touched. -/
theorem Link.touch {k' : Nat} (h : Link L p s (.still g pins lh k c)) (hi : s.regs p r = some i)
    (hf : Frame p (some i) s t) (hrefs : ∀ j, (s.buf j).lock ≠ none → 0 < (s.buf j).refcnt) (hregs : t.regs = s.regs)
    (hwant : t.want = s.want) (hdrop : t.drop = s.drop) (hpins : t.pins = s.pins) (htrans : t.trans = s.trans)
    (ho : g.Uncopied r) (hh : Holds L p t r i b v')
    (hknown : t.polite = true → ∀ n b, n < k' → lh[n]? = some b → t.left (L.dev, logSlot L.start n) = t.left (L.dev, b)) :
    Link L p t (.still (update g r (some (b, v'))) pins lh k' c) := by
  refine h.hand r (x := some i) (by rw [hregs, ← hi, update_eq_self]) rfl (fun hn => by cases hn) (fun b₁ v₁ hb => ?_)
    (fun j hj => ?_) ho (by rw [hwant]; exact h.idle rfl) rfl (by rw [hdrop]; exact h.drop) (hpins.trans h.pins)
    (by rw [htrans]; exact h.lh) (by rw [htrans]; exact h.pc) hknown
  · cases hb
    exact ⟨i, rfl, hh⟩
  · have hji : some j ≠ some i := fun heq => h.ne r i hi (heq ▸ hj)
    have hl : (s.buf j).lock ≠ none := by simp [h.held hj]
    exact ⟨hji.symm, hf.kept j hl hji, hf.key j (hrefs j hl)⟩

end

/-! ## The steps -/

section

variable {y y' : Sym} {g : Regs} {pins lh : List Uint} {k n : Nat} {c : Bool} {b : Uint}
  {r : Reg} {v v' : Val}

/-- All that is locked is in the hands of the process. -/
def InHand (p : P) (s : State P) : Prop := ∀ i q, (s.buf i).lock = some q → ∃ r, s.regs p r = some i

theorem InHand.of_same (h : InHand p s) (hlock : ∀ j, (t.buf j).lock = (s.buf j).lock) (hregs : t.regs = s.regs) : InHand p t := by
  intro i q hi
  rw [hregs]
  exact h i q ((hlock i).symm.trans hi)

theorem InHand.hand {x : Option Slot} (h : InHand p s) (r : Reg) (hregs : t.regs p = update (s.regs p) r x)
    (hlock : ∀ j q, (t.buf j).lock = some q → x = some j ∨ (s.buf j).lock = some q ∧ s.regs p r ≠ some j) : InHand p t := by
  intro j q hj
  rw [hregs]
  rcases hlock j q hj with rfl | ⟨hs, hne⟩
  · exact ⟨r, update_self ..⟩
  · obtain ⟨r', hr'⟩ := h j q hs
    have hrr : r' ≠ r := fun heq => hne (heq ▸ hr')
    exact ⟨r', by rw [update_of_ne hrr, hr']⟩

/-- The result of two steps in sequence. -/
theorem ok_of_bind {ε α β : Type} {x : Except ε α} {f : α → Except ε β} {b : β} (h : x >>= f = .ok b) : ∃ a, x = .ok a ∧ f a = .ok b := by
  cases x with
  | error e => cases h
  | ok a => exact ⟨a, rfl, h⟩

variable [Fintype P]

/-- What a step of `commit` does: the cache stays in order, what is known is so, what the others hold is kept, and while the processes
leave alone what the log relies on, only blocks of the log have new contents. -/
structure Stepped (L : Layout) (p : P) (s t : State P) (y' : Sym) : Prop where
  good : Good L t
  link : Link L p t y'
  frame : ∃ i, Frame p i s t
  locked : InHand p s → InHand p t
  turns : Trans.TransAux.Turns t.trans
  committing : t.trans.log.committing = s.trans.log.committing
  lh : ∀ b ∈ t.trans.log.lh, b ∈ s.trans.log.lh
  pc : ∀ q, q ≠ p → t.trans.pc q = s.trans.pc q
  client : t.clients = s.clients
  polite : t.polite = s.polite
  left : s.polite = true → ∀ k : Key, ¬ (k.1 = L.dev ∧ InLog L.start k.2) → t.left k = s.left k

/-- A step that touches neither the log in memory nor what was left in any block. -/
theorem Stepped.of_same {i : Option Slot} (hg : Good L t) (hl : Link L p t y') (hf : Frame p i s t) (hin : InHand p s → InHand p t)
    (ht : Trans.TransAux.Turns s.trans) (htrans : t.trans = s.trans) (hclient : t.clients = s.clients) (hpolite : t.polite = s.polite)
    (hleft : t.left = s.left) : Stepped L p s t y' where
  good := hg
  link := hl
  frame := ⟨i, hf⟩
  locked := hin
  turns := by rwa [htrans]
  committing := by rw [htrans]
  lh b hb := by rwa [htrans] at hb
  pc q _ := by rw [htrans]
  client := hclient
  polite := hpolite
  left _ k _ := by rw [hleft]

/-- What a buffer that nobody has changed holds was left in its block. -/
theorem Holds.data (hg : Good L s) (h : Holds L p s r i b .clean) : (s.buf i).data = s.left (L.dev, b) := by
  rw [hg.clean i (hg.given_of_lock h.lock) (h.valid Val.noConfusion) (h.clean (.inr (.inl rfl))), h.key]

variable [DecidableEq P] (hg : Good L s) (ht : Trans.TransAux.Turns s.trans)

include hg ht

theorem bget_stepped (h : Link L p s (.still g pins lh k c))
    (hx : s.bget p L.dev b = .ok t) : Stepped L p s t ⟨some b, false, g, pins, lh, k, c⟩ := by
  obtain ⟨i, hgot, hgood, hf⟩ := bget_ok hg (h.idle rfl) hx
  refine .of_same hgood ?_ hf (fun hin => hin.of_same hgot.lock hgot.regs) ht hgot.trans hgot.client hgot.polite hgot.left
  refine h.keep (congrFun hgot.regs p) (fun j hj => hf.kept j (by simp [hj]) (by simp)) (fun j hj => hf.key j (hg.refcnt_of_lock (by simp [hj]))) rfl
    (fun hw => by cases hw) (fun b' hb => ⟨i, ?_, ?_⟩) ?_ (hgot.pins.trans h.pins) ?_ ?_ ?_
  · rw [hgot.want, update_self]
  · rw [hgot.key, some.inj hb]
  · rw [hgot.drop]
    exact h.drop
  · rw [hgot.trans]
    exact h.lh
  · rw [hgot.trans]
    exact h.pc
  · rw [hgot.polite, hgot.left]
    exact h.known

theorem acquiresleep_stepped (h : Link L p s ⟨some b, false, g, pins, lh, k, c⟩)
    (hr : g r = none) (ho : g.Uncopied r) (hx : s.exec L p (.acquiresleep r) = .ok t) :
    Stepped L p s t (.still (update g r (some (b, .unread))) pins lh k c) := by
  obtain ⟨⟨i, u⟩, hu, hx⟩ := ok_of_bind hx
  cases hx
  obtain ⟨hw, hl, rfl⟩ := acquiresleep_eq hu
  obtain ⟨i', hi', hkey⟩ := h.want b rfl
  obtain rfl : i = i' := some.inj (hw.symm.trans hi')
  have hgood := acquiresleep_good hg hw hl
  have hself := setBuf_self s.toCache i (·.withLock (some p))
  have hf : Frame p (some i) s { s with toCache := s.toCache.setBuf i (·.withLock (some p)), want := update s.want p none,
                                        regs := update s.regs p (update (s.regs p) r (some i)) } :=
    .of_setBuf (f := (·.withLock (some p))) hg (hg.given_of_refcnt (hg.refcnt_of_want hw)) (.inl hl) rfl rfl (fun q hq => update_of_ne hq ..)
      (fun _ _ => rfl) (fun q hq => update_of_ne hq ..) rfl (fun _ _ => rfl) (fun _ _ => rfl) fun _ _ => rfl
  refine .of_same (hgood.congr rfl rfl rfl rfl rfl rfl rfl) ?_ hf
    (fun hin => hin.hand r (update_self ..) fun j q hj => ?_) ht rfl rfl rfl rfl
  rotate_left
  · by_cases hji : j = i
    · exact .inl (congrArg some hji.symm)
    · refine .inr ⟨(congrArg Buf.lock (setBuf_of_ne s.toCache (·.withLock (some p)) hji)).symm.trans hj, ?_⟩
      rw [h.empty r hr]
      exact (some_ne_none j).symm
  refine h.hand r (x := some i) (update_self ..) rfl (fun hn => by cases hn) (fun b' v hb => ?_) (fun j hj => ?_) ho
    (update_self ..) rfl h.drop h.pins h.lh h.pc h.known
  · cases hb
    refine ⟨i, rfl, (congrArg Buf.key hself).trans hkey, congrArg Buf.lock hself, fun hv => absurd rfl hv, fun _ => ?_, ?_, ?_⟩
    · by_contra hd
      exact (hg.dirty i (by simpa using hd)).1 hl
    · intro hv
      cases hv
    · intro hv
      cases hv
  · have hlj := h.held hj
    have hji : some j ≠ some i := fun heq => by
      rw [some.inj heq, hl] at hlj
      cases hlj
    exact ⟨hji.symm, hf.kept j (by simp [hlj]) hji, hf.key j (hg.refcnt_of_lock (by simp [hlj]))⟩

theorem fill_stepped (h : Link L p s (.still g pins lh k c))
    (hr : g r = some (b, .unread)) (ho : g.Uncopied r) (hx : s.exec L p (.fill r) = .ok t) :
    Stepped L p s t (.still (update g r (some (b, .clean))) pins lh k c) := by
  obtain ⟨i, hi, hh⟩ := h.holds r b _ hr
  obtain rfl : s.fill i = t := by simpa [State.exec, hi] using hx
  obtain ⟨hkey, hlock, hvalid⟩ := fill_buf s i
  have hf := fill_frame hg hh.lock
  refine .of_same (fill_good hg hh.lock) ?_ hf (fun hin => hin.of_same (fill_lock s i) rfl) ht rfl rfl rfl rfl
  refine h.touch hi hf (fun j => hg.refcnt_of_lock) rfl rfl rfl rfl rfl ho ⟨hkey.trans hh.key, hlock.trans hh.lock, fun _ => hvalid, ?_, ?_, ?_⟩ h.known
  · exact fun _ => hh.clean (.inl rfl)
  · intro hv
    cases hv
  · intro hv
    cases hv

section Hands

variable (h : Link L p s (.still g pins lh k c))

include h

omit [DecidableEq P] in
/-- New data in the buffer in one hand. -/
theorem store_stepped (d : Block)
    (hi : s.regs p r = some i) (hh : Holds L p s r i b .clean) (ho : g.Uncopied r) (hv : v = .copied ∨ v = .header)
    (hd : v = .copied → ∀ j, s.regs p (Reg.other r) = some j → d = (s.buf j).data) :
    Stepped L p s (s.store i d) (.still (update g r (some (b, v))) pins lh k c) := by
  have hvalid := hh.valid Val.noConfusion
  have hself := setBuf_self s.toCache i fun b => b.withData d
  have hf := store_frame hg hh.lock d
  refine .of_same (store_good hg hh.lock hvalid d) ?_ hf (fun hin => hin.of_same (setBuf_lock (f := fun b => b.withData d) rfl) rfl) ht rfl rfl rfl rfl
  refine h.touch hi hf (fun j => hg.refcnt_of_lock) rfl rfl rfl rfl rfl ho
    ⟨(congrArg Buf.key hself).trans hh.key, (congrArg Buf.lock hself).trans hh.lock, fun _ => (congrArg Buf.valid hself).trans hvalid, ?_, ?_, ?_⟩ h.known
  · rcases hv with rfl | rfl <;> rintro (hv | hv | hv) <;> cases hv
  · rcases hv with rfl | rfl <;> intro hv <;> cases hv
  · intro hv j hj
    have hji : j ≠ i := fun heq => h.ne r i hi (heq ▸ hj)
    exact (congrArg Buf.data hself).trans ((hd hv j hj).trans (congrArg Buf.data (setBuf_of_ne s.toCache (fun b => b.withData d) hji).symm))

/-- The buffer in one hand is written to the disk. -/
theorem bwrite_stepped {k' : Nat}
    (hi : s.regs p r = some i) (hh : Holds L p s r i b v) (hvalid : v ≠ .unread) (ho : g.Uncopied r)
    (hx : s.exec L p (.bwrite r) = .ok t)
    (hleft : s.polite = true → ∀ k : Key, ¬ (k.1 = L.dev ∧ InLog L.start k.2) →
      update s.left (L.dev, b) (s.buf i).data k = s.left k)
    (hknown : s.polite = true → ∀ n b', n < k' → lh[n]? = some b' →
      update s.left (L.dev, b) (s.buf i).data (L.dev, logSlot L.start n) =
        update s.left (L.dev, b) (s.buf i).data (L.dev, b')) :
    Stepped L p s t (.still (update g r (some (b, .written))) pins lh k' c) := by
  simp only [State.exec, hi, State.bwrite, if_pos hh.lock] at hx
  cases hx
  have hgood := leave_good hg hh.lock rfl rfl rfl rfl (.inl rfl)
    (r := { s.toHistory with dirty := update s.dirty i false, left := update s.left (s.buf i).key (s.buf i).data })
  have hf := leave_frame hg hh.lock rfl rfl (d := update s.disk (s.buf i).key (s.buf i).data)
    (r := { s.toHistory with dirty := update s.dirty i false, left := update s.left (s.buf i).key (s.buf i).data }) fun k hk => update_of_ne hk ..
  refine ⟨hgood, ?_, ⟨some i, hf⟩, fun hin => hin.of_same (fun _ => rfl) rfl, ht, rfl, fun _ hb => hb, fun _ _ => rfl, rfl, rfl, ?_⟩
  · refine h.touch hi hf (fun j => hg.refcnt_of_lock) rfl rfl rfl rfl rfl ho ⟨hh.key, hh.lock, fun _ => hh.valid hvalid, ?_, ?_, ?_⟩ ?_
    · exact fun _ => update_self ..
    · intro _
      show update s.disk (s.buf i).key (s.buf i).data (L.dev, b) = _
      rw [hh.key, update_self]
      rfl
    · intro hv
      cases hv
    · intro hp
      have := hknown hp
      rwa [← hh.key] at this
  · intro hp
    have := hleft hp
    rwa [← hh.key] at this

theorem writeLog_stepped
    (hhome : s.polite = true → ∀ b ∈ lh, ¬ InLog L.start b) (hb : lh[k]? = some b) (hr : g r = some (logSlot L.start k, .copied))
    (ho : g (Reg.other r) = some (b, .clean)) (hx : s.exec L p (.bwrite r) = .ok t) :
    Stepped L p s t (.still (update g r (some (logSlot L.start k, .written))) pins lh (k + 1) c) := by
  obtain ⟨i, hi, hh⟩ := h.holds r _ _ hr
  obtain ⟨j, hj, hhj⟩ := h.holds _ _ _ ho
  have hlen : lh.length ≤ LOGBLOCKS := by
    have := ht.le
    rwa [h.lh] at this
  have hk : k < LOGBLOCKS := lt_of_lt_of_le (List.getElem?_eq_some_iff.1 hb).1 hlen
  have hslot : ∀ b', ¬ InLog L.start b' → (L.dev, b') ≠ (L.dev, logSlot L.start k) := by
    intro b' hb' heq
    obtain ⟨-, rfl⟩ := Prod.mk.inj heq
    exact hb' (LogAux.inLog_logSlot L.start k hk)
  refine bwrite_stepped hg ht h hi hh Val.noConfusion (fun b' => by simp [ho]) hx (fun _ k' hk' => ?_) fun hp n b' hn hb' => ?_
  · refine update_of_ne ?_ ..
    rintro rfl
    exact hk' ⟨rfl, LogAux.inLog_logSlot L.start k hk⟩
  · rw [update_of_ne (hslot b' (hhome hp b' (mem_of_getElem? hb')))]
    by_cases hnk : n = k
    · subst hnk
      obtain rfl := some.inj (hb.symm.trans hb')
      rw [update_self, hh.copied rfl j hj, hhj.data hg]
    · rw [update_of_ne fun heq => hnk (LogAux.logSlot_inj L.start (by omega) hk (Prod.mk.inj heq).2)]
      exact h.known hp n b' (by show n < k; omega) hb'

theorem writeHead_stepped
    (hhome : s.polite = true → ∀ b ∈ lh, ¬ InLog L.start b) (hr : g r = some (L.start, .header)) (ho : g (Reg.other r) = none)
    (hx : s.exec L p (.bwrite r) = .ok t) :
    Stepped L p s t (.still (update g r (some (L.start, .written))) pins lh k c) := by
  obtain ⟨i, hi, hh⟩ := h.holds r _ _ hr
  have hlen : lh.length ≤ LOGBLOCKS := by
    have := ht.le
    rwa [h.lh] at this
  refine bwrite_stepped hg ht h hi hh Val.noConfusion (fun b' => by simp [ho]) hx (fun _ k' hk' => ?_) fun hp n b' hn hb' => ?_
  · refine update_of_ne ?_ ..
    rintro rfl
    exact hk' ⟨rfl, LogAux.inLog_start L.start⟩
  · have hlt : n < LOGBLOCKS := lt_of_lt_of_le (List.getElem?_eq_some_iff.1 hb').1 hlen
    have hne : (L.dev, b') ≠ (L.dev, L.start) := by
      intro heq
      obtain ⟨-, rfl⟩ := Prod.mk.inj heq
      exact hhome hp _ (mem_of_getElem? hb') (LogAux.inLog_start L.start)
    rw [update_of_ne hne, update_of_ne fun heq => LogAux.logSlot_ne_start L.start n hlt (Prod.mk.inj heq).2]
    exact h.known hp n b' hn hb'

theorem install_stepped
    (hb : lh[n]? = some b) (hn : n < k) (hr : g r = some (b, .copied)) (ho : g (Reg.other r) = some (logSlot L.start n, .clean))
    (hx : s.exec L p (.bwrite r) = .ok t) : Stepped L p s t (.still (update g r (some (b, .written))) pins lh k c) := by
  obtain ⟨i, hi, hh⟩ := h.holds r _ _ hr
  obtain ⟨j, hj, hhj⟩ := h.holds _ _ _ ho
  -- what is written is what was left there
  have hsame : s.polite = true → update s.left (L.dev, b) (s.buf i).data = s.left := by
    intro hp
    rw [hh.copied rfl j hj, hhj.data hg, h.known hp n b hn hb, update_eq_self]
  refine bwrite_stepped hg ht h hi hh Val.noConfusion (fun b' => by simp [ho]) hx (fun hp k' _ => by rw [hsame hp]) fun hp n' b' hn' hb' => ?_
  rw [hsame hp]
  exact h.known hp n' b' hn' hb'

theorem bunpin_stepped
    (hr : g r = some (b, .written)) (hb : b ∈ pins) (hx : s.exec L p (.bunpin r) = .ok t) :
    Stepped L p s t (.still g (pins.erase b) lh k c) := by
  obtain ⟨i, hi, hh⟩ := h.holds r _ _ hr
  obtain rfl : s.bunpin i = t := by simpa [State.exec, hi] using hx
  have hgiven := hg.given_of_lock hh.lock
  have hblock : (s.buf i).blockno = b := (Prod.mk.inj hh.key).2
  have hpin : Pinned L s i := Good.pinned_of_key hgiven hh.key (h.pins ▸ hb)
  have hdisk : s.disk (s.buf i).key = s.left (s.buf i).key := by
    rw [← hg.clean i hgiven (hh.valid Val.noConfusion) (hh.clean (.inr (.inr rfl))), hh.key]
    exact hh.disk rfl
  have hbuf := setBuf_alike (c := s.toCache) (i := i) (f := fun b => b.withRefcnt (b.refcnt - 1)) ⟨rfl, rfl, rfl, rfl⟩
  have hf : Frame p none s (s.bunpin i) := ⟨fun _ _ => rfl, fun _ _ => rfl, fun _ _ => rfl, fun _ _ => rfl, fun j _ => (hbuf j).key,
    fun j _ _ => Kept.of_alike (hbuf j) rfl rfl rfl, fun j hj => by cases hj⟩
  refine .of_same (unpin_good hg hpin hdisk) ?_ hf (fun hin => hin.of_same (fun j => (hbuf j).lock) rfl) ht rfl rfl rfl rfl
  refine h.keep rfl (fun j _ => Kept.of_alike (hbuf j) rfl rfl rfl) (fun j _ => (hbuf j).key) rfl h.idle (fun b' hw => by cases hw) h.drop ?_
    h.lh h.pc h.known
  show s.pins.erase (s.buf i).blockno = pins.erase b
  rw [hblock, h.pins]

theorem releasesleep_stepped
    (hr : g r = some (b, v)) (hv : v = .clean ∨ v = .written) (ho : g.Uncopied r)
    (hx : s.exec L p (.releasesleep r) = .ok t) : Stepped L p s t ⟨none, true, update g r none, pins, lh, k, c⟩ := by
  obtain ⟨i, hi, hh⟩ := h.holds r _ _ hr
  simp only [State.exec, hi] at hx
  obtain ⟨u, hu, hx⟩ := ok_of_bind hx
  cases hx
  obtain ⟨hl, rfl⟩ := releasesleep_eq hu
  have hdrop : s.drop p = none := by simpa using h.drop
  have hgood := releasesleep_good hg hl hdrop (hh.clean (.inr hv))
  have hf : Frame p (some i) s { s with toCache := s.toCache.setBuf i (·.withLock none), drop := update s.drop p (some i),
                                        regs := update s.regs p (update (s.regs p) r none) } :=
    .of_setBuf (f := (·.withLock none)) hg (hg.given_of_lock hl) (.inr hl) rfl rfl (fun _ _ => rfl) (fun q hq => update_of_ne hq ..)
      (fun q hq => update_of_ne hq ..) rfl (fun _ _ => rfl) (fun _ _ => rfl) fun _ _ => rfl
  refine .of_same (hgood.congr rfl rfl rfl rfl rfl rfl rfl) ?_ hf
    (fun hin => hin.hand r (update_self ..) fun j q hj => ?_) ht rfl rfl rfl rfl
  rotate_left
  · by_cases hji : j = i
    · rw [hji, setBuf_self] at hj
      cases hj
    · refine .inr ⟨(congrArg Buf.lock (setBuf_of_ne s.toCache (·.withLock none) hji)).symm.trans hj, ?_⟩
      rw [hi]
      exact fun heq => hji (some.inj heq).symm
  refine h.hand r (x := none) (update_self ..) rfl (fun _ => rfl) (fun b' v hb => by cases hb) (fun j hj => ?_) ho (h.idle rfl) rfl ?_
    h.pins h.lh h.pc h.known
  · have hji : some j ≠ some i := fun heq => h.ne r i hi (heq ▸ hj)
    have hl : (s.buf j).lock ≠ none := by simp [h.held hj]
    exact ⟨some_ne_none j |>.symm, hf.kept j hl hji, hf.key j (hg.refcnt_of_lock hl)⟩
  · show (update s.drop p (some i) p).isSome = true
    rw [update_self]
    rfl

end Hands

theorem decref_stepped (h : Link L p s ⟨none, true, g, pins, lh, k, c⟩)
    (hx : s.decref p = .ok t) : Stepped L p s t (.still g pins lh k c) := by
  obtain ⟨i, hi⟩ := isSome_iff_exists.1 h.drop
  simp only [State.decref, hi] at hx
  cases hx
  have hf := decref_frame s p i
  refine .of_same (decref_good hg hi) ?_ hf (fun hin => hin.of_same (fun j => (decref_alike s.toCache i j).lock) rfl) ht rfl rfl rfl rfl
  refine h.keep rfl (fun j hj => hf.kept j (by simp [hj]) (by simp)) (fun j hj => hf.key j (hg.refcnt_of_lock (by simp [hj]))) rfl h.idle
    (fun b' hw => by cases hw) ?_ h.pins h.lh h.pc h.known
  show (update s.drop p none p).isSome = false
  rw [update_self]
  rfl

theorem clear_stepped (h : Link L p s (.still g [] lh k false))
    (hx : s.exec L p .clear = .ok t) : Stepped L p s t (.still g [] [] k true) := by
  simp only [State.exec] at hx
  split at hx
  · next trans hstep =>
    cases hx
    have hmoves := Trans.TransAux.moves_of_step hstep
    have hturns := ht.moves hmoves
    cases hmoves with
    | commit hp =>
      have hkept : ∀ j, Kept s { s with trans := s.trans.setPc (Trans.clear s.trans.log) p .committed } j :=
        fun j => ⟨rfl, rfl, rfl, rfl, rfl, rfl⟩
      refine ⟨hg.congr rfl rfl rfl rfl rfl rfl rfl, ?_, ⟨none, ?_⟩, fun hin => hin.of_same (fun _ => rfl) rfl, hturns, rfl, ?_, ?_, rfl, rfl, fun _ _ _ => rfl⟩
      · exact h.keep rfl (fun j _ => hkept j) (fun _ _ => rfl) rfl h.idle (fun b' hw => by cases hw) h.drop h.pins rfl
          (Trans.TransAux.setPc_self ..) fun _ n b' _ hb => by simp at hb
      · exact ⟨fun _ _ => rfl, fun _ _ => rfl, fun _ _ => rfl, fun _ _ => rfl, fun _ _ => rfl, fun j _ _ => hkept j, fun j hj => by cases hj⟩
      · intro b' hb
        cases hb
      · exact fun q hq => Trans.TransAux.setPc_of_ne _ _ _ hq
  · cases hx

/-- A step of `commit`, whichever it is. -/
theorem stepped {alone : Prop} {a : Act} (h : Link L p s y)
    (hhome : s.polite = true → ∀ b ∈ y.lh, ¬ InLog L.start b) (hm : Move L alone y a y') (hx : s.exec L p a = .ok t) : Stepped L p s t y' := by
  cases hm with
  | bget hfree => exact bget_stepped hg ht h hx
  | acquiresleep r hr ho hne => exact acquiresleep_stepped hg ht h hr ho hx
  | fill r hr ho => exact fill_stepped hg ht h hr ho hx
  | @memmove _ _ _ _ _ b b' r hr ho =>
    obtain ⟨i, hi, hh⟩ := h.holds r _ _ hr
    obtain ⟨j, hj, -⟩ := h.holds _ _ _ ho
    obtain rfl : s.store i (s.buf j).data = t := by simpa [State.exec, hi, hj] using hx
    refine store_stepped hg ht h _ hi hh (fun b' => by simp [ho]) (.inl rfl) fun _ j' hj' => ?_
    rw [some.inj (hj.symm.trans hj')]
  | header r lh' hr ho =>
    obtain ⟨i, hi, hh⟩ := h.holds r _ _ hr
    obtain rfl : s.store i (putHead lh' (s.buf i).data) = t := by simpa [State.exec, hi] using hx
    exact store_stepped hg ht h _ hi hh (fun b' => by simp [ho]) (.inr rfl) fun hv => by cases hv
  | writeLog r hb hr ho => exact writeLog_stepped hg ht h hhome hb hr ho hx
  | writeHead r hr ho => exact writeHead_stepped hg ht h hhome hr ho hx
  | install r hb hn hr ho => exact install_stepped hg ht h hb hn hr ho hx
  | bunpin r hr hb => exact bunpin_stepped hg ht h hr hb hx
  | releasesleep r hr hv ho => exact releasesleep_stepped hg ht h hr hv ho hx
  | decref => exact decref_stepped hg ht h hx
  | clear => exact clear_stepped hg ht h hx

end

end BioAux

end Xv6.Bio
