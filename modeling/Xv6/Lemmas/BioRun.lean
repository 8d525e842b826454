import Xv6.Lemmas.BioCommit

/-!
# What every step keeps

`Inv` is what holds in every state of the system: the cache is in order (`Good`), and so are the turns to commit; the process that commits
is somewhere in `commit` and what it knows there is so (`Link`); blocks are pinned exactly while they are logged; and while the processes
leave alone what the log relies on, the log's own writes change no home block.
-/

namespace Xv6.Bio

open Lib Trans.TransAux Function List

namespace BioAux

variable {P : Type} {L : Layout} {s t : State P} {p q : P} {i j : Slot} {k : Option Slot} {y : Sym} {trans : Trans.State P} {named : List Uint}

theorem Link.busy (h : Link L p s y) : Busy (s.trans.pc p) := by
  rw [h.pc]
  split
  · exact .inr rfl
  · exact .inl rfl

/-- A step that touches no buffer. -/
theorem Frame.of_cache (hcache : t.toCache = s.toCache) (hwant : t.want = s.want) (hdrop : t.drop = s.drop) (hregs : t.regs = s.regs)
    (hscript : ∀ q, q ≠ p → t.script q = s.script q) (hhist : t.toHistory = s.toHistory) : Frame p none s t := by
  refine ⟨fun q _ => by rw [hwant], fun q _ => by rw [hdrop], fun q _ => by rw [hregs], hscript, fun j _ => by rw [hcache], fun j _ _ => ?_, ?_⟩
  · exact Kept.of_buf (by rw [hcache]) (by rw [hhist]) (by rw [hhist]) (by rw [hcache])
  · intro j hj
    cases hj

theorem inLog_iff {b : Uint} : State.inLog L b = true ↔ InLog L.start b := by
  unfold State.inLog InLog
  simp only [any_eq_true, mem_range, decide_eq_true_eq, Nat.lt_succ_iff]

/-- What a process that spares the log does not write. -/
theorem spares_iff {k : Key} {logged : Bool} : s.spares L k logged = true ↔
    ¬ (k.1 = L.dev ∧ (InLog L.start k.2 ∨ logged = false ∧ s.trans.log.committing = true ∧ k.2 ∈ s.trans.log.lh)) := by
  unfold State.spares
  rw [← inLog_iff]
  cases logged <;> cases s.trans.log.committing <;> simp [imp_iff_not_or]

/-- Buffers are linked one by one, each in first place. -/
theorem foldl_pushFront {l order : List Slot} {c : Cache P} (hring : Ring c.next c.prev order) (hl : l.Nodup) (hdisj : ∀ x ∈ l, x ∉ order) :
    Ring (l.foldl Cache.pushFront c).next (l.foldl Cache.pushFront c).prev (l.reverse ++ order) ∧
      (l.foldl Cache.pushFront c).buf = c.buf ∧ (l.foldl Cache.pushFront c).disk = c.disk := by
  induction l generalizing c order with
  | nil => exact ⟨hring, rfl, rfl⟩
  | cons x l ih =>
    obtain ⟨hx, hl⟩ := nodup_cons.1 hl
    have hpush : Ring (c.pushFront x).next (c.pushFront x).prev (x :: order) := hring.push (hdisj x mem_cons_self)
    have hrest := ih hpush hl fun y hy hmem => by
      rcases mem_cons.1 hmem with rfl | hmem
      · exact hx hy
      · exact hdisj y (mem_cons_of_mem x hy) hmem
    rw [reverse_cons, append_assoc]
    exact hrest

variable [Fintype P]

/-- What holds in every state. -/
structure Inv (L : Layout) (s : State P) : Prop where
  good : Good L s
  turns : Turns s.trans
  home : s.polite = true → ∀ b ∈ s.trans.log.lh, ¬ InLog L.start b
  left : s.polite = true → ∀ k : Key, ¬ (k.1 = L.dev ∧ InLog L.start k.2) → s.left k = s.clients k
  free : ∀ p, s.script p = [] → ∀ r, s.regs p r = none
  script : ∀ p, s.script p ≠ [] → ∃ y n, Link L p s y ∧ Run (Move L False) y (s.script p) (.empty [] [] n true)
  pins : (∀ p, s.script p = []) → ∀ b, b ∈ s.pins ↔ b ∈ s.trans.log.lh
  empty : ∀ p, s.script p = [] → s.trans.pc p = .commit → s.trans.log.lh = []

theorem Inv.busy (h : Inv L s) (hp : s.script p ≠ []) : Busy (s.trans.pc p) := by
  obtain ⟨y, n, hl, -⟩ := h.script p hp
  exact hl.busy

/-- What the process that commits knows survives the steps of the others. -/
theorem Link.other (h : Link L p s y) (hg : Good L s) (hf : Frame q k s t) (hq : p ≠ q)
    (hpins : t.pins = s.pins) (hlh : t.trans.log.lh = s.trans.log.lh) (hpc : t.trans.pc p = s.trans.pc p)
    (hknown : t.polite = true → s.polite = true ∧
      ∀ b, InLog L.start b ∨ b ∈ s.trans.log.lh → t.left (L.dev, b) = s.left (L.dev, b))
    (hlen : s.trans.log.lh.length ≤ LOGBLOCKS) : Link L p t y := by
  refine h.keep (hf.regs p hq) (fun j hj => hf.held hq hj) (fun j hj => hf.key j (hg.refcnt_of_lock (by simp [hj]))) rfl (fun hw => ?_)
    (fun b hw => ?_) ?_ (hpins.trans h.pins) (hlh.trans h.lh) (hpc.trans h.pc) fun hp n b hn hb => ?_
  · rw [hf.want p hq]
    exact h.idle hw
  · obtain ⟨j, hj, hk⟩ := h.want b hw
    exact ⟨j, by rw [hf.want p hq, hj], (hf.key j (hg.refcnt_of_want hj)).trans hk⟩
  · rw [hf.drop p hq]
    exact h.drop
  · obtain ⟨hps, hsame⟩ := hknown hp
    have hlt : n < LOGBLOCKS := by
      rw [h.lh] at hlen
      exact lt_of_lt_of_le (List.getElem?_eq_some_iff.1 hb).1 hlen
    rw [hsame _ (.inl (LogAux.inLog_logSlot L.start n hlt)), hsame b (.inr (h.lh ▸ mem_of_getElem? hb))]
    exact h.known hps n b hn hb

/-- A step of process `p` keeps the invariant, and to the others what they hold. -/
def Next (L : Layout) (p : P) (s t : State P) : Prop := Inv L t ∧ ∃ k, Frame p k s t

/-- A step of a process that is not in `commit` and does not touch the log in memory. -/
theorem Inv.of_client (h : Inv L s) (hp : s.script p = []) (hg : Good L t) (hf : Frame p k s t) (hscript : t.script = s.script)
    (hregs : t.regs = s.regs) (htrans : t.trans = s.trans) (hpins : t.pins = s.pins)
    (hpolite : t.polite = true → s.polite = true)
    (hleft : t.polite = true → ∀ k : Key, ¬ (k.1 = L.dev ∧ InLog L.start k.2) → t.left k = t.clients k)
    (hlog : t.polite = true → ∀ b, InLog L.start b ∨ s.trans.log.committing = true ∧ b ∈ s.trans.log.lh →
      t.left (L.dev, b) = s.left (L.dev, b)) : Next L p s t := by
  refine ⟨?_, k, hf⟩
  exact {
    good := hg
    turns := by rw [htrans]; exact h.turns
    home hpt := by rw [htrans]; exact h.home (hpolite hpt)
    left := hleft
    free := by rw [hscript, hregs]; exact h.free
    script q hq := by
      rw [hscript] at hq ⊢
      obtain ⟨y, n, hl, hrun⟩ := h.script q hq
      have hqp : q ≠ p := fun heq => hq (heq ▸ hp)
      have hc := h.turns.busy q hl.busy
      exact ⟨y, n, hl.other h.good hf hqp hpins (by rw [htrans]) (by rw [htrans])
        (fun hpt => ⟨hpolite hpt, fun b hb => hlog hpt b (hb.imp_right fun hb => ⟨hc, hb⟩)⟩) h.turns.le, hrun⟩
    pins := by rw [hscript, hpins, htrans]; exact h.pins
    empty := by rw [hscript, htrans]; exact h.empty }

/-- A step that leaves alone what is left in the blocks, too. -/
theorem Inv.of_same (h : Inv L s) (hp : s.script p = []) (hg : Good L t) (hf : Frame p k s t) (hscript : t.script = s.script)
    (hregs : t.regs = s.regs) (htrans : t.trans = s.trans) (hpins : t.pins = s.pins) (hpolite : t.polite = s.polite)
    (hleft : t.left = s.left) (hclient : t.clients = s.clients) : Next L p s t := by
  refine h.of_client hp hg hf hscript hregs htrans hpins (fun hpt => hpolite ▸ hpt) (fun hpt => ?_) fun _ b _ => by rw [hleft]
  rw [hleft, hclient]
  exact h.left (hpolite ▸ hpt)

theorem fill_inv (h : Inv L s) (hp : s.script p = []) (hl : (s.buf i).lock = some p) : Next L p s (s.fill i) :=
  h.of_same hp (fill_good h.good hl) (fill_frame h.good hl) rfl rfl rfl rfl rfl rfl rfl

theorem store_inv (h : Inv L s) (hp : s.script p = []) (hhas : s.Has p i) (d : Block) : Next L p s (s.store i d) :=
  h.of_same hp (store_good h.good hhas.1 hhas.2 d) (store_frame h.good hhas.1 d) rfl rfl rfl rfl rfl rfl rfl

/-- A client writes a buffer. -/
theorem bwrite_inv (h : Inv L s) (hp : s.script p = []) (hhas : s.Has p i) {r : History} (hgiven : r.given = s.given) (hpins : r.pins = s.pins)
    (hdirty : r.dirty = update s.dirty i false)
    (hleft : r.left = update s.left (s.buf i).key (s.buf i).data)
    (hclient : r.clients = update s.clients (s.buf i).key (s.buf i).data)
    (hpolite : r.polite = (s.polite && s.spares L (s.buf i).key false)) :
    Next L p s { s with toCache := s.toCache.write i, toHistory := r } := by
  have hboth : r.polite = true → s.polite = true ∧ s.spares L (s.buf i).key false = true := fun hr => by
    rw [hpolite] at hr
    simpa using hr
  refine h.of_client hp (leave_good h.good hhas.1 hgiven hpins hdirty hleft (.inl rfl))
    (leave_frame h.good hhas.1 hdirty hleft fun k hk => update_of_ne hk ..) rfl rfl rfl hpins (fun hr => (hboth hr).1)
    (fun hr k hk => ?_) fun hr b hb => ?_
  · show r.left k = r.clients k
    rw [hleft, hclient]
    by_cases hki : k = (s.buf i).key
    · rw [hki, update_self, update_self]
    · rw [update_of_ne hki, update_of_ne hki]
      exact h.left (hboth hr).1 k hk
  · show r.left (L.dev, b) = s.left (L.dev, b)
    rw [hleft]
    refine update_of_ne (fun heq => ?_) ..
    refine spares_iff.1 (hboth hr).2 ?_
    rw [← heq]
    exact ⟨rfl, hb.imp_right fun hb => ⟨rfl, hb⟩⟩

/-- While an operation is running, nobody commits. -/
theorem Inv.script_nil (h : Inv L s) (hp : s.trans.pc p = .inOp named) (q : P) : s.script q = [] := by
  by_contra hq
  exact h.turns.quiet (h.turns.busy q (h.busy hq)) p named hp

theorem Inv.not_busy (h : Inv L s) (hp : s.trans.pc p = .inOp named) (q : P) : ¬ Busy (s.trans.pc q) :=
  fun hq => h.turns.quiet (h.turns.busy q hq) p named hp

/-- A step of a process that does not commit, on the log in memory only. -/
theorem Inv.of_trans (h : Inv L s) (ht : Turns trans) (hlh : trans.log.lh = s.trans.log.lh)
    (hpc : ∀ q, Busy (s.trans.pc q) → trans.pc q = s.trans.pc q) (hcommit : ∀ q, trans.pc q = .commit → s.trans.pc q = .commit) :
    Inv L { s with trans := trans } where
  good := h.good.congr rfl rfl rfl rfl rfl rfl rfl
  turns := ht
  home hr b hb := h.home hr b (hlh ▸ hb)
  left := h.left
  free := h.free
  script q hq := by
    obtain ⟨y, n, hl, hrun⟩ := h.script q hq
    refine ⟨y, n, ?_, hrun⟩
    exact hl.keep rfl (fun j _ => ⟨rfl, rfl, rfl, rfl, rfl, rfl⟩) (fun _ _ => rfl) rfl hl.idle hl.want hl.drop hl.pins (hlh.trans hl.lh)
      ((hpc q hl.busy).trans hl.pc) hl.known
  pins hn b := by rw [hlh]; exact h.pins hn b
  empty q hq hc := hlh.trans (h.empty q hq (hcommit q hc))

/-- `commit` is over and its process lets the others go on. -/
theorem Inv.finish (h : Inv L s) (hp : s.script p = []) (hc : s.trans.pc p = .committed ∨ s.trans.pc p = .commit)
    (ht : Turns trans) (hlh : trans.log.lh = s.trans.log.lh) (hpc : ∀ q, trans.pc q ≠ .commit) : Inv L { s with trans := trans } := by
  have hbusy : Busy (s.trans.pc p) := hc.symm
  have hnil : ∀ q, s.script q = [] := fun q => by
    by_contra hq
    exact hq (h.turns.alone q p (h.busy hq) hbusy ▸ hp)
  exact ⟨h.good.congr rfl rfl rfl rfl rfl rfl rfl, ht, fun hr b hb => h.home hr b (hlh ▸ hb), h.left, h.free,
    fun q hq => absurd (hnil q) hq, fun _ b => by rw [hlh]; exact h.pins hnil b, fun q _ hq => absurd hq (hpc q)⟩

theorem boot_inv (disk : Key → Block) : Inv L (State.boot disk : State P) := by
  have hring : Ring (fun _ => none : Option Slot → Option Slot) (fun _ => none) [] := Ring.nil rfl rfl
  obtain ⟨hlinks, hbuf, hdisk⟩ := foldl_pushFront
    (c := (⟨fun _ => ⟨false, 0, 0, 0, none, fun _ => 0⟩, fun _ => none, fun _ => none, disk⟩ : Cache P)) hring (nodup_finRange NBUF)
    fun x _ => not_mem_nil
  have hempty : ∀ i, (State.boot disk : State P).buf i = ⟨false, 0, 0, 0, none, fun _ => 0⟩ := fun i => congrFun hbuf i
  have hgood : Good L (State.boot disk : State P) := by
    refine ⟨⟨_, hlinks, fun i => ?_, fun i j hg => ?_⟩, fun i j hg => ?_, fun i _ => ?_, fun i => ?_, fun i hg => ?_, fun k => ?_, fun i hd => ?_,
      fun b hb => ?_, nodup_nil⟩
    · simp
    · cases hg
    · cases hg
    · rw [hempty]
      exact ⟨rfl, rfl, rfl⟩
    · have hzero : tally (fun _ : P => (none : Option Slot)) i = 0 := by simp [tally]
      have hpin : ¬ Pinned L (State.boot disk : State P) i := fun hp => by cases hp.1
      rw [if_neg hpin, hempty]
      show 0 = tally (fun _ => none) i + tally (fun _ => none) i + 0 + 0
      rw [hzero]
    · cases hg
    · exact .inl (congrFun hdisk k)
    · cases hd
    · cases hb
  exact ⟨hgood, boot_turns, fun _ b hb => absurd hb not_mem_nil, fun _ _ _ => rfl, fun _ _ _ => rfl, fun p hp => absurd rfl hp,
    fun _ b => Iff.rfl, fun p _ hc => by cases hc⟩

variable [DecidableEq P] {c : Trans.Pc} {u : Trans.State P} {log : Trans.Log} {l : Label P}

theorem bget_inv {dev blockno : Uint} (h : Inv L s) (hp : s.script p = []) (hw : s.want p = none) (hx : s.bget p dev blockno = .ok t) : Next L p s t := by
  obtain ⟨i, hgot, hgood, hf⟩ := bget_ok h.good hw hx
  exact h.of_same hp hgood hf hgot.script hgot.regs hgot.trans hgot.pins hgot.polite hgot.left hgot.client

theorem acquiresleep_inv (h : Inv L s) (hp : s.script p = []) (hx : s.acquiresleep p = .ok (i, t)) : Next L p s t := by
  obtain ⟨hw, hl, rfl⟩ := acquiresleep_eq hx
  refine h.of_same (k := some i) hp (acquiresleep_good h.good hw hl) ?_ rfl rfl rfl rfl rfl rfl rfl
  exact .of_setBuf (f := (·.withLock (some p))) h.good (h.good.given_of_refcnt (h.good.refcnt_of_want hw)) (.inl hl) rfl rfl
    (fun q hq => update_of_ne hq ..) (fun _ _ => rfl) (fun _ _ => rfl) rfl (fun _ _ => rfl) (fun _ _ => rfl) fun _ _ => rfl

theorem releasesleep_inv (h : Inv L s) (hp : s.script p = []) (hd : s.drop p = none) (hclean : s.dirty i = false)
    (hx : s.releasesleep p i = .ok t) : Next L p s t := by
  obtain ⟨hl, rfl⟩ := releasesleep_eq hx
  refine h.of_same (k := some i) hp (releasesleep_good h.good hl hd hclean) ?_ rfl rfl rfl rfl rfl rfl rfl
  exact .of_setBuf (f := (·.withLock none)) h.good (h.good.given_of_lock hl) (.inr hl) rfl rfl (fun _ _ => rfl)
    (fun q hq => update_of_ne hq ..) (fun _ _ => rfl) rfl (fun _ _ => rfl) (fun _ _ => rfl) fun _ _ => rfl

theorem decref_inv (h : Inv L s) (hp : s.script p = []) (hx : s.decref p = .ok t) : Next L p s t := by
  unfold State.decref at hx
  split at hx
  · cases hx
  · next i hi =>
    cases hx
    exact h.of_same hp (decref_good h.good hi) (decref_frame s p i) rfl rfl rfl rfl rfl rfl rfl

/-- What a buffer holds becomes part of an operation. -/
theorem Inv.of_logged (h : Inv L s) (hop : s.trans.pc p = .inOp named) (hdev : (s.buf i).dev = L.dev)
    (hstep : s.trans.step (.logWrite p (s.buf i).blockno) = some t.trans) (hg : Good L t) (hscript : t.script = s.script)
    (hregs : t.regs = s.regs) (hpins : ∀ b, b ∈ t.pins ↔ b ∈ t.trans.log.lh)
    (hleft : t.left = update s.left (s.buf i).key (s.buf i).data)
    (hclient : t.clients = update s.clients (s.buf i).key (s.buf i).data)
    (hpolite : t.polite = (s.polite && s.spares L (s.buf i).key true)) : Inv L t := by
  have hmoves := moves_of_step hstep
  have hboth : t.polite = true → s.polite = true ∧ s.spares L (s.buf i).key true = true := fun hr => by
    rw [hpolite] at hr
    simpa using hr
  have hlh : ∀ b ∈ t.trans.log.lh, b ∈ s.trans.log.lh ∨ b = (s.buf i).blockno := by
    generalize t.trans = trans at hmoves
    cases hmoves with
    | absorb => exact fun b hb => .inl hb
    | append => exact fun b hb => (mem_append.1 hb).imp_right mem_singleton.1
  have hpc : ∀ q, t.trans.pc q = .commit → s.trans.pc q = .commit := by
    intro q hq
    generalize t.trans = trans at hmoves hq
    by_cases hqp : q = p
    · cases hmoves <;> rw [hqp, setPc_self] at hq <;> cases hq
    · cases hmoves <;> rwa [setPc_of_ne _ _ _ hqp] at hq
  refine ⟨hg, h.turns.moves hmoves, fun hr b hb => ?_, fun hr k hk => ?_, by rw [hscript, hregs]; exact h.free, fun q hq => ?_, fun _ => hpins, fun q hq hc => ?_⟩
  · rcases hlh b hb with hb | rfl
    · exact h.home (hboth hr).1 b hb
    · exact fun hin => spares_iff.1 (hboth hr).2 ⟨hdev, .inl hin⟩
  · rw [hleft, hclient]
    by_cases hki : k = (s.buf i).key
    · rw [hki, update_self, update_self]
    · rw [update_of_ne hki, update_of_ne hki]
      exact h.left (hboth hr).1 k hk
  · rw [hscript] at hq
    exact absurd (h.script_nil hop q) hq
  · exact absurd (.inl (hpc q hc)) (h.not_busy hop q)

theorem logWrite_inv (h : Inv L s) (hhas : s.Has p i) (hdev : (s.buf i).dev = L.dev) (hx : s.logWrite p i = .ok t) :
    Next L p s { t with polite := s.polite && s.spares L (s.buf i).key true } := by
  have hgiven := h.good.given_of_lock hhas.1
  unfold State.logWrite at hx
  split at hx
  · cases hx
  · next trans hstep =>
    have hmoves := moves_of_step hstep
    obtain ⟨named, hop⟩ : ∃ named, s.trans.pc p = .inOp named := by
      cases hmoves with
      | absorb hp | append hp => exact ⟨_, hp⟩
    have hpins := h.pins (h.script_nil hop)
    dsimp only at hx
    split at hx
    · next hb =>
      cases hx
      have hgood := leave_good h.good hhas.1 rfl rfl rfl rfl (.inr ⟨rfl, hgiven, hdev, (hpins _).2 hb⟩)
        (r := { s.toHistory with dirty := update s.dirty i false, left := update s.left (s.buf i).key (s.buf i).data })
      refine ⟨h.of_logged hop hdev hstep (hgood.congr rfl rfl rfl rfl rfl rfl rfl) rfl rfl ?_ rfl rfl rfl, some i,
        .of_setBuf (f := id) h.good hgiven (.inr hhas.1) rfl (by rw [setBuf_id]) (fun _ _ => rfl) (fun _ _ => rfl) (fun _ _ => rfl) rfl
          (fun j hj => update_of_ne hj ..) (fun k hk => update_of_ne hk ..) fun _ _ => rfl⟩
      cases hmoves with
      | absorb => exact hpins
      | append _ hnb => exact absurd hb hnb
    · next hb =>
      cases hx
      have hself : (s.toCache.bpin i).buf i = (s.buf i).withRefcnt ((s.buf i).refcnt + 1) := setBuf_self ..
      have hpin := pin_good h.good hgiven hdev hhas.2 (fun hmem => hb ((hpins _).1 hmem)) rfl rfl rfl rfl
        (r := { s.toHistory with pins := (s.buf i).blockno :: s.pins })
      have hgood := leave_good hpin (i := i) (p := p) ((congrArg Buf.lock hself).trans hhas.1) rfl rfl rfl
        (r := { s.toHistory with dirty := update s.dirty i false, pins := (s.buf i).blockno :: s.pins, left := update s.left (s.buf i).key (s.buf i).data })
        (by simp only [hself]; rfl) (.inr ⟨rfl, hgiven, (congrArg Buf.dev hself).trans hdev, by simp only [hself]; exact mem_cons_self⟩)
      refine ⟨h.of_logged hop hdev hstep (hgood.congr rfl rfl rfl rfl rfl rfl rfl) rfl rfl ?_ rfl rfl rfl, some i,
        .of_setBuf (f := fun b => b.withRefcnt (b.refcnt + 1)) h.good hgiven (.inr hhas.1) rfl rfl (fun _ _ => rfl) (fun _ _ => rfl)
          (fun _ _ => rfl) rfl (fun j hj => update_of_ne hj ..) (fun k hk => update_of_ne hk ..) fun _ _ => rfl⟩
      cases hmoves with
      | absorb _ hyes => exact absurd hyes hb
      | append =>
        intro b
        show b ∈ (s.buf i).blockno :: s.pins ↔ b ∈ s.trans.log.lh ++ [(s.buf i).blockno]
        rw [mem_cons, mem_append, mem_singleton, hpins b, or_comm]

omit [Fintype P] in
/-- The others are where they were if a process that does not commit goes on to something else. -/
theorem busy_setPc (hp : ¬ Busy (u.pc p)) (q : P) (hq : Busy (u.pc q)) :
    (u.setPc log p c).pc q = u.pc q := setPc_of_ne _ _ _ fun heq => hp (heq ▸ hq)

omit [Fintype P] in
theorem commit_setPc (hc : c ≠ .commit) (q : P) (hq : (u.setPc log p c).pc q = .commit) :
    u.pc q = .commit := by
  by_cases hqp : q = p
  · rw [hqp, setPc_self] at hq
    exact absurd hq hc
  · rwa [setPc_of_ne _ _ _ hqp] at hq

theorem not_busy_ready (h : c = .idle ∨ c = .woken) : ¬ Busy c := by
  rcases h with rfl | rfl <;> rintro (h | h) <;> cases h

theorem beginOp_inv (h : Inv L s) (hstep : s.trans.step (.beginOp p) = some trans) : Inv L { s with trans := trans } := by
  have hmoves := moves_of_step hstep
  have hturns := h.turns.moves hmoves
  cases hmoves with
  | sleep hidle | beginOp hidle => exact h.of_trans hturns rfl (busy_setPc (not_busy_ready hidle)) (commit_setPc Trans.Pc.noConfusion)

theorem commitActs_eq_nil {start : Uint} {lh : List Uint} (h : commitActs start lh = []) : lh = [] := by
  by_contra hne
  unfold commitActs at h
  rw [if_pos (length_pos_iff.2 hne)] at h
  simp at h

/-- The last operation ends and its process goes on to `commit`. -/
theorem Inv.start (h : Inv L s) (hop : s.trans.pc p = .inOp named) (hw : s.want p = none)
    (hd : s.drop p = none) (ht : Turns trans) (hlh : trans.log.lh = s.trans.log.lh) (hpc : trans.pc p = .commit)
    (hother : ∀ q, q ≠ p → trans.pc q = s.trans.pc q) :
    Inv L { s with trans := trans, script := update s.script p (commitActs L.start trans.log.lh) } where
  good := h.good.congr rfl rfl rfl rfl rfl rfl rfl
  turns := ht
  home hr b hb := h.home hr b (hlh ▸ hb)
  left := h.left
  free q _ := h.free q (h.script_nil hop q)
  script q hq := by
    have hqp : q = p := by
      by_contra hne
      refine hq ?_
      show update s.script p (commitActs L.start trans.log.lh) q = []
      rw [update_of_ne hne]
      exact h.script_nil hop q
    subst hqp
    have hscript : update s.script q (commitActs L.start trans.log.lh) q = commitActs L.start trans.log.lh := update_self ..
    have hpins : ∀ b, b ∈ s.pins ↔ b ∈ trans.log.lh := by
      rw [hlh]
      exact h.pins (h.script_nil hop)
    have hne : trans.log.lh ≠ [] := fun hnil => hq (hscript.trans (by rw [hnil]; rfl))
    refine ⟨.empty s.pins trans.log.lh 0 false, _, ?_,
      hscript ▸ commit_moves hne ht.nodup h.good.nodup hpins False.elim⟩
    refine ⟨fun _ => hw, fun b hb => ?_, ?_, fun r _ => h.free q (h.script_nil hop q) r, fun r b v hr => ?_, fun r i hr => ?_, rfl, rfl, hpc,
      fun _ n b hn => absurd hn (Nat.not_lt_zero n)⟩
    · cases hb
    · show (s.drop q).isSome = false
      rw [hd]
      rfl
    · cases r <;> cases hr
    · have := h.free q (h.script_nil hop q) r
      simp [this] at hr
  pins hn b := by
    rw [hlh]
    exact h.pins (h.script_nil hop) b
  empty q hq hc := by
    by_cases hqp : q = p
    · subst hqp
      have hself := update_self q (commitActs L.start trans.log.lh) s.script
      exact commitActs_eq_nil (hself.symm.trans hq)
    · exact absurd (.inl ((hother q hqp).symm.trans hc)) (h.not_busy hop q)

theorem endOp_inv (h : Inv L s) (hw : s.want p = none) (hd : s.drop p = none) (hx : s.client L (.endOp p) = .ok t) : Next L p s t := by
  simp only [State.client] at hx
  split at hx
  · next trans hstep =>
    have hmoves := moves_of_step hstep
    have hturns := h.turns.moves hmoves
    cases hmoves with
    | last hop =>
      rw [if_pos (setPc_self ..)] at hx
      cases hx
      exact ⟨h.start hop hw hd hturns rfl (setPc_self ..) fun q hq => setPc_of_ne _ _ _ hq, none,
        .of_cache rfl rfl rfl rfl (fun q hq => update_of_ne hq ..) rfl⟩
    | leave hop =>
      rw [if_neg] at hx
      · cases hx
        refine ⟨h.of_trans hturns rfl (fun q hq => absurd hq (h.not_busy hop q)) fun q hq => ?_, none, .of_cache rfl rfl rfl rfl (fun _ _ => rfl) rfl⟩
        exact commit_setPc Trans.Pc.noConfusion q (wake_eq_commit.1 hq)
      · intro hcom
        rw [Trans.State.wakeup] at hcom
        simp only [setPc_self] at hcom
        cases hcom
  · cases hx

theorem endCommit_inv (h : Inv L s) (hp : s.script p = []) (hx : s.client L (.endCommit p) = .ok t) : Next L p s t := by
  simp only [State.client] at hx
  split at hx
  · next trans hstep =>
    cases hx
    obtain ⟨u, hu, hstep⟩ := Option.bind_eq_some_iff.1 hstep
    refine ⟨?_, none, .of_cache rfl rfl rfl rfl (fun _ _ => rfl) rfl⟩
    have hmoves := moves_of_step hstep
    cases hmoves with
    | endCommit hc =>
      -- nobody else is in `commit`
      have hnone : Turns u → ∀ q, (u.setPc (Trans.endCommit u.log) p .idle).wakeup.pc q ≠ .commit := fun hu q hq => by
        have hq := wake_eq_commit.1 hq
        have hqp : q ≠ p := fun heq => by
          rw [heq, setPc_self] at hq
          cases hq
        rw [setPc_of_ne _ _ _ hqp] at hq
        exact hqp (hu.alone q p (.inl hq) (.inr hc))
      split at hu
      · next hcom =>
        have hmoves := moves_of_step hu
        have hturns := h.turns.moves hmoves
        cases hmoves with
        | commit => exact h.finish hp (.inr hcom) (hturns.moves (.endCommit hc)) (h.empty p hp hcom).symm (hnone hturns)
      · cases hu
        exact h.finish hp (.inl hc) (h.turns.moves (.endCommit hc)) rfl (hnone h.turns)
  · cases hx

theorem Inv.client (h : Inv L s) (hp : s.script l.proc = []) (hable : s.Able l) (hx : s.client L l = .ok t) :
    Next L l.proc s t := by
  cases l with
  | beginOp =>
    simp only [State.client] at hx
    split at hx
    · next hstep =>
      cases hx
      exact ⟨beginOp_inv h hstep, none, .of_cache rfl rfl rfl rfl (fun _ _ => rfl) rfl⟩
    · cases hx
  | endOp => exact endOp_inv h hable.1 hable.2 hx
  | act => cases hx
  | endCommit => exact endCommit_inv h hp hx
  | bget => exact bget_inv h hp hable.1 hx
  | acquiresleep p =>
    simp only [State.client] at hx
    cases hu : s.acquiresleep p with
    | error =>
      rw [hu] at hx
      cases hx
    | ok =>
      rw [hu] at hx
      cases hx
      exact acquiresleep_inv h hp hu
  | fill =>
    simp only [State.client] at hx
    split at hx
    · next hl =>
      cases hx
      exact fill_inv h hp hl
    · cases hx
  | modify p i d =>
    simp only [State.client] at hx
    split at hx
    · next hhas =>
      cases hx
      exact store_inv h hp hhas d
    · cases hx
  | logWrite =>
    simp only [State.client] at hx
    split at hx
    · next hhas =>
      obtain ⟨u, hu, hx⟩ := ok_of_bind hx
      cases hx
      exact logWrite_inv h hhas.1 hhas.2 hu
    · cases hx
  | bwrite =>
    simp only [State.client] at hx
    split at hx
    · next hhas =>
      obtain ⟨u, hu, hx⟩ := ok_of_bind hx
      cases hx
      unfold State.bwrite at hu
      rw [if_pos hhas.1] at hu
      cases hu
      exact bwrite_inv h hp hhas rfl rfl rfl rfl rfl rfl
    · cases hx
  | releasesleep =>
    simp only [State.client] at hx
    split at hx
    · next hhas => exact releasesleep_inv h hp hable.2 hhas.2 hx
    · cases hx
  | decref => exact decref_inv h hp hx

/-- The process that commits takes a step. -/
theorem Inv.act (h : Inv L s) (hx : s.act L p = .ok t) : Next L p s t := by
  unfold State.act at hx
  split at hx
  · cases hx
  · next a script hscript =>
    obtain ⟨u, hu, hx⟩ := ok_of_bind hx
    cases hx
    have hne : s.script p ≠ [] := by simp [hscript]
    obtain ⟨y, n, hl, hrun⟩ := h.script p hne
    rw [hscript] at hrun
    obtain ⟨y', hm, hrest⟩ := hrun.uncons
    have hstep := stepped h.good h.turns hl (fun hr b hb => h.home hr b (hl.lh ▸ hb)) hm hu
    obtain ⟨k, hf⟩ := hstep.frame
    -- nobody else has anything left to do in `commit`
    have hother : ∀ q, q ≠ p → s.script q = [] := fun q hq => by
      by_contra hqs
      exact hq (h.turns.alone q p (h.busy hqs) hl.busy)
    have hscript' : ∀ q, q ≠ p → update u.script p script q = [] := fun q hq => by
      rw [update_of_ne hq, hf.script q hq]
      exact hother q hq
    have hself : update u.script p script p = script := update_self ..
    have hlink : Link L p { u with script := update u.script p script } y' :=
      hstep.link.keep rfl (fun j _ => ⟨rfl, rfl, rfl, rfl, rfl, rfl⟩) (fun _ _ => rfl) rfl hstep.link.idle hstep.link.want hstep.link.drop
        hstep.link.pins hstep.link.lh hstep.link.pc hstep.link.known
    have hend : script = [] → y' = (.empty [] [] n true) := by
      rintro rfl
      exact hrest.eq_of_nil
    refine ⟨⟨hstep.good.congr rfl rfl rfl rfl rfl rfl rfl, hstep.turns, fun hr b hb => ?_, fun hr k hk => ?_, fun q hq r => ?_, fun q hq => ?_,
      fun hnil b => ?_, fun q hq hc => ?_⟩, k, hf.want, hf.drop, hf.regs, ?_, hf.key, fun j hj hk => ?_, hf.mine⟩
    · exact h.home (hstep.polite ▸ hr) b (hstep.lh b hb)
    · have hr : s.polite = true := hstep.polite ▸ hr
      show u.left k = u.clients k
      rw [hstep.left hr k hk, hstep.client]
      exact h.left hr k hk
    · by_cases hqp : q = p
      · subst hqp
        obtain rfl := hend (hself.symm.trans hq)
        exact hlink.empty r (by cases r <;> rfl)
      · show u.regs q r = none
        rw [hf.regs q hqp]
        exact h.free q (hother q hqp) r
    · have hqp : q = p := by
        by_contra hqp
        exact hq (hscript' q hqp)
      subst hqp
      refine ⟨y', n, hlink, ?_⟩
      show Run _ y' (update u.script q script q) _
      rwa [hself]
    · obtain rfl := hend (hself.symm.trans (hnil p))
      rw [hlink.pins, hlink.lh]
    · by_cases hqp : q = p
      · subst hqp
        obtain rfl := hend (hself.symm.trans hq)
        exact hlink.lh
      · have hc : s.trans.pc q = .commit := (hstep.pc q hqp).symm.trans hc
        exact absurd (h.turns.alone q p (.inl hc) hl.busy) hqp
    · exact fun q hq => (update_of_ne hq ..).trans (hf.script q hq)
    · exact ⟨(hf.kept j hj hk).lock, (hf.kept j hj hk).valid, (hf.kept j hj hk).data, (hf.kept j hj hk).dirty, (hf.kept j hj hk).left,
        (hf.kept j hj hk).disk⟩

theorem Inv.step (h : Inv L s) (hx : s.step L l = some t) : Next L l.proc s t := by
  unfold State.step at hx
  split at hx
  · next u hu =>
    cases hx
    unfold State.run at hu
    split at hu
    · next hp =>
      split at hu
      · next hable => exact h.client hp hable hu
      · cases hu
    · exact h.act hu
  · cases hx

theorem inv_of_run {disk : Key → Block} {ls : List (Label P)} (h : Run (StepOf (State.step L)) (State.boot disk) ls s) : Inv L s :=
  h.invariant (fun _ _ _ hinv hstep => (hinv.step hstep).1) (boot_inv disk)

end BioAux

end Xv6.Bio
