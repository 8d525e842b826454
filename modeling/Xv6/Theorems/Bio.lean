import Xv6.Lemmas.BioAlone
import Xv6.Lemmas.BioRun
import Xv6.Theorems.CrashAtomic

/-!
# The buffer cache

`commit_completes_iff`: with nobody else at work, `commit` gets to its end exactly if fewer blocks are logged than there are buffers and
no logged block is its own copy in the log. `commit_eq_log`: what it then leaves on the disk outside the log is what `Xv6.commit` does,
the model of `log.c` without the cache, whose crashes are in `commit_crash_atomic`. `cache_transparent`: what holds in every state of the
system, for any number of processes that read, change, write, log and release buffers in any order while one of them commits.
-/

namespace Xv6.Bio

open Lib BioAux Trans.TransAux

variable {P : Type} [Fintype P] [DecidableEq P] {L : Layout} {s t : State P} {p : P}

/-! ## Room to commit -/

/-- With nobody else at work, `commit` gets to its end exactly if what is logged leaves it a buffer. -/
theorem commit_completes_iff (h : Loaded L p s) : (∃ t, s.commit L p = .ok t) ↔ Fits L s.trans.log.lh := by
  have hlinked := h.linked
  by_cases hnil : s.trans.log.lh = []
  · rw [State.commit, hnil]
    exact ⟨fun _ => ⟨by decide, fun n b hb => by simp at hb⟩, fun _ => ⟨s, rfl⟩⟩
  constructor
  · rintro ⟨t, ht⟩
    have hle : s.pins.length ≤ s.trans.log.lh.length := (h.good.nodup.subperm fun b hb => (h.pins b).1 hb).length_le
    have hge : s.trans.log.lh.length ≤ s.pins.length := (h.turns.nodup.subperm fun b hb => (h.pins b).2 hb).length_le
    rw [State.commit, commitActs, if_pos (List.length_pos_iff.2 hnil)] at ht
    obtain ⟨u₄, hu₄, -⟩ := foldlM_append ht
    obtain ⟨u₃, hu₃, -⟩ := foldlM_append hu₄
    obtain ⟨u₂, hu₂, -⟩ := foldlM_append hu₃
    obtain ⟨u₁, hu₁, hhead⟩ := foldlM_append hu₂
    have hslots := writeLog_ok List.drop_zero (fun b hb => (h.pins b).2 hb) hlinked hu₁
    refine ⟨?_, fun n b hb => (hslots n b n.zero_le hb).1⟩
    by_contra hfull
    have hfull : NBUF ≤ s.pins.length := by omega
    -- the header needs a buffer, too
    have hrun : Run (Move L False) (.empty s.pins s.trans.log.lh 0 false) _ _ :=
      writeLog_moves List.drop_zero (fun b hb => (h.pins b).2 hb) hle False.elim
    have hlinked₁ := hlinked.run hrun hu₁
    obtain ⟨v, hv, -⟩ := foldlM_cons hhead
    have hpins₁ : u₁.pins = s.pins := hlinked₁.link.pins
    have hstart := mem_pins_of_bget hlinked₁.good (by rw [hpins₁]; exact hfull) hv
    rw [hpins₁] at hstart
    obtain ⟨n, hn, hnot⟩ := not_all_pinned (hle.trans h.turns.le) hstart
    have hlt : n < s.trans.log.lh.length := lt_of_lt_of_le hn (hfull.trans hle)
    exact hnot ((hslots n _ n.zero_le (List.getElem?_eq_getElem hlt)).2 hfull)
  · intro hfits
    exact hlinked.run_alone h.alone (commit_moves hnil h.turns.nodup h.good.nodup h.pins fun _ => hfits)

omit [DecidableEq P] in
theorem BioAux.Loaded.of_inv (h : Inv L s) (hpc : s.trans.pc p = .commit) (hpins : ∀ b, b ∈ s.pins ↔ b ∈ s.trans.log.lh)
    (hrefs : ∀ i, (s.buf i).refcnt = if Pinned L s i then 1 else 0) (hregs : ∀ r, s.regs p r = none) : Loaded L p s :=
  ⟨h.good, h.turns, h.home, hpc, hpins, hrefs, hregs⟩

/-- A process reads a block for which it is given buffer `i`. -/
def readOne {P : Type} (p : P) (b : Uint) (i : Slot) : List (Label P) := [.bget p 1 b, .acquiresleep p, .fill p i]

/-- A process reads, logs and releases a block. -/
def logOne {P : Type} (p : P) (b : Uint) (i : Slot) : List (Label P) := readOne p b i ++ [.logWrite p i, .releasesleep p i, .decref p]

/-- An operation that logs block 100. -/
def small : List (Label (Fin 4)) := .beginOp 0 :: logOne 0 100 0 ++ [.endOp 0]

theorem commit_completes_iff_small : ∃ s t : State (Fin 4), Run (StepOf (State.step ⟨1, 2⟩)) (State.boot fun _ _ => 0) small s ∧
    s.trans.log.lh = [100] ∧ s.commit ⟨1, 2⟩ 0 = .ok t := by
  obtain ⟨s, hrun, hview⟩ := Run.exists_of_foldlM (State.step ⟨1, 2⟩) small (State.boot fun _ _ => 0) (by decide +kernel)
  obtain ⟨hlh, hpins, hpc, hrefs, ha, hb⟩ := of_decide_eq_true (hview (fun s => decide (s.trans.log.lh = [100] ∧ s.pins = [100] ∧
    s.trans.pc 0 = .commit ∧ (∀ i, (s.buf i).refcnt = if Pinned ⟨1, 2⟩ s i then 1 else 0) ∧ s.regs 0 .a = none ∧ s.regs 0 .b = none))
    (by decide +kernel))
  have hloaded : Loaded ⟨1, 2⟩ 0 s := .of_inv (inv_of_run hrun) hpc (by simp [hpins, hlh]) hrefs fun r => by
    cases r
    · exact ha
    · exact hb
  have hfits : Fits ⟨1, 2⟩ s.trans.log.lh := by
    rw [hlh]
    refine ⟨by decide, fun n b hb => ?_⟩
    obtain ⟨hn, rfl⟩ := List.getElem?_eq_some_iff.1 hb
    obtain rfl : n = 0 := Nat.lt_one_iff.1 hn
    show (100 : Uint) ≠ logSlot 2 0
    decide
  obtain ⟨t, ht⟩ := (commit_completes_iff hloaded).2 hfits
  exact ⟨s, t, hrun, hlh, ht⟩

/-- Why a step was not taken, if it was not. -/
def stopped {α : Type} : Except Stop α → Option Stop
  | .error e => some e
  | .ok _ => none

theorem BioAux.error_of_stopped {α : Type} {x : Except Stop α} {e : Stop} (h : stopped x = some e) : x = .error e := by
  cases x with
  | error e' => rw [Option.some.inj h]
  | ok _ => cases h

/-- Three operations that log ten blocks each, so that the log is full when the last of them ends. -/
def full : List (Label (Fin 4)) :=
  [.beginOp 0, .beginOp 1, .beginOp 2] ++
    (List.finRange 30).flatMap (fun n => logOne ⟨n.val / 10, by omega⟩ (BitVec.ofNat 32 (100 + n.val)) ⟨n.val, n.isLt⟩) ++
    [.endOp 0, .endOp 1, .endOp 2]

/-- The log is as full as it may be, and there is no buffer left for the first copy. -/
theorem full_commit_panics : ∃ s : State (Fin 4), Run (StepOf (State.step ⟨1, 2⟩)) (State.boot fun _ _ => 0) full s ∧ Loaded ⟨1, 2⟩ 2 s ∧
    s.trans.log.lh.length = LOGBLOCKS ∧ s.commit ⟨1, 2⟩ 2 = .error .noBuffers := by
  obtain ⟨s, hrun, hview⟩ := Run.exists_of_foldlM (State.step ⟨1, 2⟩) full (State.boot fun _ _ => 0) (by decide +kernel)
  obtain ⟨hpins, hpc, hrefs, ha, hb, hlen, hstop⟩ := of_decide_eq_true (hview (fun s => decide (s.pins = s.trans.log.lh.reverse ∧
    s.trans.pc 2 = .commit ∧ (∀ i, (s.buf i).refcnt = if Pinned ⟨1, 2⟩ s i then 1 else 0) ∧ s.regs 2 .a = none ∧ s.regs 2 .b = none ∧
    s.trans.log.lh.length = LOGBLOCKS ∧ stopped (s.commit ⟨1, 2⟩ 2) = some .noBuffers)) (by decide +kernel))
  refine ⟨s, hrun, .of_inv (inv_of_run hrun) hpc (by simp [hpins]) hrefs fun r => ?_, hlen, error_of_stopped hstop⟩
  cases r
  · exact ha
  · exact hb

/-! ## What `commit` writes -/

/-- `commit` brings to the disk what was last left in the blocks outside the log. -/
theorem BioAux.Loaded.commit_home (h : Loaded L p s) (hpolite : s.polite = true) (hx : s.commit L p = .ok t) {b : Uint}
    (hb : ¬ InLog L.start b) : t.disk (L.dev, b) = s.left (L.dev, b) := by
  by_cases hnil : s.trans.log.lh = []
  · -- nothing is logged, so nothing is pinned
    rw [State.commit, hnil] at hx
    cases hx
    refine h.good.disk_eq fun hpin => ?_
    rw [h.pins, hnil] at hpin
    cases hpin
  · have hrun : Run (Move L False) _ _ _ := commit_moves hnil h.turns.nodup h.good.nodup h.pins False.elim
    have ht := h.linked.run hrun hx
    rw [ht.good.disk_eq, h.linked.run_left hrun hpolite hx fun hin => hb hin.2]
    rw [ht.link.pins]
    exact List.not_mem_nil

/-- With nobody else at work and the log clear, `commit` leaves in every block of the file system what the model of `log.c` alone says it
does, for a memory that holds what was last left in the logged blocks. -/
theorem commit_eq_log {m : LogMem} (h : Loaded L p s) (hpolite : s.polite = true) (hx : s.commit L p = .ok t)
    (hn : headN (s.disk (L.dev, L.start)) = 0) (hlh : m.lh = s.trans.log.lh)
    (hnew : ∀ b ∈ s.trans.log.lh, m.cache b = some (s.left (L.dev, b))) :
    HomeEq L.start (fun b => t.disk (L.dev, b)) ((Xv6.commit L.start m).run fun b => s.disk (L.dev, b)).2 := by
  have hlog : HomeEq L.start _ (applyNew m.lh (fun b => s.left (L.dev, b)) fun b => s.disk (L.dev, b)) :=
    LogAux.commit_home m (by rw [hlh]; exact ⟨h.turns.le, h.home hpolite⟩) hn (by rw [hlh]; exact hnew)
  intro b hb
  refine (h.commit_home hpolite hx hb).trans (Eq.trans ?_ (hlog b hb).symm)
  rw [hlh]
  unfold applyNew
  split_ifs with hin
  · rfl
  · exact (h.good.disk_eq fun hpin => hin ((h.pins b).1 hpin)).symm

/-! ## Transparency -/

/-- What clients of the cache can rely on. `bread` is `bget`, the wait for the lock and `fill`: the buffer found for a block has that block
(`got`) and keeps it while it is referred to (`kept`, `waits`), it comes with no change that was not left in the block (`fresh`), and then
holds what was left there (`read`). -/
structure Transparent (L : Layout) (s : State P) : Prop where
  ring : ∃ order, Ring s.next s.prev order ∧ ∀ i, i ∈ order
  inverse : ∀ x, s.prev (s.next x) = x ∧ s.next (s.prev x) = x
  unique : ∀ i j, s.given i = true → s.given j = true → (s.buf i).key = (s.buf j).key → i = j
  kept : ∀ l t, s.step L l = some t → ∀ i, 0 < (s.buf i).refcnt → (t.buf i).key = (s.buf i).key
  got : ∀ p dev blockno t, s.want p = none → s.bget p dev blockno = .ok t → ∃ i, t.want p = some i ∧ (t.buf i).key = (dev, blockno)
  waits : ∀ p i, s.want p = some i ∨ (s.buf i).lock = some p → 0 < (s.buf i).refcnt
  fresh : ∀ i, (s.buf i).lock = none → s.dirty i = false
  read : ∀ p i, s.Has p i → s.dirty i = false → (s.buf i).data = s.left (s.buf i).key
  client : s.polite = true → ∀ k : Key, ¬ (k.1 = L.dev ∧ InLog L.start k.2) → s.left k = s.clients k

/-- Every state that processes can reach, whatever they do. -/
theorem cache_transparent {disk : Key → Block} {ls : List (Label P)} (h : Run (StepOf (State.step L)) (State.boot disk) ls s) : Transparent L s := by
  have hinv := inv_of_run h
  obtain ⟨order, ho⟩ := hinv.good.order
  refine ⟨⟨order, ho.ring, ho.all⟩, fun x => ⟨ho.ring.prev_next ho.all x, ho.ring.next_prev ho.all x⟩, hinv.good.unique, fun l t hstep i hi => ?_,
    fun p dev blockno t hw hx => ?_, fun p i hi => ?_, fun i hl => ?_, fun p i hhas hd => ?_, hinv.left⟩
  · obtain ⟨-, k, hf⟩ := hinv.step hstep
    exact hf.key i hi
  · obtain ⟨i, hgot, -⟩ := bget_ok hinv.good hw hx
    exact ⟨i, by rw [hgot.want, Function.update_self], hgot.key⟩
  · rcases hi with hi | hi
    · exact hinv.good.refcnt_of_want hi
    · exact hinv.good.refcnt_of_lock (by simp [hi])
  · by_contra hd
    exact (hinv.good.dirty i (by simpa using hd)).1 hl
  · exact hinv.good.clean i (hinv.good.given_of_lock hhas.1) hhas.2 hd

/-- A process reads a block and releases it. -/
def useOne {P : Type} (p : P) (b : Uint) (i : Slot) : List (Label P) := readOne p b i ++ [.releasesleep p i, .decref p]

/-- Process 0 stores ones in block 100, logs it and ends its operation. -/
def storeOnes : List (Label (Fin 2)) :=
  .beginOp 0 :: readOne 0 100 0 ++ [.modify 0 0 fun _ => 1, .logWrite 0 0, .releasesleep 0 0, .decref 0, .endOp 0]

/-- Process 0 commits; process 1 reads other blocks until the buffer of block 100 has been given away, and then block 100. -/
def readBack : List (Label (Fin 2)) :=
  storeOnes ++ List.replicate 40 (.act 0) ++ [.endCommit 0] ++
    ((List.finRange NBUF).drop 3 ++ [1, 0]).flatMap (fun i : Slot => useOne 1 (200 + BitVec.ofNat 32 i) i) ++ readOne 1 100 2

theorem cache_transparent_readBack : ∃ s : State (Fin 2), Run (StepOf (State.step ⟨1, 2⟩)) (State.boot fun _ _ => 0) readBack s ∧
    Transparent ⟨1, 2⟩ s ∧ (s.buf 0).key = (1, 200) ∧ (s.buf 2).key = (1, 100) ∧
    (s.buf 2).data = s.clients (1, 100) ∧ s.clients (1, 100) ⟨0, by decide⟩ = 1 := by
  obtain ⟨s, hrun, hview⟩ := Run.exists_of_foldlM (State.step ⟨1, 2⟩) readBack (State.boot fun _ _ => 0) (by decide +kernel)
  obtain ⟨hpolite, hhas, hd, hgone, hk, hone⟩ := of_decide_eq_true (hview (fun s => decide (s.polite = true ∧ s.Has 1 2 ∧
    s.dirty 2 = false ∧ (s.buf 0).key = (1, 200) ∧ (s.buf 2).key = (1, 100) ∧
    s.clients (1, 100) ⟨0, by decide⟩ = 1)) (by decide +kernel))
  have ht := cache_transparent hrun
  have hout : ¬ InLog 2 100 := fun hin => absurd (inLog_iff.2 hin : State.inLog ⟨1, 2⟩ 100 = true) (by decide)
  have hread := ht.read 1 2 hhas hd
  rw [hk, ht.client hpolite (1, 100) fun hin => hout hin.2] at hread
  exact ⟨s, hrun, ht, hgone, hk, hread, hone⟩

/-- The steps of `readBack` as far as the end of `write_log`; process 1 then writes block 100; and when `commit` is over, process 1
reads it again. -/
def overtaken : List (Label (Fin 2)) :=
  storeOnes ++ List.replicate 12 (.act 0) ++
    readOne 1 100 0 ++ [.modify 1 0 fun _ => 2, .bwrite 1 0, .releasesleep 1 0, .decref 1] ++ List.replicate 28 (.act 0) ++ [.endCommit 0] ++
    readOne 1 100 0

/-- A process finds in a block of the file system what `commit` has put there, not what it has itself left there last. -/
theorem overtaken_loses_write : ∃ s : State (Fin 2), Run (StepOf (State.step ⟨1, 2⟩)) (State.boot fun _ _ => 0) overtaken s ∧
    s.Has 1 0 ∧ s.dirty 0 = false ∧ (s.buf 0).key = (1, 100) ∧ ¬ InLog 2 100 ∧ (s.buf 0).data ≠ s.clients (1, 100) := by
  obtain ⟨s, hrun, hview⟩ := Run.exists_of_foldlM (State.step ⟨1, 2⟩) overtaken (State.boot fun _ _ => 0) (by decide +kernel)
  obtain ⟨hhas, hd, hk, hne⟩ := of_decide_eq_true (hview (fun s => decide (s.Has 1 0 ∧ s.dirty 0 = false ∧ (s.buf 0).key = (1, 100) ∧
    (s.buf 0).data ⟨0, by decide⟩ ≠ s.clients (1, 100) ⟨0, by decide⟩)) (by decide +kernel))
  exact ⟨s, hrun, hhas, hd, hk, fun hin => absurd (inLog_iff.2 hin : State.inLog ⟨1, 2⟩ 100 = true) (by decide), fun heq => hne (congrFun heq _)⟩

end Xv6.Bio
