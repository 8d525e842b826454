import Xv6.Lemmas.LogCrash

/-!
# Crash atomicity of the redo log

`commit` may be stopped at any disk write, and recovery after it may be stopped at any of its own writes and started again, any
number of times. The home blocks then are those from before the transaction or those with all of it applied, and which of the
two is decided by the first write of the header.
-/

namespace Xv6

open Lib LogAux Function List

namespace LogAux

/-- `write_head` passes through two disks: the one it starts from and the one with the header's block written. -/
theorem writeHead_disks (start : Uint) (m : LogMem) (D : Disk) :
    ∃ d, (writeHead start m).disks D = [D, update D start (putHead m.lh d)] ∧
      ((writeHead start m).run D).2 = update D start (putHead m.lh d) := by
  unfold writeHead bread bwrite
  cases m.cache start with
  | some d => exact ⟨d, rfl, rfl⟩
  | none => exact ⟨D start, rfl, rfl⟩

/-- `bread` writes nothing. -/
theorem bread_disks {τ : Type} (b : Uint) (m : LogMem) (f : Buf × LogMem → DiskProg τ) (D : Disk) :
    ∃ buf m', (bread b m >>= f).disks D = (f (buf, m')).disks D := by
  unfold bread
  cases m.cache b with
  | some d => exact ⟨_, _, rfl⟩
  | none => exact ⟨_, _, rfl⟩

/-- `write_log` makes one write for each block. -/
theorem length_writeLogFrom (start : Uint) : ∀ (bs : List Uint) (k : Nat) (m : LogMem) (D : Disk),
    ((writeLogFrom start k bs m).disks D).length = bs.length + 1 := by
  intro bs
  induction bs with
  | nil => exact fun _ _ _ => rfl
  | cons b bs ih =>
    intro k m D
    obtain ⟨dst, m₁, h₁⟩ := bread_disks (logSlot start k) m _ D
    obtain ⟨src, m₂, h₂⟩ := bread_disks b m₁ _ D
    rw [writeLogFrom, h₁, h₂]
    exact congrArg (· + 1) (ih (k + 1) _ _)

/-- `install_trans` makes one write for each block. -/
theorem length_installFrom (start : Uint) : ∀ (bs : List Uint) (k : Nat) (m : LogMem) (D : Disk),
    ((installFrom start k bs m).disks D).length = bs.length + 1 := by
  intro bs
  induction bs with
  | nil => exact fun _ _ _ => rfl
  | cons b bs ih =>
    intro k m D
    obtain ⟨lbuf, m₁, h₁⟩ := bread_disks (logSlot start k) m _ D
    obtain ⟨dbuf, m₂, h₂⟩ := bread_disks b m₁ _ D
    rw [installFrom, h₁, h₂]
    exact congrArg (· + 1) (ih (k + 1) _ _)

variable {start : Uint} {new : Uint → Block} {D : Disk} {bs : List Uint}

/-- The disks `commit` passes through fall in two parts at the first write of the header: the one it starts from and one for each block
copied to the log, where nothing is committed, and those from the header on, where the transaction is committed or done. -/
theorem commit_disks (m : LogMem) (h : Loggable start bs)
    (hn : headN (D start) = 0) (hne : 0 < bs.length) (hlh : m.lh = bs) (hnew : CacheNew bs new m) :
    ∃ A B, (commit start m).disks D = A ++ B ∧ A.length = bs.length + 1 ∧ B.length = bs.length + 2 ∧
      (∀ D' ∈ A, Clean start D D') ∧ (∀ D' ∈ B, Committed start bs new D D' ∨ Clean start (applyNew bs new D) D') ∧
      (∃ D', B.head? = some D' ∧ headBlocks (D' start) = bs) ∧ Clean start (applyNew bs new D) ((commit start m).run D).2 := by
  obtain ⟨⟨hD₁, hlh₁, -, hslot⟩, hA⟩ := writeLogFrom_triple new D h bs 0 m (by simp) hnew
    (fun _ _ hlt => absurd hlt (Nat.not_lt_zero _)) D ⟨⟨hn, fun _ _ => rfl⟩, fun _ _ hlt => absurd hlt (Nat.not_lt_zero _)⟩
  have hcommit : commit start m = (writeLogFrom start 0 bs m >>= fun m₁ => writeHead start m₁ >>= fun m₂ =>
      installTrans start m₂ >>= fun m₃ => writeHead start { m₃ with lh := [] }) := by
    unfold commit writeLog
    rw [hlh, if_pos hne]
  have hlen := length_writeLogFrom start bs 0 m D
  generalize hp : (writeLogFrom start 0 bs m).run D = r at *
  obtain ⟨d, hd, hrun⟩ := writeHead_disks start r.1 r.2
  have hhead := (writeHead_triple (P := fun D' => D' = r.2) (Q := fun _ => True) (C := fun _ => True) start r.1
    (fun _ _ => trivial) (fun _ _ _ => trivial) (fun _ _ => trivial) r.2 rfl).1
  rw [hlh₁, hlh] at hd hrun hhead
  have hcomm := committed_writeHead h hD₁ d
  have htail := install_clear_triple h ((writeHead start r.1).run r.2).1 hhead.2.1 (fun i hi hik => by
    rw [hhead.2.2 _ (logSlot_ne_start start i (Nat.lt_of_lt_of_le hi h.len))]
    exact hslot i hi hik) _ hcomm
  refine ⟨((writeLogFrom start 0 bs m).disks D).dropLast ++ [r.2], _, ?_, ?_, ?_, ?_, htail.2, ⟨_, Prog.disks_head? _ _, hcomm.1⟩, ?_⟩
  · rw [hcommit, Prog.disks_bind, Prog.disks_bind, hp, hd, hrun, ← append_assoc]
    rfl
  · rw [length_append, length_dropLast, hlen]
    rfl
  · rw [Prog.disks_bind, length_append, length_dropLast, installTrans, hhead.2.1, length_installFrom]
    obtain ⟨d', hd', -⟩ := writeHead_disks start _ _
    exact congrArg (fun l => bs.length + 1 - 1 + l.length) hd'
  · intro D' hD'
    rcases mem_append.1 hD' with hD' | hD'
    · exact hA D' (dropLast_subset _ hD')
    · rw [mem_singleton.1 hD']
      exact hD₁.1
  · rw [hcommit, Prog.run_bind, Prog.run_bind, hp, hrun]
    exact htail.1

/-- After `commit` the blocks outside the log have their new contents. -/
theorem commit_home (m : LogMem) (h : Loggable start m.lh) (hn : headN (D start) = 0) (hnew : CacheNew m.lh new m) :
    HomeEq start ((commit start m).run D).2 (applyNew m.lh new D) := by
  by_cases hnil : m.lh = []
  · rw [commit, hnil]
    exact fun _ _ => rfl
  · obtain ⟨-, -, -, -, -, -, -, -, hclean⟩ := commit_disks m h hn (length_pos_iff.2 hnil) rfl hnew
    exact hclean.2

/-- Recovery, however often it is interrupted, from a clear log. -/
theorem recovers_clean {H D' : Disk} (hr : Recovers (initlog start) D D') (hD : Clean start H D) :
    Clean start H D' :=
  Recovers.post (initlog_clean H) hr hD

/-- Recovery, however often it is interrupted, from a committed or installed transaction. -/
theorem recovers_committed {D₀ D' : Disk} (h : Loggable start bs)
    (hr : Recovers (initlog start) D D')
    (hD : Committed start bs new D₀ D ∨ Clean start (applyNew bs new D₀) D) : Clean start (applyNew bs new D₀) D' := by
  refine Recovers.post (I := fun D => Committed start bs new D₀ D ∨ Clean start (applyNew bs new D₀) D) ?_ hr hD
  rintro D₁ (hc | hc)
  · exact initlog_committed h D₁ hc
  · obtain ⟨hq, hall⟩ := initlog_clean (applyNew bs new D₀) D₁ hc
    exact ⟨hq, fun D₂ hD₂ => Or.inr (hall D₂ hD₂)⟩

end LogAux

/-- Crash atomicity. `D` is a disk whose log is clear, `bs` the logged blocks, at most `LOGBLOCKS` of them and outside the log, and
`new` their contents in the cache. `commit` makes a write for each block, the write of the header, again a write for each block and the
write that clears the header. However many of them were done (`k`), and however often recovery was interrupted and started again, the
log is clear afterwards; the home blocks are those of `D` up to the copies in the log, where the header is still empty, and those of `D`
with all the new contents from the write of the header on. -/
theorem commit_crash_atomic (start : Uint) (D : Disk) (bs : List Uint) (new : Uint → Block) (m : LogMem)
    (hn : headN (D start) = 0) (hlen : bs.length ≤ LOGBLOCKS) (hout : ∀ b ∈ bs, ¬InLog start b)
    (hlh : m.lh = bs) (hnew : ∀ b ∈ bs, m.cache b = some (new b)) :
    ((commit start m).disks D).length = (if bs = [] then 1 else 2 * bs.length + 3) ∧
    ∀ (k : Nat) (D₁ : Disk), ((commit start m).disks D)[k]? = some D₁ →
      (k ≤ bs.length → headN (D₁ start) = 0) ∧ (k = bs.length + 1 → headBlocks (D₁ start) = bs) ∧
      ∀ D₂, Recovers (initlog start) D₁ D₂ → headN (D₂ start) = 0 ∧
        (k ≤ bs.length → HomeEq start D₂ D) ∧ (bs.length < k → HomeEq start D₂ (applyNew bs new D)) := by
  by_cases hne : bs = []
  · -- nothing was logged: `commit` does nothing
    subst hne
    have hds : (commit start m).disks D = [D] := by
      unfold commit
      rw [hlh]
      rfl
    rw [hds]
    refine ⟨rfl, fun k D₁ hk => ?_⟩
    have hk0 : k = 0 := by simpa using (List.getElem?_eq_some_iff.1 hk).1
    subst hk0
    obtain rfl : D = D₁ := Option.some.inj hk
    refine ⟨fun _ => hn, fun h => absurd h (by simp), fun D₂ hr => ?_⟩
    have hclean := recovers_clean hr ⟨hn, fun _ _ => rfl⟩
    exact ⟨hclean.1, fun _ => hclean.2, fun h => absurd h (Nat.lt_irrefl 0)⟩
  · obtain ⟨A, B, hAB, hlenA, hlenB, hA, hB, ⟨Dc, hDc, hcommitted⟩, -⟩ :=
      commit_disks m ⟨hlen, hout⟩ hn (List.length_pos_iff.2 hne) hlh hnew
    rw [hAB, if_neg hne]
    refine ⟨by rw [List.length_append]; omega, fun k D₁ hk => ?_⟩
    by_cases hkA : k ≤ bs.length
    · -- the machine stopped before the header was written
      rw [List.getElem?_append_left (by omega)] at hk
      have hD₁ := hA D₁ (List.mem_of_getElem? hk)
      refine ⟨fun _ => hD₁.1, fun h => by omega, fun D₂ hr => ?_⟩
      have hclean := recovers_clean hr hD₁
      exact ⟨hclean.1, fun _ => hclean.2, fun h => by omega⟩
    · rw [List.getElem?_append_right (by omega)] at hk
      refine ⟨fun h => absurd h hkA, fun h => ?_, fun D₂ hr => ?_⟩
      · rw [h, hlenA, Nat.sub_self, ← List.head?_eq_getElem?, hDc] at hk
        rw [← Option.some.inj hk]
        exact hcommitted
      · have hdone := recovers_committed ⟨hlen, hout⟩ hr (hB D₁ (List.mem_of_getElem? hk))
        exact ⟨hdone.1, fun h => absurd h hkA, fun _ => hdone.2⟩

/-- Two logged blocks on a disk of zeroes: both are old up to the second write and both are new from the third on. -/
theorem commit_crash_atomic_two_blocks :
    ((commit 2 ⟨fun b => some (fun _ => BitVec.ofNat 8 b.toNat), [46, 47]⟩).disks (fun _ _ => 0)).length = 7 ∧
    ∀ (k : Nat) (D₁ : Disk),
      ((commit 2 ⟨fun b => some (fun _ => BitVec.ofNat 8 b.toNat), [46, 47]⟩).disks (fun _ _ => 0))[k]? = some D₁ →
      ∀ D₂, Recovers (initlog 2) D₁ D₂ → headN (D₂ 2) = 0 ∧ (k ≤ 2 → D₂ 46 = (fun _ => 0) ∧ D₂ 47 = fun _ => 0) ∧
        (2 < k → D₂ 46 = (fun _ => 46) ∧ D₂ 47 = fun _ => 47) := by
  have hout : ∀ b ∈ ([46, 47] : List Uint), ¬InLog 2 b := by
    rintro b hb ⟨t, ht, rfl⟩
    have ht' : t ≤ 30 := ht
    simp only [List.mem_cons, List.not_mem_nil, or_false] at hb
    bv_omega
  obtain ⟨hlen, h⟩ := commit_crash_atomic 2 (fun _ _ => 0) [46, 47] (fun b _ => BitVec.ofNat 8 b.toNat)
    ⟨fun b => some (fun _ => BitVec.ofNat 8 b.toNat), [46, 47]⟩ (by decide) (by decide) hout rfl fun _ _ => rfl
  refine ⟨hlen, fun k D₁ hk D₂ hr => ?_⟩
  obtain ⟨hclear, hold, hnew⟩ := (h k D₁ hk).2.2 D₂ hr
  refine ⟨hclear, fun hle => ?_, fun hlt => ?_⟩
  · rw [hold hle 46 (hout 46 (by simp)), hold hle 47 (hout 47 (by simp))]
    exact ⟨rfl, rfl⟩
  · rw [hnew hlt 46 (hout 46 (by simp)), hnew hlt 47 (hout 47 (by simp))]
    exact ⟨rfl, rfl⟩

end Xv6
