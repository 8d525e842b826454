import Xv6.Theorems.Pipe

/-!
# One call of `piperead`

What a call takes out of the pipe against what it reports, and when it returns at all. The loop removes a byte before it copies it out,
and goes round again on an empty pipe as long as the write end is open.
-/

namespace Xv6

open Lib Peterson List

namespace PipeAux

variable {pi pi' : Pipe} {l l' : PipeProc} {e : PipeEnv} {ev : PipeEvent} {r : Uint} {n : Nat}

/-! ### What a call takes -/

/-- A byte has been removed and is not counted in `i` yet. -/
def PC.late : PC → Nat
  | .rExit _ => 1
  | _ => 0

/-- A call of `piperead` for `n` bytes that began when `nread` was `r`, and in which nothing has failed: `nread` is ahead by the bytes
counted, and by the one just removed. -/
structure Reading (r : Uint) (n : Nat) (pi : Pipe) (l : PipeProc) : Prop where
  n_eq : l.n = n
  side : l.pc.side = some reader
  nread : pi.nread = r + BitVec.ofNat 32 (l.i + PC.late l.pc)
  loaded : ∀ c t, l.pc = .rStore c t → t = pi.nread
  le : l.i ≤ n
  lt : l.pc ≠ .rLoop → l.i < n

/-- The call has advanced `nread` by what it returned. -/
def Exact (r : Uint) (pi : Pipe) (l : PipeProc) : Prop :=
  (l.ret = -1 → pi.nread = r) ∧ (0 ≤ l.ret → pi.nread = r + BitVec.ofInt 32 l.ret)

/-- What the environment decides in a step is no failure. -/
def Sound (e : PipeEnv) (l : PipeProc) : Prop :=
  (∀ c, l.pc = .rExit c → e.copyFail = false) ∧ (l.pc = .rLoop → 0 < l.i → l.i < l.n → e.killed = false)

theorem sound_of_pc (h1 : ∀ c, l.pc ≠ .rExit c) (h2 : l.pc ≠ .rLoop) : Sound e l :=
  ⟨fun c hc => absurd hc (h1 c), fun hc => absurd hc h2⟩

theorem exact_of_count {i : Nat} (hi : l.ret = i) (h : pi.nread = r + BitVec.ofNat 32 i) : Exact r pi l := by
  refine ⟨fun hret => ?_, fun _ => ?_⟩
  · omega
  · rw [h, hi, BitVec.ofInt_natCast]

theorem add_ofNat_ne {a b : Nat} (ha : a < 2 ^ 32) (hb : b < 2 ^ 32) (hab : a ≠ b) :
    r + BitVec.ofNat 32 a ≠ r + BitVec.ofNat 32 b := by
  intro h
  have h := congrArg BitVec.toNat (add_left_cancel h)
  rw [BitVec.toNat_ofNat, BitVec.toNat_ofNat, Nat.mod_eq_of_lt ha, Nat.mod_eq_of_lt hb] at h
  exact hab h

/-- How a step of a call can end: the call goes on, or returns, and what it has taken is what it reports exactly when nothing has
failed in the step. -/
inductive ReadStep (r : Uint) (n : Nat) (e : PipeEnv) (l : PipeProc) (pi' : Pipe) (l' : PipeProc) : Prop where
  | goes (h : Reading r n pi' l') (hok : Sound e l)
  | returns (hidle : l'.pc = .idle) (h : Exact r pi' l') (hok : Sound e l)
  | fails (hidle : l'.pc = .idle) (h : ¬Exact r pi' l') (hok : ¬Sound e l)

/-- A step that stores nothing, from one place inside the loop to another. -/
theorem Reading.quiet (h : Reading r n pi l) {x : PipeProc} {pj : Pipe} (hpc : l.pc ≠ .rLoop) (hlate : PC.late l.pc = 0)
    (hn : x.n = l.n) (hi : x.i = l.i) (hside : x.pc.side = some reader) (hlate' : PC.late x.pc = 0) (hpi : pj.nread = pi.nread)
    (hload : ∀ c t, x.pc = .rStore c t → t = pi.nread) : ReadStep r n e l pj x := by
  refine .goes ⟨hn.trans h.n_eq, hside, ?_, fun c t hx => by rw [hpi]; exact hload c t hx, hi ▸ h.le, fun _ => hi ▸ h.lt hpc⟩ ?_
  · rw [hpi, h.nread, hi, hlate, hlate']
  · refine sound_of_pc (fun c hc => ?_) hpc
    rw [hc] at hlate
    cases hlate

theorem petersonEnter_read {pc : PC} (h : Reading r n pi l) (hent : petersonEnter pi l.pc = some (pi', pc)) :
    ReadStep r n e l pi' { l with pc := pc } := by
  have hload : ∀ c t, entered reader ≠ .rStore c t := by simp [entered]
  have hside := h.side
  unfold petersonEnter at hent
  split at hent
  case h_1 me hpc | h_2 me hpc =>
    cases hent
    rw [hpc] at hside
    exact h.quiet (by simp [hpc]) (by rw [hpc]; rfl) rfl rfl hside rfl rfl (by simp)
  case h_3 me hpc | h_4 me hpc =>
    cases hent
    rw [hpc] at hside
    cases hside
    split
    · exact h.quiet (by simp [hpc]) (by rw [hpc]; rfl) rfl rfl rfl rfl rfl (by simp)
    · exact h.quiet (by simp [hpc]) (by rw [hpc]; rfl) rfl rfl rfl rfl rfl (fun c t hx => absurd hx (hload c t))
  case h_5 => cases hent

theorem piperead_read (hn : n < 2 ^ 31) (h : Reading r n pi l) (hstep : piperead pi e l = some (pi', l', ev)) :
    ReadStep r n e l pi' l' := by
  have hle := h.le
  have hnread := h.nread
  unfold piperead at hstep
  split at hstep
  case h_1 hpc =>
    have hcount : pi.nread = r + BitVec.ofNat 32 l.i := by rw [hnread, hpc]; rfl
    have hexit : ∀ c, l.pc ≠ .rExit c := by simp [hpc]
    split_ifs at hstep with hlt hkill
    · cases hstep
      -- killed: nothing has been taken exactly when `i` is 0
      by_cases hi : l.i = 0
      · refine .returns rfl ⟨fun _ => ?_, fun h0 => absurd (show (0 : Int) ≤ -1 from h0) (by decide)⟩ ⟨fun c hc => absurd hc (hexit c), fun _ h0 => ?_⟩
        · rw [hcount, hi]
          exact BitVec.add_zero r
        · omega
      · refine .fails rfl (fun hex => ?_) (fun hok => ?_)
        · have h0 : pi.nread = r + BitVec.ofNat 32 0 := (hex.1 rfl).trans (BitVec.add_zero r).symm
          exact add_ofNat_ne (by omega) (by omega) hi (hcount.symm.trans h0)
        · have hfalse := hok.2 hpc (Nat.pos_of_ne_zero hi) hlt
          rw [hkill] at hfalse
          cases hfalse
    · cases hstep
      have hi : l.i < n := h.n_eq ▸ hlt
      refine .goes ⟨h.n_eq, rfl, hcount, by simp, hle, fun _ => hi⟩ ⟨fun c hc => absurd hc (hexit c), fun _ _ _ => ?_⟩
      exact Bool.eq_false_of_not_eq_true hkill
    · cases hstep
      refine .returns rfl (exact_of_count rfl hcount) ⟨fun c hc => absurd hc (hexit c), fun _ _ h' => absurd h' hlt⟩
  case h_2 hpc =>
    cases hstep
    exact h.quiet (by simp [hpc]) (by rw [hpc]; rfl) rfl rfl rfl rfl rfl (by simp)
  case h_3 nr hpc | h_4 hpc =>
    cases hstep
    split
    · exact h.quiet (by simp [hpc]) (by rw [hpc]; rfl) rfl rfl rfl rfl rfl (by simp)
    · exact h.quiet (by simp [hpc]) (by rw [hpc]; rfl) rfl rfl rfl rfl rfl (by simp)
  case h_5 hpc =>
    cases hstep
    refine .returns rfl (exact_of_count rfl ?_) (sound_of_pc (by simp [hpc]) (by simp [hpc]))
    show pi.nread = _
    rw [hnread, hpc]
    rfl
  case h_6 hpc | h_7 hpc | h_8 t hpc =>
    cases hstep
    exact h.quiet (by simp [hpc]) (by rw [hpc]; rfl) rfl rfl rfl rfl rfl (by simp)
  case h_9 c hpc =>
    cases hstep
    refine h.quiet (by simp [hpc]) (by rw [hpc]; rfl) rfl rfl rfl rfl rfl (fun c' t hx => ?_)
    cases hx
    rfl
  case h_10 c t hpc =>
    cases hstep
    have ht := h.loaded c t hpc
    refine .goes ⟨h.n_eq, rfl, ?_, by simp, hle, fun _ => h.lt (by simp [hpc])⟩ (sound_of_pc (by simp [hpc]) (by simp [hpc]))
    show t + 1 = r + BitVec.ofNat 32 (l.i + 1)
    rw [ht, hnread, hpc, ← ofNat_succ, ← add_assoc]
    rfl
  case h_11 c hpc =>
    have hcount : pi.nread = r + BitVec.ofNat 32 (l.i + 1) := by rw [hnread, hpc]; rfl
    have hlt := h.lt (by simp [hpc])
    split_ifs at hstep with hcopy hi
    · cases hstep
      -- the byte is out of the pipe and not counted
      refine .fails rfl (fun hex => ?_) (fun hok => ?_)
      · have h0 : pi.nread = r + BitVec.ofNat 32 0 := (hex.1 rfl).trans (BitVec.add_zero r).symm
        exact add_ofNat_ne (by omega) (by omega) (Nat.succ_ne_zero _) (hcount.symm.trans h0)
      · rw [hok.1 c hpc] at hcopy
        cases hcopy
    · cases hstep
      refine .fails rfl (fun hex => ?_) (fun hok => ?_)
      · have h0 : pi.nread = r + BitVec.ofInt 32 l.i := hex.2 (Int.natCast_nonneg l.i)
        rw [BitVec.ofInt_natCast] at h0
        exact add_ofNat_ne (by omega) (by omega) (Nat.succ_ne_self _) (hcount.symm.trans h0)
      · rw [hok.1 c hpc] at hcopy
        cases hcopy
    · cases hstep
      refine .goes ⟨h.n_eq, rfl, hcount, by simp, hlt, fun hne => absurd rfl hne⟩ ⟨fun _ _ => ?_, fun hc => ?_⟩
      · exact Bool.eq_false_of_not_eq_true hcopy
      · rw [hpc] at hc
        cases hc
  case h_12 => cases hstep

/-- A process in `piperead` takes no step of `pipewrite`. -/
theorem pipewrite_eq_none (h : l.pc.side = some reader) : pipewrite pi e l = none := by
  unfold pipewrite
  split <;> rename_i hpc
  all_goals first
    | rfl
    | (rw [hpc] at h; cases h)

theorem step_read (hn : n < 2 ^ 31) (h : Reading r n pi l) (hstep : l.step pi (.go e) = some (pi', l', ev)) :
    ReadStep r n e l pi' l' := by
  cases goes_of_step hstep with
  | enter hent => exact petersonEnter_read h hent
  | writes hwrite =>
    rw [pipewrite_eq_none h.side] at hwrite
    cases hwrite
  | reads hread => exact piperead_read hn h hread

/-- A process that is not in `piperead` does not change `nread`. -/
theorem nread_of_side (hside : l.pc.side ≠ some reader) {a : PipeAct} (hstep : l.step pi a = some (pi', l', ev)) :
    pi'.nread = pi.nread := by
  cases goes_of_step hstep with
  | write | read => rfl
  | enter hent =>
    unfold petersonEnter at hent
    split at hent <;> cases hent <;> rfl
  | writes h =>
    unfold pipewrite at h
    split at h <;> try split_ifs at h
    all_goals cases h
    all_goals rfl
  | reads h =>
    unfold piperead at h
    split at h <;> rename_i hpc
    all_goals first
      | (exact absurd (by rw [hpc]; rfl) hside)
      | cases h

section runs

variable {P : Type} [DecidableEq P] {s t u x y : PipeSys P} {p : P} {labels : List (PipeLabel P)} {label : PipeLabel P}

/-- A label has one outcome at most. -/
theorem pipeStep_det (s : PipeSys P) (label : PipeLabel P) (t t' : PipeSys P) (h : PipeStep s label t) (h' : PipeStep s label t') :
    t = t' := by
  cases h with
  | proc p a hr =>
    cases h' with
    | proc _ _ hr' =>
      obtain rfl := Option.some.inj (hr.symm.trans hr')
      rfl
  | closeWrite | closeRead =>
    cases h'
    rfl

/-- Where a call is that began in state `u`, after some steps: in it, returned with what it has taken, or returned otherwise; the last
exactly when something has failed on the way. -/
inductive Stage (r : Uint) (n : Nat) (p : P) (u : PipeSys P) (labels : List (PipeLabel P)) (x : PipeSys P) : Prop where
  | during (h : Reading r n x.pipe (x.proc p)) (hrun : Run (Guarded (Delivers p) PipeStep) u labels x)
  | done (hidle : (x.proc p).pc = .idle) (h : Exact r x.pipe (x.proc p)) (hrun : Run (Guarded (Delivers p) PipeStep) u labels x)
  | failed (hidle : (x.proc p).pc = .idle) (h : ¬Exact r x.pipe (x.proc p)) (hrun : ¬Run (Guarded (Delivers p) PipeStep) u labels x)

/-- A failure is not mended by what comes later. -/
theorem not_run_snoc (hx : Run PipeStep u labels x) (h : ¬Run (Guarded (Delivers p) PipeStep) u labels x) :
    ¬Run (Guarded (Delivers p) PipeStep) u (labels ++ [label]) y := by
  intro hrun
  obtain ⟨x', hx', -⟩ := hrun.unsnoc
  obtain rfl := Run.det pipeStep_det hx (hx'.mono fun _ _ _ h => h.2)
  exact h hx'

/-- A step that changes neither the caller nor `nread`. -/
theorem Stage.other (h : Stage r n p u labels x) (hx : Run PipeStep u labels x) (hstep : PipeStep x label y)
    (hlabel : ∀ e, label ≠ .proc p (.go e)) (hproc : y.proc p = x.proc p) (hnread : y.pipe.nread = x.pipe.nread) :
    Stage r n p u (labels ++ [label]) y := by
  have hok : Delivers p x label := fun e he => absurd he (hlabel e)
  have hexact : Exact r y.pipe (y.proc p) ↔ Exact r x.pipe (x.proc p) := by rw [hproc, Exact, Exact, hnread]
  cases h with
  | during h hrun =>
    refine .during ?_ (.snoc hrun ⟨hok, hstep⟩)
    rw [hproc]
    exact ⟨h.n_eq, h.side, hnread.trans h.nread, fun c t hc => (h.loaded c t hc).trans hnread.symm, h.le, h.lt⟩
  | done hidle h hrun => exact .done (hproc ▸ hidle) (hexact.2 h) (.snoc hrun ⟨hok, hstep⟩)
  | failed hidle h hrun => exact .failed (hproc ▸ hidle) (fun hy => h (hexact.1 hy)) (not_run_snoc hx hrun)

/-- A process that is idle cannot go on with a call. -/
theorem step_idle (hidle : l.pc = .idle) : l.step pi (.go e) = none := by
  simp [PipeProc.step, hidle, petersonEnter, pipewrite, piperead]

/-- One step, of the caller or of anybody else. -/
theorem Stage.step (hn : n < 2 ^ 31) (h : Stage r n p u labels x) (hx : Run PipeStep u labels x)
    (halone : ∀ q ≠ p, (x.proc q).pc.side ≠ some reader) (hb : Beside p label) (hstep : PipeStep x label y) :
    Stage r n p u (labels ++ [label]) y ∧ ∀ q ≠ p, (y.proc q).pc.side ≠ some reader := by
  cases hstep with
  | closeWrite hnone => exact ⟨h.other hx (.closeWrite hnone) (by simp) rfl rfl, halone⟩
  | closeRead hnone => exact ⟨h.other hx (.closeRead hnone) (by simp) rfl rfl, halone⟩
  | @proc res q a hr =>
    obtain ⟨pi', l', ev⟩ := res
    by_cases hq : q = p
    · subst hq
      have hgo : ∃ e, a = .go e := by
        cases a with
        | write => exact absurd rfl hb
        | read => exact absurd hb id
        | go e => exact ⟨e, rfl⟩
      obtain ⟨e, rfl⟩ := hgo
      refine ⟨?_, fun q' hq' => by rw [proc_after_of_ne hq']; exact halone q' hq'⟩
      have hok : Delivers q x (.proc q (.go e)) ↔ Sound e (x.proc q) := by
        constructor
        · intro h
          exact h e rfl
        · intro h e' he
          cases he
          exact h
      cases h with
      | during h hrun =>
        have hy : (x.after q (pi', l', ev)).proc q = l' := proc_after q
        cases step_read hn h hr with
        | goes h' hs =>
          refine .during ?_ (.snoc hrun ⟨hok.2 hs, .proc q _ hr⟩)
          rw [hy]
          exact h'
        | returns hidle h' hs =>
          refine .done (by rw [hy]; exact hidle) ?_ (.snoc hrun ⟨hok.2 hs, .proc q _ hr⟩)
          rw [hy]
          exact h'
        | fails hidle h' hs =>
          refine .failed (by rw [hy]; exact hidle) ?_ (fun hrun' => ?_)
          · rw [hy]
            exact h'
          · obtain ⟨x', hx', hlast⟩ := hrun'.unsnoc
            obtain rfl := Run.det pipeStep_det hx (hx'.mono fun _ _ _ h => h.2)
            exact hs (hok.1 hlast.1)
      | done hidle | failed hidle =>
        rw [step_idle hidle] at hr
        cases hr
    · have hside := halone q hq
      have hnread := nread_of_side hside hr
      refine ⟨h.other hx (.proc q a hr) (fun e he => ?_) (proc_after_of_ne (Ne.symm hq)) hnread, fun q' hq' => ?_⟩
      · cases he
        exact hq rfl
      · by_cases hqq : q' = q
        · subst hqq
          rw [proc_after]
          have hs := step_side hr
          cases a with
          | write =>
            rw [hs.2]
            decide
          | read => exact absurd hb id
          | go =>
            rcases hs with hs | hs
            · rw [hs]
              exact fun h => by cases h
            · rwa [hs]
        · rw [proc_after_of_ne hqq]
          exact halone q' hq'

/-- The start of a call. -/
theorem reading_start (hr : l.step pi (.read n) = some (pi', l', ev)) : Reading pi.nread n pi' l' ∧ pi' = pi := by
  cases goes_of_step hr with
  | read => exact ⟨⟨rfl, rfl, (BitVec.add_zero _).symm, by simp, Nat.zero_le n, fun hne => absurd rfl hne⟩, rfl⟩

/-- A whole call, by induction on its steps. -/
theorem stage_of_call (hn : n < 2 ^ 31) (hread : Reading r n u.pipe (u.proc p)) (halone : ∀ q ≠ p, (u.proc q).pc.side ≠ some reader)
    (hrun : Run PipeStep u labels t) (hb : ∀ label ∈ labels, Beside p label) :
    Stage r n p u labels t ∧ ∀ q ≠ p, (t.proc q).pc.side ≠ some reader := by
  induction hrun with
  | nil => exact ⟨.during hread (.nil _), halone⟩
  | snoc hrun hstep ih =>
    obtain ⟨hstage, halone'⟩ := ih fun label hl => hb label (mem_append_left _ hl)
    exact hstage.step hn hrun halone' (hb _ (mem_append_right _ (mem_singleton_self _))) hstep

end runs

end PipeAux

/-- What a call of `piperead` takes, exactly: it advances `nread` by the number it returns, and not at all when it returns -1, if and
only if no `copyout` of the call fails and `killed` is not seen after the call has taken a byte. -/
theorem piperead_consumes_iff {P : Type} [DecidableEq P] {s t : PipeSys P} {p : P} {n : Nat} {labels : List (PipeLabel P)}
    (hn : n < 2 ^ 31) (hcall : ReadCall s p n labels t) :
    (((t.proc p).ret = -1 → t.pipe.nread = s.pipe.nread) ∧
      (0 ≤ (t.proc p).ret → t.pipe.nread = s.pipe.nread + BitVec.ofInt 32 (t.proc p).ret)) ↔
    Run (Guarded (Delivers p) PipeStep) s (.proc p (.read n) :: labels) t := by
  obtain ⟨u, hfirst, hrest⟩ := hcall.run.uncons
  have hfirst' := hfirst
  cases hfirst' with
  | @proc res _ _ hr =>
    obtain ⟨pi', l', ev⟩ := res
    obtain ⟨hread, rfl⟩ := PipeAux.reading_start hr
    have hsafe : Delivers p s (.proc p (.read n)) := fun e he => by cases he
    have halone : ∀ q ≠ p, ((s.after p (s.pipe, l', ev)).proc q).pc.side ≠ some reader := fun q hq => by
      rw [PipeAux.proc_after_of_ne hq]
      exact hcall.alone q hq
    have hstart : PipeAux.Reading s.pipe.nread n (s.after p (s.pipe, l', ev)).pipe ((s.after p (s.pipe, l', ev)).proc p) := by
      rw [PipeAux.proc_after]
      exact hread
    have hiff : Run (Guarded (Delivers p) PipeStep) s (.proc p (.read n) :: labels) t ↔
        Run (Guarded (Delivers p) PipeStep) (s.after p (s.pipe, l', ev)) labels t := by
      constructor
      · intro h
        obtain ⟨u', hu', h'⟩ := h.uncons
        obtain rfl := PipeAux.pipeStep_det _ _ _ _ hfirst hu'.2
        exact h'
      · exact fun h => .cons ⟨hsafe, hfirst⟩ h
    rw [hiff]
    cases (PipeAux.stage_of_call hn hstart halone hrest hcall.beside).1 with
    | during h =>
      have hside := h.side
      rw [hcall.returned] at hside
      cases hside
    | done hidle h hrun => exact ⟨fun _ => hrun, fun _ => h⟩
    | failed hidle h hrun => exact ⟨fun h' => absurd h' h, fun h' => absurd h' hrun⟩

namespace PipeAux

/-- The writer writes a byte. -/
def writeOne : List (PipeLabel Party) := .proc writer (.write [7]) :: steps writer 12

/-- The reader's steps in a call for one byte, the copy of which fails or not. -/
def takeOne (copyFail : Bool) : List (PipeLabel Party) := steps reader 10 ++ [.proc reader (.go ⟨false, copyFail, true⟩)]

/-- After the byte is written, a call for one byte in which the copy fails or not. -/
theorem takeOne_call (copyFail : Bool) (last : List (PipeLabel Party)) (ret : Int) (nread nread' : Uint)
    (hlast : ∀ label ∈ last, ∃ e, label = .proc reader (.go e))
    (hview : ((writeOne.foldlM exec (fresh Party)).bind fun s =>
      ((.proc reader (.read 1) :: (takeOne copyFail ++ last)).foldlM exec s).map fun t =>
        ((s.proc writer).pc, s.pipe.nread, (t.proc reader).pc, (t.proc reader).ret, t.pipe.nread)) =
      some (.idle, nread, .idle, ret, nread')) :
    ∃ s t, Run PipeStep (fresh Party) writeOne s ∧ ReadCall s reader 1 (takeOne copyFail ++ last) t ∧ s.pipe.nread = nread ∧
      (t.proc reader).ret = ret ∧ t.pipe.nread = nread' := by
  obtain ⟨s, hs, hview⟩ := Option.bind_eq_some_iff.1 hview
  obtain ⟨t, ht, hview⟩ := Option.map_eq_some_iff.1 hview
  simp only [Prod.mk.injEq] at hview
  obtain ⟨hwriter, rfl, hidle, rfl, rfl⟩ := hview
  refine ⟨s, t, (Run.of_foldlM exec _ _ _ hs).mono exec_step, ⟨fun q hq => ?_, (Run.of_foldlM exec _ _ _ ht).mono exec_step,
    fun label hl => ?_, hidle⟩, rfl, rfl, rfl⟩
  · cases q with
    | zero =>
      rw [hwriter]
      exact fun h => by cases h
    | one => exact absurd rfl hq
  · simp only [takeOne, steps, mem_append, mem_replicate, mem_singleton] at hl
    rcases hl with (⟨-, rfl⟩ | rfl) | hl
    · trivial
    · trivial
    · obtain ⟨e, rfl⟩ := hlast label hl
      trivial

end PipeAux

open PipeAux in
theorem piperead_consumes_iff_takeOne : ∃ s t, ReadCall s reader 1 (takeOne false ++ steps reader 1) t ∧ (t.proc reader).ret = 1 ∧
    t.pipe.nread = s.pipe.nread + 1 ∧
    Run (Guarded (Delivers reader) PipeStep) s (.proc reader (.read 1) :: (takeOne false ++ steps reader 1)) t := by
  obtain ⟨s, t, -, hcall, hs, hret, ht⟩ := takeOne_call false (steps reader 1) 1 0 1
    (fun label hl => ⟨_, (List.mem_replicate.1 hl).2⟩) rfl
  have hnread : t.pipe.nread = s.pipe.nread + 1 := by rw [hs, ht]; rfl
  refine ⟨s, t, hcall, hret, hnread, (piperead_consumes_iff (by decide) hcall).1 ⟨fun h => ?_, fun _ => ?_⟩⟩
  · rw [hret] at h
    cases h
  · rw [hret]
    exact hnread

open PipeAux in
/-- A byte is lost: the call takes it, the copy fails, and the call returns -1 with the pipe empty. -/
theorem piperead_loses_byte : ∃ s t, Run PipeStep (fresh Party) writeOne s ∧ ReadCall s reader 1 (takeOne true) t ∧
    (t.proc reader).ret = -1 ∧ s.pipe.nread = 0 ∧ t.pipe.nread = 1 := by
  obtain ⟨s, t, hrun, hcall, hs, hret, ht⟩ := takeOne_call true [] (-1) 0 1
    (fun label hl => absurd hl List.not_mem_nil) rfl
  rw [List.append_nil] at hcall
  exact ⟨s, t, hrun, hcall, hret, hs, ht⟩

/-! ## A reader that runs alone -/

/-- Nobody is killed and every copy succeeds. -/
def undisturbed : PipeEnv := ⟨false, false, false⟩

namespace PipeAux

/-- The pipe and the reader after a step of the reader, undisturbed. -/
def Next (x y : Pipe × PipeProc) : Prop := ∃ ev, x.2.step x.1 (.go undisturbed) = some (y.1, y.2, ev)

/-- The pipe and the reader after some steps of the reader. -/
abbrev Reaches := Relation.ReflTransGen Next

section alone

variable {pi : Pipe} {l : PipeProc} {pj : Pipe} {x : PipeProc}

-- a step of the reader is evaluated
attribute [local simp] PipeProc.step petersonEnter pipewrite piperead undisturbed

/-- The pipe after the entry section of the reader. -/
def entry (pi : Pipe) : Pipe := { pi with lock := ⟨Function.update pi.lock.want reader true, writer⟩ }

/-- The pipe after the entry and the exit section of the reader. -/
def entryExit (pi : Pipe) : Pipe := { pi with lock := ⟨Function.update pi.lock.want reader false, writer⟩ }

theorem exit_entry (pi : Pipe) : petersonExit (entry pi) reader = entryExit pi := by
  simp [petersonExit, Pipe.setWant, entry, entryExit]

theorem next (h : l.step pi (.go undisturbed) = some (pj, x, .quiet)) : Next (pi, l) (pj, x) := ⟨.quiet, h⟩

section

variable (hw : pi.lock.want writer = false)

include hw

/-- The entry section, when no writer wants in, and the load of `nread`. -/
theorem reaches_entry (hpc : l.pc = .rLoop) (hi : l.i < l.n) :
    Reaches (pi, l) (entry pi, { l with pc := .rNwrite pi.nread }) := by
  have hw' : (entry pi).lock.want writer = false := by simpa [entry] using hw
  refine .head (b := (pi, { l with pc := .want reader })) (next (by simp [hpc, hi])) ?_
  refine .head (b := (pi.setWant reader true, { l with pc := .turn reader })) (next (by simp)) ?_
  refine .head (b := (entry pi, { l with pc := .spinWant reader })) (next (by simp [Pipe.setWant, entry, Party.other])) ?_
  refine .head (b := (entry pi, { l with pc := .rNread })) (next (by simp [Party.other, hw', entered])) ?_
  exact .single (next (by simp [entry]))

/-- One round of the loop on a pipe that is not empty: the oldest byte is taken and copied out. -/
theorem reaches_take (hpc : l.pc = .rLoop) (hi : l.i < l.n) (hne : pi.nread ≠ pi.nwrite) :
    Reaches (pi, l) ({ entryExit pi with nread := pi.nread + 1 },
      { l with i := l.i + 1, got := l.got ++ [pi.data (slot pi.nread)] }) := by
  refine (reaches_entry hw hpc hi).trans ?_
  refine .head (b := (entry pi, { l with pc := .rSlot })) (next (by simp [entry, hne])) ?_
  refine .head (b := (entry pi, { l with pc := .rData pi.nread })) (next (by simp [entry])) ?_
  refine .head (b := (entry pi, { l with pc := .rLoad (pi.data (slot pi.nread)) })) (next (by simp [entry])) ?_
  refine .head (b := (entry pi, { l with pc := .rStore (pi.data (slot pi.nread)) pi.nread })) (next (by simp [entry])) ?_
  refine .head (b := ({ entry pi with nread := pi.nread + 1 }, { l with pc := .rExit (pi.data (slot pi.nread)) }))
    ⟨.took (pi.data (slot pi.nread)), by simp⟩ ?_
  exact .single (next (by simp [petersonExit, Pipe.setWant, entry, entryExit, hpc]))

/-- An empty pipe whose write end is closed: the call returns. -/
theorem reaches_eof (hpc : l.pc = .rLoop) (hi : l.i < l.n) (he : pi.nread = pi.nwrite)
    (hclosed : pi.writeopen = false) : Reaches (pi, l) (entryExit pi, l.return_ l.i) := by
  refine (reaches_entry hw hpc hi).trans ?_
  refine .head (b := (entry pi, { l with pc := .rOpen })) (next (by simp [entry, he])) ?_
  refine .head (b := (entry pi, { l with pc := .rEof })) (next (by simp [entry, hclosed])) ?_
  exact .single (next (by simp [exit_entry, PipeProc.return_]))

end

/-- The bytes of a pipe that is not empty. -/
theorem held_cons (hne : pi.nread ≠ pi.nwrite) :
    pi.held = pi.data (slot pi.nread) :: Pipe.held { entryExit pi with nread := pi.nread + 1 } := by
  have hpos : pi.nwrite - pi.nread ≠ 0 := fun h => hne (BitVec.sub_eq_iff_eq_add.1 h |>.trans (BitVec.zero_add _)).symm
  have hsub : (pi.nwrite - pi.nread).toNat = (pi.nwrite - (pi.nread + 1)).toNat + 1 := by
    have hne' : (pi.nwrite - pi.nread).toNat ≠ 0 := fun h => hpos (BitVec.eq_of_toNat_eq h)
    bv_omega
  unfold Pipe.held
  rw [hsub, range_succ_eq_map, map_cons, map_map]
  refine congrArg₂ cons (by simp) (map_congr_left fun j _ => ?_)
  show pi.data _ = pi.data _
  rw [← ofNat_succ]
  congr 2
  show pi.nread + (BitVec.ofNat 32 j + 1) = pi.nread + 1 + BitVec.ofNat 32 j
  rw [BitVec.add_comm (BitVec.ofNat 32 j), BitVec.add_assoc]

theorem held_nil (he : pi.nread = pi.nwrite) : pi.held = [] := by simp [Pipe.held, he]

/-- A call that finds enough bytes, or the write end closed, returns the bytes it finds: by induction on the bytes held. -/
theorem reaches_return (hw : pi.lock.want writer = false) (hpc : l.pc = .rLoop) (hle : l.i ≤ l.n)
    (h : l.n - l.i ≤ pi.held.length ∨ pi.writeopen = false) : ∃ pj x, Reaches (pi, l) (pj, x) ∧ x.pc = .idle ∧
      x.ret = ((l.i + min (l.n - l.i) pi.held.length : Nat) : Int) ∧ x.got = l.got ++ pi.held.take (l.n - l.i) := by
  generalize hk : pi.held = held at h
  induction held generalizing pi l with
  | nil =>
    by_cases hi : l.i < l.n
    · have hclosed : pi.writeopen = false := h.resolve_left (by simp only [length_nil]; omega)
      have he : pi.nread = pi.nwrite := by
        by_contra hne
        rw [held_cons hne] at hk
        cases hk
      exact ⟨_, _, reaches_eof hw hpc hi he hclosed, rfl, by simp [PipeProc.return_], by simp [PipeProc.return_]⟩
    · refine ⟨pi, l.return_ l.i, .single (next ?_), rfl, by simp [PipeProc.return_], by simp [PipeProc.return_]⟩
      simp [hpc, hi]
  | cons c held ih =>
    by_cases hi : l.i < l.n
    · have hne : pi.nread ≠ pi.nwrite := fun he => by
        rw [held_nil he] at hk
        cases hk
      rw [held_cons hne] at hk
      obtain ⟨hc, hk⟩ := cons.inj hk
      have hw' : ({ entryExit pi with nread := pi.nread + 1 } : Pipe).lock.want writer = false := by simpa [entryExit] using hw
      obtain ⟨pj, x, hx, hidle, hret, hgot⟩ := ih (l := { l with i := l.i + 1, got := l.got ++ [pi.data (slot pi.nread)] }) hw' hpc hi hk
        (h.imp (fun h' => by simp only [length_cons] at h'; show l.n - (l.i + 1) ≤ _; omega) id)
      refine ⟨pj, x, (reaches_take hw hpc hi hne).trans hx, hidle, ?_, ?_⟩
      · rw [hret, length_cons]
        show ((l.i + 1 + min (l.n - (l.i + 1)) held.length : Nat) : Int) = _
        congr 1
        omega
      · rw [hgot, hc]
        show l.got ++ [c] ++ held.take (l.n - (l.i + 1)) = _
        have hsub : l.n - l.i = (l.n - (l.i + 1)) + 1 := by omega
        rw [hsub, take_succ_cons, append_assoc, singleton_append]
    · refine ⟨pi, l.return_ l.i, .single (next ?_), rfl, ?_, ?_⟩
      · simp [hpc, hi]
      · have hz : l.n - l.i = 0 := by omega
        simp [PipeProc.return_, hz]
      · have hz : l.n - l.i = 0 := by omega
        simp [PipeProc.return_, hz]

/-! ### When it does not return -/

/-- A writer has its flag up and takes no step: the reader does not get past its entry section. -/
structure Blocked (pi : Pipe) (l : PipeProc) : Prop where
  want : pi.lock.want writer = true
  lt : l.i < l.n
  place : l.pc = .rLoop ∨ l.pc = .want reader ∨ l.pc = .turn reader ∨
    (l.pc = .spinWant reader ∨ l.pc = .spinTurn reader) ∧ pi.lock.turn = writer

theorem Blocked.next (h : Blocked pi l) (hstep : Next (pi, l) (pj, x)) : Blocked pj x := by
  obtain ⟨ev, hstep⟩ := hstep
  obtain ⟨hw, hlt, hpc | hpc | hpc | ⟨hpc | hpc, hturn⟩⟩ := h
  · simp [hpc, hlt] at hstep
    obtain ⟨rfl, rfl, -⟩ := hstep
    exact ⟨hw, hlt, .inr (.inl rfl)⟩
  · simp [hpc] at hstep
    obtain ⟨rfl, rfl, -⟩ := hstep
    exact ⟨by simpa [Pipe.setWant] using hw, hlt, .inr (.inr (.inl rfl))⟩
  · simp [hpc] at hstep
    obtain ⟨rfl, rfl, -⟩ := hstep
    exact ⟨hw, hlt, .inr (.inr (.inr ⟨.inl rfl, rfl⟩))⟩
  · simp [hpc, Party.other, hw] at hstep
    obtain ⟨rfl, rfl, -⟩ := hstep
    exact ⟨hw, hlt, .inr (.inr (.inr ⟨.inr rfl, hturn⟩))⟩
  · simp [hpc, Party.other, hturn] at hstep
    obtain ⟨rfl, rfl, -⟩ := hstep
    exact ⟨hw, hlt, .inr (.inr (.inr ⟨.inl rfl, hturn⟩))⟩

/-- The places of a call that waits for more bytes, with what it has loaded. -/
def Waits (pi : Pipe) : PC → Prop
  | .want me | .turn me | .spinWant me | .spinTurn me => me = reader
  | .rLoop | .rNread | .rOpen | .rEmpty | .rExit _ => True
  | .rNwrite nr => nr = pi.nread
  | .rSlot | .rData _ | .rLoad _ => pi.nread ≠ pi.nwrite
  | .rStore _ t => t = pi.nread ∧ pi.nread ≠ pi.nwrite
  | _ => False

/-- The write end is open and there are fewer bytes than the call still wants. -/
structure Starved (pi : Pipe) (l : PipeProc) : Prop where
  writeopen : pi.writeopen = true
  short : l.i + PC.late l.pc + (pi.nwrite - pi.nread).toNat < l.n
  place : Waits pi l.pc

/-- A step that leaves the pipe's counters and the bytes counted alone. -/
theorem Starved.goto (h : Starved pi l) {pc : PC} (hopen : pj.writeopen = pi.writeopen) (hr : pj.nread = pi.nread)
    (hw : pj.nwrite = pi.nwrite) (hlate : PC.late pc = PC.late l.pc) (hpc : Waits pj pc) : Starved pj { l with pc := pc } := by
  refine ⟨hopen.trans h.writeopen, ?_, hpc⟩
  show l.i + PC.late pc + (pj.nwrite - pj.nread).toNat < l.n
  rw [hlate, hr, hw]
  exact h.short

theorem Starved.next (h : Starved pi l) (hstep : Next (pi, l) (pj, x)) : Starved pj x := by
  obtain ⟨ev, hstep⟩ := hstep
  have hplace := h.place
  have hshort := h.short
  cases hpc : l.pc with
  | want | turn =>
    simp [hpc] at hstep
    obtain ⟨rfl, rfl, -⟩ := hstep
    rw [hpc] at hplace
    exact h.goto rfl rfl rfl (by rw [hpc]; rfl) hplace
  | spinWant me | spinTurn me =>
    simp [hpc] at hstep
    obtain ⟨rfl, rfl, -⟩ := hstep
    rw [hpc] at hplace
    obtain rfl : me = reader := hplace
    split
    · exact h.goto rfl rfl rfl (by rw [hpc]; rfl) rfl
    · exact h.goto rfl rfl rfl (by rw [hpc]; rfl) trivial
  | rLoop =>
    have hi : l.i < l.n := by omega
    simp [hpc, hi] at hstep
    obtain ⟨rfl, rfl, -⟩ := hstep
    exact h.goto rfl rfl rfl (by rw [hpc]; rfl) rfl
  | rNread =>
    simp [hpc] at hstep
    obtain ⟨rfl, rfl, -⟩ := hstep
    exact h.goto rfl rfl rfl (by rw [hpc]; rfl) rfl
  | rNwrite nr =>
    rw [hpc] at hplace
    obtain rfl : nr = pi.nread := hplace
    simp [hpc] at hstep
    obtain ⟨rfl, rfl, -⟩ := hstep
    split
    · exact h.goto rfl rfl rfl (by rw [hpc]; rfl) trivial
    · exact h.goto rfl rfl rfl (by rw [hpc]; rfl) ‹_›
  | rOpen =>
    simp [hpc, h.writeopen] at hstep
    obtain ⟨rfl, rfl, -⟩ := hstep
    exact h.goto rfl rfl rfl (by rw [hpc]; rfl) trivial
  | rEmpty =>
    simp [hpc] at hstep
    obtain ⟨rfl, rfl, -⟩ := hstep
    exact h.goto rfl rfl rfl (by rw [hpc]; rfl) trivial
  | rSlot | rData =>
    rw [hpc] at hplace
    simp [hpc] at hstep
    obtain ⟨rfl, rfl, -⟩ := hstep
    exact h.goto rfl rfl rfl (by rw [hpc]; rfl) hplace
  | rLoad =>
    rw [hpc] at hplace
    simp [hpc] at hstep
    obtain ⟨rfl, rfl, -⟩ := hstep
    exact h.goto rfl rfl rfl (by rw [hpc]; rfl) ⟨rfl, hplace⟩
  | rStore =>
    rw [hpc] at hplace hshort
    obtain ⟨rfl, hne⟩ := hplace
    simp [hpc] at hstep
    obtain ⟨rfl, rfl, -⟩ := hstep
    refine ⟨h.writeopen, ?_, trivial⟩
    -- the byte moves from the buffer to the one in hand
    have hsub : (pi.nwrite - pi.nread).toNat = (pi.nwrite - (pi.nread + 1#32)).toNat + 1 := by
      have hne' : pi.nread.toNat ≠ pi.nwrite.toNat := fun h => hne (BitVec.eq_of_toNat_eq h)
      bv_omega
    simp only [PC.late] at hshort ⊢
    omega
  | rExit =>
    rw [hpc] at hshort
    simp [hpc] at hstep
    obtain ⟨rfl, rfl, -⟩ := hstep
    exact ⟨h.writeopen, hshort, trivial⟩
  | _ =>
    rw [hpc] at hplace
    exact absurd hplace id

/-- A property that the reader's steps keep holds wherever it gets. -/
theorem reaches_invariant {I : Pipe → PipeProc → Prop} (hnext : ∀ {pi l pj x}, I pi l → Next (pi, l) (pj, x) → I pj x)
    {a b : Pipe × PipeProc} (h : Reaches a b) (ha : I a.1 a.2) : I b.1 b.2 := by
  induction h with
  | refl => exact ha
  | tail _ hstep ih => exact hnext ih hstep

end alone

section alone

variable {P : Type} [DecidableEq P] {s t : PipeSys P} {p : P}

/-- The steps of a reader that runs alone, in the system. -/
def alone (p : P) (m : Nat) : List (PipeLabel P) := List.replicate m (.proc p (.go undisturbed))

omit [DecidableEq P] in
theorem alone_succ (p : P) (m : Nat) : alone p (m + 1) = alone p m ++ [.proc p (.go undisturbed)] := replicate_succ'

theorem reaches_of_run {m : Nat} (h : Run PipeStep s (alone p m) t) : Reaches (s.pipe, s.proc p) (t.pipe, t.proc p) := by
  induction m generalizing t with
  | zero =>
    obtain rfl := h.eq_of_nil
    exact .refl
  | succ m ih =>
    rw [alone_succ] at h
    obtain ⟨u, hu, hstep⟩ := h.unsnoc
    refine (ih hu).tail ?_
    cases hstep with
    | @proc res _ _ hr =>
      obtain ⟨pi', l', ev⟩ := res
      refine ⟨ev, ?_⟩
      rw [proc_after]
      exact hr

theorem run_of_reaches {y : Pipe × PipeProc} (h : Reaches (s.pipe, s.proc p) y) :
    ∃ m t, Run PipeStep s (alone p m) t ∧ t.pipe = y.1 ∧ t.proc p = y.2 := by
  induction h with
  | refl => exact ⟨0, s, .nil s, rfl, rfl⟩
  | @tail b c _ hstep ih =>
    obtain ⟨m, t, hrun, hpipe, hproc⟩ := ih
    obtain ⟨ev, hstep⟩ := hstep
    rw [← hpipe, ← hproc] at hstep
    refine ⟨m + 1, t.after p (c.1, c.2, ev), ?_, rfl, proc_after p⟩
    rw [alone_succ]
    exact .snoc hrun (.proc p _ hstep)

end alone

end PipeAux

/-- A read from a pipe that holds `k` bytes, exactly. If from the head of the loop on only the reader takes steps, not killed and
with every copy succeeding, the call returns, with the first `min n k` bytes, if and only if no writer has its flag up, and the pipe
holds as many bytes as the call wants or the write end is closed. -/
theorem piperead_returns_iff {P : Type} [DecidableEq P] {s : PipeSys P} {p : P} {n : Nat} (hpc : (s.proc p).pc = .rLoop)
    (hcall : (s.proc p).n = n ∧ (s.proc p).i = 0 ∧ (s.proc p).got = []) (hn : 1 ≤ n) :
    (∃ m t, Run PipeStep s (List.replicate m (.proc p (.go undisturbed))) t ∧ (t.proc p).pc = .idle ∧
      (t.proc p).ret = (min n s.pipe.held.length : Nat) ∧ (t.proc p).got = s.pipe.held.take n) ↔
    s.pipe.lock.want writer = false ∧ (n ≤ s.pipe.held.length ∨ s.pipe.writeopen = false) := by
  obtain ⟨rfl, hi, hgot⟩ := hcall
  constructor
  · rintro ⟨m, t, hrun, hidle, -, -⟩
    have hreach := PipeAux.reaches_of_run hrun
    refine ⟨?_, ?_⟩
    · by_contra hw
      have hblocked : PipeAux.Blocked s.pipe (s.proc p) := ⟨by simpa using hw, by omega, .inl hpc⟩
      have hend := PipeAux.reaches_invariant (I := PipeAux.Blocked) PipeAux.Blocked.next hreach hblocked
      have hplace := hend.place
      simp [hidle] at hplace
    · by_contra hno
      push Not at hno
      have hstarved : PipeAux.Starved s.pipe (s.proc p) := by
        refine ⟨by simpa using hno.2, ?_, by rw [hpc]; trivial⟩
        have hlen : s.pipe.held.length = (s.pipe.nwrite - s.pipe.nread).toNat := by simp [Pipe.held]
        rw [hpc, hi, ← hlen]
        simpa [PipeAux.PC.late] using hno.1
      have hend := PipeAux.reaches_invariant (I := PipeAux.Starved) PipeAux.Starved.next hreach hstarved
      have hplace := hend.place
      rw [hidle] at hplace
      exact hplace
  · rintro ⟨hw, h⟩
    obtain ⟨pj, x, hreach, hidle, hret, hgot'⟩ := PipeAux.reaches_return hw hpc (by omega) (by rwa [hi, Nat.sub_zero])
    obtain ⟨m, t, hrun, -, hproc⟩ := PipeAux.run_of_reaches hreach
    refine ⟨m, t, hrun, by rw [hproc]; exact hidle, ?_, ?_⟩
    · rw [hproc]
      simpa [hi] using hret
    · rw [hproc]
      simpa [hi, hgot] using hgot'

namespace PipeAux

/-- The writer has written a byte and the reader has called `piperead` for `n` bytes. -/
theorem writeOne_read (n : Nat) : ∃ s, Run PipeStep (fresh Party) (writeOne ++ [.proc reader (.read n)]) s ∧
    s.pipe.held = [7] ∧ s.pipe.nread = 0 ∧ s.pipe.nwrite = 1 ∧ s.pipe.writeopen = true ∧ s.pipe.lock.want writer = false ∧
      (s.proc reader).pc = .rLoop ∧ (s.proc reader).n = n ∧ (s.proc reader).i = 0 ∧ (s.proc reader).got = [] := by
  obtain ⟨s, hrun, hview⟩ := Run.exists_of_foldlM exec (writeOne ++ [.proc reader (.read n)]) (fresh Party) rfl
  have hnread : s.pipe.nread = 0 := hview (fun s => s.pipe.nread) rfl
  have hnwrite : s.pipe.nwrite = 1 := hview (fun s => s.pipe.nwrite) rfl
  have hdata : s.pipe.data (slot 0) = 7 := hview (fun s => s.pipe.data (slot 0)) rfl
  have hheld : s.pipe.held = [s.pipe.data (slot 0)] := by
    rw [Pipe.held, hnread, hnwrite]
    rfl
  exact ⟨s, hrun.mono exec_step, hheld.trans (by rw [hdata]), hnread, hnwrite,
    hview (fun s => s.pipe.writeopen) rfl, hview (fun s => s.pipe.lock.want writer) rfl, hview (fun s => (s.proc reader).pc) rfl,
    hview (fun s => (s.proc reader).n) rfl, hview (fun s => (s.proc reader).i) rfl, hview (fun s => (s.proc reader).got) rfl⟩

end PipeAux

open PipeAux in
theorem piperead_returns_iff_writeOne : ∃ s m t, Run PipeStep (fresh Party) (writeOne ++ [.proc reader (.read 1)]) s ∧
    Run PipeStep s (List.replicate m (.proc reader (.go undisturbed))) t ∧
    (t.proc reader).pc = .idle ∧ (t.proc reader).ret = 1 ∧ (t.proc reader).got = [7] := by
  obtain ⟨s, hs, hheld, -, -, -, hwant, hpc, hn, hi, hgot⟩ := writeOne_read 1
  obtain ⟨m, t, hrun, hidle, hret, hgot'⟩ := (piperead_returns_iff hpc ⟨hn, hi, hgot⟩ le_rfl).2 ⟨hwant, .inl (by rw [hheld]; decide)⟩
  rw [hheld] at hret hgot'
  exact ⟨s, m, t, hs, hrun, hidle, hret, hgot'⟩

open PipeAux in
/-- The pipe holds a byte, the write end is open, no writer is in the lock, and the reader wants two bytes: however many steps it takes,
it does not return. -/
theorem piperead_waits : ∃ s, Run PipeStep (fresh Party) (writeOne ++ [.proc reader (.read 2)]) s ∧ s.pipe.held = [7] ∧
    s.pipe.lock.want writer = false ∧ (s.proc reader).pc = .rLoop ∧ (s.proc reader).n = 2 ∧
    ∀ m t, Run PipeStep s (List.replicate m (.proc reader (.go undisturbed))) t → (t.proc reader).pc ≠ .idle := by
  obtain ⟨s, hs, hheld, hnread, hnwrite, hopen, hwant, hpc, hn, hi, -⟩ := writeOne_read 2
  refine ⟨s, hs, hheld, hwant, hpc, hn, fun m t hrun hidle => ?_⟩
  have hstarved : Starved s.pipe (s.proc reader) := by
    refine ⟨hopen, ?_, by rw [hpc]; trivial⟩
    rw [hi, hn, hpc, hnread, hnwrite]
    decide
  have hplace := (reaches_invariant (I := Starved) Starved.next (reaches_of_run hrun) hstarved).place
  rw [hidle] at hplace
  exact hplace

end Xv6
