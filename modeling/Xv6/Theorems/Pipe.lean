import Xv6.Lemmas.PipeTwoParty

namespace Xv6

open Lib Peterson List

namespace PipeAux

/-- The step of a label as a partial function. -/
def exec {P : Type} [DecidableEq P] (s : PipeSys P) : PipeLabel P → Option (PipeSys P)
  | .proc p a => ((s.proc p).step s.pipe a).map (s.after p)
  | _ => none

theorem exec_step {P : Type} [DecidableEq P] (s : PipeSys P) (label : PipeLabel P) (t : PipeSys P) (h : StepOf exec s label t) :
    PipeStep s label t := by
  unfold StepOf exec at h
  split at h
  case h_1 p a =>
    obtain ⟨r, hr, rfl⟩ := Option.map_eq_some_iff.1 h
    exact .proc p a hr
  case h_2 => nomatch h

/-- A pipe just allocated and idle processes. -/
def fresh (P : Type) : PipeSys P := ⟨pipealloc fun _ => 0, fun _ => ⟨.idle, [], 0, 0, [], 0, 0⟩, [], [], fun _ => []⟩

theorem fresh_init (P : Type) [DecidableEq P] : PipeInit (fresh P) := ⟨⟨_, rfl⟩, fun _ => rfl, rfl, rfl, fun _ => rfl⟩

/-- `n` steps of a process, nobody killed and every copy succeeding. -/
def steps {P : Type} (p : P) (n : Nat) : List (PipeLabel P) := List.replicate n (.proc p (.go ⟨false, false, true⟩))

/-- The writer writes a byte, then the reader reads it. -/
def handOver : List (PipeLabel Party) :=
  [.proc writer (.write [7])] ++ steps writer 12 ++ [.proc reader (.read 1)] ++ steps reader 12

theorem handOver_run : ∃ t, Run (Guarded (fun _ => TwoParty) PipeStep) (fresh Party) handOver t ∧ t.taken = [7] := by
  obtain ⟨t, hrun, hview⟩ := Run.exists_of_foldlM exec handOver (fresh Party) rfl
  refine ⟨t, (hrun.mono exec_step).guard fun label hlabel => ?_, hview (fun t => t.taken) rfl⟩
  simp only [handOver, steps, mem_append, mem_singleton, mem_replicate] at hlabel
  rcases hlabel with ((rfl | ⟨-, rfl⟩) | rfl) | ⟨-, rfl⟩ <;> trivial

end PipeAux

/-! ## Any number of processes -/

section AnyNumber

variable {P : Type} [DecidableEq P]

/-- In every run in which no process raises its side's flag while another process of that side is inside, the bytes removed
followed by the bytes in the buffer are, in every state reached, an interleaving of what the calls of `pipewrite` have written. -/
theorem pipe_noLostBytes {s t : PipeSys P} {labels : List (PipeLabel P)} (hinit : PipeInit s)
    (hrun : Run (Guarded OnePerSide PipeStep) s labels t) : t.NoLostBytes :=
  (PipeAux.inv_run hinit hrun).noLostBytes

end AnyNumber

namespace PipeAux

instance (me : Party) : DecidablePred (Phase.inside me)
  | .out => isFalse id
  | .flag x | .spinWant x | .spinTurn x | .crit x => inferInstanceAs (Decidable (x = me))

/-- A test for `OnePerSide`. -/
def sideFree (s : PipeSys (Fin 5)) : PipeLabel (Fin 5) → Bool
  | .proc p _ =>
    match (s.proc p).pc with
    | .want me => decide (∀ q, ¬(s.proc q).pc.phase.inside me)
    | _ => true
  | _ => true

theorem sideFree_sound (s : PipeSys (Fin 5)) (label : PipeLabel (Fin 5)) (h : sideFree s label = true) : OnePerSide s label := by
  cases label with
  | proc p a =>
    intro me hpc
    simp only [sideFree, hpc] at h
    exact of_decide_eq_true h
  | _ => trivial

/-- Of five processes two write in turn, one of them stopped in the middle of its call, and another reads the three bytes. -/
def takingTurns : List (PipeLabel (Fin 5)) :=
  [.proc 0 (.write [1, 3])] ++ steps 0 11 ++ [.proc 1 (.write [2])] ++ steps 1 12 ++ steps 0 12 ++ [.proc 2 (.read 3)] ++ steps 2 34

end PipeAux

open PipeAux in
theorem pipe_noLostBytes_takingTurns : ∃ t, Run (Guarded OnePerSide PipeStep) (fresh (Fin 5)) takingTurns t ∧ t.taken = [1, 2, 3] ∧
    t.counted (0, 1) = [1, 3] ∧ t.counted (1, 1) = [2] ∧ t.NoLostBytes := by
  obtain ⟨t, hrun, hview⟩ := Run.guarded_of_foldlM (fun s l => sideFree s l = true) exec takingTurns (fresh (Fin 5)) rfl
  have hrun' : Run (Guarded OnePerSide PipeStep) (fresh (Fin 5)) takingTurns t :=
    hrun.mono fun s label t h => ⟨sideFree_sound s label h.1, exec_step s label t h.2⟩
  obtain ⟨htaken, hfirst, hsecond⟩ := of_decide_eq_true (hview (fun t => decide (t.taken = [1, 2, 3] ∧ t.counted (0, 1) = [1, 3] ∧
    t.counted (1, 1) = [2])) (by decide +kernel))
  exact ⟨t, hrun', htaken, hfirst, hsecond, pipe_noLostBytes (fresh_init (Fin 5)) hrun'⟩

namespace PipeAux

/-- Two writers that enter one after the other, load the same `nwrite`, and then both store. -/
def twoWriters : List (PipeLabel Bool) :=
  [.proc false (.write [1])] ++ steps false 8 ++ [.proc true (.write [2])] ++ steps true 8 ++ steps false 4 ++ steps true 4

/-- An interleaving of two nonempty sequences has two elements. -/
theorem two_le_of_interleaving {κ β : Type} [DecidableEq κ] {f : κ → List β} {l : List β} (h : Interleaving f l) {j k : κ}
    (hjk : j ≠ k) (hj : f j ≠ []) (hk : f k ≠ []) : 2 ≤ l.length := by
  obtain ⟨L, rfl, hL⟩ := h
  have hmem : ∀ i, f i ≠ [] → ∃ x ∈ L, x.1 = i := by
    intro i hi
    rw [← hL i, ne_eq, map_eq_nil_iff, filter_eq_nil_iff] at hi
    push Not at hi
    simpa using hi
  obtain ⟨x, hx, rfl⟩ := hmem j hj
  obtain ⟨y, hy, rfl⟩ := hmem k hk
  rw [length_map]
  match L, hx, hy with
  | [z], hx, hy =>
    rw [mem_singleton] at hx hy
    exact absurd (by rw [hx, hy]) hjk
  | _ :: _ :: _, _, _ => exact Nat.le_add_left 2 _

end PipeAux

open PipeAux in
/-- Two writers inside at once lose a byte: both calls have returned having counted one byte, and the buffer holds one. -/
theorem two_writers_lose_byte : ∃ (s t : PipeSys Bool) (labels : List (PipeLabel Bool)), PipeInit s ∧ Run PipeStep s labels t ∧
    (∀ label ∈ labels, ∀ p e, label = .proc p (.go e) → e.killed = false ∧ e.copyFail = false) ∧
    (∀ p, (t.proc p).pc = .idle ∧ (t.proc p).ret = 1 ∧ t.counted (p, 1) ≠ []) ∧ ¬t.NoLostBytes := by
  obtain ⟨t, hrun, hview⟩ := Run.exists_of_foldlM exec twoWriters (fresh Bool) rfl
  have hidle : ∀ p, (t.proc p).pc = .idle := fun p => by cases p <;> exact hview (fun t => (t.proc _).pc) rfl
  have hret : ∀ p, (t.proc p).ret = 1 := fun p => by cases p <;> exact hview (fun t => (t.proc _).ret) rfl
  have hcounted : ∀ p, t.counted (p, 1) = [if p then 2 else 1] := fun p => by
    cases p <;> exact hview (fun t => t.counted (_, 1)) rfl
  refine ⟨fresh Bool, t, twoWriters, fresh_init Bool, hrun.mono exec_step, ?_, ?_, ?_⟩
  · intro label hlabel p e he
    subst he
    simp only [twoWriters, steps, List.mem_append, List.mem_singleton, List.mem_replicate, PipeLabel.proc.injEq,
      PipeAct.go.injEq, reduceCtorEq, and_false, false_or, or_false] at hlabel
    obtain ((⟨-, -, rfl⟩ | ⟨-, -, rfl⟩) | ⟨-, -, rfl⟩) | ⟨-, -, rfl⟩ := hlabel <;> exact ⟨rfl, rfl⟩
  · exact fun p => ⟨hidle p, hret p, by rw [hcounted p]; nofun⟩
  · intro h
    have hne : ∀ p, t.counted (p, 1) ++ t.inFlight (p, 1) ≠ [] := fun p => by rw [hcounted p]; nofun
    have htwo := two_le_of_interleaving h (j := (false, 1)) (k := (true, 1)) nofun (hne _) (hne _)
    have hres : ¬t.Reserved := fun ⟨p, _, hp⟩ => by rw [hidle p] at hp; nomatch hp
    have hlen : t.buffered.length = 1 := by
      rw [PipeSys.buffered, PipeSys.published, if_neg hres, List.length_map, List.length_range]
      exact hview (fun t => (t.pipe.nwrite - t.pipe.nread).toNat) rfl
    have htaken : t.taken = [] := hview (fun t => t.taken) rfl
    rw [htaken, List.nil_append, hlen] at htwo
    exact absurd htwo (by decide)

/-! ## One writer and one reader -/

/-- One writer and one reader. In every state of every run: the two are not both between `peterson_enter` and `peterson_exit`;
if both are in the entry loop, the one whose turn it is can take a step and takes at most one before one of them leaves the loop;
the counters are at most `PIPESIZE` apart modulo `2 ^ 32`; the bytes taken are a prefix of the bytes stored; and at the
end-of-file exit of `piperead` the write end is closed and every stored byte has been taken. -/
theorem two_party_pipe {s t : PipeSys Party} {labels : List (PipeLabel Party)} (hinit : PipeInit s)
    (hrun : Run (Guarded (fun _ => TwoParty) PipeStep) s labels t) :
    (¬∃ me you, (t.proc writer).pc.phase = .crit me ∧ (t.proc reader).pc.phase = .crit you) ∧
    (t.BothSpin → (∀ e, ∃ u, PipeStep t (.proc t.pipe.lock.turn (.go e)) u) ∧
      ∀ more u, Run (fun x a y => PipeStep x a y ∧ y.BothSpin) t more u →
        more.countP (PipeLabel.isOf t.pipe.lock.turn) ≤ 1) ∧
    (t.pipe.nwrite - t.pipe.nread).toNat ≤ PIPESIZE ∧
    t.taken <+: t.stored.map Prod.snd ∧
    (∀ p, (t.proc p).pc = .rEof → t.pipe.writeopen = false ∧ t.taken = t.stored.map Prod.snd) := by
  have h := PipeAux.inv_run hinit (PipeAux.onePerSide_run hinit hrun).1
  refine ⟨?_, ?_, h.nwrite_sub_nread, h.ring.taken, fun p hp => h.eof hp⟩
  · rintro ⟨me, you, hw, hr⟩
    exact nomatch h.lock.mutex hw hr
  · intro hs
    refine ⟨fun e => ?_, fun more u hmore => ?_⟩
    · rcases PipeAux.pc_of_spinning (hs t.pipe.lock.turn) with hpc | hpc
      · exact ⟨_, .proc _ _ (by rw [PipeProc.step, hpc]; rfl)⟩
      · exact ⟨_, .proc _ _ (by rw [PipeProc.step, hpc]; rfl)⟩
    · obtain ⟨-, -, hcount⟩ := PipeAux.bothSpin_run h hs hmore
      have hle : PipeAux.loads u ≤ 1 := by
        unfold PipeAux.loads
        split_ifs <;> decide
      omega

open PipeAux in
theorem two_party_pipe_handOver : ∃ t, Run (Guarded (fun _ => TwoParty) PipeStep) (fresh Party) handOver t ∧ t.taken = [7] ∧
    [7] <+: t.stored.map Prod.snd ∧ (t.pipe.nwrite - t.pipe.nread).toNat ≤ PIPESIZE := by
  obtain ⟨t, hrun, htaken⟩ := handOver_run
  obtain ⟨-, -, hsize, hprefix, -⟩ := two_party_pipe (fresh_init Party) hrun
  exact ⟨t, hrun, htaken, htaken ▸ hprefix, hsize⟩

end Xv6
