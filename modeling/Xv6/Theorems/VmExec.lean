import Xv6.Lemmas.VmBuild
import Xv6.Lemmas.VmStack
import Xv6.Theorems.VmCopies

/-!
# The arguments of a program

`kexec` puts the arguments on the stack of the new program, where the program finds them, and fails for want of room exactly when they
and the array of their addresses take more than the stack has. The room for each string, and for the array, is rounded up to 16 bytes.
-/

namespace Xv6.Vm

open Lib List

/-- What a program that has been started finds: `argc`; at `sp`, which is a multiple of 16, the addresses of its arguments and a 0; at each
address the argument and a NUL. All of this is in the stack page and no part of it overlaps another: the strings are one below the other,
and the array is below them. The user has nothing of the page below the stack. -/
structure Delivered (p : Mm) (t : Memory) (argv : List (List Byte)) (argc sp : Nat) : Prop where
  count : argc = argv.length
  aligned : sp % 16 = 0
  found : ∃ addrs : List Nat, addrs.length = argv.length ∧
    (∀ it ∈ addrs.zip (argv.map (· ++ [0])) ++ [(sp, words (addrs ++ [0]))],
      p.sz - USERSTACK * PGSIZE ≤ it.1 ∧ it.1 + it.2.length ≤ p.sz ∧ ∀ k < it.2.length, p.byte t (it.1 + k) = it.2[k]?) ∧
    (addrs.zip (argv.map (· ++ [0])) ++ [(sp, words (addrs ++ [0]))]).Pairwise fun x y => y.1 + y.2.length ≤ x.1
  guard : ∀ a, p.sz - (USERSTACK + 1) * PGSIZE ≤ a → a < p.sz - USERSTACK * PGSIZE → p.byte t a = none ∧ p.writable t a = false

namespace ExecAux

variable {p : Mm} {s t u : Memory} {root sz g q v : Nat} {argv : List (List Byte)} {file : List Byte} {f : Nat → Byte}

/-- The page table that was built can be freed again. -/
theorem whole_of_loaded (h : Loaded s t root sz) (hrange : ∀ q ∈ s.freelist, s.kend ≤ q ∧ q < s.phystop) : Whole t root sz := by
  refine ⟨h.toProper, h.inner, fun q hq => ?_, fun v e he => ?_, h.size⟩
  · rw [h.kend, h.phystop]
    exact hrange q (h.tables q hq)
  · rw [h.kend, h.phystop]
    rcases h.low v _ (space_of_leaf he) with ⟨hv, -⟩ | ⟨hv, hq⟩
    · exact hv.elim .inl fun hv => .inr (.inl hv)
    · exact .inr (.inr ⟨hv, hrange _ hq⟩)

/-- The page table of the old program is still there. -/
theorem whole_of_building {old sz' : Nat} (h : Whole s old sz') (hb : Building s t root sz) :
    Whole t old sz' ∧ tablePages t.mem old = tablePages s.mem old ∧ ∀ v, leaf t.mem old v = leaf s.mem old v := by
  have hsame : ∀ x ∈ tablePages s.mem old, t.mem x = s.mem x := fun x hx => hb.kept x fun hfree => h.free x hfree hx
  obtain ⟨hwf, -, hpages, hleaf⟩ := h.wf.congr hsame
  refine ⟨⟨⟨⟨hwf, hb.nodup, fun x hx => ?_⟩, fun x hx => ?_, fun v e he => ?_, fun v e he hx => ?_, fun v v' e e' he he' => ?_⟩, ?_, ?_, ?_,
    h.size⟩, hpages, hleaf⟩
  · rw [hpages]
    exact h.free x (hb.list x hx)
  · exact hb.range x hx
  · rw [hleaf] at he
    rw [hb.kept _ (h.used v e he)]
    exact h.bytes v e he
  · rw [hleaf] at he
    exact h.used v e he (hb.list _ hx)
  · rw [hleaf] at he he'
    exact h.once v v' e e' he he'
  · exact Wellformed.inner_congr h.inner fun x hx => hsame x (Wellformed.upper_mono hx)
  · rw [hpages, hb.kend, hb.phystop]
    exact h.inside
  · intro v e he
    rw [hleaf] at he
    rw [hb.kend, hb.phystop]
    exact h.low v e he

/-- What the new page table shows is not changed by what happens to other pages. -/
theorem space_of_kept {x : Nat × Perm × (Nat → Byte)} (h : Building s u root sz) (ht : ∀ q ∈ s.freelist, t.mem q = u.mem q)
    (hx : space u.mem root v = some x) (hv : v < VTRAPFRAME) : space t.mem root v = some x := by
  obtain ⟨-, -, -, hleaf⟩ := h.wf.congr fun q hq => ht q (h.tables q hq)
  rw [← hx]
  refine space_congr (hleaf v) fun e he => ht _ ?_
  rcases h.low v _ (space_of_leaf he) with ⟨rfl | rfl, -⟩ | ⟨-, hq⟩
  · exact absurd hv (by decide)
  · exact absurd hv (by decide)
  · exact hq

/-- The bytes that the user has on a page. -/
theorem byte_of_space {perm : Perm} {a : Nat} (hx : space t.mem p.pagetable v = some (q, perm, f)) (hv : v < VTRAPFRAME)
    (ha : v * PGSIZE ≤ a) (ha' : a < (v + 1) * PGSIZE) :
    p.byte t a = (if perm.u then some (f (a - v * PGSIZE)) else none) ∧ p.writable t a = (perm.u && perm.w) := by
  have hdiv : a / PGSIZE = v := by
    simp only [PGSIZE] at *
    omega
  have hmod : a % PGSIZE = a - v * PGSIZE := by
    simp only [PGSIZE] at *
    omega
  have hlookup : p.lookup t a = some (q, perm, f) :=
    (Mm.lookup_eq hdiv (((Nat.mul_lt_mul_right (by decide)).2 hv).trans (by decide))).trans hx
  rw [Mm.byte_of_some hlookup, Mm.writable_of_some hlookup, hmod]
  exact ⟨rfl, rfl⟩

/-- The stack page holds what was put there, and the guard page is not for the user. -/
theorem delivered {q' : Nat} (hsz : sz = (g + 2) * PGSIZE) (hlow : g + 1 < VTRAPFRAME)
    (hguard : space t.mem root g = some (q, guardPerm, fun _ => 0)) (hstack : space t.mem root (g + 1) = some (q', dataPerm, f))
    (hsp : (sz - stackNeed argv) % 16 = 0)
    (hput : Stacked ((g + 1) * PGSIZE) sz (fun _ => 0) f ((places sz argv).zip (argv.map (· ++ [0])) ++
      [(sz - stackNeed argv, words (places sz argv ++ [0]))])) :
    Delivered ⟨sz, root, p.trapframe⟩ t argv argv.length (sz - stackNeed argv) := by
  have hbase : sz - USERSTACK * PGSIZE = (g + 1) * PGSIZE := by
    rw [hsz]
    simp only [USERSTACK, PGSIZE]
    omega
  have hfirst : sz - (USERSTACK + 1) * PGSIZE = g * PGSIZE := by
    rw [hsz]
    simp only [USERSTACK, PGSIZE]
    omega
  refine ⟨rfl, hsp, ⟨places sz argv, places_length .., fun it hit => ?_, hput.apart⟩, fun a ha ha' => ?_⟩
  · obtain ⟨hstart, hend, hbytes⟩ := hput.placed it hit
    refine ⟨hbase.le.trans hstart, hend, fun k hk => ?_⟩
    have hbyte := (byte_of_space (p := ⟨sz, root, p.trapframe⟩) (a := it.1 + k) hstack hlow (by omega)
      (by rw [show (g + 1 + 1) * PGSIZE = sz from hsz.symm]; omega)).1
    rw [hbyte, if_pos (show dataPerm.u = true from rfl), show it.1 + k - (g + 1) * PGSIZE = it.1 - (g + 1) * PGSIZE + k by omega, hbytes k hk,
      getD_eq_getElem?_getD, getElem?_eq_getElem hk]
    rfl
  · dsimp only at ha ha'
    rw [hfirst] at ha
    rw [hbase] at ha'
    exact byte_of_space (p := ⟨sz, root, p.trapframe⟩) hguard (by omega) ha ha'

/-- A program that has been loaded is started if its arguments fit, and is given up if not. -/
theorem kexec_staged (h : Whole s p.pagetable p.sz) (hcount : argv.length ≤ MAXARG - 1) (hargs : ∀ arg ∈ argv, arg.length < PGSIZE)
    (hrun : execStack p file s = .ok (some (root, sz), t)) (hs : Staged s t root sz g) :
    ∃ r u, kexec p (some file) argv s = .ok (r, u) ∧
      (if stackNeed argv ≤ USERSTACK * PGSIZE then r = some (⟨sz, root, p.trapframe⟩, argv.length, sz - stackNeed argv) ∧
        Delivered ⟨sz, root, p.trapframe⟩ u argv argv.length (sz - stackNeed argv) else r = none) := by
  obtain ⟨q, hguard⟩ := hs.guard
  obtain ⟨q', hstack⟩ := hs.stack
  have hsz := hs.stop
  have hlow : g + 1 < VTRAPFRAME := by
    have hle := pages_le hs.size
    rw [hsz, pages_mul] at hle
    omega
  have hva : (g + 1) * PGSIZE < MAXVA := ((Nat.mul_lt_mul_right (by decide)).2 hlow).trans (by decide)
  have hbase : sz - USERSTACK * PGSIZE = (g + 1) * PGSIZE := by
    rw [hsz]
    simp only [USERSTACK, PGSIZE]
    omega
  have htop : sz = (g + 1) * PGSIZE + USERSTACK * PGSIZE := by
    rw [hsz]
    simp only [USERSTACK, PGSIZE]
    omega
  obtain ⟨f, hpush, hput⟩ := pushArgs_eq (p := p) argv sz [] hva (Nat.le_mul_of_pos_left _ (Nat.succ_pos g)) rfl rfl hargs
    (by simp only [MAXARG, length_nil] at *; omega) hs.toProper hstack (by rw [hsz]; simp only [PGSIZE]; omega) (by omega) (by rw [htop]; exact Nat.le_refl _)
  rw [length_nil, Nat.zero_add, show stackRoom argv argv.length = stackNeed argv from rfl] at hpush hput
  have hfit : (g + 1) * PGSIZE + stackNeed argv ≤ sz ↔ stackNeed argv ≤ USERSTACK * PGSIZE := by omega
  have hloaded := hs.toLoaded.rewrite hstack rfl f
  have hq' : q' ∈ s.freelist := by
    rcases hs.low _ _ hstack with ⟨-, hu⟩ | ⟨-, hq'⟩
    · cases hu
    · exact hq'
  obtain ⟨hbuild, hspace⟩ := hs.toBuilding.rewrite hstack hq' f
  rw [kexec, run_bind hrun]
  dsimp only
  rw [hbase]
  by_cases hneed : stackNeed argv ≤ USERSTACK * PGSIZE
  · rw [if_pos (hfit.2 hneed)] at hpush
    obtain ⟨hsp, hput⟩ := hput (hfit.2 hneed)
    obtain ⟨hwhole, hpages, hleaf⟩ := whole_of_building h hbuild
    obtain ⟨_, u, hfree, hkept⟩ := (procFreepagetable_wp hwhole).returns
    -- the pages that are freed now were not on the list before
    have hsame : ∀ x ∈ s.freelist, u.mem x = (t.setPage q' (.bytes f)).mem x := fun x hx =>
      hkept x (fun hpage => h.free x hx (hpages ▸ hpage)) fun v e he heq => h.used v e (hleaf v ▸ he) (heq ▸ hx)
    refine ⟨some (⟨sz, root, p.trapframe⟩, argv.length, sz - stackNeed argv), u, ?_, ?_⟩
    · rw [run_bind hpush]
      exact run_bind hfree
    · rw [if_pos hneed]
      have hguard' : space u.mem root g = some (q, guardPerm, fun _ => 0) := by
        refine space_of_kept hbuild hsame ?_ (by omega)
        rw [hspace, Function.update_of_ne (by omega)]
        exact hguard
      have hstack' : space u.mem root (g + 1) = some (q', dataPerm, f) := by
        refine space_of_kept hbuild hsame ?_ hlow
        rw [hspace, Function.update_self]
      exact ⟨rfl, delivered hsz hlow hguard' hstack' hsp hput⟩
  · rw [if_neg fun hle => hneed (hfit.1 hle)] at hpush
    obtain ⟨_, u, hfree, -⟩ := (procFreepagetable_wp (whole_of_loaded hloaded h.range)).returns
    refine ⟨none, u, ?_, ?_⟩
    · rw [run_bind hpush]
      exact run_bind hfree
    · rw [if_neg hneed]

end ExecAux

open ExecAux

/-- For every process, every file and every list of arguments, fewer than `MAXARG` and each shorter than a page: if `kexec` succeeds, the
new program finds its arguments; and if the program can be loaded, `kexec` returns, and fails exactly if the arguments take more than the
stack has. -/
theorem exec_arguments {p : Mm} {s : Memory} (h : Whole s p.pagetable p.sz) (hfixed : Fixed s p) (file : List Byte) (argv : List (List Byte))
    (hcount : argv.length ≤ MAXARG - 1) (hargs : ∀ arg ∈ argv, arg.length < PGSIZE) :
    (∀ p' argc sp t, kexec p (some file) argv s = .ok (some (p', argc, sp), t) → Delivered p' t argv argc sp) ∧
    ((∃ root sz t, execStack p file s = .ok (some (root, sz), t)) →
      ∃ r t, kexec p (some file) argv s = .ok (r, t) ∧ (r = none ↔ USERSTACK * PGSIZE < stackNeed argv)) := by
  have hloaded : ∀ root sz t, execStack p file s = .ok (some (root, sz), t) → _ := fun root sz t hrun =>
    kexec_staged h hcount hargs hrun ((execStack_wp h.toProper hfixed).ok hrun root sz rfl).choose_spec
  constructor
  · intro p' argc sp t hrun
    cases hstack : execStack p file s with
    | error e =>
      have hbind : kexec p (some file) argv s = (execStack p file s).bind _ := rfl
      rw [hbind, hstack] at hrun
      cases hrun
    | ok r =>
      obtain ⟨r, u⟩ := r
      cases r with
      | none =>
        rw [kexec, run_bind hstack] at hrun
        cases hrun
      | some x =>
        obtain ⟨r, w, hrun', hcase⟩ := hloaded x.1 x.2 u hstack
        obtain ⟨rfl, rfl⟩ := Prod.mk.inj (Except.ok.inj (hrun.symm.trans hrun'))
        split at hcase
        · obtain ⟨heq, hdelivered⟩ := hcase
          cases heq
          exact hdelivered
        · cases hcase
  · rintro ⟨root, sz, t, hrun⟩
    obtain ⟨r, u, hrun', hcase⟩ := hloaded root sz t hrun
    refine ⟨r, u, hrun', ?_⟩
    split at hcase
    · rw [hcase.1]
      exact ⟨fun hno => (by cases hno), fun hlt => by omega⟩
    · exact ⟨fun _ => by omega, fun _ => hcase⟩

/-- The ELF header of a program with no segments. -/
def emptyProgram : List Byte := [0x7F, 0x45, 0x4C, 0x46] ++ List.replicate 60 0

theorem lazyMemory_whole : Whole lazyMemory lazyProc.pagetable lazyProc.sz ∧ Fixed lazyMemory lazyProc := by
  obtain ⟨hproper, hinner, hpages, hleaf⟩ := lazyMemory_bare
  refine ⟨⟨hproper, hinner, fun q hq => ?_, fun v e he => ?_, by decide⟩, ⟨by decide, _, rfl⟩, ⟨by decide, _, rfl⟩, by decide⟩
  · rw [hpages q hq]
    decide
  · rw [show lazyProc.pagetable = 1 from rfl, hleaf] at he
    cases he

theorem exec_arguments_empty :
    (∃ p' sp t, kexec lazyProc (some emptyProgram) [[104, 105]] lazyMemory = .ok (some (p', 1, sp), t) ∧ Delivered p' t [[104, 105]] 1 sp) ∧
    ∃ t, kexec lazyProc (some emptyProgram) [List.replicate 4090 65] lazyMemory = .ok (none, t) := by
  have hstack : ∃ root sz t, execStack lazyProc emptyProgram lazyMemory = .ok (some (root, sz), t) := by
    have hview : (execStack lazyProc emptyProgram lazyMemory).toOption.map Prod.fst = some (some (2, 8192)) := by decide +kernel
    cases hrun : execStack lazyProc emptyProgram lazyMemory with
    | error e =>
      rw [hrun] at hview
      cases hview
    | ok r =>
      rw [hrun] at hview
      obtain ⟨r, t⟩ := r
      exact ⟨2, 8192, t, congrArg (fun r => Except.ok (r, t)) (Option.some.inj hview)⟩
  obtain ⟨hwhole, hfixed⟩ := lazyMemory_whole
  constructor
  · obtain ⟨hsome, hruns⟩ := exec_arguments hwhole hfixed emptyProgram [[104, 105]] (by decide) (by decide)
    obtain ⟨r, t, hrun, hiff⟩ := hruns hstack
    cases r with
    | none => exact absurd (hiff.1 rfl) (by decide)
    | some x =>
      obtain ⟨p', argc, sp⟩ := x
      have hdelivered := hsome p' argc sp t hrun
      obtain rfl : argc = 1 := hdelivered.count
      exact ⟨p', sp, t, hrun, hdelivered⟩
  · obtain ⟨-, hruns⟩ := exec_arguments hwhole hfixed emptyProgram [List.replicate 4090 65] (by decide)
      (by simp only [List.mem_singleton, forall_eq, List.length_replicate]; decide)
    obtain ⟨r, t, hrun, hiff⟩ := hruns hstack
    have hnone : r = none := hiff.2 (by simp only [stackNeed, stackRoom, List.map_cons, List.map_nil, List.length_replicate]; decide)
    exact ⟨t, hnone ▸ hrun⟩

end Xv6.Vm
