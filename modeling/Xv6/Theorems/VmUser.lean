import Xv6.Lib.Run
import Xv6.Theorems.VmCopies
import Xv6.Theorems.VmFork

/-!
# Memory as the users see it

Loads and stores of the user, with the page faults that `usertrap` gives to `vmfault`, and the copies of the kernel, for any number
of processes at once: each process has an array of bytes of its own, and lazily allocated pages are not to be told from others.
-/

namespace Xv6.Vm

open Lib Function

/-- What is done with the memory of a process. -/
inductive Op
  | load (va : Nat)
  | store (va : Nat) (b : Byte)
  | copyin (srcva len : Nat)
  | copyout (dstva : Nat) (src : List Byte)

/-- The bytes that were read, none for a write, or a failure. -/
def Op.run (p : Mm) : Op → VmM (Option (List Byte))
  | .load va => do pure ((← Vm.load p va).map ([·]))
  | .store va b => do pure (if ← Vm.store p va b then some [] else none)
  | .copyin srcva len => Vm.copyin p p.pagetable srcva len
  | .copyout dstva src => do pure (if ← Vm.copyout p p.pagetable dstva src then some [] else none)

/-- An array of bytes with `w` at `d`. -/
def patch (f : Nat → Option Byte) (d : Nat) (w : List Byte) : Nat → Option Byte :=
  fun a => if d ≤ a ∧ a < d + w.length then w[a - d]? else f a

/-- A read of an array gives the bytes that are there. -/
def Reads (f g : Nat → Option Byte) (va len : Nat) (r : Option (List Byte)) : Prop :=
  g = f ∧ ∀ b, r = some b → b.length = len ∧ ∀ i < len, f (va + i) = b[i]?

/-- What an operation is for: a read or a write of an array of bytes. A copy that fails may have written a first part. -/
def Op.Sees (r : Option (List Byte)) (f g : Nat → Option Byte) : Op → Prop
  | .load va => Reads f g va 1 r
  | .store va b => g = if r.isSome then patch f va [b] else f
  | .copyin srcva len => Reads f g srcva len r
  | .copyout dstva src => ∃ w, w <+: src ∧ g = patch f dstva w ∧ (r ≠ none → w = src)

/-- The user may load from a page, or store to it. -/
def Perm.lets (perm : Perm) (write : Bool) : Bool := perm.u && if write then perm.w else perm.r

/-- The user may use an address: its page is mapped for that, or it is below the size. -/
def Mm.usable (p : Mm) (s : Memory) (va : Nat) (write : Bool) : Bool :=
  match p.lookup s va with
  | some x => x.2.1.lets write
  | none => va < p.sz

/-- When an operation succeeds, with memory available. -/
def Op.Fits (p : Mm) (s : Memory) : Op → Prop
  | .load va => p.usable s va false = true
  | .store va _ => p.usable s va true = true
  | .copyin srcva len => ∀ i < len, p.byte s (srcva + i) ≠ none
  | .copyout dstva src => ∀ i < src.length, p.writable s (dstva + i) = true

variable {ι : Type}

/-- Processes whose page tables have no page in common but that of the trampoline. -/
structure Isolated (P : ι → Mm) (s : Memory) : Prop where
  current : ∀ i, Current (P i) s
  apart : ∀ i j, i ≠ j → Apart s (P i).pagetable (P j).pagetable

/-- An operation of one of the processes, and its result. -/
def Together (P : ι → Mm) (s : Memory) (a : ι × Op × Option (List Byte)) (t : Memory) : Prop := a.2.1.run (P a.1) s = .ok (a.2.2, t)

/-- An operation on one of several arrays of bytes. -/
def Separately (F : ι → Nat → Option Byte) (a : ι × Op × Option (List Byte)) (G : ι → Nat → Option Byte) : Prop :=
  a.2.1.Sees a.2.2 (F a.1) (G a.1) ∧ ∀ j, j ≠ a.1 → G j = F j

namespace UserAux

variable {p : Mm} {s t : Memory} {va : Nat} {write : Bool}

theorem translate_eq (h : Proper s p.pagetable) :
    translate p.pagetable va write s = .ok (((p.lookup s va).filter fun x => x.2.1.lets write).map Prod.fst, s) := by
  by_cases hva : va < MAXVA
  · rw [translate, if_neg (by omega), Mm.lookup, if_pos hva]
    rcases walk_cases h.wf hva with ⟨hwalk, hnone⟩ | ⟨q, f, hwalk, -, hf, hleaf⟩
    · rw [run_bind hwalk, space_eq_none.2 hnone]
      rfl
    · rw [run_bind hwalk]
      refine (run_bind (readPte_eq hf _)).trans ?_
      generalize f (ix 0 (va / PGSIZE)) = e at *
      cases hv : e.flags.v <;> rw [hv] at hleaf
      · rw [space_eq_none.2 hleaf]
        rfl
      · rw [space_of_leaf hleaf, Option.filter_some, Bool.true_and, Perm.lets]
        cases (e.flags.u && if write = true then e.flags.w else e.flags.r) <;> rfl
  · rw [translate, if_pos (by omega), Mm.lookup_high (by omega)]
    rfl

/-- The page that an access of the user gets to, if the user may use the address and memory has not run out. -/
def Got (p : Mm) (s : Memory) (va : Nat) (write : Bool) (r : Option Nat) (t : Memory) : Prop :=
  (Served p s t ∧ Shows p s t) ∧ (t.nomem = false → r.isSome = p.usable s va write) ∧
    ∀ q, r = some q → va / PGSIZE * PGSIZE < MAXVA ∧
      ∃ perm f, space t.mem p.pagetable (va / PGSIZE) = some (q, perm, f) ∧ perm.lets write = true

theorem fault_wp (h : Current p s) (hno : p.usable s va write = true → p.lookup s va = none) :
    Wp (fun _ => False) (do
      match ← vmfault p p.pagetable va with
      | none => pure none
      | some _ => translate p.pagetable va write) s (Got p s va write) := by
  have hmax : va < p.sz → va < MAXVA := fun hlt => (hlt.trans_le h.size).trans (by decide)
  refine (vmfault_wp h.toProper (h.size.trans (by decide))).bind ?_
  rintro r t ⟨hproper, hspared, ⟨rfl, rfl, hmiss⟩ | ⟨rfl, hnomem, hview⟩ | ⟨q, rfl, hlt, hnone, hview⟩⟩
  · refine Wp.pure ⟨⟨.refl h.toProper, .refl p t⟩, fun _ => (Bool.eq_false_iff.2 fun husable => ?_).symm, nofun⟩
    have hx := hno husable
    rw [Mm.usable, hx, decide_eq_true_eq] at husable
    rw [Mm.lookup, if_pos (hmax husable)] at hx
    exact hmiss.resolve_left (by omega) hx
  · exact Wp.pure ⟨⟨⟨hproper, hspared, fun v _ => by rw [hview]⟩, .of_view hview⟩, fun hmem => (by simp [hnomem] at hmem), nofun⟩
  · have hs : p.lookup s va = none := by rw [Mm.lookup, if_pos (hmax hlt), hnone]
    have hx : p.lookup t va = some (q, dataPerm, fun _ => 0) := by rw [Mm.lookup, if_pos (hmax hlt), hview, update_self]
    have hok : dataPerm.lets write = true := by cases write <;> rfl
    have hrun := @translate_eq p t va write hproper
    rw [hx, Option.filter_some, if_pos hok] at hrun
    refine Wp.of_eq hrun ⟨⟨⟨hproper, hspared, fun v hv => ?_⟩, .of_fault hlt hnone hview⟩, fun _ => by simp [Mm.usable, hs, hlt], ?_⟩
    · have := h.size
      rw [hview, update_of_ne]
      simp only [VTRAPFRAME, TRAPFRAME, TRAMPOLINE, MAXVA, PGSIZE] at *
      omega
    · rintro q' ⟨⟩
      exact ⟨(lt_MAXVA_iff rfl).1 (hmax hlt), _, _, by rw [hview, update_self], hok⟩

theorem access_wp (h : Current p s) : Wp (fun _ => False) (access p va write) s (Got p s va write) := by
  refine Wp.bind_eq (translate_eq h.toProper) ?_
  cases hx : p.lookup s va with
  | none => exact fault_wp h fun _ => hx
  | some x =>
    have husable : p.usable s va write = x.2.1.lets write := by rw [Mm.usable, hx]
    rw [Option.filter_some]
    cases hok : x.2.1.lets write with
    | false => exact fault_wp h fun hu => by rw [husable, hok] at hu; cases hu
    | true =>
      obtain ⟨hlt, hx⟩ := Option.ite_none_right_eq_some.1 hx
      refine Wp.pure ⟨⟨.refl h.toProper, .refl p s⟩, fun _ => (husable.trans hok).symm, ?_⟩
      rintro q ⟨⟩
      exact ⟨(lt_MAXVA_iff rfl).1 hlt, _, _, hx, hok⟩

/-- What an operation returns and leaves. -/
def Done (p : Mm) (o : Op) (s : Memory) (r : Option (List Byte)) (t : Memory) : Prop :=
  Served p s t ∧ o.Sees r (p.byte s) (p.byte t) ∧ (t.nomem = false → (r.isSome = true ↔ o.Fits p s))

theorem load_wp (h : Current p s) : Wp (fun _ => False) ((Op.load va).run p) s (Done p (.load va) s) := by
  simp only [Op.run, Vm.load, bind_assoc]
  refine (access_wp h).bind ?_
  rintro (_ | q) t ⟨⟨hserved, hshows⟩, hiff, hgot⟩
  · exact Wp.pure ⟨hserved, ⟨funext fun a => (hshows a).1, nofun⟩, fun hmem => (hiff hmem).symm ▸ Iff.rfl⟩
  · obtain ⟨hlow, perm, f, hx, hok⟩ := hgot q rfl
    simp only [bind_assoc]
    refine Wp.bind_eq (readPage_eq (hserved.bytes_of_space hx).2) (Wp.pure ⟨hserved,
      ⟨funext fun a => (hshows a).1, ?_⟩, fun hmem => (hiff hmem).symm ▸ Iff.rfl⟩)
    rintro b ⟨⟩
    refine ⟨rfl, fun i hi => ?_⟩
    obtain rfl : i = 0 := by omega
    rw [← (hshows _).1]
    exact (Fetched.byte hlow hx (Bool.and_eq_true_iff.1 hok).1 rfl).1

theorem store_wp {b : Byte} (h : Current p s) : Wp (fun _ => False) ((Op.store va b).run p) s (Done p (.store va b) s) := by
  simp only [Op.run, Vm.store, bind_assoc]
  refine (access_wp h).bind ?_
  rintro (_ | q) t ⟨⟨hserved, hshows⟩, hiff, hgot⟩
  · exact Wp.pure ⟨hserved, funext fun a => (hshows a).1, fun hmem => (hiff hmem).symm ▸ Iff.rfl⟩
  · obtain ⟨hlow, perm, f, hx, hok⟩ := hgot q rfl
    obtain ⟨hu, hw⟩ := Bool.and_eq_true_iff.1 hok
    obtain ⟨hproper, hview, hspared⟩ := hserved.rewrite hx (overwrite f (va % PGSIZE) [b])
    have hfit : va % PGSIZE + [b].length ≤ PGSIZE := Nat.mod_lt va (by decide)
    obtain ⟨hpatched, -, -⟩ := patched_of_write hlow hx hu hw hfit hview
    have hv := (h.served hserved).low hlow hx hu
    rw [Nat.div_add_mod'] at hpatched
    simp only [bind_assoc]
    refine Wp.bind_eq (writeBytes_eq (hserved.bytes_of_space hx).2 _ _) (Wp.pure ⟨hserved.trans ⟨hproper, hspared, fun v hv => ?_⟩,
      funext fun a => ?_, fun hmem => (hiff hmem).symm ▸ Iff.rfl⟩)
    · rw [hview, update_of_ne (by omega)]
    · rw [hpatched a, (hshows a).1]
      rfl

theorem op_wp (h : Current p s) (o : Op) : Wp (fun _ => False) (o.run p) s (Done p o s) := by
  cases o with
  | load va => exact load_wp h
  | store va b => exact store_wp h
  | copyin srcva len =>
    obtain ⟨r, t, hrun, hcopied⟩ := CopyAux.copyin_exact h srcva len
    obtain ⟨⟨hserved, -⟩, -⟩ := (@copyinLoop_bytes_wp (fun _ => False) p len s srcva len h (Nat.le_refl len)).ok hrun
    exact Wp.of_eq hrun ⟨hserved, ⟨funext hcopied.same, hcopied.bytes⟩, fun hmem => Option.isSome_iff_ne_none.trans (hcopied.succeeds hmem)⟩
  | copyout dstva src =>
    obtain ⟨ok, t, hrun, hcopied⟩ := CopyAux.copyout_exact h dstva src
    obtain ⟨⟨hserved, -⟩, -⟩ := (@copyoutLoop_bytes_wp (fun _ => False) p src.length s dstva src h (Nat.le_refl _)).ok hrun
    obtain ⟨w, hw, hpatched⟩ := hcopied.part
    refine Wp.bind_eq hrun (Wp.pure ⟨hserved, ?_, fun hmem => ?_⟩)
    · cases ok with
      | true => exact ⟨src, List.prefix_rfl, funext (hcopied.written rfl), fun _ => rfl⟩
      | false => exact ⟨w, hw, funext hpatched, nofun⟩
    · rw [Op.Fits, ← hcopied.succeeds hmem]
      cases ok <;> simp

variable {P : ι → Mm} {i : ι}

/-- An operation for one process leaves the others as they are. -/
theorem served_isolated (h : Isolated P s) (hserved : Served (P i) s t) : Isolated P t ∧ ∀ j, j ≠ i → (P j).byte t = (P j).byte s := by
  have hother : ∀ j, j ≠ i → Apart t (P i).pagetable (P j).pagetable ∧ Untouched s t (P j).pagetable ∧
      space t.mem (P j).pagetable = space s.mem (P j).pagetable := fun j hj =>
    ForkAux.apart_change (h.apart i j hj.symm) hserved.toProper hserved.spared fun x hx => (hserved.high _ (by decide)).trans hx
  refine ⟨⟨fun j => ?_, fun j k hjk => ?_⟩, fun j hj => funext fun a => (Shows.of_view (hother j hj).2.2 a).1⟩
  · by_cases hj : j = i
    · exact hj ▸ (h.current i).served hserved
    · obtain ⟨hapart, -, hsame⟩ := hother j hj
      exact ⟨hapart.right, (h.current j).size, hsame ▸ (h.current j).special⟩
  · by_cases hj : j = i
    · exact hj ▸ (hother k (hj ▸ hjk.symm)).1
    by_cases hk : k = i
    · exact hk ▸ ForkAux.apart_symm (hother j hj).1
    obtain ⟨hapart, hmem, -⟩ := hother j hj
    obtain ⟨hapart', hmem', -⟩ := hother k hk
    obtain ⟨-, -, hpages, hleaf⟩ := (h.current j).wf.congr fun x hx => hmem x (.inl hx)
    obtain ⟨-, -, hpages', hleaf'⟩ := (h.current k).wf.congr fun x hx => hmem' x (.inl hx)
    refine ⟨hapart.right, hapart'.right, hpages ▸ hpages' ▸ (h.apart j k hjk).tables, fun v w e e' => ?_⟩
    rw [hleaf, hleaf']
    exact (h.apart j k hjk).frames v w e e'

end UserAux

open UserAux in
/-- For any number of processes that share no page but the trampoline, and any order of their loads, stores and page faults and of the
copies for them: what happens is what happens to as many separate arrays of bytes, where an operation reads or writes the array of its
own process and none other. At any point every operation returns, and unless memory runs out it succeeds where it may be used. -/
theorem user_memory_isolated {P : ι → Mm} {s t : Memory} {as : List (ι × Op × Option (List Byte))} (h : Isolated P s)
    (hrun : Run (Together P) s as t) : Run Separately (fun i => (P i).byte s) as (fun i => (P i).byte t) ∧
      ∀ i (o : Op), ∃ r u, o.run (P i) t = .ok (r, u) ∧ (u.nomem = false → (r.isSome = true ↔ o.Fits (P i) t)) := by
  have hsim : Isolated P t ∧ Run Separately (fun i => (P i).byte s) as (fun i => (P i).byte t) := by
    induction hrun with
    | nil => exact ⟨h, .nil _⟩
    | snoc _ hstep ih =>
      obtain ⟨hu, hr⟩ := ih
      obtain ⟨hserved, hsees, -⟩ := (op_wp (hu.current _) _).ok hstep
      obtain ⟨hiso, hother⟩ := served_isolated hu hserved
      exact ⟨hiso, .snoc hr ⟨hsees, hother⟩⟩
  refine ⟨hsim.2, fun i o => ?_⟩
  obtain ⟨r, u, hrun, -, -, hfits⟩ := (op_wp (hsim.1.current i) o).returns
  exact ⟨r, u, hrun, hfits⟩

/-- Two processes of two pages that have not been touched. -/
def twoProcs (b : Bool) : Mm := ⟨8192, if b then 1 else 2, 20⟩

theorem twoProcs_isolated : Isolated twoProcs forkMemory := by
  have hbare : ∀ b, Proper forkMemory (twoProcs b).pagetable ∧ Inner forkMemory.mem (twoProcs b).pagetable ∧
      (∀ q ∈ tablePages forkMemory.mem (twoProcs b).pagetable, q = (twoProcs b).pagetable) ∧
      ∀ v, leaf forkMemory.mem (twoProcs b).pagetable v = none := by
    rintro (_ | _) <;> exact bare_table rfl (by decide) (by decide) (by decide)
  have hinj : ∀ b c, (twoProcs b).pagetable = (twoProcs c).pagetable → b = c := by decide
  refine ⟨fun b => ⟨(hbare b).1, by cases b <;> decide, fun v x _ hx => ?_⟩,
    fun b c hne => ⟨(hbare b).1, (hbare c).1, fun q hq hq' => ?_, fun v w e e' he => ?_⟩⟩
  · rw [space_eq_none.2 ((hbare b).2.2.2 v)] at hx
    cases hx
  · exact hne (hinj b c (((hbare b).2.2.1 q hq).symm.trans ((hbare c).2.2.1 q hq')))
  · rw [(hbare b).2.2.2] at he
    cases he

theorem user_memory_isolated_store : ∃ t, (Op.store 5000 7).run (twoProcs true) forkMemory = .ok (some [], t) ∧
    (twoProcs true).byte t 5000 = some 7 ∧ (twoProcs false).byte t 5000 = some 0 := by
  obtain ⟨r, t, hrun, -⟩ := (user_memory_isolated twoProcs_isolated (.nil _)).2 true (.store 5000 7)
  have hr : ((Op.store 5000 7).run (twoProcs true) forkMemory).toOption.map Prod.fst = some (some []) := by decide +kernel
  rw [hrun] at hr
  obtain rfl : r = some [] := Option.some.inj hr
  have hstep : Together twoProcs forkMemory (true, .store 5000 7, some []) t := hrun
  obtain ⟨G, ⟨hG, hother⟩, hnil⟩ := (user_memory_isolated twoProcs_isolated (.single hstep)).1.uncons
  have ht := congrFun hnil.eq_of_nil
  refine ⟨t, hrun, ?_, ?_⟩
  · rw [← ht, hG]
    rfl
  · rw [← ht, hother false nofun]
    decide +kernel

end Xv6.Vm
