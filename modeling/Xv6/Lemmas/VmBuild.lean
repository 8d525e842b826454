import Xv6.Lemmas.VmFree

/-!
# Building a page table

The page table of a new program, as `kexec` builds it: `proc_pagetable`, then `uvmalloc` and `loadseg` for each segment, and a guard page
and a stack at the end. All its pages come from the list, so nothing else changes. Nothing is said here of what happens when it fails.
-/

namespace Xv6.Vm

open Lib Function List

/-- A page table that is being built in the memory `s`, with memory of `sz` bytes so far. Its pages are from the list, except those of the
trampoline and the trapframe, which are not for the user, and no other page has changed. -/
structure Building (s t : Memory) (root sz : Nat) : Prop extends Proper t root where
  inner : Inner t.mem root
  tables : ∀ q ∈ tablePages t.mem root, q ∈ s.freelist
  low : ∀ v x, space t.mem root v = some x → (v = VTRAMPOLINE ∨ v = VTRAPFRAME) ∧ x.2.1.u = false ∨ v < pages sz ∧ x.1 ∈ s.freelist
  list : ∀ q ∈ t.freelist, q ∈ s.freelist
  kept : ∀ x, x ∉ s.freelist → t.mem x = s.mem x
  kend : t.kend = s.kend
  phystop : t.phystop = s.phystop

/-- The trapframe is in its place, and the memory ends below it. -/
structure Loaded (s t : Memory) (root sz : Nat) : Prop extends Building s t root sz where
  size : sz ≤ TRAPFRAME
  trapframe : space t.mem root VTRAPFRAME ≠ none

section steps

variable {s t u : Memory} {root sz sz' v q : Nat} {perm : Perm} {f : Nat → Byte} {file : List Byte} {xperm : Perm} {old : Nat} {p : Mm}

theorem pages_mul (v : Nat) : pages (v * PGSIZE) = v := by
  simp only [pages, PGSIZE]
  omega

theorem succ_le_TRAPFRAME (h : v * PGSIZE ≤ TRAPFRAME) (hv : VTRAPFRAME ≠ v) : (v + 1) * PGSIZE ≤ TRAPFRAME := by
  have htop : TRAPFRAME = VTRAPFRAME * PGSIZE := by decide
  rw [htop] at h ⊢
  exact Nat.mul_le_mul_right _ (Nat.lt_of_le_of_ne (Nat.le_of_mul_le_mul_right h (by decide)) hv.symm)

/-- The page table grows, and a page may be mapped. -/
theorem Building.grow (h : Building s t root sz) (hproper : Proper u root) (hgrown : Grown t u root) (hsz : pages sz ≤ pages sz')
    (hnew : ∀ v x, space u.mem root v = some x → space t.mem root v = some x ∨
      (v = VTRAMPOLINE ∨ v = VTRAPFRAME) ∧ x.2.1.u = false ∨ v < pages sz' ∧ x.1 ∈ s.freelist) : Building s u root sz' := by
  refine ⟨hproper, hgrown.inner h.inner, fun q hq => ?_, fun v x hx => ?_, fun q hq => h.list q (hgrown.list.subset hq), fun x hx => ?_,
    hgrown.kend.trans h.kend, hgrown.phystop.trans h.phystop⟩
  · exact (hgrown.pages q hq).elim (h.tables q) (h.list q)
  · rcases hnew v x hx with hx | hx
    · exact (h.low v x hx).imp_right fun hx => ⟨by omega, hx.2⟩
    · exact hx
  · exact (hgrown.mem x (fun hq => hx (h.list x hq)) fun hq => hx (h.tables x hq)).trans (h.kept x hx)

theorem Building.resize (h : Building s t root sz) (hsz : pages sz ≤ pages sz') : Building s t root sz' :=
  h.grow h.toProper (.refl t root) hsz fun _ _ => .inl

/-- A new page that is mapped, in the terms of `Building.grow`. -/
theorem new_of_update {P : Nat → Nat × Perm × (Nat → Byte) → Prop} {m m' : View} {y : Nat × Perm × (Nat → Byte)}
    (hm : m' = update m v (some y)) (hy : P v y) (w : Nat) (x : Nat × Perm × (Nat → Byte)) (hx : m' w = some x) : m w = some x ∨ P w x := by
  rw [hm] at hx
  rw [update_apply] at hx
  split_ifs at hx with hwv
  · subst hwv
    cases hx
    exact .inr hy
  · exact .inl hx

/-- A page for the user gets other bytes. -/
theorem Building.rewrite (h : Building s t root sz) (hx : space t.mem root v = some (q, perm, f)) (hq : q ∈ s.freelist) (g : Nat → Byte) :
    Building s (t.setPage q (.bytes g)) root sz ∧
      space (t.setPage q (.bytes g)).mem root = update (space t.mem root) v (some (q, perm, g)) := by
  obtain ⟨hproper, hspace, -⟩ := h.toProper.rewrite hx g
  have hnot := h.not_table (h.bytes_of_space hx).1
  have hother : ∀ x, x ≠ q → (t.setPage q (.bytes g)).mem x = t.mem x := fun x hne => by rw [Memory.setPage_mem, update_of_ne hne]
  obtain ⟨-, -, hpages, -⟩ := h.wf.congr fun x hmem => hother x fun heq => hnot (heq ▸ hmem)
  refine ⟨⟨hproper, Wellformed.inner_congr h.inner fun x hmem => hother x fun heq => hnot (heq ▸ Wellformed.upper_mono hmem), hpages ▸ h.tables,
    fun w x hw => ?_, h.list, fun x hfree => (hother x fun heq => hfree (heq ▸ hq)).trans (h.kept x hfree), h.kend, h.phystop⟩, hspace⟩
  rcases new_of_update (P := fun w x => space t.mem root w = some (x.1, x.2.1, f)) hspace hx w x hw with hw | hw
  · exact h.low w x hw
  · have hlow := h.low w _ hw
    exact hlow

/-- `mappages` of one page, wherever it succeeds. -/
theorem mappage_any_wp (h : Proper t root) (hq : Foreign t root q) (hf : t.mem q = .bytes f) :
    Wp (fun _ => True) (mappages root (v * PGSIZE) PGSIZE q perm) t fun ok u => ok = true → Proper u root ∧ Grown t u root ∧
      space t.mem root v = none ∧ space u.mem root = update (space t.mem root) v (some (q, perm ||| PTE_V, f)) := by
  by_cases hv : v * PGSIZE < MAXVA
  · cases he : leaf t.mem root v with
    | none =>
      exact (h.mappage_wp hq hf hv he).mono fun ok u hu hok => ⟨hu.1, hu.2.1.toGrown, space_eq_none.2 he, hu.2.2.2.1 hok⟩
    | some e =>
      -- what is mapped already is not mapped again
      rw [mappages, if_neg (by rw [Nat.mul_mod_left]; exact fun h => h rfl), if_neg (by decide), if_neg (by decide), mappagesLoop.eq_def]
      refine (walk_map_wp h.toReady hv).bind ?_
      rintro r u ⟨⟨hready, -, hleaf⟩, -, hsome⟩
      cases r with
      | none => exact Wp.pure fun hok => (by cases hok)
      | some pte =>
        obtain ⟨p, i⟩ := pte
        obtain ⟨hi, hl⟩ := hsome (p, i) rfl
        dsimp only at hi hl
        subst hi
        obtain ⟨g, hg⟩ := hready.wf.tables _ p (Wellformed.depth_lt v) hl
        refine Wp.bind_eq (readPte_eq hg _) ?_
        rw [← hleaf, leaf_of_node (vpages_of_lt hv) hl, entry_table hg] at he
        split at he
        · rw [if_pos ‹_›]
          exact Wp.throw trivial
        · cases he
  · rw [mappages, if_neg (by rw [Nat.mul_mod_left]; exact fun h => h rfl), if_neg (by decide), if_neg (by decide), mappagesLoop.eq_def]
    refine Wp.bind (R := fun _ _ => False) ?_ fun _ _ hno => hno.elim
    rw [walk, if_pos (by omega)]
    exact Wp.throw trivial

/-! ### `uvmalloc` -/

theorem uvmallocLoop_wp {oldsz : Nat} (n : Nat) (h : Loaded s t root (v * PGSIZE)) :
    Wp (fun _ => True) (uvmallocLoop root oldsz xperm n (v * PGSIZE)) t fun ok u => ok = true → Loaded s u root ((v + n) * PGSIZE) ∧
      ∀ w, v ≤ w → w < v + n → ∃ q, space u.mem root w = some (q, PTE_R ||| PTE_U ||| xperm ||| PTE_V, fun _ => 0) := by
  suffices hloop : Wp (fun _ => True) (uvmallocLoop root oldsz xperm n (v * PGSIZE)) t fun ok u => ok = true → Loaded s u root ((v + n) * PGSIZE) ∧
      (∀ w < v, space u.mem root w = space t.mem root w) ∧
      ∀ w, v ≤ w → w < v + n → ∃ q, space u.mem root w = some (q, PTE_R ||| PTE_U ||| xperm ||| PTE_V, fun _ => 0) from
    hloop.mono fun _ _ hu hok => ⟨(hu hok).1, (hu hok).2.2⟩
  induction n generalizing t v with
  | zero => exact Wp.pure fun _ => ⟨h, fun _ _ => rfl, fun w hw hw' => by omega⟩
  | succ n ih =>
    rw [uvmallocLoop]
    rcases h.kalloc with ⟨t', hk, -⟩ | ⟨q, t', hk, hlist, -, -, hgot⟩
    · refine Wp.bind_eq hk ?_
      exact (Wp.any _ _).bind fun _ _ _ => Wp.pure fun hok => (by cases hok)
    obtain ⟨hproper, hview, -, hforeign, hgrown⟩ := hgot (.bytes fun _ => 0)
    have hself : (t'.setPage q (.bytes fun _ => 0)).mem q = .bytes fun _ => 0 := update_self ..
    refine Wp.bind_eq hk (Wp.bind_eq (t := t'.setPage q (.bytes fun _ => 0)) rfl ?_)
    generalize t'.setPage q (.bytes fun _ => 0) = a at hproper hview hforeign hself hgrown
    refine (mappage_any_wp hproper hforeign hself).bind fun ok b hb => ?_
    cases ok with
    | false =>
      rw [if_neg Bool.false_ne_true]
      exact (Wp.any _ _).bind fun _ _ _ => (Wp.any _ _).bind fun _ _ _ => Wp.pure fun hok => (by cases hok)
    | true =>
      obtain ⟨hproper', hgrown', hnone, hspace⟩ := hb rfl
      rw [hview] at hnone hspace
      have hsz : pages ((v + 1) * PGSIZE) = v + 1 := pages_mul _
      have hle : pages (v * PGSIZE) ≤ pages ((v + 1) * PGSIZE) := by rw [hsz, pages_mul]; omega
      have hbuild := h.toBuilding.grow hproper' (hgrown.trans hgrown') hle
        (new_of_update hspace (.inr ⟨by rw [hsz]; exact Nat.lt_succ_self v, h.list q (hlist ▸ mem_cons_self)⟩))
      -- the trapframe is mapped, so it is not where the new page is
      have hne : VTRAPFRAME ≠ v := fun heq => h.trapframe (heq ▸ hnone)
      have hloaded : Loaded s b root ((v + 1) * PGSIZE) := by
        refine ⟨hbuild, succ_le_TRAPFRAME h.size hne, ?_⟩
        rw [hspace, update_of_ne hne]
        exact h.trapframe
      rw [if_pos rfl, page_succ]
      refine (ih hloaded).mono fun ok c hc hok => ?_
      obtain ⟨hdone, hbelow, hpages⟩ := hc hok
      rw [show v + 1 + n = v + (n + 1) by omega] at hdone hpages
      refine ⟨hdone, fun w hw => ?_, fun w hw hw' => ?_⟩
      · rw [hbelow w (by omega), hspace, update_of_ne (by omega)]
      · rcases Nat.eq_or_lt_of_le hw with rfl | hw
        · exact ⟨q, by rw [hbelow v (by omega), hspace, update_self]⟩
        · exact hpages w hw hw'

/-- A size may be rounded up. -/
theorem Loaded.round (h : Loaded s t root sz) : Loaded s t root (pages sz * PGSIZE) := by
  refine ⟨h.toBuilding.resize (by rw [pages_mul]), ?_, h.trapframe⟩
  rw [show TRAPFRAME = VTRAPFRAME * PGSIZE by decide]
  exact Nat.mul_le_mul_right _ (pages_le h.size)

theorem uvmalloc_wp {newsz : Nat} (h : Loaded s t root sz) :
    Wp (fun _ => True) (uvmalloc root sz newsz xperm) t fun r u => r ≠ 0 → Loaded s u root r ∧ (sz ≤ newsz → r = newsz ∧
      ∀ w, pages sz ≤ w → w < pages newsz → ∃ q, space u.mem root w = some (q, PTE_R ||| PTE_U ||| xperm ||| PTE_V, fun _ => 0)) := by
  rw [uvmalloc]
  split
  · exact Wp.pure fun _ => ⟨h, fun hle => by omega⟩
  · rename_i hge
    have hmono : pages sz ≤ pages newsz := Nat.div_le_div_right (by omega)
    rw [pgroundup_eq h.size, Nat.mul_div_cancel _ (by decide), show (newsz + PGSIZE - 1) / PGSIZE = pages newsz from rfl]
    refine (uvmallocLoop_wp _ h.round).bind fun ok u hu => Wp.pure fun hr => ?_
    cases ok with
    | false => exact absurd rfl hr
    | true =>
      obtain ⟨hdone, hpages⟩ := hu rfl
      rw [Nat.add_sub_cancel' hmono] at hdone hpages
      have hend : newsz ≤ pages newsz * PGSIZE := by
        simp only [pages, PGSIZE]
        omega
      rw [if_pos rfl]
      exact ⟨⟨hdone.toBuilding.resize (by rw [pages_mul]), hend.trans hdone.size, hdone.trapframe⟩, fun _ => ⟨rfl, hpages⟩⟩

/-! ### `loadseg` -/

theorem Loaded.rewrite (h : Loaded s t root sz) (hx : space t.mem root v = some (q, perm, f)) (hu : perm.u = true) (g : Nat → Byte) :
    Loaded s (t.setPage q (.bytes g)) root sz := by
  have hq : q ∈ s.freelist := by
    rcases h.low v _ hx with ⟨-, hu'⟩ | ⟨-, hq⟩
    · rw [hu] at hu'
      cases hu'
    · exact hq
  obtain ⟨hbuild, hspace⟩ := h.toBuilding.rewrite hx hq g
  refine ⟨hbuild, h.size, ?_⟩
  rw [hspace]
  by_cases hv : VTRAPFRAME = v
  · rw [hv, update_self]
    exact Option.some_ne_none _
  · rw [update_of_ne hv]
    exact h.trapframe

theorem loadsegLoop_wp {va offset len : Nat} (n i : Nat) (h : Loaded s t root sz) :
    Wp (fun _ => True) (loadsegLoop root va file offset len n i) t fun _ u => Loaded s u root sz := by
  induction n generalizing t i with
  | zero => exact Wp.pure h
  | succ n ih =>
    rw [loadsegLoop]
    by_cases hva : va + i < MAXVA
    · refine Wp.bind_eq (walkaddr_eq h.wf hva) ?_
      cases hx : (space t.mem root ((va + i) / PGSIZE)).filter fun x => x.2.1.u with
      | none => exact Wp.throw trivial
      | some x =>
        obtain ⟨q, perm, f⟩ := x
        obtain ⟨hx, hu⟩ := Option.filter_eq_some_iff.1 hx
        refine Wp.bind_eq (writeBytes_eq (h.bytes_of_space hx).2 0 _) ?_
        have hloaded := h.rewrite hx hu
        split
        · exact Wp.pure (hloaded _)
        · exact ih _ (hloaded _)
    · rw [walkaddr, if_pos (by omega)]
      exact Wp.throw trivial

theorem loadProgram_wp (n off : Nat) (h : Loaded s t root sz) :
    Wp (fun _ => True) (loadProgram root file n off sz) t fun r u => r.2 = true → Loaded s u root r.1 := by
  have hfail : ∀ sz' (u : Memory), Wp (fun _ => True) (pure (sz', false) : VmM (Nat × Bool)) u fun r u => r.2 = true → Loaded s u root r.1 :=
    fun _ _ => Wp.pure fun hok => (by cases hok)
  induction n generalizing t off sz with
  | zero => exact Wp.pure fun _ => h
  | succ n ih =>
    rw [loadProgram]
    split
    · exact hfail _ _
    split
    · exact ih _ h
    split
    · exact hfail _ _
    split
    · exact hfail _ _
    split
    · exact hfail _ _
    refine (uvmalloc_wp h).bind fun sz1 u hu => ?_
    split
    · exact hfail _ _
    · refine (loadsegLoop_wp _ _ (hu ‹_›).1).bind fun ok w hw => ?_
      cases ok with
      | false => exact hfail _ _
      | true => exact ih _ hw

/-! ### `proc_pagetable` -/

/-- The trampoline or the trapframe is mapped. -/
theorem Building.special_wp (h : Building s t root 0) (hv : v = VTRAMPOLINE ∨ v = VTRAPFRAME) (hu : (perm ||| PTE_V).u = false) (hq : q ∉ s.freelist)
    (hf : s.mem q = .bytes f) (hnew : ∀ w x, space t.mem root w = some x → x.1 ≠ q) :
    Wp (fun _ => True) (mappages root (v * PGSIZE) PGSIZE q perm) t fun ok u => ok = true → Building s u root 0 ∧
      space u.mem root = update (space t.mem root) v (some (q, perm ||| PTE_V, f)) := by
  have hforeign : Foreign t root q := ⟨fun hfree => hq (h.list q hfree), fun hpage => hq (h.tables q hpage), fun w e he => hnew w _ (space_of_leaf he)⟩
  refine (mappage_any_wp h.toProper hforeign ((h.kept q hq).trans hf)).mono fun ok u hok htrue => ?_
  obtain ⟨hproper, hgrown, -, hspace⟩ := hok htrue
  exact ⟨h.grow hproper hgrown (Nat.le_refl _) (new_of_update hspace (.inl ⟨hv, hu⟩)), hspace⟩

theorem kalloc_trampoline {r : Option Nat} (h : kalloc s = .ok (r, t)) : t.trampoline = s.trampoline := by
  unfold kalloc at h
  split at h
  · cases h
    rfl
  · split at h <;> cases h <;> rfl

/-- The pages of the trampoline and of the trapframe of a process: two pages that hold no page table and are not free. -/
structure Fixed (s : Memory) (p : Mm) : Prop where
  trampoline : s.trampoline ∉ s.freelist ∧ ∃ f, s.mem s.trampoline = .bytes f
  trapframe : p.trapframe ∉ s.freelist ∧ ∃ f, s.mem p.trapframe = .bytes f
  apart : s.trampoline ≠ p.trapframe

theorem procPagetable_wp (h : Proper s old) (hfixed : Fixed s p) :
    Wp (fun _ => True) (procPagetable p.trapframe) s fun r t => ∀ root, r = some root → Loaded s t root 0 := by
  have hfail : ∀ (m : VmM Unit) (t : Memory), Wp (fun _ => True) (m >>= fun _ => pure none) t fun (r : Option Nat) t => ∀ root, r = some root →
      Loaded s t root 0 := fun m t => (Wp.any m t).bind fun _ _ _ => Wp.pure fun root hr => (by cases hr)
  obtain ⟨htramp, f, hf⟩ := hfixed.trampoline
  obtain ⟨htf, f', hf'⟩ := hfixed.trapframe
  rw [procPagetable, uvmcreate, bind_assoc]
  rcases kalloc_cases s with ⟨t, hk, -⟩ | ⟨q, t, hk, hlist, hmem, hkend, hphys⟩
  · exact Wp.bind_eq hk (Wp.pure fun root hr => (by cases hr))
  have hnodup := h.nodup
  rw [hlist] at hnodup
  obtain ⟨hq, hnodup⟩ := nodup_cons.1 hnodup
  have hqmem : q ∈ s.freelist := hlist ▸ mem_cons_self
  have hsub : ∀ x ∈ t.freelist, x ∈ s.freelist := fun x hx => hlist ▸ mem_cons_of_mem q hx
  obtain ⟨hproper, hinner, hpages, hleaf⟩ := bare_table
    (show (t.setPage q (.table fun _ => .zero)).mem q = .table fun _ => .zero from update_self ..) hnodup hq fun x hx => by
      rw [Memory.setPage_kend, Memory.setPage_phystop, hkend, hphys]
      exact h.range x (hsub x hx)
  have hnone : ∀ w x, space (t.setPage q (.table fun _ => .zero)).mem q w ≠ some x := fun w x hx => by
    rw [space_eq_none.2 (hleaf w)] at hx
    cases hx
  have hbuild : Building s (t.setPage q (.table fun _ => .zero)) q 0 := by
    refine ⟨hproper, hinner, fun x hx => hpages x hx ▸ hqmem, fun w x hx => absurd hx (hnone w x), hsub, fun x hx => ?_, hkend, hphys⟩
    have hne : x ≠ q := fun heq => hx (heq ▸ hqmem)
    rw [Memory.setPage_mem, update_of_ne hne, hmem x hne]
  have htrampoline : (t.setPage q (.table fun _ => .zero)).trampoline = s.trampoline := by
    rw [Memory.setPage_trampoline, kalloc_trampoline hk]
  refine Wp.bind_eq hk (Wp.bind_eq (t := t.setPage q (.table fun _ => .zero)) rfl (Wp.bind_eq (t := t.setPage q (.table fun _ => .zero)) rfl ?_))
  rw [htrampoline, show TRAMPOLINE = VTRAMPOLINE * PGSIZE by decide, show TRAPFRAME = VTRAPFRAME * PGSIZE by decide]
  generalize t.setPage q (.table fun _ => .zero) = t' at hbuild hnone
  refine (hbuild.special_wp (.inl rfl) rfl htramp hf fun w x hx => absurd hx (hnone w x)).bind fun ok u hu => ?_
  cases ok with
  | false => exact hfail _ _
  | true =>
    obtain ⟨hbuild', hspace⟩ := hu rfl
    refine (hbuild'.special_wp (.inr rfl) rfl htf hf' fun w x hx => ?_).bind fun ok w hw => ?_
    · rcases new_of_update (P := fun _ x => x.1 = s.trampoline) hspace rfl w x hx with hx | hx
      · exact absurd hx (hnone w x)
      · rw [hx]
        exact hfixed.apart
    · cases ok with
      | false => exact (Wp.any _ _).bind fun _ _ _ => hfail _ _
      | true =>
        obtain ⟨hbuild'', hspace'⟩ := hw rfl
        refine Wp.pure fun root hr => ?_
        cases hr
        refine ⟨hbuild'', Nat.zero_le _, ?_⟩
        rw [hspace', update_self]
        exact Option.some_ne_none _

/-! ### `uvmclear` and the stack -/

/-- The flags of an entry change. -/
theorem Proper.reflag {perm' : Perm} (h : Proper t root) (hready : Ready u root) (hgrown : Grown t u root)
    (hx : space t.mem root v = some (q, perm, f))
    (hleaf : ∀ w, leaf u.mem root w = if w = v then some ⟨q, perm'⟩ else leaf t.mem root w) :
    Proper u root ∧ space u.mem root = update (space t.mem root) v (some (q, perm', f)) := by
  obtain ⟨he, hf⟩ := h.bytes_of_space hx
  have hmem : ∀ w e, leaf t.mem root w = some e → u.mem e.ppn = t.mem e.ppn := fun w e hw => hgrown.mem _ (h.used w e hw) (h.not_table hw)
  refine ⟨h.of_leaves (v := v) hready hgrown fun w e hw => .inl ?_, funext fun w => ?_⟩
  · rw [hleaf] at hw
    split at hw
    · rename_i hwv
      cases hw
      exact ⟨⟨q, perm⟩, hwv ▸ he, rfl⟩
    · exact ⟨e, hw, rfl⟩
  · rw [update_apply]
    split_ifs with hwv
    · rw [hwv, space_of_leaf ((hleaf v).trans (if_pos rfl)), show u.mem q = .bytes f from (hmem v _ he).trans hf]
      rfl
    · exact space_congr ((hleaf w).trans (if_neg hwv)) (hmem w)

theorem Loaded.uvmclear (h : Loaded s t root sz) (hv : v < pages sz) (hx : space t.mem root v = some (q, perm, f)) (hvalid : perm.v = true) :
    ∃ u, Vm.uvmclear root (v * PGSIZE) t = .ok ((), u) ∧ Loaded s u root sz ∧
      space u.mem root = update (space t.mem root) v (some (q, { perm with u := false }, f)) := by
  have hlt : v < VTRAPFRAME := hv.trans_le (pages_le h.size)
  have hva : v * PGSIZE < MAXVA := ((Nat.mul_lt_mul_right (by decide)).2 hlt).trans (by decide)
  have hq : q ∈ s.freelist := by
    rcases h.low v _ hx with ⟨rfl | rfl, -⟩ | ⟨-, hq⟩
    · exact absurd hlt (by decide)
    · exact absurd hlt (by decide)
    · exact hq
  obtain ⟨p, g, hwalk, hl, hg, -, hentry⟩ := walk_mapped h.wf hva ((page_div v).symm ▸ hx)
  rw [page_div v] at hwalk hl hentry
  obtain ⟨hready, hgrown, -, hleaf⟩ := h.write (e := ⟨q, { perm with u := false }⟩) (vpages_of_lt hva) hl hg rfl
  obtain ⟨hproper, hspace⟩ := h.reflag hready hgrown.toGrown hx fun w => (hleaf w).trans (by rw [if_pos hvalid])
  refine ⟨_, ?_, ⟨h.toBuilding.grow hproper hgrown.toGrown (Nat.le_refl _) (new_of_update hspace (.inr ⟨hv, hq⟩)), h.size, ?_⟩, hspace⟩
  · rw [Vm.uvmclear, run_bind hwalk]
    refine (run_bind (readPte_eq hg _)).trans ?_
    rw [hentry]
    exact writePte_eq hg _ _
  · rw [hspace, update_of_ne (Nat.ne_of_gt hlt)]
    exact h.trapframe

/-- The flags of the guard page. -/
def guardPerm : Perm := ⟨true, true, true, false, false⟩

/-- The program is loaded, and its memory ends with a guard page, which is not for the user, and the stack page. -/
structure Staged (s t : Memory) (root sz g : Nat) : Prop extends Loaded s t root sz where
  stop : sz = (g + 2) * PGSIZE
  guard : ∃ q, space t.mem root g = some (q, guardPerm, fun _ => 0)
  stack : ∃ q, space t.mem root (g + 1) = some (q, dataPerm, fun _ => 0)

theorem execStack_wp (h : Proper s old) (hfixed : Fixed s p) :
    Wp (fun _ => True) (execStack p file) s fun r t => ∀ root sz, r = some (root, sz) → ∃ g, Staged s t root sz g := by
  have hfail : ∀ t, Wp (fun _ => True) (pure none : VmM (Option (Nat × Nat))) t fun r t => ∀ root sz, r = some (root, sz) → ∃ g, Staged s t root sz g :=
    fun _ => Wp.pure fun root sz hr => (by cases hr)
  rw [execStack]
  split
  · exact hfail _
  split
  · exact hfail _
  refine (procPagetable_wp h hfixed).bind fun r t ht => ?_
  cases r with
  | none => exact hfail _
  | some root =>
    refine (loadProgram_wp _ _ (ht root rfl)).bind ?_
    rintro ⟨sz, ok⟩ u hu
    dsimp only
    split
    · exact (Wp.any _ _).bind fun _ _ _ => hfail _
    have hloaded : Loaded s u root sz := hu (Bool.eq_true_of_not_eq_false ‹_›)
    rw [pgroundup_eq hloaded.size]
    refine (uvmalloc_wp hloaded.round).bind fun r w hw => ?_
    by_cases hr : r = 0
    · rw [if_pos hr]
      exact (Wp.any _ _).bind fun _ _ _ => hfail _
    rw [if_neg hr]
    have hloaded' := (hw hr).1
    have hnew := (hw hr).2
    have hsz : pages sz * PGSIZE + (USERSTACK + 1) * PGSIZE = (pages sz + 2) * PGSIZE := by
      rw [USERSTACK, ← Nat.add_mul]
    have hle : pages sz * PGSIZE ≤ pages sz * PGSIZE + (USERSTACK + 1) * PGSIZE := Nat.le_add_right _ _
    rw [hsz] at hle hnew
    have hpages := (hnew hle).2
    rw [(hnew hle).1] at hloaded' ⊢
    have hguard : (pages sz + 2) * PGSIZE - (USERSTACK + 1) * PGSIZE = pages sz * PGSIZE := by rw [← hsz, Nat.add_sub_cancel]
    rw [hguard]
    rw [pages_mul, pages_mul] at hpages
    obtain ⟨q, hq⟩ := hpages (pages sz) (Nat.le_refl _) (by omega)
    obtain ⟨q', hq'⟩ := hpages (pages sz + 1) (by omega) (by omega)
    obtain ⟨x, hrun, hloaded'', hspace⟩ := hloaded'.uvmclear (by rw [pages_mul]; omega) hq rfl
    refine Wp.bind_eq hrun (Wp.pure fun root' sz' hr => ?_)
    cases hr
    refine ⟨pages sz, hloaded'', rfl, ⟨q, ?_⟩, q', ?_⟩
    · rw [hspace, update_self]
      rfl
    · rw [hspace, update_of_ne (by omega)]
      exact hq'

end steps

end Xv6.Vm
