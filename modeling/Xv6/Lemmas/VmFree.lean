import Xv6.VmProc
import Xv6.Lemmas.VmProper
import Mathlib.Data.List.Nodup

/-!
# Freeing a page table

`proc_freepagetable` on the page table of a process: it comes to its end, and changes no page but those of the page table and those that
it maps.
-/

namespace Xv6.Vm

open Lib Function List

/-- The number of pages that a size takes. -/
def pages (sz : Nat) : Nat := (sz + PGSIZE - 1) / PGSIZE

/-- The page table of a process with memory of this size: there are pages below the size, and beyond it at most the trampoline and the
trapframe. Its own pages and those below the size are pages that `kfree` takes. -/
structure Whole (s : Memory) (root sz : Nat) : Prop extends Proper s root where
  inner : Inner s.mem root
  inside : ∀ q ∈ tablePages s.mem root, s.kend ≤ q ∧ q < s.phystop
  low : ∀ v e, leaf s.mem root v = some e → v = VTRAMPOLINE ∨ v = VTRAPFRAME ∨ v < pages sz ∧ s.kend ≤ e.ppn ∧ e.ppn < s.phystop
  size : sz ≤ TRAPFRAME

/-- The interior pages from the one at `l` down. -/
def below (m : Nat → Page) (root : Nat) (l : List (Fin 512)) : Set Nat :=
  {x | ∃ l', (l ++ l').length < 3 ∧ follow (edge m) root (l ++ l') = some x}

section freewalk

variable {m : Nat → Page} {root p : Nat} {l : List (Fin 512)} {i j : Fin 512} {x : Nat}

/-- Every path to an entry of the last level is that of a virtual page. -/
theorem exists_path (a b c : Fin 512) : ∃ v < VPAGES, path v = [a, b, c] := by
  refine ⟨(a.val * 512 + b.val) * 512 + c.val, ?_, ?_⟩
  · simp only [VPAGES]
    omega
  · simp only [path, ix, cons.injEq, Fin.ext_iff, and_true]
    omega

/-- Where nothing is mapped, no path goes beyond the tables. -/
theorem follow_short (h : ∀ v, leaf m root v = none) (hl : l.length = 3) : follow (edge m) root l = none := by
  obtain ⟨a, b, c, rfl⟩ := length_eq_three.1 hl
  obtain ⟨v, hv, hpath⟩ := exists_path a b c
  have hnone := h v
  rw [leaf, if_pos hv] at hnone
  rw [← hpath, show path v = [ix 2 v, ix 1 v] ++ [ix 0 v] from rfl, follow.snoc]
  cases hp : follow (edge m) root [ix 2 v, ix 1 v] with
  | none => rfl
  | some p =>
    rw [hp, Option.bind_some] at hnone
    rw [Option.bind_some, edge, hnone]
    rfl

theorem below_snoc (h : x ∈ below m root (l ++ [i])) : x ∈ below m root l := by
  obtain ⟨l', hl', hx⟩ := h
  rw [append_assoc] at hl' hx
  exact ⟨_, hl', hx⟩

/-- A table is not below itself. -/
theorem not_below (h : Wellformed m root) (hl : l.length < 3) (hp : follow (edge m) root l = some p) : p ∉ below m root (l ++ [i]) := by
  rintro ⟨l', hl', hx⟩
  have := congrArg length (h.apart _ _ p hl hl' hp hx)
  simp only [length_append, length_singleton] at this
  omega

/-- Two entries of a table have different tables below them. -/
theorem below_apart (h : Wellformed m root) (hij : i ≠ j) (hi : x ∈ below m root (l ++ [i])) : x ∉ below m root (l ++ [j]) := by
  rintro ⟨l₂, hl₂, hx₂⟩
  obtain ⟨l₁, hl₁, hx₁⟩ := hi
  have heq := h.apart _ _ x hl₁ hl₂ hx₁ hx₂
  rw [append_assoc, append_assoc] at heq
  exact hij (cons.inj (append_cancel_left heq)).1

/-- `freewalk` frees the table at a path and the ones below it. -/
theorem freewalk_wp (h : Wellformed m root) (hinner : Inner m root) (hnone : ∀ v, leaf m root v = none) : ∀ (d : Nat) {l : List (Fin 512)} {p : Nat}
    {s : Memory}, follow (edge m) root l = some p → l.length + d = 3 → (∀ x ∈ below m root l, s.mem x = m x ∧ s.kend ≤ x ∧ x < s.phystop) →
    Wp (fun _ => False) (freewalk d p) s fun _ t => (∀ x, x ∉ below m root l → t.mem x = s.mem x) ∧ t.kend = s.kend ∧ t.phystop = s.phystop
  | 0, l, p, s, hp, hl, _ => by
    rw [follow_short hnone (by omega)] at hp
    cases hp
  | d + 1, l, p, s, hp, hl, hs => by
    have hself : p ∈ below m root l := ⟨[], by rw [append_nil]; omega, by rw [append_nil]; exact hp⟩
    obtain ⟨f, hf⟩ := h.tables l p (by omega) hp
    -- the entries still to come are as they were, and so is all below them
    have hloop : ∀ (is : List (Fin 512)) {t : Memory} {g : Fin 512 → Pte}, is.Nodup → t.mem p = .table g → (∀ i ∈ is, g i = f i) →
        (∀ i ∈ is, ∀ x ∈ below m root (l ++ [i]), t.mem x = m x) → (∀ x ∈ below m root l, t.kend ≤ x ∧ x < t.phystop) →
        Wp (fun _ => False) (is.forM (freeEntry (freewalk d) p)) t fun _ u =>
          (∀ x, x ∉ below m root l → u.mem x = t.mem x) ∧ u.kend = t.kend ∧ u.phystop = t.phystop := by
      intro is
      induction is with
      | nil => exact fun _ _ _ _ _ => Wp.pure ⟨fun _ _ => rfl, rfl, rfl⟩
      | cons i is ih =>
        intro t g hnodup hg hgf ht hrange
        obtain ⟨hi, hnodup'⟩ := nodup_cons.1 hnodup
        rw [forM_eq_forM, forM_cons, freeEntry, bind_assoc]
        refine Wp.bind_eq (readPte_eq hg i) ?_
        rw [hgf i mem_cons_self]
        by_cases hvalid : (f i).flags.v = true
        · have hentry : entry m p i = some (f i) := by rw [entry_table hf, if_pos hvalid]
          have hchild : follow (edge m) root (l ++ [i]) = some (f i).ppn := by
            rw [follow.snoc, hp, Option.bind_some, edge, hentry]
            rfl
          have hlen : l.length < 2 := by
            by_contra hge
            rw [follow_short hnone (by rw [length_append, length_singleton]; omega)] at hchild
            cases hchild
          rw [hinner l p i _ hlen hp hentry, if_pos (show (PTE_V.v && !(PTE_V.r || PTE_V.w || PTE_V.x)) = true from rfl), bind_assoc]
          refine (freewalk_wp h hinner hnone d hchild (by rw [length_append, length_singleton]; omega)
            fun x hx => ⟨ht i mem_cons_self x hx, hrange x (below_snoc hx)⟩).bind ?_
          rintro _ u ⟨hu, hukend, huphys⟩
          have hug : u.mem p = .table g := (hu p (not_below h (by omega) hp)).trans hg
          refine Wp.bind_eq (writePte_eq hug i _) ?_
          have hother : ∀ x, x ≠ p → (u.setPage p (.table (update g i .zero))).mem x = u.mem x := fun x hx => by
            rw [Memory.setPage_mem, update_of_ne hx]
          refine (ih hnodup' (t := u.setPage p (.table (update g i .zero))) (update_self ..) (fun j hj => ?_) (fun j hj x hx => ?_)
            fun x hx => ?_).mono ?_
          · have hji : j ≠ i := fun heq => hi (heq ▸ hj)
            rw [update_of_ne hji]
            exact hgf j (mem_cons_of_mem i hj)
          · have hxp : x ≠ p := fun heq => not_below h (by omega) hp (heq ▸ hx)
            have hij : i ≠ j := fun heq => hi (heq ▸ hj)
            rw [hother x hxp, hu x fun hx' => below_apart h hij hx' hx]
            exact ht j (mem_cons_of_mem i hj) x hx
          · rw [show (u.setPage p (.table (update g i .zero))).kend = t.kend from hukend,
              show (u.setPage p (.table (update g i .zero))).phystop = t.phystop from huphys]
            exact hrange x hx
          · rintro _ w ⟨hw, hwkend, hwphys⟩
            refine ⟨fun x hx => ?_, hwkend.trans hukend, hwphys.trans huphys⟩
            have hxp : x ≠ p := fun heq => hx (heq ▸ hself)
            rw [hw x hx, hother x hxp, hu x fun hx' => hx (below_snoc hx')]
        · rw [Bool.eq_false_iff.2 hvalid, Bool.false_and, if_neg Bool.false_ne_true, if_neg Bool.false_ne_true]
          exact ih hnodup' hg (fun j hj => hgf j (mem_cons_of_mem i hj)) (fun j hj => ht j (mem_cons_of_mem i hj)) hrange
    have hnodup : indices.Nodup := by
      unfold indices
      exact nodup_finRange 512
    rw [freewalk]
    refine (hloop indices hnodup ((hs p hself).1.trans hf) (fun _ _ => rfl) (fun i _ x hx => (hs x (below_snoc hx)).1)
      fun x hx => (hs x hx).2).bind ?_
    rintro _ t ⟨ht, htkend, htphys⟩
    obtain ⟨-, hkend, hphys⟩ := hs p hself
    have hrun : kfree p t = .ok ((), (t.setPage p (.bytes fun _ => 1)).setFreelist (p :: t.freelist)) := by rw [kfree, if_neg (by omega)]
    refine Wp.of_eq hrun ⟨fun x hx => ?_, htkend, htphys⟩
    have hxp : x ≠ p := fun heq => hx (heq ▸ hself)
    rw [Memory.setFreelist_mem, Memory.setPage_mem, update_of_ne hxp]
    exact ht x hx

end freewalk

/-! ### `proc_freepagetable` -/

section freepagetable

variable {s t : Memory} {root sz : Nat}

theorem pgroundup_eq (h : sz ≤ TRAPFRAME) : pgroundup sz = pages sz * PGSIZE := by
  simp only [pgroundup, pages, TRAPFRAME, TRAMPOLINE, MAXVA, PGSIZE] at *
  omega

theorem pages_le (h : sz ≤ TRAPFRAME) : pages sz ≤ VTRAPFRAME := by
  simp only [pages, VTRAPFRAME, TRAPFRAME, TRAMPOLINE, MAXVA, PGSIZE] at *
  omega

/-- What can be freed still can when less is mapped, and nothing has been freed. -/
theorem Freeable.unmapped {v n : Nat} (h : Freeable s root v n) (ht : Unmapped s t root) (hlist : t.freelist = s.freelist) : Freeable t root v n := by
  refine ⟨fun w e hw hw' he => ?_, fun w w' e e' hw hw1 hw' hw1' he he' => h.once w w' e e' hw hw1 hw' hw1' (ht.leaves w e he) (ht.leaves w' e' he')⟩
  rw [ht.kend, ht.phystop, ht.pages, hlist]
  exact h.page w e hw hw' (ht.leaves w e he)

theorem Whole.freeable (h : Whole s root sz) : Freeable s root 0 (pages sz) := by
  have hle := pages_le h.size
  have htop : VTRAPFRAME < VTRAMPOLINE := by decide
  refine ⟨fun w e _ hw he => ?_, fun w w' e e' _ _ _ _ he he' => h.once w w' e e' he he'⟩
  rcases h.low w e he with rfl | rfl | ⟨-, hkend, hphys⟩
  · omega
  · omega
  · exact ⟨hkend, hphys, h.not_table he, h.used w e he⟩

/-- The page table of a process can be freed, and pages of others stay as they are. -/
theorem procFreepagetable_wp (h : Whole s root sz) :
    Wp (fun _ => False) (procFreepagetable root sz) s fun _ t =>
      ∀ x, x ∉ tablePages s.mem root → (∀ v e, leaf s.mem root v = some e → e.ppn ≠ x) → t.mem x = s.mem x := by
  have hle := pages_le h.size
  have hone : ∀ v, v * PGSIZE < MAXVA → ∀ {s : Memory}, Ready s root → Wp (fun _ => False) (uvmunmap root (v * PGSIZE) 1 false) s fun _ t =>
      Ready t root ∧ (∀ w, leaf t.mem root w = if v ≤ w ∧ w < v + 1 then none else leaf s.mem root w) ∧ Unmapped s t root ∧ t.freelist = s.freelist := by
    intro v hv s hready
    rw [uvmunmap, if_neg (by rw [Nat.mul_mod_left]; exact fun h => h rfl)]
    refine (uvmunmapLoop_map_wp 1 hready (fun w hw => ?_) fun hd => (by cases hd)).mono fun _ t ht => ⟨ht.1, ht.2.1, ht.2.2.1, ht.2.2.2.1 rfl⟩
    exact (Nat.mul_le_mul_right PGSIZE (Nat.le_of_lt_succ hw)).trans_lt hv
  rw [procFreepagetable, show TRAMPOLINE = VTRAMPOLINE * PGSIZE by decide, show TRAPFRAME = VTRAPFRAME * PGSIZE by decide]
  refine (hone VTRAMPOLINE (by decide) h.toReady).bind ?_
  rintro _ t ⟨hready, hleaf, hless, hlist⟩
  refine (hone VTRAPFRAME (by decide) hready).bind ?_
  rintro _ u ⟨hready', hleaf', hless', hlist'⟩
  have hless := hless.trans hless'
  have hfreeable := h.freeable.unmapped hless (hlist'.trans hlist)
  have hrest : ∀ v e, leaf u.mem root v = some e → v < pages sz := fun v e he => by
    rw [hleaf', hleaf] at he
    split at he
    · cases he
    · split at he
      · cases he
      · rcases h.low v e he with rfl | rfl | ⟨hv, -⟩
        · omega
        · omega
        · exact hv
  have hwalk : ∀ w, Ready w root → Unmapped s w root → (∀ v, leaf w.mem root v = none) → Wp (fun _ => False) (freewalk 3 root) w fun _ t =>
      ∀ x, x ∉ tablePages s.mem root → (∀ v e, leaf s.mem root v = some e → e.ppn ≠ x) → t.mem x = s.mem x := by
    intro w hready hless hnone
    refine (freewalk_wp hready.wf (hless.inner h.inner) hnone 3 (l := []) rfl rfl fun x hx => ⟨rfl, ?_⟩).mono ?_
    · rw [hless.kend, hless.phystop]
      exact h.inside x (hless.pages ▸ hx)
    · rintro _ x ⟨hx, -, -⟩ q hq hq'
      exact (hx q (fun hmem => hq (hless.pages ▸ hmem))).trans (hless.mem q hq hq')
  rw [uvmfree]
  split
  · rw [pgroundup_eq h.size, Nat.mul_div_cancel _ (by decide), uvmunmap, if_neg (by decide), ← Nat.zero_mul PGSIZE]
    refine (uvmunmapLoop_map_wp (pages sz) hready' (fun w hw => ?_) fun _ => hfreeable).bind ?_
    · simp only [VTRAPFRAME, TRAPFRAME, TRAMPOLINE, MAXVA, PGSIZE] at *
      omega
    · rintro _ w ⟨hready'', hleaf'', hless'', -⟩
      refine hwalk w hready'' (hless.trans hless'') fun v => ?_
      rw [hleaf'']
      split
      · rfl
      · refine Option.eq_none_iff_forall_not_mem.2 fun e he => ?_
        have := hrest v e he
        omega
  · refine hwalk u hready' hless fun v => Option.eq_none_iff_forall_not_mem.2 fun e he => ?_
    have := hrest v e he
    simp only [pages, PGSIZE] at this
    omega

end freepagetable

end Xv6.Vm
