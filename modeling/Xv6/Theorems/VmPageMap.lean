import Xv6.Theorems.VmCopies
import Mathlib.Data.Nat.Bitwise

/-!
# Page tables are finite maps

What `mappages` and `uvmunmap` do to the map from virtual pages to entries, for every page table whose interior pages are distinct; and
that the word of an entry says which page and which flags it has.
-/

namespace Xv6.Vm

open Lib

/-! ## Entries as words -/

/-- The flags as bits: `PTE_V` is bit 0, and `PTE_R`, `PTE_W`, `PTE_X` and `PTE_U` follow. -/
def Perm.bits (f : Perm) : Nat := f.v.toNat + 2 * f.r.toNat + 4 * f.w.toNat + 8 * f.x.toNat + 16 * f.u.toNat

/-- `((uint64)pa >> 12) << 10`. -/
def PA2PTE (pa : Nat) : Nat := (pa >>> 12) <<< 10 % 2 ^ 64

/-- `(pte >> 10) << 12`. -/
def PTE2PA (pte : Nat) : Nat := (pte >>> 10) <<< 12 % 2 ^ 64

/-- `pte & 0x3FF`. -/
def PTE_FLAGS (pte : Nat) : Nat := pte &&& 0x3FF

/-- The word of an entry. -/
def Pte.word (e : Pte) : Nat := PA2PTE (e.ppn * PGSIZE) ||| e.flags.bits

namespace PageMapAux

theorem bits_lt (f : Perm) : f.bits < 32 := by
  obtain ⟨v, r, w, x, u⟩ := f
  revert v r w x u
  decide

theorem word_eq {e : Pte} (h : e.ppn < 2 ^ 52) : e.word = e.ppn * 2 ^ 10 + e.flags.bits := by
  have hbits := bits_lt e.flags
  have hpa : PA2PTE (e.ppn * PGSIZE) = e.ppn <<< 10 := by
    rw [PA2PTE, Nat.shiftRight_eq_div_pow, show e.ppn * PGSIZE / 2 ^ 12 = e.ppn from Nat.mul_div_cancel _ (by decide), Nat.mod_eq_of_lt]
    rw [Nat.shiftLeft_eq]
    omega
  rw [Pte.word, hpa, ← Nat.shiftLeft_add_eq_or_of_lt (by omega), Nat.shiftLeft_eq]

/-- The page and the flags can be read off the word. -/
theorem word_spec {e : Pte} (h : e.ppn < 2 ^ 52) : PTE2PA e.word = e.ppn * PGSIZE ∧ PTE_FLAGS e.word = e.flags.bits := by
  have hbits := bits_lt e.flags
  rw [word_eq h]
  constructor
  · rw [PTE2PA, Nat.shiftRight_eq_div_pow, show (e.ppn * 2 ^ 10 + e.flags.bits) / 2 ^ 10 = e.ppn by omega, Nat.shiftLeft_eq, Nat.mod_eq_of_lt (by omega)]
    rfl
  · rw [PTE_FLAGS, show (0x3FF : Nat) = 2 ^ 10 - 1 from rfl, Nat.and_two_pow_sub_one_eq_mod]
    omega

end PageMapAux

/-! ## The map -/

namespace PageMapAux

variable {root : Nat} {s : Memory} {va n v : Nat}

theorem lt_MAXVA_of_range (hva : va % PGSIZE = 0) (hend : va + n * PGSIZE ≤ MAXVA) (hv : v < va / PGSIZE + n) : v * PGSIZE < MAXVA := by
  simp only [PGSIZE, MAXVA] at *
  omega

/-- `mappages` of a range that is not mapped. -/
theorem mappages_map (h : Ready s root) {size pa : Nat} {perm : Perm} (hva : va % PGSIZE = 0) (hsize : size % PGSIZE = 0) (hpos : 0 < size)
    (hend : va + size ≤ MAXVA) (hfree : ∀ v, va / PGSIZE ≤ v → v < va / PGSIZE + size / PGSIZE → pagemap s root v = none) :
    ∃ ok t k, mappages root va size pa perm s = .ok (ok, t) ∧ Ready t root ∧ k ≤ size / PGSIZE ∧ Mapped s t root (va / PGSIZE) k pa perm ∧
      (ok = true → k = size / PGSIZE) ∧ (ok = false → k < size / PGSIZE ∧ t.nomem = true) := by
  have hn : size / PGSIZE - 1 + 1 = size / PGSIZE := by
    simp only [PGSIZE] at *
    omega
  have hv : va / PGSIZE * PGSIZE = va := by
    simp only [PGSIZE] at *
    omega
  have hrange : ∀ v, v < va / PGSIZE + size / PGSIZE → v * PGSIZE < MAXVA := fun v =>
    lt_MAXVA_of_range hva (by simp only [PGSIZE] at *; omega)
  have hwp : Wp (fun _ => False) (mappagesLoop root perm (size / PGSIZE - 1) (va / PGSIZE * PGSIZE) pa) s _ :=
    mappagesLoop_map_wp (size / PGSIZE - 1) h (hrange _ (by omega)) fun w hw hw' => by
      rw [← pagemap_eq h.wf (hrange w (by omega))]
      exact hfree w hw (by omega)
  rw [hv, hn] at hwp
  obtain ⟨ok, t, hrun, ⟨hready, -⟩, k, hk, hleaf, hok, hfail⟩ := hwp.returns
  refine ⟨ok, t, k, ?_, hready, hk, ?_, hok, hfail⟩
  · rw [mappages, if_neg (by omega), if_neg (by omega), if_neg (by omega)]
    exact hrun
  · exact pagemap_of_leaf h.wf hready.wf (fun w hw => hrange w (by omega)) hleaf

theorem uvmunmap_map (h : Ready s root) {doFree : Bool} (hva : va % PGSIZE = 0) (hend : va + n * PGSIZE ≤ MAXVA)
    (hfreeable : doFree = true → Freeable s root (va / PGSIZE) n) :
    ∃ t, uvmunmap root va n doFree s = .ok ((), t) ∧ Ready t root ∧
      ∀ v, pagemap t root v = if va / PGSIZE ≤ v ∧ v < va / PGSIZE + n then none else pagemap s root v := by
  have hv : va / PGSIZE * PGSIZE = va := by
    simp only [PGSIZE] at *
    omega
  have hrange : ∀ v, v < va / PGSIZE + n → v * PGSIZE < MAXVA := fun v => lt_MAXVA_of_range hva hend
  have hwp : Wp (fun _ => False) (uvmunmapLoop root doFree n (va / PGSIZE * PGSIZE)) s _ := uvmunmapLoop_map_wp n h hrange hfreeable
  rw [hv] at hwp
  obtain ⟨_, t, hrun, hready, hleaf, -⟩ := hwp.returns
  refine ⟨t, ?_, hready, pagemap_of_leaf h.wf hready.wf (fun w hw => hrange w hw.2) hleaf⟩
  rw [uvmunmap, if_neg (by omega)]
  exact hrun

/-- Two virtual pages do not share an entry. -/
theorem walk_inj (h : Ready s root) {w : Nat} {pte : Nat × Fin 512} (hv : walk root (v * PGSIZE) false s = .ok (some pte, s))
    (hw : walk root (w * PGSIZE) false s = .ok (some pte, s)) : v = w := by
  have hlow : ∀ v, walk root (v * PGSIZE) false s = .ok (some pte, s) → v * PGSIZE < MAXVA ∧
      follow (edge s.mem) root [ix 2 v, ix 1 v] = some pte.1 ∧ ix 0 v = pte.2 := by
    intro v hv
    have hlt : v * PGSIZE < MAXVA := by
      by_contra hge
      rw [walk, if_pos (by omega)] at hv
      cases hv
    rw [walk_find h.wf hlt] at hv
    obtain ⟨p, hp, rfl⟩ := Option.map_eq_some_iff.1 (Prod.mk.inj (Except.ok.inj hv)).1
    exact ⟨hlt, hp, rfl⟩
  obtain ⟨hv, hvp, hvi⟩ := hlow v hv
  obtain ⟨hw, hwp, hwi⟩ := hlow w hw
  exact h.wf.entries_inj (vpages_of_lt hv) (vpages_of_lt hw) hvp hwp (hvi.trans hwi.symm)

end PageMapAux

open PageMapAux

/-- A page table whose interior pages are distinct, and none of them free, is a finite map. If `mappages` succeeds, the map has the pages of
the range, and otherwise what it had; if it fails, memory has run out, and the map has the first of those pages, fewer than all.
`uvmunmap` takes the pages of its range out of the map. In each case the page table stays well formed; so two virtual pages never share an
entry. The word of an entry is as good as the entry. -/
theorem pagetable_map {s : Memory} {root : Nat} (h : Ready s root) :
    (∀ va size pa perm, va % PGSIZE = 0 → size % PGSIZE = 0 → 0 < size → va + size ≤ MAXVA →
      (∀ v, va / PGSIZE ≤ v → v < va / PGSIZE + size / PGSIZE → pagemap s root v = none) →
      ∃ ok t k, mappages root va size pa perm s = .ok (ok, t) ∧ Ready t root ∧ k ≤ size / PGSIZE ∧ Mapped s t root (va / PGSIZE) k pa perm ∧
        (ok = true → k = size / PGSIZE) ∧ (ok = false → k < size / PGSIZE ∧ t.nomem = true)) ∧
    (∀ va n doFree, va % PGSIZE = 0 → va + n * PGSIZE ≤ MAXVA → (doFree = true → Freeable s root (va / PGSIZE) n) →
      ∃ t, uvmunmap root va n doFree s = .ok ((), t) ∧ Ready t root ∧
        ∀ v, pagemap t root v = if va / PGSIZE ≤ v ∧ v < va / PGSIZE + n then none else pagemap s root v) ∧
    (∀ v w pte, walk root (v * PGSIZE) false s = .ok (some pte, s) → walk root (w * PGSIZE) false s = .ok (some pte, s) → v = w) ∧
    ∀ e : Pte, e.ppn < 2 ^ 52 → PTE2PA e.word = e.ppn * PGSIZE ∧ PTE_FLAGS e.word = e.flags.bits :=
  ⟨fun _ _ _ _ hva hsize hpos hend hfree => mappages_map h hva hsize hpos hend hfree,
    fun _ _ _ hva hend hfreeable => uvmunmap_map h hva hend hfreeable, fun _ _ _ hv hw => walk_inj h hv hw, fun _ he => word_spec he⟩

/-- Two pages are mapped in an empty page table, across the end of a table of the last level. -/
theorem pagetable_map_two : Ready lazyMemory 1 ∧ ∃ t, mappages 1 (511 * PGSIZE) (2 * PGSIZE) 77 PTE_R lazyMemory = .ok (true, t) ∧
    pagemap t 1 511 = some ⟨77, PTE_R ||| PTE_V⟩ ∧ pagemap t 1 512 = some ⟨78, PTE_R ||| PTE_V⟩ ∧ pagemap t 1 510 = none := by
  have hready : Ready lazyMemory 1 := lazyMemory_current.toReady
  have hempty : ∀ v, pagemap lazyMemory 1 v = none := fun v => by
    by_cases hv : v * PGSIZE < MAXVA
    · rw [pagemap_eq hready.wf hv, lazyMemory_leaf]
    · exact pagemap_high hv
  obtain ⟨ok, t, k, hrun, -, -, hmapped, hok, -⟩ := (pagetable_map hready).1 (511 * PGSIZE) (2 * PGSIZE) 77 PTE_R (by decide) (by decide) (by decide)
    (by decide) fun v _ _ => hempty v
  have htrue : ok = true := by
    have hview : (mappages 1 (511 * PGSIZE) (2 * PGSIZE) 77 PTE_R lazyMemory).toOption.map Prod.fst = some true := by decide +kernel
    rw [hrun] at hview
    exact Option.some.inj hview
  subst htrue
  obtain rfl := hok rfl
  refine ⟨hready, t, hrun, ?_, ?_, ?_⟩
  · exact hmapped 511
  · exact hmapped 512
  · exact (hmapped 510).trans (hempty 510)

end Xv6.Vm
