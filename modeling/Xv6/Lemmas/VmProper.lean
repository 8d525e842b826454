import Xv6.Lemmas.VmPageMap

/-!
# Address spaces

A page table that maps pages of bytes, each of them once and none of them free. Lookups read what it shows (`space`); a fresh page is
mapped in at a virtual page where there is none, and `vmfault` does so on demand. Pages that are neither free nor used by the page table
are not touched.
-/

namespace Xv6.Vm

open Lib Function List

/-- The flags of memory that a process has asked for. -/
def dataPerm : Perm := ⟨true, true, true, false, true⟩

/-- Bytes written at place `i` of a page. -/
def overwrite (f : Nat → Byte) (i : Nat) (src : List Byte) : Nat → Byte :=
  fun j => if i ≤ j ∧ j < i + src.length then src.getD (j - i) 0 else f j

/-- The page table maps pages of bytes, each of them once and none of them free. -/
structure Proper (s : Memory) (root : Nat) : Prop extends Ready s root where
  range : ∀ q ∈ s.freelist, s.kend ≤ q ∧ q < s.phystop
  bytes : ∀ v e, leaf s.mem root v = some e → ∃ f, s.mem e.ppn = .bytes f
  used : ∀ v e, leaf s.mem root v = some e → e.ppn ∉ s.freelist
  once : ∀ v v' e e', leaf s.mem root v = some e → leaf s.mem root v' = some e' → e.ppn = e'.ppn → v = v'

/-- A page that is neither free nor a page of the page table nor mapped by it. -/
structure Foreign (s : Memory) (root q : Nat) : Prop where
  free : q ∉ s.freelist
  page : q ∉ tablePages s.mem root
  leaf : ∀ v e, Vm.leaf s.mem root v = some e → e.ppn ≠ q

/-- Foreign pages stay as they are. -/
def Spared (s t : Memory) (root : Nat) : Prop := ∀ q, Foreign s root q → t.mem q = s.mem q ∧ Foreign t root q

/-- A page that is free, or in the page table. -/
def Stock (s : Memory) (root q : Nat) : Prop := q ∈ s.freelist ∨ q ∈ tablePages s.mem root

/-- The page table maps what it mapped, and no page is lost. -/
structure Back (s t : Memory) (root : Nat) : Prop extends Proper t root where
  view : space t.mem root = space s.mem root
  spared : Spared s t root
  kend : t.kend = s.kend
  phystop : t.phystop = s.phystop
  stock : ∀ q, Stock s root q → Stock t root q

section lookups

variable {s : Memory} {root va : Nat} {f : Nat → Byte} {q : Nat}

theorem pgrounddown_div (va : Nat) : pgrounddown va / PGSIZE = va / PGSIZE := Nat.mul_div_cancel _ (by decide)

section

variable (h : Wellformed s.mem root)

include h

/-- The entry that a walk finds, if it gets to the last level. -/
theorem walk_cases (hva : va < MAXVA) :
    walk root va false s = .ok (none, s) ∧ leaf s.mem root (va / PGSIZE) = none ∨
      ∃ p f, walk root va false s = .ok (some (p, ix 0 (va / PGSIZE)), s) ∧
        follow (edge s.mem) root [ix 2 (va / PGSIZE), ix 1 (va / PGSIZE)] = some p ∧ s.mem p = .table f ∧
        leaf s.mem root (va / PGSIZE) = if (f (ix 0 (va / PGSIZE))).flags.v then some (f (ix 0 (va / PGSIZE))) else none := by
  have hv : va / PGSIZE < VPAGES := by
    simp only [MAXVA, PGSIZE, VPAGES] at *
    omega
  have hrun : walk root va false s =
      .ok ((follow (edge s.mem) root [ix 2 (va / PGSIZE), ix 1 (va / PGSIZE)]).map fun q => (q, ix 0 (va / PGSIZE)), s) := by
    rw [walk, if_neg (by omega)]
    exact walkFrom_eq va 2 root fun l q hq hl => h.tables l q (by omega) hq
  cases hl : follow (edge s.mem) root [ix 2 (va / PGSIZE), ix 1 (va / PGSIZE)] with
  | none =>
    rw [hl] at hrun
    refine .inl ⟨hrun, ?_⟩
    rw [leaf, if_pos hv, hl]
    rfl
  | some p =>
    rw [hl] at hrun
    obtain ⟨f, hf⟩ := h.tables _ p (Wellformed.depth_lt _) hl
    refine .inr ⟨p, f, hrun, rfl, hf, ?_⟩
    rw [leaf_of_node hv hl, entry_table hf]

theorem walkaddr_eq (hva : va < MAXVA) :
    walkaddr root va s = .ok (((space s.mem root (va / PGSIZE)).filter fun x => x.2.1.u).map Prod.fst, s) := by
  rw [walkaddr, if_neg (by omega)]
  rcases walk_cases h hva with ⟨hwalk, hnone⟩ | ⟨p, f, hwalk, -, hf, hleaf⟩
  · rw [run_bind hwalk, space_eq_none.2 hnone]
    rfl
  · rw [run_bind hwalk]
    refine (run_bind (readPte_eq hf _)).trans ?_
    split at hleaf
    · rename_i hvalid
      rw [space_of_leaf hleaf, Option.filter_some, hvalid]
      cases (f (ix 0 (va / PGSIZE))).flags.u <;> rfl
    · rename_i hvalid
      rw [space_eq_none.2 hleaf, Bool.eq_false_iff.2 hvalid]
      rfl

theorem ismapped_eq (hva : va < MAXVA) : ismapped root va s = .ok ((space s.mem root (va / PGSIZE)).isSome, s) := by
  rw [ismapped]
  rcases walk_cases h hva with ⟨hwalk, hnone⟩ | ⟨p, f, hwalk, -, hf, hleaf⟩
  · rw [run_bind hwalk, space_eq_none.2 hnone]
    rfl
  · rw [run_bind hwalk]
    refine (run_bind (readPte_eq hf _)).trans ?_
    split at hleaf
    · rename_i hvalid
      rw [space_of_leaf hleaf, hvalid]
      rfl
    · rename_i hvalid
      rw [space_eq_none.2 hleaf, Bool.eq_false_iff.2 hvalid]
      rfl

/-- The entry of a virtual page that is mapped. -/
theorem walk_mapped {x : Perm × (Nat → Byte)} (hva : va < MAXVA)
    (hx : space s.mem root (va / PGSIZE) = some (q, x)) :
    ∃ p f, walk root va false s = .ok (some (p, ix 0 (va / PGSIZE)), s) ∧
      follow (edge s.mem) root [ix 2 (va / PGSIZE), ix 1 (va / PGSIZE)] = some p ∧ s.mem p = .table f ∧
      leaf s.mem root (va / PGSIZE) = some ⟨q, x.1⟩ ∧ f (ix 0 (va / PGSIZE)) = ⟨q, x.1⟩ := by
  obtain ⟨⟨q', flags⟩, he, heq⟩ := Option.map_eq_some_iff.1 hx
  cases heq
  rcases walk_cases h hva with ⟨-, hnone⟩ | ⟨p, f, hwalk, hl, hf, hleaf⟩
  · rw [hnone] at he
    cases he
  · refine ⟨p, f, hwalk, hl, hf, he, ?_⟩
    rw [he] at hleaf
    split at hleaf
    · exact (Option.some.inj hleaf).symm
    · cases hleaf

end

theorem readBytes_eq (h : s.mem q = .bytes f) (i n : Nat) :
    readBytes q i n s = .ok ((range n).map fun j => f (i + j), s) := by
  rw [readBytes, run_bind (readPage_eq h)]
  rfl

theorem writeBytes_eq (h : s.mem q = .bytes f) (i : Nat) (src : List Byte) :
    writeBytes q i src s = .ok ((), s.setPage q (.bytes (overwrite f i src))) := by
  rw [writeBytes, run_bind (readPage_eq h)]
  rfl

end lookups

/-! ### Address spaces that change -/

/-- A page table with no entry maps nothing. -/
theorem bare_table {s : Memory} {root : Nat} (hroot : s.mem root = .table fun _ => .zero) (hnodup : s.freelist.Nodup) (hfree : root ∉ s.freelist)
    (hrange : ∀ q ∈ s.freelist, s.kend ≤ q ∧ q < s.phystop) :
    Proper s root ∧ Inner s.mem root ∧ (∀ q ∈ tablePages s.mem root, q = root) ∧ ∀ v, leaf s.mem root v = none := by
  have hbare : ∀ i, entry s.mem root i = none := fun i => by
    rw [entry_table hroot]
    rfl
  have hedge : ∀ i, edge s.mem root i = none := fun i => by
    rw [edge, hbare]
    rfl
  have hfollow : ∀ l q, follow (edge s.mem) root l = some q → l = [] ∧ q = root := fun l q hq => by
    cases l with
    | nil => exact ⟨rfl, (Option.some.inj hq).symm⟩
    | cons i l =>
      rw [follow.cons, hedge] at hq
      cases hq
  have hleaf : ∀ v, leaf s.mem root v = none := fun v => by
    rw [leaf, follow.cons, hedge]
    split <;> rfl
  have hno : ∀ v e, leaf s.mem root v ≠ some e := fun v e he => by
    rw [hleaf] at he
    cases he
  refine ⟨⟨⟨⟨fun l q _ hq => ?_, fun l l' q _ _ hq hq' => ?_⟩, hnodup, ?_⟩, hrange, fun v e he => absurd he (hno v e), fun v e he => absurd he (hno v e),
    fun v v' e e' he => absurd he (hno v e)⟩, fun l q i e _ hq he => ?_, ?_, hleaf⟩
  · exact ⟨_, (hfollow l q hq).2 ▸ hroot⟩
  · rw [(hfollow l q hq).1, (hfollow l' q hq').1]
  · rintro q hq ⟨l, -, hl⟩
    exact hfree ((hfollow l q hl).2 ▸ hq)
  · rw [(hfollow l q hq).2, hbare] at he
    cases he
  · rintro q ⟨l, -, hl⟩
    exact (hfollow l q hl).2

section proper

variable {allowed : Panic → Prop} {s t u : Memory} {root q v : Nat} {f : Nat → Byte} {perm : Perm}

theorem Spared.refl (s : Memory) (root : Nat) : Spared s s root := fun _ h => ⟨rfl, h⟩

theorem Spared.trans (h : Spared s t root) (h' : Spared t u root) : Spared s u root := fun q hq => by
  obtain ⟨hmem, hq⟩ := h q hq
  obtain ⟨hmem', hq⟩ := h' q hq
  exact ⟨hmem'.trans hmem, hq⟩

section

variable (h : Proper s root)

include h

/-- A page that is mapped holds bytes, so it is not a table. -/
theorem Proper.not_table {e : Pte} (he : leaf s.mem root v = some e) : e.ppn ∉ tablePages s.mem root := by
  rintro ⟨l, hl, hp⟩
  obtain ⟨f, hf⟩ := h.wf.tables l e.ppn hl hp
  obtain ⟨g, hg⟩ := h.bytes v e he
  rw [hf] at hg
  cases hg

theorem Proper.bytes_of_space (hx : space s.mem root v = some (q, perm, f)) :
    leaf s.mem root v = some ⟨q, perm⟩ ∧ s.mem q = .bytes f := by
  obtain ⟨⟨q', flags⟩, he, heq⟩ := Option.map_eq_some_iff.1 hx
  cases heq
  obtain ⟨f, hf⟩ := h.bytes v _ he
  refine ⟨he, ?_⟩
  rw [hf]
  rfl

/-- The page table may get more interior pages, and what it maps may get other flags, or be a page of bytes that no one had. -/
theorem Proper.of_leaves (hready : Ready t root) (hgrown : Grown s t root)
    (hleaf : ∀ w e, leaf t.mem root w = some e →
      (∃ e', leaf s.mem root w = some e' ∧ e'.ppn = e.ppn) ∨ w = v ∧ Foreign s root e.ppn ∧ ∃ f, s.mem e.ppn = .bytes f) : Proper t root := by
  refine ⟨hready, fun x hx => ?_, fun w e he => ?_, fun w e he hx => ?_, fun w w' e e' he he' heq => ?_⟩
  · rw [hgrown.kend, hgrown.phystop]
    exact h.range x (hgrown.list.subset hx)
  · rcases hleaf w e he with ⟨a, ha, hea⟩ | ⟨-, hforeign, f, hf⟩
    · rw [← hea, hgrown.mem _ (h.used w a ha) (h.not_table ha)]
      exact h.bytes w a ha
    · exact ⟨f, (hgrown.mem _ hforeign.free hforeign.page).trans hf⟩
  · rcases hleaf w e he with ⟨a, ha, hea⟩ | ⟨-, hforeign, -⟩
    · exact h.used w a ha (hgrown.list.subset (hea ▸ hx))
    · exact hforeign.free (hgrown.list.subset hx)
  · rcases hleaf w e he with ⟨a, ha, hea⟩ | ⟨hw, hforeign, -⟩
    · rcases hleaf w' e' he' with ⟨b, hb, heb⟩ | ⟨-, hforeign', -⟩
      · exact h.once w w' a b ha hb (hea.trans (heq.trans heb.symm))
      · exact absurd (hea.trans heq) (hforeign'.leaf w a ha)
    · rcases hleaf w' e' he' with ⟨b, hb, heb⟩ | ⟨hw', -, -⟩
      · exact absurd (heb.trans heq.symm) (hforeign.leaf w' b hb)
      · rw [hw, hw']

/-- The page table may get more interior pages, if it maps what it did before. -/
theorem Proper.grown (hready : Ready t root) (hgrown : Grown s t root) (hleaf : ∀ v, leaf t.mem root v = leaf s.mem root v) :
    Proper t root ∧ space t.mem root = space s.mem root ∧ Spared s t root := by
  have hmem : ∀ v e, leaf s.mem root v = some e → t.mem e.ppn = s.mem e.ppn := fun v e he => hgrown.mem _ (h.used v e he) (h.not_table he)
  refine ⟨h.of_leaves (v := 0) hready hgrown fun w e he => .inl ⟨e, (hleaf w).symm.trans he, rfl⟩, ?_, fun q hq => ?_⟩
  · exact funext fun v => space_congr (hleaf v) (hmem v)
  · obtain ⟨hfree, hpage⟩ := hgrown.outside hq.free hq.page
    refine ⟨hgrown.mem q hq.free hq.page, hfree, hpage, fun v e he => ?_⟩
    rw [hleaf] at he
    exact hq.leaf v e he

/-- `kalloc`: nothing, or a page that no one has. -/
theorem Proper.kalloc :
    (∃ t, Vm.kalloc s = .ok (none, t) ∧ t.nomem = true ∧ Back s t root) ∨
      ∃ q t, Vm.kalloc s = .ok (some q, t) ∧ s.freelist = q :: t.freelist ∧ s.kend ≤ q ∧ q < s.phystop ∧ ∀ page, Proper (t.setPage q page) root ∧
        space (t.setPage q page).mem root = space s.mem root ∧ Spared s (t.setPage q page) root ∧ Foreign (t.setPage q page) root q ∧
        Grown s (t.setPage q page) root := by
  rcases kalloc_cases s with ⟨t, hk, hmem, hlist, hkend, hphys, hnomem⟩ | ⟨q, t, hk, hlist, hmem, hkend, hphys⟩
  · have hready : Ready t root := ⟨hmem ▸ h.wf, hlist ▸ h.nodup, by rw [hlist, hmem]; exact h.free⟩
    have hgrown : Grown s t root :=
      ⟨by rw [hlist], fun q hq => .inl (hmem ▸ hq), fun q hq => hmem ▸ hq, fun q _ _ => by rw [hmem], fun hs => hmem ▸ hs, hkend, hphys⟩
    obtain ⟨hproper, hview, hspared⟩ := h.grown hready hgrown fun v => by rw [hmem]
    exact .inl ⟨t, hk, hnomem, hproper, hview, hspared, hkend, hphys, fun q hq => by rwa [Stock, hlist, hmem]⟩
  · have hqmem : q ∈ s.freelist := hlist ▸ mem_cons_self
    obtain ⟨hkend', hphys'⟩ := h.range q hqmem
    have hnodup := h.nodup
    rw [hlist] at hnodup
    obtain ⟨hqrest, hrest⟩ := nodup_cons.1 hnodup
    refine .inr ⟨q, t, hk, hlist, hkend', hphys', fun page => ?_⟩
    have hother : ∀ x, x ≠ q → (t.setPage q page).mem x = s.mem x := fun x hx => by
      rw [Memory.setPage_mem, update_of_ne hx, hmem x hx]
    obtain ⟨hwf, -, hpages, hleaf⟩ := h.wf.congr fun x hx => hother x fun heq => h.free q hqmem (heq ▸ hx)
    have hgrown : Grown s (t.setPage q page) root :=
      ⟨by rw [hlist]; exact sublist_cons_self q _, fun x hx => .inl (hpages ▸ hx), fun x hx => hpages ▸ hx, fun x hx _ => hother x fun heq => hx (heq ▸ hqmem),
        fun hs => Wellformed.inner_congr hs fun x hx => hother x fun heq => h.free q hqmem (heq ▸ Wellformed.upper_mono hx), hkend, hphys⟩
    have hready : Ready (t.setPage q page) root := ⟨hwf, hrest, fun x hx => by
      rw [hpages]
      exact h.free x (hlist ▸ mem_cons_of_mem q hx)⟩
    obtain ⟨hproper, hview, hspared⟩ := h.grown hready hgrown hleaf
    refine ⟨hproper, hview, hspared, ⟨hqrest, ?_, fun v e he heq => ?_⟩, hgrown⟩
    · rw [hpages]
      exact h.free q hqmem
    · rw [hleaf] at he
      exact h.used v e he (heq ▸ hqmem)

/-- `kfree` of a page that no one else has. -/
theorem Proper.kfree (hq : Foreign s root q) (hkend : s.kend ≤ q) (hphys : q < s.phystop) :
    ∃ t, Vm.kfree q s = .ok ((), t) ∧ t.nomem = s.nomem ∧ Proper t root ∧ space t.mem root = space s.mem root ∧
      (∀ x, x ≠ q → Foreign s root x → t.mem x = s.mem x ∧ Foreign t root x) ∧ t.kend = s.kend ∧ t.phystop = s.phystop ∧
      ∀ x, x = q ∨ Stock s root x → Stock t root x := by
  obtain ⟨t, hrun, hready, hlist, hmem, hpages, hleaf, htkend, htphys, hnomem⟩ := h.toReady.kfree hkend hphys hq.page hq.free
  have hother : ∀ v e, leaf s.mem root v = some e → t.mem e.ppn = s.mem e.ppn := fun v e he => hmem _ (hq.leaf v e he)
  refine ⟨t, hrun, hnomem, ⟨hready, fun x hx => ?_, fun v e he => ?_, fun v e he hx => ?_, fun v v' e e' he he' => ?_⟩, ?_, fun x hxq hx => ?_, htkend, htphys, fun x hx => ?_⟩
  · rw [htkend, htphys]
    rw [hlist] at hx
    rcases mem_cons.1 hx with rfl | hx
    · exact ⟨hkend, hphys⟩
    · exact h.range x hx
  · rw [hleaf] at he
    rw [hother v e he]
    exact h.bytes v e he
  · rw [hleaf] at he
    rw [hlist] at hx
    rcases mem_cons.1 hx with hx | hx
    · exact hq.leaf v e he hx
    · exact h.used v e he hx
  · rw [hleaf] at he he'
    exact h.once v v' e e' he he'
  · exact funext fun v => space_congr (hleaf v) (hother v)
  · refine ⟨hmem x hxq, ?_, hpages ▸ hx.page, fun v e he => ?_⟩
    · rw [hlist]
      exact not_mem_cons_of_ne_of_not_mem hxq hx.free
    · rw [hleaf] at he
      exact hx.leaf v e he
  · rwa [Stock, hlist, hpages, mem_cons, or_assoc]

/-- The bytes of a page that is mapped change. -/
theorem Proper.rewrite (hx : space s.mem root v = some (q, perm, f)) (g : Nat → Byte) :
    Proper (s.setPage q (.bytes g)) root ∧ space (s.setPage q (.bytes g)).mem root = update (space s.mem root) v (some (q, perm, g)) ∧
      Spared s (s.setPage q (.bytes g)) root := by
  obtain ⟨he, -⟩ := h.bytes_of_space hx
  have hmem : ∀ x, x ≠ q → (s.setPage q (.bytes g)).mem x = s.mem x := fun x hx => by rw [Memory.setPage_mem, update_of_ne hx]
  have hself : (s.setPage q (.bytes g)).mem q = .bytes g := update_self ..
  have hnot : q ∉ tablePages s.mem root := h.not_table he
  obtain ⟨hwf, -, hpages, hleaf⟩ := h.wf.congr fun x hx => hmem x fun heq => hnot (heq ▸ hx)
  refine ⟨⟨⟨hwf, h.nodup, fun x hx => ?_⟩, h.range, fun v' e' he' => ?_, fun v' e' he' => ?_, fun v₁ v₂ e₁ e₂ he₁ he₂ => ?_⟩, ?_, fun x hx => ?_⟩
  · rw [hpages]
    exact h.free x hx
  · rw [hleaf] at he'
    by_cases heq : e'.ppn = q
    · exact ⟨g, heq ▸ hself⟩
    · rw [hmem _ heq]
      exact h.bytes v' e' he'
  · rw [hleaf] at he'
    exact h.used v' e' he'
  · rw [hleaf] at he₁ he₂
    exact h.once v₁ v₂ e₁ e₂ he₁ he₂
  · funext v'
    rw [update_apply]
    split_ifs with hv
    · subst hv
      rw [space_of_leaf ((hleaf v').trans he), hself]
      rfl
    · exact space_congr (hleaf v') fun e' he' => hmem _ fun heq => hv (h.once v' v e' _ he' he heq)
  · have hne : x ≠ q := fun heq => hx.leaf v _ he heq.symm
    refine ⟨hmem x hne, hx.free, hpages ▸ hx.page, fun v' e' he' => ?_⟩
    rw [hleaf] at he'
    exact hx.leaf v' e' he'

/-- A page of bytes that no one has is mapped where nothing is. -/
theorem Proper.mappage_wp (hq : Foreign s root q) (hf : s.mem q = .bytes f)
    (hv : v * PGSIZE < MAXVA) (hnone : leaf s.mem root v = none) :
    Wp allowed (mappages root (v * PGSIZE) PGSIZE q perm) s fun ok t => Proper t root ∧ Extended s t root ∧
      (∀ x, x ≠ q → Foreign s root x → t.mem x = s.mem x ∧ Foreign t root x) ∧
      (ok = true → space t.mem root = update (space s.mem root) v (some (q, perm ||| PTE_V, f))) ∧
      (ok = false → t.nomem = true ∧ space t.mem root = space s.mem root ∧ Foreign t root q) := by
  rw [mappages, if_neg (by rw [Nat.mul_mod_left]; exact fun h => h rfl), if_neg (by decide), if_neg (by decide)]
  refine (mappagesLoop_map_wp 0 h.toReady hv fun w hw hw' => ?_).mono ?_
  · rw [show w = v by omega]
    exact hnone
  rintro ok t ⟨⟨hready, hgrown⟩, k, hk, hleaf, hok, hfail⟩
  cases ok with
  | false =>
    obtain ⟨hk, hnomem⟩ := hfail rfl
    obtain ⟨hproper, hview, hspared⟩ := h.grown hready hgrown.toGrown fun w => by rw [hleaf, if_neg (by omega)]
    exact ⟨hproper, hgrown, fun x _ hx => hspared x hx, fun hok => (by cases hok), fun _ => ⟨hnomem, hview, (hspared q hq).2⟩⟩
  | true =>
    have hleaf' : ∀ w, leaf t.mem root w = if w = v then some ⟨q, perm ||| PTE_V⟩ else leaf s.mem root w := fun w => by
      rw [hleaf, hok rfl]
      by_cases hwv : w = v
      · rw [if_pos (by omega), if_pos hwv, hwv, Nat.sub_self, Nat.add_zero]
      · rw [if_neg (by omega), if_neg hwv]
    have hmem : ∀ w e, leaf s.mem root w = some e → t.mem e.ppn = s.mem e.ppn := fun w e he => hgrown.mem _ (h.used w e he) (h.not_table he)
    have hqmem : t.mem q = .bytes f := (hgrown.mem q hq.free hq.page).trans hf
    -- an entry is the new one, or one from before
    have hcase : ∀ w e, leaf t.mem root w = some e → w = v ∧ e.ppn = q ∨ w ≠ v ∧ leaf s.mem root w = some e := fun w e he => by
      rw [hleaf'] at he
      split at he
      · cases he
        exact .inl ⟨‹_›, rfl⟩
      · exact .inr ⟨‹_›, he⟩
    refine ⟨h.of_leaves (v := v) hready hgrown.toGrown fun w e he => ?_, hgrown, fun x hxq hx => ?_, fun _ => ?_, fun hok => by cases hok⟩
    · rcases hcase w e he with ⟨hw, heq⟩ | ⟨-, he⟩
      · exact .inr ⟨hw, heq ▸ hq, f, heq ▸ hf⟩
      · exact .inl ⟨e, he, rfl⟩
    · obtain ⟨hfree, hpage⟩ := hgrown.outside hx.free hx.page
      refine ⟨hgrown.mem x hx.free hx.page, hfree, hpage, fun w e he => ?_⟩
      rcases hcase w e he with ⟨-, heq⟩ | ⟨-, he⟩
      · exact fun hxq' => hxq (hxq'.symm.trans heq)
      · exact hx.leaf w e he
    · funext w
      rw [update_apply]
      split_ifs with hwv
      · rw [hwv, space_of_leaf ((hleaf' v).trans (if_pos rfl)), hqmem]
        rfl
      · exact space_congr ((hleaf' w).trans (if_neg hwv)) (hmem w)

/-- A page from `kalloc` is filled and mapped where nothing is; if that fails, it is freed again. -/
theorem Proper.newPage (hv : v * PGSIZE < MAXVA) (hnone : space s.mem root v = none) :
    (∃ t, Vm.kalloc s = .ok (none, t) ∧ t.nomem = true ∧ Back s t root) ∨
      ∃ q t, Vm.kalloc s = .ok (some q, t) ∧ s.kend ≤ q ∧ q < s.phystop ∧ (∀ x, Foreign s root x → t.mem x = s.mem x) ∧
        ∀ perm f, Wp allowed (mappages root (v * PGSIZE) PGSIZE q perm) (t.setPage q (.bytes f)) fun ok u =>
          (ok = true → Proper u root ∧ Spared s u root ∧ space u.mem root = update (space s.mem root) v (some (q, perm ||| PTE_V, f)) ∧
            u.kend = s.kend ∧ u.phystop = s.phystop ∧ ∀ x, x ≠ q → Stock s root x → Stock u root x) ∧
          (ok = false → ∃ w, Vm.kfree q u = .ok ((), w) ∧ w.nomem = true ∧ Back s w root) := by
  rcases h.kalloc with hfail | ⟨q, t, hk, hlist, hkend, hphys, hgot⟩
  · exact .inl hfail
  refine .inr ⟨q, t, hk, hkend, hphys, fun x hx => ?_, fun perm f => ?_⟩
  · have hsame := ((hgot (t.mem q)).2.2.1 x hx).1
    rwa [Memory.setPage_mem, update_eq_self] at hsame
  obtain ⟨hproper, hview, hspared, hq, hgrown⟩ := hgot (.bytes f)
  have hself : (t.setPage q (.bytes f)).mem q = .bytes f := update_self ..
  have hrest : (t.setPage q (.bytes f)).freelist = t.freelist := rfl
  generalize t.setPage q (.bytes f) = t' at hproper hview hspared hq hgrown hself hrest
  refine (hproper.mappage_wp hq hself hv (space_eq_none.1 (hview ▸ hnone))).mono ?_
  rintro ok u ⟨hproper', hext, hspared', hok, hfail⟩
  -- the page comes from the list, so it is not one of the foreign pages
  have hne : ∀ x, Foreign s root x → x ≠ q := fun x hx heq => hx.free (by rw [hlist, heq]; exact mem_cons_self)
  have hboth : Spared s u root := fun x hx => by
    obtain ⟨hmem, hx'⟩ := hspared x hx
    obtain ⟨hmem', hx''⟩ := hspared' x (hne x hx) hx'
    exact ⟨hmem'.trans hmem, hx''⟩
  have hstock : ∀ x, x ≠ q → Stock s root x → Stock u root x := by
    rintro x hxq (hx | hx)
    · rw [hlist] at hx
      exact hext.taken x (hrest ▸ (mem_cons.1 hx).resolve_left hxq)
    · exact .inr (hext.kept x (hgrown.kept x hx))
  have hukend : u.kend = s.kend := hext.kend.trans hgrown.kend
  have huphys : u.phystop = s.phystop := hext.phystop.trans hgrown.phystop
  refine ⟨fun ht => ⟨hproper', hboth, by rw [hok ht, hview], hukend, huphys, hstock⟩, fun hf => ?_⟩
  obtain ⟨hnomem, hview', hq'⟩ := hfail hf
  obtain ⟨w, hrun, hwnomem, hproper'', hview'', hspared'', hwkend, hwphys, hwstock⟩ := hproper'.kfree hq' (hukend ▸ hkend) (huphys ▸ hphys)
  refine ⟨w, hrun, hwnomem.trans hnomem, hproper'', by rw [hview'', hview', hview], fun x hx => ?_, hwkend.trans hukend, hwphys.trans huphys,
    fun x hx => hwstock x (or_iff_not_imp_left.2 fun hxq => hstock x hxq hx)⟩
  obtain ⟨hmem, hx'⟩ := hboth x hx
  obtain ⟨hmem', hx''⟩ := hspared'' x (hne x hx) hx'
  exact ⟨hmem'.trans hmem, hx''⟩

end

/-- `vmfault`: it does nothing, or memory has run out, or there is a cleared page. -/
theorem vmfault_wp {p : Mm} {va : Nat} (h : Proper s p.pagetable) (hsize : p.sz ≤ MAXVA) :
    Wp allowed (vmfault p p.pagetable va) s fun r t => Proper t p.pagetable ∧ Spared s t p.pagetable ∧
      (r = none ∧ t = s ∧ (p.sz ≤ va ∨ space s.mem p.pagetable (va / PGSIZE) ≠ none) ∨
        r = none ∧ t.nomem = true ∧ space t.mem p.pagetable = space s.mem p.pagetable ∨
        ∃ q, r = some q ∧ va < p.sz ∧ space s.mem p.pagetable (va / PGSIZE) = none ∧
          space t.mem p.pagetable = update (space s.mem p.pagetable) (va / PGSIZE) (some (q, dataPerm, fun _ => 0))) := by
  rw [vmfault]
  by_cases hva : p.sz ≤ va
  · rw [if_pos hva]
    exact Wp.pure ⟨h, .refl s _, .inl ⟨rfl, rfl, .inl hva⟩⟩
  · have hlt : va < p.sz := Nat.lt_of_not_le hva
    have hv : va / PGSIZE * PGSIZE < MAXVA := (Nat.div_mul_le_self ..).trans_lt (hlt.trans_le hsize)
    rw [if_neg hva]
    have hmapped := ismapped_eq h.wf (show pgrounddown va < MAXVA from hv)
    rw [pgrounddown_div] at hmapped
    refine Wp.bind_eq hmapped ?_
    cases hx : space s.mem p.pagetable (va / PGSIZE) with
    | some x => exact Wp.pure ⟨h, .refl s _, .inl ⟨rfl, rfl, .inr (Option.some_ne_none x)⟩⟩
    | none =>
      rw [Option.isSome_none, if_neg Bool.false_ne_true]
      rcases h.newPage hv hx with ⟨t, hk, hnomem, hback⟩ | ⟨q, t, hk, -, -, -, hmap⟩
      · exact Wp.bind_eq hk (Wp.pure ⟨hback.toProper, hback.spared, .inr (.inl ⟨rfl, hnomem, hback.view⟩)⟩)
      · refine Wp.bind_eq hk (Wp.bind_eq (t := t.setPage q (.bytes fun _ => 0)) rfl ((hmap _ _).bind ?_))
        rintro ok u ⟨hok, hfail⟩
        cases ok with
        | false =>
          obtain ⟨w, hrun, hnomem, hback⟩ := hfail rfl
          exact Wp.bind_eq hrun (Wp.pure ⟨hback.toProper, hback.spared, .inr (.inl ⟨rfl, hnomem, hback.view⟩)⟩)
        | true =>
          obtain ⟨hproper, hspared, hview, -⟩ := hok rfl
          exact Wp.pure ⟨hproper, hspared, .inr (.inr ⟨q, rfl, hlt, rfl, hview⟩)⟩

end proper

end Xv6.Vm
