import Xv6.Lemmas.VmFree

/-!
# `uvmcopy`

A fork gives the child pages of its own, with the flags and the bytes of the parent's, and from then on neither sees what the other writes.
-/

namespace Xv6.Vm

open Lib Function

/-- Two page tables that have no page in common but that of the trampoline. -/
structure Apart (s : Memory) (a b : Nat) : Prop where
  left : Proper s a
  right : Proper s b
  tables : ∀ q ∈ tablePages s.mem a, q ∉ tablePages s.mem b
  frames : ∀ v w e e', leaf s.mem a v = some e → leaf s.mem b w = some e' → e.ppn = e'.ppn → v = VTRAMPOLINE ∧ w = VTRAMPOLINE

/-- The pages of a page table, and those that it maps, are as they were. -/
def Untouched (s t : Memory) (root : Nat) : Prop :=
  ∀ q, q ∈ tablePages s.mem root ∨ (∃ v e, leaf s.mem root v = some e ∧ e.ppn = q) → t.mem q = s.mem q

/-- A write through the page table of a process to its memory, or a page fault of it. -/
def Writes (p : Mm) (s t : Memory) : Prop :=
  (∃ v q perm f g, v < pages p.sz ∧ space s.mem p.pagetable v = some (q, perm, f) ∧ t = s.setPage q (.bytes g)) ∨
    ∃ va r, vmfault p p.pagetable va s = .ok (r, t)

namespace ForkAux

variable {s t u : Memory} {a b q v w old new : Nat} {e : Pte} {n : Nat}

theorem apart_symm (h : Apart s a b) : Apart s b a :=
  ⟨h.right, h.left, fun q hq hq' => h.tables q hq' hq, fun v w e e' he he' heq => (h.frames w v e' e he' he heq.symm).symm⟩

theorem foreign_table (h : Apart s a b) (hq : q ∈ tablePages s.mem b) : Foreign s a q := by
  refine ⟨fun hfree => h.right.free q hfree hq, fun hq' => h.tables q hq' hq, fun v e he heq => ?_⟩
  obtain ⟨f, hf⟩ := h.left.bytes v e he
  obtain ⟨l, hl, hp⟩ := hq
  obtain ⟨g, hg⟩ := h.right.wf.tables l q hl hp
  rw [heq, hg] at hf
  cases hf

theorem foreign_leaf (h : Apart s a b) (he : leaf s.mem b w = some e) (hne : ∀ v e', leaf s.mem a v = some e' → e'.ppn ≠ e.ppn) :
    Foreign s a e.ppn :=
  ⟨h.right.used w e he, fun hq => (foreign_table (apart_symm h) hq).leaf w e he rfl, hne⟩

/-- One page table changes, and the other stays as it is. -/
theorem apart_change (h : Apart s a b) (hproper : Proper t a) (hspared : Spared s t a)
    (hstay : ∀ x, space s.mem a VTRAMPOLINE = some x → space t.mem a VTRAMPOLINE = some x) :
    Apart t a b ∧ Untouched s t b ∧ space t.mem b = space s.mem b := by
  -- a page that the other one maps is foreign, or it is the trampoline of both
  have hcases : ∀ w e, leaf s.mem b w = some e → Foreign s a e.ppn ∨
      w = VTRAMPOLINE ∧ t.mem e.ppn = s.mem e.ppn ∧ ∃ e', leaf t.mem a VTRAMPOLINE = some e' ∧ e'.ppn = e.ppn := by
    intro w e he
    by_cases hne : ∀ v e', leaf s.mem a v = some e' → e'.ppn ≠ e.ppn
    · exact .inl (foreign_leaf h he hne)
    · push Not at hne
      obtain ⟨v, e', he', heq⟩ := hne
      obtain ⟨rfl, rfl⟩ := h.frames v w e' e he' he heq
      obtain ⟨f, hf⟩ := h.left.bytes _ e' he'
      have hx : space s.mem a VTRAMPOLINE = some (e'.ppn, e'.flags, f) := by
        rw [space_of_leaf he', hf]
        rfl
      obtain ⟨ht, hf'⟩ := hproper.bytes_of_space (hstay _ hx)
      exact .inr ⟨rfl, by rw [← heq, hf, hf'], _, ht, heq⟩
  have hmem : Untouched s t b := by
    rintro q (hq | ⟨v, e, he, rfl⟩)
    · exact (hspared q (foreign_table h hq)).1
    · rcases hcases v e he with hforeign | ⟨-, hmem, -⟩
      · exact (hspared _ hforeign).1
      · exact hmem
  have hleafmem : ∀ v e, leaf s.mem b v = some e → t.mem e.ppn = s.mem e.ppn := fun v e he => hmem _ (.inr ⟨v, e, he, rfl⟩)
  obtain ⟨hwf, -, hpages, hleaves⟩ := h.right.wf.congr fun x hx => hmem x (.inl hx)
  have hforeign : ∀ q ∈ tablePages t.mem b, Foreign t a q := fun q hq => (hspared q (foreign_table h (hpages ▸ hq))).2
  refine ⟨⟨hproper, ⟨⟨hwf, hproper.nodup, fun q hq hq' => (hforeign q hq').free hq⟩, hproper.range, fun v e he => ?_, fun v e he hq => ?_,
    fun v v' e e' he he' => ?_⟩, fun q hq hq' => (hforeign q hq').page hq, fun v w e e' he he' heq => ?_⟩, hmem,
    funext fun v => space_congr (hleaves v) (hleafmem v)⟩
  · rw [hleaves] at he
    rw [hleafmem v e he]
    exact h.right.bytes v e he
  · rw [hleaves] at he
    rcases hcases v e he with hforeign | ⟨-, -, e', he', heq⟩
    · exact (hspared _ hforeign).2.free hq
    · exact hproper.used _ e' he' (heq ▸ hq)
  · rw [hleaves] at he he'
    exact h.right.once v v' e e' he he'
  · rw [hleaves] at he'
    rcases hcases w e' he' with hforeign | ⟨hw, -, e'', he'', heq'⟩
    · exact absurd heq ((hspared _ hforeign).2.leaf v e he)
    · exact ⟨hproper.once v _ e e'' he he'' (heq.trans heq'.symm), hw⟩

/-- A page at hand: free, or in the page table, or mapped below `v`. -/
def Mine (s : Memory) (root v q : Nat) : Prop := Stock s root q ∨ ∃ w x, w < v ∧ space s.mem root w = some x ∧ x.1 = q

/-- What can be seen of a copy of the virtual pages from `v` to `v + n`. -/
def Copied (old new v n : Nat) (s : Memory) (ok : Bool) (t : Memory) : Prop :=
  (ok = true → Apart t new old ∧ Untouched s t old ∧ (∀ w < v, space t.mem new w = space s.mem new w) ∧
    ∀ w, v ≤ w → w < v + n → (space t.mem new w).map Prod.snd = (space s.mem old w).map Prod.snd) ∧
  (ok = false → (∀ w < v + n, space t.mem new w = none) ∧ (∀ q, Mine s new v q → Stock t new q) ∧ t.nomem = true)

theorem or_valid {perm : Perm} (h : perm.v = true) : perm ||| PTE_V = perm := by
  obtain ⟨v, r, w, x, u⟩ := perm
  revert v r w x u
  decide

/-- The copy is given up, and its pages are freed. -/
theorem giveUp_wp (h : Back s u new) (hnomem : u.nomem = true) (hv : v + n ≤ VTRAPFRAME) (hnone : ∀ w, v ≤ w → w < v + n → space s.mem new w = none)
    (hin : ∀ w x, w < v → space s.mem new w = some x → s.kend ≤ x.1 ∧ x.1 < s.phystop) :
    Wp (fun _ => False) (do uvmunmap new 0 (v * PGSIZE / PGSIZE) true; pure false) u (Copied old new v n s) := by
  have hlow : ∀ w, w < 0 + v → w * PGSIZE < MAXVA := fun w hw => by
    simp only [VTRAPFRAME, TRAPFRAME, TRAMPOLINE, MAXVA, PGSIZE] at *
    omega
  have hfreeable : Freeable u new 0 v := by
    refine ⟨fun w e _ hw he => ?_, fun w w' e e' _ _ _ _ => h.once w w' e e'⟩
    obtain ⟨hkend, hphys⟩ := hin w _ (by omega) (h.view ▸ space_of_leaf he)
    exact ⟨h.kend ▸ hkend, h.phystop ▸ hphys, h.not_table he, h.used w e he⟩
  rw [page_div v, uvmunmap, if_neg (by decide)]
  refine (uvmunmapLoop_map_wp (v := 0) v h.toReady hlow fun _ => hfreeable).bind ?_
  rintro _ t ⟨-, hleaf, hless, -, hfreed⟩
  refine Wp.pure ⟨fun hok => (by cases hok), fun _ => ⟨fun w hw => space_eq_none.2 ?_, fun q hq => ?_, hless.nomem.trans hnomem⟩⟩
  · rw [hleaf]
    split
    · rfl
    · exact space_eq_none.1 (h.view ▸ hnone w (by omega) hw)
  · rw [Stock, hfreed rfl, hless.pages]
    rcases hq with hq | ⟨w, x, hw, hx, rfl⟩
    · exact (h.stock q hq).imp_left .inl
    · obtain ⟨e, he, rfl⟩ := Option.map_eq_some_iff.1 (h.view ▸ hx)
      exact .inl (.inr ⟨w, e, Nat.zero_le w, by omega, he, rfl⟩)

/-- Page `v` of the child is as it should be. -/
structure Next (old new v : Nat) (s u : Memory) : Prop where
  apart : Apart u new old
  untouched : Untouched s u old
  parent : space u.mem old = space s.mem old
  other : ∀ w, w ≠ v → space u.mem new w = space s.mem new w
  self : (space u.mem new v).map Prod.snd = (space s.mem old v).map Prod.snd
  range : ∀ x, space u.mem new v = some x → s.kend ≤ x.1 ∧ x.1 < s.phystop
  kend : u.kend = s.kend
  phystop : u.phystop = s.phystop
  mine : ∀ q, Mine s new v q → Mine u new (v + 1) q

/-- Where the parent has no page, the child needs none. -/
theorem Next.skip (h : Apart s new old) (hnone : space s.mem new v = none) (hleaf : leaf s.mem old v = none) : Next old new v s s where
  apart := h
  untouched _ _ := rfl
  parent := rfl
  other _ _ := rfl
  self := by rw [hnone, space_eq_none.2 hleaf]
  range x hx := by cases hnone.symm.trans hx
  kend := rfl
  phystop := rfl
  mine q := Or.imp_right fun ⟨w, x, hw, hx⟩ => ⟨w, x, by omega, hx⟩

theorem Next.copied {ok : Bool} (hn : Next old new v s u) (h : Apart s new old) (hc : Copied old new (v + 1) n u ok t) :
    Copied old new v (n + 1) s ok t := by
  refine ⟨fun ht => ?_, fun hf => ?_⟩
  · obtain ⟨hapart, huntouched, hkept, hcopied⟩ := hc.1 ht
    refine ⟨hapart, fun q hq => ?_, fun w hw => (hkept w (by omega)).trans (hn.other w (by omega)), fun w hw hw' => ?_⟩
    · obtain ⟨-, -, hpages, hleaf⟩ := h.right.wf.congr fun x hx => hn.untouched x (.inl hx)
      refine (huntouched q ?_).trans (hn.untouched q hq)
      rw [hpages]
      simp only [hleaf]
      exact hq
    · by_cases hwv : w = v
      · rw [hwv, hkept v (by omega), hn.self]
      · rw [hcopied w (by omega) (by omega), hn.parent]
  · obtain ⟨hempty, hfreed, hnomem⟩ := hc.2 hf
    exact ⟨fun w hw => hempty w (by omega), fun q hq => hfreed q (hn.mine q hq), hnomem⟩

/-- The child gets a page `q` with the flags and the bytes of the parent's. -/
theorem Next.page {g : Nat → Byte} (h : Apart s new old) (hv : v < VTRAPFRAME) (hold : (space s.mem old v).map Prod.snd = some (e.flags, g))
    (hrange : s.kend ≤ q ∧ q < s.phystop) (hproper : Proper u new) (hspared : Spared s u new)
    (hspace : space u.mem new = update (space s.mem new) v (some (q, e.flags, g))) (hkend : u.kend = s.kend)
    (hphys : u.phystop = s.phystop) (hstock : ∀ x, x ≠ q → Stock s new x → Stock u new x) : Next old new v s u := by
  have htop : VTRAPFRAME < VTRAMPOLINE := by decide
  have hother : ∀ w, w ≠ v → space u.mem new w = space s.mem new w := fun w hw => by rw [hspace, update_of_ne hw]
  have hself : space u.mem new v = some (q, e.flags, g) := by rw [hspace, update_self]
  obtain ⟨hapart, huntouched, hsame⟩ := apart_change h hproper hspared fun x hx => (hother _ (by omega)).trans hx
  refine ⟨hapart, huntouched, hsame, hother, by rw [hself, hold]; rfl, fun x hx => ?_, hkend, hphys, ?_⟩
  · cases hself.symm.trans hx
    exact hrange
  · rintro x (hx | ⟨w, y, hw, hy, hyx⟩)
    · by_cases hxq : x = q
      · exact .inr ⟨v, _, Nat.lt_succ_self v, hself, hxq.symm⟩
      · exact .inl (hstock x hxq hx)
    · exact .inr ⟨w, y, by omega, (hother w (by omega)).trans hy, hyx⟩

theorem uvmcopyLoop_wp (n : Nat) (h : Apart s new old) (hv : v + n ≤ VTRAPFRAME) (hnone : ∀ w, v ≤ w → w < v + n → space s.mem new w = none)
    (hin : ∀ w x, w < v → space s.mem new w = some x → s.kend ≤ x.1 ∧ x.1 < s.phystop) :
    Wp (fun _ => False) (uvmcopyLoop old new n (v * PGSIZE)) s (Copied old new v n s) := by
  induction n generalizing s v with
  | zero =>
    refine Wp.pure ⟨fun _ => ⟨h, fun _ _ => rfl, fun _ _ => rfl, fun w hw hw' => ?_⟩, fun hok => (by cases hok)⟩
    omega
  | succ n ih =>
    have hlow : v * PGSIZE < MAXVA := by
      simp only [VTRAPFRAME, TRAPFRAME, TRAMPOLINE, MAXVA, PGSIZE] at *
      omega
    have htop : VTRAPFRAME < VTRAMPOLINE := by decide
    have hvnone := hnone v (Nat.le_refl v) (by omega)
    have hrest : ∀ {u : Memory}, Next old new v s u → Wp (fun _ => False) (uvmcopyLoop old new n ((v + 1) * PGSIZE)) u (Copied old new v (n + 1) s) := by
      intro u hn
      refine (ih hn.apart (by omega) (fun w hw hw' => ?_) fun w x hw hx => ?_).mono fun ok t => hn.copied h
      · rw [hn.other w (by omega)]
        exact hnone w (by omega) (by omega)
      · rw [hn.kend, hn.phystop]
        by_cases hwv : w = v
        · exact hn.range x (hwv ▸ hx)
        · exact hin w x (by omega) (hn.other w hwv ▸ hx)
    have hwalks := walk_cases h.right.wf hlow
    rw [page_div v] at hwalks
    rw [uvmcopyLoop, page_succ]
    rcases hwalks with ⟨hwalk, hold⟩ | ⟨p, f, hwalk, -, hf, hleaf⟩
    · exact Wp.bind_eq hwalk (hrest (.skip h hvnone hold))
    refine Wp.bind_eq hwalk (Wp.bind_eq (readPte_eq hf _) ?_)
    generalize f (ix 0 v) = e at hleaf
    by_cases hvalid : e.flags.v = true
    · rw [if_pos hvalid] at hleaf ⊢
      obtain ⟨g, hg⟩ := h.right.bytes v e hleaf
      rcases h.left.newPage hlow hvnone with ⟨t, hk, hnomem, hback⟩ | ⟨q, t, hk, hkend, hphys, hmem, hmap⟩
      · exact Wp.bind_eq hk (giveUp_wp hback hnomem hv hnone hin)
      have hforeign : Foreign s new e.ppn := foreign_leaf h hleaf fun w e' he' heq => by
        have := (h.frames w v e' e he' hleaf heq).2
        omega
      refine Wp.bind_eq hk (Wp.bind_eq (readPage_eq ((hmem _ hforeign).trans hg)) (Wp.bind_eq (t := t.setPage q (.bytes g)) rfl ?_))
      refine (hmap e.flags g).bind ?_
      rintro ok u ⟨hok, hfail⟩
      cases ok with
      | true =>
        obtain ⟨hproper, hspared, hspace, hukend, huphys, hstock⟩ := hok rfl
        rw [or_valid hvalid] at hspace
        have hold : (space s.mem old v).map Prod.snd = some (e.flags, g) := by
          rw [space_of_leaf hleaf, hg]
          rfl
        exact hrest (.page h (by omega) hold ⟨hkend, hphys⟩ hproper hspared hspace hukend huphys hstock)
      | false =>
        obtain ⟨x, hrun, hnomem, hback⟩ := hfail rfl
        exact Wp.bind_eq hrun (giveUp_wp hback hnomem hv hnone hin)
    · rw [if_neg hvalid] at hleaf ⊢
      exact hrest (.skip h hvnone hleaf)

/-- What a process writes is not seen through the other page table. -/
theorem writes_apart {p : Mm} (h : Apart s p.pagetable b) (hsize : p.sz ≤ TRAPFRAME) (hw : Writes p s t) :
    Apart t p.pagetable b ∧ space t.mem b = space s.mem b := by
  have htop : VTRAPFRAME < VTRAMPOLINE := by decide
  have hle := pages_le hsize
  rcases hw with ⟨v, q, perm, f, g, hv, hx, rfl⟩ | ⟨va, r, hrun⟩
  · obtain ⟨hproper, hspace, hspared⟩ := h.left.rewrite hx g
    obtain ⟨hapart, -, hsame⟩ := apart_change h hproper hspared fun x hx => by rw [hspace, update_of_ne (by omega), hx]
    exact ⟨hapart, hsame⟩
  · have hwp : Wp (fun _ => False) (vmfault p p.pagetable va) s _ := vmfault_wp h.left (hsize.trans (by decide))
    obtain ⟨hproper, hspared, hcases⟩ := hwp.ok hrun
    obtain ⟨hapart, -, hsame⟩ := apart_change h hproper hspared fun x hx => by
      rcases hcases with ⟨-, rfl, -⟩ | ⟨-, -, hview⟩ | ⟨q, -, hlt, -, hview⟩
      · exact hx
      · rw [hview, hx]
      · have hne : VTRAMPOLINE ≠ va / PGSIZE := by
          simp only [VTRAMPOLINE, TRAPFRAME, TRAMPOLINE, MAXVA, PGSIZE] at *
          omega
        rw [hview, update_of_ne hne, hx]
    exact ⟨hapart, hsame⟩

end ForkAux

open ForkAux

/-- `uvmcopy` of a process `p` to a child `np` that has no memory yet, for every address space below the trapframe; `kalloc` may fail at any
point. If it succeeds, the child has a mapping exactly where the parent has one, with the same flags and bytes and in other pages, the
pages of the parent are as before, and in every run of later writes through the two page tables and of page faults, no step of the one
is seen through the other. If it fails, a `kalloc` has, nothing is mapped in the child, and all pages that were free are free again or
tables of the child. -/
theorem uvmcopy_copies {p np : Mm} {s : Memory} (h : Apart s np.pagetable p.pagetable) (hsize : p.sz ≤ TRAPFRAME)
    (hfresh : ∀ v < pages p.sz, space s.mem np.pagetable v = none) :
    ∃ ok t, uvmcopy p.pagetable np.pagetable p.sz s = .ok (ok, t) ∧
      (ok = true →
        (∀ v < pages p.sz, (space t.mem np.pagetable v).map Prod.snd = (space s.mem p.pagetable v).map Prod.snd ∧
          ∀ w x y, space t.mem np.pagetable v = some x → space t.mem p.pagetable w = some y → x.1 ≠ y.1) ∧
        Untouched s t p.pagetable ∧
        ∀ u w, Relation.ReflTransGen (fun s t => Writes p s t ∨ Writes (np.setSz p.sz) s t) t u →
          (Writes p u w → space w.mem np.pagetable = space u.mem np.pagetable) ∧
          (Writes (np.setSz p.sz) u w → space w.mem p.pagetable = space u.mem p.pagetable)) ∧
      (ok = false → t.nomem = true ∧ (∀ v < pages p.sz, space t.mem np.pagetable v = none) ∧
        ∀ q ∈ s.freelist, q ∈ t.freelist ∨ q ∈ tablePages t.mem np.pagetable) := by
  have hle := pages_le hsize
  have hwp := uvmcopyLoop_wp (v := 0) (pages p.sz) h (by omega) (fun w _ hw => hfresh w (by omega)) fun w x hw => absurd hw (Nat.not_lt_zero w)
  rw [Nat.zero_mul] at hwp
  obtain ⟨ok, t, hrun, hok, hfail⟩ := hwp.returns
  refine ⟨ok, t, hrun, fun ht => ?_, fun hf => ?_⟩
  · obtain ⟨hapart, huntouched, -, hcopied⟩ := hok ht
    refine ⟨fun v hv => ⟨hcopied v (Nat.zero_le v) (by omega), fun w x y hx hy heq => ?_⟩, huntouched, fun u w hu => ?_⟩
    · obtain ⟨e, he, rfl⟩ := Option.map_eq_some_iff.1 hx
      obtain ⟨e', he', rfl⟩ := Option.map_eq_some_iff.1 hy
      have hv' := (hapart.frames v w e e' he he' heq).1
      have htop : VTRAPFRAME < VTRAMPOLINE := by decide
      omega
    · have hu : Apart u np.pagetable p.pagetable := by
        induction hu with
        | refl => exact hapart
        | tail _ hstep ih =>
          rcases hstep with hw | hw
          · exact apart_symm (writes_apart (apart_symm ih) hsize hw).1
          · exact (writes_apart (p := np.setSz p.sz) ih hsize hw).1
      exact ⟨fun hw => (writes_apart (apart_symm hu) hsize hw).2, fun hw => (writes_apart (p := np.setSz p.sz) hu hsize hw).2⟩
  · obtain ⟨hempty, hfreed, hnomem⟩ := hfail hf
    exact ⟨hnomem, fun v hv => hempty v (by omega), fun q hq => hfreed q (.inl (.inl hq))⟩

/-- Pages 1 and 2 are empty page tables, and eleven pages are free. -/
def forkMemory : Memory :=
  ⟨fun q => if q = 1 ∨ q = 2 then .table fun _ => .zero else .bytes fun _ => 0, (List.range 11).map (· + 3), fun _ => false, 1, 14, 100, false⟩

/-- A parent that has touched the first of its two pages. -/
theorem uvmcopy_copies_touched : ∃ s t, (space s.mem 1 0).map Prod.snd = some (dataPerm, fun _ => 0) ∧
    uvmcopy 1 2 8192 s = .ok (true, t) ∧ (space t.mem 2 0).map Prod.snd = some (dataPerm, fun _ => 0) := by
  obtain ⟨hproper, -, hpages, hleaf⟩ := bare_table (show forkMemory.mem 1 = .table fun _ => .zero from rfl) (by decide) (by decide) (by decide)
  obtain ⟨hproper', -, hpages', hleaf'⟩ := bare_table (show forkMemory.mem 2 = .table fun _ => .zero from rfl) (by decide) (by decide) (by decide)
  have hapart : Apart forkMemory 1 2 := by
    refine ⟨hproper, hproper', fun q hq hq' => ?_, fun v w e e' he => ?_⟩
    · cases (hpages q hq).symm.trans (hpages' q hq')
    · rw [hleaf] at he
      cases he
  have hwp : Wp (fun _ => False) (vmfault ⟨8192, 1, 20⟩ 1 0) forkMemory _ := vmfault_wp (p := ⟨8192, 1, 20⟩) hproper (by decide)
  obtain ⟨r, s, hrun, -, -, hcases⟩ := hwp.returns
  have hgot : (vmfault ⟨8192, 1, 20⟩ 1 0 forkMemory).toOption.map (fun x => (x.1.isSome, (uvmcopy 1 2 8192 x.2).toOption.map Prod.fst)) =
      some (true, some true) := by decide +kernel
  rw [hrun] at hgot
  obtain ⟨hsome, hcopies⟩ := Prod.mk.inj (Option.some.inj hgot)
  obtain ⟨hapart', hsame⟩ := writes_apart (p := ⟨8192, 1, 20⟩) hapart (by decide) (.inr ⟨0, r, hrun⟩)
  have hview : (space s.mem 1 0).map Prod.snd = some (dataPerm, fun _ => 0) := by
    rcases hcases with ⟨rfl, -⟩ | ⟨rfl, -⟩ | ⟨q, -, -, -, hview⟩
    · cases hsome
    · cases hsome
    · rw [hview]
      rfl
  obtain ⟨ok, t, hcopy, hok, -⟩ := @uvmcopy_copies ⟨8192, 1, 20⟩ ⟨0, 2, 21⟩ s (apart_symm hapart') (by decide) fun v _ => by
    rw [hsame]
    exact space_eq_none.2 (hleaf' v)
  rw [hcopy] at hcopies
  obtain rfl : ok = true := Option.some.inj hcopies
  exact ⟨s, t, hview, hcopy, (((hok rfl).1 0 (by decide)).1).trans hview⟩

end Xv6.Vm
