import Xv6.Lemmas.VmTree

/-!
# Page tables as maps

A page table whose interior pages are distinct is a finite map from virtual pages to entries, whatever the entries of its last level point
to. `mappages` adds to the map and `uvmunmap` takes away from it; the tables that `walk` makes on the way are not seen in it.
-/

namespace Xv6.Vm

open Lib Function List

/-- The interior pages of a page table: the root and the tables below it. -/
def tablePages (m : Nat → Page) (root : Nat) : Set Nat := upper (edge m) root 3

/-- The interior pages are tables, and no two of them are the same. -/
structure Wellformed (m : Nat → Page) (root : Nat) : Prop where
  tables : ∀ l p, l.length < 3 → follow (edge m) root l = some p → ∃ f, m p = .table f
  apart : TreeTo (edge m) root 3

/-- A well-formed page table, none of whose interior pages is on the list that `kalloc` takes pages from. -/
structure Ready (s : Memory) (root : Nat) : Prop where
  wf : Wellformed s.mem root
  nodup : s.freelist.Nodup
  free : ∀ q ∈ s.freelist, q ∉ tablePages s.mem root

/-- The map that `walk(pt, va, 0)` gives: the entry of a virtual page, if it is valid. -/
def pagemap (s : Memory) (root v : Nat) : Option Pte :=
  match walk root (v * PGSIZE) false s with
  | .ok (some pte, _) => entry s.mem pte.1 pte.2
  | _ => none

/-- The map has `k` pages from `v` on, at consecutive pages from `pa` on, and otherwise what it had. -/
def Mapped (s t : Memory) (root v k pa : Nat) (perm : Perm) : Prop :=
  ∀ w, pagemap t root w = if v ≤ w ∧ w < v + k then some ⟨pa + (w - v), perm ||| PTE_V⟩ else pagemap s root w

/-- The pages that `uvmunmap` frees: `kfree` takes them, they are not free nor part of the page table, and none is freed twice. -/
structure Freeable (s : Memory) (root v n : Nat) : Prop where
  page : ∀ w e, v ≤ w → w < v + n → leaf s.mem root w = some e →
    s.kend ≤ e.ppn ∧ e.ppn < s.phystop ∧ e.ppn ∉ tablePages s.mem root ∧ e.ppn ∉ s.freelist
  once : ∀ w w' e e', v ≤ w → w < v + n → v ≤ w' → w' < v + n → leaf s.mem root w = some e → leaf s.mem root w' = some e' →
    e.ppn = e'.ppn → w = w'

/-- The entries above the last level have no flag but `PTE_V`. -/
def Inner (m : Nat → Page) (root : Nat) : Prop :=
  ∀ l p i e, l.length < 2 → follow (edge m) root l = some p → entry m p i = some e → e.flags = PTE_V

/-- The page table may have got more interior pages, from the list; no other page has changed. -/
structure Grown (s t : Memory) (root : Nat) : Prop where
  list : t.freelist.Sublist s.freelist
  pages : ∀ q ∈ tablePages t.mem root, q ∈ tablePages s.mem root ∨ q ∈ s.freelist
  kept : ∀ q ∈ tablePages s.mem root, q ∈ tablePages t.mem root
  mem : ∀ q, q ∉ s.freelist → q ∉ tablePages s.mem root → t.mem q = s.mem q
  inner : Inner s.mem root → Inner t.mem root
  kend : t.kend = s.kend
  phystop : t.phystop = s.phystop

/-- The pages that have left the list are interior pages. -/
structure Extended (s t : Memory) (root : Nat) : Prop extends Grown s t root where
  taken : ∀ q ∈ s.freelist, q ∈ t.freelist ∨ q ∈ tablePages t.mem root

/-- The page table maps less than before. No page has changed but those of the page table and those that it mapped, and these alone may
have been freed. -/
structure Unmapped (s t : Memory) (root : Nat) : Prop where
  leaves : ∀ v e, leaf t.mem root v = some e → leaf s.mem root v = some e
  pages : tablePages t.mem root = tablePages s.mem root
  mem : ∀ q, q ∉ tablePages s.mem root → (∀ v e, leaf s.mem root v = some e → e.ppn ≠ q) → t.mem q = s.mem q
  inner : Inner s.mem root → Inner t.mem root
  kend : t.kend = s.kend
  phystop : t.phystop = s.phystop
  nomem : t.nomem = s.nomem

theorem page_div (v : Nat) : v * PGSIZE / PGSIZE = v := Nat.mul_div_cancel v (by decide)

theorem page_succ (v : Nat) : v * PGSIZE + PGSIZE = (v + 1) * PGSIZE := by rw [Nat.add_mul, Nat.one_mul]

namespace Wellformed

variable {m m' : Nat → Page} {root p q v : Nat} {l : List (Fin 512)} {i : Fin 512} {f : Fin 512 → Pte} {x : Nat}

theorem depth_lt (v : Nat) : [ix 2 v, ix 1 v].length < 3 := Nat.lt_succ_self 2

theorem edge_congr (h : m' x = m x) : edge m' x = edge m x := by
  funext i
  rw [edge, edge, entry, entry, h]

/-- The first levels are among the interior pages. -/
theorem upper_mono (h : x ∈ upper (edge m) root 2) : x ∈ tablePages m root := by
  obtain ⟨l, hl, hx⟩ := h
  exact ⟨l, by omega, hx⟩

/-- What is the same in every interior page is the same page table. -/
theorem congr (h : Wellformed m root) (hm : ∀ x ∈ tablePages m root, m' x = m x) :
    Wellformed m' root ∧ (∀ l, l.length < 3 → follow (edge m') root l = follow (edge m) root l) ∧ tablePages m' root = tablePages m root ∧
      ∀ v, leaf m' root v = leaf m root v := by
  have hedge : ∀ x ∈ upper (edge m) root 2, edge m' x = edge m x := fun x hx => edge_congr (hm x (upper_mono hx))
  have hfollow : ∀ l, l.length < 3 → follow (edge m') root l = follow (edge m) root l := fun l hl => follow_congr_upper hedge l (by omega)
  refine ⟨⟨fun l p hl hp => ?_, h.apart.congr hedge⟩, hfollow, upper_congr hedge, fun v => ?_⟩
  · rw [hfollow l hl] at hp
    rw [hm p ⟨l, hl, hp⟩]
    exact h.tables l p hl hp
  · rw [leaf, leaf, hfollow _ (depth_lt v)]
    split
    · cases hp : follow (edge m) root [ix 2 v, ix 1 v] with
      | none => rfl
      | some p => rw [Option.bind_some, Option.bind_some, entry, entry, hm p ⟨_, depth_lt v, hp⟩]
    · rfl

/-- The entries of the first levels are in interior pages. -/
theorem inner_congr (h : Inner m root) (hm : ∀ x ∈ upper (edge m) root 2, m' x = m x) : Inner m' root := by
  intro l p i e hl hp he
  rw [follow_congr_upper (fun x hx => edge_congr (hm x hx)) l (by omega)] at hp
  rw [entry, hm p ⟨l, hl, hp⟩] at he
  exact h l p i e hl hp he

/-- An empty table is hung up at a free place of the first two levels. -/
theorem link (h : Wellformed m root) (hl : follow (edge m) root l = some p) (hlen : l.length < 2) (hf : m p = .table f)
    (hnone : (f i).flags.v = false) (hfresh : q ∉ tablePages m root) (hp : m' p = .table (update f i ⟨q, PTE_V⟩))
    (hq : m' q = .table fun _ => .zero) (hother : ∀ x, x ≠ p → x ≠ q → m' x = m x) :
    Wellformed m' root ∧ (∀ l' x, l'.length < 3 → (follow (edge m') root l' = some x ↔ x = q ∧ l' = l ++ [i] ∨ follow (edge m) root l' = some x)) ∧
      (Inner m root → Inner m' root) ∧ ∀ v, leaf m' root v = leaf m root v := by
  have hpmem : p ∈ tablePages m root := ⟨l, by omega, hl⟩
  have hsame : ∀ x ∈ tablePages m root, x ≠ p → m' x = m x := fun x hx hxp => hother x hxp fun heq => hfresh (heq ▸ hx)
  have hbare : ∀ j, entry m' q j = none := fun j => by
    rw [entry_table hq]
    rfl
  have hfree : edge m p i = none := by
    rw [edge, entry_table hf, hnone]
    rfl
  have hself : edge m' p i = some q := by
    rw [edge, entry_table hp, update_self]
    rfl
  have hkeep : ∀ j, j ≠ i → edge m' p j = edge m p j := fun j hj => by
    rw [edge, edge, entry_table hp, entry_table hf, update_of_ne hj]
  have hfollow : ∀ l' x, l'.length < 3 → (follow (edge m') root l' = some x ↔ x = q ∧ l' = l ++ [i] ∨ follow (edge m) root l' = some x) :=
    fun l' x hl' => h.apart.follow_attach hl (by omega) (fun y hy hyp => edge_congr (hsame y hy hyp)) hkeep hfree hself
      (fun j => by rw [edge, hbare]; rfl) l' (by omega) x
  refine ⟨⟨fun l' x hl' hx => ?_, h.apart.attach hfresh hfollow⟩, hfollow, fun hinner l' x j e hl' hx he => ?_, fun v => ?_⟩
  · rcases (hfollow l' x hl').1 hx with ⟨rfl, -⟩ | hx
    · exact ⟨_, hq⟩
    · by_cases hxp : x = p
      · exact ⟨_, hxp ▸ hp⟩
      · rw [hsame x ⟨l', hl', hx⟩ hxp]
        exact h.tables l' x hl' hx
  · rcases (hfollow l' x (by omega)).1 hx with ⟨rfl, -⟩ | hx
    · rw [hbare] at he
      cases he
    · refine (em (x = p ∧ j = i)).elim (fun hnew => ?_) fun hold => hinner l' x j e hl' hx ?_
      · rw [hnew.1, hnew.2, entry_table hp, update_self] at he
        cases he
        rfl
      · rw [← he]
        by_cases hxp : x = p
        · rw [hxp, entry_table hp, entry_table hf, update_of_ne fun hj => hold ⟨hxp, hj⟩]
        · rw [entry, entry, hsame x ⟨l', by omega, hx⟩ hxp]
  · rw [leaf, leaf]
    split
    · have hlt := depth_lt v
      cases hx : follow (edge m) root [ix 2 v, ix 1 v] with
      | some x =>
        rw [(hfollow _ x hlt).2 (.inr hx), Option.bind_some, Option.bind_some, entry, entry, hsame x ⟨_, hlt, hx⟩]
        -- a table of the last level is not one of the levels above
        rintro rfl
        have := congrArg length (h.apart l _ x (by omega) hlt hl hx)
        simp only [length_cons, length_nil] at this
        omega
      | none =>
        cases hx' : follow (edge m') root [ix 2 v, ix 1 v] with
        | none => rfl
        | some x =>
          rcases (hfollow _ x hlt).1 hx' with ⟨rfl, -⟩ | hx''
          · rw [Option.bind_some, hbare]
            rfl
          · rw [hx] at hx''
            cases hx''
    · rfl

/-- An entry of the last level is written. -/
theorem write (h : Wellformed m root) (hv : v < VPAGES) (hl : follow (edge m) root [ix 2 v, ix 1 v] = some p) (hf : m p = .table f) {e : Pte}
    (hp : m' p = .table (update f (ix 0 v) e)) (hother : ∀ x ∈ tablePages m root, x ≠ p → m' x = m x) :
    Wellformed m' root ∧ tablePages m' root = tablePages m root ∧ (Inner m root → Inner m' root) ∧
      ∀ w, leaf m' root w = if w = v then if e.flags.v then some e else none else leaf m root w := by
  have hlt := depth_lt v
  -- its entries are not used by the paths to interior pages
  have hdeep : p ∉ upper (edge m) root 2 := by
    rintro ⟨l, hlen, hl'⟩
    have := congrArg length (h.apart l _ p (by omega) hlt hl' hl)
    simp only [length_cons, length_nil] at this
    omega
  have hupper : ∀ x ∈ upper (edge m) root 2, m' x = m x := fun x hx => hother x (upper_mono hx) fun heq => hdeep (heq ▸ hx)
  have hedge : ∀ x ∈ upper (edge m) root 2, edge m' x = edge m x := fun x hx => edge_congr (hupper x hx)
  have hfollow : ∀ l, l.length < 3 → follow (edge m') root l = follow (edge m) root l := fun l hl => follow_congr_upper hedge l (by omega)
  refine ⟨⟨fun l x hl' hx => ?_, h.apart.congr hedge⟩, upper_congr hedge, fun hinner => inner_congr hinner hupper, fun w => ?_⟩
  · rw [hfollow l hl'] at hx
    by_cases hxp : x = p
    · exact ⟨_, hxp ▸ hp⟩
    · rw [hother x ⟨l, hl', hx⟩ hxp]
      exact h.tables l x hl' hx
  · by_cases hwv : w = v
    · subst hwv
      rw [if_pos rfl, leaf, if_pos hv, hfollow _ hlt, hl, Option.bind_some, entry_table hp, update_self]
    · rw [if_neg hwv, leaf, leaf, hfollow _ (depth_lt w)]
      split
      · rename_i hw
        cases hx : follow (edge m) root [ix 2 w, ix 1 w] with
        | none => rfl
        | some x =>
          rw [Option.bind_some, Option.bind_some]
          by_cases hxp : x = p
          · subst hxp
            have hpath := h.apart _ _ x (depth_lt w) hlt hx hl
            have hne : ix 0 w ≠ ix 0 v := fun heq => by
              refine hwv (path_inj hw hv ?_)
              obtain ⟨h2, h1⟩ := cons.inj hpath
              rw [path, path, h2, (cons.inj h1).1, heq]
            rw [entry_table hp, entry_table hf, update_of_ne hne]
          · rw [entry, entry, hother x ⟨_, depth_lt w, hx⟩ hxp]
      · rfl

/-- Two virtual pages have different entries. -/
theorem entries_inj {w : Nat} (h : Wellformed m root) (hv : v < VPAGES) (hw : w < VPAGES) (hvp : follow (edge m) root [ix 2 v, ix 1 v] = some p)
    (hwp : follow (edge m) root [ix 2 w, ix 1 w] = some p) (hix : ix 0 v = ix 0 w) : v = w := by
  have hpath : [ix 2 v, ix 1 v] = [ix 2 w, ix 1 w] := h.apart _ _ p (depth_lt v) (depth_lt w) hvp hwp
  obtain ⟨h2, h1⟩ := cons.inj hpath
  refine path_inj hv hw ?_
  rw [path, path, h2, (cons.inj h1).1, hix]

end Wellformed

/-! ### Lookups -/

section lookups

variable {s t : Memory} {root v : Nat}

/-- A walk that allocates nothing. -/
theorem walk_find (h : Wellformed s.mem root) (hv : v * PGSIZE < MAXVA) :
    walk root (v * PGSIZE) false s = .ok ((follow (edge s.mem) root [ix 2 v, ix 1 v]).map fun p => (p, ix 0 v), s) := by
  have hwalk := walkFrom_eq (v * PGSIZE) 2 root fun l q hq hlen => h.tables l q (by omega) hq
  rw [page_div v] at hwalk
  rw [walk, if_neg (by omega), hwalk]
  rfl

theorem pagemap_eq (h : Wellformed s.mem root) (hv : v * PGSIZE < MAXVA) : pagemap s root v = leaf s.mem root v := by
  rw [pagemap, walk_find h hv, leaf, if_pos (vpages_of_lt hv)]
  cases follow (edge s.mem) root [ix 2 v, ix 1 v] <;> rfl

theorem pagemap_high (hv : ¬v * PGSIZE < MAXVA) : pagemap s root v = none := by
  rw [pagemap, walk, if_pos (by omega)]
  rfl

/-- What is said of all entries below `MAXVA` can be said of the map. -/
theorem pagemap_of_leaf (h : Wellformed s.mem root) (h' : Wellformed t.mem root) {P : Nat → Prop} [DecidablePred P] {x : Nat → Option Pte}
    (hlow : ∀ w, P w → w * PGSIZE < MAXVA) (hleaf : ∀ w, leaf t.mem root w = if P w then x w else leaf s.mem root w) (w : Nat) :
    pagemap t root w = if P w then x w else pagemap s root w := by
  by_cases hw : w * PGSIZE < MAXVA
  · rw [pagemap_eq h hw, pagemap_eq h' hw, hleaf]
  · rw [pagemap_high hw, pagemap_high hw, if_neg fun hP => hw (hlow w hP)]

end lookups

/-! ### `kalloc` and `walk` -/

section walks

variable {allowed : Panic → Prop} {root : Nat} {s : Memory} {doFree : Bool} {q : Nat} {v : Nat} {e : Pte} (n : Nat)

theorem Grown.refl (s : Memory) (root : Nat) : Grown s s root := ⟨List.Sublist.refl _, fun _ => .inl, fun _ => id, fun _ _ _ => rfl, id, rfl, rfl⟩

/-- A page that is neither free nor an interior page stays so. -/
theorem Grown.outside {s t : Memory} (h : Grown s t root) (hfree : q ∉ s.freelist) (hpage : q ∉ tablePages s.mem root) :
    q ∉ t.freelist ∧ q ∉ tablePages t.mem root := ⟨fun hq => hfree (h.list.subset hq), fun hq => (h.pages q hq).elim hpage hfree⟩

theorem Grown.trans {s t u : Memory} (h : Grown s t root) (h' : Grown t u root) : Grown s u root := by
  refine ⟨h'.list.trans h.list, fun q hq => ?_, fun q hq => h'.kept q (h.kept q hq), fun q hfree hpage => ?_, fun hs => h'.inner (h.inner hs), h'.kend.trans h.kend,
    h'.phystop.trans h.phystop⟩
  · rcases h'.pages q hq with hq | hq
    · exact h.pages q hq
    · exact .inr (h.list.subset hq)
  · obtain ⟨hfree', hpage'⟩ := h.outside hfree hpage
    exact (h'.mem q hfree' hpage').trans (h.mem q hfree hpage)

theorem Extended.refl (s : Memory) (root : Nat) : Extended s s root := ⟨.refl s root, fun _ => .inl⟩

theorem Extended.trans {s t u : Memory} (h : Extended s t root) (h' : Extended t u root) : Extended s u root :=
  ⟨h.toGrown.trans h'.toGrown, fun q hq => (h.taken q hq).elim (h'.taken q) fun hq => .inr (h'.kept q hq)⟩

/-- What `kalloc` does to memory and to the list. -/
theorem kalloc_cases (s : Memory) :
    (∃ t, kalloc s = .ok (none, t) ∧ t.mem = s.mem ∧ t.freelist = s.freelist ∧ t.kend = s.kend ∧ t.phystop = s.phystop ∧ t.nomem = true) ∨
      ∃ q t, kalloc s = .ok (some q, t) ∧ s.freelist = q :: t.freelist ∧ (∀ x, x ≠ q → t.mem x = s.mem x) ∧ t.kend = s.kend ∧
        t.phystop = s.phystop := by
  have hfail : (s.called true).nomem = true := by rw [Memory.called_nomem, Bool.or_true]
  unfold kalloc
  by_cases h : s.fail 0 = true
  · rw [if_pos h]
    exact .inl ⟨_, rfl, rfl, rfl, rfl, rfl, hfail⟩
  · rw [if_neg h]
    cases hl : s.freelist with
    | nil => exact .inl ⟨_, rfl, rfl, hl, rfl, rfl, hfail⟩
    | cons q rest =>
      refine .inr ⟨q, _, rfl, rfl, fun x hx => ?_, rfl, rfl⟩
      rw [Memory.setPage_mem, update_of_ne hx]
      rfl

/-- A walk that allocates the tables it misses is not seen in the map. -/
theorem walkFrom_map_wp (va : Nat) : ∀ {s : Memory} (level : Nat) {l : List (Fin 512)} {p : Nat}, Ready s root →
    follow (edge s.mem) root l = some p → l.length + level = 2 →
    Wp allowed (walkFrom va true level p) s fun r t => (Ready t root ∧ Extended s t root ∧ ∀ v, leaf t.mem root v = leaf s.mem root v) ∧
      (r = none → t.nomem = true) ∧
      ∀ pte, r = some pte → pte.2 = ix 0 (va / PGSIZE) ∧ follow (edge t.mem) root (l ++ down level (va / PGSIZE)) = some pte.1
  | s, 0, l, p, h, hl, hlen => by
    rw [walkFrom, PX_eq_ix]
    refine Wp.pure ⟨⟨h, .refl s root, fun _ => rfl⟩, fun hn => (by cases hn), fun pte hpte => ?_⟩
    cases hpte
    exact ⟨rfl, by rw [down, append_nil]; exact hl⟩
  | s, level + 1, l, p, h, hl, hlen => by
    obtain ⟨f, hf⟩ := h.wf.tables l p (by omega) hl
    have hdown : l ++ down (level + 1) (va / PGSIZE) = l ++ [ix (level + 1) (va / PGSIZE)] ++ down level (va / PGSIZE) := by
      rw [down, append_assoc]
      rfl
    have hlen' : (l ++ [ix (level + 1) (va / PGSIZE)]).length + level = 2 := by
      rw [length_append, length_singleton]
      omega
    rw [walkFrom, PX_eq_ix, hdown]
    refine Wp.bind_eq (readPte_eq hf _) ?_
    split
    · rename_i hvalid
      refine walkFrom_map_wp va level h ?_ hlen'
      rw [follow.snoc, hl, Option.bind_some, edge, entry_table hf, if_pos hvalid]
      rfl
    · rename_i hvalid
      rw [if_pos rfl]
      rcases kalloc_cases s with ⟨t, hk, hmem, hlist, hkend, hphys, hnomem⟩ | ⟨q, t, hk, hlist, hmem, hkend, hphys⟩
      · refine Wp.bind_eq hk (Wp.pure ⟨⟨⟨hmem ▸ h.wf, hlist ▸ h.nodup, ?_⟩, ⟨⟨by rw [hlist], fun q hq => ?_, fun q hq => hmem ▸ hq, fun q _ _ => by rw [hmem], fun hs => hmem ▸ hs, hkend, hphys⟩,
          fun q hq => .inl (hlist ▸ hq)⟩, fun v => by rw [hmem]⟩, fun _ => hnomem, fun pte hpte => (by cases hpte)⟩)
        · rw [hlist, hmem]
          exact h.free
        · rw [hmem] at hq
          exact .inl hq
      · have hnodup := h.nodup
        rw [hlist] at hnodup
        obtain ⟨hqrest, -⟩ := nodup_cons.1 hnodup
        have hqmem : q ∈ s.freelist := hlist ▸ mem_cons_self
        have hqfree : q ∉ tablePages s.mem root := h.free q hqmem
        have hpmem : p ∈ tablePages s.mem root := ⟨l, by omega, hl⟩
        have hqp : p ≠ q := fun heq => hqfree (heq ▸ hpmem)
        have hf' : (t.setPage q (.table fun _ => .zero)).mem p = .table f := by
          rw [Memory.setPage_mem, update_of_ne hqp, hmem p hqp, hf]
        refine Wp.bind_eq hk (Wp.bind_eq (t := t.setPage q (.table fun _ => .zero)) rfl (Wp.bind_eq (writePte_eq hf' _ _) ?_))
        generalize hu : (t.setPage q (.table fun _ => .zero)).setPage p (.table (update f (ix (level + 1) (va / PGSIZE)) ⟨q, PTE_V⟩)) = u
        have hup : u.mem p = .table (update f (ix (level + 1) (va / PGSIZE)) ⟨q, PTE_V⟩) := by
          rw [← hu]
          exact update_self ..
        have huq : u.mem q = .table fun _ => .zero := by
          rw [← hu, Memory.setPage_mem, update_of_ne hqp.symm]
          exact update_self ..
        have huother : ∀ x, x ≠ p → x ≠ q → u.mem x = s.mem x := fun x hxp hxq => by
          rw [← hu, Memory.setPage_mem, update_of_ne hxp, Memory.setPage_mem, update_of_ne hxq, hmem x hxq]
        obtain ⟨hulist, hukend, huphys⟩ : u.freelist = t.freelist ∧ u.kend = s.kend ∧ u.phystop = s.phystop := by
          rw [← hu]
          exact ⟨rfl, hkend, hphys⟩
        obtain ⟨hwf, hfollow, hinner, hleaf⟩ := h.wf.link hl (by omega) hf (Bool.eq_false_iff.2 hvalid) hqfree hup huq huother
        have hgrown : Extended s u root := by
          refine ⟨⟨by rw [hulist, hlist]; exact sublist_cons_self q _, ?_, ?_, fun x hfree hpage => huother x ?_ ?_, hinner, hukend, huphys⟩, fun x hx => ?_⟩
          · rintro x ⟨l', hl', hx⟩
            rcases (hfollow l' x hl').1 hx with ⟨rfl, -⟩ | hx
            · exact .inr hqmem
            · exact .inl ⟨l', hl', hx⟩
          · rintro x ⟨l', hl', hx⟩
            exact ⟨l', hl', (hfollow l' x hl').2 (.inr hx)⟩
          · exact fun heq => hpage (heq ▸ hpmem)
          · exact fun heq => hfree (heq ▸ hqmem)
          · rw [hulist]
            rw [hlist] at hx
            rcases mem_cons.1 hx with rfl | hx
            · exact .inr ⟨_, by omega, (hfollow _ x (by omega)).2 (.inl ⟨rfl, rfl⟩)⟩
            · exact .inl hx
        have hready : Ready u root := by
          refine ⟨hwf, h.nodup.sublist hgrown.list, ?_⟩
          rintro x hxfree ⟨l', hl', hx⟩
          rw [hulist] at hxfree
          rcases (hfollow l' x hl').1 hx with ⟨rfl, -⟩ | hx
          · exact hqrest hxfree
          · exact h.free x (hlist ▸ mem_cons_of_mem q hxfree) ⟨l', hl', hx⟩
        have hchild : follow (edge u.mem) root (l ++ [ix (level + 1) (va / PGSIZE)]) = some q :=
          (hfollow _ q (by omega)).2 (.inl ⟨rfl, rfl⟩)
        refine (walkFrom_map_wp va level hready hchild hlen').mono ?_
        rintro r w ⟨⟨hready', hgrown', hleaf'⟩, hrest⟩
        exact ⟨⟨hready', hgrown.trans hgrown', fun v => (hleaf' v).trans (hleaf v)⟩, hrest⟩

theorem walk_map_wp (h : Ready s root) (hv : v * PGSIZE < MAXVA) :
    Wp allowed (walk root (v * PGSIZE) true) s fun r t => (Ready t root ∧ Extended s t root ∧ ∀ v, leaf t.mem root v = leaf s.mem root v) ∧
      (r = none → t.nomem = true) ∧ ∀ pte, r = some pte → pte.2 = ix 0 v ∧ follow (edge t.mem) root [ix 2 v, ix 1 v] = some pte.1 := by
  rw [walk, if_neg (by omega)]
  refine (walkFrom_map_wp (v * PGSIZE) 2 (l := []) h rfl rfl).mono fun r t ht => ?_
  rw [page_div v] at ht
  exact ht

/-! ### `mappages` -/

/-- An entry of the last level is written, and nothing else. -/
theorem Ready.write {s t : Memory} {v p : Nat} {f : Fin 512 → Pte} (h : Ready s root) (hv : v < VPAGES)
    (hl : follow (edge s.mem) root [ix 2 v, ix 1 v] = some p) (hf : s.mem p = .table f) (ht : t = s.setPage p (.table (update f (ix 0 v) e))) :
    Ready t root ∧ Extended s t root ∧ tablePages t.mem root = tablePages s.mem root ∧
      ∀ w, leaf t.mem root w = if w = v then if e.flags.v then some e else none else leaf s.mem root w := by
  have hp : t.mem p = .table (update f (ix 0 v) e) := by
    rw [ht]
    exact update_self ..
  have hother : ∀ x, x ≠ p → t.mem x = s.mem x := fun x hxp => by rw [ht, Memory.setPage_mem, update_of_ne hxp]
  have hlist : t.freelist = s.freelist := by
    rw [ht]
    rfl
  obtain ⟨hwf, hpages, hinner, hleaf⟩ := h.wf.write hv hl hf hp fun x _ => hother x
  refine ⟨⟨hwf, by rw [hlist]; exact h.nodup, fun q hq => ?_⟩,
    ⟨⟨by rw [hlist], fun q hq => .inl (hpages ▸ hq), fun q hq => hpages ▸ hq, fun q _ hq => hother q ?_, hinner, ?_, ?_⟩, fun q hq => .inl (hlist ▸ hq)⟩,
    hpages, hleaf⟩
  · rw [hpages]
    exact h.free q (hlist ▸ hq)
  · exact fun heq => hq (heq ▸ ⟨_, Wellformed.depth_lt v, hl⟩)
  · rw [ht]
    rfl
  · rw [ht]
    rfl

theorem or_PTE_V (perm : Perm) : (perm ||| PTE_V).v = true := Bool.or_true _

theorem mappagesLoop_map_wp {perm : Perm} {v pa : Nat} (h : Ready s root) (hv : (v + n) * PGSIZE < MAXVA)
    (hfree : ∀ w, v ≤ w → w < v + (n + 1) → leaf s.mem root w = none) :
    Wp allowed (mappagesLoop root perm n (v * PGSIZE) pa) s fun ok t => (Ready t root ∧ Extended s t root) ∧
      ∃ k ≤ n + 1, (∀ w, leaf t.mem root w = if v ≤ w ∧ w < v + k then some ⟨pa + (w - v), perm ||| PTE_V⟩ else leaf s.mem root w) ∧
        (ok = true → k = n + 1) ∧ (ok = false → k < n + 1 ∧ t.nomem = true) := by
  induction n using Nat.strong_induction_on generalizing s v pa with
  | _ n ih =>
    have hv0 : v * PGSIZE < MAXVA := Nat.lt_of_le_of_lt (Nat.mul_le_mul_right _ (Nat.le_add_right v n)) hv
    rw [mappagesLoop.eq_def]
    refine (walk_map_wp h hv0).bind ?_
    rintro r t ⟨⟨hready, hgrown, hleaf⟩, hnone, hsome⟩
    cases r with
    | none =>
      refine Wp.pure ⟨⟨hready, hgrown⟩, 0, Nat.zero_le _, fun w => ?_, fun hok => (by cases hok), fun _ => ⟨Nat.succ_pos n, hnone rfl⟩⟩
      rw [hleaf, if_neg (by omega)]
    | some pte =>
      obtain ⟨p, i⟩ := pte
      obtain ⟨hi, hl⟩ := hsome (p, i) rfl
      dsimp only at hi hl
      subst hi
      obtain ⟨f, hf⟩ := hready.wf.tables _ p (Wellformed.depth_lt v) hl
      refine Wp.bind_eq (readPte_eq hf _) ?_
      have hinvalid : ¬(f (ix 0 v)).flags.v = true := by
        intro hvalid
        have hnone := hfree v (Nat.le_refl v) (by omega)
        rw [← hleaf, leaf_of_node (vpages_of_lt hv0) hl, entry_table hf, if_pos hvalid] at hnone
        cases hnone
      rw [if_neg hinvalid]
      refine Wp.bind_eq (writePte_eq hf _ _) ?_
      obtain ⟨hready', hgrown', -, hleaf'⟩ := hready.write (e := ⟨pa, perm ||| PTE_V⟩) (vpages_of_lt hv0) hl hf rfl
      rw [if_pos (or_PTE_V perm)] at hleaf'
      generalize t.setPage p (.table (update f (ix 0 v) ⟨pa, perm ||| PTE_V⟩)) = u at hready' hgrown' hleaf'
      have hmap : ∀ w, leaf u.mem root w = if w = v then some ⟨pa, perm ||| PTE_V⟩ else leaf s.mem root w := fun w => by rw [hleaf' w, hleaf]
      cases n with
      | zero =>
        refine Wp.pure ⟨⟨hready', hgrown.trans hgrown'⟩, 1, Nat.le_refl 1, fun w => ?_, fun _ => rfl, fun hok => (by cases hok)⟩
        rw [hmap w]
        by_cases hwv : w = v
        · rw [if_pos hwv, if_pos (by omega), hwv, Nat.sub_self, Nat.add_zero]
        · rw [if_neg hwv, if_neg (by omega)]
      | succ n =>
        rw [page_succ v]
        refine (ih n (Nat.lt_succ_self n) hready' (by rw [show v + 1 + n = v + (n + 1) by omega]; exact hv) fun w hw hw' => ?_).mono ?_
        · rw [hmap w, if_neg (by omega)]
          exact hfree w (by omega) (by omega)
        · rintro ok x ⟨⟨hready'', hgrown''⟩, k, hk, hmapped, hok, hfail⟩
          refine ⟨⟨hready'', (hgrown.trans hgrown').trans hgrown''⟩, k + 1, by omega, fun w => ?_, fun h => ?_, fun h => ?_⟩
          · rw [hmapped w, hmap w]
            by_cases hwv : w = v
            · rw [if_neg (by omega), if_pos hwv, if_pos (by omega), hwv, Nat.sub_self, Nat.add_zero]
            · rw [if_neg hwv]
              by_cases hin : v + 1 ≤ w ∧ w < v + 1 + k
              · rw [if_pos hin, if_pos (by omega), show pa + 1 + (w - (v + 1)) = pa + (w - v) by omega]
              · rw [if_neg hin, if_neg (by omega)]
          · have := hok h
            omega
          · have := hfail h
            exact ⟨by omega, this.2⟩

/-! ### `uvmunmap` -/

/-- A page is freed that is neither free nor an interior page. -/
theorem Ready.kfree (h : Ready s root) (hkend : s.kend ≤ q) (hphys : q < s.phystop) (hpage : q ∉ tablePages s.mem root)
    (hfree : q ∉ s.freelist) : ∃ t, Vm.kfree q s = .ok ((), t) ∧ Ready t root ∧ t.freelist = q :: s.freelist ∧ (∀ x, x ≠ q → t.mem x = s.mem x) ∧
      tablePages t.mem root = tablePages s.mem root ∧ (∀ v, leaf t.mem root v = leaf s.mem root v) ∧ t.kend = s.kend ∧ t.phystop = s.phystop ∧
      t.nomem = s.nomem := by
  have hrun : Vm.kfree q s = .ok ((), (s.setPage q (.bytes fun _ => 1)).setFreelist (q :: s.freelist)) := by
    rw [Vm.kfree, if_neg (by omega)]
  have hmem : ∀ x, x ≠ q → ((s.setPage q (.bytes fun _ => 1)).setFreelist (q :: s.freelist)).mem x = s.mem x := fun x hx => by
    rw [Memory.setFreelist_mem, Memory.setPage_mem, update_of_ne hx]
  obtain ⟨hwf, -, hpages, hleaf⟩ := h.wf.congr fun x hx => hmem x fun heq => hpage (heq ▸ hx)
  refine ⟨_, hrun, ⟨hwf, nodup_cons.2 ⟨hfree, h.nodup⟩, fun x hx => ?_⟩, rfl, hmem, hpages, hleaf, rfl, rfl, rfl⟩
  rw [hpages]
  rcases mem_cons.1 hx with rfl | hx
  · exact hpage
  · exact h.free x hx

theorem Unmapped.refl (s : Memory) (root : Nat) : Unmapped s s root := ⟨fun _ _ => id, rfl, fun _ _ _ => rfl, id, rfl, rfl, rfl⟩

theorem Unmapped.trans {s t u : Memory} (h : Unmapped s t root) (h' : Unmapped t u root) : Unmapped s u root := by
  refine ⟨fun v e he => h.leaves v e (h'.leaves v e he), h'.pages.trans h.pages, fun q hq hq' => ?_, fun hs => h'.inner (h.inner hs),
    h'.kend.trans h.kend, h'.phystop.trans h.phystop, h'.nomem.trans h.nomem⟩
  exact (h'.mem q (h.pages ▸ hq) fun v e he => hq' v e (h.leaves v e he)).trans (h.mem q hq hq')

theorem some_of_cleared {v w : Nat} {x : Option Pte} (h : (if w = v then none else x) = some e) : x = some e := by
  split at h
  · cases h
  · exact h

/-- The entry of a page is cleared, and its page freed. -/
theorem unmapPage_map_wp {v n : Nat} (h : Ready s root) (hv : v * PGSIZE < MAXVA)
    (hfreeable : doFree = true → Freeable s root v (n + 1)) :
    Wp allowed (unmapPage root (v * PGSIZE) doFree) s fun _ t => Ready t root ∧ (∀ w, leaf t.mem root w = if w = v then none else leaf s.mem root w) ∧
      (doFree = true → Freeable t root (v + 1) n) ∧ Unmapped s t root ∧ (doFree = false → t.freelist = s.freelist) ∧
      (doFree = true → ∀ q, q ∈ t.freelist ↔ q ∈ s.freelist ∨ ∃ e, leaf s.mem root v = some e ∧ e.ppn = q) := by
  have hless : doFree = true → Freeable s root (v + 1) n := fun hd =>
    ⟨fun w e hw hw' => (hfreeable hd).page w e (by omega) (by omega),
      fun w w' e e' hw hw1 hw' hw1' => (hfreeable hd).once w w' e e' (by omega) (by omega) (by omega) (by omega)⟩
  -- where nothing is mapped nothing happens
  have hstay : leaf s.mem root v = none → Ready s root ∧ (∀ w, leaf s.mem root w = if w = v then none else leaf s.mem root w) ∧
      (doFree = true → Freeable s root (v + 1) n) ∧ Unmapped s s root ∧ (doFree = false → s.freelist = s.freelist) ∧
      (doFree = true → ∀ q, q ∈ s.freelist ↔ q ∈ s.freelist ∨ ∃ e, leaf s.mem root v = some e ∧ e.ppn = q) := fun hnone => by
    refine ⟨h, fun w => ?_, hless, .refl s root, fun _ => rfl, fun _ q => by simp [hnone]⟩
    split
    · next hwv => rw [hwv, hnone]
    · rfl
  rw [unmapPage]
  refine Wp.bind_eq (walk_find h.wf hv) ?_
  cases hl : follow (edge s.mem) root [ix 2 v, ix 1 v] with
  | none =>
    refine Wp.pure (hstay ?_)
    rw [leaf, if_pos (vpages_of_lt hv), hl]
    rfl
  | some p =>
    obtain ⟨f, hf⟩ := h.wf.tables _ p (Wellformed.depth_lt v) hl
    have hmap := leaf_of_node (vpages_of_lt hv) hl
    rw [entry_table hf] at hmap
    refine Wp.bind_eq (readPte_eq hf _) ?_
    by_cases hvalid : (f (ix 0 v)).flags.v = true
    · rw [if_pos hvalid] at hmap ⊢
      have hpmem : p ∈ tablePages s.mem root := ⟨_, Wellformed.depth_lt v, hl⟩
      cases doFree with
      | false =>
        rw [if_neg Bool.false_ne_true]
        obtain ⟨hready, hgrown, hpages, hleaf⟩ := h.write (e := .zero) (vpages_of_lt hv) hl hf rfl
        refine Wp.of_eq (writePte_eq hf _ _) ⟨hready, hleaf, fun hd => (by cases hd), ⟨fun w e he => ?_, hpages, fun q hq hq' => ?_, hgrown.inner, rfl, rfl, rfl⟩,
          fun _ => rfl, fun hd => (by cases hd)⟩
        · rw [hleaf] at he
          exact some_of_cleared he
        · have hne : q ≠ p := fun heq => hq (heq ▸ hpmem)
          rw [Memory.setPage_mem, update_of_ne hne]
      | true =>
        obtain ⟨hkend, hphys, hpage, hfree⟩ := (hfreeable rfl).page v _ (Nat.le_refl v) (by omega) hmap
        obtain ⟨t, hrun, hready, hlist, hmem, hpages, hleaf, htkend, htphys, htnomem⟩ := h.kfree hkend hphys hpage hfree
        have hf' : t.mem p = .table f := (hmem p fun heq => hpage (heq ▸ hpmem)).trans hf
        have hl' : follow (edge t.mem) root [ix 2 v, ix 1 v] = some p := by
          rw [((h.wf.congr fun x hx => hmem x fun heq => hpage (heq ▸ hx)).2.1) _ (Wellformed.depth_lt v)]
          exact hl
        rw [if_pos rfl]
        refine Wp.bind_eq hrun (Wp.of_eq (writePte_eq hf' _ _) ?_)
        obtain ⟨hready', hgrown, hpages', hleaf'⟩ := hready.write (e := .zero) (vpages_of_lt hv) hl' hf' rfl
        have hother : ∀ x, x ≠ p → (t.setPage p (.table (update f (ix 0 v) .zero))).mem x = t.mem x := fun x hx => by
          rw [Memory.setPage_mem, update_of_ne hx]
        have hulist : (t.setPage p (.table (update f (ix 0 v) .zero))).freelist = t.freelist := rfl
        have hunomem : (t.setPage p (.table (update f (ix 0 v) .zero))).nomem = s.nomem := htnomem
        generalize t.setPage p (.table (update f (ix 0 v) .zero)) = u at hready' hgrown hpages' hleaf' hother hulist hunomem
        have hmap' : ∀ w, leaf u.mem root w = if w = v then none else leaf s.mem root w := fun w => by rw [hleaf' w, hleaf]; rfl
        refine ⟨hready', hmap', fun _ => ⟨fun w e hw hw' he => ?_, fun w w' e e' hw hw1 hw' hw1' he he' => ?_⟩,
          ⟨fun w e he => some_of_cleared (hmap' w ▸ he), hpages'.trans hpages, fun x hx hx' => ?_, fun hs => hgrown.inner ?_,
            hgrown.kend.trans htkend, hgrown.phystop.trans htphys, hunomem⟩, fun hd => (by cases hd), fun _ q => ?_⟩
        · rw [hmap', if_neg (by omega)] at he
          obtain ⟨hkend', hphys', hpage', hfree'⟩ := (hless rfl).page w e hw hw' he
          have hne : e.ppn ≠ (f (ix 0 v)).ppn := fun heq => by
            have := (hfreeable rfl).once w v e _ (by omega) (by omega) (Nat.le_refl v) (by omega) he hmap heq
            omega
          have hfree'' : e.ppn ∉ t.freelist := by
            rw [hlist]
            exact not_mem_cons_of_ne_of_not_mem hne hfree'
          obtain ⟨hout, hout'⟩ := hgrown.outside hfree'' (hpages ▸ hpage')
          rw [hgrown.kend, hgrown.phystop, htkend, htphys]
          exact ⟨hkend', hphys', hout', hout⟩
        · rw [hmap', if_neg (by omega)] at he
          rw [hmap', if_neg (by omega)] at he'
          exact (hless rfl).once w w' e e' hw hw1 hw' hw1' he he'
        · exact (hother x fun heq => hx (heq ▸ hpmem)).trans (hmem x fun heq => hx' v _ hmap heq.symm)
        · exact Wellformed.inner_congr hs fun x hx => hmem x fun heq => hpage (heq ▸ Wellformed.upper_mono hx)
        · rw [hulist, hlist, hmap, mem_cons, or_comm]
          simp only [Option.some.injEq, exists_eq_left', eq_comm (a := q)]
    · rw [if_neg hvalid] at hmap ⊢
      exact Wp.pure (hstay hmap)

theorem uvmunmapLoop_map_wp (h : Ready s root) (hv : ∀ w, w < v + n → w * PGSIZE < MAXVA)
    (hfreeable : doFree = true → Freeable s root v n) :
    Wp allowed (uvmunmapLoop root doFree n (v * PGSIZE)) s fun _ t => Ready t root ∧
      (∀ w, leaf t.mem root w = if v ≤ w ∧ w < v + n then none else leaf s.mem root w) ∧ Unmapped s t root ∧
      (doFree = false → t.freelist = s.freelist) ∧
      (doFree = true → ∀ q, q ∈ t.freelist ↔ q ∈ s.freelist ∨ ∃ w e, v ≤ w ∧ w < v + n ∧ leaf s.mem root w = some e ∧ e.ppn = q) := by
  induction n generalizing s v with
  | zero =>
    refine Wp.pure ⟨h, fun w => by rw [if_neg (by omega)], .refl s root, fun _ => rfl, fun _ q => ⟨.inl, ?_⟩⟩
    rintro (hq | ⟨w, e, hw, hw', -⟩)
    · exact hq
    · omega
  | succ n ih =>
    rw [uvmunmapLoop]
    rw [page_succ v]
    refine (unmapPage_map_wp h (hv v (by omega)) hfreeable).bind ?_
    rintro _ t ⟨hready, hmap, hfreeable', hless, hlist, hfreed⟩
    refine (ih hready (fun w hw => hv w (by omega)) hfreeable').mono ?_
    rintro _ u ⟨hready', hmap', hless', hlist', hfreed'⟩
    refine ⟨hready', fun w => ?_, hless.trans hless', fun hd => (hlist' hd).trans (hlist hd), fun hd q => ?_⟩
    · rw [hmap' w, hmap w]
      by_cases hwv : w = v
      · subst hwv
        rw [if_neg (by omega), if_pos rfl, if_pos (by omega)]
      · rw [if_neg hwv]
        by_cases hin : v + 1 ≤ w ∧ w < v + 1 + n
        · rw [if_pos hin, if_pos (by omega)]
        · rw [if_neg hin, if_neg (by omega)]
    · rw [hfreed' hd, hfreed hd, or_assoc]
      refine or_congr_right ⟨?_, ?_⟩
      · rintro (⟨e, he, hq⟩ | ⟨w, e, hw, hw', he, hq⟩)
        · exact ⟨v, e, Nat.le_refl v, by omega, he, hq⟩
        · exact ⟨w, e, by omega, by omega, hless.leaves w e he, hq⟩
      · rintro ⟨w, e, hw, hw', he, hq⟩
        by_cases hwv : w = v
        · exact .inl ⟨e, hwv ▸ he, hq⟩
        · exact .inr ⟨w, e, by omega, by omega, (hmap w).trans ((if_neg hwv).trans he), hq⟩

end walks

end Xv6.Vm
