import Xv6.Lemmas.VmProper

/-!
# Copies, byte by byte

What the user has at each address, a page that is to be mapped in on demand included, and what the copies between the kernel and the
user do to it, whether they succeed or fail and whether memory runs out or not.
-/

namespace Xv6.Vm

open Lib Function List

namespace Mm

variable (p : Mm) (s : Memory) (a : Nat)

/-- What the page table of the process has for an address; from `MAXVA` on nothing is mapped. -/
def lookup : Option (Nat × Perm × (Nat → Byte)) := if a < MAXVA then Vm.space s.mem p.pagetable (a / PGSIZE) else none

/-- The byte that the user has at an address: that of a page mapped for the user, or 0 on a page that is not mapped and starts below the
size. -/
def byte : Option Byte :=
  match p.lookup s a with
  | some x => if x.2.1.u then some (x.2.2 (a % PGSIZE)) else none
  | none => if pgrounddown a < p.sz then some 0 else none

/-- The kernel may write for the user at an address. -/
def writable : Bool :=
  match p.lookup s a with
  | some x => x.2.1.u && x.2.1.w
  | none => decide (pgrounddown a < p.sz)

end Mm

/-- The address space of a process, in which the trampoline and the trapframe are not for the user. -/
structure Current (p : Mm) (s : Memory) : Prop extends Proper s p.pagetable where
  size : p.sz ≤ TRAPFRAME
  special : ∀ v x, v = VTRAMPOLINE ∨ v = VTRAPFRAME → space s.mem p.pagetable v = some x → x.2.1.u = false

/-- What a copy leaves: an address space with the same trampoline and trapframe, and the pages of others. -/
structure Served (p : Mm) (s t : Memory) : Prop extends Proper t p.pagetable where
  spared : Spared s t p.pagetable
  high : ∀ v, VTRAPFRAME ≤ v → space t.mem p.pagetable v = space s.mem p.pagetable v

/-- What is mapped stays mapped, and a page changes only if the user may write to it. -/
def Confined (p : Mm) (s t : Memory) : Prop :=
  ∀ v x, space s.mem p.pagetable v = some x → ∃ b, space t.mem p.pagetable v = some (x.1, x.2.1, b) ∧ ((x.2.1.u && x.2.1.w) = false → b = x.2.2)

/-- The user sees the bytes at `d`, and otherwise what was there before. -/
def Patched (p : Mm) (s t : Memory) (d : Nat) (w : List Byte) : Prop :=
  ∀ a, p.byte t a = if d ≤ a ∧ a < d + w.length then w[a - d]? else p.byte s a

section facts

variable {p : Mm} {s t u : Memory} {a v d : Nat} {x : Nat × Perm × (Nat → Byte)}

theorem Served.refl (h : Proper s p.pagetable) : Served p s s := ⟨h, .refl _ _, fun _ _ => rfl⟩

theorem Served.trans (h : Served p s t) (h' : Served p t u) : Served p s u :=
  ⟨h'.toProper, h.spared.trans h'.spared, fun v hv => (h'.high v hv).trans (h.high v hv)⟩

theorem Current.served (h : Current p s) (h' : Served p s t) : Current p t := by
  refine ⟨h'.toProper, h.size, fun v x hv hx => h.special v x hv ?_⟩
  rw [← h'.high v (by have : VTRAPFRAME < VTRAMPOLINE := by decide
                      omega)]
  exact hx

/-- A page for the user is below the trapframe. -/
theorem Current.low (h : Current p s) (hv : v * PGSIZE < MAXVA)
    (hx : space s.mem p.pagetable v = some x) (hu : x.2.1.u = true) : v < VTRAPFRAME := by
  have hne : ¬(v = VTRAMPOLINE ∨ v = VTRAPFRAME) := by
    intro hspecial
    rw [h.special v x hspecial hx] at hu
    cases hu
  simp only [VTRAMPOLINE, VTRAPFRAME, TRAPFRAME, TRAMPOLINE, MAXVA, PGSIZE] at *
  omega

/-! ### What the user has -/

theorem pgrounddown_eq (hv : a / PGSIZE = v) : pgrounddown a = v * PGSIZE := by
  rw [pgrounddown, hv]

theorem lt_MAXVA_iff (hv : a / PGSIZE = v) : a < MAXVA ↔ v * PGSIZE < MAXVA := by
  simp only [MAXVA, PGSIZE] at *
  omega

theorem Mm.lookup_eq (hv : a / PGSIZE = v) (hlow : v * PGSIZE < MAXVA) : p.lookup s a = Vm.space s.mem p.pagetable v := by
  rw [Mm.lookup, if_pos ((lt_MAXVA_iff hv).2 hlow), hv]

theorem Mm.lookup_high (h : MAXVA ≤ a) : p.lookup s a = none := if_neg (Nat.not_lt.2 h)

theorem Mm.byte_of_some (h : p.lookup s a = some x) :
    p.byte s a = if x.2.1.u then some (x.2.2 (a % PGSIZE)) else none := by
  rw [Mm.byte, h]

theorem Mm.byte_of_none (h : p.lookup s a = none) : p.byte s a = if pgrounddown a < p.sz then some 0 else none := by
  rw [Mm.byte, h]

theorem Mm.writable_of_some (h : p.lookup s a = some x) : p.writable s a = (x.2.1.u && x.2.1.w) := by
  rw [Mm.writable, h]

theorem Mm.writable_of_none (h : p.lookup s a = none) : p.writable s a = decide (pgrounddown a < p.sz) := by
  rw [Mm.writable, h]

/-- What the user does not have may not be written. -/
theorem Mm.writable_of_byte (h : p.byte s a = none) : p.writable s a = false := by
  cases hx : p.lookup s a with
  | none =>
    rw [Mm.byte_of_none hx] at h
    rw [Mm.writable_of_none hx]
    by_cases hlt : pgrounddown a < p.sz
    · rw [if_pos hlt] at h
      cases h
    · exact decide_eq_false hlt
  | some x =>
    rw [Mm.byte_of_some hx] at h
    rw [Mm.writable_of_some hx]
    cases hu : x.2.1.u with
    | false => rfl
    | true =>
      rw [hu, if_pos rfl] at h
      cases h

theorem Mm.byte_congr (h : p.lookup t a = p.lookup s a) : p.byte t a = p.byte s a ∧ p.writable t a = p.writable s a := by
  simp only [Mm.byte, Mm.writable, h, and_self]

/-- The user has the same as before. -/
def Shows (p : Mm) (s t : Memory) : Prop := ∀ a, p.byte t a = p.byte s a ∧ p.writable t a = p.writable s a

theorem Shows.refl (p : Mm) (s : Memory) : Shows p s s := fun _ => ⟨rfl, rfl⟩

theorem Shows.trans (h : Shows p s t) (h' : Shows p t u) : Shows p s u := fun a =>
  ⟨(h' a).1.trans (h a).1, (h' a).2.trans (h a).2⟩

theorem Shows.of_view (h : space t.mem p.pagetable = space s.mem p.pagetable) : Shows p s t := fun a =>
  Mm.byte_congr (by rw [Mm.lookup, Mm.lookup, h])

/-- A page that is mapped in on demand was there all the time. -/
theorem Shows.of_fault {q va : Nat} (hva : va < p.sz) (hnone : space s.mem p.pagetable (va / PGSIZE) = none)
    (h : space t.mem p.pagetable = update (space s.mem p.pagetable) (va / PGSIZE) (some (q, dataPerm, fun _ => 0))) : Shows p s t := by
  intro a
  by_cases hmax : a < MAXVA
  · by_cases hv : a / PGSIZE = va / PGSIZE
    · have hs : p.lookup s a = none := by rw [Mm.lookup, if_pos hmax, hv, hnone]
      have ht : p.lookup t a = some (q, dataPerm, fun _ => 0) := by rw [Mm.lookup, if_pos hmax, hv, h, update_self]
      have hlt : pgrounddown a < p.sz := by
        rw [pgrounddown, hv]
        exact Nat.lt_of_le_of_lt (Nat.div_mul_le_self ..) hva
      rw [Mm.byte_of_none hs, Mm.byte_of_some ht, Mm.writable_of_none hs, Mm.writable_of_some ht, if_pos hlt, decide_eq_true hlt]
      exact ⟨rfl, rfl⟩
    · exact Mm.byte_congr (by rw [Mm.lookup, Mm.lookup, h, update_of_ne hv])
  · exact Mm.byte_congr (by rw [Mm.lookup_high (Nat.not_lt.1 hmax), Mm.lookup_high (Nat.not_lt.1 hmax)])

/-! ### What is written -/

theorem Patched.of_shows (h : Shows p s t) (d : Nat) : Patched p s t d [] := fun a => by
  rw [if_neg (by simp), (h a).1]

/-- First some bytes, then those after them. -/
theorem Patched.append {w w' : List Byte} (h : Patched p s t d w) (h' : Patched p t u (d + w.length) w') : Patched p s u d (w ++ w') := by
  intro a
  rw [h' a, h a, length_append]
  by_cases hfirst : d ≤ a ∧ a < d + w.length
  · rw [if_neg (by omega), if_pos hfirst, if_pos (by omega), getElem?_append_left (by omega)]
  · rw [if_neg hfirst]
    by_cases hsecond : d + w.length ≤ a ∧ a < d + w.length + w'.length
    · rw [if_pos hsecond, if_pos (by omega), getElem?_append_right (by omega)]
      congr 1
      omega
    · rw [if_neg hsecond, if_neg (by omega)]

/-- Where nothing is written the place does not matter. -/
theorem Patched.nil_at (h : Patched p s t d []) (d' : Nat) : Patched p s t d' [] := fun a => by
  have := h a
  rw [if_neg (by simp)] at this
  rw [if_neg (by simp), this]

theorem Confined.refl (p : Mm) (s : Memory) : Confined p s s := fun _ x hx => ⟨x.2.2, hx, fun _ => rfl⟩

theorem Confined.trans (h : Confined p s t) (h' : Confined p t u) : Confined p s u := by
  intro v x hx
  obtain ⟨b, hb, hkeep⟩ := h v x hx
  obtain ⟨b', hb', hkeep'⟩ := h' v _ hb
  exact ⟨b', hb', fun hno => (hkeep' hno).trans (hkeep hno)⟩

/-- Bytes are written to a page that the user may write to. -/
theorem patched_of_write {q off : Nat} {perm : Perm} {f : Nat → Byte} {w : List Byte} (hlow : v * PGSIZE < MAXVA)
    (hx : space s.mem p.pagetable v = some (q, perm, f)) (hu : perm.u = true) (hw : perm.w = true) (hfit : off + w.length ≤ PGSIZE)
    (h : space t.mem p.pagetable = update (space s.mem p.pagetable) v (some (q, perm, overwrite f off w))) :
    Patched p s t (v * PGSIZE + off) w ∧ (∀ a, p.writable t a = p.writable s a) ∧ Confined p s t := by
  have hself : ∀ a, a / PGSIZE = v → p.lookup s a = some (q, perm, f) ∧ p.lookup t a = some (q, perm, overwrite f off w) := fun a hv => by
    rw [Mm.lookup_eq hv hlow, Mm.lookup_eq hv hlow, h, update_self]
    exact ⟨hx, rfl⟩
  have hother : ∀ a, a / PGSIZE ≠ v → p.lookup t a = p.lookup s a := fun a hv => by
    rw [Mm.lookup, Mm.lookup, h, update_of_ne hv]
  refine ⟨fun a => ?_, fun a => ?_, fun v' x hx' => ?_⟩
  · by_cases hv : a / PGSIZE = v
    · obtain ⟨hs, ht⟩ := hself a hv
      rw [Mm.byte_of_some hs, Mm.byte_of_some ht]
      have ha : a = v * PGSIZE + a % PGSIZE := by rw [← hv, Nat.mul_comm, Nat.div_add_mod]
      simp only [hu, if_true, overwrite]
      by_cases hin : off ≤ a % PGSIZE ∧ a % PGSIZE < off + w.length
      · have hidx : a - (v * PGSIZE + off) = a % PGSIZE - off := by omega
        rw [if_pos hin, if_pos (by omega), hidx, getD_eq_getElem?_getD, getElem?_eq_getElem (by omega)]
        rfl
      · rw [if_neg hin, if_neg (by omega)]
    · rw [(Mm.byte_congr (hother a hv)).1, if_neg]
      intro hin
      refine hv ?_
      rw [Nat.div_eq_of_lt_le (k := v) (by omega)]
      rw [Nat.add_mul, Nat.one_mul]
      omega
  · by_cases hv : a / PGSIZE = v
    · obtain ⟨hs, ht⟩ := hself a hv
      rw [Mm.writable_of_some hs, Mm.writable_of_some ht]
    · exact (Mm.byte_congr (hother a hv)).2
  · by_cases hv : v' = v
    · subst hv
      rw [hx] at hx'
      cases hx'
      refine ⟨_, by rw [h, update_self], fun hno => ?_⟩
      rw [hu, hw] at hno
      cases hno
    · exact ⟨x.2.2, by rw [h, update_of_ne hv]; exact hx', fun _ => rfl⟩

end facts

section copies

variable {allowed : Panic → Prop} {p : Mm} {s t u : Memory}

/-- What is mapped stays as it is. -/
def Stays (p : Mm) (s t : Memory) : Prop := ∀ v x, space s.mem p.pagetable v = some x → space t.mem p.pagetable v = some x

theorem Stays.confined (h : Stays p s t) : Confined p s t := fun v x hx => ⟨x.2.2, h v x hx, fun _ => rfl⟩

/-- The page that a copy uses, for the addresses on it. -/
def Fetched (p : Mm) (s : Memory) (v : Nat) (r : Option Nat) (t : Memory) : Prop :=
  (Served p s t ∧ Shows p s t ∧ Stays p s t) ∧
    (r = none ∧ (t.nomem = true ∨ ∀ a, a / PGSIZE = v → p.byte s a = none) ∨
      ∃ q perm f, r = some q ∧ v * PGSIZE < MAXVA ∧ space t.mem p.pagetable v = some (q, perm, f) ∧ perm.u = true)

/-- No page for the user is mapped, so there is a fault. -/
theorem Fetched.fault_wp {v : Nat} (h : Current p s) (hno : ∀ a x, a / PGSIZE = v → p.lookup s a = some x → x.2.1.u = false)
    (hmax : MAXVA ≤ v * PGSIZE → p.sz ≤ v * PGSIZE) :
    Wp allowed (vmfault p p.pagetable (v * PGSIZE)) s (Fetched p s v) := by
  refine (vmfault_wp h.toProper (h.size.trans (by decide))).mono ?_
  rintro r t ⟨hproper, hspared, ht⟩
  rw [page_div v] at ht
  have hserved : Served p s t := by
    refine ⟨hproper, hspared, fun w hw => ?_⟩
    rcases ht with ⟨-, rfl, -⟩ | ⟨-, -, hview⟩ | ⟨q, -, hva, -, hview⟩
    · rfl
    · rw [hview]
    · rw [hview, update_of_ne]
      rintro rfl
      have := h.size
      simp only [VTRAPFRAME, TRAPFRAME, TRAMPOLINE, MAXVA, PGSIZE] at *
      omega
  rcases ht with ⟨rfl, rfl, hmiss⟩ | ⟨rfl, hnomem, hview⟩ | ⟨q, rfl, hva, hnone, hview⟩
  · refine ⟨⟨hserved, .refl p t, fun _ _ hx => hx⟩, .inl ⟨rfl, .inr fun a ha => ?_⟩⟩
    cases hx : p.lookup t a with
    | some x => rw [Mm.byte_of_some hx, hno a x ha hx, if_neg Bool.false_ne_true]
    | none =>
      have hhigh : p.sz ≤ v * PGSIZE := by
        rcases hmiss with hmiss | hmiss
        · exact hmiss
        · by_cases hlow : v * PGSIZE < MAXVA
          · rw [Mm.lookup_eq ha hlow] at hx
            exact absurd hx hmiss
          · exact hmax (Nat.not_lt.1 hlow)
      rw [Mm.byte_of_none hx, pgrounddown_eq ha, if_neg (Nat.not_lt.2 hhigh)]
  · refine ⟨⟨hserved, .of_view hview, fun v' x hx => ?_⟩, .inl ⟨rfl, .inl hnomem⟩⟩
    rw [hview]
    exact hx
  · refine ⟨⟨hserved, ?_, fun v' x hx => ?_⟩, .inr ⟨q, dataPerm, fun _ => 0, rfl, ?_, by rw [hview, update_self], rfl⟩⟩
    · exact .of_fault hva (by rw [page_div v]; exact hnone) (by rw [page_div v]; exact hview)
    · rw [hview, update_of_ne fun heq => by rw [heq, hnone] at hx; cases hx]
      exact hx
    · exact (hva.trans_le h.size).trans (by decide)

theorem userPage_bytes_wp (h : Current p s) (v : Nat) : Wp allowed (userPage p p.pagetable (v * PGSIZE)) s (Fetched p s v) := by
  rw [userPage]
  by_cases hva : v * PGSIZE < MAXVA
  · have hwalk := walkaddr_eq h.wf hva
    rw [page_div v] at hwalk
    refine Wp.bind_eq hwalk ?_
    have hmax : MAXVA ≤ v * PGSIZE → p.sz ≤ v * PGSIZE := fun hle => absurd hva (Nat.not_lt.2 hle)
    cases hx : space s.mem p.pagetable v with
    | none =>
      refine Fetched.fault_wp h (fun a x ha hx' => ?_) hmax
      rw [Mm.lookup_eq ha hva, hx] at hx'
      cases hx'
    | some x =>
      rw [Option.filter_some]
      cases hu : x.2.1.u with
      | false =>
        refine Fetched.fault_wp h (fun a y ha hy => ?_) hmax
        rw [Mm.lookup_eq ha hva, hx] at hy
        cases hy
        exact hu
      | true => exact Wp.pure ⟨⟨.refl h.toProper, .refl p s, fun _ _ hx => hx⟩, .inr ⟨x.1, x.2.1, x.2.2, rfl, hva, hx, hu⟩⟩
  · have hnone : walkaddr p.pagetable (v * PGSIZE) s = .ok (none, s) := by
      rw [walkaddr, if_pos (by omega)]
      rfl
    refine Wp.bind_eq hnone (Fetched.fault_wp h (fun a x ha hx => ?_) fun hle => (h.size.trans (by decide)).trans hle)
    rw [Mm.lookup_high (Nat.not_lt.1 fun hlt => hva ((lt_MAXVA_iff ha).1 hlt))] at hx
    cases hx

/-- A byte on a page that has been found. -/
theorem Fetched.byte {v a q : Nat} {perm : Perm} {f : Nat → Byte} (hlow : v * PGSIZE < MAXVA) (hx : space s.mem p.pagetable v = some (q, perm, f))
    (hu : perm.u = true) (ha : a / PGSIZE = v) : p.byte s a = some (f (a % PGSIZE)) ∧ p.writable s a = perm.w := by
  have hlookup : p.lookup s a = some (q, perm, f) := by rw [Mm.lookup_eq ha hlow, hx]
  rw [Mm.byte_of_some hlookup, Mm.writable_of_some hlookup]
  simp only [hu, if_true, Bool.true_and, and_self]

/-- The number of bytes of a copy that are on the first page, and where the rest starts. -/
theorem chunk (va len : Nat) : ∃ n, min (PGSIZE - (va - pgrounddown va)) len = n ∧ n ≤ len ∧ va = pgrounddown va + (va - pgrounddown va) ∧
    va - pgrounddown va + n ≤ PGSIZE ∧ (0 < len → 0 < n) ∧ (n < len → pgrounddown va + PGSIZE = va + n) ∧
    ∀ i < n, (va + i) / PGSIZE = va / PGSIZE ∧ (va + i) % PGSIZE = va - pgrounddown va + i := by
  refine ⟨_, rfl, ?_⟩
  simp only [pgrounddown, PGSIZE]
  refine ⟨by omega, by omega, by omega, by omega, by omega, fun i hi => ?_⟩
  omega

/-- `copyin`: the bytes of the user, or one of them is missing, or memory has run out. The user has the same as before. -/
theorem copyinLoop_bytes_wp : ∀ (fuel : Nat) {s : Memory} (srcva len : Nat), Current p s → len ≤ fuel →
    Wp allowed (copyinLoop p p.pagetable fuel srcva len) s fun r t => (Served p s t ∧ Shows p s t ∧ Stays p s t) ∧
      (∀ b, r = some b → b.length = len ∧ ∀ i < len, p.byte s (srcva + i) = b[i]?) ∧
      (r = none → t.nomem = true ∨ ∃ i < len, p.byte s (srcva + i) = none)
  | fuel, s, srcva, 0, h, _ => by
    rw [copyinLoop]
    refine Wp.pure ⟨⟨.refl h.toProper, .refl p s, fun _ _ hx => hx⟩, fun b hb => ?_, fun hr => by cases hr⟩
    cases hb
    exact ⟨rfl, fun i hi => absurd hi (Nat.not_lt_zero i)⟩
  | 0, s, srcva, len + 1, h, hfuel => absurd hfuel (Nat.not_succ_le_zero len)
  | fuel + 1, s, srcva, len + 1, h, hfuel => by
    simp only [copyinLoop]
    obtain ⟨n, hn, hnlen, -, -, hnpos, hnext, hplace⟩ := chunk srcva (len + 1)
    rw [hn]
    refine (userPage_bytes_wp h (srcva / PGSIZE)).bind ?_
    rintro r t ⟨⟨hserved, hshows, hstays⟩, ⟨rfl, hmiss⟩ | ⟨q, perm, f, rfl, hlow, hx, hu⟩⟩
    · refine Wp.pure ⟨⟨hserved, hshows, hstays⟩, fun b hb => (by cases hb), fun _ => hmiss.imp_right fun hmiss => ⟨0, Nat.succ_pos len, hmiss _ rfl⟩⟩
    · refine Wp.bind_eq (readBytes_eq (hserved.bytes_of_space hx).2 _ _) ?_
      have hchunk : ∀ i < n, p.byte s (srcva + i) = some (f (srcva - pgrounddown srcva + i)) := fun i hi => by
        rw [← (hshows _).1, (Fetched.byte hlow hx hu (hplace i hi).1).1, (hplace i hi).2]
      refine (copyinLoop_bytes_wp fuel _ (len + 1 - n) (h.served hserved) (by have := hnpos (Nat.succ_pos len); omega)).bind ?_
      rintro r u ⟨⟨hserved', hshows', hstays'⟩, hok, hfail⟩
      have hrest : ∀ i < len + 1 - n, p.byte t (pgrounddown srcva + PGSIZE + i) = p.byte s (srcva + (n + i)) := fun i hi => by
        rw [(hshows _).1, hnext (by omega), Nat.add_assoc]
      have hall := And.intro (hserved.trans hserved') (And.intro (hshows.trans hshows') fun v x hx => hstays' v x (hstays v x hx))
      cases r with
      | none =>
        refine Wp.pure ⟨hall, fun b hb => (by cases hb), fun _ => (hfail rfl).imp_right ?_⟩
        rintro ⟨i, hi, hnone⟩
        exact ⟨n + i, by omega, by rw [← hrest i hi]; exact hnone⟩
      | some rest =>
        obtain ⟨hlen, hrest'⟩ := hok rest rfl
        refine Wp.pure ⟨hall, fun b hb => ?_, fun hr => by cases hr⟩
        cases hb
        have hfirst : ((range n).map fun j => f (srcva - pgrounddown srcva + j)).length = n := by simp
        refine ⟨by rw [length_append, hfirst, hlen]; omega, fun i hi => ?_⟩
        by_cases hin : i < n
        · rw [getElem?_append_left (by omega), hchunk i hin]
          simp [hin]
        · obtain ⟨j, rfl⟩ : ∃ j, i = n + j := ⟨i - n, by omega⟩
          rw [getElem?_append_right (by omega), hfirst, Nat.add_sub_cancel_left, ← hrest j (by omega)]
          exact hrest' j (by omega)

/-- `copyout`: a part of the bytes is written, all of them if it succeeds; if it fails there is one that may not be written, or memory
has run out. -/
theorem copyoutLoop_bytes_wp : ∀ (fuel : Nat) {s : Memory} (dstva : Nat) (src : List Byte), Current p s → src.length ≤ fuel →
    Wp allowed (copyoutLoop p p.pagetable fuel dstva src) s fun ok t => (Served p s t ∧ Confined p s t ∧ ∀ a, p.writable t a = p.writable s a) ∧
      (∃ w, w <+: src ∧ Patched p s t dstva w ∧ (ok = true → w = src)) ∧
      (ok = true → ∀ i < src.length, p.writable s (dstva + i) = true) ∧
      (ok = false → t.nomem = true ∨ ∃ i < src.length, p.writable s (dstva + i) = false)
  | fuel, s, dstva, [], h, _ => by
    rw [copyoutLoop]
    exact Wp.pure ⟨⟨.refl h.toProper, .refl p s, fun _ => rfl⟩, ⟨[], nil_prefix, .of_shows (.refl p s) dstva, fun _ => rfl⟩,
      fun _ i hi => absurd hi (Nat.not_lt_zero i), fun hok => by cases hok⟩
  | 0, s, dstva, b :: src, h, hfuel => absurd hfuel (Nat.not_succ_le_zero src.length)
  | fuel + 1, s, dstva, b :: src, h, hfuel => by
    simp only [copyoutLoop]
    generalize hsrc : b :: src = bs at *
    have hpos : 0 < bs.length := by rw [← hsrc]; exact Nat.succ_pos _
    obtain ⟨n, hn, hnlen, hdst, hnfit, hnpos, hnext, hplace⟩ := chunk dstva bs.length
    rw [hn]
    -- nothing is written when the first byte cannot be
    have hstop : ∀ t, Served p s t → Shows p s t → Stays p s t → (t.nomem = true ∨ p.writable s (dstva + 0) = false) →
        (Served p s t ∧ Confined p s t ∧ ∀ a, p.writable t a = p.writable s a) ∧
          (∃ w, w <+: bs ∧ Patched p s t dstva w ∧ (false = true → w = bs)) ∧
          (false = true → ∀ i < bs.length, p.writable s (dstva + i) = true) ∧
          (false = false → t.nomem = true ∨ ∃ i < bs.length, p.writable s (dstva + i) = false) := fun t hserved hshows hstays hwhy =>
      ⟨⟨hserved, hstays.confined, fun a => (hshows a).2⟩, ⟨[], nil_prefix, .of_shows hshows dstva, fun hok => by cases hok⟩,
        fun hok => (by cases hok), fun _ => hwhy.imp_right fun hw => ⟨0, hpos, hw⟩⟩
    by_cases hva : MAXVA ≤ pgrounddown dstva
    · rw [if_pos hva]
      refine Wp.pure (hstop s (.refl h.toProper) (.refl p s) (fun _ _ hx => hx) (.inr ?_))
      have hhigh : MAXVA ≤ dstva := hva.trans (Nat.div_mul_le_self ..)
      rw [Nat.add_zero, Mm.writable_of_none (Mm.lookup_high hhigh)]
      exact decide_eq_false (Nat.not_lt.2 ((h.size.trans (by decide)).trans hva))
    · rw [if_neg hva]
      refine (userPage_bytes_wp h (dstva / PGSIZE)).bind ?_
      rintro r t ⟨⟨hserved, hshows, hstays⟩, ⟨rfl, hmiss⟩ | ⟨q, perm, f, rfl, hlow, hx, hu⟩⟩
      · exact Wp.pure (hstop t hserved hshows hstays (hmiss.imp_right fun hmiss => Mm.writable_of_byte (hmiss _ rfl)))
      · have hdiv : pgrounddown dstva / PGSIZE = dstva / PGSIZE := pgrounddown_div dstva
        obtain ⟨m, g, hwalk, -, hg, -, hgx⟩ := walk_mapped hserved.wf (Nat.lt_of_not_le hva) (hdiv.symm ▸ hx)
        refine Wp.bind_eq hwalk (Wp.bind_eq (readPte_eq hg _) ?_)
        rw [hgx]
        have hwrite : ∀ i < n, p.writable s (dstva + i) = perm.w := fun i hi => by
          rw [← (hshows _).2]
          exact (Fetched.byte hlow hx hu (hplace i hi).1).2
        cases hw : perm.w with
        | false =>
          refine Wp.pure (hstop t hserved hshows hstays (.inr ?_))
          rw [hwrite 0 (hnpos hpos), hw]
        | true =>
          rw [if_neg (by decide)]
          have htake : (bs.take n).length = n := by rw [length_take]; omega
          obtain ⟨hproper, hview, hspared⟩ := hserved.rewrite hx (overwrite f (dstva - pgrounddown dstva) (bs.take n))
          refine Wp.bind_eq (writeBytes_eq (hserved.bytes_of_space hx).2 _ _) ?_
          obtain ⟨hpatched, hwritable, hconfined⟩ := patched_of_write hlow hx hu hw (by rw [htake]; exact hnfit) hview
          have hlow' := (h.served hserved).low hlow hx hu
          have hserved' : Served p s (t.setPage q (.bytes (overwrite f (dstva - pgrounddown dstva) (bs.take n)))) := by
            refine hserved.trans ⟨hproper, hspared, fun v hv => ?_⟩
            rw [hview, update_of_ne (by omega)]
          refine (copyoutLoop_bytes_wp fuel _ (bs.drop n) (h.served hserved') ?_).mono ?_
          · have := hnpos hpos
            rw [length_drop]
            omega
          · rintro ok u ⟨⟨hserved'', hconfined', hwritable'⟩, ⟨w, hprefix, hpatched', hdone⟩, hok, hfail⟩
            have hw0 : ∀ a, p.writable (t.setPage q (.bytes (overwrite f (dstva - pgrounddown dstva) (bs.take n)))) a = p.writable s a :=
              fun a => (hwritable a).trans (hshows a).2
            have hrest : ∀ i < (bs.drop n).length, pgrounddown dstva + PGSIZE + i = dstva + (n + i) := fun i hi => by
              rw [length_drop] at hi
              rw [hnext (by omega), Nat.add_assoc]
            refine ⟨⟨hserved'.trans hserved'', (hstays.confined.trans hconfined).trans hconfined', fun a => (hwritable' a).trans (hw0 a)⟩,
              ⟨bs.take n ++ w, ?_, ?_, fun h => ?_⟩, fun hok' i hi => ?_, fun hok' => (hfail hok').imp_right ?_⟩
            · conv_rhs => rw [← take_append_drop n bs]
              exact prefix_append_right_inj _ |>.2 hprefix
            · refine Patched.append (t := t.setPage q (.bytes (overwrite f (dstva - pgrounddown dstva) (bs.take n)))) (fun a => ?_) ?_
              · have := hpatched a
                rw [show dstva / PGSIZE * PGSIZE + (dstva - pgrounddown dstva) = dstva from hdst.symm, (hshows a).1] at this
                exact this
              · rw [htake]
                by_cases hmore : n < bs.length
                · rw [← hnext hmore]
                  exact hpatched'
                · have hnil : bs.drop n = [] := drop_eq_nil_of_le (Nat.not_lt.1 hmore)
                  rw [hnil, prefix_nil] at hprefix
                  subst hprefix
                  exact hpatched'.nil_at _
            · rw [hdone h, take_append_drop]
            · by_cases hin : i < n
              · rw [hwrite i hin, hw]
              · have := hok hok' (i - n) (by rw [length_drop]; omega)
                rw [hw0, hrest (i - n) (by rw [length_drop]; omega)] at this
                rwa [show n + (i - n) = i by omega] at this
            · rintro ⟨i, hi, hno⟩
              refine ⟨n + i, by rw [length_drop] at hi; omega, ?_⟩
              rw [hw0, hrest i hi] at hno
              exact hno

end copies

end Xv6.Vm
