import Xv6.Lemmas.VmString

/-!
# Copies between the kernel and the user

`copyin` and `copyout` succeed exactly where every byte may be used, copy exactly those bytes, and touch no page that is not for the user.
`copyinstr` does as `copyin` would, except where the string ends on a page that has not been touched yet.
-/

namespace Xv6.Vm

open Lib List

/-- What `copyin` of `len` bytes at `srcva` gives, and leaves. -/
structure CopiedIn (p : Mm) (s : Memory) (srcva len : Nat) (r : Option (List Byte)) (t : Memory) : Prop where
  succeeds : t.nomem = false → (r ≠ none ↔ ∀ i < len, p.byte s (srcva + i) ≠ none)
  bytes : ∀ b, r = some b → b.length = len ∧ ∀ i < len, p.byte s (srcva + i) = b[i]?
  same : ∀ a, p.byte t a = p.byte s a
  stays : Stays p s t
  others : ∀ q, Foreign s p.pagetable q → t.mem q = s.mem q

/-- What `copyout` of `src` to `dstva` gives, and leaves. -/
structure CopiedOut (p : Mm) (s : Memory) (dstva : Nat) (src : List Byte) (ok : Bool) (t : Memory) : Prop where
  succeeds : t.nomem = false → (ok = true ↔ ∀ i < src.length, p.writable s (dstva + i) = true)
  written : ok = true → Patched p s t dstva src
  part : ∃ w, w <+: src ∧ Patched p s t dstva w
  confined : Confined p s t
  others : ∀ q, Foreign s p.pagetable q → t.mem q = s.mem q

namespace CopyAux

variable {p : Mm} {s t : Memory} {srcva len max : Nat}

theorem copyin_exact (h : Current p s) (srcva len : Nat) :
    ∃ r t, copyin p p.pagetable srcva len s = .ok (r, t) ∧ CopiedIn p s srcva len r t := by
  obtain ⟨r, t, hrun, ⟨hserved, hshows, hstays⟩, hok, hfail⟩ := (copyinLoop_bytes_wp len srcva len h (Nat.le_refl len)).returns
  refine ⟨r, t, hrun, fun hmem => ⟨fun hr i hi hnone => ?_, fun hall hr => ?_⟩, hok, fun a => (hshows a).1, hstays, fun q hq => (hserved.spared q hq).1⟩
  · obtain ⟨b, rfl⟩ := Option.ne_none_iff_exists'.1 hr
    obtain ⟨hlen, hbytes⟩ := hok b rfl
    rw [hbytes i hi] at hnone
    have := getElem?_eq_none_iff.1 hnone
    omega
  · rcases hfail hr with hnomem | ⟨i, hi, hnone⟩
    · rw [hmem] at hnomem
      cases hnomem
    · exact hall i hi hnone

theorem copyout_exact (h : Current p s) (dstva : Nat) (src : List Byte) :
    ∃ ok t, copyout p p.pagetable dstva src s = .ok (ok, t) ∧ CopiedOut p s dstva src ok t := by
  obtain ⟨ok, t, hrun, ⟨hserved, hconfined, -⟩, ⟨w, hprefix, hpatched, hdone⟩, hok, hfail⟩ :=
    (copyoutLoop_bytes_wp src.length dstva src h (Nat.le_refl _)).returns
  refine ⟨ok, t, hrun, fun hmem => ⟨hok, fun hall => ?_⟩, fun hok => hdone hok ▸ hpatched, ⟨w, hprefix, hpatched⟩, hconfined, fun q hq => (hserved.spared q hq).1⟩
  cases ok with
  | true => rfl
  | false =>
    rcases hfail rfl with hnomem | ⟨i, hi, hno⟩
    · rw [hmem] at hnomem
      cases hnomem
    · rw [hall i hi] at hno
      cases hno

/-- What is read is determined by the bytes that the user has. -/
theorem copiedIn_unique {s' t' : Memory} {r r' : Option (List Byte)} (h : CopiedIn p s srcva len r t)
    (h' : CopiedIn p s' srcva len r' t') (hsame : ∀ a, p.byte s' a = p.byte s a) (hmem : t.nomem = false) (hmem' : t'.nomem = false) : r' = r := by
  have hiff : r' ≠ none ↔ r ≠ none := by
    rw [h.succeeds hmem, h'.succeeds hmem']
    simp only [hsame]
  cases r with
  | none =>
    by_contra hne
    exact hiff.1 hne rfl
  | some b =>
    obtain ⟨b', rfl⟩ := Option.ne_none_iff_exists'.1 (hiff.2 (Option.some_ne_none b))
    obtain ⟨hlen, hbytes⟩ := h.bytes b rfl
    obtain ⟨hlen', hbytes'⟩ := h'.bytes b' rfl
    refine congrArg some (ext_getElem? fun i => ?_)
    by_cases hi : i < len
    · rw [← hbytes i hi, ← hbytes' i hi, hsame]
    · rw [getElem?_eq_none (by omega), getElem?_eq_none (by omega)]

end CopyAux

open CopyAux

/-- `copyin` and `copyout` are exact, for every address and length. `copyin` succeeds, with memory available, exactly if the user has every
byte, and gives those bytes; what it gives does not depend on anything else, and the user has the same as before. `copyout` succeeds
exactly if every byte may be written, and then the user has the source there and otherwise what was there before; if it fails, a first
part of the source at most has been written. A page that is mapped stays mapped, no page changes unless the user may write to it, and the
pages of others do not change. -/
theorem copies_exact {p : Mm} {s : Memory} (h : Current p s) :
    (∀ srcva len, ∃ r t, copyin p p.pagetable srcva len s = .ok (r, t) ∧ CopiedIn p s srcva len r t ∧
      ∀ s' r' t', Current p s' → (∀ a, p.byte s' a = p.byte s a) → copyin p p.pagetable srcva len s' = .ok (r', t') →
        t.nomem = false → t'.nomem = false → r' = r) ∧
    ∀ dstva src, ∃ ok t, copyout p p.pagetable dstva src s = .ok (ok, t) ∧ CopiedOut p s dstva src ok t := by
  refine ⟨fun srcva len => ?_, fun dstva src => copyout_exact h dstva src⟩
  obtain ⟨r, t, hrun, hcopied⟩ := copyin_exact h srcva len
  refine ⟨r, t, hrun, hcopied, fun s' r' t' h' hsame hrun' => ?_⟩
  obtain ⟨r₁, t₁, hrun₁, hcopied'⟩ := copyin_exact h' srcva len
  obtain ⟨rfl, rfl⟩ := Prod.mk.inj (Except.ok.inj (hrun₁.symm.trans hrun'))
  exact copiedIn_unique hcopied hcopied' hsame

/-! ## A process that has not touched its memory -/

/-- Page 1 is an empty page table, and seven pages are free. -/
def lazyMemory : Memory := ⟨fun q => if q = 1 then .table fun _ => .zero else .bytes fun _ => 0, [2, 3, 4, 5, 6, 7, 8], fun _ => false, 1, 9, 100, false⟩

/-- A process with memory of two pages. -/
def lazyProc : Mm := ⟨8192, 1, 9⟩

theorem lazyMemory_bare : Proper lazyMemory 1 ∧ Inner lazyMemory.mem 1 ∧ (∀ q ∈ tablePages lazyMemory.mem 1, q = 1) ∧ ∀ v, leaf lazyMemory.mem 1 v = none :=
  bare_table rfl (by decide) (by decide) (by decide)

theorem lazyMemory_leaf (v : Nat) : leaf lazyMemory.mem 1 v = none := lazyMemory_bare.2.2.2 v

theorem lazyMemory_current : Current lazyProc lazyMemory := by
  refine ⟨lazyMemory_bare.1, by decide, fun v x _ hx => ?_⟩
  rw [show lazyProc.pagetable = 1 from rfl, space_eq_none.2 (lazyMemory_leaf v)] at hx
  cases hx

theorem copies_exact_lazy : Current lazyProc lazyMemory ∧
    (∃ t, copyin lazyProc 1 4094 4 lazyMemory = .ok (some [0, 0, 0, 0], t) ∧ t.nomem = false) ∧
    (∃ t, copyout lazyProc 1 8190 [1, 2, 3] lazyMemory = .ok (false, t) ∧ lazyProc.byte t 8191 = some 2 ∧ lazyProc.byte t 8189 = some 0) := by
  obtain ⟨hin, hout⟩ := copies_exact lazyMemory_current
  refine ⟨lazyMemory_current, ?_, ?_⟩
  · obtain ⟨r, t, hrun, -, -⟩ := hin 4094 4
    have hrun : copyin lazyProc 1 4094 4 lazyMemory = .ok (r, t) := hrun
    have hview : (copyin lazyProc 1 4094 4 lazyMemory).toOption.map (fun x => (x.1, x.2.nomem)) = some (some [0, 0, 0, 0], false) := by decide +kernel
    rw [hrun] at hview
    obtain ⟨hr, hmem⟩ := Prod.mk.inj (Option.some.inj hview)
    exact ⟨t, hr ▸ hrun, hmem⟩
  · obtain ⟨ok, t, hrun, -⟩ := hout 8190 [1, 2, 3]
    have hrun : copyout lazyProc 1 8190 [1, 2, 3] lazyMemory = .ok (ok, t) := hrun
    have hview : (copyout lazyProc 1 8190 [1, 2, 3] lazyMemory).toOption.map
        (fun x => (x.1, lazyProc.byte x.2 8191, lazyProc.byte x.2 8189)) = some (false, some 2, some 0) := by decide +kernel
    rw [hrun] at hview
    obtain ⟨hok, hbytes⟩ := Prod.mk.inj (Option.some.inj hview)
    obtain ⟨h1, h2⟩ := Prod.mk.inj hbytes
    exact ⟨t, hok ▸ hrun, h1, h2⟩

/-! ## Strings -/

/-- The string that `copyinstr` finds is the one that `copyin` gives with its first NUL, if it fits. -/
def StringAgrees (p : Mm) (s : Memory) (srcva max : Nat) : Prop :=
  ∀ b, copyinstr p.pagetable srcva max s = .ok (some b, s) ↔
    b.length + 1 ≤ max ∧ 0 ∉ b ∧ ∃ t, copyin p p.pagetable srcva (b.length + 1) s = .ok (some (b ++ [0]), t)

/-- A string at `srcva` goes on, with bytes that are mapped and not NUL, up to a page that has not been touched. -/
def EndsUntouched (p : Mm) (s : Memory) (srcva max : Nat) : Prop :=
  ∃ k < max, (∀ i < k, ∃ c, p.mapped s (srcva + i) = some c ∧ c ≠ 0) ∧ p.Untouched s (srcva + k)

namespace CopyAux

variable {p : Mm} {s t : Memory} {srcva len max : Nat}

theorem copyin_string_iff {b : List Byte} (h : Current p s)
    (hmem : ∀ r t, copyin p p.pagetable srcva (b.length + 1) s = .ok (r, t) → t.nomem = false) :
    (∃ t, copyin p p.pagetable srcva (b.length + 1) s = .ok (some (b ++ [0]), t)) ↔
      ∀ i < (b ++ [0]).length, p.byte s (srcva + i) = (b ++ [0])[i]? := by
  obtain ⟨r, t, hrun, hcopied⟩ := copyin_exact h srcva (b.length + 1)
  have hlen : (b ++ [0]).length = b.length + 1 := by simp
  constructor
  · rintro ⟨t', hrun'⟩
    obtain ⟨rfl, rfl⟩ := Prod.mk.inj (Except.ok.inj (hrun.symm.trans hrun'))
    rw [hlen]
    exact (hcopied.bytes _ rfl).2
  · intro hbytes
    rw [hlen] at hbytes
    have hsome : r ≠ none := (hcopied.succeeds (hmem r t hrun)).2 fun i hi hnone => by
      rw [hbytes i hi, getElem?_eq_none_iff] at hnone
      omega
    obtain ⟨b', rfl⟩ := Option.ne_none_iff_exists'.1 hsome
    obtain ⟨hlen', hbytes'⟩ := hcopied.bytes b' rfl
    have heq : b' = b ++ [0] := ext_getElem? fun i => by
      by_cases hi : i < b.length + 1
      · rw [← hbytes i hi, ← hbytes' i hi]
      · rw [getElem?_eq_none (by omega), getElem?_eq_none (by omega)]
    exact ⟨t, heq ▸ hrun⟩

theorem copyinstr_eq (h : Current p s) (srcva max : Nat) :
    copyinstr p.pagetable srcva max s = .ok (stringAt (p.mapped s) max srcva, s) := copyinstrLoop_eq h.toProper max srcva max (Nat.le_refl max)

theorem stringAgrees_iff (h : Current p s) (hmem : ∀ len ≤ max, ∀ r t, copyin p p.pagetable srcva len s = .ok (r, t) → t.nomem = false) :
    StringAgrees p s srcva max ↔ stringAt (p.mapped s) max srcva = stringAt (p.byte s) max srcva := by
  have hright : ∀ b, (b.length + 1 ≤ max ∧ 0 ∉ b ∧ ∃ t, copyin p p.pagetable srcva (b.length + 1) s = .ok (some (b ++ [0]), t)) ↔
      stringAt (p.byte s) max srcva = some b := fun b => by
    rw [stringAt_iff]
    refine and_congr_right fun hlen => and_congr_right fun _ => ?_
    exact copyin_string_iff h (hmem _ hlen)
  have hleft : ∀ b, copyinstr p.pagetable srcva max s = .ok (some b, s) ↔ stringAt (p.mapped s) max srcva = some b := fun b => by
    rw [copyinstr_eq h]
    exact ⟨fun heq => (Prod.mk.inj (Except.ok.inj heq)).1, fun heq => by rw [heq]⟩
  unfold StringAgrees
  constructor
  · intro hagrees
    refine Option.ext fun b => ?_
    rw [← hleft, hagrees b, hright]
  · intro heq b
    rw [hleft, hright, heq]

end CopyAux

/-- For every address space of a process, every address and every bound, with memory available: `copyinstr` agrees with `copyin` on strings
if and only if the string does not go on to a page that has not been touched. In any case it returns, it changes nothing of the memory,
and it stores no more than `max` bytes, which are the string and its NUL if it succeeds. -/
theorem copyinstr_agrees_iff {p : Mm} {s : Memory} {srcva max : Nat} (h : Current p s)
    (hmem : ∀ len ≤ max, ∀ r t, copyin p p.pagetable srcva len s = .ok (r, t) → t.nomem = false) :
    (StringAgrees p s srcva max ↔ ¬EndsUntouched p s srcva max) ∧
      ∃ r got w, copyinstr p.pagetable srcva max s = .ok (r, s) ∧ copyinstrDst p.pagetable srcva max s = .ok ((got, w), s) ∧ w.length ≤ max ∧
        (got = false ∧ r = none ∨ got = true ∧ ∃ b, r = some b ∧ w = b ++ [0]) := by
  constructor
  · rw [stringAgrees_iff h hmem]
    exact stringAt_eq_iff Mm.mapped_cases max srcva
  · obtain ⟨hlen, hcase⟩ := @storedAt_spec (p.mapped s) max srcva
    exact ⟨_, _, _, copyinstr_eq h srcva max, copyinstrDstLoop_eq h.toProper max srcva max (Nat.le_refl max), hlen, hcase⟩

/-- The memory after "hi" has been written to address 0. -/
def greeting : Memory := ((copyout lazyProc 1 0 [104, 105, 0] lazyMemory).toOption.map Prod.snd).getD lazyMemory

theorem greeting_current : Current lazyProc greeting := by
  obtain ⟨ok, t, hrun, ⟨hserved, -, -⟩, -, -, -⟩ := (copyoutLoop_bytes_wp 3 0 [104, 105, 0] lazyMemory_current (Nat.le_refl 3)).returns
  have hrun : copyout lazyProc 1 0 [104, 105, 0] lazyMemory = .ok (ok, t) := hrun
  have heq : greeting = t := by
    rw [greeting, hrun]
    rfl
  rw [heq]
  exact lazyMemory_current.served hserved

/-- A copy that can be computed, and leaves memory available. -/
theorem nomem_of_run {p : Mm} {s : Memory} {srcva : Nat} {max : Nat}
    (h : (range (max + 1)).all (fun len => (copyin p p.pagetable srcva len s).toOption.all fun x => !x.2.nomem) = true) :
    ∀ len ≤ max, ∀ r t, copyin p p.pagetable srcva len s = .ok (r, t) → t.nomem = false := by
  intro len hlen r t hrun
  have hall := all_eq_true.1 h len (mem_range.2 (Nat.lt_succ_of_le hlen))
  rw [hrun] at hall
  simpa [Except.toOption] using hall

theorem copyinstr_agrees_iff_greeting : copyinstr 1 0 5 greeting = .ok (some [104, 105], greeting) ∧ StringAgrees lazyProc greeting 0 5 := by
  have hmem : ∀ len ≤ 5, ∀ r t, copyin lazyProc lazyProc.pagetable 0 len greeting = .ok (r, t) → t.nomem = false := nomem_of_run (by decide +kernel)
  obtain ⟨hiff, -⟩ := copyinstr_agrees_iff greeting_current hmem
  refine ⟨?_, hiff.2 ?_⟩
  · rw [show (1 : Nat) = lazyProc.pagetable from rfl, copyinstr_eq greeting_current]
    have hstring : stringAt (lazyProc.mapped greeting) 5 0 = some [104, 105] := by decide +kernel
    rw [hstring]
  · rintro ⟨k, hk, -, hnone, -⟩
    have hall : ∀ k < 5, (lazyProc.lookup greeting (0 + k)).isSome = true := by decide +kernel
    have := hall k hk
    rw [hnone] at this
    cases this

/-- Memory that a process has asked for and not used is full of NULs: `copyin` gives one, and `copyinstr` fails. -/
theorem copyinstr_untouched : Current lazyProc lazyMemory ∧
    (∀ len ≤ 1, ∀ r t, copyin lazyProc 1 0 len lazyMemory = .ok (r, t) → t.nomem = false) ∧ copyinstr 1 0 1 lazyMemory = .ok (none, lazyMemory) ∧
    (∃ t, copyin lazyProc 1 0 1 lazyMemory = .ok (some [0], t)) ∧ ¬StringAgrees lazyProc lazyMemory 0 1 := by
  have hnone : copyinstr 1 0 1 lazyMemory = .ok (none, lazyMemory) := by
    rw [show (1 : Nat) = lazyProc.pagetable from rfl, copyinstr_eq lazyMemory_current]
    have hstring : stringAt (lazyProc.mapped lazyMemory) 1 0 = none := by decide +kernel
    exact congrArg (fun r => Except.ok (r, lazyMemory)) hstring
  have hin : ∃ t, copyin lazyProc 1 0 1 lazyMemory = .ok (some [0], t) := by
    obtain ⟨r, t, hrun, -⟩ := copyin_exact lazyMemory_current 0 1
    have hrun : copyin lazyProc 1 0 1 lazyMemory = .ok (r, t) := hrun
    have hview : (copyin lazyProc 1 0 1 lazyMemory).toOption.map Prod.fst = some (some [0]) := by decide +kernel
    rw [hrun] at hview
    have hr : r = some [0] := Option.some.inj hview
    exact ⟨t, hr ▸ hrun⟩
  refine ⟨lazyMemory_current, nomem_of_run (p := lazyProc) (by decide +kernel), hnone, hin, fun hagrees => ?_⟩
  have hsome : copyinstr 1 0 1 lazyMemory = .ok (some [], lazyMemory) := (hagrees []).2 ⟨Nat.le_refl 1, List.not_mem_nil, hin⟩
  rw [hnone] at hsome
  cases (Prod.mk.inj (Except.ok.inj hsome)).1

end Xv6.Vm
