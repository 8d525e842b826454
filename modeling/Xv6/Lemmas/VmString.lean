import Xv6.Lemmas.VmBytes

/-!
# Strings of the user

`copyinstr` reads the string at an address, as far as the pages that are mapped show it (`stringAt`); what it stores at `dst` is that
string and its NUL, or the bytes up to where it gives up.
-/

namespace Xv6.Vm

open Lib List Option

/-- The byte of a page that is mapped for the user. -/
def Mm.mapped (p : Mm) (s : Memory) (a : Nat) : Option Byte :=
  (p.lookup s a).bind fun x => if x.2.1.u then some (x.2.2 (a % PGSIZE)) else none

/-- The address is on a page that is not mapped yet and starts below the size. -/
def Mm.Untouched (p : Mm) (s : Memory) (a : Nat) : Prop := p.lookup s a = none ∧ pgrounddown a < p.sz

/-- The string at `a`, if its NUL is among the first `max` bytes. -/
def stringAt (byte : Nat → Option Byte) : Nat → Nat → Option (List Byte)
  | 0, _ => none
  | max + 1, a => (byte a).bind fun c => if c = 0 then some [] else (stringAt byte max (a + 1)).map (c :: ·)

/-- What is stored when the string at `a` is copied: whether the NUL is reached, and the bytes. -/
def storedAt (byte : Nat → Option Byte) : Nat → Nat → Bool × List Byte
  | 0, _ => (false, [])
  | max + 1, a =>
    match byte a with
    | none => (false, [])
    | some c => if c = 0 then (true, [0]) else ((storedAt byte max (a + 1)).1, c :: (storedAt byte max (a + 1)).2)

section strings

variable {byte byte' : Nat → Option Byte} {max a : Nat}

theorem stringAt_none (h : byte a = none) : stringAt byte max a = none := by
  cases max with
  | zero => rfl
  | succ max => rw [stringAt, h, bind_none]

theorem storedAt_none (h : byte a = none) : storedAt byte max a = (false, []) := by
  cases max with
  | zero => rfl
  | succ max => rw [storedAt, h]

/-- The first bytes of a list of bytes, and the others. -/
theorem bytes_cons {c : Byte} {b : List Byte} (h : ∀ i < (c :: b).length, byte (a + i) = (c :: b)[i]?) :
    byte a = some c ∧ ∀ i < b.length, byte (a + 1 + i) = b[i]? := by
  refine ⟨h 0 (Nat.succ_pos _), fun i hi => ?_⟩
  have := h (i + 1) (Nat.succ_lt_succ hi)
  rwa [getElem?_cons_succ, Nat.add_comm i 1, ← Nat.add_assoc] at this

theorem stringAt_chunk : ∀ (b : List Byte) (a k : Nat), (∀ i < b.length, byte (a + i) = b[i]?) →
    stringAt byte (b.length + k) a = if b.contains 0 then some (b.takeWhile (· ≠ 0)) else (stringAt byte k (a + b.length)).map (b ++ ·)
  | [], a, k, _ => by
    rw [length_nil, Nat.zero_add, Nat.add_zero, if_neg (by simp)]
    simp
  | c :: b, a, k, h => by
    obtain ⟨hc, hb⟩ := bytes_cons h
    have hlen : (c :: b).length + k = (b.length + k) + 1 := by rw [length_cons]; omega
    rw [hlen, stringAt, hc, bind_some]
    by_cases hzero : c = 0
    · subst hzero
      simp
    · have hne : (0 : Byte) ≠ c := fun heq => hzero heq.symm
      rw [if_neg hzero, stringAt_chunk b (a + 1) k hb, length_cons, Nat.add_right_comm a 1 b.length, Nat.add_assoc a b.length 1]
      by_cases hin : b.contains 0
      · rw [if_pos hin, if_pos (by rw [contains_cons, hin, Bool.or_true]), takeWhile_cons_of_pos (by simpa using hzero)]
        rfl
      · rw [if_neg hin, if_neg (by rw [contains_cons, Bool.or_eq_true]; rintro (heq | heq); exacts [hne (by simpa using heq), hin heq]), Option.map_map]
        rfl

theorem storedAt_chunk : ∀ (b : List Byte) (a k : Nat), (∀ i < b.length, byte (a + i) = b[i]?) →
    storedAt byte (b.length + k) a = if (storeString b).1 then storeString b
      else ((storedAt byte k (a + b.length)).1, (storeString b).2 ++ (storedAt byte k (a + b.length)).2)
  | [], a, k, _ => by simp [storeString]
  | c :: b, a, k, h => by
    obtain ⟨hc, hb⟩ := bytes_cons h
    have hlen : (c :: b).length + k = (b.length + k) + 1 := by rw [length_cons]; omega
    rw [hlen, storedAt, hc]
    by_cases hzero : c = 0
    · subst hzero
      simp [storeString]
    · simp only [storeString, if_neg hzero]
      rw [storedAt_chunk b (a + 1) k hb, length_cons, Nat.add_right_comm a 1 b.length, Nat.add_assoc a b.length 1]
      by_cases hin : (storeString b).1 = true
      · rw [if_pos hin, if_pos hin]
      · rw [if_neg hin, if_neg hin]
        rfl

/-- What is stored is the string and its NUL, or it is not reached. -/
theorem storedAt_spec : ∀ (max a : Nat), (storedAt byte max a).2.length ≤ max ∧
    (((storedAt byte max a).1 = false ∧ stringAt byte max a = none) ∨
      (storedAt byte max a).1 = true ∧ ∃ b, stringAt byte max a = some b ∧ (storedAt byte max a).2 = b ++ [0])
  | 0, a => ⟨Nat.le_refl 0, .inl ⟨rfl, rfl⟩⟩
  | max + 1, a => by
    rw [storedAt, stringAt]
    cases hc : byte a with
    | none => exact ⟨Nat.zero_le _, .inl ⟨rfl, rfl⟩⟩
    | some c =>
      by_cases hzero : c = 0
      · simp only [bind_some, if_pos hzero]
        exact ⟨Nat.succ_le_succ (Nat.zero_le max), .inr ⟨trivial, [], rfl, rfl⟩⟩
      · simp only [bind_some, if_neg hzero]
        obtain ⟨hlen, hcase⟩ := storedAt_spec max (a + 1)
        refine ⟨Nat.succ_le_succ hlen, hcase.imp ?_ ?_⟩
        · rintro ⟨hgot, hnone⟩
          exact ⟨hgot, by rw [hnone]; rfl⟩
        · rintro ⟨hgot, b, hb, hstored⟩
          exact ⟨hgot, c :: b, by rw [hb]; rfl, by rw [hstored]; rfl⟩

/-- A string is its bytes, none of them NUL, and a NUL. -/
theorem stringAt_iff : ∀ (max a : Nat) (b : List Byte), stringAt byte max a = some b ↔
    b.length + 1 ≤ max ∧ 0 ∉ b ∧ ∀ i < (b ++ [0]).length, byte (a + i) = (b ++ [0])[i]?
  | 0, a, b => by
    simp only [stringAt, Nat.le_zero, Nat.add_one_ne_zero, false_and, reduceCtorEq]
  | max + 1, a, [] => by
    rw [stringAt]
    constructor
    · intro h
      obtain ⟨c, hc, hstring⟩ := bind_eq_some_iff.1 h
      by_cases hzero : c = 0
      · refine ⟨by simp, by simp, fun i hi => ?_⟩
        have hi : i = 0 := by simpa using hi
        subst hi
        rw [Nat.add_zero, hc, hzero]
        rfl
      · rw [if_neg hzero] at hstring
        obtain ⟨b, -, hb⟩ := map_eq_some_iff.1 hstring
        cases hb
    · rintro ⟨-, -, hbytes⟩
      have h0 : byte a = some 0 := hbytes 0 (Nat.succ_pos 0)
      rw [h0, bind_some, if_pos rfl]
  | max + 1, a, c :: b => by
    rw [stringAt]
    have ih := stringAt_iff max (a + 1) b
    constructor
    · intro h
      obtain ⟨c', hc, hstring⟩ := bind_eq_some_iff.1 h
      by_cases hzero : c' = 0
      · rw [if_pos hzero] at hstring
        cases hstring
      · rw [if_neg hzero] at hstring
        obtain ⟨b', hb', heq⟩ := map_eq_some_iff.1 hstring
        obtain ⟨rfl, rfl⟩ := cons.inj heq
        obtain ⟨hlen, hnul, hbytes⟩ := ih.1 hb'
        refine ⟨Nat.succ_le_succ hlen, not_mem_cons_of_ne_of_not_mem (fun heq => hzero heq.symm) hnul, fun i hi => ?_⟩
        cases i with
        | zero => exact hc
        | succ i =>
          rw [cons_append, getElem?_cons_succ, ← hbytes i (Nat.lt_of_succ_lt_succ hi), Nat.add_assoc, Nat.add_comm 1 i]
    · rintro ⟨hlen, hnul, hbytes⟩
      obtain ⟨hc, hrest⟩ : byte a = some c ∧ ∀ i < (b ++ [0]).length, byte (a + 1 + i) = (b ++ [0])[i]? := bytes_cons hbytes
      obtain ⟨hne, hnul⟩ := not_or.1 (fun h => hnul (mem_cons.2 h))
      rw [hc, bind_some, if_neg fun heq => hne heq.symm, ih.2 ⟨Nat.le_of_succ_le_succ hlen, hnul, hrest⟩]
      rfl

/-- Two ways to see the bytes, of which the second also has a NUL where the first has nothing, show the same string unless that is where
the string ends. -/
theorem stringAt_eq_iff {Extra : Nat → Prop} (h : ∀ a, byte' a = byte a ∧ ¬Extra a ∨ byte a = none ∧ byte' a = some 0 ∧ Extra a) : ∀ (max a : Nat),
    stringAt byte max a = stringAt byte' max a ↔ ¬∃ k < max, (∀ i < k, ∃ c, byte (a + i) = some c ∧ c ≠ 0) ∧ Extra (a + k)
  | 0, a => by
    refine ⟨fun _ => ?_, fun _ => rfl⟩
    rintro ⟨k, hk, -⟩
    exact Nat.not_lt_zero k hk
  | max + 1, a => by
    rw [stringAt, stringAt]
    rcases h a with ⟨hsame, hno⟩ | ⟨hnone, hzero, hextra⟩
    · rw [hsame]
      cases hc : byte a with
      | none =>
        refine ⟨fun _ => ?_, fun _ => rfl⟩
        rintro ⟨k, hk, hall, hextra⟩
        cases k with
        | zero => exact hno hextra
        | succ k =>
          obtain ⟨c, hc', -⟩ := hall 0 (Nat.succ_pos k)
          rw [Nat.add_zero, hc] at hc'
          cases hc'
      | some c =>
        rw [bind_some, bind_some]
        by_cases hzero : c = 0
        · rw [if_pos hzero, if_pos hzero]
          refine ⟨fun _ => ?_, fun _ => rfl⟩
          rintro ⟨k, hk, hall, hextra⟩
          cases k with
          | zero => exact hno hextra
          | succ k =>
            obtain ⟨c', hc', hne⟩ := hall 0 (Nat.succ_pos k)
            rw [Nat.add_zero, hc] at hc'
            exact hne ((some.inj hc').symm.trans hzero)
        · rw [if_neg hzero, if_neg hzero]
          have hinj : Function.Injective (Option.map (c :: ·) : Option (List Byte) → _) := Option.map_injective (cons_injective)
          rw [hinj.eq_iff, stringAt_eq_iff h max (a + 1), not_iff_not]
          constructor
          · rintro ⟨k, hk, hall, hextra⟩
            refine ⟨k + 1, Nat.succ_lt_succ hk, fun i hi => ?_, by rwa [Nat.add_comm k 1, ← Nat.add_assoc]⟩
            cases i with
            | zero => exact ⟨c, hc, hzero⟩
            | succ i =>
              rw [Nat.add_comm i 1, ← Nat.add_assoc]
              exact hall i (Nat.lt_of_succ_lt_succ hi)
          · rintro ⟨k, hk, hall, hextra⟩
            cases k with
            | zero => exact absurd hextra hno
            | succ k =>
              refine ⟨k, Nat.lt_of_succ_lt_succ hk, fun i hi => ?_, by rwa [Nat.add_comm k 1, ← Nat.add_assoc] at hextra⟩
              have := hall (i + 1) (Nat.succ_lt_succ hi)
              rwa [Nat.add_comm i 1, ← Nat.add_assoc] at this
    · rw [hnone, hzero, bind_none, bind_some, if_pos rfl]
      refine ⟨fun heq => (by cases heq), fun hno => absurd ⟨0, Nat.succ_pos max, ?_, hextra⟩ hno⟩
      exact fun i hi => absurd hi (Nat.not_lt_zero i)

end strings

section copyinstr

variable {p : Mm} {s : Memory}

/-- The user has a NUL where a page has not been touched. -/
theorem Mm.mapped_cases (a : Nat) :
    p.byte s a = p.mapped s a ∧ ¬p.Untouched s a ∨ p.mapped s a = none ∧ p.byte s a = some 0 ∧ p.Untouched s a := by
  unfold Mm.mapped Mm.Untouched
  cases hx : p.lookup s a with
  | some x =>
    rw [Mm.byte_of_some hx]
    exact .inl ⟨rfl, fun h => by cases h.1⟩
  | none =>
    rw [Mm.byte_of_none hx, bind_none]
    by_cases hlt : pgrounddown a < p.sz
    · rw [if_pos hlt]
      exact .inr ⟨rfl, rfl, rfl, hlt⟩
    · rw [if_neg hlt]
      exact .inl ⟨rfl, fun h => hlt h.2⟩

/-- What `copyinstr` finds at a page: nothing that is mapped for the user, or its bytes. -/
theorem walkaddr_mapped (h : Proper s p.pagetable) (va : Nat) :
    walkaddr p.pagetable (pgrounddown va) s = .ok (none, s) ∧ (∀ a, a / PGSIZE = va / PGSIZE → p.mapped s a = none) ∨
      ∃ q f, walkaddr p.pagetable (pgrounddown va) s = .ok (some q, s) ∧ s.mem q = .bytes f ∧
        ∀ a, a / PGSIZE = va / PGSIZE → p.mapped s a = some (f (a % PGSIZE)) := by
  unfold pgrounddown
  generalize va / PGSIZE = v
  by_cases hlow : v * PGSIZE < MAXVA
  · rw [walkaddr_eq h.wf hlow, page_div v]
    unfold Mm.mapped
    cases hx : space s.mem p.pagetable v with
    | none =>
      refine .inl ⟨rfl, fun a ha => ?_⟩
      rw [Mm.lookup_eq ha hlow, hx, bind_none]
    | some x =>
      obtain ⟨e, he, rfl⟩ := map_eq_some_iff.1 hx
      obtain ⟨f, hf⟩ := h.bytes v e he
      rw [filter_some]
      cases hu : e.flags.u with
      | false =>
        refine .inl ⟨rfl, fun a ha => ?_⟩
        rw [Mm.lookup_eq ha hlow, hx, bind_some, hu, if_neg Bool.false_ne_true]
      | true =>
        refine .inr ⟨e.ppn, f, rfl, hf, fun a ha => ?_⟩
        rw [Mm.lookup_eq ha hlow, hx, bind_some, hu, if_pos rfl, hf]
        rfl
  · refine .inl ⟨?_, fun a ha => ?_⟩
    · rw [walkaddr, if_pos (by omega)]
      rfl
    · unfold Mm.mapped
      rw [Mm.lookup_high (Nat.not_lt.1 fun hlt => hlow ((lt_MAXVA_iff ha).1 hlt)), bind_none]

/-- What an iteration does: there is no page for the user, or bytes are read up to the end of the page. -/
theorem read_chunk (h : Proper s p.pagetable) (srcva max : Nat) :
    walkaddr p.pagetable (pgrounddown srcva) s = .ok (none, s) ∧ p.mapped s srcva = none ∨
      ∃ q b, walkaddr p.pagetable (pgrounddown srcva) s = .ok (some q, s) ∧
        readBytes q (srcva - pgrounddown srcva) (min (PGSIZE - (srcva - pgrounddown srcva)) (max + 1)) s = .ok (b, s) ∧
        min (PGSIZE - (srcva - pgrounddown srcva)) (max + 1) = b.length ∧ b.length ≤ max + 1 ∧ 0 < b.length ∧
        (b.length < max + 1 → pgrounddown srcva + PGSIZE = srcva + b.length) ∧ ∀ i < b.length, p.mapped s (srcva + i) = b[i]? := by
  obtain ⟨n, hn, hle, -, -, hpos, hnext, hplace⟩ := chunk srcva (max + 1)
  rcases walkaddr_mapped h srcva with ⟨hwalk, hnone⟩ | ⟨q, f, hwalk, hf, hmapped⟩
  · exact .inl ⟨hwalk, hnone srcva rfl⟩
  · have hlen : ((range n).map fun j => f (srcva - pgrounddown srcva + j)).length = n := by rw [length_map, length_range]
    rw [hn]
    refine .inr ⟨q, _, hwalk, readBytes_eq hf _ _, hlen.symm, hlen.le.trans hle, hlen.symm ▸ hpos (Nat.succ_pos max), hlen.symm ▸ hnext, fun i hi => ?_⟩
    rw [hlen] at hi
    rw [hmapped _ (hplace i hi).1, (hplace i hi).2]
    simp [hi]

theorem copyinstrLoop_eq (h : Proper s p.pagetable) : ∀ (fuel srcva max : Nat), max ≤ fuel →
    copyinstrLoop p.pagetable fuel srcva max s = .ok (stringAt (p.mapped s) max srcva, s)
  | _, srcva, 0, _ => by
    rw [copyinstrLoop]
    rfl
  | 0, srcva, max + 1, hfuel => absurd hfuel (Nat.not_succ_le_zero max)
  | fuel + 1, srcva, max + 1, hfuel => by
    simp only [copyinstrLoop]
    rcases read_chunk h srcva max with ⟨hwalk, hnone⟩ | ⟨q, b, hwalk, hread, hn, hle, hpos, hnext, hbytes⟩
    · rw [run_bind hwalk, stringAt_none hnone]
      rfl
    · rw [run_bind hwalk]
      refine (run_bind hread).trans ?_
      have hstring := stringAt_chunk b srcva (max + 1 - b.length) hbytes
      rw [Nat.add_sub_cancel' hle] at hstring
      rw [hstring, hn]
      by_cases hzero : b.contains 0
      · rw [if_pos hzero, if_pos hzero]
        rfl
      · rw [if_neg hzero, if_neg hzero, run_bind (copyinstrLoop_eq h fuel _ (max + 1 - b.length) (by omega))]
        by_cases hmore : b.length < max + 1
        · rw [hnext hmore]
          cases stringAt (p.mapped s) (max + 1 - b.length) (srcva + b.length) <;> rfl
        · rw [show max + 1 - b.length = 0 by omega]
          rfl

theorem copyinstrDstLoop_eq (h : Proper s p.pagetable) : ∀ (fuel srcva max : Nat), max ≤ fuel →
    copyinstrDstLoop p.pagetable fuel srcva max s = .ok (storedAt (p.mapped s) max srcva, s)
  | _, srcva, 0, _ => by
    rw [copyinstrDstLoop]
    rfl
  | 0, srcva, max + 1, hfuel => absurd hfuel (Nat.not_succ_le_zero max)
  | fuel + 1, srcva, max + 1, hfuel => by
    simp only [copyinstrDstLoop]
    rcases read_chunk h srcva max with ⟨hwalk, hnone⟩ | ⟨q, b, hwalk, hread, hn, hle, hpos, hnext, hbytes⟩
    · rw [run_bind hwalk, storedAt_none hnone]
      rfl
    · rw [run_bind hwalk]
      refine (run_bind hread).trans ?_
      have hstored := storedAt_chunk b srcva (max + 1 - b.length) hbytes
      rw [Nat.add_sub_cancel' hle] at hstored
      rw [hstored, hn]
      by_cases hgot : (storeString b).1 = true
      · rw [if_pos hgot, if_pos hgot]
        rfl
      · rw [if_neg hgot, if_neg hgot, run_bind (copyinstrDstLoop_eq h fuel _ (max + 1 - b.length) (by omega))]
        by_cases hmore : b.length < max + 1
        · rw [hnext hmore]
          rfl
        · rw [show max + 1 - b.length = 0 by omega]
          rfl

end copyinstr

end Xv6.Vm
