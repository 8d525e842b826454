import Xv6.Printf
import Mathlib.Data.List.Nodup

/-!
# Numerals

What `printint` prints is the numeral of the value: it reads back as the value, it has no leading zeros, and it fits in the buffer.
-/

namespace Xv6.Printf

open List

/-- The number that a string of digits stands for. -/
def value (digits : List Char) (base : Nat) (l : List Char) : Nat := l.foldl (fun v c => base * v + digits.idxOf c) 0

/-- The integer that a numeral stands for. -/
def parse (digits : List Char) (base : Nat) : List Char → Int
  | '-' :: l => -value digits base l
  | l => value digits base l

/-- The canonical numeral of an integer: a sign only if it is negative, then digits of the base, the first of them 0 only if it is alone;
it reads back as the integer. -/
structure Numeral (digits : List Char) (base : Nat) (v : Int) (out : List Char) : Prop where
  form : ∃ l, out = (if v < 0 then ['-'] else []) ++ l ∧ l ≠ [] ∧ (∀ c ∈ l, c ∈ digits.take base) ∧ (l.head? = some '0' → l = ['0'])
  parses : parse digits base out = v

namespace PrintAux

variable {digits : List Char} {base room k x : Nat}

/-- A table of digits: 16 different characters, 0 first, and no sign. -/
structure Table (digits : List Char) : Prop where
  length : digits.length = 16
  nodup : digits.Nodup
  zero : digits.head? = some '0'
  sign : '-' ∉ digits

theorem Table.digit (h : Table digits) {d : Nat} (hd : d < base) (hbase : base ≤ 16) :
    digits.idxOf (digits.getD d '?') = d ∧ digits.getD d '?' ∈ digits.take base ∧ (digits.getD d '?' = '0' → d = 0) := by
  have hlt : d < digits.length := by
    rw [h.length]
    omega
  have hget : digits.getD d '?' = digits[d] := by rw [getD_eq_getElem?_getD, getElem?_eq_getElem hlt, Option.getD_some]
  have hidx : digits.idxOf digits[d] = d := h.nodup.idxOf_getElem d hlt
  rw [hget]
  refine ⟨hidx, mem_take_iff_getElem.2 ⟨d, by omega, rfl⟩, fun hzero => ?_⟩
  have hhead : digits.idxOf '0' = 0 := by
    cases hdigits : digits with
    | nil => rw [hdigits] at hlt; cases hlt
    | cons c rest =>
      have hc := h.zero
      rw [hdigits, head?_cons] at hc
      rw [Option.some.inj hc, idxOf_cons_self]
  rw [← hidx, hzero, hhead]

/-- What is in the buffer, the last digit first: by induction on the number of digits. -/
theorem store_spec (h : Table digits) (hbase : 2 ≤ base ∧ base ≤ 16) (hx : x < base ^ (k + 1)) (hroom : k < room) :
    ∃ l, store digits base room x = some l ∧ l.length ≤ k + 1 ∧ l ≠ [] ∧ (∀ c ∈ l, c ∈ digits.take base) ∧
      (l.getLast? = some '0' → l = ['0'] ∧ x = 0) ∧ value digits base l.reverse = x := by
  induction k generalizing x room with
  | zero =>
    obtain ⟨room, rfl⟩ := Nat.exists_eq_succ_of_ne_zero (Nat.ne_of_gt hroom)
    rw [Nat.zero_add, Nat.pow_one] at hx
    obtain ⟨hidx, hmem, hzero⟩ := h.digit hx hbase.2
    rw [store, Nat.div_eq_of_lt hx, if_pos rfl, Nat.mod_eq_of_lt hx]
    refine ⟨_, rfl, Nat.le_refl 1, cons_ne_nil _ _, fun c hc => ?_, fun hlast => ?_, ?_⟩
    · rw [mem_singleton.1 hc]
      exact hmem
    · have hc : digits.getD x '?' = '0' := Option.some.inj hlast
      exact ⟨by rw [hc], hzero hc⟩
    · rw [reverse_singleton, value, foldl_cons, foldl_nil, Nat.mul_zero, Nat.zero_add, hidx]
  | succ k ih =>
    by_cases hsmall : x / base = 0
    · have hlt : x < base := (Nat.div_eq_zero_iff_lt (by omega)).1 hsmall
      obtain ⟨l, hl, hlen, hrest⟩ := @ih room x (hlt.trans_le (Nat.le_self_pow (Nat.succ_ne_zero k) base)) (by omega)
      exact ⟨l, hl, by omega, hrest⟩
    · obtain ⟨room, rfl⟩ := Nat.exists_eq_succ_of_ne_zero (Nat.ne_of_gt (Nat.zero_lt_of_lt hroom))
      obtain ⟨l, hl, hlen, hne, hmem, hlast, hvalue⟩ := @ih room (x / base)
        (Nat.div_lt_of_lt_mul (by rw [← Nat.pow_succ']; exact hx)) (by omega)
      obtain ⟨hidx, hdigit, -⟩ := h.digit (Nat.mod_lt x (show base > 0 by omega)) hbase.2
      rw [store, if_neg hsmall, hl, Option.map_some]
      refine ⟨_, rfl, by rw [length_cons]; omega, cons_ne_nil _ _, fun c hc => ?_, fun hc => ?_, ?_⟩
      · rcases mem_cons.1 hc with rfl | hc
        · exact hdigit
        · exact hmem c hc
      · -- the digits of a quotient that is not 0 do not begin with 0
        rw [getLast?_cons_of_ne_nil hne] at hc
        exact absurd (hlast hc).2 hsmall
      · rw [reverse_cons, value, foldl_append, foldl_cons, foldl_nil, hidx]
        exact (congrArg (fun v => base * v + x % base) hvalue).trans (Nat.div_add_mod x base)

/-- The digits of a number that fits, with or without a sign, and what they read as. -/
theorem numeral_of_store (h : Table digits) {l : List Char} (hne : l ≠ []) (hmem : ∀ c ∈ l, c ∈ digits.take base)
    (hlast : l.getLast? = some '0' → l = ['0'] ∧ x = 0) (hvalue : value digits base l.reverse = x) {v : Int} (hv : v = x ∨ v = -x ∧ 0 < x) :
    Numeral digits base v ((if v < 0 then ['-'] else []) ++ l.reverse) := by
  refine ⟨⟨l.reverse, rfl, reverse_ne_nil_iff.2 hne, fun c hc => hmem c (mem_reverse.1 hc), fun hc => ?_⟩, ?_⟩
  · rw [head?_reverse] at hc
    rw [(hlast hc).1, reverse_singleton]
  · by_cases hneg : v < 0
    · rw [if_pos hneg, singleton_append, parse, hvalue]
      omega
    · rw [if_neg hneg, nil_append]
      have hsign : ∀ t, l.reverse ≠ '-' :: t := fun t ht => by
        refine h.sign (mem_of_mem_take (hmem '-' (mem_reverse.1 ?_)))
        rw [ht]
        exact mem_cons_self
      rw [parse.eq_2 _ _ _ hsign, hvalue]
      omega

/-- `printint` with any table of digits. -/
theorem printint_numeral (h : Table digits) (xx : BitVec 64) (hbase : base = 10 ∨ base = 16) (sign : Bool) :
    ∃ out, printint digits xx base sign = some out ∧ out.length ≤ SIZE ∧ Numeral digits base (if sign then xx.toInt else xx.toNat) out := by
  have hrange : 2 ≤ base ∧ base ≤ 16 := by omega
  have hslt : xx.slt 0 = decide (xx.toInt < 0) := BitVec.slt_eq_decide
  have hlt := xx.isLt
  have hcond := BitVec.toInt_eq_toNat_cond xx
  by_cases hneg : (sign && xx.slt 0) = true
  · obtain ⟨rfl, hs⟩ := Bool.and_eq_true_iff.1 hneg
    rw [hslt, decide_eq_true_iff] at hs
    have hx : (-xx).toNat = 2 ^ 64 - xx.toNat := by
      rw [BitVec.toNat_neg]
      exact Nat.mod_eq_of_lt (by split at hcond <;> omega)
    -- at most 2^63, so there is room for the sign
    have hsmall : (-xx).toNat < base ^ (18 + 1) := by
      rw [hx]
      rcases hbase with rfl | rfl <;> split at hcond <;> omega
    obtain ⟨l, hl, hlen, hne, hmem, hlast, hvalue⟩ := @store_spec _ _ SIZE 18 _ h hrange hsmall (by decide)
    have hnumeral := numeral_of_store h hne hmem hlast hvalue (v := xx.toInt) (.inr (by rw [hx]; split at hcond <;> omega))
    rw [if_pos hs] at hnumeral
    refine ⟨['-'] ++ l.reverse, ?_, by rw [length_append, length_reverse, length_singleton, SIZE]; omega, hnumeral⟩
    simp only [printint, hneg, if_true, hl]
    rw [if_neg (by rw [SIZE]; omega), reverse_append]
    rfl
  · have hsmall : xx.toNat < base ^ (19 + 1) := by rcases hbase with rfl | rfl <;> omega
    obtain ⟨l, hl, hlen, hne, hmem, hlast, hvalue⟩ := @store_spec _ _ SIZE 19 _ h hrange hsmall (by decide)
    have hv : (if sign then xx.toInt else xx.toNat) = (xx.toNat : Int) := by
      cases sign with
      | false => rfl
      | true =>
        rw [Bool.true_and, hslt, decide_eq_true_iff] at hneg
        rw [if_pos rfl]
        split at hcond <;> omega
    have hnumeral := numeral_of_store h hne hmem hlast hvalue (v := xx.toNat) (.inl rfl)
    rw [if_neg (Int.not_lt.2 (Int.natCast_nonneg _)), nil_append] at hnumeral
    rw [hv]
    refine ⟨l.reverse, ?_, by rw [length_reverse, SIZE]; omega, hnumeral⟩
    simp only [printint, Bool.eq_false_iff.2 hneg, Bool.false_eq_true, if_false, hl]

end PrintAux

/-- For every 64-bit value, base 10 or 16, as a signed or an unsigned number: both versions of `printint` print its canonical numeral, and
never store more than their buffer holds. -/
theorem printint_prints (xx : BitVec 64) (base : Nat) (hbase : base = 10 ∨ base = 16) (sign : Bool) :
    (∃ out, kernelPrintint xx base sign = some out ∧ out.length ≤ SIZE ∧ Numeral kernelDigits base (if sign then xx.toInt else xx.toNat) out) ∧
    ∃ out, userPrintint xx base sign = some out ∧ out.length ≤ SIZE ∧ Numeral userDigits base (if sign then xx.toInt else xx.toNat) out :=
  ⟨PrintAux.printint_numeral ⟨rfl, by decide, rfl, by decide⟩ xx hbase sign, PrintAux.printint_numeral ⟨rfl, by decide, rfl, by decide⟩ xx hbase sign⟩

/-- The least number, which fills the buffer, and the greatest unsigned one, which does so too. -/
theorem printint_prints_extremes :
    (∃ out, kernelPrintint (BitVec.intMin 64) 10 true = some out ∧ out.length = 20 ∧ Numeral kernelDigits 10 (-2 ^ 63) out) ∧
    ∃ out, userPrintint (-1) 10 false = some out ∧ out.length = 20 ∧ Numeral userDigits 10 (2 ^ 64 - 1) out := by
  obtain ⟨⟨out, hout, -, hnumeral⟩, -⟩ := printint_prints (BitVec.intMin 64) 10 (.inl rfl) true
  obtain ⟨-, ⟨out', hout', -, hnumeral'⟩⟩ := printint_prints (-1) 10 (.inl rfl) false
  have hlen : (kernelPrintint (BitVec.intMin 64) 10 true).map List.length = some 20 := rfl
  have hlen' : (userPrintint (-1) 10 false).map List.length = some 20 := rfl
  rw [hout] at hlen
  rw [hout'] at hlen'
  exact ⟨⟨out, hout, Option.some.inj hlen, hnumeral⟩, out', hout', Option.some.inj hlen', hnumeral'⟩

end Xv6.Printf
