import Xv6.VmProc
import Xv6.Lemmas.VmProper
import Mathlib.Algebra.BigOperators.Group.List.Basic

/-!
# The arguments on the stack

Where `kexec` puts the argument strings and the array of their addresses on the stack page of the new program, and what is in the page
then. The strings are put one below the other and the array below them, each at a multiple of 16.
-/

namespace Xv6.Vm

open Lib Function List

/-- Words as they lie in memory, eight bytes each. -/
def words (l : List Nat) : List Byte := l.flatMap fun a => (List.range 8).map fun k => BitVec.ofNat 8 (a / 256 ^ k)

/-- The room that `n` bytes take on the stack. -/
def room (n : Nat) : Nat := (n + 15) / 16 * 16

/-- The room that strings take on the stack, each with its NUL, and an array of `n` addresses and a 0. -/
def stackRoom (args : List (List Byte)) (n : Nat) : Nat := (args.map fun arg => room (arg.length + 1)).sum + room ((n + 1) * 8)

/-- What the arguments of a program take on the stack. -/
def stackNeed (argv : List (List Byte)) : Nat := stackRoom argv argv.length

/-- The addresses of strings that are put below `sp`. -/
def places : Nat → List (List Byte) → List Nat
  | _, [] => []
  | sp, arg :: rest => (sp - room (arg.length + 1)) :: places (sp - room (arg.length + 1)) rest

/-- The page from `base` on had `f` and has `g`: nothing has changed from `sp` on, and the items are below it, each at its address and below
the one before. -/
structure Stacked (base sp : Nat) (f g : Nat → Byte) (items : List (Nat × List Byte)) : Prop where
  above : ∀ j, sp ≤ base + j → g j = f j
  placed : ∀ it ∈ items, base ≤ it.1 ∧ it.1 + it.2.length ≤ sp ∧ ∀ k < it.2.length, g (it.1 - base + k) = it.2.getD k 0
  apart : items.Pairwise fun x y => y.1 + y.2.length ≤ x.1

section layout

variable {base sp sp' : Nat} {f g : Nat → Byte} {items : List (Nat × List Byte)} {b : List Byte} {args : List (List Byte)}

theorem words_length (l : List Nat) : (words l).length = l.length * 8 := by
  induction l with
  | nil => rfl
  | cons a l ih =>
    rw [words, flatMap_cons, length_append, length_map, length_range, length_cons, Nat.add_mul, Nat.add_comm]
    exact congrArg (· + 8) ih

theorem places_length (sp : Nat) (args : List (List Byte)) : (places sp args).length = args.length := by
  induction args generalizing sp with
  | nil => rfl
  | cons arg rest ih => rw [places, length_cons, length_cons, ih]

theorem Stacked.nil (base sp : Nat) (f : Nat → Byte) : Stacked base sp f f [] :=
  ⟨fun _ _ => rfl, fun _ hit => (not_mem_nil hit).elim, List.Pairwise.nil⟩

/-- An item is put below `sp`, and then the others below it. -/
theorem Stacked.push (h : Stacked base sp' (overwrite f (sp' - base) b) g items) (hbase : base ≤ sp') (hb : sp' + b.length ≤ sp) :
    Stacked base sp f g ((sp', b) :: items) := by
  refine ⟨fun j hj => ?_, fun it hit => ?_, pairwise_cons.2 ⟨fun it hit => (h.placed it hit).2.1, h.apart⟩⟩
  · rw [h.above j (by omega), overwrite, if_neg (by omega)]
  · rcases mem_cons.1 hit with rfl | hit
    · refine ⟨hbase, hb, fun k hk => ?_⟩
      dsimp only at hk ⊢
      rw [h.above _ (by omega), overwrite, if_pos ⟨by omega, by omega⟩, show sp' - base + k - (sp' - base) = k by omega]
    · obtain ⟨hlow, hhigh, hbytes⟩ := h.placed it hit
      exact ⟨hlow, by omega, hbytes⟩

theorem le_room (n : Nat) : n ≤ room n := by
  simp only [room]
  omega

/-- Nothing wraps when as much as a page is pushed and there is a page below the stack. -/
theorem push_eq {n : Nat} (hsp : sp % 16 = 0) (hn : n ≤ PGSIZE) (hlow : PGSIZE ≤ sp) (hhigh : sp ≤ MAXVA) : push sp n = sp - room n ∧ room n ≤ sp ∧
    (sp - room n) % 16 = 0 := by
  simp only [push, u64, room, PGSIZE, MAXVA] at *
  omega

end layout

/-! ### Copies to one page -/

section copies

variable {p : Mm} {s : Memory} {root v q : Nat} {perm : Perm} {f : Nat → Byte} {src : List Byte}

/-- `copyout` to a part of one page that is mapped and may be written. -/
theorem copyout_page (off : Nat) (h : Proper s root) (hv : v * PGSIZE < MAXVA) (hx : space s.mem root v = some (q, perm, f)) (hu : perm.u = true)
    (hw : perm.w = true) (hsrc : src ≠ []) (hfit : off + src.length ≤ PGSIZE) :
    copyout p root (v * PGSIZE + off) src s = .ok (true, s.setPage q (.bytes (overwrite f off src))) := by
  obtain ⟨b, rest, rfl⟩ := exists_cons_of_ne_nil hsrc
  have hpos : 0 < (b :: rest).length := Nat.succ_pos _
  have hdiv : (v * PGSIZE + off) / PGSIZE = v := by
    rw [Nat.mul_comm, Nat.mul_add_div (by decide), Nat.div_eq_of_lt (by omega), Nat.add_zero]
  have hdown : pgrounddown (v * PGSIZE + off) = v * PGSIZE := by rw [pgrounddown, hdiv]
  have hwalkaddr := walkaddr_eq h.wf hv
  rw [page_div v, hx, Option.filter_some, if_pos hu] at hwalkaddr
  obtain ⟨n, g, hwalk, -, hg, -, hentry⟩ := walk_mapped h.wf hv ((page_div v).symm ▸ hx)
  have huser : userPage p root (v * PGSIZE) s = .ok (some q, s) := by
    rw [userPage, run_bind hwalkaddr]
    rfl
  obtain ⟨-, hf⟩ := h.bytes_of_space hx
  rw [copyout, length_cons, copyoutLoop.eq_3 _ _ _ _ _ hsrc, hdown, if_neg (by omega), run_bind huser]
  refine (run_bind hwalk).trans ((run_bind (readPte_eq hg _)).trans ?_)
  rw [hentry, if_neg (by rw [hw]; exact Bool.noConfusion), Nat.add_sub_cancel_left, Nat.min_eq_right (by omega), take_length, drop_length,
    run_bind (writeBytes_eq hf off _), copyoutLoop]
  rfl

theorem setPage_setPage (s : Memory) (q : Nat) (x y : Page) : (s.setPage q x).setPage q y = s.setPage q y := by
  simp only [Memory.setPage, update_idem]

/-- The arguments are put on the stack page if there is room for them, and otherwise only that page has changed. -/
theorem pushArgs_eq (args : List (List Byte)) (sp : Nat) (ustack : List Nat) (hv : v * PGSIZE < MAXVA) (hlow : PGSIZE ≤ v * PGSIZE) (hu : perm.u = true)
    (hw : perm.w = true) (hargs : ∀ arg ∈ args, arg.length < PGSIZE) (hcount : ustack.length + args.length < MAXARG)
    (h : Proper s root) (hx : space s.mem root v = some (q, perm, f)) (halign : sp % 16 = 0) (hsp : v * PGSIZE ≤ sp) (hend : sp ≤ v * PGSIZE + PGSIZE) :
    ∃ g, pushArgs p root (v * PGSIZE) args sp ustack s =
        .ok (if v * PGSIZE + stackRoom args (ustack.length + args.length) ≤ sp then
          some (ustack.length + args.length, sp - stackRoom args (ustack.length + args.length)) else none, s.setPage q (.bytes g)) ∧
      (v * PGSIZE + stackRoom args (ustack.length + args.length) ≤ sp →
        (sp - stackRoom args (ustack.length + args.length)) % 16 = 0 ∧
        Stacked (v * PGSIZE) sp f g ((places sp args).zip (args.map (· ++ [0])) ++
          [(sp - stackRoom args (ustack.length + args.length), words (ustack ++ places sp args ++ [0]))])) := by
  have hhigh : sp ≤ MAXVA := by
    simp only [MAXVA, PGSIZE] at *
    omega
  obtain ⟨-, hf⟩ := h.bytes_of_space hx
  have hstay : s.setPage q (.bytes f) = s := by
    rw [Memory.setPage, ← hf, update_eq_self]
  induction args generalizing s f sp ustack with
  | nil =>
    have hlen : (words (ustack ++ [0])).length = (ustack.length + 1) * 8 := by rw [words_length, length_append, length_singleton]
    obtain ⟨hpush, hroom, halign'⟩ := push_eq (n := (ustack.length + 1) * 8) halign (by simp only [MAXARG, PGSIZE, length_nil] at *; omega)
      (by omega) hhigh
    have hle := le_room ((ustack.length + 1) * 8)
    have hneed : stackRoom [] (ustack.length + ([] : List (List Byte)).length) = room ((ustack.length + 1) * 8) := by
      rw [stackRoom, map_nil, sum_nil, Nat.zero_add]
      rfl
    rw [pushArgs, hpush, hneed]
    by_cases hfit : v * PGSIZE + room ((ustack.length + 1) * 8) ≤ sp
    · rw [if_neg (by omega), if_pos hfit]
      refine ⟨overwrite f (sp - room ((ustack.length + 1) * 8) - v * PGSIZE) (words (ustack ++ [0])), ?_, fun _ => ⟨halign', ?_⟩⟩
      · have hrun := copyout_page (p := p) (sp - room ((ustack.length + 1) * 8) - v * PGSIZE) h hv hx hu hw
          (ne_nil_of_length_pos (by omega : 0 < (words (ustack ++ [0])).length)) (by omega)
        rw [Nat.add_sub_cancel' (by omega)] at hrun
        exact run_bind hrun
      · rw [places, zip_nil_left, append_nil]
        exact (Stacked.nil ..).push (by omega) (by omega)
    · rw [if_pos (by omega), if_neg hfit]
      exact ⟨f, by rw [hstay]; rfl, fun hfit' => absurd hfit' hfit⟩
  | cons arg rest ih =>
    have harg := hargs arg mem_cons_self
    have hlen : (arg ++ [0] : List Byte).length = arg.length + 1 := by rw [length_append, length_singleton]
    obtain ⟨hpush, hroom, halign'⟩ := push_eq (n := arg.length + 1) halign harg (by omega) hhigh
    have hle := le_room (arg.length + 1)
    have hcount' : ustack.length + (arg :: rest).length = (ustack ++ [sp - room (arg.length + 1)]).length + rest.length := by
      rw [length_append, length_singleton, length_cons]
      omega
    have hneed : ∀ n, stackRoom (arg :: rest) n = room (arg.length + 1) + stackRoom rest n := fun n => by
      rw [stackRoom, map_cons, sum_cons, Nat.add_assoc]
      rfl
    rw [pushArgs, hpush, hneed, if_neg (by rw [length_cons] at hcount; omega), places, map_cons, zip_cons_cons, hcount']
    rw [hcount'] at hcount
    by_cases hfit : v * PGSIZE + room (arg.length + 1) ≤ sp
    · rw [if_neg (by omega)]
      have hrun := copyout_page (p := p) (sp - room (arg.length + 1) - v * PGSIZE) h hv hx hu hw
        (ne_nil_of_length_pos (by omega : 0 < (arg ++ [0] : List Byte).length)) (by omega)
      rw [Nat.add_sub_cancel' (by omega)] at hrun
      obtain ⟨hproper, hspace, -⟩ := h.rewrite hx (overwrite f (sp - room (arg.length + 1) - v * PGSIZE) (arg ++ [0]))
      obtain ⟨g, hrest, hstacked⟩ := ih _ _ (fun a ha => hargs a (mem_cons_of_mem _ ha)) hcount hproper (by rw [hspace, update_self]) halign'
        (by omega) (by omega) (by omega) (update_self ..) (setPage_setPage ..)
      have hiff : v * PGSIZE + stackRoom rest ((ustack ++ [sp - room (arg.length + 1)]).length + rest.length) ≤ sp - room (arg.length + 1) ↔
          v * PGSIZE + (room (arg.length + 1) + stackRoom rest ((ustack ++ [sp - room (arg.length + 1)]).length + rest.length)) ≤ sp := by omega
      refine ⟨g, ?_, fun hall => ?_⟩
      · rw [run_bind hrun]
        refine hrest.trans ?_
        rw [setPage_setPage, Nat.sub_add_eq, if_congr hiff rfl rfl]
      · obtain ⟨hmod, hstacked⟩ := hstacked (hiff.2 hall)
        rw [Nat.sub_add_eq]
        refine ⟨hmod, ?_⟩
        rw [append_assoc ustack] at hstacked
        exact hstacked.push (by omega) (by omega)
    · rw [if_pos (by omega), if_neg (by omega)]
      exact ⟨f, by rw [hstay]; rfl, fun hall => by omega⟩

end copies

end Xv6.Vm
