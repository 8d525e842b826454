import Xv6.Vm
import Xv6.Lib.Radix
import Xv6.Lib.Wp

/-!
# Page tables as trees

The valid entries of a page table are the pointers of a tree: the root and the tables of the two levels below it, and the entries of the
last level, which are what virtual pages are mapped to (`leaf`). A walk that allocates nothing follows the pointers.
-/

namespace Xv6.Vm

open Lib

/-- The valid entry `i` of the table in page `p`. -/
def entry (m : Nat → Page) (p : Nat) (i : Fin 512) : Option Pte :=
  match m p with
  | .table f => if (f i).flags.v then some (f i) else none
  | .bytes _ => none

/-- The page that entry `i` of the table in page `p` points to. -/
def edge (m : Nat → Page) (p : Nat) (i : Fin 512) : Option Nat := (entry m p i).map Pte.ppn

/-- The index of virtual page `v` into a table of a level. -/
def ix (level v : Nat) : Fin 512 := ⟨v / 512 ^ level % 512, Nat.mod_lt _ (by decide)⟩

/-- The path from the root to virtual page `v`. -/
def path (v : Nat) : List (Fin 512) := [ix 2 v, ix 1 v, ix 0 v]

/-- The number of virtual pages that a page table has entries for. -/
def VPAGES : Nat := 512 ^ 3

/-- The virtual pages of the trampoline and of the trapframe. -/
def VTRAMPOLINE : Nat := TRAMPOLINE / PGSIZE

def VTRAPFRAME : Nat := TRAPFRAME / PGSIZE

/-- The valid entry for virtual page `v`. -/
def leaf (m : Nat → Page) (root v : Nat) : Option Pte :=
  if v < VPAGES then (follow (edge m) root [ix 2 v, ix 1 v]).bind fun p => entry m p (ix 0 v) else none

/-- The bytes in a page. -/
def Page.data : Page → Nat → Byte
  | .bytes f => f
  | .table _ => fun _ => 0

/-- What is seen at each virtual page: a page, its flags and its bytes. -/
abbrev View := Nat → Option (Nat × Perm × (Nat → Byte))

/-- What a page table shows. -/
def space (m : Nat → Page) (root : Nat) : View := fun v => (leaf m root v).map fun e => (e.ppn, e.flags, (m e.ppn).data)

theorem PX_eq_ix (level va : Nat) : PX level va = ix level (va / PGSIZE) := by
  have h : 2 ^ (12 + 9 * level) = PGSIZE * 512 ^ level := by
    rw [Nat.pow_add, Nat.pow_mul]
    rfl
  simp only [PX, ix, h, Nat.div_div_eq_div_mul]

theorem path_inj {v v' : Nat} (hv : v < VPAGES) (hv' : v' < VPAGES) (h : path v = path v') : v = v' := by
  simp only [path, ix, List.cons.injEq, Fin.mk.injEq, and_true] at h
  simp only [VPAGES] at hv hv'
  omega

variable {m : Nat → Page}

theorem entry_table {p : Nat} {f : Fin 512 → Pte} (h : m p = .table f) (i : Fin 512) :
    entry m p i = if (f i).flags.v then some (f i) else none := by
  rw [entry, h]

theorem leaf_of_node {root v p : Nat} (hv : v < VPAGES) (hp : follow (edge m) root [ix 2 v, ix 1 v] = some p) :
    leaf m root v = entry m p (ix 0 v) := by
  rw [leaf, if_pos hv, hp]
  rfl

variable {root v : Nat}

/-- The page, the flags and the bytes at a virtual page are those of its entry. -/
theorem space_of_leaf {e : Pte} (h : leaf m root v = some e) :
    space m root v = some (e.ppn, e.flags, (m e.ppn).data) := by
  rw [space, h]
  rfl

theorem space_eq_none : space m root v = none ↔ leaf m root v = none := Option.map_eq_none_iff

theorem space_congr {m m' : Nat → Page} (hleaf : leaf m' root v = leaf m root v)
    (hmem : ∀ e, leaf m root v = some e → m' e.ppn = m e.ppn) : space m' root v = space m root v := by
  rw [space, space, hleaf]
  cases hv : leaf m root v with
  | none => rfl
  | some e => rw [Option.map_some, Option.map_some, hmem e hv]

theorem vpages_of_lt (hv : v * PGSIZE < MAXVA) : v < VPAGES := by
  simp only [MAXVA, PGSIZE, VPAGES] at *
  omega

section access

variable {s : Memory} {p : Nat} {f : Fin 512 → Pte}

theorem readPte_eq (h : s.mem p = .table f) (i : Fin 512) : readPte (p, i) s = .ok (f i, s) := by
  simp only [readPte, h]

theorem writePte_eq (h : s.mem p = .table f) (i : Fin 512) (e : Pte) :
    writePte (p, i) e s = .ok ((), s.setPage p (.table (Function.update f i e))) := by
  simp only [writePte, h]

theorem readPage_eq {f : Nat → Byte} (h : s.mem p = .bytes f) : readPage p s = .ok (f, s) := by
  simp only [readPage, h]

end access

/-! ### `walk` -/

/-- The indices from a table of a level down to the last level. -/
def down : Nat → Nat → List (Fin 512)
  | 0, _ => []
  | level + 1, v => ix (level + 1) v :: down level v

/-- A walk that allocates nothing follows the entries. -/
theorem walkFrom_eq {s : Memory} (va : Nat) : ∀ (level p : Nat),
    (∀ l q, follow (edge s.mem) p l = some q → l.length ≤ level → ∃ f, s.mem q = .table f) →
    walkFrom va false level p s = .ok ((follow (edge s.mem) p (down level (va / PGSIZE))).map fun q => (q, ix 0 (va / PGSIZE)), s)
  | 0, p, _ => by
    rw [walkFrom, PX_eq_ix]
    rfl
  | level + 1, p, h => by
    obtain ⟨f, hf⟩ := h [] p rfl (Nat.zero_le _)
    rw [walkFrom, PX_eq_ix, run_bind (readPte_eq hf _), down, follow.cons, edge, entry_table hf]
    split
    · refine walkFrom_eq va level _ fun l q hq hlen => h (ix (level + 1) (va / PGSIZE) :: l) q ?_ ?_
      · rw [follow.cons, edge, entry_table hf, if_pos ‹_›]
        exact hq
      · rw [List.length_cons]
        omega
    · rfl

end Xv6.Vm
