import Xv6.Bio
import Xv6.Lib.Tally

/-!
# What the functions of the buffer cache keep

`Good` is what holds of the cache in every state: the links are a ring, buffers that were assigned have different blocks, a buffer is
referred to by those that wait for it, hold it or let go of it and by the log, a valid buffer that nobody has changed holds what was
last left in its block, and so does the disk unless the block is pinned. `Frame` is what a step of one process leaves to the others.
-/

namespace Xv6.Bio

open Lib Function List

namespace BioAux

variable {P : Type} {L : Layout} {s t : State P} {c : Cache P} {p q : P} {i j : Slot} {order : List Slot} {dev blockno : Uint}
  {f : Buf P → Buf P} {l₁ l₂ : List Slot}

@[simp] theorem setBuf_self (c : Cache P) (i : Slot) (f : Buf P → Buf P) : (c.setBuf i f).buf i = f (c.buf i) := update_self ..

@[simp] theorem setBuf_of_ne (c : Cache P) (f : Buf P → Buf P) (h : j ≠ i) : (c.setBuf i f).buf j = c.buf j := update_of_ne h ..

/-- Two buffers differ at most in the number of references. -/
structure Alike (b b' : Buf P) : Prop where
  key : b'.key = b.key
  valid : b'.valid = b.valid
  data : b'.data = b.data
  lock : b'.lock = b.lock

theorem setBuf_alike (hf : Alike (c.buf i) (f (c.buf i))) (j : Slot) : Alike (c.buf j) ((c.setBuf i f).buf j) := by
  by_cases hj : j = i
  · rw [hj, setBuf_self]
    exact hf
  · rw [setBuf_of_ne c f hj]
    exact ⟨rfl, rfl, rfl, rfl⟩

theorem setBuf_lock (hf : (f (c.buf i)).lock = (c.buf i).lock) (j : Slot) : ((c.setBuf i f).buf j).lock = (c.buf j).lock := by
  by_cases hj : j = i
  · rw [hj, setBuf_self, hf]
  · rw [setBuf_of_ne c f hj]

/-- Whether the log has pinned the buffer. -/
def Pinned (L : Layout) (s : State P) (i : Slot) : Prop :=
  s.given i = true ∧ (s.buf i).dev = L.dev ∧ (s.buf i).blockno ∈ s.pins

instance (L : Layout) (s : State P) (i : Slot) : Decidable (Pinned L s i) := inferInstanceAs (Decidable (_ ∧ _ ∧ _))

/-- The links are a ring of all buffers, and one that holds block 0 of device 0 comes before those that have not been assigned. -/
structure Order (s : State P) (order : List Slot) : Prop where
  ring : Ring s.next s.prev order
  all : ∀ i, i ∈ order
  zero : ∀ i j, s.given i = true → (s.buf i).key = (0, 0) → s.given j = false → [i, j].Sublist order

/-- What holds of the cache in every state. -/
structure Good [Fintype P] (L : Layout) (s : State P) : Prop where
  order : ∃ order, Order s order
  unique : ∀ i j, s.given i = true → s.given j = true → (s.buf i).key = (s.buf j).key → i = j
  fresh : ∀ i, s.given i = false → (s.buf i).key = (0, 0) ∧ (s.buf i).valid = false ∧ (s.buf i).refcnt = 0
  refs : ∀ i, (s.buf i).refcnt =
    tally s.want i + tally s.drop i + (if (s.buf i).lock = none then 0 else 1) + if Pinned L s i then 1 else 0
  clean : ∀ i, s.given i = true → (s.buf i).valid = true → s.dirty i = false →
    (s.buf i).data = s.left (s.buf i).key
  disk : ∀ k, s.disk k = s.left k ∨ k.1 = L.dev ∧ k.2 ∈ s.pins
  dirty : ∀ i, s.dirty i = true → (s.buf i).lock ≠ none ∧ (s.buf i).valid = true
  pinned : ∀ b ∈ s.pins, ∃ i, s.given i = true ∧ (s.buf i).key = (L.dev, b) ∧ (s.buf i).valid = true
  nodup : s.pins.Nodup

/-- A buffer is as it was, but for the number of references, and so is its block. -/
structure Kept (s t : State P) (i : Slot) : Prop where
  lock : (t.buf i).lock = (s.buf i).lock
  valid : (t.buf i).valid = (s.buf i).valid
  data : (t.buf i).data = (s.buf i).data
  dirty : t.dirty i = s.dirty i
  left : t.left (s.buf i).key = s.left (s.buf i).key
  disk : t.disk (s.buf i).key = s.disk (s.buf i).key

/-- What a step of process `q` that touches buffer `i` leaves alone. -/
structure Frame (q : P) (i : Option Slot) (s t : State P) : Prop where
  want : ∀ p, p ≠ q → t.want p = s.want p
  drop : ∀ p, p ≠ q → t.drop p = s.drop p
  regs : ∀ p, p ≠ q → t.regs p = s.regs p
  script : ∀ p, p ≠ q → t.script p = s.script p
  key : ∀ j, 0 < (s.buf j).refcnt → (t.buf j).key = (s.buf j).key
  kept : ∀ j, (s.buf j).lock ≠ none → some j ≠ i → Kept s t j
  mine : ∀ j, some j = i → (s.buf j).lock = none ∨ (s.buf j).lock = some q

theorem Kept.of_alike (hb : Alike (s.buf i) (t.buf i)) (hd : t.dirty i = s.dirty i)
    (hl : t.left (s.buf i).key = s.left (s.buf i).key)
    (hk : t.disk (s.buf i).key = s.disk (s.buf i).key) : Kept s t i :=
  ⟨hb.lock, hb.valid, hb.data, hd, hl, hk⟩

theorem Kept.of_buf (hb : t.buf i = s.buf i) (hd : t.dirty i = s.dirty i)
    (hl : t.left (s.buf i).key = s.left (s.buf i).key)
    (hk : t.disk (s.buf i).key = s.disk (s.buf i).key) : Kept s t i :=
  ⟨congrArg Buf.lock hb, congrArg Buf.valid hb, congrArg Buf.data hb, hd, hl, hk⟩

/-- What the others hold is kept. -/
theorem Frame.held {k : Option Slot} (h : Frame q k s t) (hp : p ≠ q) (hl : (s.buf i).lock = some p) : Kept s t i := by
  refine h.kept i (by simp [hl]) fun hi => ?_
  rcases h.mine i hi with hn | hq
  · cases hl.symm.trans hn
  · exact hp (Option.some.inj (hl.symm.trans hq))

section

variable [Fintype P]

namespace Good

variable (h : Good L s)

include h

theorem given_of_refcnt (hr : 0 < (s.buf i).refcnt) : s.given i = true := by
  by_contra hne
  have := (h.fresh i (by simpa using hne)).2.2
  omega

theorem refcnt_of_want (hw : s.want p = some i) : 0 < (s.buf i).refcnt := by
  have := h.refs i
  have := tally_pos hw
  omega

theorem refcnt_of_drop (hd : s.drop p = some i) : 0 < (s.buf i).refcnt := by
  have := h.refs i
  have := tally_pos hd
  omega

theorem refcnt_of_lock (hl : (s.buf i).lock ≠ none) : 0 < (s.buf i).refcnt := by
  have := h.refs i
  rw [if_neg hl] at this
  omega

theorem refcnt_of_pinned (hp : Pinned L s i) : 0 < (s.buf i).refcnt := by
  have := h.refs i
  rw [if_pos hp] at this
  omega

theorem refs_of_given (hg : s.given i = true) : (s.buf i).refcnt = tally s.want i + tally s.drop i +
    (if (s.buf i).lock = none then 0 else 1) + if (s.buf i).dev = L.dev ∧ (s.buf i).blockno ∈ s.pins then 1 else 0 := by
  have hrefs := h.refs i
  simpa only [Pinned, hg, true_and] using hrefs

theorem given_of_lock (hl : (s.buf i).lock = some p) : s.given i = true :=
  h.given_of_refcnt (h.refcnt_of_lock (by rw [hl]; exact Option.some_ne_none p))

omit [Fintype P] h in
/-- The buffer that the log has pinned for a block is the one assigned to it. -/
theorem pinned_of_key {b : Uint} (hg : s.given i = true) (hk : (s.buf i).key = (L.dev, b)) (hb : b ∈ s.pins) : Pinned L s i := by
  obtain ⟨hdev, hblock⟩ := Prod.mk.inj hk
  exact ⟨hg, hdev, hblock ▸ hb⟩

theorem valid_of_pinned (hp : Pinned L s i) : (s.buf i).valid = true := by
  obtain ⟨hg, hdev, hb⟩ := hp
  obtain ⟨j, hgj, hkj, hvj⟩ := h.pinned _ hb
  have hij : i = j := h.unique i j hg hgj (by rw [hkj, ← hdev]; rfl)
  rw [hij]
  exact hvj

/-- A block whose buffer is not pinned is on disk as it was left. -/
theorem disk_of_not_pinned (hg : s.given i = true) (hp : ¬ Pinned L s i) :
    s.disk (s.buf i).key = s.left (s.buf i).key :=
  (h.disk _).resolve_right fun hk => hp ⟨hg, hk⟩

/-- Different buffers that are held have different blocks. -/
theorem key_ne (hi : s.given i = true) (hj : s.given j = true) (hne : j ≠ i) : (s.buf j).key ≠ (s.buf i).key :=
  fun heq => hne (h.unique j i hj hi heq)

end Good

end

/-! ## `bget` -/

/-- What `bget` finds: a buffer that holds the block, or, if there is none, one that nobody refers to. -/
inductive Found (c : Cache P) (order : List Slot) (k : Key) : Slot → Cache P → Prop where
  | cached {i : Slot} {l₁ l₂ : List Slot} (horder : order = l₁ ++ i :: l₂) (hbefore : ∀ j ∈ l₁, (c.buf j).key ≠ k) (hi : (c.buf i).key = k) :
      Found c order k i (c.setBuf i fun b => b.withRefcnt (b.refcnt + 1))
  | recycled {i : Slot} (hnone : ∀ j ∈ order, (c.buf j).key ≠ k) (hi : (c.buf i).refcnt = 0) :
      Found c order k i (c.setBuf i fun b => b.assign k.1 k.2)

theorem length_le (h : order.Nodup) : order.length ≤ NBUF + 1 := by
  have := h.length_le_card
  rw [Fintype.card_fin] at this
  omega

theorem key_eq_iff (b : Buf P) (dev blockno : Uint) : b.dev = dev ∧ b.blockno = blockno ↔ b.key = (dev, blockno) := Prod.mk_inj.symm

/-- The loops of `bget` search the order of the ring, forwards for the block and backwards for a buffer that nobody refers to. -/
theorem lookup_eq (dev blockno : Uint) (hring : Ring c.next c.prev order) : c.lookup dev blockno =
    order.find? fun i => decide ((c.buf i).dev = dev ∧ (c.buf i).blockno = blockno) := by
  unfold Cache.lookup
  rw [hring.next_none]
  have hring' : Ring c.next c.prev ([] ++ order) := hring
  exact hring'.scan_next (length_le hring.nodup)

section

variable (hring : Ring c.next c.prev order)

include hring

theorem victim_eq : c.victim =
    order.reverse.find? fun i => decide ((c.buf i).refcnt = 0) := hring.scan_prev (length_le hring.nodup)

theorem found_of_bget {c' : Cache P}
    (hb : c.bget dev blockno = some (i, c')) : Found c order (dev, blockno) i c' := by
  unfold Cache.bget at hb
  split at hb
  · next j hj =>
    cases hb
    rw [lookup_eq dev blockno hring] at hj
    obtain ⟨hj, l₁, l₂, horder, hbefore⟩ := find?_eq_some_iff_append.1 hj
    refine .cached horder (fun k hk heq => ?_) ((key_eq_iff ..).1 (of_decide_eq_true hj))
    have hno := hbefore k hk
    rw [decide_eq_true ((key_eq_iff ..).2 heq)] at hno
    cases hno
  · next hnone =>
    rw [lookup_eq dev blockno hring] at hnone
    split at hb
    · next j hj =>
      cases hb
      rw [victim_eq hring] at hj
      have hzero := find?_some hj
      refine .recycled (fun k hk heq => ?_) (of_decide_eq_true hzero)
      exact find?_eq_none.1 hnone k hk (decide_eq_true ((key_eq_iff ..).2 heq))
    · cases hb

/-- `bget` runs out of buffers only if the block is not cached and every buffer is referred to. -/
theorem bget_ne_none (hall : ∀ i, i ∈ order)
    (h : (c.buf i).key = (dev, blockno) ∨ (c.buf i).refcnt = 0) : c.bget dev blockno ≠ none := by
  unfold Cache.bget
  split
  · exact Option.some_ne_none _
  · next hnone =>
    split
    · exact Option.some_ne_none _
    · next hfull =>
      rw [lookup_eq dev blockno hring] at hnone
      rw [victim_eq hring] at hfull
      rcases h with h | h
      · exact absurd (decide_eq_true ((key_eq_iff ..).2 h)) (find?_eq_none.1 hnone i (hall i))
      · exact absurd (decide_eq_true h) (find?_eq_none.1 hfull i (mem_reverse.2 (hall i)))

end

/-- What comes before a node in a list with no node twice. -/
theorem mem_of_sublist (hnodup : (l₁ ++ i :: l₂).Nodup) (h : [j, i].Sublist (l₁ ++ i :: l₂)) : j ∈ l₁ := by
  have hi := (nodup_cons.1 (nodup_append.1 hnodup).2.1).1
  obtain ⟨a, b, hab, ha, hb⟩ := sublist_append_iff.1 h
  cases a with
  | nil =>
    obtain rfl : [j, i] = b := hab
    rcases cons_sublist_cons'.1 hb with hb | ⟨-, hb⟩
    · exact absurd (hb.subset (mem_cons_of_mem j (mem_singleton_self i))) hi
    · exact absurd (hb.subset (mem_singleton_self i)) hi
  | cons x a =>
    obtain rfl := (cons.inj hab).1
    exact ha.subset mem_cons_self

theorem sublist_of_mem (h : j ∈ l₂) : [i, j].Sublist (l₁ ++ i :: l₂) :=
  ((singleton_sublist.2 h).cons_cons i).trans (sublist_append_right l₁ (i :: l₂))

/-! ## Changes of single fields -/

theorem pinned_congr (hg : t.given i = s.given i) (hp : t.pins = s.pins) (hk : (t.buf i).key = (s.buf i).key) :
    Pinned L t i ↔ Pinned L s i := by
  obtain ⟨hdev, hblock⟩ := Prod.mk.inj hk
  unfold Pinned
  rw [hg, hp, hdev, hblock]

variable {k : Key}

@[simp] theorem setBuf_id (c : Cache P) (i : Slot) : c.setBuf i id = c := by simp [Cache.setBuf]

/-- Buffer `i` is given to a block, before anybody refers to it. -/
def assigned (s : State P) (i : Slot) (k : Key) : State P :=
  { s with toCache := s.toCache.setBuf i fun b => (b.assign k.1 k.2).withRefcnt 0, given := update s.given i true }

theorem given_assigned : (assigned s i k).given j = true ↔ j = i ∨ s.given j = true := by
  by_cases hj : j = i
  · simp [assigned, hj]
  · simp [assigned, hj]

theorem order_assigned (ho : Order s order)
    (hzero : k = (0, 0) → ∀ j, s.given j = false → j ≠ i → [i, j].Sublist order) : Order (assigned s i k) order := by
  refine ⟨ho.ring, ho.all, fun a b ha hk hb => ?_⟩
  have hbi : b ≠ i := fun heq => by simp [assigned, heq] at hb
  have hgb : s.given b = false := by simpa [assigned, hbi] using hb
  by_cases hai : a = i
  · subst hai
    simp only [assigned, setBuf_self] at hk
    exact hzero hk b hgb hbi
  · have hka : (s.buf a).key = (0, 0) := by rwa [assigned, setBuf_of_ne _ _ hai] at hk
    exact ho.zero a b ((given_assigned.1 ha).resolve_left hai) hka hgb

/-- A buffer that has been assigned is moved to the front. -/
theorem Order.relink (ho : Order s order) (hg : s.given i = true) :
    ∃ order, Order { s with toCache := (s.toCache.unlink i).pushFront i } order := by
  obtain ⟨l₁, l₂, rfl⟩ := append_of_mem (ho.all i)
  have hi : i ∉ l₁ ++ l₂ := by
    have := nodup_middle.1 ho.ring.nodup
    exact (nodup_cons.1 this).1
  have hprev : update s.prev (s.next (some i)) (s.prev (some i)) (some i) = s.prev (some i) := by
    by_cases heq : some i = s.next (some i)
    · rw [← heq, update_self]
    · rw [update_of_ne heq]
  have hring := ho.ring.unlink.push hi
  refine ⟨i :: (l₁ ++ l₂), ?_, fun j => ?_, fun a b ha hk hb => ?_⟩
  · unfold Cache.pushFront Cache.unlink
    simp only [hprev]
    exact hring
  · exact perm_middle.mem_iff.1 (ho.all j)
  · have hbi : b ≠ i := fun heq => by simp [heq, hg] at hb
    by_cases hai : a = i
    · subst hai
      have hmem : b ∈ a :: (l₁ ++ l₂) := perm_middle.mem_iff.1 (ho.all b)
      exact (singleton_sublist.2 ((mem_cons.1 hmem).resolve_left hbi)).cons_cons a
    · have hsub := (ho.zero a b ha hk hb).erase i
      rw [erase_of_not_mem (by simp [Ne.symm hai, Ne.symm hbi]), erase_append_right _ fun h => hi (mem_append_left _ h),
        erase_cons_head] at hsub
      exact hsub.cons i

theorem decref_cases (c : Cache P) (i : Slot) : c.decref i = (c.setBuf i fun b => b.withRefcnt (b.refcnt - 1)) ∨
    c.decref i = ((c.setBuf i fun b => b.withRefcnt (b.refcnt - 1)).unlink i).pushFront i := by
  unfold Cache.decref
  dsimp only
  split
  · exact .inr rfl
  · exact .inl rfl

theorem decref_alike (c : Cache P) (i j : Slot) : Alike (c.buf j) ((c.decref i).buf j) := by
  have hbuf := setBuf_alike (c := c) (i := i) (f := fun b => b.withRefcnt (b.refcnt - 1)) ⟨rfl, rfl, rfl, rfl⟩
  rcases decref_cases c i with hc | hc
  · rw [hc]
    exact hbuf j
  · rw [hc]
    exact hbuf j

theorem decref_disk (c : Cache P) (i : Slot) : (c.decref i).disk = c.disk := by
  rcases decref_cases c i with hc | hc <;> rw [hc] <;> rfl

section

variable [Fintype P]

/-- The rest of the state does not matter. -/
theorem Good.congr (h : Good L s) (hcache : t.toCache = s.toCache) (hwant : t.want = s.want) (hdrop : t.drop = s.drop)
    (hgiven : t.given = s.given) (hdirty : t.dirty = s.dirty) (hpins : t.pins = s.pins)
    (hleft : t.left = s.left) : Good L t := by
  obtain ⟨order, ho⟩ := h.order
  have hpinned : ∀ j, Pinned L t j ↔ Pinned L s j := fun j => pinned_congr (congrFun hgiven j) hpins (by rw [hcache])
  refine ⟨⟨order, ?_, ho.all, ?_⟩, ?_, ?_, ?_, ?_, ?_, ?_, ?_, ?_⟩
  all_goals simp only [hpinned, hcache, hwant, hdrop, hgiven, hdirty, hpins, hleft]
  exacts [ho.ring, ho.zero, h.unique, h.fresh, h.refs, h.clean, h.disk, h.dirty, h.pinned, h.nodup]

/-- Buffer `i` changes but for its block, and with it who refers to it and what is on record for it. -/
theorem Good.change {want drop : P → Option Slot} {d : Key → Block} {r : History} (h : Good L s) (hg : s.given i = true)
    (hkey : (f (s.buf i)).key = (s.buf i).key) (hgiven : r.given = s.given) (hnodup : r.pins.Nodup)
    (hrefs : (f (s.buf i)).refcnt = tally want i + tally drop i + (if (f (s.buf i)).lock = none then 0 else 1) +
      if (s.buf i).dev = L.dev ∧ (s.buf i).blockno ∈ r.pins then 1 else 0)
    (hclean : (f (s.buf i)).valid = true → r.dirty i = false → (f (s.buf i)).data = r.left (s.buf i).key)
    (hdirty : r.dirty i = true → (f (s.buf i)).lock ≠ none ∧ (f (s.buf i)).valid = true)
    (hvalid : (s.buf i).dev = L.dev → (s.buf i).blockno ∈ r.pins → (f (s.buf i)).valid = true)
    (hother : ∀ j, j ≠ i → tally want j + tally drop j = tally s.want j + tally s.drop j ∧ r.dirty j = s.dirty j ∧
      (s.given j = true → r.left (s.buf j).key = s.left (s.buf j).key))
    (hmem : ∀ b, (s.buf i).key ≠ (L.dev, b) → (b ∈ r.pins ↔ b ∈ s.pins))
    (hdisk : ∀ k, d k = r.left k ∨ k.1 = L.dev ∧ k.2 ∈ r.pins) :
    Good L { s with toCache := { s.toCache.setBuf i f with disk := d }, want := want, drop := drop, toHistory := r } := by
  obtain ⟨order, ho⟩ := h.order
  have hself : (s.toCache.setBuf i f).buf i = f (s.buf i) := setBuf_self ..
  have hne : ∀ j, j ≠ i → (s.toCache.setBuf i f).buf j = s.buf j := fun j hj => setBuf_of_ne _ _ hj
  have hkeys : ∀ j, ((s.toCache.setBuf i f).buf j).key = (s.buf j).key := fun j => by
    by_cases hj : j = i
    · rw [hj, hself, hkey]
    · rw [hne j hj]
  refine ⟨⟨order, ho.ring, ho.all, ?_⟩, ?_, fun j hgj => ?_, fun j => ?_, fun j hgj hv hdj => ?_, hdisk, fun j hd => ?_, fun b hb => ?_, hnodup⟩
  · simp only [hgiven, hkeys]
    exact ho.zero
  · simp only [hgiven, hkeys]
    exact h.unique
  · have hgj : s.given j = false := (congrFun hgiven j).symm.trans hgj
    have hj : j ≠ i := fun heq => by simp [heq, hg] at hgj
    simp only [hne j hj]
    exact h.fresh j hgj
  · by_cases hj : j = i
    · obtain ⟨hdev, hblock⟩ := Prod.mk.inj hkey
      simp only [Pinned, hj, hself, hgiven, hg, hdev, hblock, true_and]
      exact hrefs
    · have hiff : Pinned L { s with toCache := { s.toCache.setBuf i f with disk := d }, want := want, drop := drop, toHistory := r } j ↔
          Pinned L s j := by
        unfold Pinned
        simp only [hne j hj, hgiven]
        refine and_congr_right fun hgj => and_congr_right fun hdevj => hmem _ fun hk => h.key_ne hg hgj hj ?_
        rw [hk, ← hdevj]
        rfl
      simp only [hiff, hne j hj, (hother j hj).1]
      exact h.refs j
  · have hgj : s.given j = true := (congrFun hgiven j).symm.trans hgj
    simp only [hkeys]
    by_cases hj : j = i
    · subst hj
      simp only [hself] at hv ⊢
      exact hclean hv hdj
    · obtain ⟨-, hd, hleft⟩ := hother j hj
      simp only [hne j hj] at hv ⊢
      rw [hleft hgj]
      exact h.clean j hgj hv (hd ▸ hdj)
  · by_cases hj : j = i
    · subst hj
      simp only [hself]
      exact hdirty hd
    · simp only [hne j hj]
      exact h.dirty j ((hother j hj).2.1 ▸ hd)
  · simp only [hgiven, hkeys]
    by_cases hk : (s.buf i).key = (L.dev, b)
    · obtain ⟨hdev, hblock⟩ := Prod.mk.inj hk
      exact ⟨i, hg, hk, hself ▸ hvalid hdev (hblock ▸ hb)⟩
    · obtain ⟨j, hgj, hkj, hv⟩ := h.pinned b ((hmem b hk).1 hb)
      have hj : j ≠ i := fun heq => hk (heq ▸ hkj)
      exact ⟨j, hgj, hkj, hne j hj ▸ hv⟩

/-- A buffer that nobody refers to can be given to a block that no other buffer has. -/
theorem Good.assign (h : Good L s) (ho : Order s order) (hr : (s.buf i).refcnt = 0)
    (hne : ∀ j, s.given j = true → j ≠ i → (s.buf j).key ≠ k)
    (hzero : k = (0, 0) → ∀ j, s.given j = false → j ≠ i → [i, j].Sublist order) : Good L (assigned s i k) := by
  have hself : (assigned s i k).buf i = ((s.buf i).assign k.1 k.2).withRefcnt 0 := update_self ..
  have hother : ∀ j, j ≠ i → (assigned s i k).buf j = s.buf j := fun j hj => update_of_ne hj ..
  have hrefs := h.refs i
  have hpin : ¬ Pinned L s i := fun hp => by
    have := h.refcnt_of_pinned hp
    omega
  have hlock : (s.buf i).lock = none := by
    by_contra hl
    have := h.refcnt_of_lock hl
    omega
  -- no pinned block is affected: its buffer is another one
  have hpins : ∀ b ∈ s.pins, ∃ j, j ≠ i ∧ s.given j = true ∧ (s.buf j).key = (L.dev, b) ∧ (s.buf j).valid = true := by
    intro b hb
    obtain ⟨j, hg, hk, hv⟩ := h.pinned b hb
    exact ⟨j, fun heq => hpin (heq ▸ Good.pinned_of_key hg hk hb), hg, hk, hv⟩
  have hpin' : ¬ Pinned L (assigned s i k) i := by
    rintro ⟨-, hdev, hb⟩
    rw [hself] at hdev hb
    obtain ⟨j, hj, hg, hk, -⟩ := hpins _ hb
    refine hne j hg hj (hk.trans ?_)
    rw [← hdev]
    rfl
  refine ⟨⟨order, order_assigned ho hzero⟩, ?_, ?_, ?_, ?_, h.disk, ?_, ?_, h.nodup⟩
  · intro a b ha hb hk
    by_cases hai : a = i <;> by_cases hbi : b = i
    · rw [hai, hbi]
    · rw [hai, hself, hother b hbi] at hk
      exact absurd hk.symm (hne b ((given_assigned.1 hb).resolve_left hbi) hbi)
    · rw [hbi, hself, hother a hai] at hk
      exact absurd hk (hne a ((given_assigned.1 ha).resolve_left hai) hai)
    · rw [hother a hai, hother b hbi] at hk
      exact h.unique a b ((given_assigned.1 ha).resolve_left hai) ((given_assigned.1 hb).resolve_left hbi) hk
  · intro j hg
    have hji : j ≠ i := fun heq => by simp [assigned, heq] at hg
    rw [hother j hji]
    exact h.fresh j (by simpa [assigned, hji] using hg)
  · intro j
    by_cases hj : j = i
    · subst hj
      rw [if_neg hpin, hlock, if_pos rfl] at hrefs
      rw [if_neg hpin', hself, Buf.withRefcnt_lock, Buf.assign_lock, if_pos hlock]
      show 0 = tally s.want j + tally s.drop j + 0 + 0
      omega
    · have hiff : Pinned L (assigned s i k) j ↔ Pinned L s j :=
        pinned_congr (update_of_ne hj ..) rfl (by rw [hother j hj])
      rw [hother j hj, h.refs j]
      simp only [hiff]
      rfl
  · intro j hg hv hd
    have hj : j ≠ i := fun heq => by rw [heq, hself] at hv; cases hv
    rw [hother j hj] at hv ⊢
    exact h.clean j ((given_assigned.1 hg).resolve_left hj) hv hd
  · intro j hd
    obtain ⟨hl, hv⟩ := h.dirty j hd
    have hj : j ≠ i := fun heq => hl (heq ▸ hlock)
    rw [hother j hj]
    exact ⟨hl, hv⟩
  · intro b hb
    obtain ⟨j, hj, hg, hk, hv⟩ := hpins b hb
    refine ⟨j, given_assigned.2 (.inr hg), ?_⟩
    rw [hother j hj]
    exact ⟨hk, hv⟩

/-- References to buffer `i`, and its lock, are taken or given up. -/
theorem Good.pass {want drop : P → Option Slot} {n : Nat} {l : Option P} (h : Good L s) (hg : s.given i = true)
    (hf : f (s.buf i) = ((s.buf i).withLock l).withRefcnt n)
    (hn : n = tally want i + tally drop i + (if l = none then 0 else 1) + if Pinned L s i then 1 else 0)
    (hsame : ∀ j, j ≠ i → tally want j + tally drop j = tally s.want j + tally s.drop j) (hd : s.dirty i = true → l ≠ none) :
    Good L { s with toCache := s.toCache.setBuf i f, want := want, drop := drop } := by
  simp only [Pinned, hg, true_and] at hn
  refine h.change (d := s.disk) (r := s.toHistory) hg ?_ rfl h.nodup ?_ ?_ ?_ ?_ (fun j hj => ⟨hsame j hj, rfl, fun _ => rfl⟩)
    (fun _ _ => Iff.rfl) h.disk
  all_goals rw [hf]
  exacts [rfl, hn, h.clean i hg, fun hdi => ⟨hd hdi, (h.dirty i hdi).2⟩, fun hdev hb => h.valid_of_pinned ⟨hg, hdev, hb⟩]

theorem Good.refs_of_unlocked (h : Good L s) (hl : (s.buf i).lock = none) :
    (s.buf i).refcnt = tally s.want i + tally s.drop i + if Pinned L s i then 1 else 0 := by
  have hrefs := h.refs i
  rwa [hl, if_pos rfl, Nat.add_zero] at hrefs

theorem Good.refs_of_locked (h : Good L s) (hl : (s.buf i).lock = some p) :
    (s.buf i).refcnt = tally s.want i + tally s.drop i + 1 + if Pinned L s i then 1 else 0 := by
  have hrefs := h.refs i
  rwa [hl, if_neg (Option.some_ne_none p)] at hrefs

theorem Good.relink (h : Good L s) (hg : s.given i = true) : Good L { s with toCache := (s.toCache.unlink i).pushFront i } := by
  obtain ⟨order, ho⟩ := h.order
  obtain ⟨order', ho'⟩ := ho.relink hg
  exact ⟨⟨order', ho'⟩, h.unique, h.fresh, h.refs, h.clean, h.disk, h.dirty, h.pinned, h.nodup⟩

variable [DecidableEq P]

/-- What a process that held no buffer in one of its hands now holds there, or the other way round. -/
theorem tally_take {f : P → Option Slot} (hf : f p = none) (j : Slot) :
    tally (update f p (some i)) j = tally f j + if j = i then 1 else 0 := by
  have h := tally_update f p (some i) j
  rw [hf] at h
  simpa [eq_comm] using h

theorem tally_drop {f : P → Option Slot} (hf : f p = some i) (j : Slot) :
    tally (update f p none) j + (if j = i then 1 else 0) = tally f j := by
  have h := tally_update f p none j
  rw [hf] at h
  simpa [eq_comm] using h

/-- A process gets a reference to a buffer that has been assigned. -/
theorem Good.reference (h : Good L s) (hw : s.want p = none) (hg : s.given i = true)
    (hf : f (s.buf i) = (s.buf i).withRefcnt ((s.buf i).refcnt + 1)) :
    Good L { s with toCache := s.toCache.setBuf i f, want := update s.want p (some i) } := by
  refine h.pass (l := (s.buf i).lock) hg hf ?_ (fun j hj => ?_) fun hd => (h.dirty i hd).1
  · rw [h.refs i, tally_take hw, if_pos rfl]
    omega
  · rw [tally_take hw, if_neg hj]
    rfl

/-- A process gets the first reference to a buffer that is given to a block. -/
theorem Good.assign_reference (h : Good L s) (ho : Order s order) (hw : s.want p = none)
    (hr : (s.buf i).refcnt = 0) (hne : ∀ j, s.given j = true → j ≠ i → (s.buf j).key ≠ k)
    (hzero : k = (0, 0) → ∀ j, s.given j = false → j ≠ i → [i, j].Sublist order) (hf : f (s.buf i) = (s.buf i).assign k.1 k.2) :
    Good L { s with toCache := s.toCache.setBuf i f, want := update s.want p (some i), given := update s.given i true } := by
  have hgood := Good.reference (f := fun _ => f (s.buf i)) (h.assign ho hr hne hzero) hw (update_self ..)
    (by rw [hf]; simp [assigned, Buf.withRefcnt, Buf.assign])
  have hcache : (assigned s i k).toCache.setBuf i (fun _ => f (s.buf i)) = s.toCache.setBuf i f := by
    simp [assigned, Cache.setBuf]
  rwa [hcache] at hgood

/-- What `bget` does: the process waits for a buffer that has the block. -/
structure Got (p : P) (k : Key) (i : Slot) (s t : State P) : Prop where
  want : t.want = update s.want p (some i)
  drop : t.drop = s.drop
  regs : t.regs = s.regs
  script : t.script = s.script
  key : (t.buf i).key = k
  lock : ∀ j, (t.buf j).lock = (s.buf j).lock
  trans : t.trans = s.trans
  pins : t.pins = s.pins
  left : t.left = s.left
  client : t.clients = s.clients
  polite : t.polite = s.polite

theorem bget_ok (h : Good L s) (hw : s.want p = none) (hb : s.bget p dev blockno = .ok t) :
    ∃ i, Got p (dev, blockno) i s t ∧ Good L t ∧ Frame p none s t := by
  obtain ⟨order, ho⟩ := h.order
  unfold State.bget at hb
  split at hb
  · cases hb
  · next i c hc =>
    cases hb
    refine ⟨i, ?_⟩
    cases found_of_bget ho.ring hc with
    | @cached l₁ l₂ horder hbefore hi =>
      have hnodup : (l₁ ++ i :: l₂).Nodup := horder ▸ ho.ring.nodup
      have hself := setBuf_self s.toCache i fun b => b.withRefcnt (b.refcnt + 1)
      refine ⟨⟨rfl, rfl, rfl, rfl, (congrArg Buf.key hself).trans hi,
        setBuf_lock (f := fun b => b.withRefcnt (b.refcnt + 1)) rfl, rfl, rfl, rfl, rfl, rfl⟩, ?_, ?_⟩
      · by_cases hg : s.given i = true
        · have hgood := h.reference hw hg (f := fun b => b.withRefcnt (b.refcnt + 1)) rfl
          have hupd : update s.given i true = s.given := by rw [← hg, update_eq_self]
          rw [hupd]
          exact hgood
        · have hg : s.given i = false := by simpa using hg
          obtain ⟨hkey, hvalid, hzero⟩ := h.fresh i hg
          -- nobody has been given the block yet: that buffer would come first
          refine h.assign_reference (k := (dev, blockno)) ho hw hzero (fun j hgj _ hkj => ?_) (fun hk j hgj hj => ?_) ?_
          · refine hbefore j (mem_of_sublist hnodup ?_) hkj
            rw [← horder]
            exact ho.zero j i hgj (hkj.trans (hi.symm.trans hkey)) hg
          · have hmem := ho.all j
            rw [horder] at hmem ⊢
            rcases mem_append.1 hmem with hl | hl
            · exact absurd ((h.fresh j hgj).1.trans hk.symm) (hbefore j hl)
            · exact sublist_of_mem ((mem_cons.1 hl).resolve_left hj)
          · obtain ⟨hdev, hblock⟩ := Prod.mk.inj hi
            rw [Buf.withRefcnt, Buf.assign, hzero, ← hdev, ← hblock, ← hvalid]
      · have hbuf := setBuf_alike (c := s.toCache) (i := i) (f := fun b => b.withRefcnt (b.refcnt + 1)) ⟨rfl, rfl, rfl, rfl⟩
        exact ⟨fun q hq => update_of_ne hq .., fun _ _ => rfl, fun _ _ => rfl, fun _ _ => rfl, fun j _ => (hbuf j).key,
          fun j _ _ => Kept.of_alike (hbuf j) rfl rfl rfl, fun j hj => by cases hj⟩
    | recycled hnone hi =>
      refine ⟨⟨rfl, rfl, rfl, rfl, congrArg Buf.key (setBuf_self s.toCache i fun b => b.assign dev blockno),
        setBuf_lock (f := fun b => b.assign dev blockno) rfl, rfl, rfl, rfl, rfl, rfl⟩, ?_, ?_⟩
      · refine h.assign_reference ho hw hi (fun j _ _ => hnone j (ho.all j)) (fun hk j hg hj => ?_) rfl
        exact absurd ((h.fresh j hg).1.trans hk.symm) (hnone j (ho.all j))
      · have hbuf : ∀ j, 0 < (s.buf j).refcnt → (s.toCache.setBuf i fun b => b.assign dev blockno).buf j = s.buf j :=
          fun j hj => setBuf_of_ne _ _ fun heq => by
            rw [heq] at hj
            omega
        exact ⟨fun q hq => update_of_ne hq .., fun _ _ => rfl, fun _ _ => rfl, fun _ _ => rfl, fun j hj => congrArg Buf.key (hbuf j hj),
          fun j hl _ => Kept.of_buf (hbuf j (h.refcnt_of_lock hl)) rfl rfl rfl, fun j hj => by cases hj⟩

/-! ## Locks and references -/

omit [Fintype P] in
theorem acquiresleep_eq (ha : s.acquiresleep p = .ok (i, t)) : s.want p = some i ∧ (s.buf i).lock = none ∧
    t = { s with toCache := s.toCache.setBuf i (·.withLock (some p)), want := update s.want p none } := by
  unfold State.acquiresleep Cache.acquiresleep at ha
  split at ha
  · cases ha
  · next j hw =>
    split at ha
    · cases ha
    · next c hc =>
      cases ha
      split at hc
      · next hl =>
        cases hc
        exact ⟨hw, hl, rfl⟩
      · cases hc

theorem acquiresleep_good (h : Good L s) (hw : s.want p = some i) (hl : (s.buf i).lock = none) :
    Good L { s with toCache := s.toCache.setBuf i (·.withLock (some p)), want := update s.want p none } := by
  have htake := tally_drop hw
  refine h.pass (h.given_of_refcnt (h.refcnt_of_want hw)) (n := (s.buf i).refcnt) (l := some p) rfl ?_ (fun j hj => ?_) fun _ => by simp
  · have hi := htake i
    rw [if_pos rfl] at hi
    rw [h.refs_of_unlocked hl, ← hi, if_neg (Option.some_ne_none p)]
    omega
  · have hj' := htake j
    rw [if_neg hj] at hj'
    omega

omit [Fintype P] in
theorem releasesleep_eq (ha : s.releasesleep p i = .ok t) : (s.buf i).lock = some p ∧
    t = { s with toCache := s.toCache.setBuf i (·.withLock none), drop := update s.drop p (some i) } := by
  unfold State.releasesleep at ha
  split at ha
  · next hl => exact ⟨hl, (Except.ok.inj ha).symm⟩
  · cases ha

theorem releasesleep_good (h : Good L s) (hl : (s.buf i).lock = some p) (hd : s.drop p = none) (hclean : s.dirty i = false) :
    Good L { s with toCache := s.toCache.setBuf i (·.withLock none), drop := update s.drop p (some i) } := by
  refine h.pass (h.given_of_lock hl) (n := (s.buf i).refcnt) (l := none) rfl ?_ (fun j hj => ?_) fun hdirty => by simp [hclean] at hdirty
  · rw [h.refs_of_locked hl, tally_take hd, if_pos rfl, if_pos rfl]
    omega
  · rw [tally_take hd, if_neg hj]
    rfl

theorem decref_good (h : Good L s) (hd : s.drop p = some i) :
    Good L { s with toCache := s.toCache.decref i, drop := update s.drop p none } := by
  have hg := h.given_of_refcnt (h.refcnt_of_drop hd)
  have hpos := h.refcnt_of_drop hd
  have htake := tally_drop hd
  have hgood : Good L { s with toCache := s.toCache.setBuf i fun b => b.withRefcnt (b.refcnt - 1), drop := update s.drop p none } := by
    refine h.pass (n := (s.buf i).refcnt - 1) (l := (s.buf i).lock) hg rfl ?_ (fun j hj => ?_) fun hd => (h.dirty i hd).1
    · have hi := htake i
      have hrefs := h.refs i
      rw [if_pos rfl] at hi
      omega
    · have hj' := htake j
      rw [if_neg hj] at hj'
      omega
  rcases decref_cases s.toCache i with hc | hc
  · rw [hc]
    exact hgood
  · rw [hc]
    exact hgood.relink hg

end

/-! ## Contents -/

section

variable [Fintype P] {r : History} {d : Key → Block}

/-- A locked buffer that is not valid is read from the disk. -/
theorem fill_good (h : Good L s) (hl : (s.buf i).lock = some p) : Good L (s.fill i) := by
  unfold State.fill Cache.fill
  split
  · exact h
  · next hv =>
    have hg := h.given_of_lock hl
    refine h.change (f := fun b => b.read (s.disk b.key)) hg rfl rfl h.nodup (h.refs_of_given hg) (fun _ _ => ?_)
      (fun hd => absurd (h.dirty i hd).2 hv) (fun _ _ => rfl) (fun _ _ => ⟨rfl, rfl, fun _ => rfl⟩) (fun _ _ => Iff.rfl) h.disk
    exact h.disk_of_not_pinned hg fun hp => hv (h.valid_of_pinned hp)

/-- The data of a valid buffer is changed. -/
theorem store_good (h : Good L s) (hl : (s.buf i).lock = some p) (hv : (s.buf i).valid = true) (d : Block) : Good L (s.store i d) := by
  have hg := h.given_of_lock hl
  refine h.change (f := fun b => b.withData d) (r := { s.toHistory with dirty := update s.dirty i true }) hg rfl rfl h.nodup
    (h.refs_of_given hg) (fun _ hd => ?_) (fun _ => ⟨by simp [hl], hv⟩) (fun _ _ => hv)
    (fun j hj => ⟨rfl, update_of_ne hj .., fun _ => rfl⟩) (fun _ _ => Iff.rfl) h.disk
  simp at hd

/-- What a buffer holds is left in its block: on the disk, or in the buffer if that is pinned. -/
theorem leave_good (h : Good L s) (hl : (s.buf i).lock = some p)
    (hgiven : r.given = s.given) (hpins : r.pins = s.pins) (hdirty : r.dirty = update s.dirty i false)
    (hleft : r.left = update s.left (s.buf i).key (s.buf i).data)
    (hd : d = update s.disk (s.buf i).key (s.buf i).data ∨ d = s.disk ∧ Pinned L s i) :
    Good L { s with toCache := { s.toCache with disk := d }, toHistory := r } := by
  have hg := h.given_of_lock hl
  have hgood := h.change (f := id) (d := d) (r := r) hg rfl hgiven (hpins ▸ h.nodup) (hpins ▸ h.refs_of_given hg)
    (fun _ _ => by rw [hleft, update_self]; rfl) (fun hdi => by simp [hdirty] at hdi)
    (fun hdev hb => h.valid_of_pinned ⟨hg, hdev, hpins ▸ hb⟩)
    (fun j hj => ⟨rfl, by rw [hdirty, update_of_ne hj], fun hgj => by rw [hleft, update_of_ne (h.key_ne hg hgj hj)]⟩)
    (fun _ _ => by rw [hpins]) fun k => by
      rw [hpins]
      by_cases hk : k = (s.buf i).key
      · rcases hd with rfl | ⟨-, hpin⟩
        · left
          rw [hleft]
          simp [hk]
        · exact .inr (hk ▸ hpin.2)
      · rw [hleft, update_of_ne hk]
        rcases hd with rfl | ⟨rfl, -⟩
        · rw [update_of_ne hk]
          exact h.disk k
        · exact h.disk k
  rwa [setBuf_id] at hgood

theorem pin_good (h : Good L s) (hg : s.given i = true) (hdev : (s.buf i).dev = L.dev)
    (hv : (s.buf i).valid = true) (hb : (s.buf i).blockno ∉ s.pins) (hgiven : r.given = s.given)
    (hdirty : r.dirty = s.dirty) (hleft : r.left = s.left) (hpins : r.pins = (s.buf i).blockno :: s.pins) :
    Good L { s with toCache := s.toCache.bpin i, toHistory := r } := by
  have hin : (s.buf i).blockno ∈ r.pins := by simp [hpins]
  refine h.change (f := fun b => b.withRefcnt (b.refcnt + 1)) hg rfl hgiven ?_ ?_ (by rw [hdirty, hleft]; exact h.clean i hg)
    (by rw [hdirty]; exact h.dirty i) (fun _ _ => hv) (fun j _ => ⟨rfl, by rw [hdirty], fun _ => by rw [hleft]⟩) (fun b hne => ?_) fun k => ?_
  · rw [hpins]
    exact nodup_cons.2 ⟨hb, h.nodup⟩
  · have hnot : ¬Pinned L s i := fun hp => hb hp.2.2
    simp [h.refs i, hnot, hdev, hin]
  · rw [hpins, mem_cons, or_iff_right]
    rintro rfl
    exact hne (Prod.mk.injEq .. ▸ ⟨hdev, rfl⟩)
  · rw [hleft, hpins]
    exact (h.disk k).imp_right fun hk => ⟨hk.1, mem_cons_of_mem _ hk.2⟩

theorem unpin_good (h : Good L s) (hp : Pinned L s i) (hdisk : s.disk (s.buf i).key = s.left (s.buf i).key) :
    Good L (s.bunpin i) := by
  have hnot : (s.buf i).blockno ∉ s.pins.erase (s.buf i).blockno := h.nodup.not_mem_erase
  refine h.change (f := fun b => b.withRefcnt (b.refcnt - 1)) (r := { s.toHistory with pins := s.pins.erase (s.buf i).blockno })
    hp.1 rfl rfl (h.nodup.erase _) ?_ (h.clean i hp.1) (h.dirty i) (fun _ hin => absurd hin hnot) (fun _ _ => ⟨rfl, rfl, fun _ => rfl⟩) (fun b hne => ?_) fun k => ?_
  · simp [h.refs i, hp, hnot]
  · refine mem_erase_of_ne ?_
    rintro rfl
    exact hne (Prod.mk.injEq .. ▸ ⟨hp.2.1, rfl⟩)
  · by_cases hk : k = (s.buf i).key
    · exact .inl (hk ▸ hdisk)
    · refine (h.disk k).imp_right fun hin => ⟨hin.1, (mem_erase_of_ne fun heq => hk ?_).2 hin.2⟩
      exact Prod.ext (hin.1.trans hp.2.1.symm) heq

end

/-! ## Frames -/

section

/-- A step of `q` that changes buffer `i` only, and its block. -/
theorem Frame.of_setBuf [Fintype P] (h : Good L s) (hg : s.given i = true)
    (hq : (s.buf i).lock = none ∨ (s.buf i).lock = some q) (hf : (f (s.buf i)).key = (s.buf i).key)
    (hbuf : t.buf = (s.toCache.setBuf i f).buf) (hwant : ∀ p, p ≠ q → t.want p = s.want p) (hdrop : ∀ p, p ≠ q → t.drop p = s.drop p)
    (hregs : ∀ p, p ≠ q → t.regs p = s.regs p) (hscript : t.script = s.script) (hdirty : ∀ j, j ≠ i → t.dirty j = s.dirty j)
    (hleft : ∀ k, k ≠ (s.buf i).key → t.left k = s.left k)
    (hdisk : ∀ k, k ≠ (s.buf i).key → t.disk k = s.disk k) : Frame q (some i) s t := by
  have hne : ∀ j, j ≠ i → t.buf j = s.buf j := fun j hj => by rw [hbuf, setBuf_of_ne _ _ hj]
  refine ⟨hwant, hdrop, hregs, fun p _ => congrFun hscript p, fun j _ => ?_, fun j hl hj => ?_, fun j hj => ?_⟩
  · by_cases hj : j = i
    · rw [hj, hbuf, setBuf_self]
      exact hf
    · rw [hne j hj]
  · have hji : j ≠ i := fun heq => hj (congrArg some heq)
    have hk := h.key_ne hg (h.given_of_refcnt (h.refcnt_of_lock hl)) hji
    exact Kept.of_buf (hne j hji) (hdirty j hji) (hleft _ hk) (hdisk _ hk)
  · rw [Option.some.inj hj]
    exact hq

theorem fill_buf (s : State P) (i : Slot) : ((s.fill i).buf i).key = (s.buf i).key ∧
    ((s.fill i).buf i).lock = (s.buf i).lock ∧ ((s.fill i).buf i).valid = true := by
  unfold State.fill Cache.fill
  split
  · next hv => exact ⟨rfl, rfl, hv⟩
  · rw [setBuf_self]
    exact ⟨rfl, rfl, rfl⟩

theorem fill_lock (s : State P) (i j : Slot) : ((s.fill i).buf j).lock = (s.buf j).lock := by
  unfold State.fill Cache.fill
  split
  · rfl
  · exact setBuf_lock (f := fun b => b.read (s.disk b.key)) rfl j

theorem fill_frame [Fintype P] (h : Good L s) (hl : (s.buf i).lock = some q) : Frame q (some i) s (s.fill i) := by
  have hbuf : ∃ f : Buf P → Buf P, (f (s.buf i)).key = (s.buf i).key ∧ (s.fill i).toCache = s.toCache.setBuf i f := by
    unfold State.fill Cache.fill
    split
    · exact ⟨id, rfl, (setBuf_id ..).symm⟩
    · exact ⟨fun b => b.read (s.disk b.key), rfl, rfl⟩
  obtain ⟨f, hf, hc⟩ := hbuf
  exact .of_setBuf h (h.given_of_lock hl) (.inr hl) hf (by rw [hc]) (fun _ _ => rfl) (fun _ _ => rfl) (fun _ _ => rfl) rfl (fun _ _ => rfl)
    (fun _ _ => rfl) fun k _ => by rw [hc]; rfl

theorem store_frame [Fintype P] (h : Good L s) (hl : (s.buf i).lock = some q) (d : Block) : Frame q (some i) s (s.store i d) :=
  .of_setBuf (f := fun b => b.withData d) h (h.given_of_lock hl) (.inr hl) rfl rfl (fun _ _ => rfl) (fun _ _ => rfl) (fun _ _ => rfl) rfl
    (fun _ hj => update_of_ne hj ..) (fun _ _ => rfl) fun _ _ => rfl

theorem leave_frame [Fintype P] {d : Key → Block} {r : History} (h : Good L s) (hl : (s.buf i).lock = some q)
    (hdirty : r.dirty = update s.dirty i false)
    (hleft : r.left = update s.left (s.buf i).key (s.buf i).data)
    (hd : ∀ k, k ≠ (s.buf i).key → d k = s.disk k) :
    Frame q (some i) s { s with toCache := { s.toCache with disk := d }, toHistory := r } :=
  .of_setBuf (f := id) h (h.given_of_lock hl) (.inr hl) rfl (by rw [setBuf_id]) (fun _ _ => rfl) (fun _ _ => rfl) (fun _ _ => rfl) rfl
    (fun j hj => by simp [hdirty, hj]) (fun k hk => by simp [hleft, hk]) hd

variable [DecidableEq P]

theorem decref_frame (s : State P) (q : P) (i : Slot) :
    Frame q none s { s with toCache := s.toCache.decref i, drop := update s.drop q none } :=
  ⟨fun _ _ => rfl, fun p hp => update_of_ne hp .., fun _ _ => rfl, fun _ _ => rfl, fun j _ => (decref_alike s.toCache i j).key,
    fun j _ _ => Kept.of_alike (decref_alike s.toCache i j) rfl rfl (by rw [decref_disk]), fun j hj => by cases hj⟩

end

end BioAux

end Xv6.Bio
