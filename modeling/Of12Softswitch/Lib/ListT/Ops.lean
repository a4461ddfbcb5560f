import Of12Softswitch.Lib.ListT.Basic

/-!
# List operations (`lib/list_t.c`)

Models of `list_t_init` … `list_t_is_empty` (`lib/list_t.c`, lines 37–167)
as sequences of reads and writes of the `prev` and `next` fields, in the order
the C code performs them. `list_t_front` and `list_t_back` return `none` where
their `assert` fails; `list_t_size` runs its loop for at most `fuel` tests of
the loop condition.

`list_t_insert` and `list_t_remove` make the pointer writes of the two halves
of `list_t_splice` on a chain of one node, so the halves (`linkChain`,
`unlinkChain`) are specified once, on chains of any length, first on a ring read
from the node they work at and then, by rotation, on a list held by a head.
`list_t_replace` leaves the memory that `list_t_remove` followed by
`list_t_insert` leaves.

Results:
* `holds_unlinkChain`, `holds_linkChain`: unlinking a chain from a list, and
  linking a chain in before a node of a list.
* `holds_listTInsert`: inserting `x` before `p` (an element or the head)
  inserts it into the sequence.
* `holds_listTRemove`, `holds_listTReplace`: removing or replacing the element
  `e`, and `listTRemove` returns the node after it.
* `listTRemove_listTInsert`: `list_t_remove` undoes `list_t_insert`, and
  `listTReplace_listTReplace`: replacing back undoes `list_t_replace`, for a
  node that is not alone on its ring.
* `listTSize_eq`: `list_t_size` terminates after `k + 1` tests and returns `k`.
* `listT_refines`: all operations, with the frame condition that lists disjoint
  from the one operated on keep their contents.
-/

namespace Of12Softswitch.Lib

/-! ## The operations -/

/-- `list_t_init` (lines 37–42): `list->next = list->prev = list`. -/
def listTInit (m : Mem) (list : Node) : Mem := (m.setPrev list list).setNext list list

/-- `list_t_insert` (lines 44–52): inserts `elem` just before `before`. -/
def listTInsert (m : Mem) (before elem : Node) : Mem :=
  let m := m.setPrev elem (m.prev before)
  let m := m.setNext elem before
  let m := m.setNext (m.prev before) elem
  m.setPrev before elem

/-- `list_t_push_front` (lines 74–80). -/
def listTPushFront (m : Mem) (list elem : Node) : Mem := listTInsert m (m.next list) elem

/-- `list_t_push_back` (lines 82–88). -/
def listTPushBack (m : Mem) (list elem : Node) : Mem := listTInsert m list elem

/-- `list_t_replace` (lines 90–99): puts `element` in the place of `position`. -/
def listTReplace (m : Mem) (element position : Node) : Mem :=
  let m := m.setNext element (m.next position)
  let m := m.setPrev (m.next element) element
  let m := m.setPrev element (m.prev position)
  m.setNext (m.prev element) element

/-- `list_t_remove` (lines 101–109): unlinks `elem` and returns the node that
    followed it. -/
def listTRemove (m : Mem) (elem : Node) : Mem × Node :=
  let m := m.setNext (m.prev elem) (m.next elem)
  let m := m.setPrev (m.next elem) (m.prev elem)
  (m, m.next elem)

/-- `list_t_pop_front` (lines 111–119). -/
def listTPopFront (m : Mem) (list : Node) : Mem × Node :=
  let front := m.next list
  ((listTRemove m front).1, front)

/-- `list_t_pop_back` (lines 121–129). -/
def listTPopBack (m : Mem) (list : Node) : Mem × Node :=
  let back := m.prev list
  ((listTRemove m back).1, back)

/-- `list_t_is_empty` (lines 162–167). -/
def listTIsEmpty (m : Mem) (list : Node) : Bool := m.next list == list

/-- `list_t_front` (lines 131–138); `none` where the `assert` fails. -/
def listTFront (m : Mem) (list : Node) : Option Node :=
  if listTIsEmpty m list then none else some (m.next list)

/-- `list_t_back` (lines 140–147); `none` where the `assert` fails. -/
def listTBack (m : Mem) (list : Node) : Option Node :=
  if listTIsEmpty m list then none else some (m.prev list)

/-- The loop `for (e = …; e != list; e = e->next) cnt++;` of `list_t_size` from
    node `e` with count `cnt`, for at most `fuel` tests of its condition. -/
def listTSizeLoop (m : Mem) (list : Node) : ℕ → Node → ℕ → Option ℕ
  | 0, _, _ => none
  | fuel + 1, e, cnt => if e ≠ list then listTSizeLoop m list fuel (m.next e) (cnt + 1) else some cnt

/-- `list_t_size` (lines 149–160); the `size_t` count is a natural number. -/
def listTSize (m : Mem) (list : Node) (fuel : ℕ) : Option ℕ :=
  listTSizeLoop m list fuel (m.next list) 0

/-- Lines 63–65 of `list_t_splice`: unlinks the chain `first … last` from its
    list. `list_t_remove` makes the same two writes on a chain of one node. -/
def unlinkChain (m : Mem) (first last : Node) : Mem :=
  let m := m.setNext (m.prev first) (m.next last)
  m.setPrev (m.next last) (m.prev first)

/-- Lines 67–71 of `list_t_splice`: links the chain `first … last` in just
    before `before`. `list_t_insert` makes the same four writes on a chain of one
    node. -/
def linkChain (m : Mem) (before first last : Node) : Mem :=
  let m := m.setPrev first (m.prev before)
  let m := m.setNext last before
  let m := m.setNext (m.prev before) first
  m.setPrev before last

/-! ## The sequences -/

/-- `s` with `seg` inserted just before the first `p`, or at the end when `p`
    does not occur in `s`. -/
def insertBefore (p : Node) (seg : List Node) : List Node → List Node
  | [] => seg
  | y :: l => if y = p then seg ++ y :: l else y :: insertBefore p seg l

theorem insertBefore_of_not_mem {p : Node} {seg s : List Node} (h : p ∉ s) :
    insertBefore p seg s = s ++ seg := by
  induction s with
  | nil => rfl
  | cons y s ih =>
    simp only [List.mem_cons, not_or] at h
    simp [insertBefore, Ne.symm h.1, ih h.2]

theorem insertBefore_append_cons {p : Node} {seg u v : List Node} (h : p ∉ u) :
    insertBefore p seg (u ++ p :: v) = u ++ seg ++ p :: v := by
  induction u with
  | nil => simp [insertBefore]
  | cons y u ih =>
    simp only [List.mem_cons, not_or] at h
    simp [insertBefore, Ne.symm h.1, ih h.2]

@[simp] theorem mem_insertBefore {p y : Node} {seg s : List Node} :
    y ∈ insertBefore p seg s ↔ y ∈ seg ∨ y ∈ s := by
  induction s with
  | nil => simp [insertBefore]
  | cons x s ih =>
    by_cases h : x = p
    · simp [insertBefore, h]
    · simp only [insertBefore, h, if_false, List.mem_cons, ih]
      exact or_left_comm

/-- The nodes of a list outside a chain `seg` are in the list. -/
theorem sublist_unlinked (u seg r : List Node) : (u ++ r).Sublist (u ++ seg ++ r) :=
  (List.sublist_append_left u seg).append (List.Sublist.refl r)

/-- A node of a list outside the chain `seg` is a node of the rest. -/
theorem mem_unlinked {A y : Node} {u seg r : List Node} (hy : y ∈ A :: (u ++ seg ++ r))
    (hs : y ∉ seg) : y ∈ A :: (u ++ r) := by
  rcases List.mem_cons.mp hy with rfl | hy
  · exact .head _
  rcases List.mem_append.mp hy with hy | hy
  · exact .tail _ (List.mem_append_left _ ((List.mem_append.mp hy).resolve_right hs))
  · exact .tail _ (List.mem_append_right _ hy)

/-! ## Chains -/

theorem listTInsert_eq_linkChain (m : Mem) (before elem : Node) :
    listTInsert m before elem = linkChain m before elem elem := rfl

theorem listTRemove_eq_unlinkChain (m : Mem) (elem : Node) :
    listTRemove m elem = (unlinkChain m elem elem, (unlinkChain m elem elem).next elem) := rfl

@[simp] theorem unlinkChain_next (m : Mem) (first last y : Node) :
    (unlinkChain m first last).next y = if y = m.prev first then m.next last else m.next y := by
  simp [unlinkChain]

@[simp] theorem unlinkChain_prev (m : Mem) (first last y : Node) :
    (unlinkChain m first last).prev y = if y = m.next last then m.prev first else m.prev y := by
  simp [unlinkChain]

@[simp] theorem linkChain_next (m : Mem) (before first last y : Node) :
    (linkChain m before first last).next y =
      if y = m.prev before then first else if y = last then before else m.next y := by
  simp [linkChain]

@[simp] theorem linkChain_prev (m : Mem) (before first last y : Node) :
    (linkChain m before first last).prev y =
      if y = before then last else if y = first then m.prev before else m.prev y := by
  simp [linkChain]

/-- Unlinking the chain `seg` at the front of the list of `P`. -/
theorem holds_unlinkChain_head {m : Mem} {P first last : Node} {seg w : List Node}
    (h : Holds m P (seg ++ w)) (hf : seg.head? = some first) (hl : seg.getLast? = some last) :
    Holds (unlinkChain m first last) P w ∧ Linked (unlinkChain m first last) seg := by
  obtain ⟨hnd, hlk⟩ := h
  rw [List.nodup_cons, List.nodup_append] at hnd
  obtain ⟨hP, -, hwnd, hdis⟩ := hnd
  have hPseg : P ∉ seg := fun h => hP (List.mem_append_left _ h)
  have hPw : P ∉ w := fun h => hP (List.mem_append_right _ h)
  have hN : (w ++ [P]).head? = some (w.headD P) := by cases w <;> rfl
  rw [show P :: (seg ++ w) ++ [P] = [P] ++ (seg ++ (w ++ [P])) by simp,
    linked_append (show [P].getLast? = some P from rfl) (by rw [List.head?_append, hf]; rfl),
    linked_append hl hN] at hlk
  obtain ⟨-, ⟨-, hPf⟩, hseg, ⟨hLN, -⟩, hw⟩ := hlk
  have hNseg : w.headD P ∉ seg := by
    cases w with
    | nil => exact hPseg
    | cons N w => exact fun h => hdis h (.head _)
  have hwP : (w ++ [P]).Nodup :=
    (List.perm_append_singleton P w).nodup_iff.mpr (List.nodup_cons.mpr ⟨hPw, hwnd⟩)
  refine ⟨⟨List.nodup_cons.mpr ⟨hPw, hwnd⟩, ?_⟩, hseg.frame (fun y hy => ?_) (fun y hy => ?_)⟩
  · rw [show P :: w ++ [P] = [P] ++ (w ++ [P]) from rfl,
      linked_append (show [P].getLast? = some P from rfl) hN]
    refine ⟨linked_singleton _ _, by simp [Link, hPf, hLN], hw.frame (fun y hy => ?_) (fun y hy => ?_)⟩
    · rw [List.dropLast_concat] at hy
      rw [unlinkChain_next, hPf, if_neg fun e : y = P => hPw (e ▸ hy)]
    · rw [unlinkChain_prev, hLN, if_neg (ne_of_mem_tail hwP hN hy)]
  · rw [unlinkChain_next, hPf, if_neg fun e : y = P => hPseg (e ▸ List.mem_of_mem_dropLast hy)]
  · rw [unlinkChain_prev, hLN,
      if_neg fun e : y = w.headD P => hNseg (e ▸ List.mem_of_mem_tail hy)]

/-- Linking the chain `seg` in just before the head `p`: it becomes the back of
    `p`'s list. -/
theorem holds_linkChain_head {m : Mem} {p first last : Node} {seg w : List Node}
    (h : Holds m p w) (hs : Linked m seg) (hf : seg.head? = some first)
    (hl : seg.getLast? = some last) (hnd : (p :: w ++ seg).Nodup) :
    Holds (linkChain m p first last) p (w ++ seg) := by
  obtain ⟨hpw, hsnd, hdis⟩ := List.nodup_append.mp hnd
  have hBp := h.getLast?_eq
  have ne : ∀ y ∈ p :: w, ∀ z ∈ seg, y ≠ z := fun y hy z hz e => hdis hy (e ▸ hz)
  have hps := ne p (.head _)
  have hBps := ne _ (List.mem_of_mem_getLast? hBp)
  refine ⟨by rwa [List.cons_append] at hnd, ?_⟩
  rw [show p :: (w ++ seg) ++ [p] = (p :: w) ++ (seg ++ [p]) by simp,
    linked_append hBp (by rw [List.head?_append, hf]; rfl),
    linked_append hl (show [p].head? = some p from rfl)]
  refine ⟨Linked.frame (List.Chain'.left_of_append h.2) (fun y hy => ?_) (fun y hy => ?_),
    ⟨by simp, ?_⟩, hs.frame (fun y hy => ?_) (fun y hy => ?_), ⟨?_, by simp⟩, linked_singleton _ _⟩
  · have hy' := List.mem_of_mem_dropLast hy
    simp [ne_of_mem_dropLast hpw hBp hy, ne y hy' last (List.mem_of_mem_getLast? hl)]
  · have hy' : y ∈ p :: w := .tail _ hy
    simp [ne y hy' first (List.mem_of_mem_head? hf),
      show y ≠ p from fun e => (List.nodup_cons.mp hpw).1 (e ▸ hy)]
  · simp [(hps first (List.mem_of_mem_head? hf)).symm]
  · have hy' := List.mem_of_mem_dropLast hy
    simp [(hBps y hy').symm, ne_of_mem_dropLast hsnd hl hy]
  · have hy' := List.mem_of_mem_tail hy
    simp [(hps y hy').symm, ne_of_mem_tail hsnd hf hy]
  · simp [(hBps last (List.mem_of_mem_getLast? hl)).symm]

/-- The first half of `list_t_splice` unlinks a chain `seg` from a list. -/
theorem holds_unlinkChain {m : Mem} {A first last : Node} {u seg r : List Node}
    (h : Holds m A (u ++ seg ++ r)) (hf : seg.head? = some first) (hl : seg.getLast? = some last) :
    Holds (unlinkChain m first last) A (u ++ r) ∧ Linked (unlinkChain m first last) seg := by
  obtain ⟨u₀, P, e⟩ : ∃ u₀ P, A :: u = u₀ ++ [P] :=
    ⟨_, _, (List.dropLast_append_getLast (List.cons_ne_nil A u)).symm⟩
  have r₁ : (A :: (u ++ seg ++ r)) ~r (P :: (seg ++ (r ++ u₀))) := by
    have : A :: (u ++ seg ++ r) = u₀ ++ P :: (seg ++ r) :=
      calc A :: (u ++ seg ++ r) = (A :: u) ++ (seg ++ r) := by simp
        _ = u₀ ++ P :: (seg ++ r) := by rw [e]; simp
    rw [this]
    simpa using @List.isRotated_append _ u₀ (P :: (seg ++ r))
  have r₂ : (P :: (r ++ u₀)) ~r (A :: (u ++ r)) := by
    have : A :: (u ++ r) = u₀ ++ P :: r :=
      calc A :: (u ++ r) = (A :: u) ++ r := rfl
        _ = u₀ ++ P :: r := by rw [e]; simp
    rw [this]
    simpa using @List.isRotated_append _ (P :: r) u₀
  obtain ⟨h', hs⟩ := holds_unlinkChain_head (h.of_isRotated r₁) hf hl
  exact ⟨h'.of_isRotated r₂, hs⟩

/-- The second half of `list_t_splice` links a chain `seg` in just before a
    node `p` of a list, or at its end when `p` is the head. -/
theorem holds_linkChain {m : Mem} {A p first last : Node} {s seg : List Node} (h : Holds m A s)
    (hp : p ∈ A :: s) (hs : Linked m seg) (hf : seg.head? = some first)
    (hl : seg.getLast? = some last) (hnd : (A :: s ++ seg).Nodup) :
    Holds (linkChain m p first last) A (insertBefore p seg s) := by
  rcases List.mem_cons.mp hp with rfl | hp
  · rw [insertBefore_of_not_mem (List.nodup_cons.mp h.1).1]
    exact holds_linkChain_head h hs hf hl hnd
  · obtain ⟨u, v, rfl⟩ := List.append_of_mem hp
    have hpu : p ∉ u := fun hu =>
      (List.nodup_append.mp (List.nodup_cons.mp h.1).2).2.2 hu (List.mem_cons_self p v)
    have hperm : (A :: (u ++ p :: v)).Perm (p :: (v ++ A :: u)) :=
      @List.perm_append_comm _ (A :: u) (p :: v)
    have := holds_linkChain_head (holds_rotate.mp h) hs hf hl ((hperm.append_right seg).nodup_iff.mp hnd)
    rw [List.append_assoc, List.cons_append, ← holds_rotate] at this
    rwa [insertBefore_append_cons hpu]

/-! ## Insertion and removal -/

/-- `list_t_insert(p, x)`, for `p` an element or the head, inserts `x` just
    before `p`. -/
theorem holds_listTInsert {m : Mem} {H x p : Node} {s : List Node} (hH : Holds m H s)
    (hx : x ∉ H :: s) (hp : p ∈ H :: s) : Holds (listTInsert m p x) H (insertBefore p [x] s) :=
  holds_linkChain hH hp (linked_singleton m x) rfl rfl
    ((List.perm_append_singleton x (H :: s)).nodup_iff.mpr (List.nodup_cons.mpr ⟨hx, hH.1⟩))

/-- `list_t_remove(e)` removes `e` and returns the element after it, or the head
    when `e` is the last element. -/
theorem holds_listTRemove {m : Mem} {H e : Node} {u v : List Node} (hH : Holds m H (u ++ e :: v)) :
    Holds (listTRemove m e).1 H (u ++ v) ∧ (listTRemove m e).2 = v.headD H := by
  refine ⟨(@holds_unlinkChain m H e e u [e] v (by simpa using hH) rfl rfl).1, ?_⟩
  rw [listTRemove_eq_unlinkChain, unlinkChain_next, ite_self, hH.next_elem]

/-- Lines 63–65 of `list_t_splice` undo lines 67–71: the memory comes back,
    but for the outer links of the chain, which keep pointing at the nodes it
    was linked between. -/
theorem unlinkChain_linkChain {m : Mem} {before first last : Node}
    (hl : m.next (m.prev before) = before) (h₁ : first ≠ before) (h₂ : last ≠ m.prev before) :
    unlinkChain (linkChain m before first last) first last =
      (m.setPrev first (m.prev before)).setNext last before := by
  have e₁ : (linkChain m before first last).prev first = m.prev before := by simp [h₁]
  have e₂ : (linkChain m before first last).next last = before := by simp [h₂]
  ext y
  · rw [unlinkChain_prev, e₁, e₂]
    by_cases hy : y = before
    · simp [hy, Ne.symm h₁]
    · simp [hy]
  · rw [unlinkChain_next, e₁, e₂]
    by_cases hy : y = m.prev before
    · simp [hy, Ne.symm h₂, hl]
    · simp [hy]

/-- `list_t_remove` undoes `list_t_insert`: it returns the node `elem` was
    inserted before, and leaves the memory as it was but for the two links of
    `elem` itself. -/
theorem listTRemove_listTInsert {m : Mem} {before elem : Node}
    (hl : m.next (m.prev before) = before) (h₁ : elem ≠ before) (h₂ : elem ≠ m.prev before) :
    listTRemove (listTInsert m before elem) elem =
      ((m.setPrev elem (m.prev before)).setNext elem before, before) := by
  rw [listTRemove_eq_unlinkChain, listTInsert_eq_linkChain, unlinkChain_linkChain hl h₁ h₂]
  simp

theorem listTRemove_listTInsert_one :
    (listTPushBack (listTInit ⟨id, id⟩ 0) 0 1).next
        ((listTPushBack (listTInit ⟨id, id⟩ 0) 0 1).prev 1) = 1 ∧
      2 ≠ 1 ∧ 2 ≠ (listTPushBack (listTInit ⟨id, id⟩ 0) 0 1).prev 1 ∧
      listTRemove (listTInsert (listTPushBack (listTInit ⟨id, id⟩ 0) 0 1) 1 2) 2 =
        (((listTPushBack (listTInit ⟨id, id⟩ 0) 0 1).setPrev 2
          ((listTPushBack (listTInit ⟨id, id⟩ 0) 0 1).prev 1)).setNext 2 1, 1) :=
  ⟨by decide, by decide, by decide, listTRemove_listTInsert (by decide) (by decide) (by decide)⟩

/-! ## Replacement -/

/-- `list_t_replace(element, position)` leaves the memory that removing
    `position` and inserting `element` before the node after it leaves. -/
theorem listTReplace_eq_listTInsert {m : Mem} {element position : Node}
    (h₁ : m.next position ≠ position) (h₂ : element ≠ m.next position) :
    listTReplace m element position =
      listTInsert (listTRemove m position).1 (m.next position) element := by
  have h₁' : position ≠ m.next position := Ne.symm h₁
  ext y
  · by_cases ha : y = element
    · simp [listTReplace, listTInsert_eq_linkChain, listTRemove_eq_unlinkChain, h₁', ha, h₂]
    · by_cases hb : y = m.next position <;>
        simp [listTReplace, listTInsert_eq_linkChain, listTRemove_eq_unlinkChain, h₁', ha, hb,
          Ne.symm h₂]
  · by_cases hc : y = m.prev position
    · simp [listTReplace, listTInsert_eq_linkChain, listTRemove_eq_unlinkChain, h₁', hc]
    · by_cases ha : y = element <;>
        simp [listTReplace, listTInsert_eq_linkChain, listTRemove_eq_unlinkChain, h₁', ha, hc]

/-- `list_t_replace(x, e)` puts `x` in the place of `e`. -/
theorem holds_listTReplace {m : Mem} {H e x : Node} {u v : List Node} (hH : Holds m H (u ++ e :: v))
    (hx : x ∉ H :: (u ++ e :: v)) : Holds (listTReplace m x e) H (u ++ x :: v) := by
  have hnext : m.next e ∈ H :: (u ++ e :: v) := hH.next_mem (by simp)
  have hne : m.next e ≠ e := by
    have hr := holds_rotate.mp hH
    have he := (List.nodup_cons.mp hr.1).1
    rw [hr.next_head]
    cases v <;> simp at he ⊢ <;> exact fun h => he.1 h.symm
  have hx' : x ∉ H :: (u ++ v) := fun h => hx (by simpa using ((sublist_unlinked u [e] v).cons₂ H).subset h)
  have hmem : v.headD H ∈ H :: (u ++ v) := by cases v <;> simp
  have := holds_listTInsert (holds_listTRemove hH).1 hx' hmem
  rw [listTReplace_eq_listTInsert hne (fun h : x = m.next e => hx (h ▸ hnext)), hH.next_elem]
  have hHu : H ∉ u := fun h => (List.nodup_cons.mp hH.1).1 (List.mem_append_left _ h)
  cases v with
  | nil => simpa [insertBefore_of_not_mem hHu] using this
  | cons b v =>
    have hbu : b ∉ u := fun h =>
      (List.nodup_append.mp (List.nodup_cons.mp hH.1).2).2.2 h (by simp)
    simpa [insertBefore_append_cons hbu] using this

theorem listTReplace_next {m : Mem} {element position : Node} (h : position ≠ m.next position)
    (y : Node) : (listTReplace m element position).next y =
      if y = m.prev position then element else if y = element then m.next position else m.next y := by
  simp [listTReplace, h]

theorem listTReplace_prev {m : Mem} {element position : Node} (h : position ≠ m.next position)
    (y : Node) : (listTReplace m element position).prev y =
      if y = element then m.prev position else if y = m.next position then element else m.prev y := by
  simp [listTReplace, h]

/-- `list_t_replace(position, element)` undoes `list_t_replace(element,
    position)` for a node `position` linked both ways to its neighbours and not
    alone on its ring, and a node `element` other than those three: the memory
    is as it was but for the two links of `element`, which keep pointing at the
    neighbours of `position`. -/
theorem listTReplace_listTReplace {m : Mem} {element position : Node}
    (hn : m.prev (m.next position) = position) (hp : m.next (m.prev position) = position)
    (h₀ : position ≠ m.next position) (h₁ : element ≠ position) (h₂ : element ≠ m.next position)
    (h₃ : element ≠ m.prev position) :
    listTReplace (listTReplace m element position) position element =
      (m.setNext element (m.next position)).setPrev element (m.prev position) := by
  have e₁ : (listTReplace m element position).next element = m.next position := by
    rw [listTReplace_next h₀, if_neg h₃, if_pos rfl]
  have e₂ : (listTReplace m element position).prev element = m.prev position := by
    rw [listTReplace_prev h₀, if_pos rfl]
  have h₀' : element ≠ (listTReplace m element position).next element := e₁ ▸ h₂
  refine Mem.eq_of_agree fun y => ⟨?_, ?_⟩
  · rw [listTReplace_next h₀', e₂, e₁, listTReplace_next h₀]
    by_cases hyp : y = m.prev position
    · simp [hyp, hp, Ne.symm h₃]
    · by_cases hyq : y = position
      · subst hyq
        simp [hyp, h₁]
      · simp [hyp, hyq]
  · rw [listTReplace_prev h₀', e₂, e₁, listTReplace_prev h₀]
    by_cases hyq : y = position
    · simp [hyq, Ne.symm h₁]
    · by_cases hyn : y = m.next position
      · simp [hyn, hn, Ne.symm h₂, Ne.symm h₀]
      · simp [hyq, hyn]

theorem listTReplace_listTReplace_one :
    (listTPushBack (listTInit ⟨id, id⟩ 0) 0 1).prev ((listTPushBack (listTInit ⟨id, id⟩ 0) 0 1).next 1) = 1 ∧
      (listTPushBack (listTInit ⟨id, id⟩ 0) 0 1).next ((listTPushBack (listTInit ⟨id, id⟩ 0) 0 1).prev 1) = 1 ∧
      1 ≠ (listTPushBack (listTInit ⟨id, id⟩ 0) 0 1).next 1 ∧ 2 ≠ 1 ∧
      2 ≠ (listTPushBack (listTInit ⟨id, id⟩ 0) 0 1).next 1 ∧
      2 ≠ (listTPushBack (listTInit ⟨id, id⟩ 0) 0 1).prev 1 ∧
      listTReplace (listTReplace (listTPushBack (listTInit ⟨id, id⟩ 0) 0 1) 2 1) 1 2 =
        ((listTPushBack (listTInit ⟨id, id⟩ 0) 0 1).setNext 2
          ((listTPushBack (listTInit ⟨id, id⟩ 0) 0 1).next 1)).setPrev 2
            ((listTPushBack (listTInit ⟨id, id⟩ 0) 0 1).prev 1) :=
  ⟨by decide, by decide, by decide, by decide, by decide, by decide,
    listTReplace_listTReplace (by decide) (by decide) (by decide) (by decide) (by decide) (by decide)⟩

/-! ## Lists held by a head -/

theorem holds_listTInit (m : Mem) (H : Node) : Holds (listTInit m H) H [] := by
  simp [Holds, listTInit, Link]

theorem holds_listTPushFront {m : Mem} {H x : Node} {s : List Node} (hH : Holds m H s)
    (hx : x ∉ H :: s) : Holds (listTPushFront m H x) H (x :: s) := by
  have hmem : s.headD H ∈ H :: s := hH.next_head ▸ hH.next_mem (.head _)
  have := holds_listTInsert hH hx hmem
  rw [listTPushFront, hH.next_head]
  cases s with
  | nil => exact this
  | cons y s => simpa [insertBefore] using this

theorem holds_listTPushBack {m : Mem} {H x : Node} {s : List Node} (hH : Holds m H s)
    (hx : x ∉ H :: s) : Holds (listTPushBack m H x) H (s ++ [x]) := by
  have := holds_listTInsert hH hx (.head _)
  rwa [insertBefore_of_not_mem (List.nodup_cons.mp hH.1).1] at this

theorem listTIsEmpty_iff {m : Mem} {H : Node} {s : List Node} (hH : Holds m H s) :
    listTIsEmpty m H = true ↔ s = [] := by
  rw [listTIsEmpty, beq_iff_eq, hH.next_head]
  cases s with
  | nil => simp
  | cons y s =>
    have : y ≠ H := fun e => (List.nodup_cons.mp hH.1).1 (e ▸ .head _)
    simp [this]

theorem listTFront_eq {m : Mem} {H e : Node} {s : List Node} (hH : Holds m H (e :: s)) :
    listTFront m H = some e := by
  rw [listTFront, if_neg (by simp [listTIsEmpty_iff hH]), hH.next_head]
  rfl

theorem listTBack_eq {m : Mem} {H e : Node} {s : List Node} (hH : Holds m H (s ++ [e])) :
    listTBack m H = some e := by
  rw [listTBack, if_neg (by simp [listTIsEmpty_iff hH]), hH.prev_head]

theorem holds_listTPopFront {m : Mem} {H e : Node} {s : List Node} (hH : Holds m H (e :: s)) :
    Holds (listTPopFront m H).1 H s ∧ (listTPopFront m H).2 = e := by
  refine ⟨?_, hH.next_head⟩
  simpa [listTPopFront, hH.next_head] using (@holds_listTRemove m H e [] s hH).1

theorem holds_listTPopBack {m : Mem} {H e : Node} {s : List Node} (hH : Holds m H (s ++ [e])) :
    Holds (listTPopBack m H).1 H s ∧ (listTPopBack m H).2 = e := by
  refine ⟨?_, hH.prev_head⟩
  simpa [listTPopBack, hH.prev_head] using (@holds_listTRemove m H e s [] hH).1

/-- The size loop from the node before `w ++ [H]` counts `w`. -/
theorem listTSizeLoop_eq {m : Mem} {H : Node} {w : List Node} (hH : H ∉ w)
    (hl : Linked m (w ++ [H])) {fuel : ℕ} (cnt : ℕ) (hfuel : w.length < fuel) :
    listTSizeLoop m H fuel (w.headD H) cnt = some (cnt + w.length) := by
  induction w generalizing cnt fuel with
  | nil =>
    obtain ⟨fuel, rfl⟩ : ∃ f, fuel = f + 1 := ⟨fuel - 1, by simp at hfuel; omega⟩
    simp [listTSizeLoop]
  | cons y w ih =>
    obtain ⟨fuel, rfl⟩ : ∃ f, fuel = f + 1 := ⟨fuel - 1, by simp at hfuel; omega⟩
    simp only [List.mem_cons, not_or] at hH
    have : w.length < fuel := by simp only [List.length_cons] at hfuel; omega
    rw [List.headD_cons, listTSizeLoop, if_pos (Ne.symm hH.1), hl.next_eq_headD,
      ih hH.2 (List.chain'_cons'.mp hl).2 (cnt + 1) this]
    congr 1
    simp only [List.length_cons]
    omega

/-- `list_t_size` terminates after `k + 1` tests of its loop condition and
    returns the number `k` of elements. -/
theorem listTSize_eq {m : Mem} {H : Node} {s : List Node} (hH : Holds m H s) {fuel : ℕ}
    (hfuel : s.length < fuel) : listTSize m H fuel = some s.length := by
  rw [listTSize, hH.next_head, listTSizeLoop_eq (List.nodup_cons.mp hH.1).1
    (List.chain'_cons'.mp hH.2).2 0 hfuel, zero_add]

/-! ## Frame -/

theorem listTInit_frame {m : Mem} {list y : Node} (hy : y ≠ list) :
    (listTInit m list).next y = m.next y ∧ (listTInit m list).prev y = m.prev y := by
  simp [listTInit, hy]

theorem unlinkChain_frame {m : Mem} {first last y : Node} (h₁ : y ≠ m.prev first)
    (h₂ : y ≠ m.next last) :
    (unlinkChain m first last).next y = m.next y ∧ (unlinkChain m first last).prev y = m.prev y := by
  simp [h₁, h₂]

theorem linkChain_frame {m : Mem} {before first last y : Node} (h₁ : y ≠ m.prev before)
    (h₂ : y ≠ last) (h₃ : y ≠ before) (h₄ : y ≠ first) :
    (linkChain m before first last).next y = m.next y ∧
      (linkChain m before first last).prev y = m.prev y := by
  simp [h₁, h₂, h₃, h₄]

theorem listTInsert_frame {m : Mem} {before elem y : Node} (h₁ : y ≠ elem) (h₂ : y ≠ before)
    (h₃ : y ≠ m.prev before) :
    (listTInsert m before elem).next y = m.next y ∧
      (listTInsert m before elem).prev y = m.prev y :=
  linkChain_frame h₃ h₁ h₂ h₁

theorem listTRemove_frame {m : Mem} {elem y : Node} (h₁ : y ≠ m.prev elem) (h₂ : y ≠ m.next elem) :
    (listTRemove m elem).1.next y = m.next y ∧ (listTRemove m elem).1.prev y = m.prev y :=
  unlinkChain_frame h₁ h₂

theorem listTReplace_frame {m : Mem} {element position y : Node} (h₁ : y ≠ element)
    (h₂ : y ≠ m.next position) (h₃ : y ≠ m.prev position) :
    (listTReplace m element position).next y = m.next y ∧
      (listTReplace m element position).prev y = m.prev y := by
  have h₄ : y ≠ if position = m.next position then element else m.prev position := by
    split_ifs <;> assumption
  simp only [listTReplace, Mem.setPrev_prev, Mem.setNext_next, Mem.setNext_prev, Mem.setPrev_next,
    eq_self_iff_true, if_true, h₁, h₂, h₄, if_false, and_self]

/-! ## The operations on a list -/

/-- What the operations of `lib/list_t.c` do to the list `H` holding `s`, for a
    node `x` outside it. `frame`: every list whose nodes are disjoint from `H`'s
    and from `x` keeps its contents under each operation. -/
structure ListTSpec (m : Mem) (H x : Node) (s : List Node) : Prop where
  init : Holds (listTInit m H) H []
  insert : ∀ p ∈ H :: s, Holds (listTInsert m p x) H (insertBefore p [x] s)
  pushFront : Holds (listTPushFront m H x) H (x :: s)
  pushBack : Holds (listTPushBack m H x) H (s ++ [x])
  remove : ∀ u e v, s = u ++ e :: v →
    Holds (listTRemove m e).1 H (u ++ v) ∧ (listTRemove m e).2 = v.headD H
  replace : ∀ u e v, s = u ++ e :: v → Holds (listTReplace m x e) H (u ++ x :: v)
  popFront : ∀ e s', s = e :: s' →
    Holds (listTPopFront m H).1 H s' ∧ (listTPopFront m H).2 = e ∧ listTFront m H = some e
  popBack : ∀ s' e, s = s' ++ [e] →
    Holds (listTPopBack m H).1 H s' ∧ (listTPopBack m H).2 = e ∧ listTBack m H = some e
  size : ∀ fuel, s.length < fuel → listTSize m H fuel = some s.length
  isEmpty : listTIsEmpty m H = true ↔ s = []
  frame : ∀ G t, Holds m G t → (∀ y ∈ G :: t, y ∉ x :: H :: s) →
    Holds (listTInit m H) G t ∧ (∀ p ∈ H :: s, Holds (listTInsert m p x) G t) ∧
      Holds (listTPushFront m H x) G t ∧ Holds (listTPushBack m H x) G t ∧
      (∀ e ∈ s, Holds (listTRemove m e).1 G t ∧ Holds (listTReplace m x e) G t) ∧
      (s ≠ [] → Holds (listTPopFront m H).1 G t ∧ Holds (listTPopBack m H).1 G t)

theorem listT_frame {m : Mem} {H x : Node} {s : List Node} (hH : Holds m H s) {G : Node}
    {t : List Node} (hG : Holds m G t) (hdisj : ∀ y ∈ G :: t, y ∉ x :: H :: s) :
    Holds (listTInit m H) G t ∧ (∀ p ∈ H :: s, Holds (listTInsert m p x) G t) ∧
      Holds (listTPushFront m H x) G t ∧ Holds (listTPushBack m H x) G t ∧
      (∀ e ∈ s, Holds (listTRemove m e).1 G t ∧ Holds (listTReplace m x e) G t) ∧
      (s ≠ [] → Holds (listTPopFront m H).1 G t ∧ Holds (listTPopBack m H).1 G t) := by
  have ne : ∀ y ∈ G :: t, ∀ z ∈ H :: s, y ≠ z := fun y hy z hz e => hdisj y hy (e ▸ .tail _ hz)
  have nex : ∀ y ∈ G :: t, y ≠ x := fun y hy e => hdisj y hy (e ▸ .head _)
  have hnext := hH.next_mem (.head _)
  have hprev := hH.prev_mem (.head _)
  have ins : ∀ p ∈ H :: s, Holds (listTInsert m p x) G t := fun p hp =>
    hG.frame fun y hy => listTInsert_frame (nex y hy) (ne y hy p hp) (ne y hy _ (hH.prev_mem hp))
  have rem : ∀ e ∈ H :: s, Holds (listTRemove m e).1 G t := fun e he =>
    hG.frame fun y hy => listTRemove_frame (ne y hy _ (hH.prev_mem he)) (ne y hy _ (hH.next_mem he))
  refine ⟨hG.frame fun y hy => listTInit_frame (ne y hy H (.head _)), ins, ins _ hnext,
    ins _ (.head _), fun e he => ⟨rem e (.tail _ he), hG.frame fun y hy => listTReplace_frame
      (nex y hy) (ne y hy _ (hH.next_mem (.tail _ he))) (ne y hy _ (hH.prev_mem (.tail _ he)))⟩,
    fun _ => ⟨rem _ hnext, rem _ hprev⟩⟩

/-- The operations of `lib/list_t.c` refine the operations on the sequence a
    list holds. -/
theorem listT_refines {m : Mem} {H x : Node} {s : List Node} (hH : Holds m H s)
    (hx : x ∉ H :: s) : ListTSpec m H x s where
  init := holds_listTInit m H
  insert _ hp := holds_listTInsert hH hx hp
  pushFront := holds_listTPushFront hH hx
  pushBack := holds_listTPushBack hH hx
  remove u e v hs := holds_listTRemove (hs ▸ hH)
  replace u e v hs := holds_listTReplace (hs ▸ hH) (hs ▸ hx)
  popFront e s' hs := by
    subst hs
    exact ⟨(holds_listTPopFront hH).1, (holds_listTPopFront hH).2, listTFront_eq hH⟩
  popBack s' e hs := by
    subst hs
    exact ⟨(holds_listTPopBack hH).1, (holds_listTPopBack hH).2, listTBack_eq hH⟩
  size _ hfuel := listTSize_eq hH hfuel
  isEmpty := listTIsEmpty_iff hH
  frame _ _ hG hdisj := listT_frame hH hG hdisj

theorem listT_refines_two :
    Holds (listTPushBack (listTPushBack (listTInit ⟨id, id⟩ 0) 0 1) 0 2) 0 [1, 2] ∧ 3 ∉ [0, 1, 2] ∧
      ListTSpec (listTPushBack (listTPushBack (listTInit ⟨id, id⟩ 0) 0 1) 0 2) 0 3 [1, 2] :=
  ⟨by decide, by decide, listT_refines (by decide) (by decide)⟩

end Of12Softswitch.Lib
