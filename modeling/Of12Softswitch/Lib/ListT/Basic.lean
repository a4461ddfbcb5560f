import Mathlib

/-!
# Doubly linked lists in memory (`lib/list_t.h`)

A `struct list_t` (`lib/list_t.h`, lines 43–47) has a `prev` and a `next`
pointer. A list is a ring of nodes through a distinguished head node; the head
holds no element. Memory is modelled as the two pointer fields of every node,
nodes being addresses in `ℕ`.

`Holds m H s` says that in memory `m` the head `H` holds the elements `s`:
`H, e₁, …, e_k` are distinct, following `next` from `H` visits `e₁, …, e_k` and
comes back to `H`, and `prev` retraces the same ring backwards.

Results:
* `Linked.frame`: a chain of nodes reads `next` only at its nodes but the last
  and `prev` only at its nodes but the first.
* `Holds.frame`: a list keeps its contents when the pointers of its own nodes
  are untouched.
* `holds_rotate`, `Holds.of_isRotated`: the ring of a list read from any of its
  nodes.
* `holds_unique`, `Holds.isRotated_of_mem`: a head holds one list, and two
  lists that share a node are one ring; `Holds.disjoint`: otherwise they share
  no node.
* `Holds.agree`: a list fixes the pointers of the nodes of its ring.
-/

namespace Of12Softswitch.Lib

/-- The address of a `struct list_t`. -/
abbrev Node := ℕ

/-- The `prev` and `next` fields of every `struct list_t` in memory. -/
@[ext] structure Mem where
  prev : Node → Node
  next : Node → Node

namespace Mem

/-- `p->prev = q`. -/
def setPrev (m : Mem) (p q : Node) : Mem := { m with prev := Function.update m.prev p q }

/-- `p->next = q`. -/
def setNext (m : Mem) (p q : Node) : Mem := { m with next := Function.update m.next p q }

@[simp] theorem setPrev_prev (m : Mem) (p q y : Node) :
    (m.setPrev p q).prev y = if y = p then q else m.prev y := Function.update_apply _ _ _ _

@[simp] theorem setPrev_next (m : Mem) (p q : Node) : (m.setPrev p q).next = m.next := rfl

@[simp] theorem setNext_next (m : Mem) (p q y : Node) :
    (m.setNext p q).next y = if y = p then q else m.next y := Function.update_apply _ _ _ _

@[simp] theorem setNext_prev (m : Mem) (p q : Node) : (m.setNext p q).prev = m.prev := rfl

/-- Memories whose pointers agree at every node are equal. -/
theorem eq_of_agree {m m' : Mem} (h : ∀ y, m'.next y = m.next y ∧ m'.prev y = m.prev y) : m' = m :=
  Mem.ext (funext fun y => (h y).2) (funext fun y => (h y).1)

/-- The same memory with `prev` and `next` exchanged: the lists read backwards. -/
def swap (m : Mem) : Mem := ⟨m.next, m.prev⟩

end Mem

/-- `y` follows `x`: `x->next == y` and `y->prev == x`. -/
def Link (m : Mem) (x y : Node) : Prop := m.next x = y ∧ m.prev y = x

instance (m : Mem) : DecidableRel (Link m) := fun _ _ => inferInstanceAs (Decidable (_ ∧ _))

/-- Consecutive nodes of `l` are linked both ways. -/
def Linked (m : Mem) (l : List Node) : Prop := l.Chain' (Link m)

/-- The head `H` holds the elements `s`. -/
def Holds (m : Mem) (H : Node) (s : List Node) : Prop := (H :: s).Nodup ∧ Linked m (H :: s ++ [H])

/-! ## Chains -/

@[simp] theorem linked_nil (m : Mem) : Linked m [] := List.chain'_nil

@[simp] theorem linked_singleton (m : Mem) (a : Node) : Linked m [a] := List.chain'_singleton a

@[simp] theorem linked_cons_cons {m : Mem} {a b : Node} {l : List Node} :
    Linked m (a :: b :: l) ↔ Link m a b ∧ Linked m (b :: l) := List.chain'_cons

/-- Checking a chain link by link, so that `decide` runs it. -/
instance decLinked (m : Mem) : (l : List Node) → Decidable (Linked m l)
  | [] => isTrue (linked_nil m)
  | [a] => isTrue (linked_singleton m a)
  | _ :: b :: l =>
    haveI := decLinked m (b :: l)
    decidable_of_iff' _ linked_cons_cons

instance (m : Mem) (H : Node) (s : List Node) : Decidable (Holds m H s) :=
  inferInstanceAs (Decidable (_ ∧ _))

theorem linked_split {m : Mem} {l₁ l₂ : List Node} {b : Node} :
    Linked m (l₁ ++ b :: l₂) ↔ Linked m (l₁ ++ [b]) ∧ Linked m (b :: l₂) := List.chain'_split

/-- Two chains joined by a link from the last node of one to the first of the
    other. -/
theorem linked_append {m : Mem} {l₁ l₂ : List Node} {a b : Node} (ha : l₁.getLast? = some a)
    (hb : l₂.head? = some b) : Linked m (l₁ ++ l₂) ↔ Linked m l₁ ∧ Link m a b ∧ Linked m l₂ := by
  unfold Linked
  rw [List.chain'_append, ha, hb]
  simp only [Option.mem_def, Option.some.injEq, forall_eq']
  exact and_congr_right' and_comm

theorem linked_swap_reverse {m : Mem} {l : List Node} : Linked m.swap l.reverse ↔ Linked m l := by
  have : flip (Link m.swap) = Link m := funext₂ fun _ _ => propext and_comm
  rw [Linked, List.chain'_reverse, this]
  rfl

/-- A chain reads `next` at its nodes but the last and `prev` at its nodes but
    the first. -/
theorem Linked.frame {m m' : Mem} : ∀ {l : List Node}, Linked m l →
    (∀ y ∈ l.dropLast, m'.next y = m.next y) → (∀ y ∈ l.tail, m'.prev y = m.prev y) → Linked m' l
  | [], _, _, _ => linked_nil m'
  | [a], _, _, _ => linked_singleton m' a
  | a :: b :: l, h, hn, hp => by
    rw [linked_cons_cons] at h ⊢
    refine ⟨⟨by rw [hn a (.head _), h.1.1], by rw [hp b (.head _), h.1.2]⟩,
      Linked.frame h.2 (fun y hy => hn y ?_) (fun y hy => hp y (.tail _ hy))⟩
    rw [List.dropLast_cons₂]
    exact .tail _ hy

/-- The ring through `a` read from `b`. -/
theorem linked_rotate {m : Mem} {a b : Node} {l₁ l₂ : List Node} :
    Linked m (a :: (l₁ ++ b :: l₂) ++ [a]) ↔ Linked m (b :: (l₂ ++ a :: l₁) ++ [b]) := by
  have e₁ : a :: (l₁ ++ b :: l₂) ++ [a] = (a :: l₁) ++ b :: (l₂ ++ [a]) := by simp
  have e₂ : b :: (l₂ ++ a :: l₁) ++ [b] = (b :: l₂) ++ a :: (l₁ ++ [b]) := by simp
  rw [e₁, e₂, @linked_split m (a :: l₁) (l₂ ++ [a]) b, @linked_split m (b :: l₂) (l₁ ++ [b]) a]
  exact and_comm

theorem Linked.next_mem {m : Mem} : ∀ {l : List Node}, Linked m l →
    ∀ y ∈ l.dropLast, m.next y ∈ l.tail
  | [], _, _, hy => by simp at hy
  | [_], _, _, hy => by simp at hy
  | a :: b :: l, h, y, hy => by
    rw [linked_cons_cons] at h
    rw [List.dropLast_cons₂, List.mem_cons] at hy
    rcases hy with rfl | hy
    · rw [h.1.1]; exact .head _
    · exact .tail _ (h.2.next_mem y hy)

theorem Linked.prev_mem {m : Mem} : ∀ {l : List Node}, Linked m l →
    ∀ y ∈ l.tail, m.prev y ∈ l.dropLast
  | [], _, _, hy => by simp at hy
  | [_], _, _, hy => by simp at hy
  | a :: b :: l, h, y, hy => by
    rw [linked_cons_cons] at h
    rw [List.tail_cons, List.mem_cons] at hy
    rw [List.dropLast_cons₂]
    rcases hy with rfl | hy
    · rw [h.1.2]; exact .head _
    · exact .tail _ (h.2.prev_mem y hy)

/-- The node after `y` in a chain `y, w, H`. -/
theorem Linked.next_eq_headD {m : Mem} {y H : Node} {w : List Node} (h : Linked m (y :: w ++ [H])) :
    m.next y = w.headD H := by
  cases w <;> simp_all [Link]

/-! ## Lists -/

/-- A list whose nodes keep their pointers keeps its contents. -/
theorem Holds.frame {m m' : Mem} {H : Node} {s : List Node} (h : Holds m H s)
    (hagree : ∀ y ∈ H :: s, m'.next y = m.next y ∧ m'.prev y = m.prev y) : Holds m' H s := by
  refine ⟨h.1, h.2.frame (fun y hy => (hagree y ?_).1) (fun y hy => (hagree y ?_).2)⟩
  · rwa [List.dropLast_concat] at hy
  · simp only [List.cons_append, List.tail_cons, List.mem_append, List.mem_singleton] at hy
    rcases hy with hy | rfl
    · exact .tail _ hy
    · exact .head _

theorem Holds.next_mem {m : Mem} {H : Node} {s : List Node} (h : Holds m H s) {y : Node}
    (hy : y ∈ H :: s) : m.next y ∈ H :: s := by
  have := h.2.next_mem y (by rwa [List.dropLast_concat])
  simp only [List.cons_append, List.tail_cons, List.mem_append, List.mem_singleton] at this
  rcases this with h | h
  · exact .tail _ h
  · exact h ▸ .head _

theorem Holds.prev_mem {m : Mem} {H : Node} {s : List Node} (h : Holds m H s) {y : Node}
    (hy : y ∈ H :: s) : m.prev y ∈ H :: s := by
  rw [← @List.dropLast_concat _ (H :: s) H]
  refine h.2.prev_mem y ?_
  simp only [List.cons_append, List.tail_cons, List.mem_append, List.mem_singleton]
  rcases List.mem_cons.mp hy with rfl | hy
  · exact .inr rfl
  · exact .inl hy

/-- The front of a list is `H->next`. -/
theorem Holds.next_head {m : Mem} {H : Node} {s : List Node} (h : Holds m H s) :
    m.next H = s.headD H :=
  Linked.next_eq_headD h.2

/-- The back of a list is `H->prev`. -/
theorem Holds.prev_head {m : Mem} {H e : Node} {s : List Node} (h : Holds m H (s ++ [e])) :
    m.prev H = e := by
  have := h.2
  rw [show H :: (s ++ [e]) ++ [H] = (H :: s) ++ e :: [H] by simp, linked_split] at this
  exact (linked_cons_cons.mp this.2).1.2

theorem Holds.link_front {m : Mem} {H y : Node} {s : List Node} (h : Holds m H (y :: s)) :
    Link m H y :=
  (linked_cons_cons.mp h.2).1

/-- A list read backwards: `prev` and `next` exchanged. -/
theorem Holds.swap {m : Mem} {H : Node} {s : List Node} (h : Holds m H s) :
    Holds m.swap H s.reverse := by
  refine ⟨((List.reverse_perm s).cons H).nodup_iff.mpr h.1, ?_⟩
  simpa using linked_swap_reverse.mpr h.2

/-- A list read from one of its elements: the head becomes an element. -/
theorem holds_rotate {m : Mem} {H p : Node} {u v : List Node} :
    Holds m H (u ++ p :: v) ↔ Holds m p (v ++ H :: u) := by
  have hperm : (H :: (u ++ p :: v)).Perm (p :: (v ++ H :: u)) :=
    @List.perm_append_comm _ (H :: u) (p :: v)
  rw [Holds, Holds, hperm.nodup_iff, linked_rotate]

/-- The node before the head of a list is its back, or the head itself. -/
theorem Holds.getLast?_eq {m : Mem} {H : Node} {s : List Node} (h : Holds m H s) :
    (H :: s).getLast? = some (m.prev H) := by
  rcases s.eq_nil_or_concat with rfl | ⟨s, e, rfl⟩
  · have := (linked_cons_cons.mp h.2).1.2
    simp [this]
  · rw [List.concat_eq_append] at h ⊢
    rw [h.prev_head, ← List.cons_append, List.getLast?_concat]

/-! ## Rings -/

/-- The node after the element `e`: the next element, or the head after the
    back. -/
theorem Holds.next_elem {m : Mem} {H e : Node} {u v : List Node} (h : Holds m H (u ++ e :: v)) :
    m.next e = v.headD H := by
  rw [(holds_rotate.mp h).next_head]
  cases v <;> rfl

/-- The node after `L` in the ring, `r`'s front or the head, has `L` as its
    `prev`. -/
theorem Holds.prev_headD {m : Mem} {A L : Node} {U r : List Node} (h : Holds m A (U ++ L :: r)) :
    m.prev (r.headD A) = L := by
  have := holds_rotate.mp h
  cases r with
  | nil => exact this.link_front.2
  | cons y r => exact this.link_front.2

/-- A chain from `x` up to the first `H` is determined by `next`. -/
theorem Linked.eq_of_not_mem {m : Mem} {H : Node} :
    ∀ {x : Node} {l₁ l₂ : List Node}, Linked m (x :: l₁ ++ [H]) → Linked m (x :: l₂ ++ [H]) →
      H ∉ l₁ → H ∉ l₂ → l₁ = l₂
  | _, [], [], _, _, _, _ => rfl
  | _, [], b :: _, h₁, h₂, _, hb => by
    obtain rfl : H = b := h₁.next_eq_headD.symm.trans h₂.next_eq_headD
    exact absurd (.head _) hb
  | _, a :: _, [], h₁, h₂, ha, _ => by
    obtain rfl : H = a := h₂.next_eq_headD.symm.trans h₁.next_eq_headD
    exact absurd (.head _) ha
  | _, a :: l₁, b :: l₂, h₁, h₂, ha, hb => by
    obtain rfl : a = b := h₁.next_eq_headD.symm.trans h₂.next_eq_headD
    simp only [List.cons_append, linked_cons_cons] at h₁ h₂
    rw [Linked.eq_of_not_mem h₁.2 h₂.2 (mt (.tail _) ha) (mt (.tail _) hb)]

/-- A head holds at most one list. -/
theorem holds_unique {m : Mem} {H : Node} {s₁ s₂ : List Node} (h₁ : Holds m H s₁)
    (h₂ : Holds m H s₂) : s₁ = s₂ :=
  Linked.eq_of_not_mem h₁.2 h₂.2 (List.nodup_cons.mp h₁.1).1 (List.nodup_cons.mp h₂.1).1

/-- A ring read from another of its nodes: the nodes are rotated. -/
theorem Holds.of_isRotated {m : Mem} {H H' : Node} {s s' : List Node} (h : Holds m H s)
    (hr : (H :: s) ~r (H' :: s')) : Holds m H' s' := by
  obtain ⟨n, hn⟩ := hr
  induction n generalizing H s with
  | zero =>
    rw [List.rotate_zero] at hn
    obtain ⟨rfl, rfl⟩ := List.cons.inj hn
    exact h
  | succ n ih =>
    rw [List.rotate_cons_succ] at hn
    cases s with
    | nil => exact ih h hn
    | cons p s => exact ih ((@holds_rotate m H p [] s).mp h) hn

theorem Holds.rotate_to {m : Mem} {H y : Node} {s : List Node} (h : Holds m H s)
    (hy : y ∈ H :: s) : ∃ s', Holds m y s' ∧ (H :: s) ~r (y :: s') := by
  obtain ⟨a, b, e⟩ := List.append_of_mem hy
  have hr : (H :: s) ~r (y :: (b ++ a)) := e ▸ List.isRotated_append
  exact ⟨_, h.of_isRotated hr, hr⟩

/-- Two lists that share a node are one ring. -/
theorem Holds.isRotated_of_mem {m : Mem} {A B y : Node} {sA sB : List Node} (hA : Holds m A sA)
    (hB : Holds m B sB) (hyA : y ∈ A :: sA) (hyB : y ∈ B :: sB) : (A :: sA) ~r (B :: sB) := by
  obtain ⟨s₁, h₁, r₁⟩ := hA.rotate_to hyA
  obtain ⟨s₂, h₂, r₂⟩ := hB.rotate_to hyB
  rw [holds_unique h₁ h₂] at r₁
  exact r₁.trans r₂.symm

/-- A head off the ring of `A` holds a list disjoint from `A`'s. -/
theorem Holds.disjoint {m : Mem} {A B : Node} {sA sB : List Node} (hA : Holds m A sA)
    (hB : Holds m B sB) (hBA : B ∉ A :: sA) : ∀ y ∈ B :: sB, y ∉ A :: sA :=
  fun _ hyB hyA => hBA ((hA.isRotated_of_mem hB hyA hyB).perm.mem_iff.mpr (.head _))

/-- A list fixes the pointers of the nodes of its ring: two memories in which `H`
    holds `s` agree there. -/
theorem Holds.agree {m m' : Mem} {H : Node} {s : List Node} (h : Holds m H s) (h' : Holds m' H s)
    {y : Node} (hy : y ∈ H :: s) : m'.next y = m.next y ∧ m'.prev y = m.prev y := by
  obtain ⟨s', hy₁, hr⟩ := h.rotate_to hy
  have hy₂ := h'.of_isRotated hr
  exact ⟨by rw [hy₁.next_head, hy₂.next_head],
    Option.some.inj (hy₂.getLast?_eq.symm.trans hy₁.getLast?_eq)⟩

/-- A memory that holds two lists as `m` does and agrees with `m` off their
    rings is `m`. -/
theorem Holds.eq_of_agree_off {m m' : Mem} {A B : Node} {sA sB : List Node} (hA : Holds m A sA)
    (hA' : Holds m' A sA) (hB : Holds m B sB) (hB' : Holds m' B sB)
    (hoff : ∀ y, y ∉ A :: sA → y ∉ B :: sB → m'.next y = m.next y ∧ m'.prev y = m.prev y) :
    m' = m :=
  Mem.eq_of_agree fun y =>
    if hy : y ∈ A :: sA then hA.agree hA' hy
    else if hyB : y ∈ B :: sB then hB.agree hB' hyB else hoff y hy hyB

/-! ## Distinct nodes -/

theorem ne_of_mem_dropLast {l : List Node} {y b : Node} (hnd : l.Nodup) (hb : l.getLast? = some b)
    (hy : y ∈ l.dropLast) : y ≠ b := by
  obtain ⟨l', rfl⟩ := List.getLast?_eq_some_iff.mp hb
  rw [List.dropLast_concat] at hy
  rintro rfl
  exact (List.nodup_append.mp hnd).2.2 hy (.head _)

theorem ne_of_mem_tail {l : List Node} {y a : Node} (hnd : l.Nodup) (ha : l.head? = some a)
    (hy : y ∈ l.tail) : y ≠ a := by
  obtain ⟨l', rfl⟩ := List.head?_eq_some_iff.mp ha
  rintro rfl
  exact (List.nodup_cons.mp hnd).1 hy

end Of12Softswitch.Lib
