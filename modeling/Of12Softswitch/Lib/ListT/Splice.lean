import Of12Softswitch.Lib.ListT.Ops

/-!
# Moving a chain of nodes (`list_t_splice`)

`list_t_splice(before, first, last)` (`lib/list_t.c`, lines 54–72) moves the
nodes from `first` up to, but not including, `last` to just before `before`.
Its two halves are the chain unlinking of `list_t_remove` and the chain linking
of `list_t_insert` (`unlinkChain` and `linkChain`), so it is specified from the
lemmas about those.

The chain `seg` sits in the list of a head `A` between the nodes `u` and `r`;
`last` is the node after it, `r`'s front or `A`. The node `before` belongs to
the list of a head `B`. Whether the chain moves to another ring or within its
own depends on whether `B` lies on `A`'s ring, not on whether `B` is the node
`A`: every element of a list is itself the head of a list that is the same ring
read from that element.

Results:
* `listTSplice_moves`: across rings, `A` loses the chain and `B`'s list gets it
  just before `before`; within one ring, the chain is removed and reinserted
  just before `before`; lists on neither ring keep their contents.
* `listTSplice_other_head_same_ring`: for a head `B ≠ A` on `A`'s ring, the
  chain stays in `A`'s list.
* `listTSplice_undo`: the splice that moves a non-empty chain back, from just
  before `before` to just before `last`, gives back the memory exactly. Its
  proof rests on `Holds.agree`: a list fixes the pointers of its ring.
-/

namespace Of12Softswitch.Lib

/-! ## The operation -/

/-- `list_t_splice` (lines 54–72): moves `first` up to, but not including,
    `last` to just before `before`. -/
def listTSplice (m : Mem) (before first last : Node) : Mem :=
  if first = last then m
  else
    let last := m.prev last
    let m := m.setNext (m.prev first) (m.next last)
    let m := m.setPrev (m.next last) (m.prev first)
    let m := m.setPrev first (m.prev before)
    let m := m.setNext last before
    let m := m.setNext (m.prev before) first
    m.setPrev before last

theorem listTSplice_eq_linkChain {m : Mem} {before first last : Node} (h : first ≠ last) :
    listTSplice m before first last =
      linkChain (unlinkChain m first (m.prev last)) before first (m.prev last) := by
  rw [listTSplice, if_neg h]
  rfl

theorem insertBefore_nil (p : Node) (s : List Node) : insertBefore p [] s = s := by
  induction s with
  | nil => rfl
  | cons y s ih => by_cases h : y = p <;> simp [insertBefore, h, ih]

/-! ## The moved chain -/

/-- The nodes of a list other than the chain `seg`, followed by the chain. -/
theorem Holds.nodup_unlinked {m : Mem} {A : Node} {u seg r : List Node}
    (hA : Holds m A (u ++ seg ++ r)) : (A :: (u ++ r) ++ seg).Nodup := by
  have hperm : (u ++ seg ++ r).Perm (u ++ r ++ seg) := by
    simpa using (@List.perm_append_comm _ seg r).append_left u
  exact (hperm.cons A).nodup_iff.mp hA.1

theorem mem_of_mem_unlinked {A y : Node} {u seg r : List Node} (hy : y ∈ A :: (u ++ r)) :
    y ∈ A :: (u ++ seg ++ r) :=
  ((sublist_unlinked u seg r).cons₂ A).subset hy

/-- A non-empty chain is moved by unlinking it and linking it back in; the node
    before `last` is the chain's back. -/
theorem listTSplice_eq_of_holds {m : Mem} {A before first last L : Node} {u seg r : List Node}
    (hA : Holds m A (u ++ seg ++ r)) (hf : seg.head? = some first) (hl : seg.getLast? = some L)
    (hlast : last = r.headD A) :
    listTSplice m before first last = linkChain (unlinkChain m first L) before first L := by
  obtain ⟨c, rfl⟩ := List.getLast?_eq_some_iff.mp hl
  subst hlast
  have hne : first ≠ r.headD A := by
    have hr : r.headD A ∈ A :: (u ++ r) := by cases r <;> simp
    exact fun e => (List.nodup_append.mp hA.nodup_unlinked).2.2 hr (e ▸ List.mem_of_mem_head? hf)
  have hA' : Holds m A ((u ++ c) ++ L :: r) := by simpa using hA
  rw [listTSplice_eq_linkChain hne, hA'.prev_headD]

/-! ## Moves -/

section

variable {m : Mem} {A B before first L : Node} {u seg r sB : List Node}

/-- Moving the chain to the list of a head off its ring. -/
theorem listTSplice_across (hA : Holds m A (u ++ seg ++ r)) (hf : seg.head? = some first)
    (hl : seg.getLast? = some L) (hB : Holds m B sB) (hBA : B ∉ A :: (u ++ seg ++ r))
    (hbefore : before ∈ B :: sB) :
    Holds (linkChain (unlinkChain m first L) before first L) A (u ++ r) ∧
      Holds (linkChain (unlinkChain m first L) before first L) B (insertBefore before seg sB) := by
  have hdisj := hA.disjoint hB hBA
  have hsA : ∀ y ∈ seg, y ∈ A :: (u ++ seg ++ r) := fun y hy => by simp [hy]
  have hf' := List.mem_of_mem_head? hf
  have hl' := List.mem_of_mem_getLast? hl
  have hsep := (List.nodup_append.mp hA.nodup_unlinked).2.2
  obtain ⟨hA₁, hs⟩ := holds_unlinkChain hA hf hl
  have hB₁ : Holds (unlinkChain m first L) B sB := hB.frame fun y hy => unlinkChain_frame
    (fun e => hdisj y hy (e ▸ hA.prev_mem (hsA _ hf')))
    (fun e => hdisj y hy (e ▸ hA.next_mem (hsA _ hl')))
  have hnd : (B :: sB ++ seg).Nodup :=
    List.nodup_append.mpr ⟨hB.1, (List.nodup_append.mp hA.nodup_unlinked).2.1,
      fun y hyB hys => hdisj y hyB (hsA y hys)⟩
  refine ⟨hA₁.frame fun y hy => linkChain_frame ?_ (fun e => hsep hy (e ▸ hl'))
    (fun e => hdisj _ hbefore (e ▸ mem_of_mem_unlinked hy)) (fun e => hsep hy (e ▸ hf')),
    holds_linkChain hB₁ hbefore hs hf hl hnd⟩
  exact fun e => hdisj _ (hB₁.prev_mem hbefore) (e ▸ mem_of_mem_unlinked hy)

/-- Moving the chain within its own ring. -/
theorem listTSplice_within (hA : Holds m A (u ++ seg ++ r)) (hf : seg.head? = some first)
    (hl : seg.getLast? = some L) (hbefore : before ∈ A :: (u ++ r)) :
    Holds (linkChain (unlinkChain m first L) before first L) A (insertBefore before seg (u ++ r)) :=
  let ⟨hA₁, hs⟩ := holds_unlinkChain hA hf hl
  holds_linkChain hA₁ hbefore hs hf hl hA.nodup_unlinked

/-- A list on neither ring keeps its contents. -/
theorem listTSplice_frame {G : Node} {t : List Node} (hA : Holds m A (u ++ seg ++ r))
    (hf : seg.head? = some first) (hl : seg.getLast? = some L) (hB : Holds m B sB)
    (hbefore : before ∈ B :: sB) (hG : Holds m G t) (hGA : G ∉ A :: (u ++ seg ++ r))
    (hGB : G ∉ B :: sB) : Holds (linkChain (unlinkChain m first L) before first L) G t := by
  have hdA := hA.disjoint hG hGA
  have hdB := hB.disjoint hG hGB
  have hsA : ∀ y ∈ seg, y ∈ A :: (u ++ seg ++ r) := fun y hy => by simp [hy]
  have hfA := hsA _ (List.mem_of_mem_head? hf)
  have hLA := hsA _ (List.mem_of_mem_getLast? hl)
  have hG₁ : Holds (unlinkChain m first L) G t := hG.frame fun y hy => unlinkChain_frame
    (fun e => hdA y hy (e ▸ hA.prev_mem hfA)) (fun e => hdA y hy (e ▸ hA.next_mem hLA))
  refine hG₁.frame fun y hy => linkChain_frame ?_ (fun e => hdA y hy (e ▸ hLA))
    (fun e => hdB y hy (e ▸ hbefore)) (fun e => hdA y hy (e ▸ hfA))
  rw [unlinkChain_prev]
  split_ifs
  · exact fun e => hdA y hy (e ▸ hA.prev_mem hfA)
  · exact fun e => hdB y hy (e ▸ hB.prev_mem hbefore)

end

/-- `list_t_splice(before, first, last)` for the chain `seg` of `A`'s list that
    ends just before `last` (`first = last` when it is empty), and `before` in
    the list of `B` and not in the chain. If `B` is off `A`'s ring, `A` loses the
    chain and `B`'s list gets it just before `before`, at its end when `before`
    is `B`. If `B` is on `A`'s ring, the chain is removed from `A`'s list and
    put back just before `before`. Lists on neither ring keep their contents. -/
theorem listTSplice_moves {m : Mem} {A B before first last : Node} {u seg r sB : List Node}
    (hA : Holds m A (u ++ seg ++ r)) (hfirst : first = (seg ++ r).headD A)
    (hlast : last = r.headD A) (hB : Holds m B sB) (hbefore : before ∈ B :: sB)
    (hseg : before ∉ seg) :
    (B ∉ A :: (u ++ seg ++ r) →
      Holds (listTSplice m before first last) A (u ++ r) ∧
        Holds (listTSplice m before first last) B (insertBefore before seg sB)) ∧
    (B ∈ A :: (u ++ seg ++ r) →
      Holds (listTSplice m before first last) A (insertBefore before seg (u ++ r))) ∧
    ∀ G t, Holds m G t → G ∉ A :: (u ++ seg ++ r) → G ∉ B :: sB →
      Holds (listTSplice m before first last) G t := by
  rcases seg.eq_nil_or_concat with rfl | ⟨c, L, rfl⟩
  · have hsame : first = last := by simpa [hlast] using hfirst
    rw [hsame, listTSplice, if_pos rfl, insertBefore_nil, insertBefore_nil]
    simp only [List.append_nil] at hA
    exact ⟨fun _ => ⟨hA, hB⟩, fun _ => hA, fun _ _ hG _ _ => hG⟩
  · rw [List.concat_eq_append] at *
    have hf : (c ++ [L]).head? = some first := by
      subst hfirst
      cases c <;> rfl
    have hl : (c ++ [L]).getLast? = some L := List.getLast?_concat c
    rw [listTSplice_eq_of_holds hA hf hl hlast]
    refine ⟨fun hBA => listTSplice_across hA hf hl hB hBA hbefore, fun hBA => listTSplice_within hA hf hl ?_,
      fun _ _ hG hGA hGB => listTSplice_frame hA hf hl hB hbefore hG hGA hGB⟩
    exact mem_unlinked ((hA.isRotated_of_mem hB hBA (.head _)).perm.mem_iff.mpr hbefore) hseg

/-- Two lists built with the list operations: `0` holds `[1, 2, 3]` and `4`
    holds `[5]`. -/
def twoLists : Mem :=
  listTPushBack (listTInit (listTPushBack (listTPushBack (listTPushBack
    (listTInit ⟨id, id⟩ 0) 0 1) 0 2) 0 3) 4) 4 5

theorem listTSplice_moves_twoLists :
    Holds twoLists 0 ([1] ++ [2] ++ [3]) ∧ Holds twoLists 4 [5] ∧ (5 : Node) ∉ [2] ∧
      ((4 ∉ 0 :: ([1] ++ [2] ++ [3]) →
          Holds (listTSplice twoLists 5 2 3) 0 ([1] ++ [3]) ∧
            Holds (listTSplice twoLists 5 2 3) 4 (insertBefore 5 [2] [5])) ∧
        (4 ∈ 0 :: ([1] ++ [2] ++ [3]) →
          Holds (listTSplice twoLists 5 2 3) 0 (insertBefore 5 [2] ([1] ++ [3]))) ∧
        ∀ G t, Holds twoLists G t → G ∉ 0 :: ([1] ++ [2] ++ [3]) → G ∉ [4, 5] →
          Holds (listTSplice twoLists 5 2 3) G t) :=
  ⟨by decide, by decide, by decide,
    listTSplice_moves (by decide) rfl rfl (by decide) (by decide) (by decide)⟩

/-- The head `1` lies on the ring of `0` and holds `[2, 3, 0]`. Moving the chain
    `[2]` to just before `1` leaves it in the ring of `0`, whose list becomes
    `[2, 1, 3]`: `0` does not lose the chain although `1 ≠ 0`. -/
theorem listTSplice_other_head_same_ring :
    ¬ ∀ (m : Mem) (A B before first last : Node) (u seg r sB : List Node),
      Holds m A (u ++ seg ++ r) → first = (seg ++ r).headD A → last = r.headD A →
      Holds m B sB → before ∈ B :: sB → before ∉ seg → B ≠ A →
      Holds (listTSplice m before first last) A (u ++ r) ∧
        Holds (listTSplice m before first last) B (insertBefore before seg sB) := fun h =>
  absurd (h twoLists 0 1 1 2 3 [1] [2] [3] [2, 3, 0] (by decide) rfl rfl (by decide) (by decide)
    (by decide) (by decide)).1 (by decide)

/-! ## Moving the chain back -/

/-- The nodes of a list are those of the list without the chain `seg` and those
    of the chain. -/
theorem mem_iff_mem_unlinked_or {A y : Node} {u seg r : List Node} :
    y ∈ A :: (u ++ seg ++ r) ↔ y ∈ A :: (u ++ r) ∨ y ∈ seg := by
  have hperm : (u ++ seg ++ r).Perm (u ++ r ++ seg) := by
    simpa using (@List.perm_append_comm _ seg r).append_left u
  rw [(hperm.cons A).mem_iff, ← List.cons_append, List.mem_append]

/-- Where `insertBefore` puts the chain: `s` is `v ++ w`, the chain goes
    between, and the node after it is `p` (the head when `w` is empty). -/
theorem insertBefore_split {H p : Node} {s : List Node} (seg : List Node) (hnd : (H :: s).Nodup)
    (hp : p ∈ H :: s) : ∃ v w, s = v ++ w ∧ insertBefore p seg s = v ++ seg ++ w ∧ w.headD H = p := by
  rcases List.mem_cons.mp hp with rfl | hp
  · exact ⟨s, [], by simp, by simp [insertBefore_of_not_mem (List.nodup_cons.mp hnd).1], rfl⟩
  · obtain ⟨v, w, rfl⟩ := List.append_of_mem hp
    have hpv : p ∉ v := fun hv =>
      (List.nodup_append.mp (List.nodup_cons.mp hnd).2).2.2 hv (List.mem_cons_self p w)
    exact ⟨v, p :: w, rfl, insertBefore_append_cons hpv, rfl⟩

/-- Inserting the chain before the node that followed it puts it back. -/
theorem insertBefore_headD {A : Node} {u r : List Node} (seg : List Node)
    (hnd : (A :: (u ++ r)).Nodup) : insertBefore (r.headD A) seg (u ++ r) = u ++ seg ++ r := by
  cases r with
  | nil =>
    simp only [List.append_nil, List.headD_nil] at hnd ⊢
    exact insertBefore_of_not_mem (List.nodup_cons.mp hnd).1
  | cons x r =>
    exact insertBefore_append_cons fun hx =>
      (List.nodup_append.mp (List.nodup_cons.mp hnd).2).2.2 hx (List.mem_cons_self x r)

section

variable {m : Mem} {A B before first L : Node} {u seg r sB : List Node}

/-- A node on neither ring keeps its pointers when the chain moves. -/
theorem listTSplice_frame_node {y : Node} (hA : Holds m A (u ++ seg ++ r))
    (hf : seg.head? = some first) (hl : seg.getLast? = some L) (hB : Holds m B sB)
    (hbefore : before ∈ B :: sB) (hyA : y ∉ A :: (u ++ seg ++ r)) (hyB : y ∉ B :: sB) :
    (linkChain (unlinkChain m first L) before first L).next y = m.next y ∧
      (linkChain (unlinkChain m first L) before first L).prev y = m.prev y := by
  have hfA : first ∈ A :: (u ++ seg ++ r) := mem_iff_mem_unlinked_or.mpr (.inr (List.mem_of_mem_head? hf))
  have hLA : L ∈ A :: (u ++ seg ++ r) := mem_iff_mem_unlinked_or.mpr (.inr (List.mem_of_mem_getLast? hl))
  have h₁ := @unlinkChain_frame m first L y (fun e => hyA (e ▸ hA.prev_mem hfA))
    (fun e => hyA (e ▸ hA.next_mem hLA))
  have hp : y ≠ (unlinkChain m first L).prev before := by
    rw [unlinkChain_prev]
    split_ifs
    · exact fun e => hyA (e ▸ hA.prev_mem hfA)
    · exact fun e => hyB (e ▸ hB.prev_mem hbefore)
  have h₂ := @linkChain_frame (unlinkChain m first L) before first L y hp (fun e => hyA (e ▸ hLA))
    (fun e => hyB (e ▸ hbefore)) (fun e => hyA (e ▸ hfA))
  exact ⟨h₂.1.trans h₁.1, h₂.2.trans h₁.2⟩

end

/-- `list_t_splice(last, first, before)` undoes `list_t_splice(before, first,
    last)`: for a non-empty chain `seg` of `A`'s list ending just before `last`,
    and `before` in the list of `B` and not in the chain, the second call moves
    the chain back and every pointer of memory is as it was. -/
theorem listTSplice_undo {m : Mem} {A B before first last : Node} {u seg r sB : List Node}
    (hA : Holds m A (u ++ seg ++ r)) (hseg : seg ≠ []) (hfirst : first = (seg ++ r).headD A)
    (hlast : last = r.headD A) (hB : Holds m B sB) (hbefore : before ∈ B :: sB)
    (hbs : before ∉ seg) :
    listTSplice (listTSplice m before first last) last first before = m := by
  have hf : seg.head? = some first := by
    subst hfirst
    cases seg with
    | nil => exact absurd rfl hseg
    | cons x s => rfl
  have hl := List.getLast?_eq_getLast seg hseg
  set L := seg.getLast hseg
  have hnd := hA.nodup_unlinked
  have hur : (A :: (u ++ r)).Nodup := (List.nodup_append.mp hnd).1
  have hlastA : last ∈ A :: (u ++ r) := by subst hlast; cases r <;> simp
  have hback : ∀ {m' : Mem}, Holds m' A (insertBefore last seg (u ++ r)) → Holds m' A (u ++ seg ++ r) :=
    fun h => by rwa [hlast, insertBefore_headD seg hur] at h
  have hring : ∀ {y : Node} {v w : List Node}, u ++ r = v ++ w →
      y ∉ A :: (u ++ seg ++ r) → y ∉ A :: (v ++ seg ++ w) := fun e hy h => hy (by
    rw [mem_iff_mem_unlinked_or, e] at *
    exact h)
  rw [listTSplice_eq_of_holds hA hf hl hlast]
  by_cases hBA : B ∈ A :: (u ++ seg ++ r)
  · -- the chain moves within `A`'s ring, and back
    have hbA := mem_unlinked ((hA.isRotated_of_mem hB hBA (.head _)).perm.mem_iff.mpr hbefore) hbs
    have hA₁ := listTSplice_within hA hf hl hbA
    obtain ⟨v, w, huw, hins, hw⟩ := insertBefore_split seg hur hbA
    rw [hins] at hA₁
    rw [listTSplice_eq_of_holds hA₁ hf hl hw.symm]
    have hA₂ := hback (huw ▸ listTSplice_within hA₁ hf hl (huw ▸ hlastA))
    have hrot := hA.isRotated_of_mem hB hBA (.head _)
    refine hA.eq_of_agree_off hA₂ hB (hA₂.of_isRotated hrot) fun y hy hyB => ?_
    have f₁ := listTSplice_frame_node hA hf hl hB hbefore hy hyB
    have f₂ := listTSplice_frame_node hA₁ hf hl hA₁ (mem_of_mem_unlinked (huw ▸ hlastA))
      (hring huw hy) (hring huw hy)
    exact ⟨f₂.1.trans f₁.1, f₂.2.trans f₁.2⟩
  · -- the chain moves to `B`'s ring, and back
    obtain ⟨hA₁, hB₁⟩ := listTSplice_across hA hf hl hB hBA hbefore
    obtain ⟨v, w, hvw, hins, hw⟩ := insertBefore_split seg hB.1 hbefore
    rw [hins] at hB₁
    rw [listTSplice_eq_of_holds hB₁ hf hl hw.symm]
    have hdisj := hA.disjoint hB hBA
    have hAB : A ∉ B :: (v ++ seg ++ w) := fun h => by
      rcases mem_iff_mem_unlinked_or.mp h with h | h
      · exact hdisj A (hvw ▸ h) (.head _)
      · exact (List.nodup_cons.mp hnd).1 (List.mem_append_right _ h)
    obtain ⟨hB₂, hA₂⟩ := listTSplice_across hB₁ hf hl hA₁ hAB hlastA
    rw [← hvw] at hB₂
    refine hA.eq_of_agree_off (hback hA₂) hB hB₂ fun y hy hyB => ?_
    have f₁ := listTSplice_frame_node hA hf hl hB hbefore hy hyB
    have f₂ := listTSplice_frame_node hB₁ hf hl hA₁ hlastA
      (fun h => (mem_iff_mem_unlinked_or.mp h).elim (fun h => hyB (hvw ▸ h))
        fun h => hy (mem_iff_mem_unlinked_or.mpr (.inr h)))
      (fun h => hy (mem_of_mem_unlinked h))
    exact ⟨f₂.1.trans f₁.1, f₂.2.trans f₁.2⟩

theorem listTSplice_undo_twoLists :
    Holds twoLists 0 ([1] ++ [2] ++ [3]) ∧ ([2] : List Node) ≠ [] ∧ Holds twoLists 4 [5] ∧
      (5 : Node) ∈ [4, 5] ∧ (5 : Node) ∉ [2] ∧
      listTSplice (listTSplice twoLists 5 2 3) 3 2 5 = twoLists :=
  ⟨by decide, by decide, by decide, by decide, by decide,
    @listTSplice_undo twoLists 0 4 5 2 3 [1] [2] [3] [5] (by decide) (by decide) rfl rfl (by decide)
      (by decide) (by decide)⟩

end Of12Softswitch.Lib
