import Of12Softswitch.Lib.ListT.Splice
import Of12Softswitch.Lib.ListT.Iterate

/-!
# The lists of a program

A program keeps several lists in memory: heads with the elements they hold, and
no node on two lists. `ListOp` is a call of one of the operations of
`lib/list_t.c` that write memory, `ListOp.run` its effect on memory, and
`ListOp.step` its effect on the sequences, the lists as the program sees them.
`step` is `none` where the call's precondition fails: a node inserted that is
already on a list, a node removed or replaced that is a head or on no list, a
pop from an empty list, a chain that does not end at `last`.

Results:
* `represents_step`: a call whose precondition holds keeps the lists in memory
  well formed and apart, holding what `step` says.
* `Represents.queries`: the queries on a head answer from its sequence.
* `represents_run`: every program keeps the lists as `step` computes them, and
  the queries on each head then answer from its sequence.
* `run_agree`: the pointers of the nodes on the lists depend only on what the
  lists hold, not on the calls that built them.
* `represents_listForEachSafe`: `LIST_FOR_EACH_SAFE` removing elements of one
  list keeps the others.
-/

namespace Of12Softswitch.Lib

/-! ## Lists in memory -/

/-- The lists of a program: each head with the elements it holds. -/
abbrev Lists := List (Node × List Node)

/-- Every node on a list of `L`, heads included. -/
def nodesOf (L : Lists) : List Node := L.flatMap fun p => p.1 :: p.2

/-- No node is on two of the lists. -/
def Apart (L : Lists) : Prop := L.Pairwise fun p q => ∀ y ∈ p.1 :: p.2, y ∉ q.1 :: q.2

instance (L : Lists) : Decidable (Apart L) := inferInstanceAs (Decidable (List.Pairwise _ _))

/-- The memory `m` holds the lists `L`: they share no node, and each head holds
    its elements. -/
def Represents (m : Mem) (L : Lists) : Prop := Apart L ∧ ∀ p ∈ L, Holds m p.1 p.2

instance (m : Mem) (L : Lists) : Decidable (Represents m L) := inferInstanceAs (Decidable (_ ∧ _))

/-- The list the node `y` is on, as its head or one of its elements. -/
def findList (L : Lists) (y : Node) : Option (Node × List Node) :=
  L.find? fun p => y ∈ p.1 :: p.2

/-- `L` with the elements of the head `H` set to `s`. -/
def setList (L : Lists) (H : Node) (s : List Node) : Lists :=
  L.map fun p => if p.1 = H then (H, s) else p

/-- The chain of `s` from `first` up to, not including, `last`, with the
    elements before and after it. -/
def splitChain (first last : Node) (s : List Node) : List Node × List Node × List Node :=
  let rest := s.dropWhile (· ≠ first)
  (s.takeWhile (· ≠ first), rest.takeWhile (· ≠ last), rest.dropWhile (· ≠ last))

/-! ## Calls -/

/-- A call of an operation of `lib/list_t.c` that writes memory. -/
inductive ListOp
  | init (list : Node)
  | insert (before elem : Node)
  | splice (before first last : Node)
  | pushFront (list elem : Node)
  | pushBack (list elem : Node)
  | replace (element position : Node)
  | remove (elem : Node)
  | popFront (list : Node)
  | popBack (list : Node)
  deriving DecidableEq

namespace ListOp

/-- The call's effect on memory. -/
def run (m : Mem) : ListOp → Mem
  | init list => listTInit m list
  | insert before elem => listTInsert m before elem
  | splice before first last => listTSplice m before first last
  | pushFront list elem => listTPushFront m list elem
  | pushBack list elem => listTPushBack m list elem
  | replace element position => listTReplace m element position
  | remove elem => (listTRemove m elem).1
  | popFront list => (listTPopFront m list).1
  | popBack list => (listTPopBack m list).1

/-- The call's effect on the sequences; `none` where its precondition fails. -/
def step (L : Lists) : ListOp → Option Lists
  | init list => if list ∈ nodesOf L then none else some ((list, []) :: L)
  | insert before elem =>
    if elem ∈ nodesOf L then none
    else (findList L before).map fun p => setList L p.1 (insertBefore before [elem] p.2)
  | splice before first last =>
    if first = last then some L
    else (findList L first).bind fun p =>
      let c := splitChain first last p.2
      if first = p.1 ∨ last ≠ c.2.2.headD p.1 ∨ before ∈ c.2.1 then none
      else (findList L before).map fun q =>
        if q.1 = p.1 then setList L p.1 (insertBefore before c.2.1 (c.1 ++ c.2.2))
        else setList (setList L p.1 (c.1 ++ c.2.2)) q.1 (insertBefore before c.2.1 q.2)
  | pushFront list elem =>
    if elem ∈ nodesOf L then none
    else (findList L list).bind fun p => if p.1 = list then some (setList L list (elem :: p.2)) else none
  | pushBack list elem =>
    if elem ∈ nodesOf L then none
    else (findList L list).bind fun p => if p.1 = list then some (setList L list (p.2 ++ [elem])) else none
  | replace element position =>
    if element ∈ nodesOf L then none
    else (findList L position).bind fun p =>
      if position = p.1 then none
      else some (setList L p.1 (p.2.map fun y => if y = position then element else y))
  | remove elem =>
    (findList L elem).bind fun p => if elem = p.1 then none else some (setList L p.1 (p.2.erase elem))
  | popFront list =>
    (findList L list).bind fun p =>
      if p.1 = list ∧ p.2 ≠ [] then some (setList L list p.2.tail) else none
  | popBack list =>
    (findList L list).bind fun p =>
      if p.1 = list ∧ p.2 ≠ [] then some (setList L list p.2.dropLast) else none

end ListOp

/-! ## The sequences -/

theorem mem_nodesOf {L : Lists} {y : Node} : y ∈ nodesOf L ↔ ∃ p ∈ L, y ∈ p.1 :: p.2 :=
  List.mem_flatMap

theorem findList_spec {L : Lists} {y : Node} {p : Node × List Node} (h : findList L y = some p) :
    p ∈ L ∧ y ∈ p.1 :: p.2 := by
  unfold findList at h
  exact ⟨List.mem_of_find?_eq_some h, by simpa using List.find?_some h⟩

/-- A call whose lookup of `y` succeeded went on with the list `y` is on. -/
theorem findList_bind_eq_some {L L' : Lists} {y : Node} {f : Node × List Node → Option Lists}
    (h : (findList L y).bind f = some L') : ∃ H s, (H, s) ∈ L ∧ y ∈ H :: s ∧ f (H, s) = some L' := by
  obtain ⟨⟨H, s⟩, hf, h⟩ := Option.bind_eq_some.mp h
  exact ⟨H, s, (findList_spec hf).1, (findList_spec hf).2, h⟩

/-- Two lists of `L` that share a node are the same list. -/
theorem Apart.eq_of_mem {L : Lists} (hL : Apart L) {p q : Node × List Node} {y : Node}
    (hp : p ∈ L) (hq : q ∈ L) (hyp : y ∈ p.1 :: p.2) (hyq : y ∈ q.1 :: q.2) : p = q := by
  have hsym : Symmetric fun p q : Node × List Node => ∀ y ∈ p.1 :: p.2, y ∉ q.1 :: q.2 := by
    intro _ _ h y hy hy'
    exact h y hy' hy
  by_contra hne
  exact hL.forall hsym hp hq hne y hyp hyq

/-- Setting a list to nodes of its own or of no list keeps the lists apart. -/
theorem apart_setList {L : Lists} (hL : Apart L) {p : Node × List Node} (hp : p ∈ L)
    {s : List Node} (hnew : ∀ y ∈ s, y ∈ p.2 ∨ y ∉ nodesOf L) : Apart (setList L p.1 s) := by
  have hfrom : ∀ c ∈ L, ∀ y ∈ (if c.1 = p.1 then (p.1, s) else c).1 ::
      (if c.1 = p.1 then (p.1, s) else c).2, y ∈ c.1 :: c.2 ∨ (c = p ∧ y ∉ nodesOf L) := by
    intro c hc y hy
    split_ifs at hy with h
    · obtain rfl := hL.eq_of_mem hc hp (h ▸ .head _) (.head _)
      rcases List.mem_cons.mp hy with rfl | hy
      · exact .inl (.head _)
      · exact (hnew y hy).imp (.tail _) fun h => ⟨rfl, h⟩
    · exact .inl hy
  unfold Apart setList
  rw [List.pairwise_map]
  refine hL.imp_of_mem fun {a b} ha hb hab y hya hyb => ?_
  have hin : ∀ c ∈ L, y ∈ c.1 :: c.2 → y ∈ nodesOf L := fun c hc h => mem_nodesOf.mpr ⟨c, hc, h⟩
  rcases hfrom a ha y hya with h₁ | ⟨rfl, h₁⟩ <;> rcases hfrom b hb y hyb with h₂ | ⟨rfl, h₂⟩
  · exact hab y h₁ h₂
  · exact h₂ (hin _ ha h₁)
  · exact h₁ (hin _ hb h₂)
  · exact hab _ (.head _) (.head _)

theorem holds_setList {m : Mem} {L : Lists} {H : Node} {s : List Node} (hH : Holds m H s)
    (hother : ∀ q ∈ L, q.1 ≠ H → Holds m q.1 q.2) : ∀ q ∈ setList L H s, Holds m q.1 q.2 := by
  intro q hq
  obtain ⟨p, hp, rfl⟩ := List.mem_map.mp hq
  split_ifs with h
  · exact hH
  · exact hother p hp h

/-- The lists other than `p` keep their contents when the pointers of their
    nodes are unchanged. -/
theorem Represents.holds_other {m m' : Mem} {L : Lists} (hR : Represents m L)
    {p : Node × List Node} (hp : p ∈ L)
    (hframe : ∀ y ∈ nodesOf L, y ∉ p.1 :: p.2 → m'.next y = m.next y ∧ m'.prev y = m.prev y) :
    ∀ q ∈ L, q.1 ≠ p.1 → Holds m' q.1 q.2 := fun q hq hne =>
  (hR.2 q hq).frame fun y hy => hframe y (mem_nodesOf.mpr ⟨q, hq, hy⟩) fun hy' =>
    hne (congrArg Prod.fst (hR.1.eq_of_mem hq hp hy hy'))

theorem map_replace_of_not_mem {a b : Node} :
    ∀ {l : List Node}, a ∉ l → l.map (fun y => if y = a then b else y) = l
  | [], _ => rfl
  | y :: l, h => by
    simp only [List.mem_cons, not_or] at h
    simp [Ne.symm h.1, map_replace_of_not_mem h.2]

theorem headD_dropWhile_ne {x d : Node} :
    ∀ {l : List Node}, x ∈ l → (l.dropWhile (· ≠ x)).headD d = x
  | y :: l, h => by
    rw [List.dropWhile_cons]
    by_cases hy : y = x
    · simp [hy]
    · rw [if_pos (by simpa using hy)]
      exact headD_dropWhile_ne ((List.mem_cons.mp h).resolve_left (Ne.symm hy))

theorem splitChain_append (first last : Node) (s : List Node) :
    (splitChain first last s).1 ++ (splitChain first last s).2.1 ++ (splitChain first last s).2.2 =
      s := by
  simp only [splitChain, List.append_assoc, List.takeWhile_append_dropWhile]

theorem splitChain_first {first last A : Node} {s : List Node} (h : first ∈ s) :
    ((splitChain first last s).2.1 ++ (splitChain first last s).2.2).headD A = first := by
  simp only [splitChain, List.takeWhile_append_dropWhile]
  exact headD_dropWhile_ne h

/-! ## One call -/

section

variable {m : Mem} {L : Lists} {H : Node} {s : List Node}

theorem represents_init (hR : Represents m L) {list : Node} (hl : list ∉ nodesOf L) :
    Represents (listTInit m list) ((list, []) :: L) := by
  refine ⟨List.pairwise_cons.mpr ⟨fun q hq y hy hy' => ?_, hR.1⟩, fun q hq => ?_⟩
  · rw [List.mem_singleton.mp hy] at hy'
    exact hl (mem_nodesOf.mpr ⟨q, hq, hy'⟩)
  · rcases List.mem_cons.mp hq with rfl | hq
    · exact holds_listTInit m list
    · exact (hR.2 q hq).frame fun y hy =>
        listTInit_frame fun e => hl (e ▸ mem_nodesOf.mpr ⟨q, hq, hy⟩)

theorem represents_insert (hR : Represents m L) {before elem : Node} (he : elem ∉ nodesOf L)
    (hp : (H, s) ∈ L) (hb : before ∈ H :: s) :
    Represents (listTInsert m before elem) (setList L H (insertBefore before [elem] s)) := by
  have hH : Holds m H s := hR.2 _ hp
  have hx : elem ∉ H :: s := fun h => he (mem_nodesOf.mpr ⟨_, hp, h⟩)
  refine ⟨apart_setList hR.1 hp fun y hy => ?_, holds_setList (holds_listTInsert hH hx hb)
    (hR.holds_other hp fun y hy hy' => listTInsert_frame ?_ ?_ ?_)⟩
  · rcases mem_insertBefore.mp hy with h | h
    · exact .inr (List.mem_singleton.mp h ▸ he)
    · exact .inl h
  · exact fun e => he (e ▸ hy)
  · exact fun e => hy' (e ▸ hb)
  · exact fun e => hy' (e ▸ hH.prev_mem hb)

theorem represents_pushFront (hR : Represents m L) {elem : Node} (he : elem ∉ nodesOf L)
    (hp : (H, s) ∈ L) : Represents (listTPushFront m H elem) (setList L H (elem :: s)) := by
  have hH : Holds m H s := hR.2 _ hp
  have e : insertBefore (s.headD H) [elem] s = elem :: s := by cases s <;> simp [insertBefore]
  rw [listTPushFront, hH.next_head, ← e]
  exact represents_insert hR he hp (hH.next_head ▸ hH.next_mem (.head _))

theorem represents_pushBack (hR : Represents m L) {elem : Node} (he : elem ∉ nodesOf L)
    (hp : (H, s) ∈ L) : Represents (listTPushBack m H elem) (setList L H (s ++ [elem])) := by
  have hH : Holds m H s := hR.2 _ hp
  rw [← insertBefore_of_not_mem (List.nodup_cons.mp hH.1).1]
  exact represents_insert hR he hp (.head _)

theorem represents_remove (hR : Represents m L) {elem : Node} (hp : (H, s) ∈ L) (he : elem ∈ s) :
    Represents (listTRemove m elem).1 (setList L H (s.erase elem)) := by
  have hH : Holds m H s := hR.2 _ hp
  obtain ⟨u, v, rfl⟩ := List.append_of_mem he
  have heu : elem ∉ u := fun h => (List.nodup_append.mp (List.nodup_cons.mp hH.1).2).2.2 h (.head _)
  rw [List.erase_append_right _ heu, List.erase_cons_head]
  refine ⟨apart_setList hR.1 hp fun y hy =>
      .inl (by simpa using (sublist_unlinked u [elem] v).subset hy),
    holds_setList (holds_listTRemove hH).1 (hR.holds_other hp fun y _ hy' => listTRemove_frame ?_ ?_)⟩
  · exact fun e => hy' (e ▸ hH.prev_mem (by simp))
  · exact fun e => hy' (e ▸ hH.next_mem (by simp))

theorem represents_popFront (hR : Represents m L) (hp : (H, s) ∈ L) (hs : s ≠ []) :
    Represents (listTPopFront m H).1 (setList L H s.tail) := by
  obtain ⟨e, s, rfl⟩ := List.exists_cons_of_ne_nil hs
  have hn : m.next H = e := (hR.2 _ hp).next_head
  show Represents (listTRemove m (m.next H)).1 (setList L H s)
  rw [hn]
  simpa using represents_remove hR hp (List.mem_cons_self e s)

theorem represents_popBack (hR : Represents m L) (hp : (H, s) ∈ L) (hs : s ≠ []) :
    Represents (listTPopBack m H).1 (setList L H s.dropLast) := by
  obtain ⟨s, e, rfl⟩ : ∃ s' e, s = s' ++ [e] :=
    ⟨_, _, (List.dropLast_append_getLast hs).symm⟩
  have hH : Holds m H (s ++ [e]) := hR.2 _ hp
  have hes : e ∉ s := fun h => (List.nodup_append.mp (List.nodup_cons.mp hH.1).2).2.2 h (.head _)
  show Represents (listTRemove m (m.prev H)).1 (setList L H (s ++ [e]).dropLast)
  rw [hH.prev_head, List.dropLast_concat]
  have := represents_remove hR hp (List.mem_append_right s (List.mem_singleton_self e))
  rwa [List.erase_append_right _ hes, List.erase_cons_head, List.append_nil] at this

theorem represents_replace (hR : Represents m L) {element position : Node}
    (hx : element ∉ nodesOf L) (hp : (H, s) ∈ L) (hpos : position ∈ s) :
    Represents (listTReplace m element position)
      (setList L H (s.map fun y => if y = position then element else y)) := by
  have hH : Holds m H s := hR.2 _ hp
  have hxs : element ∉ H :: s := fun h => hx (mem_nodesOf.mpr ⟨_, hp, h⟩)
  obtain ⟨u, v, rfl⟩ := List.append_of_mem hpos
  have hnd := List.nodup_cons.mp (List.nodup_middle.mp (List.nodup_cons.mp hH.1).2)
  have hpu : position ∉ u := fun h => hnd.1 (List.mem_append_left _ h)
  have hpv : position ∉ v := fun h => hnd.1 (List.mem_append_right _ h)
  rw [List.map_append, List.map_cons, if_pos rfl, map_replace_of_not_mem hpu,
    map_replace_of_not_mem hpv]
  refine ⟨apart_setList hR.1 hp fun y hy => ?_, holds_setList (holds_listTReplace hH hxs)
    (hR.holds_other hp fun y hy hy' => listTReplace_frame ?_ ?_ ?_)⟩
  · simp only [List.mem_append, List.mem_cons] at hy
    rcases hy with hy | rfl | hy
    · exact .inl (List.mem_append_left _ hy)
    · exact .inr hx
    · exact .inl (List.mem_append_right _ (.tail _ hy))
  · exact fun e => hx (e ▸ hy)
  · exact fun e => hy' (e ▸ hH.next_mem (by simp))
  · exact fun e => hy' (e ▸ hH.prev_mem (by simp))

variable {A B before first last : Node} {u seg r sB : List Node}

theorem represents_splice_within (hR : Represents m L) (hp : (A, u ++ seg ++ r) ∈ L)
    (hfirst : first = (seg ++ r).headD A) (hlast : last = r.headD A)
    (hbefore : before ∈ A :: (u ++ seg ++ r)) (hseg : before ∉ seg) :
    Represents (listTSplice m before first last) (setList L A (insertBefore before seg (u ++ r))) := by
  have hA : Holds m A (u ++ seg ++ r) := hR.2 _ hp
  have hmv := listTSplice_moves hA hfirst hlast hA hbefore hseg
  refine ⟨apart_setList hR.1 hp fun y hy => .inl ?_, holds_setList (hmv.2.1 (.head _)) fun q hq hne => ?_⟩
  · rcases mem_insertBefore.mp hy with hy | hy
    · exact List.mem_append_left _ (List.mem_append_right _ hy)
    · exact (sublist_unlinked u seg r).subset hy
  · have hG : q.1 ∉ A :: (u ++ seg ++ r) := fun h =>
      hne (congrArg Prod.fst (hR.1.eq_of_mem hq hp (.head _) h))
    exact hmv.2.2 q.1 q.2 (hR.2 q hq) hG hG

theorem represents_splice_across (hR : Represents m L) (hp : (A, u ++ seg ++ r) ∈ L)
    (hq : (B, sB) ∈ L) (hBA : B ≠ A) (hfirst : first = (seg ++ r).headD A)
    (hlast : last = r.headD A) (hbefore : before ∈ B :: sB) (hseg : before ∉ seg) :
    Represents (listTSplice m before first last)
      (setList (setList L A (u ++ r)) B (insertBefore before seg sB)) := by
  have hA : Holds m A (u ++ seg ++ r) := hR.2 _ hp
  have hBA' : B ∉ A :: (u ++ seg ++ r) := fun h =>
    hBA (congrArg Prod.fst (hR.1.eq_of_mem hq hp (.head _) h))
  have hmv := listTSplice_moves hA hfirst hlast (hR.2 _ hq) hbefore hseg
  have h₁ : Apart (setList L A (u ++ r)) :=
    apart_setList hR.1 hp fun y hy => .inl ((sublist_unlinked u seg r).subset hy)
  have hq₁ : (B, sB) ∈ setList L A (u ++ r) := List.mem_map.mpr ⟨_, hq, if_neg hBA⟩
  refine ⟨apart_setList h₁ hq₁ fun y hy => ?_, holds_setList (hmv.1 hBA').2 fun q hq' hne => ?_⟩
  · refine (mem_insertBefore.mp hy).symm.imp id fun hys hyn => ?_
    obtain ⟨c, hc, hyc⟩ := mem_nodesOf.mp hyn
    obtain ⟨c₀, hc₀, rfl⟩ := List.mem_map.mp hc
    split_ifs at hyc with h
    · exact (List.nodup_append.mp hA.nodup_unlinked).2.2 hyc hys
    · exact h (congrArg Prod.fst (hR.1.eq_of_mem hc₀ hp hyc (by simp [hys])))
  · obtain ⟨q₀, hq₀, rfl⟩ := List.mem_map.mp hq'
    split_ifs at hne ⊢ with h
    · exact (hmv.1 hBA').1
    · exact hmv.2.2 _ _ (hR.2 _ hq₀)
        (fun h' => h (congrArg Prod.fst (hR.1.eq_of_mem hq₀ hp (.head _) h')))
        (fun h' => hne (congrArg Prod.fst (hR.1.eq_of_mem hq₀ hq (.head _) h')))

end

/-! ## Programs -/

/-- A call whose precondition holds keeps the lists in memory well formed and
    apart, holding the sequences `step` computes. -/
theorem represents_step {m : Mem} {L L' : Lists} {op : ListOp} (hR : Represents m L)
    (h : op.step L = some L') : Represents (op.run m) L' := by
  cases op with
  | init list =>
    simp only [ListOp.step] at h
    split_ifs at h with hl
    cases h
    exact represents_init hR hl
  | insert before elem =>
    simp only [ListOp.step] at h
    split_ifs at h with he
    obtain ⟨⟨H, s⟩, hf, rfl⟩ := Option.map_eq_some'.mp h
    exact represents_insert hR he (findList_spec hf).1 (findList_spec hf).2
  | splice before first last =>
    simp only [ListOp.step] at h
    by_cases hfl : first = last
    · rw [if_pos hfl] at h
      cases h
      rwa [ListOp.run, hfl, listTSplice, if_pos rfl]
    rw [if_neg hfl] at h
    obtain ⟨A, s, hpL, hfA, h⟩ := findList_bind_eq_some h
    split_ifs at h with hc
    obtain ⟨⟨B, sB⟩, hfB, rfl⟩ := Option.map_eq_some'.mp h
    obtain ⟨hqL, hbB⟩ := findList_spec hfB
    simp only [not_or, not_not] at hc
    have hfs : first ∈ s := (List.mem_cons.mp hfA).resolve_left hc.1
    have hs := splitChain_append first last s
    have hfirst := (@splitChain_first first last A s hfs).symm
    generalize splitChain first last s = c at hs hfirst hc
    obtain ⟨u, seg, r⟩ := c
    subst hs
    by_cases hBA : B = A
    · subst hBA
      obtain rfl : sB = u ++ seg ++ r := congrArg Prod.snd (hR.1.eq_of_mem hqL hpL (.head _) (.head _))
      rw [if_pos rfl]
      exact represents_splice_within hR hpL hfirst hc.2.1 hbB hc.2.2
    · rw [if_neg hBA]
      exact represents_splice_across hR hpL hqL hBA hfirst hc.2.1 hbB hc.2.2
  | pushFront list elem =>
    simp only [ListOp.step] at h
    split_ifs at h with he
    obtain ⟨H, s, hp, -, h⟩ := findList_bind_eq_some h
    split_ifs at h with hH
    cases h
    subst hH
    exact represents_pushFront hR he hp
  | pushBack list elem =>
    simp only [ListOp.step] at h
    split_ifs at h with he
    obtain ⟨H, s, hp, -, h⟩ := findList_bind_eq_some h
    split_ifs at h with hH
    cases h
    subst hH
    exact represents_pushBack hR he hp
  | replace element position =>
    simp only [ListOp.step] at h
    split_ifs at h with hx
    obtain ⟨H, s, hp, hpos, h⟩ := findList_bind_eq_some h
    split_ifs at h with hH
    cases h
    exact represents_replace hR hx hp ((List.mem_cons.mp hpos).resolve_left hH)
  | remove elem =>
    simp only [ListOp.step] at h
    obtain ⟨H, s, hp, he, h⟩ := findList_bind_eq_some h
    split_ifs at h with hH
    cases h
    exact represents_remove hR hp ((List.mem_cons.mp he).resolve_left hH)
  | popFront list =>
    simp only [ListOp.step] at h
    obtain ⟨H, s, hp, -, h⟩ := findList_bind_eq_some h
    split_ifs at h with hH
    cases h
    obtain ⟨rfl, hs⟩ := hH
    exact represents_popFront hR hp hs
  | popBack list =>
    simp only [ListOp.step] at h
    obtain ⟨H, s, hp, -, h⟩ := findList_bind_eq_some h
    split_ifs at h with hH
    cases h
    obtain ⟨rfl, hs⟩ := hH
    exact represents_popBack hR hp hs

/-- The queries of `lib/list_t.c` on a head answer from the elements it holds. -/
theorem Represents.queries (hR : Represents m L) (hp : (H, s) ∈ L) :
    listTIsEmpty m H = s.isEmpty ∧ listTFront m H = s.head? ∧ listTBack m H = s.getLast? ∧
      ∀ fuel, s.length < fuel → listTSize m H fuel = some s.length := by
  have hH : Holds m H s := hR.2 _ hp
  have hempty : listTIsEmpty m H = s.isEmpty := by
    rw [Bool.eq_iff_iff, listTIsEmpty_iff hH, List.isEmpty_iff]
  refine ⟨hempty, ?_, ?_, fun _ => listTSize_eq hH⟩
  · cases s with
    | nil => simp [listTFront, hempty]
    | cons e s => exact listTFront_eq hH
  · rcases List.eq_nil_or_concat s with rfl | ⟨s, e, rfl⟩
    · simp [listTBack, hempty]
    · rw [List.concat_eq_append] at hH ⊢
      rw [List.getLast?_concat]
      exact listTBack_eq hH

/-- Two memories that hold the same lists agree on the pointers of every node of
    those lists. -/
theorem Represents.agree {m m' : Mem} {L : Lists} (hR : Represents m L) (hR' : Represents m' L)
    {y : Node} (hy : y ∈ nodesOf L) : m'.next y = m.next y ∧ m'.prev y = m.prev y := by
  obtain ⟨p, hp, hyp⟩ := mem_nodesOf.mp hy
  exact (hR.2 p hp).agree (hR'.2 p hp) hyp

theorem represents_foldl {m : Mem} {L L' : Lists} {ops : List ListOp} (hR : Represents m L)
    (h : ops.foldlM ListOp.step L = some L') : Represents (ops.foldl ListOp.run m) L' := by
  induction ops generalizing m L with
  | nil =>
    cases h
    exact hR
  | cons op ops ih =>
    obtain ⟨L₁, h₁, h⟩ := Option.bind_eq_some.mp h
    exact ih (represents_step hR h₁) h

/-- Every program of list calls whose preconditions hold keeps the lists in
    memory well formed and apart, holding the sequences the calls compute; the
    queries `list_t_is_empty`, `list_t_front`, `list_t_back` and `list_t_size`
    on each head then answer from its sequence. -/
theorem represents_run {m : Mem} {L L' : Lists} {ops : List ListOp} (hR : Represents m L)
    (h : ops.foldlM ListOp.step L = some L') :
    Represents (ops.foldl ListOp.run m) L' ∧ ∀ p ∈ L',
      listTIsEmpty (ops.foldl ListOp.run m) p.1 = p.2.isEmpty ∧
      listTFront (ops.foldl ListOp.run m) p.1 = p.2.head? ∧
      listTBack (ops.foldl ListOp.run m) p.1 = p.2.getLast? ∧
      ∀ fuel, p.2.length < fuel → listTSize (ops.foldl ListOp.run m) p.1 fuel = some p.2.length := by
  have hR' := represents_foldl hR h
  exact ⟨hR', fun p hp => hR'.queries hp⟩

/-- Two lists built, an element moved from one to the other, then replaced,
    removed, popped and inserted. -/
def sampleProgram : List ListOp :=
  [.init 0, .pushBack 0 1, .pushBack 0 2, .pushBack 0 3, .init 4, .pushFront 4 5, .splice 5 2 3,
    .replace 6 1, .remove 5, .popBack 0, .insert 6 7]

theorem represents_run_sampleProgram :
    Represents ⟨id, id⟩ [] ∧ sampleProgram.foldlM ListOp.step [] = some [(4, [2]), (0, [7, 6])] ∧
      (Represents (sampleProgram.foldl ListOp.run ⟨id, id⟩) [(4, [2]), (0, [7, 6])] ∧
        ∀ p ∈ ([(4, [2]), (0, [7, 6])] : Lists),
          listTIsEmpty (sampleProgram.foldl ListOp.run ⟨id, id⟩) p.1 = p.2.isEmpty ∧
          listTFront (sampleProgram.foldl ListOp.run ⟨id, id⟩) p.1 = p.2.head? ∧
          listTBack (sampleProgram.foldl ListOp.run ⟨id, id⟩) p.1 = p.2.getLast? ∧
          ∀ fuel, p.2.length < fuel →
            listTSize (sampleProgram.foldl ListOp.run ⟨id, id⟩) p.1 fuel = some p.2.length) :=
  ⟨⟨.nil, fun _ h => absurd h (List.not_mem_nil _)⟩, rfl,
    represents_run ⟨.nil, fun _ h => absurd h (List.not_mem_nil _)⟩ rfl⟩

/-- Two programs of list calls that compute the same lists from the same memory
    leave the same pointers on every node of those lists, whatever calls they
    make and in whatever order: for instance, calls on different lists commute
    there. Nodes taken off the lists keep whatever pointers they last had. -/
theorem run_agree {m : Mem} {L L' : Lists} {ops₁ ops₂ : List ListOp} (hR : Represents m L)
    (h₁ : ops₁.foldlM ListOp.step L = some L') (h₂ : ops₂.foldlM ListOp.step L = some L') :
    ∀ y ∈ nodesOf L', (ops₂.foldl ListOp.run m).next y = (ops₁.foldl ListOp.run m).next y ∧
      (ops₂.foldl ListOp.run m).prev y = (ops₁.foldl ListOp.run m).prev y := fun _ hy =>
  (represents_foldl hR h₁).agree (represents_foldl hR h₂) hy

theorem run_agree_commute :
    Represents (listTPushBack (listTInit ⟨id, id⟩ 0) 0 1) [(0, [1])] ∧
      ([.pushFront 0 2, .init 4, .pushBack 4 5, .remove 1] : List ListOp).foldlM ListOp.step
        [(0, [1])] = some [(4, [5]), (0, [2])] ∧
      ([.init 4, .remove 1, .pushBack 4 5, .pushFront 0 2] : List ListOp).foldlM ListOp.step
        [(0, [1])] = some [(4, [5]), (0, [2])] ∧
      ∀ y ∈ nodesOf [(4, [5]), (0, [2])],
        (([.init 4, .remove 1, .pushBack 4 5, .pushFront 0 2] : List ListOp).foldl ListOp.run
            (listTPushBack (listTInit ⟨id, id⟩ 0) 0 1)).next y =
          (([.pushFront 0 2, .init 4, .pushBack 4 5, .remove 1] : List ListOp).foldl ListOp.run
            (listTPushBack (listTInit ⟨id, id⟩ 0) 0 1)).next y ∧
        (([.init 4, .remove 1, .pushBack 4 5, .pushFront 0 2] : List ListOp).foldl ListOp.run
            (listTPushBack (listTInit ⟨id, id⟩ 0) 0 1)).prev y =
          (([.pushFront 0 2, .init 4, .pushBack 4 5, .remove 1] : List ListOp).foldl ListOp.run
            (listTPushBack (listTInit ⟨id, id⟩ 0) 0 1)).prev y :=
  ⟨by decide, rfl, rfl, @run_agree _ [(0, [1])] _ _ _ (by decide) rfl rfl⟩

/-- `LIST_FOR_EACH_SAFE` over a list of the program, with a body that removes
    some of its elements: the list then holds the elements the body kept, and
    every other list keeps its contents. -/
theorem represents_listForEachSafe {σ : Type} {m : Mem} {L : Lists} {H : Node} {s : List Node}
    (hR : Represents m L) (hp : (H, s) ∈ L) {fuel : ℕ} (hfuel : s.length < fuel)
    (body : σ → Node → σ × Bool) (st : σ) :
    ∃ m', listForEachSafe m H body fuel st = some (m', (runSafe body st s).1) ∧
      Represents m' (setList L H (runSafe body st s).2) := by
  have hH : Holds m H s := hR.2 _ hp
  obtain ⟨m', h₁, h₂, h₃⟩ := @listForEachSafeLoop_eq _ body H s [] m st fuel (by simpa using hH) hfuel
  refine ⟨m', by rwa [listForEachSafe, hH.next_head], ?_⟩
  exact ⟨apart_setList hR.1 hp fun y hy => .inl ((runSafe_sublist body st s).subset hy),
    holds_setList h₂ (hR.holds_other hp fun y _ hy => h₃ y (by simpa using hy))⟩

theorem represents_listForEachSafe_removeOne :
    Represents (([.init 0, .pushBack 0 1, .pushBack 0 2, .init 3, .pushBack 3 4] : List ListOp).foldl
        ListOp.run ⟨id, id⟩) [(3, [4]), (0, [1, 2])] ∧
      ((0 : Node), [1, 2]) ∈ ([(3, [4]), (0, [1, 2])] : Lists) ∧ [1, 2].length < 3 ∧
      ∃ m', listForEachSafe (([.init 0, .pushBack 0 1, .pushBack 0 2, .init 3, .pushBack 3 4] :
            List ListOp).foldl ListOp.run ⟨id, id⟩) 0 (fun (_ : Unit) x => ((), decide (x = 1))) 3 () =
          some (m', (runSafe (fun (_ : Unit) x => ((), decide (x = 1))) () [1, 2]).1) ∧
        Represents m' (setList [(3, [4]), (0, [1, 2])] 0
          (runSafe (fun (_ : Unit) x => ((), decide (x = 1))) () [1, 2]).2) :=
  ⟨by decide, by decide, by decide, represents_listForEachSafe (by decide) (by decide) (by decide) _ _⟩

end Of12Softswitch.Lib
