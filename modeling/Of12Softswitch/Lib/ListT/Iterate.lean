import Of12Softswitch.Lib.ListT.Ops

/-!
# Iterating over a list (`LIST_FOR_EACH`, `LIST_FOR_EACH_REVERSE`, `LIST_FOR_EACH_SAFE`)

The three loop macros of `lib/list_t.h` (lines 81–93) as loops over a state
`σ` that the body updates, each for at most `fuel` tests of its condition.
`CONTAINER_OF` maps a `struct list_t` to the structure holding it; a node stands
for that structure here.

The bodies of `LIST_FOR_EACH` and `LIST_FOR_EACH_REVERSE` leave the memory
unchanged. The body of `LIST_FOR_EACH_SAFE` says whether it removes its node
with `list_t_remove`, and touches no other node. `LIST_FOR_EACH_SAFE` reads
`NEXT` before the body runs, which is what keeps the loop on the list when the
body unlinks `ITER`.

Results:
* `listForEachLoop_eq`: the forward loop folds the body over the list.
* `listForEachSafeLoop_eq`: the safe loop, run on the rest of a list, keeps the
  list well formed and holding the elements kept so far.
* `listForEach_runs`: all three loops on a list of `k` elements.
* `listForEach_removed`: from a node taken off its list, the loops and
  `list_t_size` never end.
-/

namespace Of12Softswitch.Lib

variable {σ : Type}

/-! ## The loops -/

/-- The loop of `LIST_FOR_EACH` from node `iter` with state `st`. -/
def listForEachLoop (m : Mem) (list : Node) (body : σ → Node → σ) : ℕ → Node → σ → Option σ
  | 0, _, _ => none
  | fuel + 1, iter, st =>
    if iter ≠ list then listForEachLoop m list body fuel (m.next iter) (body st iter) else some st

/-- `LIST_FOR_EACH(ITER, STRUCT, MEMBER, LIST)` (lines 81–84). -/
def listForEach (m : Mem) (list : Node) (body : σ → Node → σ) (fuel : ℕ) (st : σ) : Option σ :=
  listForEachLoop m list body fuel (m.next list) st

/-- The loop of `LIST_FOR_EACH_REVERSE` from node `iter` with state `st`. -/
def listForEachReverseLoop (m : Mem) (list : Node) (body : σ → Node → σ) :
    ℕ → Node → σ → Option σ
  | 0, _, _ => none
  | fuel + 1, iter, st =>
    if iter ≠ list then listForEachReverseLoop m list body fuel (m.prev iter) (body st iter)
    else some st

/-- `LIST_FOR_EACH_REVERSE(ITER, STRUCT, MEMBER, LIST)` (lines 85–88). -/
def listForEachReverse (m : Mem) (list : Node) (body : σ → Node → σ) (fuel : ℕ) (st : σ) :
    Option σ :=
  listForEachReverseLoop m list body fuel (m.prev list) st

/-- The loop of `LIST_FOR_EACH_SAFE` from node `iter` with state `st`. The body
    returns its new state and whether it called `list_t_remove(ITER)`. -/
def listForEachSafeLoop (list : Node) (body : σ → Node → σ × Bool) :
    ℕ → Mem → Node → σ → Option (Mem × σ)
  | 0, _, _, _ => none
  | fuel + 1, m, iter, st =>
    let next := m.next iter
    if iter ≠ list then
      let m := if (body st iter).2 then (listTRemove m iter).1 else m
      listForEachSafeLoop list body fuel m next (body st iter).1
    else some (m, st)

/-- `LIST_FOR_EACH_SAFE(ITER, NEXT, STRUCT, MEMBER, LIST)` (lines 89–93). -/
def listForEachSafe (m : Mem) (list : Node) (body : σ → Node → σ × Bool) (fuel : ℕ) (st : σ) :
    Option (Mem × σ) :=
  listForEachSafeLoop list body fuel m (m.next list) st

/-- The body run once on each element of `s` in order: the final state, and the
    elements it did not remove, in their order. -/
def runSafe (body : σ → Node → σ × Bool) : σ → List Node → σ × List Node
  | st, [] => (st, [])
  | st, x :: s =>
    let r := runSafe body (body st x).1 s
    (r.1, if (body st x).2 then r.2 else x :: r.2)

theorem runSafe_sublist (body : σ → Node → σ × Bool) (st : σ) (s : List Node) :
    (runSafe body st s).2.Sublist s := by
  induction s generalizing st with
  | nil => exact .slnil
  | cons x s ih =>
    simp only [runSafe]
    split
    · exact (ih _).cons x
    · exact (ih _).cons₂ x

/-! ## Forwards and backwards -/

/-- The forward loop from the front of `w ++ [H]` folds the body over `w`. -/
theorem listForEachLoop_eq {m : Mem} {H : Node} {body : σ → Node → σ} {w : List Node}
    (hH : H ∉ w) (hl : Linked m (w ++ [H])) {fuel : ℕ} (st : σ) (hfuel : w.length < fuel) :
    listForEachLoop m H body fuel (w.headD H) st = some (w.foldl body st) := by
  induction w generalizing st fuel with
  | nil =>
    obtain ⟨fuel, rfl⟩ : ∃ f, fuel = f + 1 := ⟨fuel - 1, by simp at hfuel; omega⟩
    simp [listForEachLoop]
  | cons y w ih =>
    simp only [List.mem_cons, not_or] at hH
    obtain ⟨fuel, rfl⟩ : ∃ f, fuel = f + 1 := ⟨fuel - 1, by simp at hfuel; omega⟩
    rw [List.headD_cons, listForEachLoop, if_pos (Ne.symm hH.1), hl.next_eq_headD,
      ih hH.2 (List.chain'_cons'.mp hl).2 _ (by simpa using hfuel)]
    rfl

theorem listForEachReverseLoop_eq_swap (m : Mem) (list : Node) (body : σ → Node → σ) (fuel : ℕ)
    (iter : Node) (st : σ) :
    listForEachReverseLoop m list body fuel iter st = listForEachLoop m.swap list body fuel iter st := by
  induction fuel generalizing iter st with
  | zero => rfl
  | succ fuel ih => simp only [listForEachReverseLoop, listForEachLoop, ih]; rfl

theorem listForEach_eq {m : Mem} {H : Node} {s : List Node} (hH : Holds m H s) {fuel : ℕ}
    (hfuel : s.length < fuel) (body : σ → Node → σ) (st : σ) :
    listForEach m H body fuel st = some (s.foldl body st) := by
  rw [listForEach, hH.next_head]
  exact listForEachLoop_eq (List.nodup_cons.mp hH.1).1 (List.chain'_cons'.mp hH.2).2 st hfuel

theorem listForEachReverse_eq {m : Mem} {H : Node} {s : List Node} (hH : Holds m H s) {fuel : ℕ}
    (hfuel : s.length < fuel) (body : σ → Node → σ) (st : σ) :
    listForEachReverse m H body fuel st = some (s.reverse.foldl body st) := by
  rw [listForEachReverse, listForEachReverseLoop_eq_swap]
  exact listForEach_eq hH.swap (by simpa using hfuel) body st

/-! ## Iterating from a node off its ring -/

/-- The forward loop walking a ring that does not pass through `list` never
    ends: every fuel runs out. -/
theorem listForEachLoop_off_ring {m : Mem} {H list : Node} {s : List Node} (hH : Holds m H s)
    (hl : list ∉ H :: s) (body : σ → Node → σ) :
    ∀ (fuel : ℕ) {iter : Node} (st : σ), iter ∈ H :: s → listForEachLoop m list body fuel iter st = none
  | 0, _, _, _ => rfl
  | fuel + 1, iter, st, hi => by
    rw [listForEachLoop, if_pos fun e : iter = list => hl (e ▸ hi)]
    exact listForEachLoop_off_ring hH hl body fuel _ (hH.next_mem hi)

/-- The loop of `list_t_size` is the loop of `LIST_FOR_EACH` with a body that
    counts. -/
theorem listTSizeLoop_eq_listForEachLoop (m : Mem) (list : Node) :
    ∀ (fuel : ℕ) (e : Node) (cnt : ℕ),
      listTSizeLoop m list fuel e cnt = listForEachLoop m list (fun c _ => c + 1) fuel e cnt
  | 0, _, _ => rfl
  | fuel + 1, e, cnt => by
    simp only [listTSizeLoop, listForEachLoop, listTSizeLoop_eq_listForEachLoop m list fuel]

/-- `LIST_FOR_EACH`, `LIST_FOR_EACH_REVERSE` and `list_t_size` from a node that
    `list_t_remove` took off its list never end: the node still points into its
    old list, which no longer passes through it. -/
theorem listForEach_removed {m : Mem} {A x : Node} {u v : List Node} (hA : Holds m A (u ++ x :: v))
    (body : σ → Node → σ) (fuel : ℕ) (st : σ) :
    listForEach (listTRemove m x).1 x body fuel st = none ∧
      listForEachReverse (listTRemove m x).1 x body fuel st = none ∧
      listTSize (listTRemove m x).1 x fuel = none := by
  have hA' := (holds_listTRemove hA).1
  have hx : x ∉ A :: (u ++ v) := (List.nodup_cons.mp
    (((List.perm_middle.cons A).trans (.swap x A _)).nodup_iff.mp hA.1)).1
  have hn : (listTRemove m x).1.next x ∈ A :: (u ++ v) := by
    rw [listTRemove_eq_unlinkChain, unlinkChain_next, ite_self, hA.next_elem]
    cases v <;> simp
  have hp : (listTRemove m x).1.prev x ∈ A :: (u ++ v) := by
    have hs : Holds m.swap A (v.reverse ++ x :: u.reverse) := by simpa using hA.swap
    rw [listTRemove_eq_unlinkChain, unlinkChain_prev, ite_self, show m.prev x = m.swap.next x from rfl,
      hs.next_elem]
    rcases u.eq_nil_or_concat with rfl | ⟨u, b, rfl⟩ <;> simp
  refine ⟨listForEachLoop_off_ring hA' hx body fuel st hn, ?_,
    by rw [listTSize, listTSizeLoop_eq_listForEachLoop]; exact listForEachLoop_off_ring hA' hx _ fuel 0 hn⟩
  rw [listForEachReverse, listForEachReverseLoop_eq_swap]
  have hrev := (List.reverse_perm (u ++ v)).cons A
  exact listForEachLoop_off_ring hA'.swap (fun h => hx (hrev.mem_iff.mp h)) body fuel st
    (hrev.mem_iff.mpr hp)

theorem listForEach_removed_one :
    Holds (listTPushBack (listTPushBack (listTInit ⟨id, id⟩ 0) 0 1) 0 2) 0 ([] ++ 1 :: [2]) ∧
      listForEach (listTRemove (listTPushBack (listTPushBack (listTInit ⟨id, id⟩ 0) 0 1) 0 2) 1).1 1
          (fun (n : ℕ) _ => n + 1) 100 0 = none ∧
      listForEachReverse (listTRemove (listTPushBack (listTPushBack (listTInit ⟨id, id⟩ 0) 0 1) 0 2) 1).1
          1 (fun (n : ℕ) _ => n + 1) 100 0 = none ∧
      listTSize (listTRemove (listTPushBack (listTPushBack (listTInit ⟨id, id⟩ 0) 0 1) 0 2) 1).1 1 100 =
        none :=
  ⟨by decide, @listForEach_removed ℕ _ 0 1 [] [2] (by decide) _ _ _⟩

/-! ## Removing while iterating -/

/-- The safe loop at the front of the rest `rest` of a list whose elements
    before it are `kept`: it runs the body on `rest` in order and leaves the list
    holding `kept` and the elements of `rest` the body did not remove. It writes
    no node off the list. -/
theorem listForEachSafeLoop_eq {body : σ → Node → σ × Bool} {H : Node} :
    ∀ {rest : List Node} (kept : List Node) (m : Mem) (st : σ) {fuel : ℕ},
      Holds m H (kept ++ rest) → rest.length < fuel →
      ∃ m', listForEachSafeLoop H body fuel m (rest.headD H) st = some (m', (runSafe body st rest).1) ∧
        Holds m' H (kept ++ (runSafe body st rest).2) ∧
        ∀ y ∉ H :: (kept ++ rest), m'.next y = m.next y ∧ m'.prev y = m.prev y
  | _, _, _, _, 0, _, hfuel => absurd hfuel (Nat.not_lt_zero _)
  | [], kept, m, st, fuel + 1, h, _ =>
    ⟨m, by simp [listForEachSafeLoop, runSafe], by simpa [runSafe] using h, fun _ _ => ⟨rfl, rfl⟩⟩
  | x :: rest, kept, m, st, fuel + 1, h, hfuel => by
    have hx : x ≠ H := fun e => (List.nodup_cons.mp h.1).1 (e ▸ by simp)
    have hfuel' : rest.length < fuel := by simpa using hfuel
    rw [List.headD_cons, listForEachSafeLoop, if_pos hx]
    simp only [h.next_elem, runSafe]
    cases hrm : (body st x).2
    · obtain ⟨m', h₁, h₂, h₃⟩ := listForEachSafeLoop_eq (kept ++ [x]) m _ (by simpa using h) hfuel'
      exact ⟨m', by simpa using h₁, by simpa using h₂, fun y hy => h₃ y (by simpa using hy)⟩
    · obtain ⟨m', h₁, h₂, h₃⟩ := listForEachSafeLoop_eq kept _ _ (holds_listTRemove h).1 hfuel'
      refine ⟨m', h₁, h₂, fun y hy => ?_⟩
      have hr := @listTRemove_frame m x y (fun e => hy (e ▸ h.prev_mem (by simp)))
        (fun e => hy (e ▸ h.next_mem (by simp)))
      have hy' := h₃ y fun h' => hy (by simpa using ((sublist_unlinked kept [x] rest).cons₂ H).subset h')
      exact ⟨hy'.1.trans hr.1, hy'.2.trans hr.2⟩

/-- On a list `H` holding `s = [e₁, …, e_k]`, each of the three loops ends after
    `k + 1` tests of its condition. `LIST_FOR_EACH` runs the body on `e₁, …, e_k`
    in order and `LIST_FOR_EACH_REVERSE` on `e_k, …, e₁`. `LIST_FOR_EACH_SAFE`
    runs the body once on each of `e₁, …, e_k` in order, whether or not the body
    removes its element; afterwards `H` holds the elements the body did not
    remove, in their original order. -/
theorem listForEach_runs {m : Mem} {H : Node} {s : List Node} (hH : Holds m H s) {fuel : ℕ}
    (hfuel : s.length < fuel) :
    (∀ (σ : Type) (body : σ → Node → σ) (st : σ),
      listForEach m H body fuel st = some (s.foldl body st)) ∧
    (∀ (σ : Type) (body : σ → Node → σ) (st : σ),
      listForEachReverse m H body fuel st = some (s.reverse.foldl body st)) ∧
    ∀ (σ : Type) (body : σ → Node → σ × Bool) (st : σ), ∃ m',
      listForEachSafe m H body fuel st = some (m', (runSafe body st s).1) ∧
        Holds m' H (runSafe body st s).2 ∧ (runSafe body st s).2.Sublist s := by
  refine ⟨fun _ => listForEach_eq hH hfuel, fun _ => listForEachReverse_eq hH hfuel,
    fun _ body st => ?_⟩
  obtain ⟨m', h₁, h₂, -⟩ := @listForEachSafeLoop_eq _ body H s [] m st fuel (by simpa using hH) hfuel
  exact ⟨m', by rwa [listForEachSafe, hH.next_head], by simpa using h₂, runSafe_sublist body st s⟩

theorem listForEach_runs_two :
    Holds (listTPushBack (listTPushBack (listTInit ⟨id, id⟩ 0) 0 1) 0 2) 0 [1, 2] ∧
      [1, 2].length < 3 ∧
      ((∀ (σ : Type) (body : σ → Node → σ) (st : σ),
        listForEach (listTPushBack (listTPushBack (listTInit ⟨id, id⟩ 0) 0 1) 0 2) 0 body 3 st =
          some ([1, 2].foldl body st)) ∧
      (∀ (σ : Type) (body : σ → Node → σ) (st : σ),
        listForEachReverse (listTPushBack (listTPushBack (listTInit ⟨id, id⟩ 0) 0 1) 0 2) 0 body 3
          st = some ([1, 2].reverse.foldl body st)) ∧
      ∀ (σ : Type) (body : σ → Node → σ × Bool) (st : σ), ∃ m',
        listForEachSafe (listTPushBack (listTPushBack (listTInit ⟨id, id⟩ 0) 0 1) 0 2) 0 body 3 st =
            some (m', (runSafe body st [1, 2]).1) ∧
          Holds m' 0 (runSafe body st [1, 2]).2 ∧ (runSafe body st [1, 2]).2.Sublist [1, 2]) :=
  ⟨by decide, by decide, listForEach_runs (by decide) (by decide)⟩

end Of12Softswitch.Lib
