import LiveIndex.Matching.Finder
import Mathlib.Order.Basic
import Mathlib.Algebra.Order.Ring.Rat

/-! The order of results. It is settled in full: results with the same score and relative paths of
the same length stand as their entries do. -/

namespace LiveIndex.Matching

variable {a b : Hit} {hits : List Hit} {order : List Entry}

/-- A result without the places where it was found. -/
def Hit.bare (h : Hit) : Hit :=
  { h with found := none }

/-- Ranking does not look at the places. -/
theorem map_bare_ranked (hits : List Hit) :
    (ranked hits).map Hit.bare = ranked (hits.map Hit.bare) :=
  List.map_mergeSort fun _ _ _ _ => rfl

section Limits

variable {α β : Type} {xs : List α} {limit : Int}

theorem takeLimit_map (f : α → β) (limit : Int) (xs : List α) :
    takeLimit limit (xs.map f) = (takeLimit limit xs).map f := by
  rw [takeLimit, takeLimit, List.length_map, ← List.map_take, ← List.map_take]
  split <;> rfl

theorem takeLimit_of_neg (h : limit < 0) :
    takeLimit limit xs = xs.take (xs.length - limit.natAbs) := by
  rw [takeLimit, if_neg (by omega)]

/-- What is left are the first ones exactly if the limit is not negative, or if it leaves none. -/
theorem takeLimit_eq_take_iff :
    takeLimit limit xs = xs.take limit.toNat ↔ 0 ≤ limit ∨ xs.length ≤ limit.natAbs := by
  rcases lt_or_ge limit 0 with hnegative | hpositive
  · have hnone : limit.toNat = 0 := by omega
    rw [takeLimit_of_neg hnegative, hnone, List.take_zero, List.take_eq_nil_iff,
      List.eq_nil_iff_length_eq_zero]
    omega
  · rw [takeLimit, if_pos hpositive]
    exact iff_of_true rfl (.inl hpositive)

theorem takeLimit_of_length_le (h : (xs.length : Int) ≤ limit) : takeLimit limit xs = xs := by
  rw [takeLimit, if_pos (by omega), List.take_of_length_le (by omega)]

theorem Finder.search_eq_takeLimit (f : Finder) (query : String) (limit : Int) :
    f.search query (some limit) = takeLimit limit (f.search query none) := by
  rw [search, search]
  dsimp only
  split
  · rw [takeLimit, List.take_nil, List.take_nil, ite_self]
  · rfl

end Limits

end LiveIndex.Matching
