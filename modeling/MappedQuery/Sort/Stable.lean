/-!
# Stable sorting

`stableSort` puts one item after the other into a sorted list, behind all items that do not come
after it, so equal items stay as they came.
-/
namespace MappedQuery

/-- Puts an item into a list that is sorted backwards, before all items that do not come after
it. -/
def insertBackwards (cmp : α → α → Ordering) (a : α) : List α → List α
  | [] => [a]
  | b :: rest => if (cmp a b).isLT then b :: insertBackwards cmp a rest else a :: b :: rest

/-- The items in order, equal ones as they came. -/
def stableSort (cmp : α → α → Ordering) (items : List α) : List α :=
  (items.foldl (fun sorted a => insertBackwards cmp a sorted) []).reverse

theorem perm_insertBackwards (cmp : α → α → Ordering) (a : α) (sorted : List α) :
    (insertBackwards cmp a sorted).Perm (a :: sorted) := by
  induction sorted with
  | nil => exact .refl _
  | cons b rest ih =>
    unfold insertBackwards
    split
    · exact (ih.cons b).trans (.swap a b rest)
    · exact .refl _

theorem perm_stableSort (cmp : α → α → Ordering) (items : List α) :
    (stableSort cmp items).Perm items := by
  suffices key : ∀ (items sorted : List α),
      (items.foldl (fun sorted a => insertBackwards cmp a sorted) sorted).Perm
        (items ++ sorted) by
    simpa [stableSort] using (List.reverse_perm _).trans (key items [])
  intro items
  induction items with
  | nil => intro sorted; exact .refl _
  | cons a items ih =>
    intro sorted
    exact (ih _).trans (((perm_insertBackwards cmp a sorted).append_left items).trans
      List.perm_middle)

end MappedQuery
