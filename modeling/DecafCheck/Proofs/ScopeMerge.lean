import DecafCheck.Scope.Lemmas
/-!
# Merging scopes

Merging a scope into another keeps every binding the target has and adds the other scope's
bindings for the names it leaves free; it counts what it adds, the size grows by that count, and
adding the bindings in any other order gives the same scope and count.
-/

namespace DecafCheck

namespace Scope

/-- A merged scope binds a name as the target does, or else as the other scope does. -/
theorem lookup_merge (s o : Scope) (k : String) :
    (s.merge o).1.lookup k = (s.lookup k).or (o.lookup k) := by
  rw [merge, mergeList, (foldl_addIfFree (nodup_names_bindings o) s 0).1 k, lookup_bindings]

/-- Merging is a union that keeps the target's binding on a clash and counts what it adds, in any
order of the added bindings. -/
theorem merge_left_union_counted (s o : Scope) :
    (∀ k, (s.merge o).1.lookup k = (s.lookup k).or (o.lookup k)) ∧
    (s.merge o).2 = o.bindings.countP (fun b => (s.lookup b.1).isNone) ∧
    (s.merge o).1.size = s.size + (s.merge o).2 ∧
    ∀ l, l.Perm o.bindings →
      (∀ k, (s.mergeList l).1.lookup k = (s.merge o).1.lookup k) ∧
      (s.mergeList l).2 = (s.merge o).2 ∧
      (s.mergeList l).1.size = (s.merge o).1.size := by
  have nodup := nodup_names_bindings o
  obtain ⟨h1, h2, h3⟩ := foldl_addIfFree nodup s 0
  have hl : ∀ l : List (String × Nat), l.Perm o.bindings → (l.map Prod.fst).Nodup :=
    fun l hp => (hp.map Prod.fst).nodup_iff.2 nodup
  refine ⟨fun k => ?_, ?_, ?_, fun l hp => ?_⟩
  · exact lookup_merge s o k
  · rw [merge, mergeList, h2, Nat.zero_add]
  · rw [merge, mergeList, h3, h2, Nat.zero_add]
  · obtain ⟨g1, g2, g3⟩ := foldl_addIfFree (hl l hp) s 0
    refine ⟨fun k => ?_, ?_, ?_⟩
    · rw [mergeList, g1 k, merge, mergeList, h1 k, lookup_eq_of_perm hp (hl l hp) k]
    · rw [mergeList, g2, merge, mergeList, h2, hp.countP_eq]
    · rw [mergeList, g3, merge, mergeList, h3, hp.countP_eq]

end Scope

end DecafCheck
