import DecafCheck.Scope
/-!
# Lemmas on scopes

How lookups, counts and sizes behave when bindings are added: `foldl_addIfFree` says what adding
a list of bindings with distinct names does, whatever their order, and `lookup_bindings` ties
the listed bindings of a scope back to its lookups.
-/

namespace DecafCheck

namespace Scope

/-- In a list with no name twice, a name looks up the value it is listed with. -/
theorem lookup_eq_some_of_mem {l : List (String × Nat)} (hl : (l.map Prod.fst).Nodup)
    {k : String} {v : Nat} (h : (k, v) ∈ l) : l.lookup k = some v := by
  induction l with
  | nil => simp at h
  | cons b rest ih =>
    obtain ⟨a, w⟩ := b
    simp only [List.map_cons, List.nodup_cons] at hl
    rcases List.mem_cons.1 h with he | hr
    · cases he
      simp
    · have hka : k ≠ a := by
        intro he
        exact hl.1 (he ▸ List.mem_map.2 ⟨(k, v), hr, rfl⟩)
      have hb : (k == a) = false := beq_eq_false_iff_ne.2 hka
      simp [List.lookup_cons, hb, ih hl.2 hr]

/-- A name looks up a value only if it is listed with it. -/
theorem mem_of_lookup_eq_some {l : List (String × Nat)} {k : String} {v : Nat}
    (h : l.lookup k = some v) : (k, v) ∈ l := by
  induction l with
  | nil => simp at h
  | cons b rest ih =>
    obtain ⟨a, w⟩ := b
    by_cases hka : k = a
    · subst hka
      simp at h
      simp [h]
    · have hb : (k == a) = false := beq_eq_false_iff_ne.2 hka
      simp [List.lookup_cons, hb] at h
      exact List.mem_cons_of_mem _ (ih h)

/-- In a list with no name twice, looking up is membership. -/
theorem lookup_eq_some_iff {l : List (String × Nat)} (hl : (l.map Prod.fst).Nodup)
    {k : String} {v : Nat} : l.lookup k = some v ↔ (k, v) ∈ l :=
  ⟨mem_of_lookup_eq_some, lookup_eq_some_of_mem hl⟩

/-- Two lists with the same bindings and no name twice look names up alike. -/
theorem lookup_eq_of_perm {l l' : List (String × Nat)} (hp : l.Perm l') (hl : (l.map Prod.fst).Nodup)
    (k : String) : l.lookup k = l'.lookup k := by
  have hl' : (l'.map Prod.fst).Nodup := (hp.map Prod.fst).nodup_iff.1 hl
  cases h : l.lookup k with
  | none =>
    cases h' : l'.lookup k with
    | none => rfl
    | some v =>
      have := hp.symm.mem_iff.1 (mem_of_lookup_eq_some h')
      rw [lookup_eq_some_of_mem hl this] at h
      cases h
  | some v =>
    exact (lookup_eq_some_of_mem hl' (hp.mem_iff.1 (mem_of_lookup_eq_some h))).symm

/-- Binding a name changes the lookup of that name only. -/
theorem lookup_insert (s : Scope) (a k : String) (w : Nat) :
    Scope.lookup ⟨s.table.insert a w⟩ k = if k = a then some w else s.lookup k := by
  simp only [lookup, Std.TreeMap.getElem?_insert]
  by_cases h : k = a
  · subst h
    simp
  · have hc : compare a k ≠ .eq := fun he => h (Std.compare_eq_iff_eq.1 he).symm
    simp [hc, h]

/-- A name is in the table exactly when it looks something up. -/
theorem contains_eq_isSome_lookup (s : Scope) (a : String) :
    s.table.contains a = (s.lookup a).isSome :=
  Std.TreeMap.contains_eq_isSome_getElem?

/-- Binding a free name adds one binding. -/
theorem size_insert_of_lookup_eq_none {s : Scope} {a : String} (w : Nat) (h : s.lookup a = none) :
    Scope.size ⟨s.table.insert a w⟩ = s.size + 1 := by
  have hc : s.table.contains a = false := by rw [contains_eq_isSome_lookup, h]; rfl
  simp only [size, Std.TreeMap.size_insert, hc]
  rfl

/-- A list looks a name up past a head of another name. -/
theorem lookup_cons_of_ne {a k : String} {w : Nat} {rest : List (String × Nat)} (h : k ≠ a) :
    ((a, w) :: rest).lookup k = rest.lookup k := by
  have hb : (k == a) = false := beq_eq_false_iff_ne.2 h
  rw [List.lookup_cons, hb]

/-- Folding `addIfFree` over bindings with distinct names: a name keeps its binding if it had one
and otherwise takes the list's; the count grows by the number of list names that were free, and so
does the size. -/
theorem foldl_addIfFree {l : List (String × Nat)} (hl : (l.map Prod.fst).Nodup) (s : Scope)
    (c : Nat) :
    (∀ k, (l.foldl addIfFree (s, c)).1.lookup k = (s.lookup k).or (l.lookup k)) ∧
    (l.foldl addIfFree (s, c)).2 = c + l.countP (fun b => (s.lookup b.1).isNone) ∧
    (l.foldl addIfFree (s, c)).1.size = s.size + l.countP (fun b => (s.lookup b.1).isNone) := by
  induction l generalizing s c with
  | nil => simp
  | cons b rest ih =>
    obtain ⟨a, w⟩ := b
    simp only [List.map_cons, List.nodup_cons] at hl
    have fresh : ∀ b ∈ rest, b.1 ≠ a := fun b hb he => hl.1 (he ▸ List.mem_map.2 ⟨b, hb, rfl⟩)
    rw [List.foldl_cons, List.countP_cons]
    cases ha : s.lookup a with
    | some v =>
      have hc : s.table.contains a = true := by simp [contains_eq_isSome_lookup, ha]
      have step : addIfFree (s, c) (a, w) = (s, c) := by simp [addIfFree, hc]
      obtain ⟨h1, h2, h3⟩ := ih hl.2 s c
      refine ⟨fun k => ?_, ?_, ?_⟩
      · rw [step, h1 k]
        by_cases hka : k = a
        · subst hka
          simp [ha]
        · rw [lookup_cons_of_ne hka]
      · simp [step, h2]
      · simp [step, h3]
    | none =>
      have hc : s.table.contains a = false := by simp [contains_eq_isSome_lookup, ha]
      have step : addIfFree (s, c) (a, w) = (⟨s.table.insert a w⟩, c + 1) := by
        simp [addIfFree, hc]
      obtain ⟨h1, h2, h3⟩ := ih hl.2 ⟨s.table.insert a w⟩ (c + 1)
      have same : rest.countP (fun b => (Scope.lookup ⟨s.table.insert a w⟩ b.1).isNone) =
          rest.countP (fun b => (s.lookup b.1).isNone) := by
        apply List.countP_congr
        intro b hb
        simp [lookup_insert, fresh b hb]
      refine ⟨fun k => ?_, ?_, ?_⟩
      · rw [step, h1 k, lookup_insert]
        by_cases hka : k = a
        · subst hka
          simp [ha]
        · simp [hka, lookup_cons_of_ne hka]
      · rw [step, h2, same]
        simp
        omega
      · rw [step, h3, same, size_insert_of_lookup_eq_none w ha]
        simp
        omega

/-- A scope lists no name twice. -/
theorem nodup_names_bindings (o : Scope) : (o.bindings.map Prod.fst).Nodup := by
  rw [bindings, Std.TreeMap.map_fst_toList_eq_keys]
  exact Std.TreeMap.nodup_keys

/-- Looking a name up in the listed bindings is looking it up in the scope. -/
theorem lookup_bindings (o : Scope) (k : String) : o.bindings.lookup k = o.lookup k := by
  cases h : o.lookup k with
  | some v =>
    exact lookup_eq_some_of_mem (nodup_names_bindings o)
      (Std.TreeMap.mem_toList_iff_getElem?_eq_some.2 h)
  | none =>
    cases hl : o.bindings.lookup k with
    | none => rfl
    | some v =>
      have := Std.TreeMap.mem_toList_iff_getElem?_eq_some.1 (mem_of_lookup_eq_some hl)
      simp [lookup] at h
      simp [h] at this

end Scope

end DecafCheck
