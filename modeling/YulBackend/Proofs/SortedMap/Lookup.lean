import YulBackend.SortedMap

namespace YulBackend.SortedMap

variable {κ ν : Type} [Ord κ]

private theorem ne_of_compare_lt [Std.ReflOrd κ] {a b : κ} (h : compare a b = .lt) : a ≠ b := by
  rintro rfl
  rw [Std.ReflOrd.compare_self] at h
  cases h

theorem nodup_keys [Std.ReflOrd κ] (m : SortedMap κ ν) : m.keys.Nodup :=
  List.pairwise_map.2 (m.sorted.imp ne_of_compare_lt)

theorem nodup_entries [Std.ReflOrd κ] (m : SortedMap κ ν) : m.entries.Nodup :=
  m.sorted.imp fun hlt heq => ne_of_compare_lt hlt (congrArg Prod.fst heq)

/-- Erasing the first key leaves the other entries. -/
theorem entries_erase_of_eq_cons [Std.ReflOrd κ] {m : SortedMap κ ν} {k : κ} {v : ν} {rest : List (κ × ν)}
    (h : m.entries = (k, v) :: rest) : (m.erase k).entries = rest := by
  have hsorted := m.sorted
  rw [h, List.pairwise_cons] at hsorted
  change m.entries.filter (fun e => compare k e.1 != .eq) = rest
  rw [h, List.filter_cons_of_neg (by simp [Std.ReflOrd.compare_self]), List.filter_eq_self]
  intro e he
  rw [hsorted.1 e he]
  rfl

/-- A value that `lookup?` finds stands in the list under its key. -/
theorem mem_of_lookup?_eq_some [Std.LawfulEqOrd κ] {k : κ} {v : ν} {l : List (κ × ν)}
    (h : lookup? k l = some v) : (k, v) ∈ l := by
  induction l with
  | nil => cases h
  | cons head tail ih =>
    obtain ⟨k', v'⟩ := head
    rw [lookup?] at h
    split at h
    next heq =>
      cases h
      rw [Std.LawfulEqOrd.eq_of_compare heq]
      exact List.mem_cons_self
    · exact List.mem_cons_of_mem _ (ih h)

theorem lookup?_eq_none_of_forall_ne {k : κ} {l : List (κ × ν)}
    (h : ∀ e ∈ l, compare k e.1 ≠ .eq) : lookup? k l = none := by
  induction l with
  | nil => rfl
  | cons head tail ih =>
    rw [lookup?, if_neg (h head List.mem_cons_self)]
    exact ih fun e he => h e (List.mem_cons_of_mem _ he)

/-- In a list with increasing keys `lookup?` finds every entry. -/
theorem lookup?_eq_some_of_mem [Std.LawfulEqOrd κ] [Std.TransOrd κ] {k : κ} {v : ν}
    {l : List (κ × ν)} (hsorted : l.Pairwise fun a b => compare a.1 b.1 = .lt) (h : (k, v) ∈ l) :
    lookup? k l = some v := by
  induction l with
  | nil => cases h
  | cons head tail ih =>
    obtain ⟨k', v'⟩ := head
    obtain ⟨hhead, htail⟩ := List.pairwise_cons.1 hsorted
    rcases List.mem_cons.1 h with heq | h
    · cases heq
      rw [lookup?, if_pos Std.ReflCmp.compare_self]
    · have hne : compare k k' ≠ .eq := fun heq =>
        ne_of_compare_lt (hhead _ h) (Std.LawfulEqOrd.eq_of_compare heq).symm
      rw [lookup?, if_neg hne]
      exact ih htail h

/-- Filtering the entries of a list with increasing keys filters what `lookup?` finds. -/
theorem lookup?_filter {keep : κ → ν → Bool} {l : List (κ × ν)} [Std.LawfulEqOrd κ] [Std.TransOrd κ]
    (hsorted : l.Pairwise fun a b => compare a.1 b.1 = .lt) (k : κ) :
    lookup? k (l.filter fun e => keep e.1 e.2) = (lookup? k l).filter (keep k) := by
  induction l with
  | nil => rfl
  | cons head tail ih =>
    obtain ⟨k', v⟩ := head
    obtain ⟨hhead, htail⟩ := List.pairwise_cons.1 hsorted
    by_cases hk : compare k k' = .eq
    · have heq : k = k' := Std.LawfulEqOrd.eq_of_compare hk
      subst heq
      have hnone : lookup? k (tail.filter fun e => keep e.1 e.2) = none := by
        refine lookup?_eq_none_of_forall_ne fun e he => ?_
        rw [hhead e (List.mem_filter.1 he).1]
        decide
      rw [List.filter_cons, lookup?, if_pos hk]
      by_cases hkeep : keep k v
      · rw [if_pos hkeep, lookup?, if_pos hk, Option.filter_some, if_pos hkeep]
      · rw [if_neg hkeep, hnone, Option.filter_some, if_neg hkeep]
    · by_cases hkeep : keep k' v
      · simp [hkeep, lookup?, hk, ih htail]
      · simp [hkeep, lookup?, hk, ih htail]

section

variable [Std.LawfulEqOrd κ] [Std.TransOrd κ]

/-- Behind `alterEntries`, the key has the updated value and every other key what it had. -/
theorem lookup?_alterEntries {l : List (κ × ν)} (hsorted : l.Pairwise fun a b => compare a.1 b.1 = .lt)
    (k : κ) (update : Option ν → ν) (k' : κ) :
    lookup? k' (alterEntries k update l) =
      if compare k' k = .eq then some (update (lookup? k l)) else lookup? k' l := by
  induction l with
  | nil => rfl
  | cons head tail ih =>
    obtain ⟨key, v⟩ := head
    obtain ⟨hhead, htail⟩ := List.pairwise_cons.1 hsorted
    rw [alterEntries]
    split
    next hlt =>
      have hnone : lookup? k ((key, v) :: tail) = none := by
        refine lookup?_eq_none_of_forall_ne fun e he => ?_
        rcases List.mem_cons.1 he with rfl | he
        · rw [hlt]
          decide
        · rw [Std.TransCmp.lt_trans hlt (hhead e he)]
          decide
      rw [lookup?, hnone]
    next heq =>
      have hkey : k = key := Std.LawfulEqOrd.eq_of_compare heq
      subst hkey
      rw [lookup?, lookup?, lookup?, if_pos heq]
      split <;> rfl
    next hgt =>
      have hne : compare k key ≠ .eq := by rw [hgt]; decide
      rw [lookup?, ih htail, lookup?, lookup?, if_neg hne]
      by_cases hk : compare k' key = .eq
      · have hkey : k' = key := Std.LawfulEqOrd.eq_of_compare hk
        subst hkey
        have hback : compare k' k ≠ .eq := fun h => hne (Std.OrientedCmp.eq_symm h)
        rw [if_pos hk, if_neg hback, if_pos hk]
      · rw [if_neg hk, if_neg hk]

theorem mem_entries_iff (m : SortedMap κ ν) {k : κ} {v : ν} :
    (k, v) ∈ m.entries ↔ m.get? k = some v :=
  ⟨lookup?_eq_some_of_mem m.sorted, mem_of_lookup?_eq_some⟩

theorem mem_values_iff (m : SortedMap κ ν) {v : ν} : v ∈ m.values ↔ ∃ k, m.get? k = some v := by
  simp only [values, List.mem_map, Prod.exists, exists_eq_right, mem_entries_iff]

theorem mem_keys_iff (m : SortedMap κ ν) {k : κ} : k ∈ m.keys ↔ m.contains k := by
  simp only [keys, List.mem_map, Prod.exists, exists_and_right, exists_eq_right, mem_entries_iff,
    contains, Option.isSome_iff_exists]

/-- A map is empty if and only if `get?` finds nothing under any key. -/
theorem isEmpty_iff (m : SortedMap κ ν) : m.isEmpty ↔ ∀ k, m.get? k = none := by
  rw [isEmpty, List.isEmpty_iff, List.eq_nil_iff_forall_not_mem]
  refine ⟨fun h k => Option.eq_none_iff_forall_ne_some.2 fun v hv => ?_, fun h e he => ?_⟩
  · exact h (k, v) (m.mem_entries_iff.2 hv)
  · have hsome : m.get? e.1 = some e.2 := m.mem_entries_iff.1 he
    rw [h e.1] at hsome
    cases hsome

/-- Maps with the same look-ups are the same. -/
theorem ext_get? {a b : SortedMap κ ν} (h : ∀ k, a.get? k = b.get? k) : a = b := by
  have hperm : a.entries.Perm b.entries := by
    refine (List.perm_ext_iff_of_nodup a.nodup_entries b.nodup_entries).2 fun e => ?_
    rw [a.mem_entries_iff, b.mem_entries_iff, h]
  refine ext_entries (hperm.eq_of_pairwise (fun e e' _ _ hlt hgt => ?_) a.sorted b.sorted)
  rw [Std.OrientedCmp.gt_of_lt hlt] at hgt
  cases hgt

theorem get?_filter (m : SortedMap κ ν) (keep : κ → ν → Bool) (k : κ) :
    (m.filter keep).get? k = (m.get? k).filter (keep k) :=
  lookup?_filter m.sorted k

variable [DecidableEq κ]

/-- `alter` updates the value of its key and touches no other key. -/
theorem get?_alter (m : SortedMap κ ν) (k : κ) (update : Option ν → ν) (k' : κ) :
    (m.alter k update).get? k' = if k' = k then some (update (m.get? k)) else m.get? k' := by
  rw [get?, alter, lookup?_alterEntries m.sorted]
  simp only [Std.LawfulEqOrd.compare_eq_iff_eq]
  rfl

theorem contains_alter (m : SortedMap κ ν) (k : κ) (update : Option ν → ν) (k' : κ) :
    (m.alter k update).contains k' = (k' = k || m.contains k') := by
  rw [contains, get?_alter]
  by_cases hk : k' = k
  · simp [hk]
  · simp [hk, contains]

@[simp]
theorem get?_insert (m : SortedMap κ ν) (k : κ) (v : ν) (k' : κ) :
    (m.insert k v).get? k' = if k' = k then some v else m.get? k' :=
  get?_alter m k _ k'

@[simp]
theorem get?_insertIfNew (m : SortedMap κ ν) (k : κ) (v : ν) (k' : κ) :
    (m.insertIfNew k v).get? k' = if k' = k then some ((m.get? k).getD v) else m.get? k' :=
  get?_alter m k _ k'

/-- Where the key has a value, `insertIfNew` changes nothing. -/
theorem insertIfNew_of_contains {m : SortedMap κ ν} {k : κ} (h : m.contains k) (v : ν) :
    m.insertIfNew k v = m := by
  obtain ⟨old, hold⟩ := Option.isSome_iff_exists.1 h
  refine ext_get? fun k' => ?_
  rw [get?_insertIfNew]
  split
  next hk => rw [hk, hold, Option.getD_some]
  next => rfl

theorem insertIfNew_of_not_contains {m : SortedMap κ ν} {k : κ} (h : ¬ m.contains k) (v : ν) :
    m.insertIfNew k v = m.insert k v := by
  have hnone : m.get? k = none := Option.not_isSome_iff_eq_none.1 h
  refine ext_get? fun k' => ?_
  rw [get?_insertIfNew, get?_insert, hnone, Option.getD_none]

/-- Inserting the entries of a map into the empty one gives the map. -/
theorem foldl_insertIfNew_entries (m : SortedMap κ ν) :
    m.entries.foldl (fun m e => m.insertIfNew e.1 e.2) empty = m := by
  have hget : ∀ (entries : List (κ × ν)) (m : SortedMap κ ν) (k : κ),
      (entries.foldl (fun m e => m.insertIfNew e.1 e.2) m).get? k = (m.get? k).or (lookup? k entries) := by
    intro entries m k
    induction entries generalizing m with
    | nil => rw [List.foldl_nil, lookup?, Option.or_none]
    | cons head rest ih =>
      rw [List.foldl_cons, ih, get?_insertIfNew, lookup?]
      simp only [Std.LawfulEqOrd.compare_eq_iff_eq]
      by_cases hk : k = head.1
      · cases hold : m.get? head.1 <;> simp [hk, hold]
      · simp [hk]
  refine ext_get? fun k => ?_
  rw [hget, get?_empty, Option.none_or]
  rfl

@[simp]
theorem get?_erase (m : SortedMap κ ν) (k k' : κ) :
    (m.erase k).get? k' = if k' = k then none else m.get? k' := by
  rw [erase, get?_filter]
  by_cases hk : k' = k
  · subst hk
    cases m.get? k' <;> simp
  · have hne : compare k k' ≠ .eq := fun h => hk (Std.LawfulEqOrd.eq_of_compare h).symm
    cases m.get? k' <;> simp [hk, hne]

/-- Where the key has no value, `erase` changes nothing. -/
theorem erase_of_not_contains {m : SortedMap κ ν} {k : κ} (h : ¬ m.contains k) : m.erase k = m := by
  have hnone : m.get? k = none := Option.not_isSome_iff_eq_none.1 h
  refine ext_get? fun k' => ?_
  rw [get?_erase]
  split
  next hk => rw [hk, hnone]
  next => rfl

theorem mem_values_of_mem_insert {m : SortedMap κ ν} {k : κ} {v w : ν} (h : w ∈ (m.insert k v).values) :
    w = v ∨ w ∈ m.values := by
  obtain ⟨k', hk'⟩ := (mem_values_iff _).1 h
  rw [get?_insert] at hk'
  split at hk'
  · exact .inl (Option.some.inj hk').symm
  · exact .inr ((mem_values_iff _).2 ⟨k', hk'⟩)

theorem mem_values_of_mem_erase {m : SortedMap κ ν} {k : κ} {w : ν} (h : w ∈ (m.erase k).values) :
    w ∈ m.values := by
  obtain ⟨k', hk'⟩ := (mem_values_iff _).1 h
  rw [get?_erase] at hk'
  split at hk'
  · cases hk'
  · exact (mem_values_iff _).2 ⟨k', hk'⟩

end

end YulBackend.SortedMap
