namespace YulBackend

/-- Finite maps as lists of entries in increasing key order, each key once. The order is part of the type, so two maps
with the same look-ups are equal and a walk over the entries needs no sorting. -/
structure SortedMap (κ : Type) (ν : Type) [Ord κ] where
  entries : List (κ × ν)
  sorted : entries.Pairwise (fun a b => compare a.1 b.1 = .lt)

namespace SortedMap

variable {κ ν : Type} [Ord κ]

def empty : SortedMap κ ν := ⟨[], .nil⟩

instance : Inhabited (SortedMap κ ν) := ⟨empty⟩

instance : EmptyCollection (SortedMap κ ν) := ⟨empty⟩

instance [DecidableEq κ] [DecidableEq ν] : DecidableEq (SortedMap κ ν) := fun a b =>
  if h : a.entries = b.entries then
    isTrue (by cases a; cases b; subst h; rfl)
  else isFalse fun e => h (e ▸ rfl)

theorem ext_entries {a b : SortedMap κ ν} (h : a.entries = b.entries) : a = b := by
  cases a; cases b; subst h; rfl

/-- The value that an entry list holds for a key. -/
def lookup? (k : κ) : List (κ × ν) → Option ν
  | [] => none
  | (k', v) :: rest => if compare k k' = .eq then some v else lookup? k rest

def get? (m : SortedMap κ ν) (k : κ) : Option ν := lookup? k m.entries

def contains (m : SortedMap κ ν) (k : κ) : Bool := (m.get? k).isSome

def keys (m : SortedMap κ ν) : List κ := m.entries.map (·.1)

def values (m : SortedMap κ ν) : List ν := m.entries.map (·.2)

def size (m : SortedMap κ ν) : Nat := m.entries.length

def isEmpty (m : SortedMap κ ν) : Bool := m.entries.isEmpty

/-- Puts `update old` at a key, where `old` is the value there before. -/
def alterEntries (k : κ) (update : Option ν → ν) : List (κ × ν) → List (κ × ν)
  | [] => [(k, update none)]
  | (k', v) :: rest =>
    match compare k k' with
    | .lt => (k, update none) :: (k', v) :: rest
    | .eq => (k', update (some v)) :: rest
    | .gt => (k', v) :: alterEntries k update rest

/-- An entry that `alterEntries` leaves is the one at the key, or one whose key was there before. -/
theorem mem_alterEntries {k : κ} {update : Option ν → ν} {e : κ × ν} {l : List (κ × ν)}
    (h : e ∈ alterEntries k update l) : e.1 = k ∨ ∃ v, (e.1, v) ∈ l := by
  induction l with
  | nil => simp [alterEntries] at h; simp [h]
  | cons head tail ih =>
    obtain ⟨k', v⟩ := head
    unfold alterEntries at h
    split at h
    · rcases List.mem_cons.1 h with rfl | h
      · exact .inl rfl
      · exact .inr ⟨e.2, h⟩
    · rcases List.mem_cons.1 h with rfl | h
      · exact .inr ⟨v, by simp⟩
      · exact .inr ⟨e.2, by simp [h]⟩
    · rcases List.mem_cons.1 h with rfl | h
      · exact .inr ⟨v, by simp⟩
      · rcases ih h with rfl | ⟨w, hw⟩
        · exact .inl rfl
        · exact .inr ⟨w, by simp [hw]⟩

/-- The keys still increase behind `alterEntries`, wherever it puts its entry. -/
theorem pairwise_alterEntries [Std.TransOrd κ] {k : κ} {update : Option ν → ν} {l : List (κ × ν)}
    (h : l.Pairwise (fun a b => compare a.1 b.1 = .lt)) :
    (alterEntries k update l).Pairwise (fun a b => compare a.1 b.1 = .lt) := by
  induction l with
  | nil => simp [alterEntries]
  | cons head tail ih =>
    obtain ⟨k', v⟩ := head
    obtain ⟨hhead, htail⟩ := List.pairwise_cons.1 h
    unfold alterEntries
    split
    next hlt =>
      refine List.pairwise_cons.2 ⟨fun e he => ?_, h⟩
      rcases List.mem_cons.1 he with rfl | he
      · exact hlt
      · exact Std.TransCmp.lt_trans hlt (hhead e he)
    next => exact List.pairwise_cons.2 ⟨fun e he => hhead e he, htail⟩
    next hgt =>
      refine List.pairwise_cons.2 ⟨fun e he => ?_, ih htail⟩
      rcases mem_alterEntries he with hk | ⟨w, hw⟩
      · simpa [hk] using Std.OrientedCmp.lt_of_gt hgt
      · exact hhead (e.1, w) hw

section

variable [Std.TransOrd κ]

/-- Puts `update old` at a key, where `old` is the value there before. -/
def alter (m : SortedMap κ ν) (k : κ) (update : Option ν → ν) : SortedMap κ ν :=
  ⟨alterEntries k update m.entries, pairwise_alterEntries m.sorted⟩

/-- Puts a value at a key, in place of any that was there. -/
def insert (m : SortedMap κ ν) (k : κ) (v : ν) : SortedMap κ ν := m.alter k fun _ => v

/-- Puts a value at a key that has none; a key that has one keeps it. -/
def insertIfNew (m : SortedMap κ ν) (k : κ) (v : ν) : SortedMap κ ν := m.alter k (·.getD v)

/-- The map of these entries, of which a later one wins over an earlier. -/
def ofList (entries : List (κ × ν)) : SortedMap κ ν :=
  entries.foldl (fun m e => m.insert e.1 e.2) empty

end

/-- Keeps the entries that pass a test. -/
def filter (m : SortedMap κ ν) (keep : κ → ν → Bool) : SortedMap κ ν :=
  ⟨m.entries.filter (fun e => keep e.1 e.2), m.sorted.sublist List.filter_sublist⟩

def erase (m : SortedMap κ ν) (k : κ) : SortedMap κ ν :=
  m.filter fun k' _ => compare k k' != .eq

@[simp]
theorem get?_empty (k : κ) : (empty : SortedMap κ ν).get? k = none := rfl

end SortedMap

end YulBackend
