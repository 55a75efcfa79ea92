import YulBackend.Codegen.DispatchTable
import YulBackend.Proofs.SortedMap.Lookup

namespace YulBackend

namespace FunctionSet

theorem add_of_contains {s : FunctionSet} {f : Function} (h : s.contains f.id) : s.add f = s :=
  SortedMap.insertIfNew_of_contains h f

end FunctionSet

namespace DispatchMap

/-- Filing a function changes the entry of its arity only. -/
theorem get?_file (m : DispatchMap) (f : Function) (a : Arity) :
    (m.file f).get? a =
      if a = f.arity then some (((m.get? a).getD .empty).add f) else m.get? a := by
  rw [file, SortedMap.get?_alter]
  split
  next ha => rw [ha]
  next => rfl

theorem contains_file (m : DispatchMap) (f : Function) (a : Arity) :
    (m.file f).contains a = (a = f.arity || m.contains a) :=
  SortedMap.contains_alter m f.arity _ a

/-- Filing functions touches an arity only if one of them has it. -/
theorem get?_foldl_file (functions : List Function) (m : DispatchMap) (a : Arity) :
    (functions.foldl file m).get? a =
      if functions.any (·.arity = a) then
        some ((functions.filter (·.arity = a)).foldl FunctionSet.add ((m.get? a).getD .empty))
      else m.get? a := by
  induction functions generalizing m with
  | nil => rfl
  | cons f rest ih =>
    rw [List.foldl_cons, ih, get?_file]
    by_cases hf : f.arity = a
    · by_cases hrest : rest.any (·.arity = a)
      · simp [hf, hrest]
      · have hnone : rest.filter (·.arity = a) = [] := by simpa using hrest
        simp [hf, hnone]
    · simp [hf, Ne.symm hf]

end DispatchMap

namespace DispatchTable

/-- An arity with candidates has no members yet. A new call through a pointer breaks the partition of the
arities, but it never gives an arity members. -/
def Consistent (t : DispatchTable) : Prop :=
  ∀ a members, t.dispatch.get? a = some members → t.candidates.contains a → members.isEmpty

/-- No arity is in both maps. -/
def Partitioned (t : DispatchTable) : Prop :=
  ∀ a, t.dispatch.contains a → t.candidates.contains a = false

theorem Partitioned.consistent {t : DispatchTable} (h : t.Partitioned) : t.Consistent := by
  intro a members hmembers hcandidates
  have hcontains : t.dispatch.contains a := by rw [SortedMap.contains, hmembers, Option.isSome_some]
  rw [h a hcontains] at hcandidates
  cases hcandidates

/-- The table in which an arity's candidates are its members. -/
def takeCandidates (t : DispatchTable) (arity : Arity) : DispatchTable :=
  match t.candidates.get? arity with
  | none => t
  | some candidates =>
    { t with
      dispatch := t.dispatch.insert arity candidates
      candidates := t.candidates.erase arity }

/-- The table in which a reference is filed under its arity, in the map that has the arity. -/
def fileReference (t : DispatchTable) (f : Function) : DispatchTable :=
  if t.dispatch.contains f.arity then { t with dispatch := t.dispatch.file f }
  else { t with candidates := t.candidates.file f }

/-- The table in which the candidates of every dispatched arity have moved over, and no reference waits. -/
def taken (t : DispatchTable) : DispatchTable :=
  { t.dispatch.keys.foldl takeCandidates t with pending := .empty }

/-- The table after a promotion. -/
def promoted (t : DispatchTable) : DispatchTable := t.pending.values.foldl fileReference t.taken

section

variable (t : DispatchTable) (arity a : Arity)

/-- Taking the candidates of an arity puts them in place of its dispatcher's members. -/
theorem get?_dispatch_takeCandidates :
    (t.takeCandidates arity).dispatch.get? a =
      if a = arity then (t.candidates.get? a).or (t.dispatch.get? a) else t.dispatch.get? a := by
  rw [takeCandidates]
  split
  next hnone =>
    split
    next ha => rw [ha, hnone, Option.none_or]
    next => rfl
  next candidates hsome =>
    rw [SortedMap.get?_insert]
    split
    next ha => rw [ha, hsome, Option.some_or]
    next => rfl

/-- Taking the candidates of an arity leaves it without any. -/
theorem get?_candidates_takeCandidates :
    (t.takeCandidates arity).candidates.get? a = if a = arity then none else t.candidates.get? a := by
  rw [takeCandidates]
  split
  next hnone =>
    split
    next ha => rw [ha, hnone]
    next => rfl
  next candidates hsome => rw [SortedMap.get?_erase]

@[simp]
theorem pending_takeCandidates : (t.takeCandidates arity).pending = t.pending := by
  rw [takeCandidates]
  split <;> rfl

@[simp]
theorem phase_takeCandidates : (t.takeCandidates arity).phase = t.phase := by
  rw [takeCandidates]
  split <;> rfl

end

section

variable (arities : List Arity) (t : DispatchTable)

/-- Taking the candidates of arities leaves these without any. -/
theorem get?_candidates_foldl_takeCandidates (a : Arity) :
    (arities.foldl takeCandidates t).candidates.get? a =
      if a ∈ arities then none else t.candidates.get? a := by
  induction arities generalizing t with
  | nil => rfl
  | cons arity rest ih =>
    rw [List.foldl_cons, ih, get?_candidates_takeCandidates]
    by_cases ha : a = arity <;> simp [ha]

/-- Taking the candidates of arities puts them in place of the dispatchers' members. -/
theorem get?_dispatch_foldl_takeCandidates (a : Arity) :
    (arities.foldl takeCandidates t).dispatch.get? a =
      if a ∈ arities then (t.candidates.get? a).or (t.dispatch.get? a) else t.dispatch.get? a := by
  induction arities generalizing t with
  | nil => rfl
  | cons arity rest ih =>
    rw [List.foldl_cons, ih, get?_dispatch_takeCandidates, get?_candidates_takeCandidates]
    by_cases ha : a = arity <;> simp [ha]

@[simp]
theorem pending_foldl_takeCandidates : (arities.foldl takeCandidates t).pending = t.pending := by
  induction arities generalizing t with
  | nil => rfl
  | cons arity rest ih => rw [List.foldl_cons, ih, pending_takeCandidates]

@[simp]
theorem phase_foldl_takeCandidates : (arities.foldl takeCandidates t).phase = t.phase := by
  induction arities generalizing t with
  | nil => rfl
  | cons arity rest ih => rw [List.foldl_cons, ih, phase_takeCandidates]

end

section

variable (t : DispatchTable) (a : Arity)

/-- Behind the first stage each dispatcher has its candidates for members, if there were any. -/
theorem get?_dispatch_taken :
    t.taken.dispatch.get? a =
      (t.dispatch.get? a).map fun members => (t.candidates.get? a).getD members := by
  change (t.dispatch.keys.foldl takeCandidates t).dispatch.get? a = _
  rw [get?_dispatch_foldl_takeCandidates]
  simp only [SortedMap.mem_keys_iff, SortedMap.contains]
  cases t.dispatch.get? a with
  | none => rfl
  | some members => cases t.candidates.get? a <;> rfl

theorem contains_dispatch_taken : t.taken.dispatch.contains a = t.dispatch.contains a := by
  rw [SortedMap.contains, get?_dispatch_taken, Option.isSome_map, SortedMap.contains]

/-- Behind the first stage no arity with a dispatcher has candidates. -/
theorem get?_candidates_taken :
    t.taken.candidates.get? a = if t.dispatch.contains a then none else t.candidates.get? a := by
  change (t.dispatch.keys.foldl takeCandidates t).candidates.get? a = _
  rw [get?_candidates_foldl_takeCandidates]
  simp only [SortedMap.mem_keys_iff]

@[simp]
theorem phase_taken : t.taken.phase = t.phase := phase_foldl_takeCandidates t.dispatch.keys t

theorem partitioned_taken : t.taken.Partitioned := by
  intro a ha
  rw [contains_dispatch_taken] at ha
  rw [SortedMap.contains, get?_candidates_taken, if_pos ha, Option.isSome_none]

end

section

variable (t : DispatchTable) (f : Function)

/-- Filing a pending function adds it to the dispatcher of its arity, if there is one. -/
theorem get?_dispatch_fileReference (a : Arity) :
    (t.fileReference f).dispatch.get? a =
      (t.dispatch.get? a).map fun members => if f.arity = a then members.add f else members := by
  rw [fileReference]
  split
  next hcontains =>
    rw [DispatchMap.get?_file]
    by_cases ha : a = f.arity
    · obtain ⟨members, hmembers⟩ := Option.isSome_iff_exists.1 hcontains
      simp [ha, hmembers]
    · simp [ha, Ne.symm ha]
  next hcontains =>
    by_cases ha : a = f.arity
    · have hnone : t.dispatch.get? a = none := by
        rw [ha]
        simpa [SortedMap.contains] using hcontains
      simp [hnone]
    · simp [Ne.symm ha]

theorem contains_dispatch_fileReference (a : Arity) :
    (t.fileReference f).dispatch.contains a = t.dispatch.contains a := by
  rw [SortedMap.contains, get?_dispatch_fileReference, Option.isSome_map, SortedMap.contains]

/-- Filing a pending function makes it a candidate where its arity has no dispatcher. -/
theorem get?_candidates_fileReference (a : Arity) :
    (t.fileReference f).candidates.get? a =
      if t.dispatch.contains a then t.candidates.get? a else (t.candidates.file f).get? a := by
  rw [fileReference, DispatchMap.get?_file]
  by_cases ha : a = f.arity
  · subst ha
    by_cases hcontains : t.dispatch.contains f.arity <;> simp [hcontains, DispatchMap.get?_file]
  · by_cases hcontains : t.dispatch.contains f.arity <;>
      simp [hcontains, DispatchMap.get?_file, ha]

@[simp]
theorem pending_fileReference : (t.fileReference f).pending = t.pending := by
  rw [fileReference]
  split <;> rfl

@[simp]
theorem phase_fileReference : (t.fileReference f).phase = t.phase := by
  rw [fileReference]
  split <;> rfl

theorem Partitioned.fileReference {t : DispatchTable} (h : t.Partitioned) :
    (t.fileReference f).Partitioned := by
  intro a ha
  rw [contains_dispatch_fileReference] at ha
  rw [SortedMap.contains, get?_candidates_fileReference, if_pos ha]
  exact h a ha

end

section

variable (functions : List Function) (t : DispatchTable)

/-- Filing the pending functions adds to each dispatcher those of its arity, in order. -/
theorem get?_dispatch_foldl_fileReference (a : Arity) :
    (functions.foldl fileReference t).dispatch.get? a =
      (t.dispatch.get? a).map fun members =>
        (functions.filter (·.arity = a)).foldl FunctionSet.add members := by
  induction functions generalizing t with
  | nil => simp
  | cons f rest ih =>
    rw [List.foldl_cons, ih, get?_dispatch_fileReference, Option.map_map]
    congr 1
    funext members
    by_cases hf : f.arity = a <;> simp [hf]

/-- Filing the pending functions makes candidates of those whose arity has no dispatcher. -/
theorem get?_candidates_foldl_fileReference (a : Arity) :
    (functions.foldl fileReference t).candidates.get? a =
      if t.dispatch.contains a then t.candidates.get? a
      else (functions.foldl DispatchMap.file t.candidates).get? a := by
  induction functions generalizing t with
  | nil => simp
  | cons f rest ih =>
    rw [List.foldl_cons, ih, contains_dispatch_fileReference]
    by_cases hcontains : t.dispatch.contains a
    · rw [if_pos hcontains, if_pos hcontains, get?_candidates_fileReference, if_pos hcontains]
    · rw [if_neg hcontains, if_neg hcontains, List.foldl_cons, DispatchMap.get?_foldl_file,
        DispatchMap.get?_foldl_file, get?_candidates_fileReference, if_neg hcontains]

@[simp]
theorem pending_foldl_fileReference :
    (functions.foldl fileReference t).pending = t.pending := by
  induction functions generalizing t with
  | nil => rfl
  | cons f rest ih => rw [List.foldl_cons, ih, pending_fileReference]

@[simp]
theorem phase_foldl_fileReference : (functions.foldl fileReference t).phase = t.phase := by
  induction functions generalizing t with
  | nil => rfl
  | cons f rest ih => rw [List.foldl_cons, ih, phase_fileReference]

end

section

variable (t : DispatchTable)

/-- The members of a dispatched arity after a promotion are those before it, or else its candidates, and
the references of that arity. -/
theorem get?_dispatch_promoted (a : Arity) :
    t.promoted.dispatch.get? a =
      (t.dispatch.get? a).map fun members =>
        (t.pending.values.filter (·.arity = a)).foldl FunctionSet.add
          ((t.candidates.get? a).getD members) := by
  rw [promoted, get?_dispatch_foldl_fileReference, get?_dispatch_taken, Option.map_map]
  rfl

theorem contains_dispatch_promoted (a : Arity) :
    t.promoted.dispatch.contains a = t.dispatch.contains a := by
  rw [SortedMap.contains, get?_dispatch_promoted, Option.isSome_map, SortedMap.contains]

/-- The candidates of an arity after a promotion are those before it and the references of that arity,
unless the arity is dispatched. -/
theorem get?_candidates_promoted (a : Arity) :
    t.promoted.candidates.get? a =
      if t.dispatch.contains a then none
      else (t.pending.values.foldl DispatchMap.file t.candidates).get? a := by
  rw [promoted, get?_candidates_foldl_fileReference, contains_dispatch_taken,
    DispatchMap.get?_foldl_file, DispatchMap.get?_foldl_file, get?_candidates_taken]
  split
  next => rfl
  next => rfl

@[simp]
theorem pending_promoted : t.promoted.pending = .empty := pending_foldl_fileReference _ _

@[simp]
theorem phase_promoted : t.promoted.phase = t.phase :=
  (phase_foldl_fileReference _ _).trans t.phase_taken

theorem partitioned_promoted : t.promoted.Partitioned := by
  intro a ha
  rw [contains_dispatch_promoted] at ha
  rw [SortedMap.contains, get?_candidates_promoted, if_pos ha, Option.isSome_none]

end

/-- What steps that cannot fail give, joined. -/
def joined {α : Type} (next : DispatchTable → α → DispatchTable)
    (gains : DispatchTable → α → List Function) : DispatchTable → List α → List Function
  | _, [] => []
  | t, a :: rest => gains t a ++ joined next gains (next t a) rest

/-- What is gained along mapped items is gained along the items. -/
theorem joined_map {α β : Type} (next : DispatchTable → β → DispatchTable)
    (gains : DispatchTable → β → List Function) (f : α → β) (t : DispatchTable) (l : List α) :
    joined next gains t (l.map f) =
      joined (fun t a => next t (f a)) (fun t a => gains t (f a)) t l := by
  induction l generalizing t with
  | nil => rfl
  | cons a rest ih => rw [List.map_cons, joined, joined, ih]

/-- Steps that succeed as long as an invariant holds, and keep it, all succeed. -/
theorem runAll_eq_ok {α : Type} {step : DispatchTable → α → Except Fault (List Function × DispatchTable)}
    {next : DispatchTable → α → DispatchTable} {gains : DispatchTable → α → List Function}
    (Inv : DispatchTable → Prop) {l : List α}
    (hstep : ∀ t a, a ∈ l → Inv t → step t a = .ok (gains t a, next t a))
    (hnext : ∀ t a, a ∈ l → Inv t → Inv (next t a)) {t : DispatchTable} (hinv : Inv t) :
    runAll step t l = .ok (joined next gains t l, l.foldl next t) := by
  induction l generalizing t with
  | nil => rfl
  | cons a rest ih =>
    have htail := ih (fun t b hb => hstep t b (List.mem_cons_of_mem _ hb))
      (fun t b hb => hnext t b (List.mem_cons_of_mem _ hb)) (hnext t a List.mem_cons_self hinv)
    rw [runAll, hstep t a List.mem_cons_self hinv]
    simp only [bind, Except.bind, htail]
    rfl

/-- The functions that an arity gains when its candidates move over. -/
def gainedCandidates (t : DispatchTable) (arity : Arity) : List Function :=
  ((t.candidates.get? arity).getD .empty).values

/-- The function of a reference, if the reference makes it dispatchable. -/
def gainedReference (t : DispatchTable) (f : Function) : List Function :=
  match t.dispatch.get? f.arity with
  | none => []
  | some members => if members.contains f.id then [] else [f]

/-- The functions that a promotion makes dispatchable. -/
def gained (t : DispatchTable) : List Function :=
  joined takeCandidates gainedCandidates t t.dispatch.keys ++
    joined fileReference gainedReference t.taken t.pending.values

/-- Promoting an arity succeeds unless it has candidates while its dispatcher has members already. -/
theorem promoteArity_eq_ok {t : DispatchTable} {arity : Arity} {members : FunctionSet}
    (h : t.candidates.contains arity → members.isEmpty) :
    t.promoteArity arity members = .ok (t.gainedCandidates arity, t.takeCandidates arity) := by
  rw [promoteArity, gainedCandidates, takeCandidates]
  cases hcandidates : t.candidates.get? arity with
  | none => rfl
  | some candidates =>
    have hcontains : t.candidates.contains arity := by
      rw [SortedMap.contains, hcandidates, Option.isSome_some]
    simp [h hcontains]

/-- Promoting a pending function of partitioned tables succeeds. -/
theorem promoteReference_eq_ok {t : DispatchTable} (h : t.Partitioned) (f : Function) :
    t.promoteReference f = .ok (t.gainedReference f, t.fileReference f) := by
  rw [promoteReference, gainedReference, fileReference]
  cases hmembers : t.dispatch.get? f.arity with
  | none => simp [SortedMap.contains, hmembers]
  | some members =>
    have hcontains : t.dispatch.contains f.arity := by
      rw [SortedMap.contains, hmembers, Option.isSome_some]
    simp only [h f.arity hcontains, hcontains, Bool.false_eq_true, if_false, if_true]
    split
    next hold =>
      have hsame : t.dispatch.file f = t.dispatch := by
        refine SortedMap.ext_get? fun a => ?_
        rw [DispatchMap.get?_file]
        split
        next ha =>
          rw [ha, hmembers, Option.getD_some, FunctionSet.add_of_contains hold]
        next => rfl
      rw [hsame]
    next => rfl

/-- The partition check passes on partitioned tables. -/
theorem checkPartition_eq_ok {t : DispatchTable} (h : t.Partitioned) : t.checkPartition = .ok () := by
  have hnone : t.dispatch.keys.find? t.candidates.contains = none := by
    refine List.find?_eq_none.2 fun a ha => ?_
    rw [h a (t.dispatch.mem_keys_iff.1 ha)]
    exact Bool.false_ne_true
  rw [checkPartition, hnone]

/-- A promotion succeeds from every consistent table. -/
theorem promote_eq_ok {t : DispatchTable} (h : t.Consistent) :
    t.promote = .ok (t.gained, t.promoted) := by
  have harities : runAll (fun t e => t.promoteArity e.1 e.2) t t.dispatch.entries =
      .ok (joined takeCandidates gainedCandidates t t.dispatch.keys,
        t.dispatch.keys.foldl takeCandidates t) := by
    rw [SortedMap.keys, joined_map, List.foldl_map]
    refine runAll_eq_ok (fun t' => ∀ e ∈ t.dispatch.entries, t'.candidates.contains e.1 → e.2.isEmpty)
      (fun t' e he hcandidates => promoteArity_eq_ok (hcandidates e he))
      (fun t' e he hcandidates e' he' hcontains => hcandidates e' he' ?_)
      (fun e he => h e.1 e.2 (t.dispatch.mem_entries_iff.1 he))
    rw [SortedMap.contains, get?_candidates_takeCandidates] at hcontains
    split at hcontains
    · cases hcontains
    · exact hcontains
  have hreferences : runAll promoteReference t.taken t.pending.values =
      .ok (joined fileReference gainedReference t.taken t.pending.values, t.promoted) :=
    runAll_eq_ok Partitioned (fun _ f _ ht => promoteReference_eq_ok ht f)
      (fun _ f _ ht => ht.fileReference f) t.partitioned_taken
  rw [taken] at hreferences
  rw [promote, harities]
  simp only [bind, Except.bind, pending_foldl_takeCandidates, hreferences,
    checkPartition_eq_ok t.partitioned_promoted]
  rfl

end DispatchTable

end YulBackend
