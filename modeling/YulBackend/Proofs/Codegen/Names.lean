import Mathlib.Data.List.Nodup
import Std.Data.String.ToNat
import YulBackend.Codegen.Context

namespace YulBackend

/-- The last underscore of a text tells what stands before it and what stands behind it. -/
theorem eq_and_eq_of_append_underscore {a b x y : String} (hx : '_' ∉ x.toList) (hy : '_' ∉ y.toList)
    (h : a ++ "_" ++ x = b ++ "_" ++ y) : a = b ∧ x = y := by
  have hlist : a.toList ++ '_' :: x.toList = b.toList ++ '_' :: y.toList := by
    simpa using congrArg String.toList h
  rcases List.append_eq_append_iff.1 hlist with ⟨c, hb, hc⟩ | ⟨c, ha, hc⟩
  · cases c with
    | nil =>
      rw [List.append_nil] at hb
      exact ⟨String.toList_injective hb.symm, String.toList_injective (List.cons.inj hc).2⟩
    | cons head c =>
      -- there would be an underscore in what stands behind the last one
      rw [(List.cons.inj hc).2] at hx
      exact absurd (List.mem_append_right c List.mem_cons_self) hx
  · cases c with
    | nil =>
      rw [List.append_nil] at ha
      exact ⟨String.toList_injective ha, String.toList_injective (List.cons.inj hc).2.symm⟩
    | cons head c =>
      rw [(List.cons.inj hc).2] at hy
      exact absurd (List.mem_append_right c List.mem_cons_self) hy

theorem underscore_notMem_toString (n : Nat) : '_' ∉ (toString n).toList := by
  rw [Nat.toString_eq_repr, Nat.toList_repr]
  exact Nat.underscore_not_in_toDigits

/-- A text that is not all digits is no number. -/
theorem toString_ne_of_not_all_isDigit {word : String} (h : ¬ word.toList.all Char.isDigit) (n : Nat) :
    toString n ≠ word := by
  rintro rfl
  rw [Nat.toString_eq_repr, Nat.toList_repr, List.all_eq_true] at h
  exact h fun c hc => Nat.isDigit_of_mem_toDigits (by decide) (by decide) hc

theorem eq_and_eq_of_append_number {a b : String} {m n : Nat} (h : a ++ "_" ++ toString m = b ++ "_" ++ toString n) :
    a = b ∧ m = n := by
  obtain ⟨hab, hmn⟩ := eq_and_eq_of_append_underscore (underscore_notMem_toString m) (underscore_notMem_toString n) h
  exact ⟨hab, Nat.repr_inj.1 hmn⟩

theorem head?_toList_append {s : String} {c : Char} (h : s.toList.head? = some c) (t : String) :
    (s ++ t).toList.head? = some c := by
  rw [String.toList_append, List.head?_append, h]
  exact Option.some_or

theorem Function.id_eq_of_codeName_eq {f g : Function} (h : f.codeName = g.codeName) : f.id = g.id := by
  rw [codeName, codeName] at h
  exact (eq_and_eq_of_append_number h).2

theorem Variable.id_eq_of_getterName_eq {v w : Variable} (h : v.getterName = w.getterName) : v.id = w.id := by
  rw [getterName, getterName] at h
  exact (eq_and_eq_of_append_number h).2

theorem Variable.id_eq_of_localName_eq {v w : Variable} (h : v.localName = w.localName) : v.id = w.id := by
  rw [localName, localName] at h
  exact (eq_and_eq_of_append_number h).2

theorem Contract.id_eq_of_creationName_eq {c d : Contract} (h : c.creationName = d.creationName) : c.id = d.id := by
  rw [creationName, creationName] at h
  exact (eq_and_eq_of_append_number h).2

theorem Contract.id_eq_of_runtimeName_eq {c d : Contract} (h : c.runtimeName = d.runtimeName) : c.id = d.id :=
  id_eq_of_creationName_eq ((String.append_left_inj "_deployed").1 h)

/-- The name of a runtime object ends in a word, and the name of a creation object in a number. -/
theorem Contract.creationName_ne_runtimeName (c d : Contract) : c.creationName ≠ d.runtimeName := by
  intro h
  have hdeployed : d.runtimeName = d.creationName ++ "_" ++ "deployed" := by
    have hword : "_deployed" = "_" ++ "deployed" := by decide
    rw [runtimeName, hword, String.append_assoc]
  rw [hdeployed, creationName] at h
  have hend := (eq_and_eq_of_append_underscore (underscore_notMem_toString c.id) (by decide) h).2
  exact toString_ne_of_not_all_isDigit (by decide) c.id hend

/-- The name of a dispatcher determines its arity. -/
theorem Arity.dispatcherName_injective {a b : Arity} (h : a.dispatcherName = b.dispatcherName) : a = b := by
  unfold dispatcherName at h
  have htext := (String.append_right_inj _).1 h
  have hout : "_out_" = "_out" ++ "_" := by decide
  rw [text, text, hout, ← String.append_assoc, ← String.append_assoc] at htext
  obtain ⟨hinputs, houtputs⟩ := eq_and_eq_of_append_number htext
  have hnumber := (String.append_right_inj _).1 ((String.append_left_inj _).1 hinputs)
  cases a
  cases b
  exact congr (congrArg Arity.mk (Nat.repr_inj.1 hnumber)) houtputs

/-- Call sites with the same success name have the same number. -/
theorem CallSite.id_eq_of_successName_eq {site other : CallSite} {name : String} (h : site.successName = .ok name)
    (h' : other.successName = .ok name) : site.id = other.id := by
  rw [successName] at h h'
  split at h <;> cases h
  split at h'
  · have hname := Except.ok.inj h'
    exact (Nat.repr_inj.1 ((String.append_right_inj _).1 hname)).symm
  · cases h'

namespace StackVariable

/-- What a type may call the parts of a value. -/
def partNames : List String := ["", "address", "functionSelector", "offset", "length"]

theorem slotSuffixes_subset_partNames (t : SourceType) : t.slotSuffixes ⊆ partNames := by
  fun_cases SourceType.slotSuffixes t <;> decide

theorem nodup_slotSuffixes (t : SourceType) : t.slotSuffixes.Nodup := by
  fun_cases SourceType.slotSuffixes t <;> decide

theorem eq_empty_or_isWord_of_mem_partNames {suffix : String} (h : suffix ∈ partNames) :
    suffix = "" ∨ suffix.isEmpty = false ∧ '_' ∉ suffix.toList ∧ ¬ suffix.toList.all Char.isDigit := by
  revert suffix
  decide

theorem slotName_empty (v : StackVariable) : v.slotName "" = v.name := rfl

theorem slotName_of_not_isEmpty {suffix : String} (h : suffix.isEmpty = false) (v : StackVariable) :
    v.slotName suffix = v.name ++ "_" ++ suffix := by
  rw [slotName, h, if_neg Bool.false_ne_true]

/-- The name of a variable ends in a number, and the name of a part of it in a word. -/
theorem localName_ne_append {suffix : String} (hunderscore : '_' ∉ suffix.toList)
    (hword : ¬ suffix.toList.all Char.isDigit) (v w : Variable) : v.localName ≠ w.localName ++ "_" ++ suffix := by
  rw [Variable.localName]
  intro h
  have hend := (eq_and_eq_of_append_underscore (underscore_notMem_toString v.id) hunderscore h).2
  exact toString_ne_of_not_all_isDigit hword v.id hend

/-- A slot is known by the declaration and by the part that it holds. -/
theorem id_eq_and_eq_of_slotName_eq {v w : Variable} {suffix suffix' : String} (hsuffix : suffix ∈ partNames)
    (hsuffix' : suffix' ∈ partNames)
    (h : (ofVariable v).slotName suffix = (ofVariable w).slotName suffix') : v.id = w.id ∧ suffix = suffix' := by
  obtain rfl | ⟨hne, hunderscore, hword⟩ := eq_empty_or_isWord_of_mem_partNames hsuffix <;>
    obtain rfl | ⟨hne', hunderscore', hword'⟩ := eq_empty_or_isWord_of_mem_partNames hsuffix'
  · exact ⟨Variable.id_eq_of_localName_eq h, rfl⟩
  · rw [slotName_empty, slotName_of_not_isEmpty hne'] at h
    exact absurd h (localName_ne_append hunderscore' hword' v w)
  · rw [slotName_empty, slotName_of_not_isEmpty hne] at h
    exact absurd h.symm (localName_ne_append hunderscore hword w v)
  · rw [slotName_of_not_isEmpty hne, slotName_of_not_isEmpty hne'] at h
    obtain ⟨hname, heq⟩ := eq_and_eq_of_append_underscore hunderscore hunderscore' h
    exact ⟨Variable.id_eq_of_localName_eq hname, heq⟩

theorem nodup_slots (v : Variable) : (ofVariable v).slots.Nodup :=
  (nodup_slotSuffixes v.type).map_on fun _ hsuffix _ hsuffix' h =>
    (id_eq_and_eq_of_slotName_eq (slotSuffixes_subset_partNames _ hsuffix)
      (slotSuffixes_subset_partNames _ hsuffix') h).2

/-- The slots of different variables have different names. -/
theorem disjoint_slots {v w : Variable} (h : v.id ≠ w.id) :
    (ofVariable v).slots.Disjoint (ofVariable w).slots := by
  intro name hv hw
  obtain ⟨suffix, hsuffix, rfl⟩ := List.mem_map.1 hv
  obtain ⟨suffix', hsuffix', heq⟩ := List.mem_map.1 hw
  exact h (id_eq_and_eq_of_slotName_eq (slotSuffixes_subset_partNames _ hsuffix)
    (slotSuffixes_subset_partNames _ hsuffix') heq.symm).1

end StackVariable

theorem Function.head?_codeName (f : Function) : f.codeName.toList.head? = some 'f' :=
  head?_toList_append (head?_toList_append (head?_toList_append (by decide) _) _) _

theorem Variable.head?_getterName (v : Variable) : v.getterName.toList.head? = some 'g' :=
  head?_toList_append (head?_toList_append (head?_toList_append (by decide) _) _) _

theorem Variable.head?_localName (v : Variable) : v.localName.toList.head? = some 'v' :=
  head?_toList_append (head?_toList_append (head?_toList_append (by decide) _) _) _

/-- The names of slots start like those of local variables. -/
theorem StackVariable.head?_of_mem_slots {v : Variable} {name : String} (h : name ∈ (ofVariable v).slots) :
    name.toList.head? = some 'v' := by
  obtain ⟨suffix, -, rfl⟩ := List.mem_map.1 h
  rw [slotName]
  split
  · exact v.head?_localName
  · exact head?_toList_append (head?_toList_append v.head?_localName _) _

theorem Arity.head?_dispatcherName (a : Arity) : a.dispatcherName.toList.head? = some 'd' :=
  head?_toList_append (by decide) _

theorem CallSite.head?_of_successName_eq {site : CallSite} {name : String} (h : site.successName = .ok name) :
    name.toList.head? = some 't' := by
  rw [successName] at h
  split at h <;> cases h
  exact head?_toList_append (by decide) _

/-- No dispatcher has the name of a function. -/
theorem Function.codeName_ne_dispatcherName (f : Function) (arity : Arity) : f.codeName ≠ arity.dispatcherName := by
  intro h
  have hletters : some 'f' = some 'd' := by rw [← f.head?_codeName, h, arity.head?_dispatcherName]
  exact absurd hletters (by decide)

/-- Families of names that differ in their first letters have no name in common. -/
theorem nodup_flatten_of_head?_eq (letters : List Char) {families : List (List String)} (hletters : letters.Nodup)
    (h : List.Forall₂ (fun letter names => names.Nodup ∧ ∀ name ∈ names, name.toList.head? = some letter)
      letters families) :
    families.flatten.Nodup ∧ ∀ name ∈ families.flatten, ∃ letter ∈ letters, name.toList.head? = some letter := by
  induction h with
  | nil => exact ⟨List.nodup_nil, nofun⟩
  | @cons letter names letters families hfirst _ ih =>
    obtain ⟨hnotMem, hletters⟩ := List.nodup_cons.1 hletters
    obtain ⟨hnodup, hheads⟩ := ih hletters
    rw [List.flatten_cons]
    refine ⟨hfirst.1.append hnodup fun name hname hother => ?_, fun name hname => ?_⟩
    · obtain ⟨letter', hletter', hhead⟩ := hheads name hother
      rw [hfirst.2 name hname] at hhead
      cases hhead
      exact hnotMem hletter'
    · obtain hname | hname := List.mem_append.1 hname
      · exact ⟨letter, List.mem_cons_self, hfirst.2 name hname⟩
      · obtain ⟨letter', hletter', hhead⟩ := hheads name hname
        exact ⟨letter', List.mem_cons_of_mem _ hletter', hhead⟩

end YulBackend
