import Mathlib.Data.List.Infix
import Std.Data.String.ToNat
import YulBackend.Proofs.Codegen.Helpers

namespace YulBackend

theorem append_right_injective {p a b : String} (h : p ++ a = p ++ b) : a = b :=
  (String.append_right_inj p).1 h

namespace SourceType

/-- Types of the same name are of one kind, and have the same width where the kind has widths. -/
theorem cleaned_congr {t t' : SourceType} (h : t.isSingleSlot) (h' : t'.isSingleSlot) (hname : t.name = t'.name) :
    t.cleaned = t'.cleaned := by
  -- the first two letters tell the kinds apart
  have hstart : t.name.toList.take 2 = t'.name.toList.take 2 := by rw [hname]
  induction t, h using isSingleSlot_cases <;> induction t', h' using isSingleSlot_cases <;>
    simp [name] at hstart hname ⊢
  case uint.uint => rw [hname]
  case int.int => rw [hname]
  case fixedBytes.fixedBytes => rw [hname]
  case enum.enum => rfl
  case contract.contract => rfl
  case function.function => rfl

theorem cleanupDefinition_congr {t t' : SourceType} (h : t.isSingleSlot) (h' : t'.isSingleSlot)
    (hname : t.identifier = t'.identifier) : t.cleanupDefinition = t'.cleanupDefinition := by
  rw [cleanupDefinition, cleanupDefinition, hname, cleaned_congr h h' (append_right_injective hname)]

end SourceType

/-- Where one type's name ends and the next one begins. -/
def joint : List Char := ['_', 't', '_']

/-- What stands behind a type's name in a joined name: nothing, or a joint and the rest. -/
def IsJoinedRest (cs : List Char) : Prop := cs = [] ∨ ∃ rest, cs = joint ++ rest

/-- A type name that does not contain the joint cannot run on into the next one. -/
theorem eq_nil_of_isJoinedRest {x a u : List Char} (hx : ¬ joint <:+: x ++ a ++ ['_'])
    (hs : IsJoinedRest (a ++ u)) (hu : IsJoinedRest u) : a = [] := by
  obtain hnil | ⟨rest, hrest⟩ := hs
  · exact (List.append_eq_nil_iff.1 hnil).1
  simp only [joint, List.cons_append, List.nil_append] at hrest
  cases a with
  | nil => rfl
  | cons c a =>
    rw [List.cons_append, List.cons.injEq] at hrest
    obtain ⟨rfl, hrest⟩ := hrest
    cases a with
    | nil =>
      -- the rest behind a single underscore would start with a letter
      obtain rfl | ⟨rest', rfl⟩ := hu <;> cases hrest
    | cons c a =>
      rw [List.cons_append, List.cons.injEq] at hrest
      obtain ⟨rfl, hrest⟩ := hrest
      cases a with
      | nil => exact absurd ⟨x, [], by simp [joint]⟩ hx
      | cons c a =>
        rw [List.cons_append, List.cons.injEq] at hrest
        obtain ⟨rfl, -⟩ := hrest
        exact absurd ⟨x, a ++ ['_'], by simp [joint]⟩ hx

/-- Names without a joint in them end where they end in a joined name. -/
theorem eq_of_append_isJoinedRest {x y s u : List Char} (hx : ¬ joint <:+: x ++ ['_'])
    (hy : ¬ joint <:+: y ++ ['_']) (hs : IsJoinedRest s) (hu : IsJoinedRest u) (h : x ++ s = y ++ u) :
    x = y ∧ s = u := by
  rcases List.append_eq_append_iff.1 h with ⟨a, rfl, rfl⟩ | ⟨a, rfl, rfl⟩
  · obtain rfl := eq_nil_of_isJoinedRest hy hs hu
    simp
  · obtain rfl := eq_nil_of_isJoinedRest hx hu hs
    simp

/-- Names of types, as a tuple function's name joins them. -/
def IsTypeName (x : List Char) : Prop := (∃ rest, x = 't' :: '_' :: rest) ∧ ¬ joint <:+: x ++ ['_']

/-- Type names joined by underscores are a joined rest. -/
theorem isJoinedRest_flatMap {xs : List (List Char)} (h : ∀ x ∈ xs, IsTypeName x) :
    IsJoinedRest (xs.flatMap ('_' :: ·)) := by
  cases xs with
  | nil => exact .inl rfl
  | cons x xs =>
    obtain ⟨⟨rest, rfl⟩, -⟩ := h x List.mem_cons_self
    exact .inr ⟨rest ++ xs.flatMap ('_' :: ·), rfl⟩

/-- Joined type names can be taken apart again, so the tuple's identifier determines the types' identifiers. -/
theorem flatMap_injective {xs ys : List (List Char)} (hxs : ∀ x ∈ xs, IsTypeName x)
    (hys : ∀ y ∈ ys, IsTypeName y) (h : xs.flatMap ('_' :: ·) = ys.flatMap ('_' :: ·)) : xs = ys := by
  induction xs generalizing ys with
  | nil =>
    cases ys with
    | nil => rfl
    | cons y ys => cases h
  | cons x xs ih =>
    cases ys with
    | nil => cases h
    | cons y ys =>
      rw [List.forall_mem_cons] at hxs hys
      have htail : x ++ xs.flatMap ('_' :: ·) = y ++ ys.flatMap ('_' :: ·) := (List.cons.inj h).2
      obtain ⟨rfl, hrest⟩ := eq_of_append_isJoinedRest hxs.1.2 hys.1.2 (isJoinedRest_flatMap hxs.2)
        (isJoinedRest_flatMap hys.2) htail
      rw [ih hxs.2 hys.2 hrest]

/-- Joining texts by underscores puts one in front of each but the first. -/
theorem toList_intercalate_underscore (text : String) (texts : List String) :
    ("_".intercalate (text :: texts)).toList = text.toList ++ (texts.map String.toList).flatMap ('_' :: ·) := by
  induction texts generalizing text with
  | nil => simp
  | cons next rest ih =>
    rw [String.intercalate_cons_cons, String.toList_append, ih]
    simp

/-- A joined name tells its parts, if none of them holds a joint. -/
theorem intercalate_injective {xs ys : List String} (hxs : ∀ x ∈ xs, IsTypeName x.toList)
    (hys : ∀ y ∈ ys, IsTypeName y.toList) (h : "_".intercalate xs = "_".intercalate ys) : xs = ys := by
  have hmap : (xs.map String.toList).flatMap ('_' :: ·) = (ys.map String.toList).flatMap ('_' :: ·) := by
    have htext := congrArg String.toList h
    match xs, ys with
    | [], [] => rfl
    | [], y :: ys =>
      obtain ⟨⟨rest, hy⟩, -⟩ := hys y List.mem_cons_self
      rw [toList_intercalate_underscore, hy] at htext
      cases htext
    | x :: xs, [] =>
      obtain ⟨⟨rest, hx⟩, -⟩ := hxs x List.mem_cons_self
      rw [toList_intercalate_underscore, hx] at htext
      cases htext
    | x :: xs, y :: ys =>
      rw [toList_intercalate_underscore, toList_intercalate_underscore] at htext
      exact congrArg ('_' :: ·) htext
  have hlists := flatMap_injective (List.forall_mem_map.2 hxs) (List.forall_mem_map.2 hys) hmap
  exact List.map_injective_iff.2 (fun _ _ => String.toList_inj.1) hlists

namespace SourceType

/-- Names that the program chose, with no joint in them where they stand in a joined name. -/
def hasPlainName : SourceType → Prop
  | enum name | contract name => ¬ joint <:+: '_' :: (name.toList ++ ['_'])
  | _ => True

/-- A name of one part, which is not `t`, makes no joint with what stands around it. -/
theorem not_joint_infix {w : List Char} (hw : '_' ∉ w) (hhead : w.head? ≠ some 't') :
    ¬ joint <:+: 't' :: '_' :: w ++ ['_'] := by
  intro h
  rw [List.cons_append, List.infix_cons_iff, List.cons_append, List.infix_cons_iff] at h
  rcases h with hprefix | hprefix | hinfix
  · exact absurd (List.cons_prefix_cons.1 hprefix).1 (by decide)
  · have htail := (List.cons_prefix_cons.1 hprefix).2
    cases w with
    | nil => exact absurd htail (by decide)
    | cons c w => exact hhead (congrArg some (List.cons_prefix_cons.1 htail).1.symm)
  · have hcount := hinfix.sublist.count_le '_'
    rw [List.count_append, List.count_eq_zero.2 hw] at hcount
    exact absurd hcount (by decide)

/-- The identifier of a single-slot type with a plain name is a type name. -/
theorem isTypeName_identifier {t : SourceType} (h : t.isSingleSlot) (hplain : t.hasPlainName) :
    IsTypeName t.identifier.toList := by
  refine ⟨⟨t.name.toList, by simp [identifier]⟩, ?_⟩
  have htext : t.identifier.toList = 't' :: '_' :: t.name.toList := by simp [identifier]
  rw [htext]
  induction t, h using isSingleSlot_cases with
  | bool => exact not_joint_infix (by decide) (by decide)
  | uint bits => exact not_joint_infix (by simp [name]) (by simp [name])
  | int bits => exact not_joint_infix (by simp [name]) (by simp [name])
  | address => exact not_joint_infix (by decide) (by decide)
  | fixedBytes count => exact not_joint_infix (by simp [name]) (by simp [name])
  | enum name => simpa [hasPlainName, SourceType.name, List.infix_cons_iff, joint] using hplain
  | contract name => simpa [hasPlainName, SourceType.name, List.infix_cons_iff, joint] using hplain
  | function _ _ =>
    change ¬ joint <:+: 't' :: '_' :: "function_internal".toList ++ ['_']
    decide

/-- The joined names of types tell the types' names, unless the program chose a name with a joint in it. -/
theorem map_identifier_eq_of_joined {types types' : List SourceType} (h : ∀ t ∈ types, t.isSingleSlot)
    (h' : ∀ t ∈ types', t.isSingleSlot) (hplain : ∀ t ∈ types, t.hasPlainName)
    (hplain' : ∀ t ∈ types', t.hasPlainName) (heq : AbiTuple.identifier types = AbiTuple.identifier types') :
    types.map identifier = types'.map identifier := by
  refine intercalate_injective ?_ ?_ heq
  · rw [List.forall_mem_map]
    exact fun t ht => isTypeName_identifier (h t ht) (hplain t ht)
  · rw [List.forall_mem_map]
    exact fun t ht => isTypeName_identifier (h' t ht) (hplain' t ht)

end SourceType

end YulBackend
