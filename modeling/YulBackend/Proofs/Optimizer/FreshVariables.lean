import YulBackend.Proofs.Logic.Satisfiability
import YulBackend.Proofs.Optimizer.WordEncoding

namespace YulBackend

/-- With this many arguments an instruction has a formula of its own. -/
def Instruction.isModelled : Instruction → Nat → Bool
  | .lt, 2 | .gt, 2 | .eq, 2 | .isZero, 1 | .add, 2 => true
  | _, _ => false

section

variable (d : Dialect) (known : String → Bool)

mutual

/-- The places of an expression that are not modelled, in the order in which they are come by. The arguments of an
instruction come before itself, and those of other calls are not looked at. -/
def Expr.unknownPlaces : Expr → List (List Nat)
  | .call _ callee arguments =>
    match d.instruction? callee.name with
    | none => [[]]
    | some i =>
      Expr.allUnknownPlaces 0 arguments ++ if i.isModelled arguments.length then [] else [[]]
  | .identifier name => if known name.name then [] else [[]]
  | .literal value => if value.word.toOption.isSome then [] else [[]]

def Expr.allUnknownPlaces (index : Nat) : List Expr → List (List Nat)
  | [] => []
  | e :: rest => e.unknownPlaces.map (index :: ·) ++ Expr.allUnknownPlaces (index + 1) rest

end

mutual

/-- The formula of an expression, with a fresh variable of a given number at each place that is not modelled. -/
def Expr.formulaWith (number : List Nat → Nat) : Expr → Formula
  | .call _ callee arguments =>
    match d.instruction? callee.name with
    | none => .var (Encoder.freshName (number [])) .int
    | some i =>
      (Encoder.model? i (Expr.formulasWith number 0 arguments)).getD (.var (Encoder.freshName (number [])) .int)
  | .identifier name =>
    if known name.name then .var (Encoder.boundName name.name) .int
    else .var (Encoder.freshName (number [])) .int
  | .literal value =>
    match value.word with
    | .ok word => .int word
    | .error _ => .var (Encoder.freshName (number [])) .int

def Expr.formulasWith (number : List Nat → Nat) (index : Nat) : List Expr → List Formula
  | [] => []
  | e :: rest =>
    e.formulaWith (fun place => number (index :: place)) :: Expr.formulasWith number (index + 1) rest

end

end

namespace Encoder

theorem isSome_model?_iff (i : Instruction) (fs : List Formula) : (model? i fs).isSome = i.isModelled fs.length := by
  rcases fs with _ | ⟨a, _ | ⟨b, _ | ⟨c, rest⟩⟩⟩ <;> cases i <;> rfl

section

variable {d : Dialect} {known : String → Bool}

/-- An unknown place among arguments lies in one of them, whose index comes first. -/
theorem exists_of_mem_allUnknownPlaces {place : List Nat} : ∀ {es : List Expr} {index : Nat},
    place ∈ Expr.allUnknownPlaces d known index es → ∃ i rest, index ≤ i ∧ place = i :: rest
  | [], index, h => nomatch h
  | e :: es, index, h => by
    rw [Expr.allUnknownPlaces, List.mem_append, List.mem_map] at h
    obtain ⟨rest, _, rfl⟩ | h := h
    · exact ⟨index, rest, Nat.le_refl index, rfl⟩
    · obtain ⟨i, rest, hi, rfl⟩ := exists_of_mem_allUnknownPlaces h
      exact ⟨i, rest, Nat.le_of_succ_le hi, rfl⟩

mutual

/-- No unknown place of an expression is listed twice. -/
theorem nodup_unknownPlaces : ∀ e : Expr, (e.unknownPlaces d known).Nodup
  | .call _ callee arguments => by
    rw [Expr.unknownPlaces]
    split
    · exact List.nodup_singleton []
    · refine List.Nodup.append (nodup_allUnknownPlaces 0 arguments) (by split <;> decide) ?_
      intro place hplace hempty
      obtain ⟨i, rest, _, rfl⟩ := exists_of_mem_allUnknownPlaces hplace
      split at hempty <;> simp at hempty
  | .identifier name => by
    rw [Expr.unknownPlaces]
    split <;> decide
  | .literal value => by
    rw [Expr.unknownPlaces]
    split <;> decide

/-- No unknown place among arguments is listed twice: the index tells arguments apart. -/
theorem nodup_allUnknownPlaces (index : Nat) : ∀ es : List Expr, (Expr.allUnknownPlaces d known index es).Nodup
  | [] => List.nodup_nil
  | e :: rest => by
    rw [Expr.allUnknownPlaces]
    refine List.Nodup.append ((nodup_unknownPlaces e).map fun _ _ h => (List.cons.inj h).2)
      (nodup_allUnknownPlaces (index + 1) rest) ?_
    intro place hfirst hrest
    obtain ⟨_, _, rfl⟩ := List.mem_map.1 hfirst
    obtain ⟨i, _, hi, heq⟩ := exists_of_mem_allUnknownPlaces hrest
    have hindex := (List.cons.inj heq).1
    omega

end

theorem length_formulasWith (number : List Nat → Nat) : ∀ (index : Nat) (es : List Expr),
    (Expr.formulasWith d known number index es).length = es.length
  | _, [] => rfl
  | index, _ :: rest => congrArg (· + 1) (length_formulasWith number (index + 1) rest)

/-- A fresh variable that gets the number that is next. -/
theorem fresh_eq_of_map {number : List Nat → Nat} {k : Nat} (h : [[]].map number = List.range' k 1) :
    fresh k = (.var (freshName (number [])) .int, k + 1) := by
  have hnumber : number [] = k := (List.cons.inj h).1
  rw [fresh, hnumber]

/-- The places have their numbers one after the other. -/
theorem map_add_idxOf (k : Nat) {places : List (List Nat)} (h : places.Nodup) :
    places.map (fun place => k + places.idxOf place) = List.range' k places.length := by
  refine List.ext_getElem (by rw [List.length_map, List.length_range']) fun i hi _ => ?_
  rw [List.length_map] at hi
  rw [List.getElem_map, h.idxOf_getElem i hi, List.getElem_range', Nat.one_mul]

/-- A formula that stands for an integer and has variables for integers only. -/
def IsInteger (f : Formula) : Prop := f.WellSorted (fun _ => .int) ∧ f.sort = .int

theorem isInteger_var (name : String) : IsInteger (.var name .int) := ⟨rfl, rfl⟩

theorem isInteger_int (value : Int) : IsInteger (.int value) := ⟨trivial, rfl⟩

theorem isInteger_wordOf {condition : Formula} (h : condition.IsAssertion fun _ => .int) :
    IsInteger (wordOf condition) :=
  ⟨⟨h, trivial, trivial, rfl⟩, rfl⟩

/-- An instruction modelled on integer formulas gives an integer formula. -/
theorem isInteger_model? {i : Instruction} {fs : List Formula} (hfs : ∀ f ∈ fs, IsInteger f) {f : Formula}
    (h : model? i fs = some f) : IsInteger f := by
  rw [model?.eq_def] at h
  split at h <;> cases h <;> simp only [List.forall_mem_cons] at hfs
  · exact isInteger_wordOf ⟨⟨hfs.1, hfs.2.1⟩, rfl⟩
  · exact isInteger_wordOf ⟨⟨hfs.1, hfs.2.1⟩, rfl⟩
  · exact isInteger_wordOf ⟨⟨hfs.1.1, hfs.2.1.1, hfs.1.2.trans hfs.2.1.2.symm⟩, rfl⟩
  · exact isInteger_wordOf ⟨⟨hfs.1.1, trivial, hfs.1.2⟩, rfl⟩
  · exact ⟨⟨hfs.1, hfs.2.1⟩, rfl⟩

mutual

/-- The formula of an expression is an integer formula, however its places are numbered. -/
theorem isInteger_formulaWith : ∀ (e : Expr) (number : List Nat → Nat), IsInteger (e.formulaWith d known number)
  | .call _ callee arguments, number => by
    rw [Expr.formulaWith]
    split
    · exact isInteger_var _
    next i _ =>
      cases hmodel : model? i (Expr.formulasWith d known number 0 arguments) with
      | none => exact isInteger_var _
      | some f => exact isInteger_model? (isInteger_formulasWith arguments number 0) hmodel
  | .identifier name, number => by
    rw [Expr.formulaWith]
    split <;> exact isInteger_var _
  | .literal value, number => by
    rw [Expr.formulaWith]
    split
    · exact isInteger_int _
    · exact isInteger_var _

/-- The formulas of arguments are integer formulas, however their places are numbered. -/
theorem isInteger_formulasWith : ∀ (es : List Expr) (number : List Nat → Nat) (index : Nat),
    ∀ f ∈ Expr.formulasWith d known number index es, IsInteger f
  | [], _, _ => nofun
  | e :: rest, number, index => by
    rw [Expr.formulasWith, List.forall_mem_cons]
    exact ⟨isInteger_formulaWith e _, isInteger_formulasWith rest number (index + 1)⟩

end

/-- The variable of a name that is known, or the one that was drawn for a place. -/
def IsDrawn (known : String → Bool) (number : List Nat → Nat) (places : List (List Nat)) (v : String) : Prop :=
  (∃ x, known x ∧ v = boundName x) ∨ ∃ place ∈ places, v = freshName (number place)

theorem IsDrawn.mono {number : List Nat → Nat} {places more : List (List Nat)} {v : String}
    (h : IsDrawn known number places v) (hsubset : places ⊆ more) : IsDrawn known number more v :=
  h.imp_right fun ⟨place, hplace, hv⟩ => ⟨place, hsubset hplace, hv⟩

theorem isDrawn_of_mem_var {number : List Nat → Nat} {v : String}
    (h : v ∈ (Formula.var (freshName (number [])) .int).variableNames) : IsDrawn known number [[]] v :=
  .inr ⟨[], List.mem_cons_self, List.mem_singleton.1 h⟩

mutual

/-- Every variable of an expression's formula belongs to a known name or is drawn for an unknown place. -/
theorem isDrawn_of_mem_formulaWith {v : String} : ∀ (e : Expr) (number : List Nat → Nat),
    v ∈ (e.formulaWith d known number).variableNames → IsDrawn known number (e.unknownPlaces d known) v
  | .call _ callee arguments, number => by
    rw [Expr.formulaWith, Expr.unknownPlaces]
    cases d.instruction? callee.name with
    | none => exact isDrawn_of_mem_var
    | some i =>
      have hmodel := isSome_model?_iff i (Expr.formulasWith d known number 0 arguments)
      rw [length_formulasWith] at hmodel
      dsimp only
      rw [← hmodel]
      intro hv
      cases hf : model? i (Expr.formulasWith d known number 0 arguments) with
      | none =>
        rw [hf] at hv
        exact (isDrawn_of_mem_var hv).mono (List.subset_append_right _ _)
      | some f =>
        rw [hf] at hv
        exact (isDrawn_of_mem_formulasWith arguments number 0 (exists_of_mem_model? hf hv)).mono
          (List.subset_append_left _ _)
  | .identifier name, number => by
    rw [Expr.formulaWith, Expr.unknownPlaces]
    split
    next hknown => exact fun hv => .inl ⟨name.name, hknown, List.mem_singleton.1 hv⟩
    · exact isDrawn_of_mem_var
  | .literal value, number => by
    rw [Expr.formulaWith, Expr.unknownPlaces]
    cases value.word with
    | ok word => exact nofun
    | error fault => exact isDrawn_of_mem_var

/-- Every variable of arguments' formulas belongs to a known name or is drawn for one of their unknown places. -/
theorem isDrawn_of_mem_formulasWith {v : String} : ∀ (es : List Expr) (number : List Nat → Nat) (index : Nat),
    (∃ f ∈ Expr.formulasWith d known number index es, v ∈ f.variableNames) →
      IsDrawn known number (Expr.allUnknownPlaces d known index es) v
  | [], _, _ => fun ⟨_, hf, _⟩ => nomatch hf
  | e :: rest, number, index => by
    rintro ⟨f, hf, hv⟩
    rw [Expr.formulasWith, List.mem_cons] at hf
    rw [Expr.allUnknownPlaces]
    obtain rfl | hf := hf
    · obtain hbound | ⟨place, hplace, hv⟩ := isDrawn_of_mem_formulaWith e _ hv
      · exact .inl hbound
      · exact .inr ⟨index :: place, List.mem_append_left _ (List.mem_map_of_mem hplace), hv⟩
    · exact (isDrawn_of_mem_formulasWith rest number (index + 1) ⟨f, hf, hv⟩).mono (List.subset_append_right _ _)

end

end

/-- A name that is tracked and bound, so that it is read as its own variable. -/
def knows (tracked : String → Bool) (bindings : SortedMap String Formula) (x : String) : Bool :=
  tracked x && bindings.contains x

section

variable {d : Dialect} {tracked : String → Bool} {bindings : SortedMap String Formula}

mutual

/-- Where the places have the numbers that are next, the formula is the one with these numbers. -/
theorem formula_eq_formulaWith (hbindings : BindsNames bindings) : ∀ (e : Expr) {number : List Nat → Nat} {k : Nat},
    let places := e.unknownPlaces d (knows tracked bindings)
    places.map number = List.range' k places.length →
      formula d tracked bindings k e = (e.formulaWith d (knows tracked bindings) number, k + places.length)
  | .call _ callee arguments, number, k => by
    rw [Expr.unknownPlaces, formula, Expr.formulaWith]
    cases d.instruction? callee.name with
    | none => exact fresh_eq_of_map
    | some i =>
      intro places h
      subst places
      dsimp only at h ⊢
      rw [List.map_append, List.length_append, ← List.range'_append_1] at h
      obtain ⟨harguments, hself⟩ := List.append_inj h (by rw [List.length_map, List.length_range'])
      have hmodel := isSome_model?_iff i (Expr.formulasWith d (knows tracked bindings) number 0 arguments)
      rw [length_formulasWith] at hmodel
      rw [formulas_eq_formulasWith hbindings arguments 0 harguments, List.length_append, ← hmodel]
      rw [← hmodel] at hself
      dsimp only
      revert hself
      cases model? i (Expr.formulasWith d (knows tracked bindings) number 0 arguments) with
      | none => exact fresh_eq_of_map
      | some f => exact fun _ => rfl
  | .identifier name, number, k => by
    rw [Expr.unknownPlaces, formula, Expr.formulaWith, knows, SortedMap.contains]
    cases hbound : bindings.get? name.name with
    | none =>
      rw [Option.isSome_none, Bool.and_false]
      exact fresh_eq_of_map
    | some bound =>
      rw [Option.isSome_some, Bool.and_true, hbindings _ _ hbound]
      cases tracked name.name with
      | false => exact fresh_eq_of_map
      | true => exact fun _ => rfl
  | .literal value, number, k => by
    rw [Expr.unknownPlaces, formula, Expr.formulaWith]
    cases value.word with
    | ok word => exact fun _ => rfl
    | error fault => exact fresh_eq_of_map

/-- Numbering the unknown places of arguments in the order they come by gives the formulas that are drawn with a
counter. -/
theorem formulas_eq_formulasWith (hbindings : BindsNames bindings) : ∀ (es : List Expr) (index : Nat)
    {number : List Nat → Nat} {k : Nat},
    let places := Expr.allUnknownPlaces d (knows tracked bindings) index es
    places.map number = List.range' k places.length →
      formulas d tracked bindings k es =
        (Expr.formulasWith d (knows tracked bindings) number index es, k + places.length)
  | [], index, number, k => fun _ => rfl
  | e :: rest, index, number, k => by
    intro places h
    subst places
    rw [Expr.allUnknownPlaces, List.map_append, List.length_append, ← List.range'_append_1] at h
    obtain ⟨hfirst, hrest⟩ := List.append_inj h (by rw [List.length_map, List.length_range'])
    rw [List.map_map, List.length_map] at hfirst
    rw [List.length_map] at hrest
    rw [formulas, formula_eq_formulaWith hbindings e hfirst]
    dsimp only
    rw [formulas_eq_formulasWith hbindings rest (index + 1) hrest, Expr.formulasWith, Expr.allUnknownPlaces,
      List.length_append, List.length_map, Nat.add_assoc]
    rfl

end

end

section

variable {σ : Type} {encoder : Encoder σ}

/-- The places of an expression that get fresh variables when it is encoded. -/
def unknowns (encoder : Encoder σ) (c : Encoding σ) (e : Expr) : List (List Nat) :=
  e.unknownPlaces encoder.dialect (knows encoder.tracked c.bindings)

/-- The number that is drawn for a place. -/
def drawnAt (encoder : Encoder σ) (c : Encoding σ) (e : Expr) (place : List Nat) : Nat :=
  c.fresh + (encoder.unknowns c e).idxOf place

/-- The numbers drawn for the unknown places of an expression are consecutive, in the order of the places. -/
theorem map_drawnAt (c : Encoding σ) (e : Expr) : (encoder.unknowns c e).map (encoder.drawnAt c e) =
    List.range' c.fresh (encoder.unknowns c e).length :=
  map_add_idxOf c.fresh (nodup_unknownPlaces e)

/-- Encoding an expression gives the formula with numbered places and advances the counter by the number of unknown
places. -/
theorem encode_eq_formulaWith (hprover : encoder.prover.NamesVariables) {c : Encoding σ}
    (hbindings : BindsNames c.bindings) (e : Expr) :
    (encoder.encode e c).1 =
        e.formulaWith encoder.dialect (knows encoder.tracked c.bindings) (encoder.drawnAt c e) ∧
      (encoder.encode e c).2.fresh = c.fresh + (encoder.unknowns c e).length :=
  Prod.ext_iff.1 ((encode_eq_formula hprover e c).trans (formula_eq_formulaWith hbindings e (map_drawnAt c e)))

/-- Numbers of places are drawn in the call that encodes the expression. -/
theorem drawnAt_lt (hprover : encoder.prover.NamesVariables) {c : Encoding σ} (hbindings : BindsNames c.bindings)
    {e : Expr} {place : List Nat} (h : place ∈ encoder.unknowns c e) :
    encoder.drawnAt c e place < (encoder.encode e c).2.fresh := by
  rw [(encode_eq_formulaWith hprover hbindings e).2]
  exact Nat.add_lt_add_left (List.idxOf_lt_length_iff.2 h) c.fresh

theorem drawnAt_injective {c : Encoding σ} {e : Expr} {place place' : List Nat} (h : place ∈ encoder.unknowns c e)
    (heq : encoder.drawnAt c e place = encoder.drawnAt c e place') : place = place' :=
  (List.idxOf_inj h).1 (Nat.add_left_cancel heq)

/-- Using an encoder binds a name only by `bind`, and never unbinds one. -/
theorem contains_bindings_use (c : Encoding σ) (use : Use σ) (x : String) :
    (encoder.use c use).bindings.contains x ↔ c.bindings.contains x ∨ use = .bind x := by
  cases use with
  | bind name =>
    have hbindings : (encoder.bind name c).2.bindings = c.bindings.insert name (encoder.bind name c).1 := rfl
    rw [Encoder.use, SortedMap.contains, hbindings, SortedMap.get?_insert, Use.bind.injEq]
    split
    next hx => simp [hx]
    next hx => simp [SortedMap.contains, Ne.symm hx]
  | encode e => simp [Encoder.use, bindings_encode]
  | ask action =>
    have hbindings : (encoder.use c (.ask action)).bindings = c.bindings := rfl
    simp [hbindings]

/-- The bound names are those that were bound before. -/
theorem contains_bindings_useAll (c : Encoding σ) (uses : List (Use σ)) (x : String) :
    (encoder.useAll c uses).bindings.contains x ↔ c.bindings.contains x ∨ .bind x ∈ uses := by
  induction uses generalizing c with
  | nil => exact (or_iff_left List.not_mem_nil).symm
  | cons use rest ih =>
    refine (ih (encoder.use c use)).trans ?_
    rw [contains_bindings_use, List.mem_cons, or_assoc, eq_comm (a := use)]

/-- Using an encoder never goes back to an earlier fresh number. -/
theorem fresh_le_use (hprover : encoder.prover.NamesVariables) (c : Encoding σ) (use : Use σ) :
    c.fresh ≤ (encoder.use c use).fresh := by
  cases use with
  | bind name => exact Nat.le_refl _
  | encode e =>
    have hle : c.fresh ≤ (formula encoder.dialect encoder.tracked c.bindings c.fresh e).2 := le_formula c.fresh e
    rwa [← encode_eq_formula hprover e c] at hle
  | ask action => exact Nat.le_refl _

/-- No number is given back. -/
theorem fresh_le_useAll (hprover : encoder.prover.NamesVariables) (c : Encoding σ) (uses : List (Use σ)) :
    c.fresh ≤ (encoder.useAll c uses).fresh := by
  induction uses generalizing c with
  | nil => exact Nat.le_refl _
  | cons use rest ih => exact Nat.le_trans (fresh_le_use hprover c use) (ih (encoder.use c use))

/-- What a call draws is drawn before any later use. -/
theorem fresh_use_le_take (hprover : encoder.prover.NamesVariables) (c : Encoding σ) {uses : List (Use σ)} {i j : Nat}
    {use : Use σ} (hi : uses[i]? = some use) (hlt : i < j) :
    (encoder.use (encoder.useAll c (uses.take i)) use).fresh ≤ (encoder.useAll c (uses.take j)).fresh := by
  obtain ⟨n, rfl⟩ := Nat.exists_eq_add_of_lt hlt
  have htake : uses.take (i + n + 1) = uses.take i ++ use :: (uses.drop (i + 1)).take n := by
    rw [Nat.add_right_comm, List.take_add, List.take_add_one, hi, Option.toList_some, List.append_assoc]
    rfl
  rw [htake, useAll, useAll, List.foldl_append, List.foldl_cons]
  exact fresh_le_useAll hprover _ _

/-- The number that is drawn for a place by a call that encodes an expression. -/
def drawnIn (encoder : Encoder σ) (session : σ) (uses : List (Use σ)) (i : Nat) (place : List Nat) : Nat :=
  match uses[i]? with
  | some (.encode e) => encoder.drawnAt (encoder.useAll { session } (uses.take i)) e place
  | _ => 0

theorem drawnIn_eq {session : σ} {uses : List (Use σ)} {i : Nat} {e : Expr} (h : uses[i]? = some (.encode e)) :
    encoder.drawnIn session uses i = encoder.drawnAt (encoder.useAll { session } (uses.take i)) e := by
  funext place
  rw [drawnIn, h]

/-- An earlier call has lower numbers. -/
theorem drawnIn_lt (hprover : encoder.prover.NamesVariables) {session : σ} {uses : List (Use σ)} {i j : Nat}
    {e e' : Expr} {place place' : List Nat} (hi : uses[i]? = some (.encode e)) (hj : uses[j]? = some (.encode e'))
    (hplace : place ∈ encoder.unknowns (encoder.useAll { session } (uses.take i)) e) (hij : i < j) :
    encoder.drawnIn session uses i place < encoder.drawnIn session uses j place' := by
  rw [drawnIn_eq hi, drawnIn_eq hj]
  calc encoder.drawnAt (encoder.useAll { session } (uses.take i)) e place
      < (encoder.encode e (encoder.useAll { session } (uses.take i))).2.fresh :=
        drawnAt_lt hprover (bindsNames_useAll hprover bindsNames_empty (uses.take i)) hplace
    _ ≤ (encoder.useAll { session } (uses.take j)).fresh := fresh_use_le_take hprover { session } hi hij
    _ ≤ encoder.drawnAt (encoder.useAll { session } (uses.take j)) e' place' := Nat.le_add_right _ _

/-- However an encoder is used, the formulas that `encode` makes are about integers. In each of them a name that is
bound by then and tracked has its own variable, at all its occurrences, and every place that is not modelled has one
that was drawn for it in the call. No two places have the same, be it in one call or in two, and no name has one of
theirs. -/
theorem encode_drawn (hprover : encoder.prover.NamesVariables) (session : σ) (uses : List (Use σ)) :
    let before i := encoder.useAll { session } (uses.take i)
    let known i := knows encoder.tracked (before i).bindings
    (∀ i x, known i x ↔ encoder.tracked x ∧ .bind x ∈ uses.take i) ∧
    (∃ drawn : Nat → List Nat → Nat,
      (∀ i e, uses[i]? = some (.encode e) →
        let encoded := encoder.encode e (before i)
        let places := e.unknownPlaces encoder.dialect (known i)
        encoded.1 = e.formulaWith encoder.dialect (known i) (drawn i) ∧
        encoded.1.WellSorted (fun _ => .int) ∧ encoded.1.sort = .int ∧
        (∀ v ∈ encoded.1.variableNames,
          (∃ x, .bind x ∈ uses.take i ∧ encoder.tracked x ∧ v = "yul_" ++ x) ∨
            ∃ place ∈ places, v = "expr_" ++ toString (drawn i place)) ∧
        places.map (drawn i) = List.range' (before i).fresh places.length ∧
        encoded.2.fresh = (before i).fresh + places.length) ∧
      ∀ i j e e' place place', uses[i]? = some (.encode e) → uses[j]? = some (.encode e') →
        place ∈ e.unknownPlaces encoder.dialect (known i) → place' ∈ e'.unknownPlaces encoder.dialect (known j) →
        drawn i place = drawn j place' → i = j ∧ place = place') ∧
    (∀ i name, uses[i]? = some (.bind name) → (encoder.bind name (before i)).1 = .var ("yul_" ++ name) .int) ∧
    (∀ j k : Nat, "expr_" ++ toString j = "expr_" ++ toString k → j = k) ∧
    (∀ x y : String, "yul_" ++ x = "yul_" ++ y → x = y) ∧
    ∀ (x : String) (k : Nat), "yul_" ++ x ≠ "expr_" ++ toString k := by
  intro before known
  have hknown : ∀ i x, known i x ↔ encoder.tracked x ∧ .bind x ∈ uses.take i := by
    intro i x
    refine Bool.and_eq_true_iff.trans (and_congr_right fun _ => ?_)
    exact (contains_bindings_useAll { session } (uses.take i) x).trans (or_iff_right Bool.false_ne_true)
  let drawn := encoder.drawnIn session uses
  have hdrawn : ∀ {i e}, uses[i]? = some (.encode e) → drawn i = encoder.drawnAt (before i) e := drawnIn_eq
  refine ⟨hknown, ⟨drawn, ?_, ?_⟩, fun i name _ => bind_fst hprover name (before i), fun _ _ => freshName_injective,
    fun _ _ => boundName_injective, boundName_ne_freshName⟩
  · intro i e hi encoded places
    have hbindings : BindsNames (before i).bindings := bindsNames_useAll hprover bindsNames_empty (uses.take i)
    obtain ⟨hformula, hfresh⟩ := encode_eq_formulaWith hprover hbindings e
    rw [← hdrawn hi] at hformula
    have hinteger : IsInteger encoded.1 := hformula ▸ isInteger_formulaWith e (drawn i)
    refine ⟨hformula, hinteger.1, hinteger.2, ?_, ?_, hfresh⟩
    · intro v hv
      obtain ⟨x, hx, hbound⟩ | hplace := isDrawn_of_mem_formulaWith e (drawn i) (hformula ▸ hv)
      · exact .inl ⟨x, ((hknown i x).1 hx).2, ((hknown i x).1 hx).1, hbound⟩
      · exact .inr hplace
    · rw [hdrawn hi]
      exact map_drawnAt (before i) e
  · intro i j e e' place place' hi hj hplace hplace' heq
    obtain hij | rfl | hji := Nat.lt_trichotomy i j
    · exact absurd heq (drawnIn_lt hprover hi hj hplace hij).ne
    · cases hi.symm.trans hj
      rw [hdrawn hi] at heq
      exact ⟨rfl, drawnAt_injective hplace heq⟩
    · exact absurd heq (drawnIn_lt hprover hj hi hplace' hji).ne'

/-- The same expression encoded twice, with different variables for what is read from memory. -/
theorem encode_drawn_comparedSums :
    let uses : List (Use Evaluation.Session) := [.bind "x", .encode comparedSums, .encode comparedSums]
    let before i := tracksX.useAll { session := {} } (uses.take i)
    let known i := knows tracksX.tracked (before i).bindings
    tracksX.prover.NamesVariables ∧ ∃ drawn : Nat → List Nat → Nat,
      (tracksX.encode comparedSums (before 1)).1 = comparedSums.formulaWith tracksX.dialect (known 1) (drawn 1) ∧
      (tracksX.encode comparedSums (before 2)).1 = comparedSums.formulaWith tracksX.dialect (known 2) (drawn 2) ∧
      drawn 1 [1, 0] ≠ drawn 2 [1, 0] := by
  intro uses before known
  have hprover : tracksX.prover.NamesVariables := Evaluation.namesVariables_prover
  obtain ⟨_, ⟨drawn, hformulas, hdifferent⟩, _⟩ := encode_drawn hprover {} uses
  have hplace : [1, 0] ∈ comparedSums.unknownPlaces tracksX.dialect (known 1) := by decide +kernel
  have hplace' : [1, 0] ∈ comparedSums.unknownPlaces tracksX.dialect (known 2) := by decide +kernel
  refine ⟨hprover, drawn, (hformulas 1 comparedSums rfl).1, (hformulas 2 comparedSums rfl).1, fun heq => ?_⟩
  exact absurd (hdifferent 1 2 _ _ _ _ rfl rfl hplace hplace' heq).1 (by decide)

end

end Encoder

end YulBackend
