import Mathlib.Data.List.Nodup
import YulBackend.Proofs.Codegen.HelperNames
import YulBackend.Proofs.Literal.Numerals
import YulBackend.Proofs.Printer.Reads
import YulBackend.Proofs.Token.Splits

namespace YulBackend

theorem Keyword.mem_all (k : Keyword) : k ∈ Keyword.all := by
  cases k <;> decide

/-- Names that start like no reserved word. -/
theorem Word.isName_append {stem rest : String}
    (hstem : stem.toList.head?.any isNameStart ∧ stem.toList.all isNameChar)
    (hreserved : ∀ word ∈ "true" :: "false" :: Keyword.all.map Keyword.text, ¬ stem.toList <+: word.toList)
    (hrest : rest.toList.all isNameChar) : isName (stem ++ rest).toList := by
  have hne : ∀ word ∈ "true" :: "false" :: Keyword.all.map Keyword.text, word.toList ≠ (stem ++ rest).toList := by
    intro word hword heq
    refine hreserved word hword ?_
    rw [heq, String.toList_append]
    exact List.prefix_append _ _
  rw [isName_iff, isReserved_eq_false_iff]
  refine ⟨?_, ?_, ?_, ?_, ?_⟩
  · rw [String.toList_append, List.head?_append]
    cases hhead : stem.toList.head? with
    | none =>
      rw [hhead] at hstem
      cases hstem.1
    | some c =>
      rw [hhead] at hstem
      exact hstem.1
  · rw [← List.all_eq_true, String.toList_append, List.all_append, hstem.2, hrest, Bool.and_self]
  · intro k
    exact hne k.text (List.mem_cons_of_mem _ (List.mem_cons_of_mem _ (List.mem_map_of_mem k.mem_all)))
  · exact fun h => hne "true" (by simp) h.symm
  · exact fun h => hne "false" (by simp) h.symm

theorem Word.all_isNameChar_digits (n : Nat) : (toString n).toList.all isNameChar := by
  rw [Nat.toString_eq_repr, Nat.toList_repr, List.all_eq_true]
  intro c hc
  have hdigit := Nat.isDigit_of_mem_toDigits (by decide) (by decide) hc
  simp [isNameChar, Char.isAlphanum, hdigit]

theorem Word.all_isNameChar_append {a b : String} (ha : a.toList.all isNameChar)
    (hb : b.toList.all isNameChar) : (a ++ b).toList.all isNameChar := by
  rw [String.toList_append, List.all_append, ha, hb, Bool.and_self]

/-- Hexadecimal digits are name characters. -/
theorem Word.all_isNameChar_toDigits (n : Nat) : (Nat.toDigits 16 n).all isNameChar := by
  have hdigit : ∀ d < 16, isNameChar d.digitChar := by decide
  induction n using Nat.base_induction 16 (by decide) with
  | single d hd => simp [Nat.toDigits_of_lt_base hd, hdigit d hd]
  | digit n d hd hn ih =>
    rw [← Nat.toDigits_append_toDigits (by decide) hn hd, Nat.toDigits_of_lt_base hd, List.all_append, ih]
    simp [hdigit d hd]

section

variable {stem name : String} {count : Nat}

@[simp]
theorem length_numberedNames (stem : String) (count : Nat) : (numberedNames stem count).length = count := by
  simp [numberedNames]

theorem exists_of_mem_numberedNames (h : name ∈ numberedNames stem count) : ∃ i : Nat, name = stem ++ toString i := by
  obtain ⟨i, -, rfl⟩ := List.mem_map.1 h
  exact ⟨i, rfl⟩

/-- A name without the stem is not numbered by it. -/
theorem not_mem_numberedNames (h : ¬ stem.toList <+: name.toList) : name ∉ numberedNames stem count := by
  intro hname
  obtain ⟨i, rfl⟩ := exists_of_mem_numberedNames hname
  rw [String.toList_append] at h
  exact h (List.prefix_append _ _)

theorem nodup_numberedNames (stem : String) (count : Nat) : (numberedNames stem count).Nodup := by
  refine List.Nodup.map (fun i j hij => ?_) List.nodup_range
  exact Nat.repr_inj.1 (append_right_injective hij)

end

/-- The hexadecimal text of bytes is made of name characters. -/
theorem Word.all_isNameChar_ofBytes (bytes : List UInt8) : (Hex.ofBytes bytes).toList.all isNameChar := by
  rw [Hex.ofBytes, String.toList_join, List.all_flatMap, List.all_map, List.all_eq_true]
  intro b _
  have hzero : isNameChar '0' := by decide
  have hdigits := all_isNameChar_toDigits b.toNat
  simp [Hex.padded, hzero, List.all_append, -List.all_eq_true, hdigits]

/-- Types in which the names that the program chose are names. -/
def SourceType.isNamed : SourceType → Bool
  | .enum name | .contract name => name.toList.all Word.isNameChar
  | _ => true

/-- The identifier of a single-slot type is made of name characters, if its own names are. -/
theorem SourceType.all_isNameChar_identifier {t : SourceType} (h : t.isSingleSlot) (hnamed : t.isNamed) :
    t.identifier.toList.all Word.isNameChar := by
  have hname : t.name.toList.all Word.isNameChar := by
    induction t, h using isSingleSlot_cases with
    | bool => decide
    | address => decide
    | function _ _ => exact (by decide : "function_internal".toList.all Word.isNameChar)
    | uint bits => exact Word.all_isNameChar_append (by decide) (Word.all_isNameChar_digits bits)
    | int bits => exact Word.all_isNameChar_append (by decide) (Word.all_isNameChar_digits bits)
    | fixedBytes count => exact Word.all_isNameChar_append (by decide) (Word.all_isNameChar_digits count)
    | enum name => exact Word.all_isNameChar_append (by decide) hnamed
    | contract name => exact Word.all_isNameChar_append (by decide) hnamed
  exact Word.all_isNameChar_append (by decide) hname

theorem SourceType.isName_cleanupDefinition {t : SourceType} (h : t.isSingleSlot) (hnamed : t.isNamed) :
    Word.isName t.cleanupDefinition.name.toList :=
  Word.isName_append (by decide) (by decide) (all_isNameChar_identifier h hnamed)

namespace AbiTuple

section

variable {types : List SourceType}

/-- The identifier of a tuple is made of name characters, if those of its types are. -/
theorem all_isNameChar_identifier (h : ∀ t ∈ types, t.isSingleSlot) (hnamed : ∀ t ∈ types, t.isNamed) :
    (identifier types).toList.all Word.isNameChar := by
  rw [identifier]
  cases types with
  | nil => decide
  | cons t types =>
    rw [List.map_cons, toList_intercalate_underscore, List.all_append, List.all_flatMap, List.map_map,
      List.all_map, SourceType.all_isNameChar_identifier (h t List.mem_cons_self) (hnamed t List.mem_cons_self),
      Bool.true_and, List.all_eq_true]
    intro t' ht'
    have hrest := SourceType.all_isNameChar_identifier (h t' (List.mem_cons_of_mem _ ht'))
      (hnamed t' (List.mem_cons_of_mem _ ht'))
    exact hrest

theorem exists_of_mem_valueNames {name : String} (h : name ∈ valueNames types) :
    ∃ i : Nat, name = "value" ++ toString i :=
  exists_of_mem_numberedNames h

theorem isName_of_mem_valueNames {name : String} (h : name ∈ valueNames types) : Word.isName name.toList := by
  obtain ⟨i, rfl⟩ := exists_of_mem_valueNames h
  exact Word.isName_append (by decide) (by decide) (Word.all_isNameChar_digits i)

/-- The names in a layout are those it was made with. -/
theorem mem_names_of_mem_layout {names : List String} {offset : Nat} {entry : SourceType × String × Nat}
    (h : entry ∈ layout offset types names) : entry.2.1 ∈ names := by
  induction types generalizing names offset with
  | nil => cases names <;> cases h
  | cons type types ih =>
    cases names with
    | nil => cases h
    | cons name names =>
      rw [layout, List.mem_cons] at h
      obtain rfl | h := h
      · exact List.mem_cons_self
      · exact List.mem_cons_of_mem _ (ih h)

/-- The statement that stores a value is well formed. -/
theorem isWellFormed_storeStmt (h : ∀ t ∈ types, t.isSingleSlot) (hnamed : ∀ t ∈ types, t.isNamed)
    {entry : SourceType × String × Nat} (hentry : entry ∈ layout 0 types (valueNames types)) :
    (storeStmt entry).isWellFormed := by
  have htype := mem_types_of_mem_layout hentry
  have hcleanup := SourceType.isName_cleanupDefinition (h _ htype) (hnamed _ htype)
  have hname := isName_of_mem_valueNames (mem_names_of_mem_layout hentry)
  have hoffset := Word.isNumber_toString entry.2.2
  simp only [storeStmt, Stmt.perform, Expr.apply, Expr.var, Expr.decimal, Expr.number, Literal.number,
    Stmt.isWellFormed, Expr.isCall, Expr.isWellFormed, Expr.allWellFormed, Identifier.isWellFormed,
    Literal.isWellFormed, hcleanup, hname, hoffset]
  decide

/-- The statement that loads a value is well formed. -/
theorem isWellFormed_loadStmt (h : ∀ t ∈ types, t.isSingleSlot) (hnamed : ∀ t ∈ types, t.isNamed)
    {entry : SourceType × String × Nat} (hentry : entry ∈ layout 0 types (valueNames types)) :
    (loadStmt entry).isWellFormed := by
  have htype := mem_types_of_mem_layout hentry
  have hcleanup := SourceType.isName_cleanupDefinition (h _ htype) (hnamed _ htype)
  have hname := isName_of_mem_valueNames (mem_names_of_mem_layout hentry)
  have hoffset := Word.isNumber_toString entry.2.2
  simp only [loadStmt, Stmt.assign, Expr.apply, Expr.var, Expr.decimal, Expr.number, Literal.number,
    Stmt.isWellFormed, Expr.isWellFormed, Expr.allWellFormed, Identifier.isWellFormed, Literal.isWellFormed,
    List.map_cons, List.map_nil, List.isEmpty_cons, List.all_cons, List.all_nil, hcleanup, hname, hoffset]
  decide

/-- Statements made one by one well formed are well formed together. -/
theorem allWellFormed_map {α : Type} {f : α → Stmt} {xs : List α} (h : ∀ x ∈ xs, (f x).isWellFormed) :
    Stmt.allWellFormed (xs.map f) := by
  induction xs with
  | nil => rfl
  | cons x xs ih =>
    rw [List.forall_mem_cons] at h
    rw [List.map_cons, Stmt.allWellFormed, h.1, ih h.2, Bool.and_self]

theorem all_isName_valueNames :
    ((valueNames types).map ({ name := · : Identifier })).all (Word.isName ·.name.toList) := by
  rw [List.all_map, List.all_eq_true]
  intro name hname
  exact isName_of_mem_valueNames hname

/-- The code of an encoder is well formed, if its types are named. -/
theorem isWellFormed_encoder (h : ∀ t ∈ types, t.isSingleSlot) (hnamed : ∀ t ∈ types, t.isNamed) :
    (encoderDefinition types).function.isWellFormed := by
  have hname : Word.isName ("abi_encode_tuple_" ++ identifier types).toList :=
    Word.isName_append (by decide) (by decide) (all_isNameChar_identifier h hnamed)
  have hstores := allWellFormed_map fun entry hentry => isWellFormed_storeStmt h hnamed hentry
  have hsize := Word.isNumber_toString (headSize types)
  simp only [Definition.function, encoderDefinition_name, encoderDefinition_parameters,
    encoderDefinition_returns, encoderDefinition_body, encoderStatements, tailStmt, Stmt.isWellFormed,
    Block.isWellFormed, Stmt.allWellFormed, hname, hstores, List.map_cons, List.map_nil, List.isEmpty_cons,
    List.all_cons, List.all_nil, all_isName_valueNames, Stmt.assign,
    Expr.apply, Expr.var, Expr.decimal, Expr.number, Literal.number, Expr.isWellFormed, Expr.allWellFormed,
    Identifier.isWellFormed, Literal.isWellFormed, hsize]
  decide

/-- The code of a decoder is well formed, if its types are named and its revert function is. -/
theorem isWellFormed_decoder {revert : String} (hrevert : Word.isName revert.toList)
    (h : ∀ t ∈ types, t.isSingleSlot) (hnamed : ∀ t ∈ types, t.isNamed) :
    (decoderDefinition revert types).function.isWellFormed := by
  have hname : Word.isName ("abi_decode_tuple_" ++ identifier types).toList :=
    Word.isName_append (by decide) (by decide) (all_isNameChar_identifier h hnamed)
  have hloads := allWellFormed_map fun entry hentry => isWellFormed_loadStmt h hnamed hentry
  have hsize := Word.isNumber_toString (headSize types)
  simp only [Definition.function, decoderDefinition_name, decoderDefinition_parameters,
    decoderDefinition_returns, decoderDefinition_body, decoderStatements, checkStmt, Stmt.isWellFormed,
    Block.ofList, Block.isWellFormed, Stmt.allWellFormed, hname, hloads, hrevert, List.map_cons, List.map_nil,
    List.all_cons, List.all_nil, all_isName_valueNames, Stmt.perform, Expr.apply, Expr.var, Expr.decimal,
    Expr.number, Literal.number, Expr.isWellFormed, Expr.allWellFormed, Expr.isCall, Identifier.isWellFormed,
    Literal.isWellFormed, hsize]
  decide

theorem isName_tooShortDefinition (reverts : RevertStrings) :
    Word.isName (tooShortDefinition reverts).name.toList :=
  Word.isName_append (by decide) (by decide) (Word.all_isNameChar_ofBytes _)

end

end AbiTuple

/-- Statements of the same text have the same tokens. -/
theorem Stmt.tokens_eq_of_code_eq {s s' : Stmt} (hwf : s.isWellFormed) (hwf' : s'.isWellFormed)
    (h : s.code = s'.code) : s.tokens = s'.tokens := by
  have hreads : ∀ {s : Stmt}, s.isWellFormed → Lexer.Reads s.code.toList s.tokens := by
    intro s hwf
    have hplain := @PrintContext.isPlain_ofStyle .plain rfl
    have hend : Lexer.EndsWord [] := fun c hc => (nomatch hc)
    simpa [code, print] using Stmt.reads hplain 0 Lexer.reads_nil hend hwf
  obtain ⟨lexemes, hlexemes, htokens, -⟩ := hreads hwf 0
  obtain ⟨lexemes', hlexemes', htokens', -⟩ := hreads hwf' 0
  rw [h, hlexemes'] at hlexemes
  cases hlexemes
  rw [← htokens, ← htokens']

/-- The name that a token is. -/
def Token.name? : Token → Option String
  | .identifier name => some name
  | _ => none

/-- Names as cleanup functions have. -/
def isCleanupName (name : String) : Bool := "cleanup_".toList.isPrefixOf name.toList

theorem isCleanupName_append {stem : String}
    (h : ¬ "cleanup_".toList <+: stem.toList ∧ ¬ stem.toList <+: "cleanup_".toList) (rest : String) :
    isCleanupName (stem ++ rest) = false := by
  rw [isCleanupName, Bool.eq_false_iff, ne_eq, List.isPrefixOf_iff_prefix]
  exact not_prefix_append h rest

theorem isCleanupName_cleanupDefinition (t : SourceType) : isCleanupName t.cleanupDefinition.name := by
  rw [isCleanupName, List.isPrefixOf_iff_prefix, SourceType.cleanupDefinition, String.toList_append]
  exact List.prefix_append _ _

/-- The names in the tokens of a list are the names of the list. -/
theorem Identifier.filterMap_listTokens (names : List String) :
    (Identifier.listTokens (names.map ({ name := · }))).filterMap Token.name? = names := by
  induction names with
  | nil => rfl
  | cons name names ih =>
    cases names with
    | nil => rfl
    | cons next names => exact congrArg (name :: ·) ih

namespace AbiTuple

/-- The cleanup functions that tokens name, in order. -/
def cleanupNames (tokens : List Token) : List String := (tokens.filterMap Token.name?).filter isCleanupName

theorem cleanupNames_append (tokens tokens' : List Token) :
    cleanupNames (tokens ++ tokens') = cleanupNames tokens ++ cleanupNames tokens' := by
  rw [cleanupNames, List.filterMap_append, List.filter_append]
  rfl

section

variable {types : List SourceType}

theorem isCleanupName_of_mem_valueNames {name : String} (h : name ∈ valueNames types) :
    isCleanupName name = false := by
  obtain ⟨i, rfl⟩ := exists_of_mem_valueNames h
  exact isCleanupName_append (by decide) _

/-- The statement that stores a value names the cleanup function of its type, once. -/
theorem cleanupNames_storeStmt {entry : SourceType × String × Nat} (h : isCleanupName entry.2.1 = false) :
    cleanupNames (storeStmt entry).tokens = [entry.1.cleanupDefinition.name] := by
  have hnames : (storeStmt entry).tokens.filterMap Token.name? =
      ["mstore", "add", "headStart", entry.1.cleanupDefinition.name, entry.2.1] := rfl
  have hfixed : ["mstore", "add", "headStart"].filter isCleanupName = [] := by decide
  have hsplit : ["mstore", "add", "headStart", entry.1.cleanupDefinition.name, entry.2.1] =
      ["mstore", "add", "headStart"] ++ [entry.1.cleanupDefinition.name] ++ [entry.2.1] := rfl
  rw [cleanupNames, hnames, hsplit, List.filter_append, List.filter_append, hfixed, List.filter_cons,
    if_pos (isCleanupName_cleanupDefinition _), List.filter_cons, h]
  rfl

/-- The statement that loads a value names the cleanup function of its type, once. -/
theorem cleanupNames_loadStmt {entry : SourceType × String × Nat} (h : isCleanupName entry.2.1 = false) :
    cleanupNames (loadStmt entry).tokens = [entry.1.cleanupDefinition.name] := by
  have hnames : (loadStmt entry).tokens.filterMap Token.name? =
      entry.2.1 :: entry.1.cleanupDefinition.name :: ["calldataload", "add", "headStart"] := rfl
  have hfixed : ["calldataload", "add", "headStart"].filter isCleanupName = [] := by decide
  rw [cleanupNames, hnames, List.filter_cons, h, List.filter_cons,
    if_pos (isCleanupName_cleanupDefinition _), hfixed]
  rfl

/-- A statement for each value, each of which calls the cleanup function of the value's type. -/
theorem cleanupNames_layout {f : SourceType × String × Nat → Stmt}
    (hf : ∀ entry, isCleanupName entry.2.1 = false →
      cleanupNames (f entry).tokens = [entry.1.cleanupDefinition.name]) :
    cleanupNames (Stmt.listTokens ((layout 0 types (valueNames types)).map f)) =
      types.map (·.cleanupDefinition.name) := by
  have hnames : ∀ entry ∈ layout 0 types (valueNames types), isCleanupName entry.2.1 = false :=
    fun entry hentry => isCleanupName_of_mem_valueNames (mem_names_of_mem_layout hentry)
  have hlist : ∀ entries : List (SourceType × String × Nat), (∀ entry ∈ entries, isCleanupName entry.2.1 = false) →
      cleanupNames (Stmt.listTokens (entries.map f)) = (entries.map (·.1)).map (·.cleanupDefinition.name) := by
    intro entries h
    induction entries with
    | nil => rfl
    | cons entry entries ih =>
      rw [List.forall_mem_cons] at h
      rw [List.map_cons, Stmt.listTokens, cleanupNames_append, hf entry h.1, ih h.2]
      rfl
  rw [hlist _ hnames, map_fst_layout_valueNames]

/-- No value of a tuple is named like a cleanup function. -/
theorem filter_valueNames (types : List SourceType) : (valueNames types).filter isCleanupName = [] := by
  rw [List.filter_eq_nil_iff]
  intro name hname
  rw [isCleanupName_of_mem_valueNames hname]
  decide

/-- The tokens of a function whose body starts with a fixed statement and ends with one for each value. -/
theorem cleanupNames_function {before middle : List Token} {names : List String} {stores : List Stmt}
    (hbefore : cleanupNames before = []) (hnames : names.filter isCleanupName = [])
    (hmiddle : cleanupNames middle = []) :
    cleanupNames (before ++ (Identifier.listTokens (names.map ({ name := · })) ++
      (middle ++ (Stmt.listTokens stores ++ [.closeBrace])))) = cleanupNames (Stmt.listTokens stores) := by
  have hlist : cleanupNames (Identifier.listTokens (names.map ({ name := · }))) = [] := by
    rw [cleanupNames, Identifier.filterMap_listTokens, hnames]
  have hclose : cleanupNames [.closeBrace] = [] := rfl
  rw [cleanupNames_append, cleanupNames_append, cleanupNames_append, cleanupNames_append, hbefore, hlist, hmiddle,
    hclose, List.nil_append, List.nil_append, List.nil_append, List.append_nil]

/-- An encoder names the cleanup functions of its types, one for each value in order. -/
theorem cleanupNames_encoder (types : List SourceType) :
    cleanupNames (encoderDefinition types).function.tokens = types.map (·.cleanupDefinition.name) := by
  let name := "abi_encode_tuple_" ++ identifier types
  let start : List Token := [.closeParen, .arrow, .identifier "tail", .openBrace, .identifier "tail", .assign,
    .identifier "add", .openParen, .identifier "headStart", .comma, .literal .number (toString (headSize types)),
    .closeParen]
  have htokens : (encoderDefinition types).function.tokens =
      [.keyword .function, .identifier name, .openParen] ++
        (Identifier.listTokens (("headStart" :: valueNames types).map ({ name := · })) ++
          (start ++ (Stmt.listTokens ((layout 0 types (valueNames types)).map storeStmt) ++ [.closeBrace]))) := rfl
  have hname : cleanupNames [.keyword .function, .identifier name, .openParen] = [] := by
    have hfilter : [name].filter isCleanupName = [] := by
      rw [List.filter_cons, isCleanupName_append (by decide)]
      rfl
    exact hfilter
  have hparameters : ("headStart" :: valueNames types).filter isCleanupName = [] := by
    rw [List.filter_cons, filter_valueNames]
    rfl
  rw [htokens, cleanupNames_function hname hparameters rfl, cleanupNames_layout fun _ => cleanupNames_storeStmt]

/-- A decoder names the cleanup functions of its types, one for each value in order. -/
theorem cleanupNames_decoder {revert : String} (hrevert : isCleanupName revert = false)
    (types : List SourceType) :
    cleanupNames (decoderDefinition revert types).function.tokens = types.map (·.cleanupDefinition.name) := by
  let name := "abi_decode_tuple_" ++ identifier types
  let names := (valueNames types).map ({ name := · : Identifier })
  let arrow : List Token := if names.isEmpty then [] else [.arrow]
  let check : List Token := [.openBrace, .keyword .if, .identifier "slt", .openParen, .identifier "sub",
    .openParen, .identifier "dataEnd", .comma, .identifier "headStart", .closeParen, .comma,
    .literal .number (toString (headSize types)), .closeParen, .openBrace, .identifier revert, .openParen,
    .closeParen, .closeBrace]
  have hreturns : Identifier.returnTokens names = arrow ++ Identifier.listTokens names := by
    cases hnames : names with
    | nil => simp [arrow, hnames, Identifier.returnTokens, Identifier.listTokens]
    | cons => simp [arrow, hnames, Identifier.returnTokens]
  have htokens : (decoderDefinition revert types).function.tokens =
      [.keyword .function, .identifier name, .openParen, .identifier "headStart", .comma, .identifier "dataEnd",
        .closeParen] ++ (Identifier.returnTokens names ++
          (check ++ (Stmt.listTokens ((layout 0 types (valueNames types)).map loadStmt) ++ [.closeBrace]))) := rfl
  have hbefore : cleanupNames ([.keyword .function, .identifier name, .openParen, .identifier "headStart", .comma,
      .identifier "dataEnd", .closeParen] ++ arrow) = [] := by
    have harrow : cleanupNames arrow = [] := by
      cases hnames : names <;> simp [arrow, hnames] <;> rfl
    have hfilter : [name, "headStart", "dataEnd"].filter isCleanupName = [] := by
      have hfixed : ["headStart", "dataEnd"].filter isCleanupName = [] := by decide
      rw [List.filter_cons, isCleanupName_append (by decide), hfixed]
      rfl
    rw [cleanupNames_append, harrow, List.append_nil]
    exact hfilter
  have hcheck : cleanupNames check = [] := by
    have hfixed : ["slt", "sub", "dataEnd", "headStart"].filter isCleanupName = [] := by decide
    have hlast : [revert].filter isCleanupName = [] := by rw [List.filter_cons, hrevert]; rfl
    have hsplit : cleanupNames check = (["slt", "sub", "dataEnd", "headStart"] ++ [revert]).filter isCleanupName := rfl
    rw [hsplit, List.filter_append, hfixed, hlast, List.append_nil]
  rw [htokens, hreturns, List.append_assoc, ← List.append_assoc,
    cleanupNames_function hbefore (filter_valueNames types) hcheck, cleanupNames_layout fun _ => cleanupNames_loadStmt]

theorem isCleanupName_tooShortDefinition (reverts : RevertStrings) :
    isCleanupName (tooShortDefinition reverts).name = false :=
  isCleanupName_append (by decide) _

/-- The names of the cleanup functions are the names of the types. -/
theorem map_identifier_eq_of_cleanup {types types' : List SourceType}
    (h : types.map (·.cleanupDefinition.name) = types'.map (·.cleanupDefinition.name)) :
    types.map SourceType.identifier = types'.map SourceType.identifier := by
  have hmap : ∀ types : List SourceType, types.map (·.cleanupDefinition.name) =
      (types.map SourceType.identifier).map ("cleanup_" ++ ·) := by
    intro types
    rw [List.map_map]
    rfl
  rw [hmap, hmap] at h
  exact List.map_injective_iff.2 (fun _ _ => append_right_injective) h

/-- Encoders of the same text are for types of the same names. -/
theorem map_identifier_eq_of_encoder {types types' : List SourceType} (h : ∀ t ∈ types, t.isSingleSlot)
    (h' : ∀ t ∈ types', t.isSingleSlot) (hnamed : ∀ t ∈ types, t.isNamed) (hnamed' : ∀ t ∈ types', t.isNamed)
    (hcode : (encoderDefinition types).code = (encoderDefinition types').code) :
    types.map SourceType.identifier = types'.map SourceType.identifier := by
  have htokens := Stmt.tokens_eq_of_code_eq (isWellFormed_encoder h hnamed) (isWellFormed_encoder h' hnamed') hcode
  refine map_identifier_eq_of_cleanup ?_
  rw [← cleanupNames_encoder, htokens, cleanupNames_encoder]

/-- Decoders of the same text are for types of the same names. -/
theorem map_identifier_eq_of_decoder {types types' : List SourceType} (h : ∀ t ∈ types, t.isSingleSlot)
    (h' : ∀ t ∈ types', t.isSingleSlot) (hnamed : ∀ t ∈ types, t.isNamed) (hnamed' : ∀ t ∈ types', t.isNamed)
    {reverts : RevertStrings} (hcode : (decoderPlan reverts types).main.code = (decoderPlan reverts types').main.code) :
    types.map SourceType.identifier = types'.map SourceType.identifier := by
  have hrevert := isName_tooShortDefinition reverts
  have htokens := Stmt.tokens_eq_of_code_eq (isWellFormed_decoder hrevert h hnamed)
    (isWellFormed_decoder hrevert h' hnamed') hcode
  have hcleanup := isCleanupName_tooShortDefinition reverts
  refine map_identifier_eq_of_cleanup ?_
  rw [← cleanupNames_decoder hcleanup, htokens, cleanupNames_decoder hcleanup]

end

end AbiTuple

end YulBackend
