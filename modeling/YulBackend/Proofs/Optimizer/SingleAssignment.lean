import Mathlib.Data.List.Induction
import YulBackend.Optimizer.SingleAssignment
import YulBackend.Proofs.SortedMap.Lookup
import YulBackend.Proofs.Syntax.Positions

namespace YulBackend

/-- A place in a block where a name gets a value. -/
inductive Site
  /-- A variable with its initialiser. Return variables, and variables declared without a value, have none. -/
  | binding (name : String) (value : Option Expr)
  /-- One of several variables that are declared with a value for all. -/
  | component (name : String)
  | target (name : String)

namespace Site

def name : Site → String
  | binding name _ | component name | target name => name

def binds (x : String) : Site → Bool
  | binding name _ => name == x
  | component _ | target _ => false

def declares (x : String) : Site → Bool
  | binding name _ | component name => name == x
  | target _ => false

def ofDeclaration : List String → Option Expr → List Site
  | [name], value => [binding name value]
  | names, none => names.map (binding · none)
  | names, some _ => names.map component

end Site

mutual

/-- The sites in a statement at any depth, in the order of the text. -/
def Stmt.sites : Stmt → List Site
  | .declaration _ declared value => Site.ofDeclaration (declared.map (·.name)) value
  | .assignment _ targets _ => (targets.map (·.name)).map .target
  | .function _ _ _ returns body => (returns.map (·.name)).map (.binding · none) ++ body.sites
  | .conditional _ _ body => body.sites
  | .switch _ _ cases => Case.allSites cases
  | .loop _ pre _ post body => pre.sites ++ (post.sites ++ body.sites)
  | .block body => body.sites
  | .expression _ | .break _ | .continue _ | .leave _ => []

def Block.sites : Block → List Site
  | ⟨_, statements⟩ => Stmt.allSites statements

def Stmt.allSites : List Stmt → List Site
  | [] => []
  | s :: rest => s.sites ++ Stmt.allSites rest

def Case.allSites : List Case → List Site
  | [] => []
  | ⟨_, _, body⟩ :: rest => body.sites ++ Case.allSites rest

end

namespace SingleAssignment

def see (t : SingleAssignment) : Site → SingleAssignment
  | .binding name value => t.declare value name
  | .component name => t.declareComponent name
  | .target name => t.assign name

/-- Visiting a declaration sees a site for each declared name. -/
theorem visitDeclaration_eq (t : SingleAssignment) (declared : List Identifier) (value : Option Expr) :
    t.visitDeclaration declared value = (Site.ofDeclaration (declared.map (·.name)) value).foldl see t := by
  unfold visitDeclaration
  match declared, value with
  | [_], _ => rfl
  | [], none | [], some _ => rfl
  | _ :: _ :: _, none | _ :: _ :: _, some _ =>
    simp only [List.map_cons, Site.ofDeclaration, List.foldl_cons, List.foldl_map]
    rfl

mutual

/-- Visiting a statement sees its sites in order. The induction is on the statement. -/
theorem visitStmt_eq : ∀ (s : Stmt) (t : SingleAssignment), t.visitStmt s = s.sites.foldl see t
  | .declaration _ declared value, t => by
    rw [visitStmt, Stmt.sites, visitDeclaration_eq]
  | .assignment _ targets _, t => by
    rw [visitStmt, Stmt.sites, List.foldl_map (f := Site.target)]
    rfl
  | .function _ _ _ returns body, t => by
    rw [visitStmt, Stmt.sites, List.foldl_append, List.foldl_map (f := (Site.binding · none)), visitBlock_eq body]
    rfl
  | .conditional _ _ body, t | .block body, t => by
    rw [visitStmt, Stmt.sites, visitBlock_eq body]
  | .switch _ _ cases, t => by
    rw [visitStmt, Stmt.sites, visitCases_eq cases]
  | .loop _ pre _ post body, t => by
    rw [visitStmt, Stmt.sites, List.foldl_append, List.foldl_append, visitBlock_eq pre, visitBlock_eq post,
      visitBlock_eq body]
  | .expression _, t | .break _, t | .continue _, t | .leave _, t => by
    rw [visitStmt, Stmt.sites, List.foldl_nil]

theorem visitBlock_eq : ∀ (b : Block) (t : SingleAssignment), t.visitBlock b = b.sites.foldl see t
  | ⟨_, statements⟩, t => visitStmts_eq statements t

theorem visitStmts_eq : ∀ (statements : List Stmt) (t : SingleAssignment),
    t.visitStmts statements = (Stmt.allSites statements).foldl see t
  | [], t => rfl
  | s :: rest, t => by
    rw [visitStmts, Stmt.allSites, List.foldl_append, visitStmt_eq s, visitStmts_eq rest]

theorem visitCases_eq : ∀ (cases : List Case) (t : SingleAssignment),
    t.visitCases cases = (Case.allSites cases).foldl see t
  | [], t => rfl
  | ⟨_, _, body⟩ :: rest, t => by
    rw [visitCases, Case.allSites, List.foldl_append, visitBlock_eq body, visitCases_eq rest]

end

/-- What has been found so far about a name that these sites are about. -/
inductive Reflects (t : SingleAssignment) (x : String) (sites : List Site) : Prop
  | untouched (hassigned : x ∉ t.assigned) (htwice : x ∉ t.declaredTwice) (hget : t.values.get? x = none)
      (hsites : sites = [])
  | tracked (value : Option Expr) (hassigned : x ∉ t.assigned) (htwice : x ∉ t.declaredTwice)
      (hget : t.values.get? x = some value) (hsites : sites = [.binding x value])
  | dropped (hmem : x ∈ t.assigned ∨ x ∈ t.declaredTwice) (hget : t.values.get? x = none)
      (hne : sites ≠ []) (hbinding : ∀ value, sites ≠ [.binding x value])

namespace Reflects

variable {t : SingleAssignment} {x : String} {sites : List Site}

/-- A table that reflects the sites of a name tracks it exactly when its only site binds it. -/
theorem get?_eq_some_iff (h : t.Reflects x sites) {value : Option Expr} :
    t.values.get? x = some value ↔ sites = [.binding x value] := by
  cases h with
  | untouched _ _ hget hsites => simp [hget, hsites]
  | tracked _ _ _ hget hsites => simp [hget, hsites]
  | dropped _ hget _ hbinding => simp [hget, hbinding value]

/-- Whether a table reflects the sites of a name depends only on what it says of that name. -/
theorem congr (h : t.Reflects x sites) {t' : SingleAssignment} (hassigned : x ∈ t'.assigned ↔ x ∈ t.assigned)
    (htwice : x ∈ t'.declaredTwice ↔ x ∈ t.declaredTwice) (hget : t'.values.get? x = t.values.get? x) :
    t'.Reflects x sites := by
  cases h with
  | untouched ha ht hg hs => exact .untouched (by rwa [hassigned]) (by rwa [htwice]) (by rwa [hget]) hs
  | tracked value ha ht hg hs =>
    exact .tracked value (by rwa [hassigned]) (by rwa [htwice]) (by rwa [hget]) hs
  | dropped hm hg hn hb => exact .dropped (by rwa [hassigned, htwice]) (by rwa [hget]) hn hb

/-- A site about another name tells nothing. -/
theorem see_of_ne (h : t.Reflects x sites) {site : Site} (hne : x ≠ site.name) :
    (t.see site).Reflects x sites := by
  cases site with
  | binding y value =>
    rw [see, declare]
    split
    · exact h
    split
    · exact h.congr .rfl (List.mem_cons.trans (or_iff_right hne))
        ((SortedMap.get?_erase ..).trans (if_neg hne))
    · exact h.congr .rfl .rfl ((SortedMap.get?_insert ..).trans (if_neg hne))
  | component y =>
    exact h.congr .rfl (List.mem_cons.trans (or_iff_right hne)) ((SortedMap.get?_erase ..).trans (if_neg hne))
  | target y =>
    exact h.congr (List.mem_cons.trans (or_iff_right hne)) .rfl ((SortedMap.get?_erase ..).trans (if_neg hne))

/-- Declaring a name with a value is reflected by the table: a first such site tracks the name, a second takes it
out. -/
theorem declare (h : t.Reflects x sites) (value : Option Expr) :
    (t.declare value x).Reflects x (sites ++ [.binding x value]) := by
  rw [SingleAssignment.declare]
  cases h with
  | untouched hassigned htwice hget hsites =>
    have hnew : t.values.contains x = false := by rw [SortedMap.contains, hget, Option.isSome_none]
    rw [if_neg (by simp [hassigned, htwice]), if_neg (by simp [hnew])]
    exact .tracked value hassigned htwice ((SortedMap.get?_insert ..).trans (if_pos rfl)) (by rw [hsites]; rfl)
  | tracked first hassigned htwice hget hsites =>
    have hold : t.values.contains x := by rw [SortedMap.contains, hget, Option.isSome_some]
    rw [if_neg (by simp [hassigned, htwice]), if_pos hold]
    refine .dropped (.inr List.mem_cons_self) ((SortedMap.get?_erase ..).trans (if_pos rfl)) ?_ ?_ <;>
      simp [hsites]
  | dropped hmem hget hne hbinding =>
    rw [if_pos (by simpa using hmem)]
    exact .dropped hmem hget (by simp) fun value => by simp [List.append_eq_singleton_iff, hne]

/-- Seeing a site of a name is reflected by what the table says of it. -/
theorem see_self (h : t.Reflects x sites) {site : Site} (hname : site.name = x) :
    (t.see site).Reflects x (sites ++ [site]) := by
  subst hname
  cases site with
  | binding x value => exact h.declare value
  | component x =>
    exact .dropped (.inr List.mem_cons_self) ((SortedMap.get?_erase ..).trans (if_pos rfl)) (by simp)
      (by simp [List.append_eq_singleton_iff])
  | target x =>
    exact .dropped (.inl List.mem_cons_self) ((SortedMap.get?_erase ..).trans (if_pos rfl)) (by simp)
      (by simp [List.append_eq_singleton_iff])

end Reflects

/-- Of the sites that were seen, those about a name decide, whatever stands between them. -/
theorem reflects_foldl_see (sites : List Site) (x : String) :
    Reflects (sites.foldl see {}) x (sites.filter (·.name == x)) := by
  induction sites using List.reverseRecOn with
  | nil => exact .untouched List.not_mem_nil List.not_mem_nil rfl rfl
  | append_singleton sites site ih =>
    rw [List.foldl_append, List.foldl_cons, List.foldl_nil, List.filter_append, List.filter_cons, List.filter_nil]
    by_cases hname : site.name = x
    · rw [if_pos (by simpa using hname)]
      exact ih.see_self hname
    · rw [if_neg (by simpa using hname), List.append_nil]
      exact ih.see_of_ne (Ne.symm hname)

/-- After all sites were seen a name is tracked exactly when the only one about it binds it. -/
theorem get?_foldl_see {sites : List Site} {x : String} {value : Option Expr} :
    (sites.foldl see {}).values.get? x = some value ↔ sites.filter (·.name == x) = [.binding x value] :=
  (reflects_foldl_see sites x).get?_eq_some_iff

/-- The order of the sites does not matter. -/
theorem values_foldl_see_of_perm {sites sites' : List Site} (h : sites.Perm sites') :
    (sites.foldl see {}).values = (sites'.foldl see {}).values := by
  refine SortedMap.ext_get? fun x => Option.ext fun value => ?_
  have hperm := h.filter (·.name == x)
  rw [get?_foldl_see, get?_foldl_see]
  constructor <;> intro hsingle <;> rw [hsingle] at hperm
  · exact List.perm_singleton.1 hperm.symm
  · exact List.perm_singleton.1 hperm

end SingleAssignment

namespace Site

/-- A name that is bound somewhere has a site with the value it is bound to. -/
theorem exists_binding_mem {sites : List Site} {x : String} (h : 0 < sites.countP (·.binds x)) :
    ∃ value, .binding x value ∈ sites := by
  obtain ⟨site, hmem, hbinds⟩ := List.countP_pos_iff.1 h
  cases site with
  | binding y value => exact ⟨value, eq_of_beq hbinds ▸ hmem⟩
  | component y | target y => cases hbinds

/-- One site about a name, which binds it: it is bound once, and is neither a component nor a target. -/
theorem filter_eq_singleton_iff {sites : List Site} {x : String} {value : Option Expr} :
    sites.filter (·.name == x) = [.binding x value] ↔
      sites.countP (·.binds x) = 1 ∧ .component x ∉ sites ∧ .target x ∉ sites ∧ .binding x value ∈ sites := by
  have hmem : ∀ site, site ∈ sites.filter (·.name == x) ↔ site ∈ sites ∧ site.name = x := by simp
  have hcount : sites.countP (·.binds x) = (sites.filter (·.name == x)).countP (·.binds x) := by
    rw [List.countP_filter]
    refine List.countP_congr fun site _ => ?_
    cases site <;> simp [binds, name]
  constructor
  · intro hfilter
    rw [hcount, hfilter]
    refine ⟨by simp [binds], fun hcomponent => ?_, fun htarget => ?_, ?_⟩
    · have := (hmem _).2 ⟨hcomponent, rfl⟩
      simp [hfilter] at this
    · have := (hmem _).2 ⟨htarget, rfl⟩
      simp [hfilter] at this
    · exact ((hmem _).1 (hfilter ▸ List.mem_singleton_self _)).1
  · rintro ⟨hone, hcomponent, htarget, hbinding⟩
    have hbinds : ∀ site ∈ sites.filter (·.name == x), site.binds x := by
      intro site hsite
      obtain ⟨hfound, rfl⟩ := (hmem site).1 hsite
      cases site with
      | binding y value => exact beq_self_eq_true y
      | component y => exact absurd hfound hcomponent
      | target y => exact absurd hfound htarget
    rw [hcount, List.countP_eq_length.2 hbinds] at hone
    obtain ⟨site, hsingle⟩ := List.length_eq_one_iff.1 hone
    have hvalue := (hmem _).2 ⟨hbinding, rfl⟩
    rw [hsingle, List.mem_singleton] at hvalue
    rw [hsingle, hvalue]

end Site

theorem Block.singleAssignmentValues_eq (b : Block) :
    b.singleAssignmentValues = (b.sites.foldl SingleAssignment.see {}).values := by
  rw [singleAssignmentValues, SingleAssignment.visitBlock_eq]

/-- A name is tracked with a value exactly when one site binds it, with that value, and none declares it among several
or assigns it. -/
theorem Block.get?_singleAssignmentValues_eq_some {b : Block} {x : String} {value : Option Expr} :
    b.singleAssignmentValues.get? x = some value ↔
      b.sites.countP (·.binds x) = 1 ∧ .component x ∉ b.sites ∧ .target x ∉ b.sites ∧
        .binding x value ∈ b.sites := by
  rw [singleAssignmentValues_eq, SingleAssignment.get?_foldl_see, Site.filter_eq_singleton_iff]

/-- A name is tracked exactly when one site binds it and none declares it among several or assigns it. -/
theorem Block.contains_singleAssignmentValues {b : Block} {x : String} :
    b.singleAssignmentValues.contains x ↔
      b.sites.countP (·.binds x) = 1 ∧ .component x ∉ b.sites ∧ .target x ∉ b.sites := by
  rw [SortedMap.contains, Option.isSome_iff_exists]
  simp only [get?_singleAssignmentValues_eq_some]
  constructor
  · rintro ⟨value, hone, hcomponent, htarget, -⟩
    exact ⟨hone, hcomponent, htarget⟩
  · rintro ⟨hone, hcomponent, htarget⟩
    obtain ⟨value, hbinding⟩ := Site.exists_binding_mem (Nat.lt_of_lt_of_eq Nat.zero_lt_one hone.symm)
    exact ⟨value, hone, hcomponent, htarget, hbinding⟩

/-- `singleAssignmentValues` tracks a name if and only if it is bound once, is no component of several, and is never
assigned. It has the value of its binding then, and the order in which the walk sees sites does not matter. -/
theorem Block.get?_singleAssignmentValues (b : Block) :
    (∀ x, x ∈ b.singleAssignmentValues.keys ↔
      b.sites.countP (·.binds x) = 1 ∧ .component x ∉ b.sites ∧ .target x ∉ b.sites) ∧
    (∀ x value, b.singleAssignmentValues.get? x = some value ↔
      x ∈ b.singleAssignmentValues.keys ∧ .binding x value ∈ b.sites) ∧
    ∀ sites : List Site, sites.Perm b.sites →
      (sites.foldl SingleAssignment.see {}).values = b.singleAssignmentValues := by
  refine ⟨fun x => ?_, fun x value => ?_, fun sites hperm => ?_⟩
  · rw [SortedMap.mem_keys_iff, contains_singleAssignmentValues]
  · rw [SortedMap.mem_keys_iff, contains_singleAssignmentValues, get?_singleAssignmentValues_eq_some,
      and_assoc, and_assoc]
  · rw [singleAssignmentValues_eq]
    exact SingleAssignment.values_foldl_see_of_perm hperm

mutual

/-- Every name that a statement assigns has a site as a target in it. -/
theorem Stmt.target_mem_sites {x : String} : ∀ {s : Stmt}, x ∈ s.assignedNames → .target x ∈ s.sites
  | .declaration _ declared value, h => by
    rw [Stmt.assignedNames] at h
    exact (List.not_mem_nil h).elim
  | .assignment _ targets _, h => by
    rw [Stmt.assignedNames] at h
    rw [Stmt.sites]
    exact List.mem_map_of_mem h
  | .function _ _ _ returns body, h => by
    rw [Stmt.assignedNames] at h
    rw [Stmt.sites]
    exact List.mem_append_right _ (Block.target_mem_sites h)
  | .conditional _ _ body, h | .block body, h => by
    rw [Stmt.assignedNames] at h
    rw [Stmt.sites]
    exact Block.target_mem_sites h
  | .switch _ _ cases, h => by
    rw [Stmt.assignedNames] at h
    rw [Stmt.sites]
    exact Case.target_mem_allSites h
  | .loop _ pre _ post body, h => by
    rw [Stmt.assignedNames, List.mem_append, List.mem_append] at h
    rw [Stmt.sites, List.mem_append, List.mem_append]
    rcases h with h | h | h
    · exact .inl (Block.target_mem_sites h)
    · exact .inr (.inr (Block.target_mem_sites h))
    · exact .inr (.inl (Block.target_mem_sites h))
  | .expression _, h | .break _, h | .continue _, h | .leave _, h => by
    rw [Stmt.assignedNames] at h
    exact (List.not_mem_nil h).elim

theorem Block.target_mem_sites {x : String} : ∀ {b : Block}, x ∈ b.assignedNames → .target x ∈ b.sites
  | ⟨_, _⟩, h => Stmt.target_mem_allSites h

/-- Every name that statements assign has a site as a target in them. -/
theorem Stmt.target_mem_allSites {x : String} : ∀ {statements : List Stmt},
    x ∈ Stmt.allAssignedNames statements → .target x ∈ Stmt.allSites statements
  | [], h => (List.not_mem_nil h).elim
  | s :: rest, h => by
    rw [Stmt.allAssignedNames, List.mem_append] at h
    rw [Stmt.allSites, List.mem_append]
    exact h.imp Stmt.target_mem_sites Stmt.target_mem_allSites

/-- Every name that cases assign has a site as a target in them. -/
theorem Case.target_mem_allSites {x : String} : ∀ {cases : List Case},
    x ∈ Case.allAssignedNames cases → .target x ∈ Case.allSites cases
  | [], h => (List.not_mem_nil h).elim
  | ⟨_, _, body⟩ :: rest, h => by
    rw [Case.allAssignedNames, List.mem_append] at h
    rw [Case.allSites, List.mem_append]
    exact h.imp Block.target_mem_sites Case.target_mem_allSites

end

/-- The names that a statement declares, as far as they are counted: not the parameters of a function. -/
def Stmt.countedNames : Stmt → List String
  | .declaration _ declared _ => declared.map (·.name)
  | .function _ _ _ returns _ => returns.map (·.name)
  | _ => []

def Event.countedNames : Event → List String
  | .enter _ s => s.countedNames
  | .exit _ _ => []

namespace Event

/-- How often a name is declared. -/
def declarations (x : String) (events : List Event) : Nat := (events.flatMap Event.countedNames).count x

section

variable {x : String} {events : List Event}

theorem declarations_append (events' : List Event) :
    declarations x (events ++ events') = declarations x events + declarations x events' := by
  rw [declarations, List.flatMap_append, List.count_append]
  rfl

theorem declarations_cons (event : Event) :
    declarations x (event :: events) = event.countedNames.count x + declarations x events := by
  rw [declarations, List.flatMap_cons, List.count_append]
  rfl

theorem declarations_pos {event : Event} (h : event ∈ events) (hx : x ∈ event.countedNames) :
    0 < declarations x events :=
  List.count_pos_iff.2 (List.mem_flatMap.2 ⟨event, h, hx⟩)

/-- A name declared at most once is counted at one event only. -/
theorem eq_of_declarations_le_one (hcount : declarations x events ≤ 1) {event event' : Event}
    (h : event ∈ events) (h' : event' ∈ events) (hx : x ∈ event.countedNames)
    (hx' : x ∈ event'.countedNames) : event = event' := by
  induction events with
  | nil => cases h
  | cons first rest ih =>
    rw [declarations_cons] at hcount
    rcases List.mem_cons.1 h with rfl | hrest <;> rcases List.mem_cons.1 h' with rfl | hrest'
    · rfl
    · have hfirst := List.count_pos_iff.2 hx
      have hpos := declarations_pos hrest' hx'
      omega
    · have hfirst := List.count_pos_iff.2 hx'
      have hpos := declarations_pos hrest hx
      omega
    · exact ih (by omega) hrest hrest'

end

end Event

/-- A declaration has a site for a name as often as it lists it. -/
theorem Site.countP_declares_ofDeclaration (x : String) (names : List String) (value : Option Expr) :
    (Site.ofDeclaration names value).countP (·.declares x) = names.count x := by
  unfold Site.ofDeclaration
  split
  next => rfl
  next => exact List.countP_map
  next => exact List.countP_map

mutual

/-- A statement's sites declare a name as often as its events do. -/
theorem Stmt.countP_declares (x : String) : ∀ (s : Stmt) (p : Position),
    s.sites.countP (·.declares x) = s.countedNames.count x + Event.declarations x (s.innerEvents p)
  | .declaration _ declared value, p => Site.countP_declares_ofDeclaration x _ value
  | .assignment _ targets _, p => by
    rw [Stmt.sites, List.countP_map]
    exact List.countP_eq_zero.2 fun _ _ => Bool.false_ne_true
  | .function _ _ _ returns body, p => by
    rw [Stmt.sites, List.countP_append, List.countP_map, Block.countP_declares x body (p.inside 0)]
    rfl
  | .conditional _ _ body, p | .block body, p =>
    (Block.countP_declares x body (p.inside 0)).trans (Nat.zero_add _).symm
  | .switch _ _ cases, p =>
    (Case.countP_declares_allSites x cases p 0).trans (Nat.zero_add _).symm
  | .loop _ pre _ post body, p => by
    refine Eq.trans ?_ (Nat.zero_add _).symm
    rw [Stmt.sites, List.countP_append, List.countP_append, Block.countP_declares x pre (p.inside 0),
      Block.countP_declares x post (p.inside 2), Block.countP_declares x body (p.inside 1), Stmt.innerEvents,
      Event.declarations_append, Event.declarations_append, Nat.add_comm (Event.declarations x (body.events _))]
  | .expression _, p | .break _, p | .continue _, p | .leave _, p => rfl

theorem Block.countP_declares (x : String) : ∀ (b : Block) (path : Path),
    b.sites.countP (·.declares x) = Event.declarations x (b.events path)
  | ⟨_, statements⟩, path => Stmt.countP_declares_allSites x statements path 0

/-- The sites of statements declare a name as often as their events do. -/
theorem Stmt.countP_declares_allSites (x : String) : ∀ (statements : List Stmt) (path : Path) (index : Nat),
    (Stmt.allSites statements).countP (·.declares x) =
      Event.declarations x (Stmt.allEvents path index statements)
  | [], _, _ => rfl
  | s :: rest, path, index => by
    rw [Stmt.allSites, List.countP_append, Stmt.countP_declares x s ⟨path, index⟩,
      Stmt.countP_declares_allSites x rest path (index + 1), Stmt.allEvents, List.cons_append,
      Event.declarations_cons, Event.declarations_append, Event.declarations_cons, Nat.add_assoc]
    rw [Event.countedNames, Event.countedNames, List.count_nil, Nat.zero_add]

/-- The sites of cases declare a name as often as their events do. -/
theorem Case.countP_declares_allSites (x : String) : ∀ (cases : List Case) (p : Position) (block : Nat),
    (Case.allSites cases).countP (·.declares x) = Event.declarations x (Case.allEvents p block cases)
  | [], _, _ => rfl
  | ⟨_, _, body⟩ :: rest, p, block => by
    rw [Case.allSites, List.countP_append, Block.countP_declares x body (p.inside block),
      Case.countP_declares_allSites x rest p (block + 1), Case.allEvents, Event.declarations_append]

end

/-- An assigned variable has no single-assignment value. -/
theorem Block.contains_singleAssignmentValues_of_mem {block : Block} {x : String}
    (h : x ∈ block.assignedNames) : block.singleAssignmentValues.contains x = false :=
  Bool.eq_false_iff.2 fun hcontains =>
    (contains_singleAssignmentValues.1 hcontains).2.2 (Block.target_mem_sites h)

/-- A tracked name is declared by one statement only, and is the return variable of no function then. -/
theorem Block.eq_of_contains_singleAssignmentValues {block : Block} {x : String}
    (h : block.singleAssignmentValues.contains x) {event event' : Event} (hevent : event ∈ block.events [])
    (hevent' : event' ∈ block.events []) (hx : x ∈ event.countedNames) (hx' : x ∈ event'.countedNames) :
    event = event' := by
  refine Event.eq_of_declarations_le_one ?_ hevent hevent' hx hx'
  obtain ⟨hone, hcomponent, _⟩ := contains_singleAssignmentValues.1 h
  rw [← Block.countP_declares x block [], ← hone]
  refine List.countP_mono_left fun site hsite hdeclares => ?_
  cases site with
  | binding y value => exact hdeclares
  | component y => exact absurd (eq_of_beq hdeclares ▸ hsite) hcomponent
  | target y => cases hdeclares

end YulBackend
