import Mathlib
import Agenda.Proofs.StateRoundTrip
import Agenda.Wire.Program

/-!
# Programs and expressions are read back

The readers are given a number of levels; a document is read if it nests less deeply. Of the forms that an expression
may have, only the one that it is written in finds all of its fields there.
-/

namespace Agenda

set_option autoImplicit false

/-! ### Nesting -/

namespace Json

theorem levels_lt_of_mem_items {items : List Json} {n : Nat} (h : levelsOfItems items < n) :
    ∀ j ∈ items, j.levels < n := by
  induction items with
  | nil => exact List.forall_mem_nil _
  | cons j rest ih =>
    rw [levelsOfItems, Nat.max_lt] at h
    exact List.forall_mem_cons.mpr ⟨h.1, ih h.2⟩

theorem levels_lt_of_mem_members {members : List (String × Json)} {n : Nat} (h : levelsOfMembers members < n) :
    ∀ m ∈ members, m.2.levels < n := by
  induction members with
  | nil => exact List.forall_mem_nil _
  | cons m rest ih =>
    rw [levelsOfMembers, Nat.max_lt] at h
    exact List.forall_mem_cons.mpr ⟨h.1, ih h.2⟩

/-- A reader with enough levels for an object has enough for the members when one level is taken off. -/
theorem exists_levels_of_object {members : List (String × Json)} {n : Nat} (h : (Json.object members).levels < n) :
    ∃ k, n = k + 1 ∧ ∀ m ∈ members, m.2.levels < k := by
  rw [levels] at h
  obtain ⟨k, rfl⟩ : ∃ k, n = k + 1 := ⟨n - 1, by omega⟩
  exact ⟨k, rfl, levels_lt_of_mem_members (by omega)⟩

theorem exists_levels_of_array {items : List Json} {n : Nat} (h : (Json.array items).levels < n) :
    ∃ k, n = k + 1 ∧ ∀ j ∈ items, j.levels < k := by
  rw [levels] at h
  obtain ⟨k, rfl⟩ : ∃ k, n = k + 1 := ⟨n - 1, by omega⟩
  exact ⟨k, rfl, levels_lt_of_mem_items (by omega)⟩

end Json

/-! ### Expressions -/

namespace Literal

def floats (l : Literal) : List Float := l.toValue.floats

theorem ofJson_toJson (l : Literal) : ofJson l.toJson = some l := by
  cases l <;> rfl

end Literal

namespace Expr

def floats : Expr → List Float
  | .ref _ => []
  | .const literal => literal.floats
  | .op _ left right => left.floats ++ right.floats

theorem faithful_toJson {e : Expr} (h : ∀ x ∈ e.floats, Json.ReadsBack x) : e.toJson.Faithful := by
  induction e with
  | ref path => exact .object (List.forall_mem_singleton.mpr (.string path))
  | const literal => exact .object (List.forall_mem_singleton.mpr (Value.faithful_toJson _ h))
  | op operator left right ihl ihr =>
    obtain ⟨hl, hr⟩ := List.forall_mem_append.mp h
    refine .object ?_
    simp only [List.forall_mem_cons]
    exact ⟨.string _, ihl hl, ihr hr, List.forall_mem_nil _⟩

theorem ofJson_toJson {e : Expr} {n : Nat} (h : e.toJson.levels < n) : ofJson n e.toJson = some e := by
  induction e generalizing n with
  | ref path =>
    obtain ⟨k, rfl, -⟩ := Json.exists_levels_of_object h
    rfl
  | const literal =>
    obtain ⟨k, rfl, -⟩ := Json.exists_levels_of_object h
    have hr : refOfJson (toJson (.const literal)) = none := rfl
    have hc : constOfJson (toJson (.const literal)) = some (.const literal) :=
      congrArg (Option.map Expr.const) literal.ofJson_toJson
    rw [ofJson, hr, hc]
    rfl
  | op operator left right ihl ihr =>
    obtain ⟨k, rfl, hk⟩ := Json.exists_levels_of_object h
    simp only [List.forall_mem_cons] at hk
    obtain ⟨-, hl, hr, -⟩ := hk
    have href : refOfJson (toJson (.op operator left right)) = none := rfl
    have hconst : constOfJson (toJson (.op operator left right)) = none := rfl
    have hf : Json.fields? ["op", "left", "right"] (toJson (.op operator left right)) =
        some [some (.string operator.name), some left.toJson, some right.toJson] := rfl
    rw [ofJson, href, hconst, hf]
    simp only [Option.or_none, Option.none_or, Json.name?, Option.bind_eq_bind, Option.bind_some,
      Operator.ofName?_name, ihl hl, ihr hr]
    rfl

theorem parse_of_parseSound {cs : List Char} {e : Expr} (h : Json.parseSound cs = some e.toJson)
    (hl : e.toJson.levels ≤ Json.maxLevels) : parse cs = some e := by
  rw [parse, h, Option.bind_some]
  exact ofJson_toJson (Nat.lt_succ_of_le hl)

theorem faithful_fieldsToJson {fields : Fields Expr} (h : ∀ x ∈ fields.flatMap (·.2.floats), Json.ReadsBack x) :
    ∀ m ∈ fieldsToJson fields, m.2.Faithful := by
  intro m hm
  obtain ⟨f, hf, rfl⟩ := List.mem_map.mp hm
  exact faithful_toJson fun x hx => h x (List.mem_flatMap.mpr ⟨f, hf, hx⟩)

theorem entriesOfJson_fieldsToJson {fields : Fields Expr} {n : Nat}
    (h : ∀ m ∈ fieldsToJson fields, m.2.levels < n) : entriesOfJson n (fieldsToJson fields) = some fields := by
  induction fields with
  | nil => rfl
  | cons first rest ih =>
    obtain ⟨he, hr⟩ := List.forall_mem_cons.mp h
    have ih := ih hr
    unfold fieldsToJson at ih ⊢
    rw [List.map_cons, entriesOfJson, ofJson_toJson he, ih]
    rfl

end Expr

/-! ### Programs -/

namespace Program

mutual
def floats : Program → List Float
  | .block statements => floatsOfAll statements
  | .branch condition consequent none => condition.floats ++ consequent.floats
  | .branch condition consequent (some alternate) => condition.floats ++ consequent.floats ++ alternate.floats
  | .test condition => condition.floats
  | .call _ args => args.flatMap (·.2.floats)
  | .bind _ init => init.floats
  | .control _ branches => floatsOfAll branches
  | .done => []
  | .blocked => []
termination_by structural p => p

def floatsOfAll : List Program → List Float
  | [] => []
  | p :: rest => p.floats ++ floatsOfAll rest
termination_by structural ps => ps
end

mutual
/-- Whether the arguments of every call in a program are a map: no name comes up twice among them. -/
def wellNamed : Program → Bool
  | .block statements => allWellNamed statements
  | .branch _ consequent none => consequent.wellNamed
  | .branch _ consequent (some alternate) => consequent.wellNamed && alternate.wellNamed
  | .call _ args => decide args.keys.Nodup
  | .bind _ init => init.wellNamed
  | .control _ branches => allWellNamed branches
  | _ => true
termination_by structural p => p

def allWellNamed : List Program → Bool
  | [] => true
  | p :: rest => p.wellNamed && allWellNamed rest
termination_by structural ps => ps
end

mutual
theorem faithful_toJson : ∀ p : Program, (∀ x ∈ p.floats, Json.ReadsBack x) → p.toJson.Faithful
  | .block statements, h => by
    refine .object ?_
    simp only [List.forall_mem_cons]
    exact ⟨.string _, .array (faithful_listToJson statements h), List.forall_mem_nil _⟩
  | .branch condition consequent none, h => by
    obtain ⟨hc, hp⟩ := List.forall_mem_append.mp h
    refine .object ?_
    simp only [List.forall_mem_cons]
    exact ⟨.string _, Expr.faithful_toJson hc, faithful_toJson consequent hp, List.forall_mem_nil _⟩
  | .branch condition consequent (some alternate), h => by
    obtain ⟨h, ha⟩ := List.forall_mem_append.mp h
    obtain ⟨hc, hp⟩ := List.forall_mem_append.mp h
    refine .object ?_
    simp only [List.forall_mem_cons]
    exact ⟨.string _, Expr.faithful_toJson hc, faithful_toJson consequent hp, faithful_toJson alternate ha,
      List.forall_mem_nil _⟩
  | .test condition, h => by
    refine .object ?_
    simp only [List.forall_mem_cons]
    exact ⟨.string _, Expr.faithful_toJson h, List.forall_mem_nil _⟩
  | .call name args, h => by
    refine .object (List.forall_mem_append.mpr ⟨?_, ?_⟩)
    · simp only [List.forall_mem_cons]
      exact ⟨.string _, .string _, List.forall_mem_nil _⟩
    · split
      · exact List.forall_mem_nil _
      · exact List.forall_mem_singleton.mpr (.object (Expr.faithful_fieldsToJson h))
  | .bind var init, h => by
    refine .object ?_
    simp only [List.forall_mem_cons]
    exact ⟨.string _, .string _, faithful_toJson init h, List.forall_mem_nil _⟩
  | .control kind branches, h => by
    refine .object ?_
    simp only [List.forall_mem_cons]
    exact ⟨.string _, .string _, .array (faithful_listToJson branches h), List.forall_mem_nil _⟩
  | .done, _ => .object (List.forall_mem_singleton.mpr (.string _))
  | .blocked, _ => .object (List.forall_mem_singleton.mpr (.string _))

theorem faithful_listToJson : ∀ ps : List Program, (∀ x ∈ floatsOfAll ps, Json.ReadsBack x) →
    ∀ j ∈ listToJson ps, j.Faithful
  | [], _ => List.forall_mem_nil _
  | p :: rest, h =>
    have h := List.forall_mem_append.mp h
    List.forall_mem_cons.mpr ⟨faithful_toJson p h.1, faithful_listToJson rest h.2⟩
end

theorem ofJson_of_node {inner : Bool} {n : Nat} {j : Json} {tag : String} {fields : List (Option Json)}
    (h : node? inner j = some (tag, fields)) :
    ofJson inner (n + 1) j = ofNode n (ofJson true n) (listOfJson n) tag fields := by
  rw [ofJson, h]
  rfl

theorem exists_toJson_eq_object (p : Program) : ∃ members, p.toJson = .object members := by
  cases p with
  | branch condition consequent alternate => cases alternate <;> exact ⟨_, rfl⟩
  | _ => exact ⟨_, rfl⟩

mutual
theorem ofJson_toJson : ∀ (p : Program), p.wellNamed = true → ∀ (inner : Bool) {n : Nat}, p.toJson.levels < n →
    ofJson inner n p.toJson = some p
  | .block statements, hw, inner, n, h => by
    obtain ⟨k, rfl, hk⟩ := Json.exists_levels_of_object h
    simp only [List.forall_mem_cons] at hk
    have hn : node? inner (toJson (.block statements)) = some ("block", [some (.array (listToJson statements))]) := rfl
    rw [ofJson_of_node hn]
    exact congrArg (Option.map Program.block) (listOfJson_listToJson statements hw hk.2.1)
  | .branch condition consequent none, hw, inner, n, h => by
    obtain ⟨k, rfl, hk⟩ := Json.exists_levels_of_object h
    simp only [List.forall_mem_cons] at hk
    obtain ⟨-, hc, hp, -⟩ := hk
    have hn : node? inner (toJson (.branch condition consequent none)) =
        some ("if", [some condition.toJson, some consequent.toJson, none]) := rfl
    rw [ofJson_of_node hn]
    simp only [ofNode, Expr.ofJson_toJson hc, ofJson_toJson consequent hw true hp]
    rfl
  | .branch condition consequent (some alternate), hw, inner, n, h => by
    obtain ⟨k, rfl, hk⟩ := Json.exists_levels_of_object h
    simp only [List.forall_mem_cons] at hk
    obtain ⟨-, hc, hp, ha, -⟩ := hk
    obtain ⟨hwp, hwa⟩ := Bool.and_eq_true_iff.mp hw
    have hn : node? inner (toJson (.branch condition consequent (some alternate))) =
        some ("if", [some condition.toJson, some consequent.toJson, some alternate.toJson]) := rfl
    have hr := ofJson_toJson alternate hwa true ha
    rw [ofJson_of_node hn]
    simp only [ofNode, Expr.ofJson_toJson hc, ofJson_toJson consequent hwp true hp]
    -- an alternate is an object, and so is not mistaken for one that is left out
    obtain ⟨members, hm⟩ := exists_toJson_eq_object alternate
    rw [hm] at hr ⊢
    simp only [hr]
    rfl
  | .test condition, _, inner, n, h => by
    obtain ⟨k, rfl, hk⟩ := Json.exists_levels_of_object h
    simp only [List.forall_mem_cons] at hk
    have hn : node? inner (toJson (.test condition)) = some ("test", [some condition.toJson]) := rfl
    rw [ofJson_of_node hn]
    exact congrArg (Option.map Program.test) (Expr.ofJson_toJson hk.2.1)
  | .call name [], _, inner, n, h => by
    obtain ⟨k, rfl, -⟩ := Json.exists_levels_of_object h
    rfl
  | .call name (first :: rest), hw, inner, n, h => by
    obtain ⟨k, rfl, hk⟩ := Json.exists_levels_of_object h
    have hk := (List.forall_mem_append.mp hk).2 _ List.mem_cons_self
    obtain ⟨l, rfl, hl⟩ := Json.exists_levels_of_object hk
    have hn : node? inner (toJson (.call name (first :: rest))) =
        some ("call", [some (.string name), some (.object (Expr.fieldsToJson (first :: rest)))]) := rfl
    have ha := Expr.entriesOfJson_fieldsToJson (n := l + 1) fun m hm => Nat.lt_succ_of_lt (hl m hm)
    rw [ofJson_of_node hn]
    simp only [ofNode, argsOfJson, ha, Option.map_some, Fields.ofEntries_of_nodup (of_decide_eq_true hw)]
  | .bind var init, hw, inner, n, h => by
    obtain ⟨k, rfl, hk⟩ := Json.exists_levels_of_object h
    simp only [List.forall_mem_cons] at hk
    have hn : node? inner (toJson (.bind var init)) = some ("bind", [some (.string var), some init.toJson]) := rfl
    rw [ofJson_of_node hn]
    exact congrArg (Option.map (Program.bind var)) (ofJson_toJson init hw true hk.2.2.1)
  | .control kind branches, hw, inner, n, h => by
    obtain ⟨k, rfl, hk⟩ := Json.exists_levels_of_object h
    simp only [List.forall_mem_cons] at hk
    have hn : node? inner (toJson (.control kind branches)) =
        some ("control", [some (.string kind.name), some (.array (listToJson branches))]) := rfl
    rw [ofJson_of_node hn]
    simp only [ofNode, Json.name?, Option.bind_some, Control.ofName?_name, listOfJson_listToJson branches hw hk.2.2.1]
    rfl
  | .done, _, inner, n, h => by
    obtain ⟨k, rfl, -⟩ := Json.exists_levels_of_object h
    rfl
  | .blocked, _, inner, n, h => by
    obtain ⟨k, rfl, -⟩ := Json.exists_levels_of_object h
    rfl

theorem listOfJson_listToJson (ps : List Program) (hw : allWellNamed ps = true) {n : Nat}
    (h : (Json.array (listToJson ps)).levels < n) : listOfJson n (.array (listToJson ps)) = some ps := by
  obtain ⟨k, rfl, hk⟩ := Json.exists_levels_of_array h
  rw [listOfJson]
  exact mapM_listToJson ps hw hk

theorem mapM_listToJson : ∀ (ps : List Program), allWellNamed ps = true → ∀ {k : Nat},
    (∀ j ∈ listToJson ps, j.levels < k) → (listToJson ps).mapM (ofJson true k) = some ps
  | [], _, _, _ => rfl
  | p :: rest, hw, k, h => by
    obtain ⟨hwp, hwr⟩ := Bool.and_eq_true_iff.mp hw
    obtain ⟨hp, hr⟩ := List.forall_mem_cons.mp h
    rw [listToJson, List.mapM_cons, ofJson_toJson p hwp true hp, mapM_listToJson rest hwr hr]
    rfl
end

theorem parse_of_parseSound {cs : List Char} {p : Program} (h : Json.parseSound cs = some p.toJson)
    (hw : p.wellNamed = true) (hl : p.toJson.levels ≤ Json.maxLevels) : parse cs = some p := by
  rw [parse, h, Option.bind_some]
  exact ofJson_toJson p hw false (Nat.lt_succ_of_le hl)

/-- Programs of every form and expressions are read back just as they were, the order of arguments, the kinds of numbers
and the presence of an alternate included, from either form of the text that they are written as. Of the printer it is
assumed that the text of each finite number in the program or expression is read as this number. -/
theorem programs_and_expressions_read_back :
    (∀ p : Program, p.wellNamed = true → (∀ x ∈ p.floats, x.isFinite = true) →
      (∀ x ∈ p.floats, x.isFinite = true → Json.ReadsBack x) → p.toJson.levels ≤ Json.maxLevels →
        parse p.toJson.compact.toList = some p ∧ parse p.toJson.pretty.toList = some p) ∧
    ∀ e : Expr, (∀ x ∈ e.floats, x.isFinite = true) → (∀ x ∈ e.floats, x.isFinite = true → Json.ReadsBack x) →
      e.toJson.levels ≤ Json.maxLevels →
        Expr.parse e.toJson.compact.toList = some e ∧ Expr.parse e.toJson.pretty.toList = some e := by
  constructor
  · intro p hw hfin hprint hl
    have hf := faithful_toJson p fun x hx => hprint x hx (hfin x hx)
    constructor
    · exact parse_of_parseSound (hf.parseSound_compact hl) hw hl
    · exact parse_of_parseSound (hf.parseSound_pretty hl) hw hl
  · intro e hfin hprint hl
    have hf := Expr.faithful_toJson fun x hx => hprint x hx (hfin x hx)
    constructor
    · exact Expr.parse_of_parseSound (hf.parseSound_compact hl) hl
    · exact Expr.parse_of_parseSound (hf.parseSound_pretty hl) hl

def heavyLoad : Expr := .op .gt (.ref "load") (.const (.float 1.5))

/-- Branches with and without an alternate, a call without arguments, constants of all kinds and both marks. -/
def delivery : Program :=
  .block
    [.branch heavyLoad (.call "Split" []) (some .done),
      .branch (.const (.bool true)) (.block []) none,
      .control .conc
        [.bind "left" (.call "Move" [("to", .const (.text "a\\b")), ("count", .const (.int 1))]), .blocked],
      .control .plan [.test (.op .eq (.ref "left") (.const .null))]]

theorem programs_and_expressions_read_back_delivery :
    parse delivery.toJson.compact.toList = some delivery ∧ parse delivery.toJson.pretty.toList = some delivery ∧
      Expr.parse heavyLoad.toJson.compact.toList = some heavyLoad := by
  have hfin : ∀ x ∈ [(1.5 : Float)], x.isFinite = true := by decide +kernel
  have hread : ∀ x ∈ [(1.5 : Float)], x.isFinite = true → Json.ReadsBack x :=
    List.forall_mem_singleton.mpr fun _ => Json.readsBack_threeHalves
  obtain ⟨hp, he⟩ := programs_and_expressions_read_back
  obtain ⟨hc, hl⟩ := hp delivery (by decide) hfin hread (by decide)
  exact ⟨hc, hl, (he heavyLoad hfin hread (by decide)).1⟩

end Program

end Agenda
