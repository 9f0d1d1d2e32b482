import Mathlib
import Agenda.Proofs.FailureReports
import Agenda.Proofs.Footprint

/-!
# References to facts

A reference that begins with `state` leads past the variables to a fact. So an expression with no other references has
the same value under all variables, and nothing that a program binds makes a difference to it. There is one variable
that does: a variable named `state` is found first, and all of these references then lead into it.
-/

namespace Agenda

set_option autoImplicit false

namespace Path

/-- The path is `state`, the name of a fact after a point, and possibly a path into the fact after another point. -/
structure ToFact (path key rest : String) : Prop where
  path_eq : path = "state." ++ (key ++ rest)
  key_ne : key ≠ ""
  undivided : '.' ∉ key.toList
  rest_cases : rest = "" ∨ ∃ inner, rest = "." ++ inner

theorem segments_of_notMem {cs : List Char} (h : '.' ∉ cs) : segments cs = [cs] := by
  induction cs with
  | nil => rfl
  | cons c rest ih =>
    obtain ⟨hc, hr⟩ := not_or.mp (mt List.mem_cons.mpr h)
    rw [segments, if_neg (Ne.symm hc), ih hr]

theorem segments_append_point {cs : List Char} (h : '.' ∉ cs) (rest : List Char) :
    segments (cs ++ '.' :: rest) = cs :: segments rest := by
  induction cs with
  | nil => rfl
  | cons c cs ih =>
    obtain ⟨hc, hr⟩ := not_or.mp (mt List.mem_cons.mpr h)
    rw [List.cons_append, segments, if_neg (Ne.symm hc), ih hr]

theorem parts_of_notMem {name : String} (h : '.' ∉ name.toList) : parts name = [name] := by
  rw [parts, segments_of_notMem h, List.map_singleton, String.ofList_toList]

theorem parts_append_point {name : String} (h : '.' ∉ name.toList) (rest : String) :
    parts (name ++ ("." ++ rest)) = name :: parts rest := by
  have hp : (name ++ ("." ++ rest)).toList = name.toList ++ '.' :: rest.toList := by
    rw [String.toList_append, String.toList_append]
    rfl
  rw [parts, hp, segments_append_point h, List.map_cons, String.ofList_toList, parts]

theorem follow_empty (names : List String) (v : Value) : follow ("" :: names) v = follow names v := by
  conv_lhs => unfold follow
  exact if_pos rfl

theorem follow_null (names : List String) : follow names .null = .null := by
  induction names with
  | nil => rfl
  | cons name rest ih =>
    unfold follow
    split
    · exact ih
    · rfl

theorem resolveIn_eq (fields : Fields Value) (name : String) (rest : List String) :
    resolveIn fields name rest = follow rest ((fields.get? name).getD .null) := by
  rw [resolveIn]
  cases fields.get? name with
  | none => exact (follow_null rest).symm
  | some v => rfl

theorem resolve_state (s : State) {key : String} (h : key ≠ "") (rest : List String) :
    resolve s ("state" :: key :: rest) =
      match s.var? "state" with
      | some v => follow (key :: rest) v
      | none => follow rest ((s.fact? key).getD .null) := by
  rw [resolve, ← State.var?]
  cases s.var? "state" with
  | some v => rfl
  | none =>
    -- `state.` with nothing after the point would be a fact of the name `state`
    have hn : key :: rest ≠ [""] := fun he => h (List.cons.inj he).1
    exact (if_pos ⟨rfl, hn⟩).trans (resolveIn_eq s.facts key rest)

namespace ToFact

variable {path key rest : String} {s t : State}

/-- The parts of the rest lead where the parts after the name lead: a point in front only adds a name that is empty. -/
theorem parts_eq (h : ToFact path key rest) :
    ∃ names, parts path = "state" :: key :: names ∧ ∀ v, follow names v = follow (parts rest) v := by
  have hs : '.' ∉ "state".toList := by decide
  have hp : parts path = "state" :: parts (key ++ rest) := by
    rw [h.path_eq]
    exact parts_append_point hs _
  rw [hp]
  obtain rfl | ⟨inner, rfl⟩ := h.rest_cases
  · refine ⟨[], ?_, fun v => rfl⟩
    rw [String.append_empty, parts_of_notMem h.undivided]
  · refine ⟨parts inner, ?_, fun v => ?_⟩
    · rw [parts_append_point h.undivided]
    · rw [← String.empty_append (s := "." ++ inner), parts_append_point (by decide), follow_empty]

theorem resolve_eq (h : ToFact path key rest) (hs : s.var? "state" = none) :
    resolve s (parts path) = follow (parts rest) ((s.fact? key).getD .null) := by
  obtain ⟨names, hp, hf⟩ := h.parts_eq
  rw [hp, resolve_state s h.key_ne, hs]
  exact hf _

theorem resolve_congr (h : ToFact path key rest) (hv : s.var? "state" = t.var? "state")
    (hf : s.var? "state" = none → ∀ name, s.fact? name = t.fact? name) :
    resolve s (parts path) = resolve t (parts path) := by
  obtain ⟨names, hp, -⟩ := h.parts_eq
  rw [hp, resolve_state s h.key_ne, resolve_state t h.key_ne, ← hv]
  cases hs : s.var? "state" with
  | some v => rfl
  | none => rw [hf hs key]

end ToFact

end Path

namespace Expr

def references : Expr → List String
  | .ref path => [path]
  | .const _ => []
  | .op _ left right => left.references ++ right.references

theorem eval_congr {e : Expr} {s t : State}
    (h : ∀ path ∈ e.references, Path.resolve s (Path.parts path) = Path.resolve t (Path.parts path)) :
    e.eval s = e.eval t := by
  induction e with
  | ref path => exact congrArg Except.ok (h path List.mem_cons_self)
  | const literal => rfl
  | op o left right ihl ihr =>
    obtain ⟨hl, hr⟩ := List.forall_mem_append.mp h
    rw [eval, ihl hl, ihr hr, eval]

def ReadsFacts (e : Expr) : Prop := ∀ path ∈ e.references, ∃ key rest, Path.ToFact path key rest

theorem ReadsFacts.eval_eq {e : Expr} (h : e.ReadsFacts) {s t : State} (hv : s.var? "state" = t.var? "state")
    (hf : s.var? "state" = none → ∀ key, s.fact? key = t.fact? key) : e.eval s = e.eval t := by
  refine eval_congr fun path hp => ?_
  obtain ⟨key, rest, hr⟩ := h path hp
  exact hr.resolve_congr hv hf

end Expr

namespace Program

theorem Reaches.licensed {c : Setting} {l : Licence c.domain} {p q : Program} {s s' : State} {σ τ : World}
    {updates : List Update} (h : Reaches c p s σ q s' τ updates) (hp : p.Licensed l) : ∀ u ∈ updates, l.admits u := by
  induction h with
  | refl p s σ => exact List.forall_mem_nil _
  | step _ ht hc _ ih =>
    obtain ⟨hu, hq⟩ := (resolves_transition (congrArg Prod.fst ht)).licensed hp
    exact List.forall_mem_append.mpr ⟨hu, ih (hq _ hc)⟩

/-- Wherever a run comes to, a variable that its program does not bind is as it was. -/
theorem Reaches.var_eq {latency : Nat} {roads : RoadMap} {limit : Option Nat} {budget : Budget} {p q : Program}
    {s s' : State} {σ τ : World} {updates : List Update}
    (h : Reaches ⟨Domain.standard latency roads, limit, budget⟩ p s σ q s' τ updates) {var : String}
    (hb : p.binds var = false) : s'.var? var = s.var? var := by
  have hl : p.Licensed (Licence.standard latency roads {} fun name => p.binds name = true) :=
    ⟨keepsTo_anything p, fun name hn value t => t.changes_bindVar hn value⟩
  have hc := State.changes_applyAll (h.licensed (c := ⟨Domain.standard latency roads, limit, budget⟩) hl) s
  rw [h.replays] at hc
  exact hc.var var (Bool.eq_false_iff.mp hb)

end Program

namespace Expr

/-- As long as no variable is named `state`, every reference to a fact has the fact as its value, or what the rest of
the path leads to in it. An expression with such references only has the same value, or the same failure, in all states
that have the same facts and agree on the variable `state`. If that is bound, then the facts do not count, for the
references lead into the variable. So a binding of any other variable changes nothing, and neither does a run of a
program without a binding of `state`: between its transitions and at its end the value is the one under the variables
from before the run. -/
theorem fact_references_read_facts {e : Expr} (he : e.ReadsFacts) :
    (∀ path ∈ e.references, ∃ key rest, Path.ToFact path key rest ∧
      ∀ s : State, s.var? "state" = none →
        (ref path).eval s = .ok (Path.follow (Path.parts rest) ((s.fact? key).getD .null))) ∧
    (∀ s t : State, (∀ key, s.fact? key = t.fact? key) → s.var? "state" = t.var? "state" → e.eval s = e.eval t) ∧
    (∀ (s t : State) (v : Value), s.var? "state" = some v → t.var? "state" = some v → e.eval s = e.eval t) ∧
    (∀ (s : State) (name : String) (v : Value), name ≠ "state" → e.eval (s.bindVar name v) = e.eval s) ∧
    (∀ (latency : Nat) (roads : RoadMap) (limit : Option Nat) (budget : Budget) (p : Program) (s s' : State),
      p.binds "state" = false →
      (p.run ⟨Domain.standard latency roads, limit, budget⟩ s).result = .ok s' ∨
        (∃ q τ updates,
          p.Reaches ⟨Domain.standard latency roads, limit, budget⟩ s { allowance := budget } q s' τ updates) →
      e.eval s' = e.eval { s' with vars := s.vars }) := by
  refine ⟨?_, ?_, ?_, ?_, ?_⟩
  · intro path hp
    obtain ⟨key, rest, hr⟩ := he path hp
    exact ⟨key, rest, hr, fun s hs => congrArg Except.ok (hr.resolve_eq hs)⟩
  · intro s t hf hv
    exact he.eval_eq hv fun _ => hf
  · intro s t v hs ht
    refine he.eval_eq (hs.trans ht.symm) fun hn => ?_
    rw [hs] at hn
    cases hn
  · intro s name v hn
    exact he.eval_eq (Fields.get?_insert_of_ne s.vars v hn) fun _ _ => rfl
  · intro latency roads limit budget p s s' hb h
    have hv : s'.var? "state" = s.var? "state" := by
      obtain hr | ⟨q, τ, updates, hr⟩ := h
      · exact (Program.changes_run p.keepsTo_anything hr).var "state" (Bool.eq_false_iff.mp hb)
      · exact hr.var_eq hb
    exact he.eval_eq hv fun _ _ => rfl

def cargoIsOrder : Expr := .op .eq (.ref "state.truck.cargo") (.ref "state.order")

/-- The truck and the order are facts, whatever variables have these names. -/
theorem fact_references_read_facts_cargoIsOrder :
    cargoIsOrder.ReadsFacts ∧
    cargoIsOrder.eval
        ⟨[("truck", .null), ("order", .int 1)], [("truck", .record [("cargo", .int 2)]), ("order", .int 2)]⟩ =
      .ok (.bool true) := by
  have hr : cargoIsOrder.ReadsFacts :=
    List.forall_mem_cons.mpr ⟨⟨"truck", ".cargo", by decide, by decide, by decide, .inr ⟨"cargo", by decide⟩⟩,
      List.forall_mem_singleton.mpr ⟨"order", "", by decide, by decide, by decide, .inl rfl⟩⟩
  have he : cargoIsOrder.eval ⟨[], [("truck", .record [("cargo", .int 2)]), ("order", .int 2)]⟩ = .ok (.bool true) := by
    cbv
  exact ⟨hr, ((fact_references_read_facts hr).2.1 _ _ (fun _ => rfl) rfl).trans he⟩

/-- The reference `state.x` leads to a fact until the variable `state` is bound, and into the variable after that. -/
theorem fact_hidden_by_variable_state :
    (ref "state.x").ReadsFacts ∧
    (ref "state.x").eval { facts := [("x", .int 2)] } = .ok (.int 2) ∧
    (ref "state.x").eval (State.bindVar { facts := [("x", .int 2)] } "state" (.record [("x", .int 1)])) =
      .ok (.int 1) := by
  refine ⟨List.forall_mem_singleton.mpr ⟨"x", "", by decide, by decide, by decide, .inl rfl⟩, ?_, ?_⟩ <;> cbv

end Expr

end Agenda
