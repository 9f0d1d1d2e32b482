import Mathlib
import Agenda.Proofs.Counters
import Agenda.Proofs.Faultless
import Agenda.Proofs.Scripts

/-!
# Independent branches

Branches that count facts up and set facts, each about facts of its own, leave the same facts behind in whatever order
they come to their ends: to every fact happens what the text says about it, in the order of the text. That is also what
happens to it when the same branches run as a block.
-/

namespace Agenda

set_option autoImplicit false

/-! ### What single actions do to facts -/

/-- The fact that an action is about, and the entry that it makes of the one before. -/
structure Deed where
  key : String
  entry : Option Value → Value

def ActionRecord.deed (r : ActionRecord) : Deed :=
  if r.name = "Inc" then ⟨Domain.factKey "count" r.args, Domain.successor⟩
  else ⟨Domain.factKey "slot" r.args, fun _ => (r.args.get? "value").getD .null⟩

def Deed.about (key : String) (d : Deed) : List (Option Value → Value) := if d.key = key then [d.entry] else []

namespace Expr

def isConstant : Expr → Bool
  | .const _ => true
  | _ => false

def constantValue : Expr → Value
  | .const literal => literal.toValue
  | _ => .null

theorem eval_of_isConstant {e : Expr} (h : e.isConstant = true) (s : State) : e.eval s = .ok e.constantValue := by
  cases e with
  | const literal => rfl
  | _ => cases h

end Expr

def constantArgs (args : Fields Expr) : Fields Value := args.map fun arg => (arg.1, arg.2.constantValue)

theorem evalArgs_of_isConstant {args : Fields Expr} (h : ∀ arg ∈ args, arg.2.isConstant = true) (s : State) :
    evalArgs s args = .ok (constantArgs args) := by
  induction args with
  | nil => rfl
  | cons arg rest ih =>
    obtain ⟨ha, hr⟩ := List.forall_mem_cons.mp h
    rw [evalArgs, Expr.eval_of_isConstant ha, ih hr]
    rfl

/-- The action does the deed of its record and nothing else, in every state. -/
structure BoundAction.Tallies (b : BoundAction) : Prop where
  possible : ∀ s, b.action.possible s = true
  succeeds : ∃ result, b.action.outcome = .ok result
  effect : ∀ s, b.action.effect s = s.withFact b.record.deed.key (b.record.deed.entry (s.fact? b.record.deed.key))

/-- Calls that count a fact up or set one, with constant arguments, in blocks, in bindings and side by side. -/
def Vocabulary.tallying : Vocabulary where
  call name args := (name == "Inc" || name == "Put") && args.all (·.2.isConstant)
  control kind := kind == .conc
  branch := false
  test := false

theorem Domain.resolve_tallying (latency : Nat) (roads : RoadMap) {name : String} {args : Fields Expr}
    (h : Vocabulary.tallying.call name args = true) (s : State) :
    ∃ b, (standard latency roads).resolve s name args = .ok b ∧ b.record = ⟨name, constantArgs args⟩ ∧ b.Tallies := by
  simp only [Vocabulary.tallying, Bool.and_eq_true, Bool.or_eq_true, beq_iff_eq, List.all_eq_true] at h
  obtain ⟨hn, ha⟩ := h
  rw [resolve, evalArgs_of_isConstant ha]
  rcases hn with rfl | rfl
  · exact ⟨_, rfl, rfl, fun _ => rfl, ⟨_, rfl⟩, fun _ => rfl⟩
  · exact ⟨_, rfl, rfl, fun _ => rfl, ⟨_, rfl⟩, fun _ => rfl⟩

section

variable {latency : Nat} {roads : RoadMap} {s : State} {name : String} {args : Fields Expr} {b : BoundAction}

theorem Domain.tallies_of_resolve (h : Vocabulary.tallying.call name args = true)
    (hr : (standard latency roads).resolve s name args = .ok b) :
    b.record = ⟨name, constantArgs args⟩ ∧ b.Tallies := by
  obtain ⟨b', hb, ht⟩ := resolve_tallying latency roads h s
  rw [hb] at hr
  cases hr
  exact ht

theorem Domain.Offers.tallies (h : (standard latency roads).Offers .tallying b) : b.Tallies := by
  obtain ⟨s, name, args, hc, hr⟩ := h
  exact (tallies_of_resolve hc hr).2

theorem Vocabulary.faultless_tallying (latency : Nat) (roads : RoadMap) :
    tallying.Faultless (Domain.standard latency roads) where
  control _ h := eq_of_beq h
  branch := rfl
  test := rfl
  resolves s _ _ h := by
    obtain ⟨b, hb, -, -⟩ := Domain.resolve_tallying latency roads h s
    exact ⟨b, hb⟩
  possible _ h := h.tallies.possible
  succeeds _ h := h.tallies.succeeds

end

/-! ### Readings -/

namespace Reading

def keys : Reading String where
  call name args := [(ActionRecord.deed ⟨name, constantArgs args⟩).key]
  act bound := [bound.record.deed.key]
  bound := []

def onFact (key : String) : Reading (Option Value → Value) where
  call name args := (ActionRecord.deed ⟨name, constantArgs args⟩).about key
  act bound := bound.record.deed.about key
  bound := []

def bindings : Reading Unit where
  call _ _ := []
  act _ := []
  bound := [()]

theorem fits_onFact (key : String) (latency : Nat) (roads : RoadMap) :
    (onFact key).Fits (Domain.standard latency roads) .tallying := by
  intro s name args bound hc hr
  simp only [onFact, (Domain.tallies_of_resolve hc hr).1]

theorem fits_bindings (d : Domain) (v : Vocabulary) : bindings.Fits d v := fun _ _ _ _ _ _ => rfl

end Reading

/-- The entry of a fact after deeds about it, one after the other. -/
def entryAfter (entries : List (Option Value → Value)) (start : Option Value) : Option Value :=
  entries.foldl (fun entry f => some (f entry)) start

namespace Update

theorem fact?_applyAll_tallies {updates : List Update} (h : ∀ b ∈ effects updates, b.Tallies) (s : State)
    (key : String) :
    (applyAll s updates).fact? key = entryAfter ((Reading.onFact key).updates updates) (s.fact? key) := by
  induction updates generalizing s with
  | nil => rfl
  | cons update rest ih =>
    cases update with
    | bind var value => exact ih h (s.bindVar var value)
    | effect b =>
      obtain ⟨hb, hr⟩ := List.forall_mem_cons.mp h
      have he : (Reading.onFact key).updates (.effect b :: rest) =
          b.record.deed.about key ++ (Reading.onFact key).updates rest := rfl
      refine (ih hr (b.action.effect s)).trans ?_
      rw [hb.effect s, he, Deed.about, State.fact?, State.withFact]
      by_cases hk : b.record.deed.key = key
      · rw [if_pos hk, hk, Fields.get?_insert_self]
        rfl
      · rw [if_neg hk, Fields.get?_insert_of_ne _ _ hk]
        rfl

theorem vars_applyAll_tallies {updates : List Update} (h : ∀ b ∈ effects updates, b.Tallies)
    (hb : Reading.bindings.updates updates = []) (s : State) : (applyAll s updates).vars = s.vars := by
  induction updates generalizing s with
  | nil => rfl
  | cons update rest ih =>
    cases update with
    | bind var value => cases hb
    | effect b =>
      obtain ⟨ht, hr⟩ := List.forall_mem_cons.mp h
      refine (ih hr hb (b.action.effect s)).trans ?_
      rw [ht.effect s, State.vars_withFact]

end Update

namespace Program

def factKeys (p : Program) : List String := p.script .keys

/-- Calls that count a fact up or set one, with constant arguments, in nested blocks and side by side. As in every valid
program a `conc` has branches, and no two branches of one are about the same fact. -/
inductive Tally : Program → Prop
  | call {name : String} {args : Fields Expr} : name = "Inc" ∨ name = "Put" →
      (∀ arg ∈ args, arg.2.isConstant = true) → Tally (.call name args)
  | block {ps : List Program} : (∀ p ∈ ps, Tally p) → Tally (.block ps)
  | conc {ps : List Program} : ps ≠ [] → (∀ p ∈ ps, Tally p) →
      ps.Pairwise (fun p q => p.factKeys.Disjoint q.factKeys) → Tally (.control .conc ps)

mutual
def timeless : Program → Program
  | .block statements => .block (allTimeless statements)
  | .branch condition consequent none => .branch condition consequent.timeless none
  | .branch condition consequent (some alternate) => .branch condition consequent.timeless (some alternate.timeless)
  | .bind var init => .bind var init.timeless
  | .control kind branches => .control kind (allTimeless branches)
  | .call name args => .call name (args.filter (·.1 ≠ "ms"))
  | .test condition => .test condition
  | .done => .done
  | .blocked => .blocked
termination_by structural p => p

def allTimeless : List Program → List Program
  | [] => []
  | p :: rest => p.timeless :: allTimeless rest
termination_by structural ps => ps
end

variable {p : Program} {ps : List Program}

theorem Tally.keepsTo (h : p.Tally) : p.keepsTo .tallying = true := by
  induction h with
  | call hn ha => simpa [Program.keepsTo, Vocabulary.tallying] using ⟨hn, fun a b hab => ha (a, b) hab⟩
  | block _ ih => exact (keepsTo_block_iff _ _).mpr ih
  | conc _ _ _ ih => exact (keepsTo_control_iff _ _ _).mpr ⟨rfl, ih⟩

theorem Tally.validate (h : p.Tally) : p.validate = .ok () := by
  induction h with
  | call hn _ => rcases hn with rfl | rfl <;> rfl
  | block _ ih =>
    rw [Program.validate]
    exact validateAll_of_forall ih
  | @conc ps hn _ _ ih =>
    have ha : checkArity .conc ps.length = .ok () := by
      simp [checkArity, hn]
    rw [Program.validate, ha]
    exact validateAll_of_forall ih

theorem scripts_eq_nil {α : Type} {r : Reading α} (h : ∀ p ∈ ps, p.script r = []) : scripts r ps = [] := by
  rw [scripts_eq, List.flatten_eq_nil_iff]
  intro l hl
  obtain ⟨p, hp, rfl⟩ := List.mem_map.mp hl
  exact h p hp

theorem Tally.script_bindings (h : p.Tally) : p.script .bindings = [] := by
  induction h with
  | call _ _ => rfl
  | block _ ih => exact scripts_eq_nil ih
  | conc _ _ _ ih => exact scripts_eq_nil ih

theorem Tally.script_onFact (h : p.Tally) {key : String} (hk : key ∉ p.factKeys) : p.script (.onFact key) = [] := by
  have inside {ps : List Program} (hk : key ∉ scripts .keys ps) (ih : ∀ p ∈ ps, key ∉ p.factKeys →
      p.script (.onFact key) = []) : scripts (.onFact key) ps = [] := by
    refine scripts_eq_nil fun p hp => ih p hp ?_
    intro hm
    apply hk
    rw [scripts_eq, List.mem_flatten]
    exact ⟨p.factKeys, List.mem_map_of_mem hp, hm⟩
  induction h with
  | call _ _ =>
    refine if_neg ?_
    rintro rfl
    exact hk (List.mem_singleton_self _)
  | block _ ih => exact inside hk ih
  | conc _ _ _ ih => exact inside hk ih

/-- A reading in which only one of two programs about different facts says anything holds their branches apart. -/
theorem Tally.apart {α : Type} {r : Reading α} (hr : ∀ {p q : Program}, p.Tally → q.Tally →
    p.factKeys.Disjoint q.factKeys → p.script r = [] ∨ q.script r = []) (h : p.Tally) : p.apart r := by
  induction h with
  | call _ _ => trivial
  | @block ps _ ih => exact ((hereditary_apart r).block ps).mpr ih
  | @conc ps _ hp hd ih =>
    refine (apart_control_iff r .conc ps).mpr ⟨Parts.lone_of_pairwise (List.pairwise_map.mpr ?_), ih⟩
    exact hd.imp_of_mem fun hx hy => hr (hp _ hx) (hp _ hy)

theorem Tally.apart_bindings (h : p.Tally) : p.apart .bindings := h.apart fun hp _ _ => .inl hp.script_bindings

theorem Tally.apart_onFact (h : p.Tally) (key : String) : p.apart (.onFact key) := by
  refine h.apart fun {p q} hp hq hd => ?_
  by_cases hk : key ∈ p.factKeys
  · exact .inr (hq.script_onFact fun hm => hd hk hm)
  · exact .inl (hp.script_onFact hk)

/-- To every fact happens what the text says about it, in the order of the text. -/
theorem Tally.run (h : p.Tally) (latency : Nat) (roads : RoadMap) (limit : Option Nat) (budget : Budget) (s : State) :
    ∃ t, (p.run ⟨Domain.standard latency roads, limit, budget⟩ s).result = .ok t ∧ t.vars = s.vars ∧
      ∀ key, t.fact? key = entryAfter (p.script (.onFact key)) (s.fact? key) := by
  have hv := Vocabulary.faultless_tallying latency roads
  obtain ⟨t, ht⟩ := run_succeeds (c := ⟨Domain.standard latency roads, limit, budget⟩) hv h.keepsTo h.validate s
  refine ⟨t, ht, ?_⟩
  rw [run_eq_ok ht] at ht
  obtain ⟨updates, rfl, ho, hs⟩ := script_drive hv.toUnconditional h.keepsTo (World.keepsTo_initial _ _) rfl ht
  have hu : ∀ b ∈ Update.effects updates, b.Tallies := fun b hb => (ho b hb).tallies
  constructor
  · apply Update.vars_applyAll_tallies hu
    rw [hs _ (Reading.fits_bindings _ _) h.apart_bindings, h.script_bindings]
  · intro key
    rw [Update.fact?_applyAll_tallies hu, hs _ (Reading.fits_onFact key latency roads) (h.apart_onFact key)]

/-! ### Latencies -/

theorem get?_constantArgs_filter {key : String} (h : key ≠ "ms") (args : Fields Expr) :
    (constantArgs (args.filter (·.1 ≠ "ms"))).get? key = (constantArgs args).get? key := by
  induction args with
  | nil => rfl
  | cons arg rest ih =>
    by_cases hm : arg.1 = "ms"
    · rw [List.filter_cons_of_neg (by simpa using hm), ih]
      exact (if_neg fun he => h (he.symm.trans hm)).symm
    · rw [List.filter_cons_of_pos (by simpa using hm)]
      simp only [constantArgs, List.map_cons, Fields.get?_cons] at ih ⊢
      rw [ih]

theorem deed_filter (name : String) (args : Fields Expr) :
    ActionRecord.deed ⟨name, constantArgs (args.filter (·.1 ≠ "ms"))⟩ =
      ActionRecord.deed ⟨name, constantArgs args⟩ := by
  unfold ActionRecord.deed Domain.factKey
  simp only [get?_constantArgs_filter (show "key" ≠ "ms" by decide),
    get?_constantArgs_filter (show "value" ≠ "ms" by decide)]

mutual
theorem script_timeless (key : String) : ∀ p : Program, p.timeless.script (.onFact key) = p.script (.onFact key)
  | .block statements => by
    rw [timeless, script, script]
    exact scripts_timeless key statements
  | .branch _ consequent none => by
    rw [timeless, script, script, script_timeless key consequent]
  | .branch _ consequent (some alternate) => by
    rw [timeless, script, script, script_timeless key consequent, script_timeless key alternate]
  | .bind _ init => by
    rw [timeless, script, script, script_timeless key init]
  | .control _ branches => by
    rw [timeless, script, script]
    exact scripts_timeless key branches
  | .call name args => by
    rw [timeless, script, script]
    exact congrArg (Deed.about key) (deed_filter name args)
  | .test _ => rfl
  | .done => rfl
  | .blocked => rfl

theorem scripts_timeless (key : String) :
    ∀ ps : List Program, scripts (.onFact key) (allTimeless ps) = scripts (.onFact key) ps
  | [] => rfl
  | p :: rest => by
    rw [allTimeless, scripts, scripts, script_timeless key p, scripts_timeless key rest]
end

/-- Branches that are about different facts can run side by side with whatever latencies: the runs succeed with the same
facts and variables, and these are what a block of the branches leaves behind. -/
theorem independent_branches_agree {latency : Nat} {roads : RoadMap} {limit : Option Nat} {budget : Budget}
    {branches retimed : List Program} (h : (control .conc branches).Tally) (hr : (control .conc retimed).Tally)
    (ht : (control .conc retimed).timeless = (control .conc branches).timeless) (s : State) :
    ∃ t t' u,
      ((control .conc branches).run ⟨Domain.standard latency roads, limit, budget⟩ s).result = .ok t ∧
      ((control .conc retimed).run ⟨Domain.standard latency roads, limit, budget⟩ s).result = .ok t' ∧
      ((block branches).run ⟨Domain.standard latency roads, limit, budget⟩ s).result = .ok u ∧
      (∀ key, t'.fact? key = t.fact? key ∧ u.fact? key = t.fact? key) ∧
      ∀ name, t'.var? name = t.var? name ∧ u.var? name = t.var? name := by
  obtain ⟨t, hrun, hvars, hfacts⟩ := h.run latency roads limit budget s
  obtain ⟨t', hrun', hvars', hfacts'⟩ := hr.run latency roads limit budget s
  have hb : (block branches).Tally := by
    cases h with
    | conc _ hp _ => exact .block hp
  obtain ⟨u, hrunu, hvarsu, hfactsu⟩ := hb.run latency roads limit budget s
  refine ⟨t, t', u, hrun, hrun', hrunu, ?_, ?_⟩
  · intro key
    constructor
    · rw [hfacts', hfacts, ← script_timeless, ht, script_timeless]
    · rw [hfactsu, hfacts]
      rfl
  · intro name
    simp only [State.var?, hvars, hvars', hvarsu, and_self]

/-- Two branches with latencies. The first one counts a fact up, does two things side by side and then sets the fact. -/
def tallyBranches (first second : Int64) : List Program :=
  [.block
      [.call "Inc" [("key", .const (.text "n")), ("ms", .const (.int first))],
        .control .conc
          [.call "Put" [("key", .const (.text "a")), ("value", .const (.int 7)), ("ms", .const (.int second))],
            .call "Inc" [("key", .const (.text "b")), ("ms", .const (.int first))]],
        .call "Put" [("key", .const (.text "n")), ("value", .const (.bool true))]],
    .call "Inc" [("ms", .const (.int second))]]

theorem tally_tallyBranches (first second : Int64) : (control .conc (tallyBranches first second)).Tally := by
  have hc : ∀ {name : String} {args : Fields Expr}, name = "Inc" ∨ name = "Put" →
      args.all (·.2.isConstant) = true → (call name args).Tally := fun hn ha => .call hn (List.all_eq_true.mp ha)
  have hp : ∀ {p q : Program}, p.Tally → q.Tally → ∀ x ∈ [p, q], x.Tally := fun hp hq =>
    List.forall_mem_cons.mpr ⟨hp, List.forall_mem_singleton.mpr hq⟩
  refine .conc (List.cons_ne_nil _ _) (hp (.block ?_) (hc (.inl rfl) rfl)) ?_
  · refine List.forall_mem_cons.mpr ⟨hc (.inl rfl) rfl, hp (.conc (List.cons_ne_nil _ _) ?_ ?_) (hc (.inr rfl) rfl)⟩
    · exact hp (hc (.inr rfl) rfl) (hc (.inl rfl) rfl)
    · refine List.pairwise_pair.mpr ?_
      change List.Disjoint ["a"] ["b"]
      simp
  · refine List.pairwise_pair.mpr ?_
    change List.Disjoint ["n", "a", "b", "n"] ["count"]
    simp

theorem independent_branches_agree_tallyBranches :
    (control .conc (tallyBranches 5 2)).Tally ∧ (control .conc (tallyBranches 0 9)).Tally ∧
    (control .conc (tallyBranches 0 9)).timeless = (control .conc (tallyBranches 5 2)).timeless ∧
    ∃ t t' u,
      ((control .conc (tallyBranches 5 2)).run Setting.standard { facts := [("n", .int 3)] }).result = .ok t ∧
      ((control .conc (tallyBranches 0 9)).run Setting.standard { facts := [("n", .int 3)] }).result = .ok t' ∧
      ((block (tallyBranches 5 2)).run Setting.standard { facts := [("n", .int 3)] }).result = .ok u ∧
      (∀ key, t'.fact? key = t.fact? key ∧ u.fact? key = t.fact? key) ∧
      ∀ name, t'.var? name = t.var? name ∧ u.var? name = t.var? name :=
  ⟨tally_tallyBranches 5 2, tally_tallyBranches 0 9, rfl,
    independent_branches_agree (tally_tallyBranches 5 2) (tally_tallyBranches 0 9) rfl { facts := [("n", .int 3)] }⟩

end Program

end Agenda
