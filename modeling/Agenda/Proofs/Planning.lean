import Mathlib
import Agenda.Domain.Standard
import Agenda.Transition.Plan

/-!
# Plans and completing chains

A completing chain is a sequence of offline transitions from a configuration to one that may end, each transition given
by the place of its successor among all of them. The search finds the plan of the chain that comes first in
lexicographic order, and finds none only if there is no chain within the limit.
-/

namespace Agenda

set_option autoImplicit false

namespace Plan

variable {α : Type}

theorem first_map {β : Type} (f : β → α) (search : α → Except Failure (Option Plan)) (bs : List β) :
    first search (bs.map f) = first (fun b => search (f b)) bs := by
  induction bs with
  | nil => rfl
  | cons b rest ih =>
    rw [List.map_cons, first, first]
    congr 1
    funext found
    cases found with
    | none => exact ih
    | some plan => rfl

theorem first_attach (search : α → Except Failure (Option Plan)) (as : List α) :
    first (fun a : { a // a ∈ as } => search a.val) as.attach = first search as := by
  rw [← first_map, List.attach_map_subtype_val]

theorem first_eq_some_index {search : α → Except Failure (Option Plan)} {as : List α} {plan : Plan}
    (h : first search as = .ok (some plan)) :
    ∃ (i : Nat) (a : α), as[i]? = some a ∧ search a = .ok (some plan) ∧
      ∀ j < i, ∀ b, as[j]? = some b → search b = .ok none := by
  induction as with
  | nil => cases h
  | cons a rest ih =>
    rw [first] at h
    obtain ⟨found, hr, h⟩ := Except.exists_of_bind_eq_ok h
    cases found with
    | some found =>
      cases h
      exact ⟨0, a, rfl, hr, fun j hj => absurd hj (Nat.not_lt_zero j)⟩
    | none =>
      obtain ⟨i, b, hi, hb, hn⟩ := ih h
      refine ⟨i + 1, b, hi, hb, ?_⟩
      intro j hj e he
      cases j with
      | zero =>
        cases he
        exact hr
      | succ j => exact hn j (Nat.lt_of_succ_lt_succ hj) e he

theorem first_eq_none {search : α → Except Failure (Option Plan)} {as : List α} (h : first search as = .ok none) :
    ∀ a ∈ as, search a = .ok none := by
  induction as with
  | nil => exact fun a ha => nomatch ha
  | cons a rest ih =>
    rw [first] at h
    obtain ⟨found, hr, h⟩ := Except.exists_of_bind_eq_ok h
    cases found with
    | some found => cases h
    | none =>
      intro b hb
      rcases List.mem_cons.mp hb with rfl | hb
      · exact hr
      · exact ih h b hb

theorem exists_of_map (f : Plan → α) {result : Except Failure (Option Plan)} {a : α}
    (h : result.toOption.map (fun found => found.map f) = some (some a)) :
    ∃ plan, result = .ok (some plan) ∧ f plan = a := by
  cases result with
  | error e => cases h
  | ok found =>
    cases found with
    | none => cases h
    | some plan => exact ⟨plan, rfl, Option.some.inj (Option.some.inj h)⟩

/-- The first list of places comes before the second one in lexicographic order, or is the same. -/
def Precedes (places others : List Nat) : Prop := places = others ∨ List.Lex (· < ·) places others

theorem Precedes.cons {places others : List Nat} (h : Precedes places others) (i : Nat) :
    Precedes (i :: places) (i :: others) := by
  rcases h with rfl | h
  · exact .inl rfl
  · exact .inr (.cons h)

/-- A number of further transitions, after some, that keeps within the limit. -/
def Allows (limit : Option Nat) (depth n : Nat) : Prop := ∀ m, limit = some m → n ≤ m - depth

theorem allows_zero (limit : Option Nat) (depth : Nat) : Allows limit depth 0 := fun _ _ => Nat.zero_le _

theorem allows_succ_iff (limit : Option Nat) (depth n : Nat) :
    Allows limit depth (n + 1) ↔ exhausted limit depth = false ∧ Allows limit (depth + 1) n := by
  cases limit with
  | none => simp [Allows, exhausted]
  | some m =>
    simp only [Allows, exhausted, Option.some.injEq, forall_eq', decide_eq_false_iff_not]
    omega

end Plan

namespace Program

/-- A completing chain of a program in a state: the places of the successors that it takes, and its plan. -/
inductive Chain (d : Domain) : Program → State → List Nat → Plan → Prop
  | stop {p : Program} {s : State} : p.isFinal s = .ok true → Chain d p s [] ⟨[], s⟩
  | step {p : Program} {s : State} {ts : List Successor} {t : Successor} {i : Nat} {places : List Nat} {plan : Plan} :
      p.isFinal s = .ok false → p.successors d s = .ok ts → ts[i]? = some t →
      Chain d t.remaining t.state places plan → Chain d p s (i :: places) ⟨t.planStep ++ plan.trace, plan.state⟩

/-- The search without its termination argument: what remains of a program may always be searched. -/
theorem search_eq (d : Domain) (limit : Option Nat) (p : Program) (s : State) (depth : Nat) (trace : List BoundAction) :
    p.search d limit s depth trace =
      match p.isFinal s with
      | .error e => .error e
      | .ok true => .ok (some ⟨trace, s⟩)
      | .ok false =>
        if Plan.exhausted limit depth then .ok none
        else
          match p.successors d s with
          | .error e => .error e
          | .ok ts => Plan.first
              (fun t => t.remaining.search d limit t.state (depth + 1) (trace ++ t.planStep)) ts := by
  rw [search]
  cases p.isFinal s with
  | error e => rfl
  | ok final =>
    cases final with
    | true => rfl
    | false =>
      refine ite_congr rfl (fun _ => rfl) (fun _ => ?_)
      split
      · rename_i h
        simp only [h]
      · rename_i ts h
        simp only [h]
        refine Eq.trans ?_ (Plan.first_attach _ ts)
        congr 1
        funext t
        unfold Successor.remaining
        split
        · rename_i hc
          rw [hc, Option.getD_none, search]
          rfl
        · rename_i q hc
          rw [hc, Option.getD_some]

/-- What a search says of the completing chains, after a number of transitions and the actions of a trace. -/
def Answers (d : Domain) (limit : Option Nat) (p : Program) (s : State) (depth : Nat) (trace : List BoundAction) :
    Option Plan → Prop
  | some plan => ∃ places rest, Chain d p s places ⟨rest, plan.state⟩ ∧ plan.trace = trace ++ rest ∧
      Plan.Allows limit depth places.length ∧
      ∀ others plan', Chain d p s others plan' → Plan.Allows limit depth others.length → Plan.Precedes places others
  | none => ∀ places plan, Chain d p s places plan → ¬ Plan.Allows limit depth places.length

theorem Chain.inv_final {d : Domain} {p : Program} {s : State} {places : List Nat} {plan : Plan}
    (h : Chain d p s places plan) (hf : p.isFinal s = .ok true) : places = [] ∧ plan = ⟨[], s⟩ := by
  cases h with
  | stop _ => exact ⟨rfl, rfl⟩
  | step hn _ _ _ =>
    rw [hf] at hn
    cases hn

theorem Chain.inv_step {d : Domain} {p : Program} {s : State} {places : List Nat} {plan : Plan} {ts : List Successor}
    (h : Chain d p s places plan) (hn : p.isFinal s = .ok false) (hs : p.successors d s = .ok ts) :
    ∃ i t rest plan', ts[i]? = some t ∧ Chain d t.remaining t.state rest plan' ∧ places = i :: rest ∧
      plan = ⟨t.planStep ++ plan'.trace, plan'.state⟩ := by
  cases h with
  | stop hf =>
    rw [hn] at hf
    cases hf
  | step _ hs' hi hc =>
    rw [hs] at hs'
    cases hs'
    exact ⟨_, _, _, _, hi, hc, rfl, rfl⟩

theorem answers_final {d : Domain} {limit : Option Nat} {p : Program} {s : State} (depth : Nat)
    (trace : List BoundAction) (hf : p.isFinal s = .ok true) : Answers d limit p s depth trace (some ⟨trace, s⟩) := by
  refine ⟨[], [], .stop hf, (List.append_nil trace).symm, Plan.allows_zero limit depth, ?_⟩
  intro others plan' hc _
  rw [(hc.inv_final hf).1]
  exact .inl rfl

theorem answers_exhausted {d : Domain} {limit : Option Nat} {p : Program} {s : State} {depth : Nat}
    (trace : List BoundAction) (hn : p.isFinal s = .ok false) (he : Plan.exhausted limit depth = true) :
    Answers d limit p s depth trace none := by
  intro places plan hc ha
  cases hc with
  | stop hf =>
    rw [hn] at hf
    cases hf
  | step _ _ _ _ =>
    obtain ⟨hx, -⟩ := (Plan.allows_succ_iff limit depth _).mp ha
    rw [he] at hx
    cases hx

theorem answers_first {d : Domain} {limit : Option Nat} {p : Program} {s : State} {depth : Nat}
    {trace : List BoundAction} {ts : List Successor} {found : Option Plan} (hn : p.isFinal s = .ok false)
    (he : Plan.exhausted limit depth = false) (hs : p.successors d s = .ok ts)
    (ih : ∀ t ∈ ts, ∀ r, t.remaining.search d limit t.state (depth + 1) (trace ++ t.planStep) = .ok r →
      Answers d limit t.remaining t.state (depth + 1) (trace ++ t.planStep) r)
    (h : Plan.first (fun t => t.remaining.search d limit t.state (depth + 1) (trace ++ t.planStep)) ts = .ok found) :
    Answers d limit p s depth trace found := by
  cases found with
  | none =>
    intro places plan hc ha
    obtain ⟨i, t, rest, plan', hi, hr, rfl, -⟩ := hc.inv_step hn hs
    have ht := List.mem_of_getElem? hi
    obtain ⟨-, hl⟩ := (Plan.allows_succ_iff limit depth rest.length).mp ha
    exact ih t ht none (Plan.first_eq_none h t ht) rest plan' hr hl
  | some plan =>
    obtain ⟨i, t, hi, ht, hb⟩ := Plan.first_eq_some_index h
    obtain ⟨places, rest, hc, htr, ha, hm⟩ := ih t (List.mem_of_getElem? hi) (some plan) ht
    refine ⟨i :: places, t.planStep ++ rest, .step hn hs hi hc, ?_, ?_, ?_⟩
    · rw [htr, List.append_assoc]
    · exact (Plan.allows_succ_iff limit depth places.length).mpr ⟨he, ha⟩
    · intro others plan' hc' ha'
      obtain ⟨j, u, tail, plan'', hj, hu, rfl, -⟩ := hc'.inv_step hn hs
      obtain ⟨-, hl⟩ := (Plan.allows_succ_iff limit depth tail.length).mp ha'
      rcases Nat.lt_trichotomy i j with hij | rfl | hji
      · exact .inr (.rel hij)
      · rw [hi] at hj
        cases hj
        exact (hm tail plan'' hu hl).cons i
      · exact absurd hl (ih u (List.mem_of_getElem? hj) none (hb j hji u hj) tail plan'' hu)

theorem answers_search (d : Domain) (limit : Option Nat) (p : Program) (s : State) (depth : Nat)
    (trace : List BoundAction) {found : Option Plan} (h : p.search d limit s depth trace = .ok found) :
    Answers d limit p s depth trace found := by
  induction hsize : p.size using Nat.strongRecOn generalizing p s depth trace found with
  | ind size ih =>
    rw [search_eq] at h
    split at h
    · cases h
    · rename_i hf
      cases h
      exact answers_final depth trace hf
    · rename_i hn
      split at h
      · rename_i he
        cases h
        exact answers_exhausted trace hn he
      · rename_i he
        rw [Bool.not_eq_true] at he
        split at h
        · cases h
        · rename_i ts hs
          refine answers_first hn he hs ?_ h
          intro t ht found ht'
          have hw := (within_of_mem_successors d s p hs t ht).size
          cases hc : t.continuation with
          | none =>
            -- nothing remains, and that is final as it is
            simp only [Successor.remaining, hc, Option.getD_none] at ht' ⊢
            rw [search_eq] at ht'
            cases ht'
            exact answers_final _ _ rfl
          | some q =>
            simp only [Successor.remaining, hc, Option.getD_some] at ht' ⊢
            rw [hc] at hw
            simp only [sizeOption] at hw
            exact ih q.size (by omega) q t.state _ _ ht' rfl

/-- Planning finds the plan of the completing chain that comes first, and none only if there is no such chain. -/
theorem plan_is_first_chain (d : Domain) (limit : Option Nat) (p : Program) (s : State) :
    (∀ plan, p.plan d limit s = .ok (some plan) →
      ∃ places, Chain d p s places plan ∧ (∀ m, limit = some m → places.length ≤ m) ∧
        ∀ others plan', Chain d p s others plan' → (∀ m, limit = some m → others.length ≤ m) →
          Plan.Precedes places others) ∧
    (p.plan d limit s = .ok none →
      ∀ places plan, Chain d p s places plan → ¬ ∀ m, limit = some m → places.length ≤ m) := by
  constructor
  · intro plan h
    obtain ⟨places, rest, hc, ht, ha, hm⟩ := answers_search d limit p s 0 [] h
    obtain ⟨trace, state⟩ := plan
    cases ht
    exact ⟨places, hc, ha, hm⟩
  · intro h
    exact answers_search d limit p s 0 [] h

/-- The first branch ends sooner, but only the second one makes the last action possible. -/
def putBeforeNeed : Program :=
  .block [.control .or [.call "Put" [("value", .const (.bool false))],
      .block [.call "Inc" [], .call "Put" [("value", .const (.bool true))]]],
    .call "Need" [("value", .const (.bool true))]]

theorem plan_is_first_chain_putBeforeNeed :
    ∃ plan places, putBeforeNeed.plan (Domain.standard 100 .delivery) (some 3) {} = .ok (some plan) ∧
      plan.trace.length = 3 ∧ Chain (Domain.standard 100 .delivery) putBeforeNeed {} places plan ∧
      ∀ others plan', Chain (Domain.standard 100 .delivery) putBeforeNeed {} others plan' → others.length ≤ 3 →
        Plan.Precedes places others := by
  have hl : (putBeforeNeed.plan (Domain.standard 100 .delivery) (some 3) {}).toOption.map
      (fun found => found.map (·.trace.length)) = some (some 3) := by cbv
  cases hp : putBeforeNeed.plan (Domain.standard 100 .delivery) (some 3) {} with
  | error e =>
    rw [hp] at hl
    cases hl
  | ok found =>
    rw [hp] at hl
    cases found with
    | none => cases hl
    | some plan =>
      have hf := plan_is_first_chain (Domain.standard 100 .delivery) (some 3) putBeforeNeed {}
      obtain ⟨places, hc, -, hm⟩ := hf.1 plan hp
      refine ⟨plan, places, rfl, Option.some.inj (Option.some.inj hl), hc, ?_⟩
      intro others plan' ho hle
      exact hm others plan' ho fun m h => Option.some.inj h ▸ hle

end Program

end Agenda
