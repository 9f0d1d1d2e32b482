import Mathlib
import Agenda.Proofs.CompletionOrder
import Agenda.Proofs.RosterRounds

/-!
# Taking turns

Branches of calls that all take the latency of the domain, with constant arguments, take turns: the history has the
first calls of all branches in the order of the branches, then the second calls, and so on. Branches that are at their
end are left out.

This is so as long as no round is torn apart by the end of a look from outside. In any case each branch has all its
calls in the history, in its own order.
-/

namespace Agenda

set_option autoImplicit false

namespace Branches

variable {α β : Type}

/-- The first items of all branches, in the order of the branches, then the second items, and so on. -/
def roundRobin (branches : List (List α)) : List α :=
  (List.range (rounds branches)).flatMap fun k => branches.filterMap (·[k]?)

/-- The items are those of the branches, each branch in its own order. -/
def Interleaves (branches : List (List α)) (items : List α) : Prop :=
  ∃ tagged : List (Nat × α), tagged.map (·.2) = items ∧
    ∀ i, (tagged.filter (·.1 = i)).map (·.2) = branches[i]?.getD []

theorem rounds_map (f : α → β) (branches : List (List α)) : rounds (branches.map (List.map f)) = rounds branches := by
  rw [rounds, List.map_map]
  congr 2
  funext b
  exact List.length_map f

theorem itemsIn_map (f : α → β) (k : Nat) (branches : List (List α)) :
    itemsIn k (branches.map (List.map f)) = itemsIn k branches := by
  rw [itemsIn, List.map_map]
  congr 2
  funext b
  exact congrArg (min · k) (List.length_map f)

theorem unbroken_map {budget : Budget} {ms : Nat} (f : α → β) {branches : List (List α)}
    (h : Unbroken budget ms branches) : Unbroken budget ms (branches.map (List.map f)) := by
  simpa only [Unbroken, WholeRounds, rounds_map, itemsIn_map] using h

theorem roundRobin_map (f : α → β) (branches : List (List α)) :
    roundRobin (branches.map (List.map f)) = (roundRobin branches).map f := by
  rw [roundRobin, rounds_map, roundRobin, List.map_flatMap]
  congr 1
  funext k
  rw [List.filterMap_map, List.map_filterMap]
  congr 1
  funext b
  exact List.getElem?_map

theorem Interleaves.map {branches : List (List α)} {items : List α} (h : Interleaves branches items) (f : α → β) :
    Interleaves (branches.map (List.map f)) (items.map f) := by
  obtain ⟨tagged, rfl, hi⟩ := h
  refine ⟨tagged.map (Prod.map id f), ?_, fun i => ?_⟩
  · rw [List.map_map, List.map_map]
    rfl
  · have hf := congrArg (List.map f) (hi i)
    rw [List.map_map] at hf
    rw [List.filter_map, List.map_map, List.getElem?_map]
    refine Eq.trans hf ?_
    cases branches[i]? <;> rfl

theorem filterMap_eq_filterMap_range (items : List α) (f : α → Option β) :
    items.filterMap f = (List.range items.length).filterMap fun i => items[i]?.bind f := by
  induction items with
  | nil => rfl
  | cons x rest ih =>
    rw [List.length_cons, List.range_succ_eq_map, List.filterMap_cons, List.filterMap_cons, List.filterMap_map, ih]
    rfl

def item? (branches : List (List α)) (place : Nat × Nat) : Option α := branches[place.2]?.bind (·[place.1]?)

def places (branches : List (List α)) : List (Nat × Nat) :=
  ((List.range (rounds branches)).product (List.range branches.length)).filter fun place =>
    (item? branches place).isSome

theorem filterMap_places (branches : List (List α)) :
    (places branches).filterMap (item? branches) = roundRobin branches := by
  have hrow : ∀ k, branches.filterMap (·[k]?) =
      ((List.range branches.length).map (Prod.mk k)).filterMap (item? branches) := by
    intro k
    rw [filterMap_eq_filterMap_range, List.filterMap_map]
    rfl
  have hsome : ∀ place,
      (if (item? branches place).isSome then item? branches place else none) = item? branches place := by
    intro place
    cases item? branches place <;> rfl
  rw [places, List.filterMap_filter, roundRobin]
  simp only [hsome, hrow]
  rw [List.product, List.filterMap_flatMap]

theorem mem_places {branches : List (List α)} {place : Nat × Nat} :
    place ∈ places branches ↔ (item? branches place).isSome = true := by
  rw [places, List.mem_filter]
  refine and_iff_right_of_imp fun h => ?_
  obtain ⟨x, hx⟩ := Option.isSome_iff_exists.mp h
  obtain ⟨b, hb, hk⟩ := Option.bind_eq_some_iff.mp hx
  obtain ⟨k, i⟩ := place
  refine List.pair_mem_product.mpr ⟨List.mem_range.mpr ?_, List.mem_range.mpr (List.getElem?_eq_some_iff.mp hb).1⟩
  exact (List.getElem?_eq_some_iff.mp hk).1.trans_le (length_le_rounds (List.mem_of_getElem? hb))

theorem pairwise_places (branches : List (List α)) :
    (places branches).Pairwise fun a b => a.1 < b.1 ∨ a.1 = b.1 ∧ a.2 < b.2 := by
  refine List.Pairwise.filter _ ?_
  apply List.pairwise_flatMap.mpr
  constructor
  · intro k _
    apply List.pairwise_map.mpr
    exact List.pairwise_lt_range.imp fun h => .inr ⟨rfl, h⟩
  · refine List.pairwise_lt_range.imp fun hlt a ha b hb => .inl ?_
    obtain ⟨i, -, rfl⟩ := List.mem_map.mp ha
    obtain ⟨j, -, rfl⟩ := List.mem_map.mp hb
    exact hlt

end Branches

variable {d : Domain} {budget : Budget}

namespace Leg

variable {branches : List (List (Errand d))} {legs : List (Leg d)} {l : Leg d} {i : Nat} {b : List (Errand d)}

theorem On.getElem?_index (h : l.On branches) (hb : branches[l.lane]? = some b) : b[l.index]? = some l.errand := by
  rw [On, hb] at h
  rw [Option.some.inj h, index, List.getElem?_append_right le_rfl, Nat.sub_self]
  rfl

theorem indices_eq_range {n : Nat} (h : legs.Pairwise fun a b => a.lane = b.lane → a.index < b.index)
    (hp : (indices i legs).Perm (List.range n)) : indices i legs = List.range n := by
  have hlt : (indices i legs).Pairwise (· < ·) := by
    apply List.pairwise_map.mpr
    refine (h.filter _).imp_of_mem fun ha hb hx => hx ?_
    exact (of_decide_eq_true (List.mem_filter.mp ha).2).trans (of_decide_eq_true (List.mem_filter.mp hb).2).symm
  exact hp.eq_of_pairwise' hlt List.pairwise_lt_range

theorem map_errand_filter (hon : ∀ l ∈ legs, l.On branches) (hb : branches[i]? = some b)
    (hi : indices i legs = List.range b.length) : (legs.filter (·.lane = i)).map errand = b := by
  have herrand : ∀ l ∈ legs.filter (·.lane = i), b[l.index]? = some l.errand := by
    intro l hl
    obtain ⟨hm, hlane⟩ := List.mem_filter.mp hl
    rw [← of_decide_eq_true hlane] at hb
    exact (hon l hm).getElem?_index hb
  calc (legs.filter (·.lane = i)).map errand
    _ = (legs.filter (·.lane = i)).filterMap (fun l => b[l.index]?) := by
      rw [List.filterMap_congr herrand, List.filterMap_eq_map']
    _ = (indices i legs).filterMap (b[·]?) := (List.filterMap_map).symm
    _ = b.filterMap some := by
      rw [hi, Branches.filterMap_eq_filterMap_range b]
      congr 1
      funext k
      exact (Option.bind_fun_some _).symm
    _ = b := List.filterMap_some

/-- Legs for all places, those of each branch in order, are an interleaving of the errands. -/
theorem interleaves (hon : ∀ l ∈ legs, l.On branches)
    (hi : ∀ i b, branches[i]? = some b → indices i legs = List.range b.length) :
    Branches.Interleaves branches (legs.map errand) := by
  refine ⟨legs.map fun l => (l.lane, l.errand), ?_, fun i => ?_⟩
  · rw [List.map_map]
    rfl
  · rw [List.filter_map, List.map_map]
    cases hb : branches[i]? with
    | some b => exact map_errand_filter hon hb (hi i b hb)
    | none =>
      have hnone : legs.filter (·.lane = i) = [] := by
        refine List.filter_eq_nil_iff.mpr fun l hl hx => ?_
        have hl := hon l hl
        rw [On, of_decide_eq_true hx, hb] at hl
        cases hl
      exact congrArg (List.map _) hnone

theorem On.item?_eq (h : l.On branches) : Branches.item? branches (l.index, l.lane) = some l.errand := by
  have hb := h
  rw [On] at hb
  rw [Branches.item?, hb]
  exact h.getElem?_index hb

/-- Legs for all places, round by round, go through the places in order. -/
theorem map_place (hon : ∀ l ∈ legs, l.On branches)
    (hi : ∀ i b, branches[i]? = some b → indices i legs = List.range b.length) (hp : legs.Pairwise Ahead) :
    legs.map (fun l => (l.index, l.lane)) = Branches.places branches := by
  have hsorted : (legs.map fun l => (l.index, l.lane)).Pairwise fun a b => a.1 < b.1 ∨ a.1 = b.1 ∧ a.2 < b.2 :=
    List.pairwise_map.mpr hp
  have hplaces := Branches.pairwise_places branches
  have hnodup {places : List (Nat × Nat)} (h : places.Pairwise fun a b => a.1 < b.1 ∨ a.1 = b.1 ∧ a.2 < b.2) :
      places.Nodup := by
    refine h.imp fun hx he => ?_
    rw [he] at hx
    omega
  refine List.Perm.eq_of_pairwise ?_ hsorted hplaces
    ((List.perm_ext_iff_of_nodup (hnodup hsorted) (hnodup hplaces)).mpr fun place => ?_)
  · intro a b _ _ hab hba
    omega
  · rw [Branches.mem_places]
    constructor
    · intro hm
      obtain ⟨l, hl, rfl⟩ := List.mem_map.mp hm
      rw [(hon l hl).item?_eq]
      rfl
    · intro hx
      obtain ⟨e, he⟩ := Option.isSome_iff_exists.mp hx
      obtain ⟨b, hb, hk⟩ := Option.bind_eq_some_iff.mp he
      have hm : place.1 ∈ indices place.2 legs := by
        rw [hi place.2 b hb, List.mem_range]
        exact (List.getElem?_eq_some_iff.mp hk).1
      obtain ⟨l, hl, hlane, hindex⟩ := exists_of_mem_indices hm
      exact List.mem_map.mpr ⟨l, hl, Prod.ext hindex hlane⟩

theorem map_errand_eq_roundRobin (hon : ∀ l ∈ legs, l.On branches)
    (hi : ∀ i b, branches[i]? = some b → indices i legs = List.range b.length) (hp : legs.Pairwise Ahead) :
    legs.map errand = Branches.roundRobin branches := by
  rw [← Branches.filterMap_places, ← map_place hon hi hp, List.filterMap_map, ← List.filterMap_eq_map']
  exact (List.filterMap_congr fun l hl => (hon l hl).item?_eq).symm

end Leg

namespace Roster

theorem coherent_runFor_blank (budget : Budget) {branches : List (List (Errand d))} (race : Bool) (s : State)
    (hn : branches ≠ []) (n : Nat) : ((blank budget race s branches).dispatch.runFor n).Coherent branches :=
  (((coherent_blank budget race s branches).dispatch rfl).runFor_induction (P := fun _ => True) hn
    (fun _ _ _ _ _ _ _ => trivial) (rested_dispatch _) trivial n).1

theorem exists_done_run {c : Setting} (s : State) {branches : List (List (Errand c.domain))} (hn : branches ≠ []) :
    ∃ r : Roster c.domain c.budget, r.Coherent branches ∧ (∀ lane ∈ r.lanes, lane.isDone = true) ∧ r.base = s ∧
      ((Errand.construct false branches).run c s).result = .ok r.state ∧
      ((Errand.construct false branches).run c s).world.dispatched = r.calls.map (·.errand.bound) ∧
      (r.calls.Pairwise fun a b => a.lane = b.lane → a.index < b.index) ∧
      ∀ ms, Errand.Uniform ms branches → Branches.Unbroken c.budget ms branches → r.calls.Pairwise Leg.Ahead := by
  have hs := coherent_blank c.budget false s branches
  cases ho : (blank c.budget false s branches).isOver with
  | true =>
    refine ⟨blank c.budget false s branches, hs, List.all_eq_true.mp ho, rfl, ?_, ?_, .nil, fun _ _ _ => .nil⟩
    all_goals
      rw [Program.run_of_validate c s (validate_construct false hn), Program.drive_eq, isFinal_construct c.budget, ho]
      rfl
  | false =>
    obtain ⟨n, hover, hrun⟩ := run_construct (c := c) false s hn ho
    obtain ⟨hrace, hbase⟩ := kept_runFor (blank c.budget false s branches).dispatch n
    have hcoherent := coherent_runFor_blank c.budget false s hn n
    refine ⟨_, hcoherent, ?_, hbase, ?_, ?_, inOrder_runFor_blank hn n, fun ms hu h => ahead_runFor_blank hn hu h n⟩
    · rw [isOver, hrace] at hover
      exact List.all_eq_true.mp hover
    · rw [hrun]
    · rw [hrun]
      exact hcoherent.dispatched_ended

theorem dispatched_of_runFor {c : Setting} (race : Bool) (s : State) {branches : List (List (Errand c.domain))}
    (hn : branches ≠ []) (hb : ∀ b ∈ branches, b ≠ []) {n : Nat}
    (ho : ((blank c.budget race s branches).dispatch.runFor n).isOver = true) :
    ((Errand.construct race branches).run c s).world.dispatched =
      ((blank c.budget race s branches).dispatch.runFor n).calls.map (·.errand.bound) := by
  obtain ⟨m, hm, hrun⟩ := run_construct race s hn (isOver_blank c.budget race s hn hb)
  rw [hrun, runFor_unique hm ho]
  exact (coherent_runFor_blank c.budget race s hn n).dispatched_ended

end Roster

/-- A call that takes the latency of the domain and changes nothing, with constant arguments. -/
structure WaitCall where
  args : Fields Expr
  constant : ∀ arg ∈ args, arg.2.isConstant = true

namespace WaitCall

def call (w : WaitCall) : Program := .call "A" w.args

def block (b : List WaitCall) : Program := .block (b.map call)

def record (w : WaitCall) : ActionRecord := ⟨"A", constantArgs w.args⟩

def errand (latency : Nat) (roads : RoadMap) (w : WaitCall) : Errand (Domain.standard latency roads) where
  name := "A"
  args := w.args
  bound := ⟨w.record, { latency := some latency }⟩
  ms := latency
  result := none
  named := by decide
  resolves s := by
    rw [Domain.resolve, evalArgs_of_isConstant w.constant]
    rfl
  possible _ := rfl
  latency := rfl
  succeeds := rfl

variable {latency : Nat} {roads : RoadMap} {branches : List (List WaitCall)}

theorem uniform_errands : Errand.Uniform latency (branches.map (List.map (errand latency roads))) := by
  intro b hb e he
  obtain ⟨calls, -, rfl⟩ := List.mem_map.mp hb
  obtain ⟨w, -, rfl⟩ := List.mem_map.mp he
  rfl

theorem exists_of_on {l : Leg (Domain.standard latency roads)}
    (h : l.On (branches.map (List.map (errand latency roads)))) : ∃ w, l.errand = errand latency roads w := by
  have hm := List.mem_of_getElem? h
  obtain ⟨calls, -, hb⟩ := List.mem_map.mp hm
  have he : l.errand ∈ calls.map (errand latency roads) := hb ▸ List.mem_append_right _ List.mem_cons_self
  obtain ⟨w, -, hw⟩ := List.mem_map.mp he
  exact ⟨w, hw.symm⟩

theorem foldl_apply {legs : List (Leg (Domain.standard latency roads))}
    (h : ∀ l ∈ legs, l.On (branches.map (List.map (errand latency roads)))) (s : State) :
    legs.foldl Leg.apply s = s := by
  induction legs with
  | nil => rfl
  | cons l rest ih =>
    obtain ⟨hl, hrest⟩ := List.forall_mem_cons.mp h
    obtain ⟨w, hw⟩ := exists_of_on hl
    have hs : l.apply s = s := by
      rw [Leg.apply, hw]
      rfl
    rw [List.foldl_cons, hs, ih hrest]

theorem history_eq {σ : World} {legs : List (Leg (Domain.standard latency roads))}
    (h : ∀ l ∈ legs, l.On (branches.map (List.map (errand latency roads))))
    (hd : σ.dispatched = legs.map (·.errand.bound)) : σ.history = (legs.map Leg.errand).map (·.bound.record) := by
  have hrecorded : ∀ b ∈ legs.map (·.errand.bound), b.action.recorded = true := by
    intro b hb
    obtain ⟨l, hl, rfl⟩ := List.mem_map.mp hb
    obtain ⟨w, hw⟩ := exists_of_on (h l hl)
    rw [hw]
    rfl
  rw [World.history_eq, hd, List.filter_eq_self.mpr hrecorded, List.map_map, List.map_map]
  rfl

def turn (n : Int64) : WaitCall where
  args := [("id", .const (.int n))]
  constant := List.forall_mem_singleton.mpr rfl

def number? (r : ActionRecord) : Option Nat := (r.args.get? "id").bind Value.asCount?

def turns (count : Nat) : List (List WaitCall) :=
  (List.range 3).map fun i => (List.range count).map fun k => turn (Int64.ofNat (100 * i + k))

end WaitCall

namespace Program

open Roster WaitCall

/-- Branches of calls that take the same time succeed and leave the state as it is. Their history has the calls of every
branch in order, and if no round is torn apart the branches take turns. -/
theorem conc_takes_turns (latency : Nat) (roads : RoadMap) (limit : Option Nat) (budget : Budget) (s : State)
    (branches : List (List WaitCall)) (hn : branches ≠ []) :
    let run := (control .conc (branches.map WaitCall.block)).run ⟨Domain.standard latency roads, limit, budget⟩ s
    run.result = .ok s ∧ Branches.Interleaves (branches.map (List.map record)) run.history ∧
      (Branches.Unbroken budget latency branches → run.history = (Branches.roundRobin branches).map record) := by
  intro run
  obtain ⟨r, hs, hdone, hbase, hresult, hdispatched, horder, hahead⟩ :=
    exists_done_run (c := ⟨Domain.standard latency roads, limit, budget⟩) s
      (mt List.map_eq_nil_iff.mp hn : branches.map (List.map (errand latency roads)) ≠ [])
  rw [Errand.construct_map] at hresult hdispatched
  have hon := hs.accounts.on
  have hhistory : run.history = (r.calls.map Leg.errand).map (·.bound.record) := history_eq hon hdispatched
  obtain ⟨hpending, hfolded⟩ := hs.accounts.folded_of_done hdone
  have hperm : r.folded.Perm r.calls := by
    have hcalls := hs.accounts.calls
    rwa [hpending, List.append_nil] at hcalls
  have hindices : ∀ i b, (branches.map (List.map (errand latency roads)))[i]? = some b →
      Leg.indices i r.calls = List.range b.length := by
    intro i b hb
    apply Leg.indices_eq_range horder
    rw [← hfolded i b hb]
    exact (Leg.indices_perm hperm).symm
  refine ⟨?_, ?_, fun hu => ?_⟩
  · rw [← hbase]
    exact hresult.trans (congrArg _ (foldl_apply (fun l hl => hon l (hperm.subset hl)) _))
  · have hcalls := (Leg.interleaves hon hindices).map (·.bound.record)
    rw [List.map_map, List.map_comp_map] at hcalls
    rw [hhistory]
    exact hcalls
  · have hcalls := Leg.map_errand_eq_roundRobin hon hindices
      (hahead latency uniform_errands (Branches.unbroken_map _ hu))
    rw [hhistory, hcalls, Branches.roundRobin_map, List.map_map]
    rfl

/-- Three branches with 44 calls each and an empty one, without latency: a look is over before they are, in the last
round but one. -/
theorem conc_takes_turns_threeBranches :
    Branches.Unbroken .standard 0 ([] :: turns 44) ∧
      ((control .conc (([] :: turns 44).map WaitCall.block)).run { domain := .standard 0 .delivery } {}).history =
        (Branches.roundRobin ([] :: turns 44)).map record := by
  have hu : Branches.Unbroken .standard 0 ([] :: turns 44) := by decide +kernel
  exact ⟨hu, (conc_takes_turns 0 .delivery none .standard {} ([] :: turns 44) (List.cons_ne_nil _ _)).2.2 hu⟩

/-- With one call more in each branch the look is over one round too early: the last call of the first branch comes
before the last but one of the third branch. -/
theorem conc_turns_torn :
    ((control .conc ((turns 45).map WaitCall.block)).run { domain := .standard 0 .delivery } {}).history ≠
      (Branches.roundRobin (turns 45)).map record := by
  have hx : (((blank .standard false {} ((turns 45).map (List.map (errand 0 .delivery)))).dispatch.runFor 1000).isOver,
      (((blank .standard false {} ((turns 45).map (List.map (errand 0 .delivery)))).dispatch.runFor
        1000).calls[131]?).bind fun l => number? l.errand.bound.record) = (true, some 44) := by
    decide +kernel
  have hturn : ((Branches.roundRobin (turns 45))[131]?).bind (fun w => number? w.record) = some 243 := by
    decide +kernel
  have hn : (turns 45).map (List.map (errand 0 .delivery)) ≠ [] := List.cons_ne_nil _ _
  have hb : ∀ b ∈ (turns 45).map (List.map (errand 0 .delivery)), b ≠ [] := by
    intro b hb
    obtain ⟨calls, hc, rfl⟩ := List.mem_map.mp hb
    obtain ⟨i, -, rfl⟩ := List.mem_map.mp hc
    exact List.cons_ne_nil _ _
  have hd := dispatched_of_runFor (c := { domain := .standard 0 .delivery }) false {} hn hb (Prod.mk.inj hx).1
  rw [Errand.construct_map] at hd
  intro he
  have hsame := congrArg (·[131]?.bind number?)
    ((history_eq (coherent_runFor_blank .standard false {} hn 1000).accounts.on hd).symm.trans he)
  simp only [List.map_map, List.getElem?_map, Option.bind_map] at hsame
  have hcontra := (Prod.mk.inj hx).2.symm.trans (hsame.trans hturn)
  cases hcontra

end Program

end Agenda
