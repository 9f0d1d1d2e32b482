import Mathlib
import Agenda.Proofs.IndependentBranches
import Agenda.Proofs.RosterEnds
import Agenda.Proofs.RosterRuns

/-!
# The order of effects

Branches that count facts up and set facts, each call with a time of its own, run side by side without delaying each
other. Their effects are folded in the order in which the calls come to their ends, and at one instant in the order of
dispatch. A race folds them in the same order up to the first one that finishes its branch.

The order of dispatch is kept at an instant as long as there are no more branches than waits may end in one look, or no
more calls that end at that instant. Beyond that, calls are postponed and taken up again with the last one first, so
that some are overtaken.
-/

namespace Agenda

set_option autoImplicit false

/-- A call that counts a fact up or sets one, with constant arguments. -/
structure FactCall where
  name : String
  args : Fields Expr
  named : name = "Inc" ∨ name = "Put"
  constant : ∀ arg ∈ args, arg.2.isConstant = true

namespace FactCall

def call (f : FactCall) : Program := .call f.name f.args

def block (b : List FactCall) : Program := .block (b.map call)

def values (f : FactCall) : Fields Value := constantArgs f.args

/-- How long the call takes: as long as it says, and no time if it does not say so by a count. -/
def ms (f : FactCall) : Nat := ((f.values.get? "ms").bind Value.asCount?).getD 0

def deed (f : FactCall) : Deed := ActionRecord.deed ⟨f.name, f.values⟩

def bound (f : FactCall) : BoundAction where
  record := ⟨f.name, f.values⟩
  action := Domain.factAction f.values (fun _ => true) fun s =>
    s.withFact f.deed.key (f.deed.entry (s.fact? f.deed.key))

theorem resolve_eq (latency : Nat) (roads : RoadMap) (f : FactCall) (s : State) :
    (Domain.standard latency roads).resolve s f.name f.args = .ok f.bound := by
  obtain ⟨name, args, named, constant⟩ := f
  rw [Domain.resolve, evalArgs_of_isConstant constant]
  rcases named with rfl | rfl <;> rfl

def errand (latency : Nat) (roads : RoadMap) (f : FactCall) : Errand (Domain.standard latency roads) where
  name := f.name
  args := f.args
  bound := f.bound
  ms := f.ms
  result := f.values.get? "result"
  named := by rcases f.named with h | h <;> rw [h] <;> decide
  resolves := f.resolve_eq latency roads
  possible _ := rfl
  latency := rfl
  succeeds := rfl

def errands (latency : Nat) (roads : RoadMap) (branches : List (List FactCall)) :
    List (List (Errand (Domain.standard latency roads))) :=
  branches.map (List.map (errand latency roads))

def Puts (key : String) (f : FactCall) : Prop := f.name = "Put" ∧ f.deed.key = key

def value (f : FactCall) : Value := (f.values.get? "value").getD .null

/-- The time at which a call of a branch comes to its end if nothing delays it: the times of the calls up to it. -/
def endOf (b : List FactCall) (k : Nat) : Nat := ((b.take (k + 1)).map ms).sum

section

variable {latency : Nat} {roads : RoadMap} {branches : List (List FactCall)}

theorem construct_errands (race : Bool) :
    Errand.construct race (errands latency roads branches) =
      .control (if race then .either else .conc) (branches.map block) :=
  Errand.construct_map (errand latency roads) race branches

theorem endOf_errands (latency : Nat) (roads : RoadMap) (b : List FactCall) (k : Nat) :
    Errand.endOf (b.map (errand latency roads)) k = endOf b k := by
  rw [Errand.endOf, ← List.map_take, List.map_map]
  rfl

theorem sum_errands (latency : Nat) (roads : RoadMap) (b : List FactCall) :
    ((b.map (errand latency roads)).map Errand.ms).sum = (b.map ms).sum := by
  rw [List.map_map]
  rfl

theorem getElem?_errands {i : Nat} {b : List FactCall} (h : branches[i]? = some b) :
    (errands latency roads branches)[i]? = some (b.map (errand latency roads)) := by
  rw [errands, List.getElem?_map, h]
  rfl

theorem errands_ne_nil (h : branches ≠ []) : errands latency roads branches ≠ [] := mt List.map_eq_nil_iff.mp h

theorem forall_errands_ne_nil (h : ∀ b ∈ branches, b ≠ []) : ∀ b ∈ errands latency roads branches, b ≠ [] := by
  intro b hb
  obtain ⟨calls, hc, rfl⟩ := List.mem_map.mp hb
  exact mt List.map_eq_nil_iff.mp (h calls hc)

end

end FactCall

/-! ### Accounts of runs -/

variable {d : Domain} {budget : Budget}

/-- An account of a run of branches: the calls as they were dispatched, and the order in which they were folded. -/
structure Run.Recounts (run : Run) (budget : Budget) (branches : List (List (Errand d))) (s : State)
    (calls order : List (Leg d)) : Prop where
  /-- The run succeeds, and its effects are those of the order. -/
  result : run.result = .ok (order.foldl Leg.apply s)
  dispatched : run.world.dispatched = calls.map (·.errand.bound)
  numbered : calls.map Leg.seq = List.range calls.length
  /-- The first round goes through all branches in order. -/
  first : ∀ i < branches.length, ∃ l ∈ calls, l.lane = i ∧ l.before = []
  opening : ∀ l ∈ calls, l.before = [] → l.seq = l.lane
  on : ∀ l ∈ calls, l.On branches
  /-- Nothing is folded twice, and of every branch a first part is folded, in order. -/
  once : order.Subperm calls
  places : ∀ i, ∃ k, Leg.indices i order = List.range k
  /-- The order is that of time, and at an instant that of dispatch unless the instant is crowded. -/
  sorted : order.Pairwise fun a b => a.finish < b.finish ∨ a.finish = b.finish ∧
    (Roster.Uncrowded budget branches calls a.finish → a.seq < b.seq)
  looks : ∃ looks, looks.flatten = order ∧ LookByLook budget looks

namespace Roster

variable {branches : List (List (Errand d))}

theorem isOver_blank (budget : Budget) (race : Bool) (s : State) (hn : branches ≠ []) (hb : ∀ b ∈ branches, b ≠ []) :
    (blank budget race s branches).isOver = false := by
  have hd : ∀ lane ∈ (blank budget race s branches).lanes, lane.isDone = false := by
    intro lane hl
    obtain ⟨b, hm, rfl⟩ := List.mem_map.mp hl
    cases b with
    | nil => exact absurd rfl (hb _ hm)
    | cons _ _ => rfl
  unfold isOver
  split
  · exact List.any_eq_false.mpr fun lane hl => by rw [hd lane hl]; exact Bool.false_ne_true
  · obtain ⟨b, rest, rfl⟩ := List.exists_cons_of_ne_nil hn
    exact List.all_eq_false.mpr ⟨_, List.mem_cons_self, by rw [hd _ List.mem_cons_self]; exact Bool.false_ne_true⟩

theorem Coherent.dispatched_ended {r : Roster d budget} (h : r.Coherent branches) :
    r.ended.world.dispatched = r.calls.map (·.errand.bound) := by
  refine Eq.trans ?_ h.logged.dispatched
  exact (List.filterMap_append).trans (List.append_nil _)

theorem Coherent.recounts {r : Roster d budget} (h : r.Coherent branches) (ho : r.Opened)
    (hb : ∀ b ∈ branches, b ≠ []) :
    Run.Recounts ⟨.ok r.state, r.ended.world⟩ budget branches r.base r.calls r.folded where
  result := rfl
  dispatched := h.dispatched_ended
  numbered := h.accounts.seqs
  first _ hi := ho.exists_first h.accounts (List.getElem?_eq_getElem hi) (hb _ (List.getElem_mem hi))
  opening := ho.calls
  on := h.accounts.on
  once := (List.sublist_append_left _ _).subperm.trans h.accounts.calls.subperm
  places := h.accounts.exists_indices
  sorted := h.pairwise_folded
  looks := ⟨r.past ++ [r.now], r.flatten_looks, h.ordered.looks⟩

theorem completions_ended (r : Roster d budget) : r.ended.world.completions = r.log.filterMap Event.completed? :=
  (List.filterMap_append).trans (List.append_nil _)

/-- A construct whose branches are lists of errands ends with a last fold, and its roster is an account of the run. -/
theorem recounts_run {c : Setting} (race : Bool) (s : State) {branches : List (List (Errand c.domain))}
    (hn : branches ≠ []) (hb : ∀ b ∈ branches, b ≠ []) :
    ∃ (r : Roster c.domain c.budget) (l : Leg c.domain) (rest : List (Leg c.domain)),
      LastFold branches r l rest ∧ r.race = race ∧
      ((Errand.construct race branches).run c s).Recounts c.budget branches s r.calls (r.folded ++ [l]) ∧
      ((Errand.construct race branches).run c s).world.clock = r.clock ∧
      ((Errand.construct race branches).run c s).world.completions.Perm
        ((r.folded ++ r.batch).map fun l => (l.finish, l.errand.bound.record)) := by
  have ho := isOver_blank c.budget race s hn hb
  obtain ⟨n, hover, hrun⟩ := run_construct race s hn ho
  have hs := (coherent_blank c.budget race s branches).dispatch rfl
  obtain ⟨r, l, rest, hl, he⟩ := hs.exists_lastFold (rested_dispatch _) hn (by rw [isOver_dispatch, ho]) hover
  have hopened := (opened_dispatch_blank c.budget race s hb).runFor n
  obtain ⟨hrace, hbase⟩ := kept_runFor (blank c.budget race s branches).dispatch n
  rw [he] at hopened hrace hbase hrun
  have hr := hl.coherent.recounts hopened hb
  rw [hbase, folded_absorb] at hr
  rw [hrun]
  refine ⟨r, l, rest, hl, hrace, hr, rfl, ?_⟩
  rw [completions_ended]
  exact hl.folds.coherent.logged.completed

theorem result_of_runFor {c : Setting} (race : Bool) (s : State) {branches : List (List (Errand c.domain))}
    (hn : branches ≠ []) (hb : ∀ b ∈ branches, b ≠ []) {n : Nat}
    (ho : ((blank c.budget race s branches).dispatch.runFor n).isOver = true) :
    ((Errand.construct race branches).run c s).result =
      .ok ((blank c.budget race s branches).dispatch.runFor n).state := by
  obtain ⟨m, hm, hrun⟩ := run_construct race s hn (isOver_blank c.budget race s hn hb)
  rw [hrun, runFor_unique hm ho]

end Roster

namespace Leg

theorem map_index_finish {branches : List (List (Errand d))} {legs : List (Leg d)} (h : ∀ l ∈ legs, l.On branches)
    {i : Nat} {b : List (Errand d)} (hb : branches[i]? = some b) :
    (legs.filter (·.lane = i)).map (fun l => (l.index, l.finish)) =
      (indices i legs).map fun k => (k, Errand.endOf b k) := by
  rw [indices, List.map_map]
  refine List.map_congr_left fun l hl => ?_
  obtain ⟨hm, hi⟩ := List.mem_filter.mp hl
  rw [← of_decide_eq_true hi] at hb
  rw [Function.comp_apply, (h l hm).finish_eq hb]

end Leg

namespace FactCall

variable {latency : Nat} {roads : RoadMap} {branches : List (List FactCall)} {key : String}

theorem Puts.effect {f : FactCall} (h : f.Puts key) (s : State) : f.bound.action.effect s = s.withFact key f.value := by
  obtain ⟨hname, hkey⟩ := h
  have he : f.deed.entry (s.fact? f.deed.key) = f.value := by
    rw [deed, ActionRecord.deed, if_neg (show f.name ≠ "Inc" by rw [hname]; decide)]
    rfl
  rw [← hkey, ← he]
  rfl

theorem exists_branch_of_on {l : Leg (Domain.standard latency roads)} (h : l.On (errands latency roads branches)) :
    ∃ b, branches[l.lane]? = some b ∧ b.length = l.index + 1 + l.after.length ∧ l.finish = endOf b l.index := by
  obtain ⟨b, hb, -⟩ := Option.map_eq_some_iff.mp (List.getElem?_map.symm.trans h)
  have hx : (errands latency roads branches)[l.lane]? = _ := getElem?_errands hb
  refine ⟨b, hb, ?_, ?_⟩
  · rw [← h.length_eq hx, List.length_map]
  · rw [h.finish_eq hx, endOf_errands]

/-- A leg of branches that set a fact once is the whole of its branch. -/
theorem exists_of_on (hk : ∀ b ∈ branches, ∃ f, b = [f] ∧ f.Puts key) {l : Leg (Domain.standard latency roads)}
    (h : l.On (errands latency roads branches)) :
    ∃ f : FactCall, branches[l.lane]? = some [f] ∧ f.Puts key ∧ l.before = [] ∧ l.errand = errand latency roads f := by
  rw [Leg.On, errands, List.getElem?_map, Option.map_eq_some_iff] at h
  obtain ⟨b, hb, he⟩ := h
  obtain ⟨f, rfl, hf⟩ := hk b (List.mem_of_getElem? hb)
  refine ⟨f, hb, hf, ?_⟩
  cases hl : l.before with
  | nil =>
    rw [hl] at he
    exact ⟨rfl, (List.cons.inj he).1.symm⟩
  | cons _ _ =>
    rw [hl] at he
    simp at he

/-- Of branches that set a fact once, the last one in the order of time has the last word. -/
theorem exists_last_word (hn : branches ≠ []) (hk : ∀ b ∈ branches, ∃ f, b = [f] ∧ f.Puts key) {run : Run} {s : State}
    {calls order : List (Leg (Domain.standard latency roads))}
    (hr : run.Recounts budget (errands latency roads branches) s calls order)
    (hi : ∀ i b, (errands latency roads branches)[i]? = some b → Leg.indices i order = List.range b.length) :
    ∃ (t : State) (i : Nat) (f : FactCall), run.result = .ok t ∧ branches[i]? = some [f] ∧ t.fact? key = some f.value ∧
      ∀ (j : Nat) (g : FactCall), branches[j]? = some [g] →
        g.ms < f.ms ∨ g.ms = f.ms ∧ (Roster.Uncrowded budget (errands latency roads branches) calls f.ms → j ≤ i) := by
  have hplace : ∀ m ∈ order, ∃ f : FactCall, branches[m.lane]? = some [f] ∧ f.Puts key ∧
      m.errand = errand latency roads f ∧ m.seq = m.lane ∧ m.finish = f.ms := by
    intro m hm
    have hc := hr.once.subset hm
    obtain ⟨f, hf, hputs, hbefore, herrand⟩ := exists_of_on hk (hr.on m hc)
    refine ⟨f, hf, hputs, herrand, hr.opening m hc hbefore, ?_⟩
    rw [Leg.finish, Leg.start, hbefore, herrand]
    exact Nat.zero_add _
  have hleg : ∀ (j : Nat) (g : FactCall), branches[j]? = some [g] → ∃ m ∈ order, m.seq = j ∧ m.finish = g.ms := by
    intro j g hg
    have hfirst : 0 ∈ Leg.indices j order := by
      rw [hi j _ (getElem?_errands hg)]
      exact List.mem_singleton_self 0
    obtain ⟨m, hm, rfl, -⟩ := Leg.exists_of_mem_indices hfirst
    obtain ⟨f, hf, -, -, hseq, hfinish⟩ := hplace m hm
    rw [hf] at hg
    cases hg
    exact ⟨m, hm, hseq, hfinish⟩
  obtain rfl | ⟨front, l, rfl⟩ := List.eq_nil_or_concat' order
  · obtain ⟨b, rest, rfl⟩ := List.exists_cons_of_ne_nil hn
    obtain ⟨f, rfl, -⟩ := hk _ List.mem_cons_self
    obtain ⟨m, hm, -⟩ := hleg 0 f rfl
    cases hm
  · obtain ⟨f, hf, hputs, herrand, hseq, hfinish⟩ := hplace l (List.mem_append_right _ (List.mem_singleton_self l))
    refine ⟨_, l.lane, f, hr.result, hf, ?_, ?_⟩
    · rw [List.foldl_append, List.foldl_cons, List.foldl_nil, Leg.apply, herrand]
      refine (congrArg (State.fact? · key) (hputs.effect _)).trans ?_
      rw [State.fact?, State.withFact, Fields.get?_insert_self]
    · intro j g hg
      obtain ⟨m, hm, rfl, hmf⟩ := hleg j g hg
      rw [← hmf, ← hfinish, ← hseq]
      rcases List.mem_append.mp hm with hm | hm
      · have hp := (List.pairwise_append.mp hr.sorted).2.2 m hm l (List.mem_singleton_self l)
        exact hp.imp_right fun hx => ⟨hx.1, fun hu => (hx.2 (hx.1 ▸ hu)).le⟩
      · rw [List.mem_singleton.mp hm]
        exact .inr ⟨rfl, fun _ => le_rfl⟩

def put (n ms : Int64) : FactCall where
  name := "Put"
  args := [("value", .const (.int n)), ("ms", .const (.int ms))]
  named := .inr rfl
  constant := List.forall_mem_cons.mpr ⟨rfl, List.forall_mem_singleton.mpr rfl⟩

end FactCall

namespace Program

open Roster FactCall

/-- The branches of a `conc` do not delay each other: the calls of each come to their ends when the times of the calls
up to them are over. All effects are folded in the order of these ends, and at one instant in the order of dispatch
unless the instant is crowded. So of branches that set the same fact once, the one that takes longest has the last word,
and among several of these the last one. -/
theorem conc_folds_in_order (latency : Nat) (roads : RoadMap) (limit : Option Nat) (budget : Budget) (s : State)
    (branches : List (List FactCall)) (hn : branches ≠ []) (hb : ∀ b ∈ branches, b ≠ []) :
    let run := (control .conc (branches.map FactCall.block)).run ⟨Domain.standard latency roads, limit, budget⟩ s
    ∃ calls order, run.Recounts budget (errands latency roads branches) s calls order ∧ order.Perm calls ∧
      run.world.completions.Perm (order.map fun l => (l.finish, l.errand.bound.record)) ∧
      (∀ i b, branches[i]? = some b → (order.filter (·.lane = i)).map (fun l => (l.index, l.finish)) =
        (List.range b.length).map fun k => (k, FactCall.endOf b k)) ∧
      ∀ key, (∀ b ∈ branches, ∃ f, b = [f] ∧ f.Puts key) →
        ∃ (t : State) (i : Nat) (f : FactCall),
          run.result = .ok t ∧ branches[i]? = some [f] ∧ t.fact? key = some f.value ∧
          ∀ (j : Nat) (g : FactCall), branches[j]? = some [g] →
            g.ms < f.ms ∨ g.ms = f.ms ∧ (Uncrowded budget (errands latency roads branches) calls f.ms → j ≤ i) := by
  intro run
  obtain ⟨r, l, rest, hl, hrace, hr, -, hc⟩ := recounts_run (c := ⟨Domain.standard latency roads, limit, budget⟩) false
    s (errands_ne_nil hn) (forall_errands_ne_nil hb)
  rw [construct_errands] at hr hc
  obtain ⟨hp, hi⟩ := hl.coherent.accounts.folded_of_done (hl.isDone_eq_true hrace)
  rw [folded_absorb] at hi
  have hperm : (r.folded ++ [l]).Perm r.calls := by
    have := hl.coherent.accounts.calls
    rwa [hp, List.append_nil, folded_absorb] at this
  refine ⟨r.calls, r.folded ++ [l], hr, hperm, ?_, ?_, fun key hk => exists_last_word hn hk hr hi⟩
  · have hbatch : rest = [] := by
      simp only [pending, absorb, List.append_eq_nil_iff] at hp
      exact hp.1.1.1
    rw [hl.batch, hbatch] at hc
    exact hc
  · intro i b hib
    have hx : (errands latency roads branches)[i]? = some _ := getElem?_errands hib
    rw [Leg.map_index_finish (fun l hl => hr.on l (hperm.subset hl)) hx, hi i _ hx, List.length_map]
    exact List.map_congr_left fun k _ => by rw [endOf_errands]

/-- Of three branches two take longest, and the second of these has the last word. -/
theorem conc_folds_in_order_threePuts :
    ∃ t, ((control .conc ([[put 7 30], [put 8 30], [put 9 20]].map FactCall.block)).run Setting.standard {}).result =
        .ok t ∧ t.fact? "slot" = some (.int 8) := by
  obtain ⟨calls, order, -, -, -, -, hlast⟩ := conc_folds_in_order 100 .delivery none .standard {}
    [[put 7 30], [put 8 30], [put 9 20]] (List.cons_ne_nil _ _) (by simp)
  have hputs : ∀ b ∈ [[put 7 30], [put 8 30], [put 9 20]], ∃ f, b = [f] ∧ f.Puts "slot" := by
    intro b hb
    simp only [List.mem_cons, List.not_mem_nil, or_false] at hb
    rcases hb with rfl | rfl | rfl <;> exact ⟨_, rfl, rfl, rfl⟩
  obtain ⟨t, i, f, ht, hf, hv, hmax⟩ := hlast "slot" hputs
  refine ⟨t, ht, ?_⟩
  have hsecond := hmax 1 (put 8 30) rfl
  match i, hf with
  | 0, hf =>
    cases hf
    rcases hsecond with h | ⟨-, h⟩
    · exact absurd h (by decide)
    · exact absurd (h (.inl (by decide))) (by decide)
  | 1, hf =>
    cases hf
    exact hv
  | 2, hf =>
    cases hf
    rcases hsecond with h | ⟨h, -⟩
    · exact absurd h (by decide)
    · exact absurd h (by decide)

def crowd : List (List FactCall) := (List.range 257).map fun n => [put (Int64.ofNat n) 0]

/-- With so many branches that take no time it is not the last one that has the last word. -/
theorem conc_crowd_overtaken :
    ∃ t, ((control .conc (crowd.map FactCall.block)).run Setting.standard {}).result = .ok t ∧
      (t.fact? "slot").bind Value.asCount? = some 128 := by
  have hx : (((blank .standard false {} (errands 100 .delivery crowd)).dispatch.runFor 1000).isOver,
      (((blank .standard false {} (errands 100 .delivery crowd)).dispatch.runFor 1000).state.fact? "slot").bind
        Value.asCount?) = (true, some 128) := by
    decide +kernel
  have hb : ∀ b ∈ crowd, b ≠ [] := by
    intro b hb
    obtain ⟨n, -, rfl⟩ := List.mem_map.mp hb
    exact List.cons_ne_nil _ _
  have hr := result_of_runFor (c := Setting.standard) false {} (errands_ne_nil (by decide : crowd ≠ []))
    (forall_errands_ne_nil hb) (Prod.mk.inj hx).1
  rw [construct_errands] at hr
  exact ⟨_, hr, (Prod.mk.inj hx).2⟩

/-- A race succeeds at the instant at which its shortest branch comes to its end. Its effects are those of the calls up
to the first one that finishes its branch, in the order of their ends. Everything that ends before that instant is among
them, nothing that ends later is, and at the instant itself those are that were dispatched no later than the last one,
unless the instant is crowded. -/
theorem either_folds_up_to_winner (latency : Nat) (roads : RoadMap) (limit : Option Nat) (budget : Budget) (s : State)
    (branches : List (List FactCall)) (hn : branches ≠ []) (hb : ∀ b ∈ branches, b ≠ []) :
    let run := (control .either (branches.map FactCall.block)).run ⟨Domain.standard latency roads, limit, budget⟩ s
    ∃ calls front last, run.Recounts budget (errands latency roads branches) s calls (front ++ [last]) ∧
      last.after = [] ∧ (∀ l ∈ front, l.after ≠ []) ∧
      last.finish = run.world.clock ∧ (branches.map fun b => (b.map FactCall.ms).sum).min? = some run.world.clock ∧
      (∀ l ∈ front, l.finish ≤ run.world.clock) ∧
      (∀ i b k, branches[i]? = some b → k < b.length → FactCall.endOf b k < run.world.clock →
        ∃ l ∈ front, l.lane = i ∧ l.index = k) ∧
      (Uncrowded budget (errands latency roads branches) calls run.world.clock →
        ∀ l ∈ calls, l ∈ front ++ [last] ↔
          l.finish < run.world.clock ∨ l.finish = run.world.clock ∧ l.seq ≤ last.seq) := by
  intro run
  obtain ⟨r, l, rest, hl, hrace, hr, hclock, -⟩ := recounts_run (c := ⟨Domain.standard latency roads, limit, budget⟩)
    true s (errands_ne_nil hn) (forall_errands_ne_nil hb)
  rw [construct_errands] at hr hclock
  have hcoherent := hl.folds.coherent
  replace hclock : run.world.clock = l.finish := hclock.trans hl.finish_eq.symm
  rw [hclock]
  refine ⟨r.calls, r.folded, l, hr, hl.after_eq_nil,
    fun m => hcoherent.accounts.after_ne_nil (hl.isDone_eq_false hrace), rfl, ?_, ?_, ?_, ?_⟩
  · refine List.min?_eq_some_iff.mpr ⟨?_, ?_⟩
    · obtain ⟨b, hb, hx⟩ := Option.map_eq_some_iff.mp (List.getElem?_map.symm.trans hl.on)
      rw [hl.on.finish_eq_sum (getElem?_errands hb) hl.after_eq_nil, sum_errands]
      exact List.mem_map_of_mem (List.mem_of_getElem? hb)
    · intro total ht
      obtain ⟨b, hm, rfl⟩ := List.mem_map.mp ht
      rw [← sum_errands latency roads]
      exact hl.finish_le hrace (List.mem_map_of_mem hm) (mt List.map_eq_nil_iff.mp (hb b hm))
  · intro m hm
    rw [hl.finish_eq]
    exact hcoherent.timely.finish_le_clock hm
  · intro i b k hi hk ht
    rw [← endOf_errands latency roads, hl.finish_eq] at ht
    exact Leg.exists_of_mem_indices (hcoherent.mem_indices_folded (getElem?_errands hi) (by rwa [List.length_map]) ht)
  · intro hu m hm
    rw [← folded_absorb r l rest]
    exact hl.mem_folded_iff (hl.finish_eq ▸ hu) hm

def tiedRace : List (List FactCall) := [[put 5 30, put 6 10], [put 9 30], [put 7 30]]

/-- Only the first branch has something after its first call, and all first calls end at the same instant. -/
theorem place_of_on_tiedRace {l : Leg (Domain.standard 100 .delivery)} (h : l.On (errands 100 .delivery tiedRace)) :
    (l.after ≠ [] → l.lane = 0 ∧ l.index = 0) ∧ (l.after = [] → l.index = 0 → 0 < l.lane) ∧
      (l.finish = 30 ↔ l.index = 0) := by
  obtain ⟨b, hb, hlen, hf⟩ := exists_branch_of_on h
  rw [ne_eq, ← List.length_eq_zero_iff, hf]
  generalize l.lane = i at hb ⊢
  match i, hb with
  | 0, rfl =>
    have hk : l.index = 0 ∨ l.index = 1 := by
      change 2 = _ at hlen
      omega
    rcases hk with hk | hk <;> rw [hk] at hlen ⊢
    · refine ⟨fun _ => ⟨rfl, rfl⟩, fun ha => ?_, by decide⟩
      rw [ha] at hlen
      cases hlen
    · refine ⟨fun ha => absurd hlen ?_, nofun, by decide⟩
      change 2 ≠ _
      omega
  | 1, rfl | 2, rfl =>
    have hk : l.index = 0 := by
      change 1 = _ at hlen
      omega
    rw [hk] at hlen ⊢
    refine ⟨fun ha => absurd hlen ?_, fun _ _ => by decide, by decide⟩
    change 1 ≠ _
    omega

/-- Of three calls that end at the same instant the first is folded without finishing its branch, the second one wins,
and the third one is not folded. -/
theorem either_folds_up_to_winner_tie :
    let run := (control .either (tiedRace.map FactCall.block)).run Setting.standard {}
    ∃ calls order, run.Recounts .standard (errands 100 .delivery tiedRace) {} calls order ∧
      (∀ i < 3, ∃ l ∈ calls, l.lane = i ∧ l.index = 0 ∧ l.finish = run.world.clock) ∧
      order.map (fun l => (l.lane, l.index)) = [(0, 0), (1, 0)] := by
  intro run
  obtain ⟨calls, front, last, hr, hafter, hfront, hfinish, hmin, -, -, hiff⟩ :=
    either_folds_up_to_winner 100 .delivery none .standard {} tiedRace (List.cons_ne_nil _ _) (by simp [tiedRace])
  have hclock : run.world.clock = 30 := Option.some.inj (hmin.symm.trans (by decide))
  replace hiff := hiff (.inl (by decide))
  change last.finish = run.world.clock at hfinish
  change ∀ l ∈ calls, l ∈ front ++ [last] ↔ l.finish < run.world.clock ∨ l.finish = run.world.clock ∧ l.seq ≤ last.seq
    at hiff
  have hplace := fun l hl => place_of_on_tiedRace (hr.on l hl)
  have hseq : ∀ l ∈ calls, l.index = 0 → l.seq = l.lane := fun l hl hi =>
    hr.opening l hl (List.length_eq_zero_iff.mp hi)
  have hfirst : ∀ i < 3, ∃ l ∈ calls, l.lane = i ∧ l.index = 0 ∧ l.finish = run.world.clock := by
    intro i hi
    obtain ⟨l, hl, hlane, hb⟩ := hr.first i hi
    have hindex : l.index = 0 := List.length_eq_zero_iff.mpr hb
    exact ⟨l, hl, hlane, hindex, ((hplace l hl).2.2.mpr hindex).trans hclock.symm⟩
  have hmem : ∀ l ∈ front ++ [last], l ∈ calls := fun l hl => hr.once.subset hl
  have hlast : last ∈ calls := hmem last List.mem_concat_self
  have hindex : last.index = 0 := (hplace last hlast).2.2.mp (hfinish.trans hclock)
  have hlane := (hplace last hlast).2.1 hafter hindex
  have hone : last.lane = 1 := by
    -- the call of the second branch is folded, and it finishes its branch
    obtain ⟨l, hl, hl1, hi, hf⟩ := hfirst 1 (by decide)
    have hm := (hiff l hl).mpr (.inr ⟨hf, by rw [hseq l hl hi, hseq last hlast hindex, hl1]; exact hlane⟩)
    rcases List.mem_append.mp hm with hm | hm
    · have := (hplace l hl).1 (hfront l hm)
      omega
    · rw [← List.mem_singleton.mp hm]
      exact hl1
  have hzero : ∀ l ∈ front, l.lane = 0 ∧ l.index = 0 := fun l hl =>
    (hplace l (hmem l (List.mem_append_left _ hl))).1 (hfront l hl)
  have hm : front ≠ [] := by
    obtain ⟨l, hl, hl0, hi, hf⟩ := hfirst 0 (by decide)
    have hm := (hiff l hl).mpr (.inr ⟨hf, by rw [hseq l hl hi, hl0]; exact Nat.zero_le _⟩)
    rintro rfl
    rw [List.mem_singleton.mp hm, hone] at hl0
    cases hl0
  refine ⟨calls, front ++ [last], hr, hfirst, ?_⟩
  match front, hm, hzero, hr.places 0 with
  | [x], _, hzero, _ =>
    obtain ⟨hx, hi⟩ := hzero x List.mem_cons_self
    simp only [List.map_append, List.map_cons, List.map_nil, hx, hi, hone, hindex]
    rfl
  | x :: y :: rest, _, hzero, ⟨k, hk⟩ =>
    -- a call would be folded twice
    obtain ⟨hx, hxi⟩ := hzero x List.mem_cons_self
    obtain ⟨hy, hyi⟩ := hzero y (List.mem_cons_of_mem _ List.mem_cons_self)
    have hn := List.nodup_range (n := k)
    rw [← hk, List.cons_append, List.cons_append, Leg.indices_cons_self hx, Leg.indices_cons_self hy, hxi, hyi] at hn
    exact absurd List.mem_cons_self (List.nodup_cons.mp hn).1

/-- Branches of two calls without latency, and after them one of a single call. -/
def crowdedRace : List (List FactCall) :=
  (List.range 128).map (fun n => [put (Int64.ofNat n) 0, put (Int64.ofNat (1000 + n)) 0]) ++ [[put 128 0]]

/-- The single call is overtaken by the second calls of the other branches, and the first of these wins. -/
theorem either_crowd_overtaken :
    ∃ t, ((control .either (crowdedRace.map FactCall.block)).run Setting.standard {}).result = .ok t ∧
      (t.fact? "slot").bind Value.asCount? = some 1000 := by
  have hx : (((blank .standard true {} (errands 100 .delivery crowdedRace)).dispatch.runFor 1000).isOver,
      (((blank .standard true {} (errands 100 .delivery crowdedRace)).dispatch.runFor 1000).state.fact? "slot").bind
        Value.asCount?) = (true, some 1000) := by
    decide +kernel
  have hb : ∀ b ∈ crowdedRace, b ≠ [] := by
    refine List.forall_mem_append.mpr ⟨fun b hb => ?_, List.forall_mem_singleton.mpr (List.cons_ne_nil _ _)⟩
    obtain ⟨n, -, rfl⟩ := List.mem_map.mp hb
    exact List.cons_ne_nil _ _
  have hr := result_of_runFor (c := Setting.standard) true {} (errands_ne_nil (List.append_ne_nil_of_right_ne_nil _
    (List.cons_ne_nil _ _))) (forall_errands_ne_nil hb) (Prod.mk.inj hx).1
  rw [construct_errands] at hr
  exact ⟨_, hr, (Prod.mk.inj hx).2⟩

end Program

end Agenda
