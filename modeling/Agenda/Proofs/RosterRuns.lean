import Mathlib
import Agenda.Proofs.Origins
import Agenda.Proofs.Progress
import Agenda.Proofs.RosterOrder

/-!
# Runs of rosters

A construct whose branches are blocks of errands is a roster: seen from far enough away, the machine takes the steps of
the roster, one or more of its own for each. So the construct ends as the roster does.
-/

namespace Agenda

set_option autoImplicit false

/-! ### Ways of the machine -/

namespace Machine

/-- The machine comes from one to the other in one or more steps, before its main work is settled. -/
def Goes (c : Setting) : Machine → Machine → Prop :=
  Relation.TransGen fun m m' => (∀ outcome, m.main ≠ .settled outcome) ∧ m.step c = some m'

variable {c : Setting} {m m' : Machine}

theorem Goes.settle_eq (h : Goes c m m') : m.settle c = m'.settle c := by
  induction h with
  | single h => exact settle_of_some h.1 h.2
  | tail _ h ih => rw [ih, settle_of_some h.1 h.2]

theorem wellFounded_goes (c : Setting) : WellFounded fun m' m => Goes c m m' := by
  have hw : WellFounded fun m' m : Machine => (∀ outcome, m.main ≠ .settled outcome) ∧ m.step c = some m' := by
    refine Subrelation.wf ?_ (InvImage.wf (fun m : Machine => (m.weight, m.fatigue, m.unrest))
      (wellFounded_lt.prod_lex (wellFounded_lt.prod_lex wellFounded_lt)))
    intro m' m h
    exact m.lex_step c h.2
  refine Subrelation.wf ?_ hw.transGen
  intro m' m h
  exact Relation.TransGen.swap _ _ h

theorem goes_of_advance {s : Scheduler Work} {σ τ : World} {w : Work}
    (h : (Work.group s).advance c σ = some (w, τ)) : Goes c ⟨.group s, σ⟩ ⟨w, τ⟩ := by
  refine .single ⟨fun _ => Work.noConfusion, ?_⟩
  rw [step, h]

theorem goes_of_moves {s : Scheduler Work} {σ τ : World} {w : Work} (h : Work.Moves c (.group s) σ w τ) :
    Goes c ⟨.group s, σ⟩ ⟨w, τ⟩ :=
  goes_of_advance (Work.advance_eq_some_iff.mpr h)

end Machine

variable {d : Domain} {budget : Budget}

/-! ### What a roster stands for -/

def Errand.call (e : Errand d) : Program := .call e.name e.args

def Errand.block (errands : List (Errand d)) : Program := .block (errands.map Errand.call)

def Errand.construct (race : Bool) (branches : List (List (Errand d))) : Program :=
  .control (if race then .either else .conc) (branches.map Errand.block)

theorem Errand.construct_map {α : Type} (f : α → Errand d) (race : Bool) (branches : List (List α)) :
    construct race (branches.map (List.map f)) =
      .control (if race then .either else .conc) (branches.map fun b => .block (b.map fun x => (f x).call)) := by
  rw [construct, List.map_map]
  congr 1
  refine List.map_congr_left fun b _ => ?_
  rw [Function.comp_apply, block, List.map_map]
  rfl

namespace Leg

def execution (l : Leg d) (timer : Timer) (postponed : Option Nat) : Execution where
  bound := l.errand.bound
  after := l.errand.bound.action.effect l.seen
  trace := []
  updates := []
  scopes := [0]
  timer
  postponed

def frames (l : Leg d) : List Frame := [.before (l.after.map Errand.call)]

def flight (l : Leg d) (timer : Timer) (postponed : Option Nat) : Flight Work :=
  ⟨l.lane, l.seq, l.frames, .acting (l.execution timer postponed)⟩

/-- The timer of a leg that is not waiting for it, when so many calls have started. -/
def timerAt (l : Leg d) (begun clock : Nat) : Timer :=
  if begun ≤ l.seq then .idle else if l.start = clock then .unset else .rung

theorem timerAt_of_started {l : Leg d} {begun clock : Nat} (h : l.seq < begun) :
    l.timerAt begun clock = if l.start = clock then .unset else .rung :=
  if_neg (not_le.mpr h)

theorem timerAt_start {l x : Leg d} {begun clock : Nat} (hb : begun ≤ l.seq) (hx : begun ≤ x.seq → l.seq < x.seq) :
    x.timerAt (l.seq + 1) clock = x.timerAt begun clock := by
  unfold timerAt
  by_cases hle : begun ≤ x.seq
  · rw [if_pos hle, if_pos (Nat.succ_le_of_lt (hx hle))]
  · rw [if_neg hle, if_neg (by omega)]

def outcome (l : Leg d) : Outcome :=
  ⟨l.errand.bound.action.effect l.seen, l.errand.result, [.effect l.errand.bound]⟩

def completion (l : Leg d) : Completion := ⟨l.lane, l.seq, l.frames, .ok l.outcome⟩

end Leg

def Lane.slot : Lane d → Program
  | .done => .done
  | .busy => .blocked
  | .ready _ errand after => Errand.block (errand :: after)

namespace Roster

def kind (r : Roster d budget) : Control := if r.race then .either else .conc

def result (r : Roster d budget) : Option Value := r.folded.foldl (fun v l => l.errand.result.or v) none

def applied (r : Roster d budget) : List Update := r.folded.map fun l => .effect l.errand.bound

def waiting (r : Roster d budget) : List (Flight Work) :=
  r.timed.map (fun x => x.2.flight (.set x.1 x.2.finish) none) ++
    r.postponed.map fun x => x.2.flight (x.2.timerAt r.begun r.clock) (some x.1)

def scheduler (r : Roster d budget) (attention : Attention) : Scheduler Work where
  kind := r.kind
  slots := r.lanes.map Lane.slot
  state := r.state
  scope := 0
  outer := []
  queue := r.queue.map fun l => l.flight (l.timerAt r.begun r.clock) none
  waiting := r.waiting
  nextSeq := r.calls.length
  result := r.result
  applied := r.applied
  batch := r.batch.map Leg.completion
  attention

def world (r : Roster d budget) : World where
  clock := r.clock
  allowance := r.allowance
  nextTicket := r.tickets
  nextScope := 1
  log := r.log

/-- The machine that the roster stands for. -/
def machine (r : Roster d budget) (attention : Attention) : Machine := ⟨.group (r.scheduler attention), r.world⟩

def ended (r : Roster d budget) : Machine :=
  ⟨.settled (.ok ⟨r.state, r.result, r.applied⟩), r.world.abandon 0 (r.scheduler .fresh).works⟩

/-- Where the construct may be in looking at its flights: it has taken no more looks than there are flights that wait,
or it rests because there is nothing to do. -/
inductive Allows (r : Roster d budget) : Attention → Prop
  | looking {taken : Nat} : taken ≤ r.waiting.length → Allows r (.looking taken 0 false)
  | resting {again : Bool} : r.Quiet → Allows r (.resting again)

variable {c : Setting} {branches : List (List (Errand c.domain))} {r : Roster c.domain c.budget} {l : Leg c.domain}
  {rest : List (Leg c.domain)}

theorem isDone_slot (lane : Lane d) : lane.slot.isDone = lane.isDone := by
  cases lane <;> rfl

theorem isFinished_scheduler (r : Roster d budget) (attention : Attention) :
    (r.scheduler attention).isFinished = r.isOver := by
  have hd : Program.isDone ∘ Lane.slot = (Lane.isDone : Lane d → Bool) := funext isDone_slot
  unfold Scheduler.isFinished Scheduler.slotsFinished isOver scheduler kind
  simp only [List.any_map, List.all_map, hd]
  cases r.race <;> rfl

/-! ### Looks -/

theorem complete_execution (l : Leg d) (timer : Timer) (σ : World) :
    (l.execution timer none).complete σ =
      (.settled (.ok l.outcome), σ.record (.completed l.errand.bound.record σ.clock)) := by
  unfold Execution.complete
  simp only [Leg.execution, l.errand.succeeds]
  rfl

theorem latency_execution (l : Leg d) (timer : Timer) (postponed : Option Nat) :
    (l.execution timer postponed).bound.action.latency = some l.errand.ms := l.errand.latency

theorem advance_unset (l : Leg d) (σ : World) :
    (l.execution .unset none).advance σ =
      if σ.allowance = 0 then some ((l.execution .unset none).postpone σ)
      else if l.errand.ms = 0 then some ((l.execution .unset none).complete σ.spend)
      else some ((l.execution .unset none).setTimer l.errand.ms σ) := by
  rw [Execution.advance, latency_execution]
  rfl

theorem advance_rung (l : Leg d) (σ : World) :
    (l.execution .rung none).advance σ =
      if σ.allowance = 0 then some ((l.execution .rung none).postpone σ)
      else some ((l.execution .rung none).complete σ.spend) := by
  rw [Execution.advance, latency_execution]
  rfl

theorem advance_execution (hb : l.seq < r.begun) (ht : l.start = r.clock ∨ l.finish = r.clock) :
    (l.execution (l.timerAt r.begun r.clock) none).advance r.world =
      if r.allowance = 0 then
        some (.acting (l.execution (l.timerAt r.begun r.clock) (some r.tickets)),
          { r.world with nextTicket := r.tickets + 1 })
      else if l.finish = r.clock then
        some (.settled (.ok l.outcome), r.world.spend.record (.completed l.errand.bound.record r.clock))
      else
        some (.acting (l.execution (.set r.tickets l.finish) none), { r.world with nextTicket := r.tickets + 1 }) := by
  rw [Leg.timerAt_of_started hb]
  by_cases hs : l.start = r.clock
  · have hf : l.finish = r.clock + l.errand.ms := by rw [Leg.finish, hs]
    rw [if_pos hs, advance_unset, complete_execution, hf]
    simp only [Nat.add_eq_left]
    rfl
  · rw [if_neg hs, advance_rung, complete_execution, if_pos (ht.resolve_left hs)]
    rfl

theorem length_flights (r : Roster d budget) (attention : Attention) :
    (r.scheduler attention).flights.length = r.queue.length + r.waiting.length := by
  rw [Scheduler.flights, List.length_append, scheduler, List.length_map]

theorem faces_scheduler {taken : Nat} (hq : r.queue = l :: rest) (ho : r.isOver = false)
    (ht : taken ≤ r.waiting.length) :
    (r.scheduler (.looking taken 0 false)).Faces (l.flight (l.timerAt r.begun r.clock) none)
      (rest.map fun l => l.flight (l.timerAt r.begun r.clock) none) := by
  refine ⟨⟨rfl, by rw [isFinished_scheduler, ho]⟩, ?_, ?_⟩
  · rw [length_flights, hq, List.length_cons]
    simp only [scheduler, Attention.isSpent, Bool.or_eq_false_iff, beq_eq_false_iff_ne]
    exact ⟨rfl, by omega⟩
  · simp only [scheduler, hq, List.map_cons]

theorem goes_follow {taken : Nat} (hq : r.queue = l :: rest) (ho : r.isOver = false) (ht : taken ≤ r.waiting.length)
    {w : Work} {τ : World} (hw : (l.execution (l.timerAt r.begun r.clock) none).advance r.world = some (w, τ))
    (hp : w.isPlain = true) :
    Machine.Goes c (r.machine (.looking taken 0 false))
      ⟨.group { r.scheduler (.looking taken 0 false) with
        queue := ⟨l.lane, l.seq, l.frames, w⟩ :: rest.map fun l => l.flight (l.timerAt r.begun r.clock) none }, τ⟩ := by
  have hfirst := Work.advance_of_faces (c := c) (faces_scheduler hq ho ht) r.world
  rw [show (l.flight (l.timerAt r.begun r.clock) none).work.advance c r.world = some (w, τ) by
    rw [Leg.flight, Work.advance, hw]] at hfirst
  have ha : w.again = false := by
    cases w with
    | group s => cases hp
    | _ => rfl
  have he : (r.scheduler (.looking taken 0 false)).follow (l.flight (l.timerAt r.begun r.clock) none)
      (rest.map fun l => l.flight (l.timerAt r.begun r.clock) none) w =
      { r.scheduler (.looking taken 0 false) with
        queue := ⟨l.lane, l.seq, l.frames, w⟩ :: rest.map fun l => l.flight (l.timerAt r.begun r.clock) none } := by
    rw [Scheduler.follow, ha]
    rfl
  rw [← he]
  exact Machine.goes_of_advance hfirst

/-- A look at the leg in front takes two steps: its execution goes on, and the construct receives what became of it. -/
theorem goes_receive {taken : Nat} (hq : r.queue = l :: rest) (ho : r.isOver = false) (ht : taken ≤ r.waiting.length)
    {w : Work} {τ : World} (hw : (l.execution (l.timerAt r.begun r.clock) none).advance r.world = some (w, τ))
    (hp : w.isPlain = true) (hs : w.isStill = true) :
    Machine.Goes c (r.machine (.looking taken 0 false))
      ⟨.group ((r.scheduler (.looking taken 0 false)).receive ⟨l.lane, l.seq, l.frames, w⟩
        (rest.map fun l => l.flight (l.timerAt r.begun r.clock) none)), τ⟩ := by
  refine (goes_follow hq ho ht hw hp).trans (Machine.goes_of_advance ?_)
  have hf := faces_scheduler hq ho ht
  have hn : Scheduler.Faces { r.scheduler (.looking taken 0 false) with
        queue := ⟨l.lane, l.seq, l.frames, w⟩ :: rest.map fun l => l.flight (l.timerAt r.begun r.clock) none }
      ⟨l.lane, l.seq, l.frames, w⟩ (rest.map fun l => l.flight (l.timerAt r.begun r.clock) none) := by
    refine ⟨⟨rfl, hf.unfinished⟩, ?_, rfl⟩
    have hu := hf.unspent
    rw [hf.flights_eq] at hu
    exact hu
  rw [Work.advance_of_faces hn]
  simp only [(Work.advance_eq_none_iff c w τ).mpr hs]
  cases w with
  | group s => cases hp
  | _ => rfl

theorem Started.waiting_start (h : r.Started) (hb : r.begun ≤ l.seq) : (r.start l).waiting = r.waiting := by
  unfold waiting
  refine congrArg _ (List.map_congr_left fun x hx => ?_)
  rw [Roster.start, Leg.timerAt_start hb fun hle => absurd (h.postponed x hx) (not_lt.mpr hle)]

theorem Started.scheduler_start (h : r.Started) (hq : r.queue = l :: rest) (hb : r.begun ≤ l.seq)
    (attention : Attention) :
    (r.start l).scheduler attention = { r.scheduler attention with
      queue := l.flight .unset none :: rest.map fun l => l.flight (l.timerAt r.begun r.clock) none } := by
  have hs : l.start = r.clock := h.fresh l (hq ▸ List.mem_cons_self) hb
  have hunset : l.timerAt (l.seq + 1) r.clock = .unset :=
    (Leg.timerAt_of_started (Nat.lt_succ_self l.seq)).trans (if_pos hs)
  have hp := h.queue
  rw [hq, List.pairwise_cons] at hp
  have hrest : rest.map (fun x => x.flight (x.timerAt (l.seq + 1) r.clock) none) =
      rest.map fun x => x.flight (x.timerAt r.begun r.clock) none :=
    List.map_congr_left fun x hx => by rw [Leg.timerAt_start hb (hp.1 x hx)]
  rw [scheduler, h.waiting_start hb]
  simp only [Roster.start, hq, List.map_cons, hunset, hrest]
  rfl

theorem Started.goes_start (h : r.Started) (hq : r.queue = l :: rest) (hb : r.begun ≤ l.seq) (ho : r.isOver = false)
    {taken : Nat} (ht : taken ≤ r.waiting.length) :
    Machine.Goes c (r.machine (.looking taken 0 false)) ((r.start l).machine (.looking taken 0 false)) := by
  have hw : (l.execution (l.timerAt r.begun r.clock) none).advance r.world =
      some (.acting (l.execution .unset none), r.world.record (.started l.errand.bound [0] r.clock)) := by
    rw [Leg.timerAt, if_pos hb]
    rfl
  rw [machine, machine, h.scheduler_start hq hb]
  exact goes_follow hq ho ht hw rfl

theorem isStill_execution (l : Leg d) (ticket : Nat) :
    (Work.acting (l.execution (.set ticket l.finish) none)).isStill = true := by
  rw [Work.isStill, Execution.isStill, latency_execution]
  rfl

theorem Coherent.goes_look (h : r.Coherent branches) (hq : r.queue = l :: rest) (hb : l.seq < r.begun)
    (ho : r.isOver = false) {taken : Nat} (ht : taken ≤ r.waiting.length) :
    ∃ attention, (r.look l rest).Allows attention ∧
      Machine.Goes c (r.machine (.looking taken 0 false)) ((r.look l rest).machine attention) := by
  have he := advance_execution hb (h.timely.queue l (hq ▸ List.mem_cons_self))
  unfold Roster.look
  split
  · rename_i h₀
    rw [if_pos h₀] at he
    have hw : ({ r with
        queue := rest
        postponed := r.postponed ++ [(r.tickets, l)]
        tickets := r.tickets + 1 } : Roster c.domain c.budget).waiting =
        r.waiting ++ [l.flight (l.timerAt r.begun r.clock) (some r.tickets)] := by
      simp only [waiting, List.map_append, List.map_cons, List.map_nil, List.append_assoc]
    refine ⟨.looking (taken + 1) 0 false, .looking ?_, ?_⟩
    · rw [hw, List.length_append]
      exact Nat.succ_le_succ ht
    · refine Eq.mpr (congrArg (Machine.Goes c _) ?_) (goes_receive hq ho ht he rfl rfl)
      rw [machine, scheduler, hw]
      rfl
  · rename_i h₀
    rw [if_neg h₀] at he
    split
    · rename_i hf
      rw [if_pos hf] at he
      refine ⟨.looking 0 0 false, .looking (Nat.zero_le _), ?_⟩
      refine Eq.mpr (congrArg (Machine.Goes c _) ?_) (goes_receive hq ho ht he rfl rfl)
      rw [machine, scheduler, List.map_append]
      rfl
    · rename_i hf
      rw [if_neg hf] at he
      -- nothing is postponed, so the new timer is the last one that waits
      have hw : ({ r with
          queue := rest
          timed := r.timed ++ [(r.tickets, l)]
          tickets := r.tickets + 1 } : Roster c.domain c.budget).waiting =
          r.waiting ++ [l.flight (.set r.tickets l.finish) none] := by
        simp only [waiting, h.ordered.postponed_eq_nil h₀, List.map_append, List.map_cons, List.map_nil,
          List.append_nil]
      refine ⟨.looking (taken + 1) 0 false, .looking ?_, ?_⟩
      · rw [hw, List.length_append]
        exact Nat.succ_le_succ ht
      · refine Eq.mpr (congrArg (Machine.Goes c _) ?_) (goes_receive hq ho ht he rfl (isStill_execution l r.tickets))
        rw [machine, scheduler, hw]
        rfl

/-! ### Rounds -/

theorem isFinal_block (s : State) (errands : List (Errand d)) :
    (Errand.block errands).isFinal s = .ok errands.isEmpty := by
  cases errands <;> rfl

theorem state_absorb (r : Roster d budget) (l : Leg d) (rest : List (Leg d)) :
    (r.absorb l rest).state = l.apply r.state := by
  rw [state, folded_absorb, List.foldl_append]
  rfl

theorem complete_completion (r : Roster d budget) (attention : Attention) (l : Leg d) (rest : List (Leg d)) :
    { r.scheduler attention with batch := [] }.complete l.completion =
      .ok { (r.absorb l rest).scheduler attention with batch := [] } := by
  have hs : Scheduler.nextSlot (l.apply r.state) (Successor.resequence none (l.after.map Errand.call)) =
      .ok (Lane.of (l.before ++ [l.errand]) l.after).slot := by
    cases l.after with
    | nil => rfl
    | cons e after =>
      simp only [List.map_cons, Successor.resequence, Scheduler.nextSlot]
      rw [← List.map_cons, ← Errand.block, isFinal_block]
      rfl
  simp only [Scheduler.complete, Leg.completion, Leg.frames, Leg.outcome, Frame.resume, List.foldl_cons, List.foldl_nil,
    Frame.apply, Successor.before, Scheduler.absorb]
  rw [show Update.applyAll (r.scheduler attention).state [.effect l.errand.bound] = l.apply r.state from rfl, hs]
  simp only [scheduler, state_absorb, result, applied, folded_absorb, List.foldl_append, List.map_append]
  simp only [absorb, List.map_set]
  rfl

theorem foldAll_scheduler (r : Roster d budget) (attention : Attention) (legs : List (Leg d)) :
    { r.scheduler attention with batch := [] }.foldAll (legs.map Leg.completion) =
      .ok { (r.absorbAll legs).scheduler attention with batch := [] } := by
  induction legs generalizing r with
  | nil => rfl
  | cons l rest ih =>
    have ho : Scheduler.isFinished { r.scheduler attention with batch := [] } = r.isOver :=
      isFinished_scheduler r attention
    rw [List.map_cons, Scheduler.foldAll, absorbAll, ho]
    cases r.isOver with
    | true => rfl
    | false =>
      rw [complete_completion r attention l rest]
      exact ih _

theorem Coherent.mergeSort_batch (h : r.Coherent branches) :
    (r.batch.map Leg.completion).mergeSort (fun a b => a.seq ≤ b.seq) = r.sorted.map Leg.completion := by
  have hm : ((r.batch.map Leg.completion).mergeSort fun a b => a.seq ≤ b.seq).Pairwise (·.seq ≤ ·.seq) := by
    have := @List.pairwise_mergeSort Completion (fun a b => a.seq ≤ b.seq) ?_ ?_ (r.batch.map Leg.completion)
    · simpa only [decide_eq_true_eq] using this
    · simp only [decide_eq_true_eq]
      exact fun _ _ _ => Nat.le_trans
    · simp only [Bool.or_eq_true, decide_eq_true_eq]
      exact fun a b => Nat.le_total a.seq b.seq
  have hs : (r.sorted.map Leg.completion).Pairwise (·.seq < ·.seq) := List.pairwise_map.mpr h.accounts.pairwise_sorted
  have hp := (List.mergeSort_perm (r.batch.map Leg.completion) fun a b => a.seq ≤ b.seq).trans
    (r.perm_sorted.symm.map Leg.completion)
  have hn : ((r.sorted.map Leg.completion).map Completion.seq).Nodup := List.pairwise_map.mpr (hs.imp Nat.ne_of_lt)
  refine List.Perm.eq_of_pairwise ?_ hm (hs.imp Nat.le_of_lt) hp
  intro a b ha hb hab hba
  exact List.inj_on_of_nodup_map hn (hp.subset ha) hb (Nat.le_antisymm hab hba)

theorem Coherent.foldBatch_scheduler (h : r.Coherent branches) (attention : Attention) :
    (r.scheduler attention).foldBatch = .ok { r.fold.scheduler attention with batch := [] } := by
  rw [Scheduler.foldBatch, show (r.scheduler attention).batch = r.batch.map Leg.completion from rfl, h.mergeSort_batch]
  exact foldAll_scheduler ({ r with batch := r.sorted } : Roster c.domain c.budget) attention r.sorted

theorem dispatch_block (c : Setting) (s : State) (errand : Errand c.domain) (after : List (Errand c.domain)) {σ : World}
    (hσ : σ.isClosed 0 = false) :
    (Errand.block (errand :: after)).dispatch c s [0] σ = {
      frames := [.before (after.map Errand.call)]
      work := .acting {
        bound := errand.bound
        after := errand.bound.action.effect s
        trace := []
        updates := []
        scopes := [0] }
      world := σ.record (.dispatched errand.bound [0] σ.clock) } := by
  have hp : Work.perform [0] [] [] s errand.bound σ = (.acting {
      bound := errand.bound
      after := errand.bound.action.effect s
      trace := []
      updates := []
      scopes := [0] }, σ.record (.dispatched errand.bound [0] σ.clock)) := by
    unfold Work.perform
    rw [List.any_cons, hσ, errand.possible]
    rfl
  rw [Errand.block, List.map_cons, Program.dispatch, Program.dispatchBlock,
    show (Errand.call errand).isFinal s = .ok false from rfl]
  simp only [Errand.call, Program.dispatch, errand.resolves, hp]
  rfl

/-- A slot that is said to be final is dispatched as one that is done. -/
theorem dispatchSlots_startsFinal (c : Setting) (s : State) (scopes : List Nat) (ps : List Program) (slot seq : Nat)
    (σ : World) :
    Program.dispatchSlots c s scopes (Program.startsFinal s) slot seq ps σ =
      Program.dispatchSlots c s scopes (fun _ => false) slot seq (Program.markFinal s ps) σ := by
  induction ps generalizing slot seq σ with
  | nil => rfl
  | cons p rest ih =>
    rw [Program.markFinal, List.map_cons, ← Program.markFinal, Program.dispatchSlots, Program.dispatchSlots]
    cases p.startsFinal s with
    | true =>
      simp only [if_true, Bool.false_eq_true, if_false, ih]
      rfl
    | false => simp only [Bool.false_eq_true, if_false, ih]

theorem dispatchSlots_lanes (c : Setting) (s : State) (lanes : List (Lane c.domain)) (lane seq : Nat) {σ : World}
    (hσ : σ.isClosed 0 = false) :
    Program.dispatchSlots c s [0] (fun _ => false) lane seq (lanes.map Lane.slot) σ =
      ⟨(lanes.map Lane.launched).map Lane.slot,
        (Lane.launch s lane seq lanes).map (·.flight .idle none),
        { σ with log := σ.log ++ (Lane.launch s lane seq lanes).map fun l =>
          .dispatched l.errand.bound [0] σ.clock }⟩ := by
  induction lanes generalizing lane seq σ with
  | nil =>
    simp only [List.map_nil, Lane.launch, List.append_nil]
    rfl
  | cons x rest ih =>
    cases x with
    | ready before errand after =>
      have hn : (σ.record (.dispatched errand.bound [0] σ.clock)).isClosed 0 = false := by
        rw [World.isClosed, World.record, List.any_append, ← World.isClosed, hσ]
        rfl
      simp only [List.map_cons, Lane.slot, Program.dispatchSlots]
      rw [dispatch_block c s errand after hσ, ih (lane + 1) (seq + 1) hn]
      simp only [Lane.launch, List.map_cons, World.record, List.append_assoc]
      rfl
    | done | busy =>
      simp only [List.map_cons, Lane.slot, Program.dispatchSlots]
      rw [ih (lane + 1) seq hσ]
      rfl

theorem Coherent.dispatchLive_scheduler (h : r.Coherent branches) (attention : Attention) :
    (r.scheduler attention).dispatchLive c r.world =
      (.group (r.dispatch.scheduler attention.renewed), r.dispatch.world) := by
  have hl : ∀ l ∈ Lane.launch r.state 0 r.calls.length r.lanes, l.timerAt r.begun r.clock = .idle :=
    fun l hl => if_pos (h.started.begun_le.trans (Lane.le_seq_of_mem_launch hl))
  have hf : (Lane.launch r.state 0 r.calls.length r.lanes).map (fun l => l.flight (l.timerAt r.begun r.clock) none) =
      (Lane.launch r.state 0 r.calls.length r.lanes).map (·.flight .idle none) :=
    List.map_congr_left fun l hm => by rw [hl l hm]
  have hclosed : r.world.isClosed 0 = false := h.logged.closed 0
  have hd := dispatchSlots_lanes c r.state r.lanes 0 r.calls.length hclosed
  unfold Scheduler.dispatchLive
  rw [show Program.dispatchSlots c (r.scheduler attention).state ((r.scheduler attention).scope ::
    (r.scheduler attention).outer) (fun _ => false) 0 (r.scheduler attention).nextSeq (r.scheduler attention).slots
    r.world = _ from hd]
  simp only [scheduler, Roster.dispatch, List.map_append, hf, List.length_append, List.length_map]
  rfl

theorem turns_scheduler (taken : Nat) (hq : r.queue = []) (ho : r.isOver = false) :
    (r.scheduler (.looking taken 0 false)).Turns (taken == r.waiting.length) := by
  refine ⟨⟨rfl, by rw [isFinished_scheduler, ho]⟩, ?_, fun _ => ?_⟩
  · rw [length_flights, hq, List.length_nil, Nat.zero_add]
    rfl
  · rw [scheduler, hq, List.map_nil]

theorem Coherent.goes_fold (h : r.Coherent branches) (hq : r.queue = []) (hb : r.batch ≠ []) (ho : r.isOver = false)
    (taken : Nat) :
    Machine.Goes c (r.machine (.looking taken 0 false))
      (if r.fold.isOver then r.fold.ended else r.fold.dispatch.machine .fresh) := by
  have ht := turns_scheduler taken hq ho
  have hc : (r.scheduler (.looking taken 0 false)).batch ≠ [] := mt List.map_eq_nil_iff.mp hb
  have hs := h.foldBatch_scheduler (.looking taken 0 false)
  have hw : r.fold.world = r.world := by
    obtain ⟨lanes, now, batch, he⟩ := r.fold_eq
    rw [he]
    rfl
  split
  · rename_i hf
    have hm := Work.Moves.decide (c := c) (σ := r.world) ht hc hs
      ((isFinished_scheduler r.fold (.looking taken 0 false)).trans hf)
    rw [← hw] at hm
    rw [machine, ← hw]
    exact Machine.goes_of_moves hm
  · rename_i hf
    rw [Bool.not_eq_true] at hf
    have he : { r.fold.scheduler (.looking taken 0 false) with batch := [] } =
        r.fold.scheduler (.looking taken 0 false) := by
      rw [scheduler, show r.fold.batch = [] from batch_absorbAll rfl hf]
      rfl
    rw [he] at hs
    have hm := Work.Moves.go (c := c) (σ := r.world) ht hc hs
      ((isFinished_scheduler r.fold (.looking taken 0 false)).trans hf)
    rw [← hw, (h.fold hq).coherent.dispatchLive_scheduler] at hm
    rw [machine, ← hw]
    exact Machine.goes_of_moves hm

/-! ### Waiting -/

theorem goes_rest (hq : r.Quiet) (ho : r.isOver = false) (hw : r.waiting ≠ []) (σ : World) (taken : Nat) :
    Machine.Goes c ⟨.group (r.scheduler (.looking taken 0 false)), σ⟩
      ⟨.group (r.scheduler (.resting (taken == r.waiting.length))), σ⟩ := by
  refine Machine.goes_of_moves (.rest (turns_scheduler taken hq.queue ho) ?_ ?_)
  · rw [scheduler, hq.batch, List.map_nil]
  · rw [Scheduler.flights, scheduler, hq.queue]
    exact hw

theorem exists_resting {attention : Attention} (ha : r.Allows attention) (hq : r.Quiet) (ho : r.isOver = false)
    (hw : r.waiting ≠ []) :
    ∃ again, ∀ {m : Machine},
      Machine.Goes c (r.machine (.resting again)) m → Machine.Goes c (r.machine attention) m := by
  cases ha with
  | looking _ => exact ⟨_, (goes_rest hq ho hw r.world _).trans⟩
  | resting _ => exact ⟨_, id⟩

theorem takeUpFlights_waiting (r : Roster d budget) :
    Work.takeUpFlights r.waiting =
      r.timed.map (fun x => (none, x.2.flight (.set x.1 x.2.finish) none)) ++
        r.postponed.map fun x => (some x.1, x.2.flight (x.2.timerAt r.begun r.clock) none) := by
  rw [Work.takeUpFlights_eq_map, waiting, List.map_append, List.map_map, List.map_map]
  rfl

theorem Ticketed.byTicket_takeUpFlights (h : r.Ticketed) :
    Work.byTicket (Work.takeUpFlights r.waiting) =
      r.postponed.map fun x => x.2.flight (x.2.timerAt r.begun r.clock) none := by
  have hp : r.postponed.Pairwise (·.1 ≤ ·.1) :=
    (h.sorted.sublist (List.sublist_append_right _ _)).imp Nat.le_of_lt
  rw [takeUpFlights_waiting, Work.byTicket, List.filter_append, List.filter_map, List.filter_map]
  simp only [Function.comp_def, Option.isSome_none, Option.isSome_some, List.filter_false, List.filter_true,
    List.map_nil, List.nil_append]
  rw [List.mergeSort_of_pairwise, List.map_map]
  · rfl
  · simpa [List.pairwise_map] using hp

theorem ticketless_takeUpFlights (r : Roster d budget) :
    Work.ticketless (Work.takeUpFlights r.waiting) = r.timed.map fun x => x.2.flight (.set x.1 x.2.finish) none := by
  rw [takeUpFlights_waiting, Work.ticketless, List.filter_append, List.filter_map, List.filter_map]
  simp only [Function.comp_def, Option.isSome_none, Option.isSome_some, Bool.not_true, Bool.not_false,
    List.filter_false, List.filter_true, List.map_nil, List.append_nil, List.map_map]

theorem Coherent.takeUp_scheduler (h : r.Coherent branches) (hq : r.Quiet) (again : Bool) :
    (Work.group (r.scheduler (.resting again))).takeUp =
      .group (r.takeUp.scheduler
        (if again || (Work.lastPostponedOfFlights r.waiting).isSome then .fresh else .resting again)) := by
  have hf := r.folded_takeUp
  have hw : r.takeUp.waiting = r.timed.map fun x => x.2.flight (.set x.1 x.2.finish) none := by
    simp only [waiting, Roster.takeUp, List.map_nil, List.append_nil]
  rw [Work.takeUp]
  simp only [scheduler, state, result, applied, hf, hw, h.ticketed.byTicket_takeUpFlights, ticketless_takeUpFlights,
    hq.queue]
  simp only [Roster.takeUp, List.map_nil, Work.takeUpFlights, List.nil_append, List.map_reverse, List.map_map]
  rfl

theorem Coherent.goes_takeUp (h : r.Coherent branches) (hq : r.Quiet) (h₀ : r.allowance = 0) (again : Bool) :
    ∃ attention, r.takeUp.Allows attention ∧
      Machine.Goes c (r.machine (.resting again)) (r.takeUp.machine attention) := by
  refine ⟨if again || (Work.lastPostponedOfFlights r.waiting).isSome then .fresh else .resting again, ?_, ?_⟩
  · split
    · exact .looking (Nat.zero_le _)
    · rename_i hn
      simp only [Bool.or_eq_true, not_or, Bool.not_eq_true, Option.isSome_eq_false_iff, Option.isNone_iff_eq_none] at hn
      have hp : r.postponed = [] := by
        refine List.eq_nil_iff_forall_not_mem.mpr fun x hx => ?_
        have := Work.lastPostponedOfFlights_eq_none hn.2 _ (List.mem_append_right _ (List.mem_map_of_mem hx))
        cases this
      exact .resting ⟨by rw [Roster.takeUp, hp]; rfl, hq.batch⟩
  · refine .single ⟨fun _ => Work.noConfusion, ?_⟩
    have hs : (Work.group (r.scheduler (.resting again))).advance c r.world = none :=
      (Work.advance_eq_none_iff c _ _).mpr rfl
    rw [Machine.step, machine, hs]
    simp only
    rw [if_pos (show r.world.allowance = 0 from h₀), h.takeUp_scheduler hq]
    rfl

theorem waiting_eq_of_postponed (hp : r.postponed = []) :
    r.waiting = r.timed.map fun x => x.2.flight (.set x.1 x.2.finish) none := by
  rw [waiting, hp, List.map_nil, List.append_nil]

theorem nextDueOfFlights_timed (timed : List (Nat × Leg d)) :
    Work.nextDueOfFlights (timed.map fun x => x.2.flight (.set x.1 x.2.finish) none) =
      (timed.map (·.2.finish)).min? := by
  induction timed with
  | nil => rfl
  | cons x rest ih =>
    rw [List.map_cons, Work.nextDueOfFlights, ih, List.map_cons, List.min?_cons]
    cases (rest.map (·.2.finish)).min? <;> rfl

theorem nextDue_scheduler (hp : r.postponed = []) (hn : r.timed ≠ []) (attention : Attention) :
    (Work.group (r.scheduler attention)).nextDue = some r.nextDue := by
  have hm : (Work.group (r.scheduler attention)).nextDue = (r.timed.map (·.2.finish)).min? := by
    rw [Work.nextDue, scheduler, waiting_eq_of_postponed hp, nextDueOfFlights_timed]
  rw [hm, nextDue]
  cases hx : (r.timed.map (·.2.finish)).min? with
  | none => exact absurd (List.map_eq_nil_iff.mp (List.min?_eq_none_iff.mp hx)) hn
  | some time => rfl

def ticketAt (time : Nat) (x : Nat × Leg d) : Option Nat := if x.2.finish ≤ time then some x.1 else none

def flightAt (time : Nat) (x : Nat × Leg d) : Flight Work :=
  if x.2.finish ≤ time then x.2.flight .rung none else x.2.flight (.set x.1 x.2.finish) none

theorem isSome_ticketAt (time : Nat) (x : Nat × Leg d) : (ticketAt time x).isSome = decide (x.2.finish ≤ time) := by
  unfold ticketAt
  split <;> simp [*]

theorem ringFlights_timed (time : Nat) (timed : List (Nat × Leg d)) :
    Work.ringFlights time (timed.map fun x => x.2.flight (.set x.1 x.2.finish) none) =
      timed.map fun x => (ticketAt time x, flightAt time x) := by
  rw [Work.ringFlights_eq_map, List.map_map]
  refine List.map_congr_left fun x _ => ?_
  simp only [Function.comp_apply, Leg.flight, Work.dueTicket, Work.ring, Leg.execution, ticketAt, flightAt]
  split <;> rfl

/-- Timers that were set in order ring in order. -/
theorem Coherent.byTicket_timed (h : r.Coherent branches) {time : Nat} (hc : r.clock < time) :
    Work.byTicket (r.timed.map fun x => (ticketAt time x, flightAt time x)) =
      (r.timed.filter (·.2.finish ≤ time)).map fun x => x.2.flight (x.2.timerAt r.begun time) none := by
  have hp : (r.timed.filter (·.2.finish ≤ time)).Pairwise (·.1 < ·.1) :=
    h.ticketed.sorted.sublist (List.filter_sublist.trans (List.sublist_append_left _ _))
  rw [Work.byTicket_map]
  simp only [isSome_ticketAt]
  rw [List.mergeSort_of_pairwise]
  · refine List.map_congr_left fun x hx => ?_
    obtain ⟨hx, hf⟩ := List.mem_filter.mp hx
    have hs : x.2.start ≠ time := ((h.timely.timed x hx).1.trans_lt hc).ne
    rw [flightAt, if_pos (of_decide_eq_true hf), Leg.timerAt_of_started (h.started.timed x hx), if_neg hs]
  · refine List.Pairwise.imp_of_mem ?_ hp
    intro a b ha hb hab
    rw [ticketAt, ticketAt, if_pos (of_decide_eq_true (List.mem_filter.mp ha).2),
      if_pos (of_decide_eq_true (List.mem_filter.mp hb).2)]
    exact decide_eq_true hab.le

theorem ticketless_timed (timed : List (Nat × Leg d)) (time : Nat) :
    Work.ticketless (timed.map fun x => (ticketAt time x, flightAt time x)) =
      (timed.filter fun x => !decide (x.2.finish ≤ time)).map fun x => x.2.flight (.set x.1 x.2.finish) none := by
  rw [Work.ticketless_map]
  simp only [isSome_ticketAt]
  refine List.map_congr_left fun x hx => ?_
  have hf := (List.mem_filter.mp hx).2
  rw [Bool.not_eq_true', decide_eq_false_iff_not] at hf
  rw [flightAt, if_neg hf]

theorem Coherent.ring_scheduler (h : r.Coherent branches) (hq : r.Quiet) (hp : r.postponed = []) (hn : r.timed ≠ [])
    (again : Bool) :
    (Work.group (r.scheduler (.resting again))).ring r.nextDue = .group ((r.ring r.nextDue).scheduler .fresh) := by
  have hf := r.folded_ring r.nextDue
  have hc : r.clock < r.nextDue := by
    obtain ⟨⟨x, hx, he⟩, -⟩ := nextDue_spec hn
    exact he ▸ (h.timely.timed x hx).2
  have hw : (r.ring r.nextDue).waiting =
      (r.timed.filter fun x => !decide (x.2.finish ≤ r.nextDue)).map fun x => x.2.flight (.set x.1 x.2.finish) none :=
    waiting_eq_of_postponed hp
  have hd : (Work.dueTicketOfFlights r.nextDue r.waiting).isSome = true := by
    rw [Option.isSome_iff_ne_none]
    intro hd
    have hlt := Work.lt_of_dueTicket (w := .group (r.scheduler (.resting again))) hd
    exact lt_irrefl _ (hlt _ (nextDue_scheduler hp hn _))
  rw [Work.ring]
  simp only [scheduler, state, result, applied, hf, hw, hd, if_true]
  rw [waiting_eq_of_postponed hp, ringFlights_timed, h.byTicket_timed hc, ticketless_timed, hq.queue]
  simp only [Roster.ring, List.map_map]
  rfl

theorem Coherent.goes_ring (h : r.Coherent branches) (hq : r.Quiet) (ho : r.isOver = false) (h₀ : r.allowance ≠ 0)
    (hn : r.timed ≠ []) (again : Bool) :
    Machine.Goes c (r.machine (.resting again)) ((r.ring r.nextDue).machine .fresh) := by
  have hp := h.ordered.postponed_eq_nil h₀
  have hs (again : Bool) (σ : World) : (Work.group (r.scheduler (.resting again))).advance c σ = none :=
    (Work.advance_eq_none_iff c _ _).mpr rfl
  -- nothing asks for another look, so the clock moves
  have hring {allowance : Nat} (ha : allowance ≠ 0) :
      Machine.Goes c ⟨.group (r.scheduler (.resting false)), { r.world with allowance }⟩
        ((r.ring r.nextDue).machine .fresh) := by
    refine .single ⟨fun _ => Work.noConfusion, ?_⟩
    have hd : Machine.nextDue ⟨.group (r.scheduler (.resting false)), { r.world with allowance }⟩ = some r.nextDue := by
      rw [Machine.nextDue, nextDue_scheduler hp hn]
      rfl
    rw [Machine.step, hs]
    simp only
    rw [if_neg ha, if_neg (show ¬(Work.group (r.scheduler (.resting false))).asks = true from Bool.false_ne_true),
      show Machine.advanceDetached c [] r.world.detached { r.world with allowance } = none from rfl]
    simp only
    rw [hd, Option.map_some, Machine.ring, h.ring_scheduler hq hp hn]
    rfl
  cases again with
  | false => exact hring h₀
  | true =>
    have hw : r.waiting ≠ [] := by
      rw [waiting_eq_of_postponed hp]
      exact mt List.map_eq_nil_iff.mp hn
    have hx : (0 == r.waiting.length) = false := beq_eq_false_iff_ne.mpr (List.length_pos_iff.mpr hw).ne
    have hwake : Machine.Goes c (r.machine (.resting true)) ⟨.group (r.scheduler .fresh), r.world.renew c⟩ := by
      refine .single ⟨fun _ => Work.noConfusion, ?_⟩
      rw [Machine.step, machine, hs]
      simp only
      rw [if_neg (show ¬r.world.allowance = 0 from h₀)]
      rfl
    have hrest := goes_rest (c := c) hq ho hw (r.world.renew c) 0
    rw [hx] at hrest
    exact (hwake.trans hrest).trans (hring c.budget_ne_zero)

/-! ### Runs -/

theorem Coherent.waiting_ne_nil (h : r.Coherent branches) (hr : r.Rested) (hn : branches ≠ []) (ho : r.isOver = false)
    (hq : r.Quiet) : r.waiting ≠ [] := by
  have hp := h.accounts.exists_pending hr hn ho
  simp only [pending, hq.queue, hq.batch, List.append_nil, ne_eq, List.append_eq_nil_iff, List.map_eq_nil_iff] at hp
  simpa only [waiting, ne_eq, List.append_eq_nil_iff, List.map_eq_nil_iff, true_and] using hp

/-- The machine takes the steps of the roster. -/
theorem Coherent.goes_next (h : r.Coherent branches) (hr : r.Rested) (hn : branches ≠ []) (ho : r.isOver = false)
    {attention : Attention} (ha : r.Allows attention) :
    (r.next.isOver = true → Machine.Goes c (r.machine attention) r.next.ended) ∧
      (r.next.isOver = false → ∃ attention', r.next.Allows attention' ∧
        Machine.Goes c (r.machine attention) (r.next.machine attention')) := by
  unfold Roster.next
  split
  · rename_i l rest hq
    cases ha with
    | resting hx => cases hx.queue.symm.trans hq
    | @looking taken ht =>
      split
      · rename_i hb
        refine ⟨fun hc => absurd (ho.symm.trans hc) Bool.false_ne_true, fun _ => ⟨.looking taken 0 false, ?_, ?_⟩⟩
        · exact .looking (h.started.waiting_start hb ▸ ht)
        · exact h.started.goes_start hq hb ho ht
      · rename_i hb
        rw [isOver_look, ho]
        exact ⟨fun hc => absurd hc Bool.false_ne_true, fun _ => h.goes_look hq (not_le.mp hb) ho ht⟩
  · rename_i l rest hq hb
    cases ha with
    | resting hx => cases hx.batch.symm.trans hb
    | @looking taken _ =>
      have hg := h.goes_fold hq (hb ▸ List.cons_ne_nil l rest) ho taken
      split
      · rename_i hf
        rw [if_pos hf] at hg
        exact ⟨fun _ => hg, fun hc => absurd (hc.symm.trans hf) Bool.false_ne_true⟩
      · rename_i hf
        rw [if_neg hf] at hg
        rw [isOver_dispatch]
        exact ⟨fun hc => absurd hc hf, fun _ => ⟨.fresh, .looking (Nat.zero_le _), hg⟩⟩
  · rename_i hq hb
    obtain ⟨again, hrest⟩ := exists_resting ha ⟨hq, hb⟩ ho (h.waiting_ne_nil hr hn ho ⟨hq, hb⟩)
    split
    · rename_i h₀
      refine ⟨fun hc => absurd (ho.symm.trans hc) Bool.false_ne_true, fun _ => ?_⟩
      obtain ⟨attention', ha', hg⟩ := h.goes_takeUp ⟨hq, hb⟩ h₀ again
      exact ⟨attention', ha', hrest hg⟩
    · rename_i h₀
      have ht := h.timed_ne_nil hr hn ho ⟨hq, hb⟩ (h.ordered.postponed_eq_nil h₀)
      refine ⟨fun hc => absurd (ho.symm.trans hc) Bool.false_ne_true, fun _ => ⟨.fresh, .looking (Nat.zero_le _), ?_⟩⟩
      exact hrest (h.goes_ring ⟨hq, hb⟩ ho h₀ ht again)

theorem Coherent.settle_machine (h : r.Coherent branches) (hr : r.Rested) (hn : branches ≠ []) (ho : r.isOver = false)
    {attention : Attention} (ha : r.Allows attention) :
    ∃ n, (r.runFor n).isOver = true ∧ (r.machine attention).settle c = (r.runFor n).ended := by
  induction hm : r.machine attention using (Machine.wellFounded_goes c).induction generalizing r attention with
  | _ m ih =>
    -- on the ways of the machine: each step of the roster is one of its own at least
    subst hm
    obtain ⟨hs, hrest⟩ := h.next hr hn ho
    obtain ⟨hover, hmore⟩ := h.goes_next hr hn ho ha
    cases hx : r.next.isOver with
    | true =>
      refine ⟨1, ?_, ?_⟩
      · rw [runFor_succ ho]
        exact hx
      · rw [(hover hx).settle_eq, runFor_succ ho]
        exact Machine.settle_of_settled rfl
    | false =>
      obtain ⟨attention', ha', hg⟩ := hmore hx
      obtain ⟨n, hn, he⟩ := ih _ hg hs (hrest hx) hx ha' rfl
      refine ⟨n + 1, ?_, ?_⟩
      · rw [runFor_succ ho]
        exact hn
      · rw [hg.settle_eq, he, runFor_succ ho]

theorem startsFinal_block (s : State) (errands : List (Errand d)) :
    (Errand.block errands).startsFinal s = errands.isEmpty := by
  rw [Program.startsFinal, isFinal_block]

theorem finalityFailure?_blocks (s : State) (branches : List (List (Errand d))) :
    Program.finalityFailure? s (branches.map Errand.block) = none := by
  induction branches with
  | nil => rfl
  | cons b rest ih => rw [List.map_cons, Program.finalityFailure?, isFinal_block, ih]

theorem markFinal_blocks (budget : Budget) (race : Bool) (s : State) (branches : List (List (Errand d))) :
    Program.markFinal s (branches.map Errand.block) = (blank budget race s branches).lanes.map Lane.slot := by
  simp only [Program.markFinal, blank, List.map_map]
  refine List.map_congr_left fun b _ => ?_
  rw [Function.comp_apply, startsFinal_block]
  cases b <;> rfl

/-- The construct may end as it is if its roster is over before anything is dispatched. -/
theorem isFinal_construct (budget : Budget) (race : Bool) (s : State) (branches : List (List (Errand d))) :
    (Errand.construct race branches).isFinal s = .ok (blank budget race s branches).isOver := by
  cases race with
  | false =>
    simp only [Errand.construct, isOver, blank, Bool.false_eq_true, if_false, Program.isFinal]
    induction branches with
    | nil => rfl
    | cons b rest ih =>
      rw [List.map_cons, Program.allFinal, isFinal_block, ih]
      cases b <;> rfl
  | true =>
    simp only [Errand.construct, isOver, blank, if_true, Program.isFinal]
    induction branches with
    | nil => rfl
    | cons b rest ih =>
      rw [List.map_cons, Program.anyFinal, isFinal_block, ih]
      cases b <;> rfl

theorem validate_construct (race : Bool) (hn : branches ≠ []) : (Errand.construct race branches).validate = .ok () := by
  have ha : Program.checkArity (if race then .either else .conc) (branches.map Errand.block).length = .ok () := by
    rw [List.length_map]
    cases race <;> simp [Program.checkArity, hn]
  have hb : Program.validateAll (branches.map Errand.block) = .ok () := by
    refine Program.validateAll_of_forall fun p hp => ?_
    obtain ⟨b, -, rfl⟩ := List.mem_map.mp hp
    refine Program.validateAll_of_forall fun q hq => ?_
    obtain ⟨e, -, rfl⟩ := List.mem_map.mp hq
    exact if_neg e.named
  rw [Errand.construct, Program.validate, ha, hb]
  rfl

theorem dispatch_construct (race : Bool) (s : State) (hf : (blank c.budget race s branches).isOver = false) :
    (Errand.construct race branches).dispatch c s [] c.initial = {
      work := .group ((blank c.budget race s branches).dispatch.scheduler .fresh)
      world := (blank c.budget race s branches).dispatch.world } := by
  have hk : (if race then Control.either else .conc) = .conc ∨ (if race then Control.either else .conc) = .either := by
    cases race <;> simp
  have ho : Scheduler.slotsFinished (if race then .either else .conc)
      ((blank c.budget race s branches).lanes.map Lane.slot) = false := by
    rw [← hf]
    exact isFinished_scheduler (blank c.budget race s branches) .fresh
  have hd := Program.dispatch_construct c s hk (branches.map Errand.block) [] c.initial
  rw [finalityFailure?_blocks, markFinal_blocks c.budget race, ho, dispatchSlots_startsFinal,
    markFinal_blocks c.budget race] at hd
  have hl := (coherent_blank c.budget race s branches).dispatchLive_scheduler .fresh
  simp only [Scheduler.dispatchLive, Prod.mk.injEq] at hl
  rw [Errand.construct, hd, show Attention.fresh = Attention.fresh.renewed from rfl, ← hl.1, ← hl.2]
  simp only [Launch.group, Bool.false_eq_true, if_false, scheduler, blank, List.length_nil, Nat.zero_add]
  rfl

/-- A construct whose branches are lists of errands runs as its roster does, to the end. -/
theorem run_construct (race : Bool) (s : State) (hn : branches ≠ [])
    (hf : (blank c.budget race s branches).isOver = false) :
    ∃ n, ((blank c.budget race s branches).dispatch.runFor n).isOver = true ∧
      (Errand.construct race branches).run c s =
        ⟨.ok ((blank c.budget race s branches).dispatch.runFor n).state,
          ((blank c.budget race s branches).dispatch.runFor n).ended.world⟩ := by
  have hd := dispatch_construct (c := c) race s hf
  obtain ⟨n, ho, hs⟩ := ((coherent_blank c.budget race s branches).dispatch rfl).settle_machine (rested_dispatch _) hn
    (by rw [isOver_dispatch, hf]) (.looking (Nat.zero_le _))
  have hm : ((Errand.construct race branches).started c s c.initial).settle c =
      ((blank c.budget race s branches).dispatch.runFor n).ended := by
    rw [Program.started, hd]
    exact hs
  refine ⟨n, ho, ?_⟩
  rw [Program.run_of_validate c s (validate_construct race hn), Program.drive_eq, isFinal_construct c.budget, hf,
    Program.result_transition, Program.world_transition, hm, hd]
  rfl

end Roster

end Agenda
