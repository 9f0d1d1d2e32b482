import Mathlib
import Agenda.Proofs.Alike
import Agenda.Proofs.Calls
import Agenda.Proofs.Scopes

/-!
# Worlds side by side

Two worlds are side by side when the clock and the allowance of the first one are ahead of those of the second by fixed
amounts, and the first one has dispatched more by a fixed list of actions. In open scopes the same program starts alike
works in them, and works that are alike take alike steps, as long as neither world runs out of allowance before the
other.
-/

namespace Agenda

set_option autoImplicit false

/-- What one world has ahead of another one. -/
structure Gap where
  delay : Nat
  lead : Int
  before : List BoundAction

namespace World

structure Beside (g : Gap) (R : Nat → Nat → Prop) (σ π : World) : Prop where
  clock : σ.clock = π.clock + g.delay
  allowance : (σ.allowance : Int) = π.allowance + g.lead
  tickets : Pairing R σ.nextTicket π.nextTicket
  dispatched : σ.dispatched = g.before ++ π.dispatched

/-- The scopes are open, and so are all that are not in use yet. -/
structure Admits (σ : World) (scopes : List Nat) : Prop where
  opened : ∀ i ∈ scopes, i ∉ σ.closedScopes
  fresh : ∀ i ∈ σ.closedScopes, i < σ.nextScope

theorem Admits.any_isClosed {σ : World} {scopes : List Nat} (h : σ.Admits scopes) : scopes.any σ.isClosed = false := by
  rw [List.any_eq_false]
  intro i hi hc
  exact h.opened i hi ((σ.isClosed_iff i).mp hc)

theorem Admits.of_closed_eq {σ τ : World} {scopes : List Nat} (h : σ.Admits scopes)
    (hc : τ.closedScopes = σ.closedScopes) (hn : σ.nextScope ≤ τ.nextScope) : τ.Admits scopes := by
  constructor
  · rw [hc]
    exact h.opened
  · rw [hc]
    exact fun i hi => (h.fresh i hi).trans_le hn

theorem Admits.openScope {σ : World} {scopes : List Nat} (h : σ.Admits scopes) :
    σ.openScope.Admits (σ.nextScope :: scopes) := by
  refine ⟨?_, fun i hi => (h.fresh i hi).trans (Nat.lt_succ_self _)⟩
  intro i hi hc
  rcases List.mem_cons.mp hi with rfl | hi
  · exact Nat.lt_irrefl _ (h.fresh _ hc)
  · exact h.opened i hi hc

variable {g : Gap} {R : Nat → Nat → Prop} {σ π : World}

theorem Beside.dispatch (h : σ.Beside g R π) (bound : BoundAction) (scopes scopes' : List Nat) (time time' : Nat) :
    (σ.record (.dispatched bound scopes time)).Beside g R (π.record (.dispatched bound scopes' time')) := by
  refine ⟨h.clock, h.allowance, h.tickets, ?_⟩
  rw [dispatched_record_dispatched, dispatched_record_dispatched, h.dispatched, List.append_assoc]

theorem Beside.start (h : σ.Beside g R π) (bound : BoundAction) (scopes scopes' : List Nat) (time time' : Nat) :
    (σ.record (.started bound scopes time)).Beside g R (π.record (.started bound scopes' time')) := by
  refine ⟨h.clock, h.allowance, h.tickets, ?_⟩
  rw [dispatched_record_started, dispatched_record_started, h.dispatched]

theorem Beside.complete (h : σ.Beside g R π) (record : ActionRecord) (time time' : Nat) :
    (σ.record (.completed record time)).Beside g R (π.record (.completed record time')) := by
  refine ⟨h.clock, h.allowance, h.tickets, ?_⟩
  rw [dispatched_record_completed, dispatched_record_completed, h.dispatched]

theorem Beside.abandon (h : σ.Beside g R π) (scope scope' : Nat) (works works' : List Work) :
    (σ.abandon scope works).Beside g R (π.abandon scope' works') := by
  refine ⟨h.clock, h.allowance, h.tickets, ?_⟩
  rw [dispatched_abandon, dispatched_abandon, h.dispatched]

theorem Beside.openScope (h : σ.Beside g R π) : σ.openScope.Beside g R π.openScope :=
  ⟨h.clock, h.allowance, h.tickets, h.dispatched⟩

theorem Beside.spend (h : σ.Beside g R π) (hσ : σ.allowance ≠ 0) (hπ : π.allowance ≠ 0) :
    σ.spend.Beside g R π.spend := by
  refine ⟨h.clock, ?_, h.tickets, h.dispatched⟩
  have ha := h.allowance
  simp only [World.spend]
  omega

theorem Beside.draw (h : σ.Beside g R π) :
    ({ σ with nextTicket := σ.nextTicket + 1 } : World).Beside g
      (fun a b => R a b ∨ a = σ.nextTicket ∧ b = π.nextTicket) { π with nextTicket := π.nextTicket + 1 } :=
  ⟨h.clock, h.allowance, h.tickets.draw, h.dispatched⟩

end World

section

variable {g : Gap} {R : Nat → Nat → Prop} {σ π : World} {scopes scopes' : List Nat}

theorem Work.alike_perform (h : σ.Beside g R π) (hσ : σ.Admits scopes) (hπ : π.Admits scopes') (updates : List Update)
    (trace : List BoundAction) (s : State) (bound : BoundAction) :
    (perform scopes updates trace s bound σ).1.Alike g.delay R (perform scopes' updates trace s bound π).1 ∧
      (perform scopes updates trace s bound σ).2.Beside g R (perform scopes' updates trace s bound π).2 := by
  simp only [perform, hσ.any_isClosed, hπ.any_isClosed, Bool.false_eq_true, if_false]
  split
  · exact ⟨.settled _, h⟩
  · exact ⟨.acting scopes' .idle .none, h.dispatch bound scopes scopes' _ _⟩

structure Launch.Alike (g : Gap) (R : Nat → Nat → Prop) (l l' : Launch) : Prop where
  frames : l'.frames = l.frames
  work : l.work.Alike g.delay R l'.work
  world : l.world.Beside g R l'.world

structure Round.Alike (g : Gap) (R : Nat → Nat → Prop) (r r' : Round) : Prop where
  slots : r'.slots = r.slots
  flights : Work.AlikeFlights g.delay R r.flights r'.flights
  world : r.world.Beside g R r'.world

theorem Launch.alike_failed (h : σ.Beside g R π) (e : Failure) : (failed e σ).Alike g R (failed e π) :=
  ⟨rfl, .settled _, h⟩

theorem Launch.alike_finished (h : σ.Beside g R π) (s : State) : (finished s σ).Alike g R (finished s π) :=
  ⟨rfl, .settled _, h⟩

theorem Launch.Alike.within {l l' : Launch} (h : l.Alike g R l') (frame : Frame) :
    (l.within frame).Alike g R (l'.within frame) :=
  ⟨congrArg (· ++ [frame]) h.frames, h.work, h.world⟩

theorem Launch.alike_group {r r' : Round} (h : r.Alike g R r') (kind : Control) (s : State) (scopes scopes' : List Nat)
    (σ π : World) : (group kind s scopes σ r).Alike g R (group kind s scopes' π r') := by
  obtain ⟨slots, flights, world⟩ := r
  obtain ⟨slots', flights', world'⟩ := r'
  obtain ⟨rfl, hf, hw⟩ := h
  refine ⟨rfl, ?_, hw⟩
  simp only [group]
  rw [hf.length_eq]
  exact Work.alike_group (s := { kind, slots := _, state := s, scope := _, outer := _, queue := _, nextSeq := _ })
    π.nextScope scopes' hf Work.alikeFlights_nil

theorem Round.alike_nothing (h : σ.Beside g R π) (slots : List Program) :
    Round.Alike g R ⟨slots, [], σ⟩ ⟨slots, [], π⟩ :=
  ⟨rfl, Work.alikeFlights_nil, h⟩

theorem Round.Alike.keep {r r' : Round} (h : r.Alike g R r') (p : Program) : (r.keep p).Alike g R (r'.keep p) :=
  ⟨congrArg (p :: ·) h.slots, h.flights, h.world⟩

theorem Round.Alike.start {l l' : Launch} {r r' : Round} (h : r.Alike g R r') (hl : l.Alike g R l') (slot seq : Nat) :
    (r.start ⟨slot, seq, l.frames, l.work⟩).Alike g R (r'.start ⟨slot, seq, l'.frames, l'.work⟩) := by
  refine ⟨congrArg (Program.blocked :: ·) h.slots, ?_, h.world⟩
  rw [hl.frames]
  exact .cons hl.work h.flights

end

namespace Program

variable {g : Gap} {R : Nat → Nat → Prop}

mutual
theorem alike_dispatch (c : Setting) (s : State) :
    ∀ (p : Program) {scopes scopes' : List Nat} {σ π : World}, σ.Beside g R π → σ.Admits scopes → π.Admits scopes' →
      (p.dispatch c s scopes σ).Alike g R (p.dispatch c s scopes' π)
  | .block statements, scopes, scopes', σ, π, h, hσ, hπ => by
    simpa only [dispatch] using alike_dispatchBlock c s statements h hσ hπ
  | .branch condition consequent none, scopes, scopes', σ, π, h, hσ, hπ => by
    simp only [dispatch]
    split
    · exact Launch.alike_failed h _
    · exact alike_dispatch c s consequent h hσ hπ
    · exact Launch.alike_finished h s
  | .branch condition consequent (some alternate), scopes, scopes', σ, π, h, hσ, hπ => by
    simp only [dispatch]
    split
    · exact Launch.alike_failed h _
    · exact alike_dispatch c s consequent h hσ hπ
    · exact alike_dispatch c s alternate h hσ hπ
  | .test condition, scopes, scopes', σ, π, h, hσ, hπ => by
    simp only [dispatch]
    split
    · exact Launch.alike_failed h _
    · exact Launch.alike_finished h s
    · exact Launch.alike_failed h _
  | .call name args, scopes, scopes', σ, π, h, hσ, hπ => by
    simp only [dispatch]
    split
    · exact Launch.alike_failed h _
    · rename_i bound _
      obtain ⟨hw, hτ⟩ := Work.alike_perform h hσ hπ [] [] s bound
      exact ⟨rfl, hw, hτ⟩
  | .bind var init, scopes, scopes', σ, π, h, hσ, hπ => by
    simp only [dispatch]
    exact (alike_dispatch c s init h hσ hπ).within _
  | .control .or (first :: rest), scopes, scopes', σ, π, h, hσ, hπ => by
    simp only [dispatch]
    exact alike_dispatch c s first h hσ hπ
  | .control .or [], scopes, scopes', σ, π, h, hσ, hπ => by
    simp only [dispatch]
    exact Launch.alike_failed h _
  | .control .plan (body :: rest), scopes, scopes', σ, π, h, hσ, hπ => by
    simp only [dispatch]
    split
    · exact Launch.alike_failed h _
    · exact Launch.alike_failed h _
    · rename_i plan _
      cases plan.trace with
      | nil => exact ⟨rfl, .settled _, h⟩
      | cons bound trace =>
        obtain ⟨hw, hτ⟩ := Work.alike_perform h hσ hπ [] trace s bound
        exact ⟨rfl, hw, hτ⟩
  | .control .plan [], scopes, scopes', σ, π, h, hσ, hπ => by
    simp only [dispatch]
    exact Launch.alike_failed h _
  | .control .conc branches, scopes, scopes', σ, π, h, hσ, hπ => by
    simp only [dispatch]
    split
    · exact Launch.alike_failed h _
    · split
      · exact Launch.alike_group (Round.alike_nothing h.openScope _) .conc s scopes scopes' σ π
      · exact Launch.alike_group (alike_dispatchSlots c s (startsFinal s) branches 0 0 h.openScope hσ.openScope
          hπ.openScope) .conc s scopes scopes' σ π
  | .control .either branches, scopes, scopes', σ, π, h, hσ, hπ => by
    simp only [dispatch]
    split
    · exact Launch.alike_failed h _
    · split
      · exact Launch.alike_group (Round.alike_nothing h.openScope _) .either s scopes scopes' σ π
      · exact Launch.alike_group (alike_dispatchSlots c s (startsFinal s) branches 0 0 h.openScope hσ.openScope
          hπ.openScope) .either s scopes scopes' σ π
  | .done, scopes, scopes', σ, π, h, hσ, hπ => by
    simp only [dispatch]
    exact Launch.alike_finished h s
  | .blocked, scopes, scopes', σ, π, h, hσ, hπ => by
    simp only [dispatch]
    exact Launch.alike_failed h _

theorem alike_dispatchBlock (c : Setting) (s : State) :
    ∀ (ps : List Program) {scopes scopes' : List Nat} {σ π : World}, σ.Beside g R π → σ.Admits scopes →
      π.Admits scopes' → (dispatchBlock c s scopes ps σ).Alike g R (dispatchBlock c s scopes' ps π)
  | [], scopes, scopes', σ, π, h, hσ, hπ => by
    simp only [dispatchBlock]
    exact Launch.alike_finished h s
  | p :: rest, scopes, scopes', σ, π, h, hσ, hπ => by
    simp only [dispatchBlock]
    split
    · exact Launch.alike_failed h _
    · exact alike_dispatchBlock c s rest h hσ hπ
    · exact (alike_dispatch c s p h hσ hπ).within _

theorem alike_dispatchSlots (c : Setting) (s : State) (final : Program → Bool) :
    ∀ (ps : List Program) (slot seq : Nat) {scopes scopes' : List Nat} {σ π : World}, σ.Beside g R π →
      σ.Admits scopes → π.Admits scopes' →
      (dispatchSlots c s scopes final slot seq ps σ).Alike g R (dispatchSlots c s scopes' final slot seq ps π)
  | [], slot, seq, scopes, scopes', σ, π, h, hσ, hπ => by
    simp only [dispatchSlots]
    exact ⟨rfl, Work.alikeFlights_nil, h⟩
  | p :: rest, slot, seq, scopes, scopes', σ, π, h, hσ, hπ => by
    simp only [dispatchSlots]
    split
    · exact (alike_dispatchSlots c s final rest (slot + 1) seq h hσ hπ).keep .done
    · split
      · exact (alike_dispatchSlots c s final rest (slot + 1) seq h hσ hπ).keep p
      · have hl := alike_dispatch c s p h hσ hπ
        have eσ := ((scopes_cases c s).dispatch p scopes σ).2
        have eπ := ((scopes_cases c s).dispatch p scopes' π).2
        have hr := alike_dispatchSlots c s final rest (slot + 1) (seq + 1) hl.world
          (hσ.of_closed_eq eσ.closed eσ.le) (hπ.of_closed_eq eπ.closed eπ.le)
        exact hr.start hl slot seq
end

end Program

/-- The works are alike, and the worlds around them are side by side. -/
structure Work.Together (g : Gap) (R : Nat → Nat → Prop) (w : Work) (σ : World) (w' : Work) (π : World) : Prop where
  work : w.Alike g.delay R w'
  world : σ.Beside g R π

/-- Neither of two worlds runs out of allowance before the other one while so many waits come to their end. -/
def World.Even (load : Nat) (σ π : World) : Prop :=
  σ.allowance = π.allowance ∨ load < σ.allowance ∧ load < π.allowance

theorem World.Even.mono {load less : Nat} {σ π : World} (h : Even load σ π) (hl : less ≤ load) : Even less σ π :=
  h.imp id fun ⟨hσ, hπ⟩ => ⟨Nat.lt_of_le_of_lt hl hσ, Nat.lt_of_le_of_lt hl hπ⟩

theorem World.Even.allowance_eq_zero_iff {load : Nat} {σ π : World} (h : Even load σ π) :
    σ.allowance = 0 ↔ π.allowance = 0 := by
  obtain h | ⟨hσ, hπ⟩ := h
  · rw [h]
  · omega

theorem World.Even.trans_symm {load : Nat} {σ τ π : World} (h : Even load σ π) (hτ : Even load τ π) :
    Even load σ τ := by
  unfold Even at h hτ ⊢
  omega

section

variable {g : Gap} {R : Nat → Nat → Prop} {σ π : World}

namespace Execution

theorem alike_complete (h : σ.Beside g R π) {e : Execution} (hσ : σ.Admits e.scopes) {scopes : List Nat}
    (hπ : π.Admits scopes) (timer : Timer) (postponed : Option Nat) :
    Work.Together g R (e.complete σ).1 (e.complete σ).2 (complete { e with scopes, timer, postponed } π).1
      (complete { e with scopes, timer, postponed } π).2 := by
  have hb := h.complete e.bound.record σ.clock π.clock
  simp only [complete]
  split
  · exact ⟨.settled _, hb⟩
  · split
    · exact ⟨.settled _, hb⟩
    · rename_i bound trace _
      have hσ' := hσ.of_closed_eq (σ.closedScopes_record_completed e.bound.record σ.clock) (Nat.le_refl _)
      have hπ' := hπ.of_closed_eq (π.closedScopes_record_completed e.bound.record π.clock) (Nat.le_refl _)
      obtain ⟨hw, hτ⟩ := Work.alike_perform hb hσ' hπ' (e.updates ++ [.effect e.bound]) trace e.after bound
      exact ⟨hw, hτ⟩

section

variable {e : Execution} {timer : Timer} {postponed : Option Nat}

theorem alike_start (h : σ.Beside g R π) (scopes : List Nat) (hp : Option.Rel R e.postponed postponed) :
    Work.Together g R (e.start σ).1 (e.start σ).2 (start { e with scopes, timer, postponed } π).1
      (start { e with scopes, timer, postponed } π).2 :=
  ⟨.acting scopes .unset hp, h.start e.bound e.scopes scopes σ.clock π.clock⟩

theorem alike_postpone (h : σ.Beside g R π) (scopes : List Nat) (ht : e.timer.Alike g.delay R timer)
    (postponed : Option Nat) :
    Work.Together g (fun a b => R a b ∨ a = σ.nextTicket ∧ b = π.nextTicket) (e.postpone σ).1 (e.postpone σ).2
      (postpone { e with scopes, timer, postponed } π).1 (postpone { e with scopes, timer, postponed } π).2 :=
  ⟨.acting scopes (ht.mono fun _ _ => .inl) (.some (.inr ⟨rfl, rfl⟩)), h.draw⟩

theorem alike_setTimer (h : σ.Beside g R π) (scopes : List Nat) (hp : Option.Rel R e.postponed postponed)
    (latency : Nat) :
    Work.Together g (fun a b => R a b ∨ a = σ.nextTicket ∧ b = π.nextTicket) (e.setTimer latency σ).1
      (e.setTimer latency σ).2 (setTimer { e with scopes, timer, postponed } latency π).1
      (setTimer { e with scopes, timer, postponed } latency π).2 := by
  refine ⟨.acting scopes ?_ (rel_mono (fun _ _ => .inl) hp), h.draw⟩
  rw [h.clock, Nat.add_right_comm]
  exact .set _ (.inr ⟨rfl, rfl⟩)

theorem alike_advance (h : σ.Beside g R π) (hσ : σ.Admits e.scopes) {scopes : List Nat} (hπ : π.Admits scopes)
    (ha : σ.allowance = 0 ↔ π.allowance = 0) (ht : e.timer.Alike g.delay R timer)
    (hp : Option.Rel R e.postponed postponed) {w : Work} {τ : World} (hm : e.advance σ = some (w, τ)) :
    ∃ w' τ' R', advance { e with scopes, timer, postponed } π = some (w', τ') ∧ (∀ a b, R a b → R' a b) ∧
      Work.Together g R' w τ w' τ' := by
  have hx {x x' : Work × World} {R' : Nat → Nat → Prop} (he : some x = some (w, τ)) (hR : ∀ a b, R a b → R' a b)
      (ht : Work.Together g R' x.1 x.2 x'.1 x'.2) :
      ∃ w' τ' R', some x' = some (w', τ') ∧ (∀ a b, R a b → R' a b) ∧ Work.Together g R' w τ w' τ' := by
    obtain rfl := Option.some.inj he
    exact ⟨x'.1, x'.2, R', rfl, hR, ht⟩
  have hw := alike_postpone h scopes ht postponed
  -- the branch is chosen by what is the same in both
  unfold advance at hm ⊢
  simp only [← rel_isSome hp, ← ha]
  split at hm
  · cases hm
  · rename_i hn
    rw [if_neg hn]
    generalize he : e.timer = t at ht hm
    cases hl : e.bound.action.latency with
    | none =>
      rw [hl] at hm
      cases ht with
      | idle => exact hx hm (fun _ _ => id) (alike_start h scopes hp)
      | _ => exact hx hm (fun _ _ => id) (alike_complete h hσ hπ _ postponed)
    | some latency =>
      rw [hl] at hm
      cases ht with
      | idle => exact hx hm (fun _ _ => id) (alike_start h scopes hp)
      | unset =>
        simp only at hm ⊢
        by_cases hz : σ.allowance = 0
        · rw [if_pos hz] at hm ⊢
          exact hx hm (fun _ _ => .inl) hw
        · rw [if_neg hz] at hm ⊢
          have hs := h.spend hz (mt ha.mpr hz)
          by_cases hl : latency = 0
          · rw [if_pos hl] at hm ⊢
            exact hx hm (fun _ _ => id) (alike_complete hs ⟨hσ.opened, hσ.fresh⟩ ⟨hπ.opened, hπ.fresh⟩ .unset postponed)
          · rw [if_neg hl] at hm ⊢
            exact hx hm (fun _ _ => .inl) (alike_setTimer h scopes hp latency)
      | set due hR => cases hm
      | rung =>
        simp only at hm ⊢
        by_cases hz : σ.allowance = 0
        · rw [if_pos hz] at hm ⊢
          exact hx hm (fun _ _ => .inl) hw
        · rw [if_neg hz] at hm ⊢
          have hs := h.spend hz (mt ha.mpr hz)
          exact hx hm (fun _ _ => id) (alike_complete hs ⟨hσ.opened, hσ.fresh⟩ ⟨hπ.opened, hπ.fresh⟩ .rung postponed)

end

end Execution

namespace Scheduler

theorem complete_elsewhere (s : Scheduler Work) (d : Completion) (scope : Nat) (outer : List Nat)
    (queue waiting : List (Flight Work)) :
    complete { s with scope, outer, queue, waiting } d =
      (s.complete d).map fun t => { t with scope, outer, queue, waiting } := by
  unfold complete
  cases d.outcome with
  | error e => rfl
  | ok o =>
    simp only [absorb]
    cases nextSlot (Update.applyAll s.state (Frame.resume d.frames o).updates)
        (Frame.resume d.frames o).continuation with
    | error e => rfl
    | ok next => rfl

theorem foldAll_elsewhere (s : Scheduler Work) (ds : List Completion) (scope : Nat) (outer : List Nat)
    (queue waiting : List (Flight Work)) :
    foldAll { s with scope, outer, queue, waiting } ds =
      (s.foldAll ds).map fun t => { t with scope, outer, queue, waiting } := by
  induction ds generalizing s with
  | nil => rfl
  | cons d rest ih =>
    have he : isFinished { s with scope, outer, queue, waiting } = s.isFinished := rfl
    rw [foldAll, foldAll, complete_elsewhere, he]
    by_cases hf : s.isFinished = true
    · rw [if_pos hf, if_pos hf]
      rfl
    · rw [if_neg hf, if_neg hf]
      cases s.complete d with
      | error e => rfl
      | ok t => exact ih t

theorem foldBatch_elsewhere (s : Scheduler Work) (scope : Nat) (outer : List Nat) (queue waiting : List (Flight Work)) :
    foldBatch { s with scope, outer, queue, waiting } =
      s.foldBatch.map fun t => { t with scope, outer, queue, waiting } :=
  foldAll_elsewhere { s with batch := [] } _ scope outer queue waiting

variable {s : Scheduler Work} {queue waiting : List (Flight Work)} {delay : Nat}

theorem Turns.alike {short : Bool} (h : s.Turns short) (scope : Nat) (outer : List Nat)
    (hq : Work.AlikeFlights delay R s.queue queue) (hw : Work.AlikeFlights delay R s.waiting waiting) :
    Turns { s with scope, outer, queue, waiting } short := by
  refine ⟨⟨h.looking, h.unfinished⟩, ?_, ?_⟩
  · have hl : (queue ++ waiting).length = s.flights.length := (hq.append hw).length_eq
    have hs := h.spent
    rw [← hl] at hs
    exact hs
  · intro hs
    exact hq.eq_nil_iff.mpr (h.queue hs)

theorem Faces.alike {f : Flight Work} {rest : List (Flight Work)} (h : s.Faces f rest) (scope : Nat) (outer : List Nat)
    (hq : Work.AlikeFlights delay R s.queue queue) (hw : Work.AlikeFlights delay R s.waiting waiting) :
    ∃ w rest', Faces { s with scope, outer, queue, waiting } { f with work := w } rest' ∧ f.work.Alike delay R w ∧
      Work.AlikeFlights delay R rest rest' := by
  have hl : (queue ++ waiting).length = s.flights.length := (hq.append hw).length_eq
  rw [h.queue] at hq
  obtain ⟨w, rest', rfl, hf, hr⟩ := hq.of_cons
  refine ⟨w, rest', ⟨⟨h.looking, h.unfinished⟩, ?_, rfl⟩, hf, hr⟩
  have hs := h.unspent
  rw [← hl] at hs
  exact hs

end Scheduler

namespace Work

/-- A work inside of open scopes, all of whose own scopes are open. -/
structure Open (σ : World) (around : List Nat) (w : Work) : Prop where
  inside : w.Inside around
  admits : σ.Admits around
  scopes : ∀ i ∈ w.scopes, i ∉ σ.closedScopes

theorem Open.admits_acting {around : List Nat} {e : Execution} (h : (acting e).Open σ around) : σ.Admits e.scopes := by
  obtain ⟨hi, ha, -⟩ := h
  cases hi with
  | acting he =>
    rw [he]
    exact ha

theorem Open.admits_group {around : List Nat} {s : Scheduler Work} (h : (group s).Open σ around) :
    σ.Admits (s.scope :: s.outer) := by
  refine ⟨?_, h.admits.fresh⟩
  rw [h.inside.inv.1]
  refine List.forall_mem_cons.mpr ⟨h.scopes _ ?_, h.admits.opened⟩
  rw [scopes_group]
  exact Multiset.mem_add.mpr (.inl (Multiset.mem_singleton_self _))

theorem Open.flight {around : List Nat} {s : Scheduler Work} (h : (group s).Open σ around) {f : Flight Work}
    (hf : f ∈ s.flights) : f.work.Open σ (s.scope :: s.outer) := by
  obtain ⟨ho, hi⟩ := h.inside.inv
  refine ⟨ho ▸ hi f hf, h.admits_group, fun i hm => h.scopes i ?_⟩
  rw [scopes_group]
  refine Multiset.mem_add.mpr (.inr (Multiset.mem_of_le (List.le_sum_of_mem ?_) hm))
  exact List.mem_map_of_mem hf

theorem load_le_of_mem {s : Scheduler Work} {f : Flight Work} (hf : f ∈ s.flights) : f.work.load ≤ (group s).load := by
  rw [load, load, calls_group]
  have hm : callsOfFlight 1 f ∈ s.flights.map (callsOfFlight 1) := List.mem_map_of_mem hf
  have hs := List.le_sum_of_mem hm
  rw [callsOfFlight] at hs
  omega

theorem alike_dispatchLive (c : Setting) (h : σ.Beside g R π) {s : Scheduler Work} {scope : Nat} {outer : List Nat}
    {queue waiting : List (Flight Work)} (hσ : σ.Admits (s.scope :: s.outer)) (hπ : π.Admits (scope :: outer))
    (hq : AlikeFlights g.delay R s.queue queue) (hw : AlikeFlights g.delay R s.waiting waiting) :
    Together g R (s.dispatchLive c σ).1 (s.dispatchLive c σ).2
      (Scheduler.dispatchLive c { s with scope, outer, queue, waiting } π).1
      (Scheduler.dispatchLive c { s with scope, outer, queue, waiting } π).2 := by
  have hr := Program.alike_dispatchSlots c s.state (fun _ => false) s.slots 0 s.nextSeq h hσ hπ
  refine ⟨?_, hr.world⟩
  simp only [Scheduler.dispatchLive]
  rw [hr.slots, hr.flights.length_eq]
  exact alike_group (s := { s with slots := _, queue := _, nextSeq := _, attention := _ }) scope outer
    (hq.append hr.flights) hw

theorem alike_receive {s : Scheduler Work} {f : Flight Work} {w : Work} {rest rest' waiting : List (Flight Work)}
    {delay : Nat} (scope : Nat) (outer : List Nat) (queue : List (Flight Work)) (hf : f.work.Alike delay R w)
    (hr : AlikeFlights delay R rest rest') (hw : AlikeFlights delay R s.waiting waiting) :
    (group (s.receive f rest)).Alike delay R
      (group (Scheduler.receive { s with scope, outer, queue, waiting } { f with work := w } rest')) := by
  have hk := hf.asks_eq
  have hwake : AlikeFlights delay R [{ f with work := f.work.wake }] [{ f with work := w.wake }] :=
    .cons hf.wake alikeFlights_nil
  have hstay : AlikeFlights delay R [f] [{ f with work := w }] := .cons hf alikeFlights_nil
  obtain ⟨slot, seq, frames, v⟩ := f
  cases hf with
  | settled outcome => exact alike_group (s := { s with queue := _, batch := _, attention := _ }) scope outer hr hw
  | acting scopes ht hp =>
    exact alike_group (s := { s with queue := _, waiting := _, attention := _ }) scope outer hr (hw.append hstay)
  | @group u scope' outer' queue' waiting' _ _ _ _ =>
    simp only [Scheduler.receive]
    rw [hk]
    split
    · exact alike_group (s := { s with queue := _, attention := _ }) scope outer (hr.append hwake) hw
    · exact alike_group (s := { s with queue := _, waiting := _, attention := _ }) scope outer hr (hw.append hstay)

theorem Moves.alike {c : Setting} {w w₁ : Work} {σ σ₁ : World} (h : Moves c w σ w₁ σ₁) {w' : Work} {π : World}
    {R : Nat → Nat → Prop} {around around' : List Nat} (ht : Together g R w σ w' π) (ho : w.Open σ around)
    (ho' : w'.Open π around') (hl : World.Even w.load σ π) :
    ∃ w₁' π₁ R', Moves c w' π w₁' π₁ ∧ (∀ a b, R a b → R' a b) ∧ Together g R' w₁ σ₁ w₁' π₁ := by
  induction h generalizing w' R around around' with
  | @act e σ τ w h =>
    obtain ⟨ha, hb⟩ := ht
    cases ha with
    | acting scopes htm hp =>
      obtain ⟨w', τ', R', hm, hR, ht'⟩ := Execution.alike_advance hb ho.admits_acting ho'.admits_acting
        hl.allowance_eq_zero_iff htm hp h
      exact ⟨w', τ', R', .act hm, hR, ht'⟩
  | @finish s σ hr hf =>
    obtain ⟨scope, outer, queue, waiting, rfl, hq, hw⟩ := ht.work.of_group
    exact ⟨_, _, R, .finish hr hf, fun _ _ => id, .settled _, ht.world.abandon _ _ _ _⟩
  | @starve s σ short hs hb hn =>
    obtain ⟨scope, outer, queue, waiting, rfl, hq, hw⟩ := ht.work.of_group
    have hn' : queue ++ waiting = [] := (hq.append hw).eq_nil_iff.mpr hn
    exact ⟨_, _, R, .starve (hs.alike scope outer hq hw) hb hn', fun _ _ => id, .settled _, ht.world⟩
  | @rest s σ short hs hb hn =>
    obtain ⟨scope, outer, queue, waiting, rfl, hq, hw⟩ := ht.work.of_group
    have hn' : queue ++ waiting ≠ [] := mt (hq.append hw).eq_nil_iff.mp hn
    refine ⟨_, _, R, .rest (hs.alike scope outer hq hw) hb hn', fun _ _ => id, ?_, ht.world⟩
    exact alike_group (s := { s with attention := _ }) scope outer hq hw
  | @fail s σ short e hs hb he =>
    obtain ⟨scope, outer, queue, waiting, rfl, hq, hw⟩ := ht.work.of_group
    have he' := s.foldBatch_elsewhere scope outer queue waiting
    rw [he] at he'
    exact ⟨_, _, R, .fail (hs.alike scope outer hq hw) hb he', fun _ _ => id, .settled _, ht.world.abandon _ _ _ _⟩
  | @decide s t σ short hs hb he hf =>
    obtain ⟨scope, outer, queue, waiting, rfl, hq, hw⟩ := ht.work.of_group
    have he' := s.foldBatch_elsewhere scope outer queue waiting
    rw [he] at he'
    exact ⟨_, _, R, .decide (hs.alike scope outer hq hw) hb he' hf, fun _ _ => id, .settled _,
      ht.world.abandon _ _ _ _⟩
  | @go s t σ short hs hb he hf =>
    obtain ⟨scope, outer, queue, waiting, rfl, hq, hw⟩ := ht.work.of_group
    have he' := s.foldBatch_elsewhere scope outer queue waiting
    rw [he] at he'
    obtain ⟨-, hq', hw', -⟩ := Scheduler.foldBatch_spec s he
    obtain ⟨hscope, houter⟩ := Scheduler.scope_foldBatch he
    have hσ : σ.Admits (t.scope :: t.outer) := by
      rw [hscope, houter]
      exact ho.admits_group
    refine ⟨_, _, R, .go (hs.alike scope outer hq hw) hb he' hf, fun _ _ => id, ?_⟩
    exact alike_dispatchLive c ht.world hσ ho'.admits_group (hq' ▸ hq) (hw' ▸ hw)
  | @follow s f rest σ τ w hs hm ih =>
    -- the step may draw a ticket, and the other flights stay alike with one pair of tickets more
    obtain ⟨scope, outer, queue, waiting, rfl, hq, hw⟩ := ht.work.of_group
    obtain ⟨v, rest', hs', hf, hr⟩ := hs.alike scope outer hq hw
    obtain ⟨v₁, π₁, R', hm', hR, ht'⟩ := ih ⟨hf, ht.world⟩ (ho.flight hs.mem_flights) (ho'.flight hs'.mem_flights)
      (hl.mono (load_le_of_mem hs.mem_flights))
    refine ⟨_, _, R', .follow hs' hm', hR, ?_, ht'.world⟩
    simp only [Scheduler.follow]
    rw [ht'.work.again_eq]
    exact alike_group (s := { s with queue := _, attention := _ }) scope outer (.cons ht'.work (hr.mono hR))
      (hw.mono hR)
  | @receive s f rest σ hs hf =>
    obtain ⟨scope, outer, queue, waiting, rfl, hq, hw⟩ := ht.work.of_group
    obtain ⟨v, rest', hs', hv, hr⟩ := hs.alike scope outer hq hw
    exact ⟨_, _, R, .receive hs' (hv.isStill_eq.trans hf), fun _ _ => id, alike_receive scope outer queue hv hr hw,
      ht.world⟩

end Work

end

end Agenda
