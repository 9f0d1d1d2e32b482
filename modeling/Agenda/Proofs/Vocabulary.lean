import Mathlib
import Agenda.Proofs.Launches
import Agenda.Proofs.Leads
import Agenda.Proofs.Planning
import Agenda.Proofs.Stirring

/-!
# Vocabularies

A vocabulary says which calls and which constructs may stand in a program. A program that keeps to a vocabulary never
leaves it: what remains after a transition, what its constructs keep for later and what it dispatches all come from the
program itself.
-/

namespace Agenda

set_option autoImplicit false

/-- The calls and constructs that a program may have. -/
structure Vocabulary where
  call : String → Fields Expr → Bool := fun _ _ => true
  control : Control → Bool := fun _ => true
  branch : Bool := true
  test : Bool := true

def Vocabulary.without (kinds : List Control) : Vocabulary where
  control kind := !kinds.contains kind

namespace Program

mutual
def keepsTo (v : Vocabulary) : Program → Bool
  | .block statements => keepToAll v statements
  | .branch _ consequent none => v.branch && consequent.keepsTo v
  | .branch _ consequent (some alternate) => v.branch && consequent.keepsTo v && alternate.keepsTo v
  | .bind _ init => init.keepsTo v
  | .control kind branches => v.control kind && keepToAll v branches
  | .test _ => v.test
  | .call name args => v.call name args
  | .done => true
  | .blocked => true
termination_by structural p => p

def keepToAll (v : Vocabulary) : List Program → Bool
  | [] => true
  | p :: rest => p.keepsTo v && keepToAll v rest
termination_by structural ps => ps
end

theorem keepToAll_iff (v : Vocabulary) (ps : List Program) :
    keepToAll v ps = true ↔ ∀ p ∈ ps, p.keepsTo v = true := by
  induction ps with
  | nil => simp [keepToAll]
  | cons p rest ih => simp [keepToAll, ih]

theorem keepsTo_block_iff (v : Vocabulary) (ps : List Program) :
    (block ps).keepsTo v = true ↔ ∀ p ∈ ps, p.keepsTo v = true :=
  keepToAll_iff v ps

theorem keepsTo_control_iff (v : Vocabulary) (kind : Control) (ps : List Program) :
    (control kind ps).keepsTo v = true ↔ v.control kind = true ∧ ∀ p ∈ ps, p.keepsTo v = true := by
  rw [← keepToAll_iff]
  exact Bool.and_eq_true_iff

theorem keepsTo_branch_iff (v : Vocabulary) (condition : Expr) (p : Program) (alternate : Option Program) :
    (branch condition p alternate).keepsTo v = true ↔
      v.branch = true ∧ p.keepsTo v = true ∧ ∀ q ∈ alternate, q.keepsTo v = true := by
  cases alternate <;> simp [keepsTo, and_assoc]

theorem keepsTo_consequent {v : Vocabulary} {condition : Expr} {p : Program} {alternate : Option Program}
    (h : (branch condition p alternate).keepsTo v = true) : p.keepsTo v = true :=
  ((keepsTo_branch_iff v condition p alternate).mp h).2.1

theorem keepsTo_alternate {v : Vocabulary} {condition : Expr} {p q : Program}
    (h : (branch condition p (some q)).keepsTo v = true) : q.keepsTo v = true :=
  ((keepsTo_branch_iff v condition p (some q)).mp h).2.2 q rfl

theorem Enters.keepsTo {v : Vocabulary} {s : State} {p q : Program} (h : p.Enters s q) (hp : p.keepsTo v = true) :
    q.keepsTo v = true := by
  cases h with
  | consequent _ _ _ => exact keepsTo_consequent hp
  | alternate _ _ _ => exact keepsTo_alternate hp
  | first p rest => exact ((keepsTo_control_iff v .or (q :: rest)).mp hp).2 q List.mem_cons_self

theorem hereditary_keepsTo (v : Vocabulary) : Hereditary fun p => p.keepsTo v = true where
  block := keepsTo_block_iff v
  bind _ _ := .rfl
  consequent _ _ _ := keepsTo_consequent
  alternate _ _ _ := keepsTo_alternate
  control kind branches h := ((keepsTo_control_iff v kind branches).mp h).2

end Program

def Domain.Offers (d : Domain) (v : Vocabulary) (b : BoundAction) : Prop :=
  ∃ s name args, v.call name args = true ∧ d.resolve s name args = .ok b

namespace Program

theorem Leads.offers {d : Domain} {v : Vocabulary} {s : State} {p : Program} {t : Successor} (h : Leads d s p t)
    (hp : p.keepsTo v = true) : ∀ b ∈ t.planStep, d.Offers v b := by
  have hv := hereditary_keepsTo v
  induction h with
  | @skip p rest t _ _ ih =>
    rw [keepsTo_block_iff, List.forall_mem_cons] at hp
    exact ih ((keepsTo_block_iff v rest).mpr hp.2)
  | before rest _ _ ih =>
    rw [keepsTo_block_iff, List.forall_mem_cons] at hp
    exact ih hp.1
  | consequent _ _ _ ih => exact ih (keepsTo_consequent hp)
  | alternate _ _ _ ih => exact ih (keepsTo_alternate hp)
  | @call name args bound hr _ => exact List.forall_mem_singleton.mpr ⟨s, name, args, hp, hr⟩
  | bind var _ ih =>
    rw [hv.bind] at hp
    unfold Successor.bound
    split
    · exact ih hp
    · exact ih hp
  | choice hm _ ih => exact ih (hv.control _ _ hp _ hm)
  | plan _ ih => exact ih (hv.control _ _ hp _ List.mem_cons_self)
  | empty | pass _ _ | test _ | done => exact List.forall_mem_nil _

theorem Chain.offers {d : Domain} {v : Vocabulary} {p : Program} {s : State} {places : List Nat} {plan : Plan}
    (h : Chain d p s places plan) (hp : p.keepsTo v = true) : ∀ b ∈ plan.trace, d.Offers v b := by
  induction h with
  | stop _ => exact nofun
  | @step p s ts t i places plan _ hs hi _ ih =>
    have hl := leads_of_mem_successors d s p hs t (List.mem_of_getElem? hi)
    have hr : t.remaining.keepsTo v = true := by
      unfold Successor.remaining
      cases ht : t.continuation with
      | none => rfl
      | some q => exact hl.hereditary (hereditary_keepsTo v) hp q ht
    intro b hb
    rcases List.mem_append.mp hb with hb | hb
    · exact hl.offers hp b hb
    · exact ih hr b hb

theorem offers_plan {d : Domain} {v : Vocabulary} {limit : Option Nat} {p : Program} {s : State} {plan : Plan}
    (h : p.plan d limit s = .ok (some plan)) (hp : p.keepsTo v = true) : ∀ b ∈ plan.trace, d.Offers v b := by
  obtain ⟨places, rest, hc, ht, -, -⟩ := answers_search d limit p s 0 [] h
  rw [ht]
  exact hc.offers hp

end Program

/-- All that the frame has after the statement inside has the property. -/
def Frame.Keeps (P : Program → Prop) : Frame → Prop
  | .before rest => ∀ p ∈ rest, P p
  | .bind _ => True

theorem Frame.residual_of_keeps {P : Program → Prop} (hP : Program.Hereditary P) {frames : List Frame}
    (h : ∀ f ∈ frames, f.Keeps P) : ∀ p, residual frames = some p → P p := by
  suffices hw : ∀ continuation : Option Program, (∀ p, continuation = some p → P p) →
      ∀ p, frames.foldl wrap continuation = some p → P p from hw none nofun
  induction frames with
  | nil => exact fun continuation hc => hc
  | cons f rest ih =>
    intro continuation hc
    apply ih (fun g hg => h g (List.mem_cons_of_mem f hg)) (f.wrap continuation)
    have hf := h f List.mem_cons_self
    cases f with
    | before rest => exact hP.resequence hc hf
    | bind var =>
      intro p hp
      obtain ⟨q, hq, rfl⟩ := Option.map_eq_some_iff.mp hp
      exact (hP.bind var q).mpr (hc q hq)

def Frame.KeepsTo (v : Vocabulary) : Frame → Prop
  | .before rest => ∀ p ∈ rest, p.keepsTo v = true
  | .bind _ => True

theorem Frame.keepsTo_residual {v : Vocabulary} {frames : List Frame} (h : ∀ f ∈ frames, f.KeepsTo v) :
    ∀ p, residual frames = some p → p.keepsTo v = true :=
  residual_of_keeps (Program.hereditary_keepsTo v) h

def Event.dispatched? : Event → Option BoundAction
  | .dispatched bound _ _ => some bound
  | _ => none

def World.dispatched (σ : World) : List BoundAction := σ.log.filterMap Event.dispatched?

namespace World

@[simp]
theorem dispatched_initial (c : Setting) : c.initial.dispatched = [] := rfl

theorem dispatched_record_dispatched (σ : World) (bound : BoundAction) (scopes : List Nat) (time : Nat) :
    (σ.record (.dispatched bound scopes time)).dispatched = σ.dispatched ++ [bound] := by
  simp [dispatched, record, Event.dispatched?]

theorem dispatched_record_started (σ : World) (bound : BoundAction) (scopes : List Nat) (time : Nat) :
    (σ.record (.started bound scopes time)).dispatched = σ.dispatched := by
  simp [dispatched, record, Event.dispatched?]

theorem dispatched_record_completed (σ : World) (record : ActionRecord) (time : Nat) :
    (σ.record (.completed record time)).dispatched = σ.dispatched := by
  simp [dispatched, World.record, Event.dispatched?]

theorem Idles.dispatched {σ τ : World} (h : σ.Idles τ) : τ.dispatched = σ.dispatched :=
  h.filterMap_log fun _ _ _ => rfl

theorem dispatched_abandon (σ : World) (scope : Nat) (works : List Work) :
    (σ.abandon scope works).dispatched = σ.dispatched := by
  simp [dispatched, abandon, record, Event.dispatched?]

end World

structure Scheduler.KeepsTo (v : Vocabulary) (s : Scheduler Work) : Prop where
  kind : v.control s.kind = true
  slots : ∀ p ∈ s.slots, p.keepsTo v = true
  batch : ∀ c ∈ s.batch, ∀ f ∈ c.frames, f.KeepsTo v
  flights : ∀ fl ∈ s.flights, ∀ f ∈ fl.frames, f.KeepsTo v

namespace Work

inductive KeepsTo (d : Domain) (v : Vocabulary) : Work → Prop
  | settled (outcome : Except Failure Outcome) : KeepsTo d v (.settled outcome)
  | acting {e : Execution} : d.Offers v e.bound → (∀ b ∈ e.trace, d.Offers v b) → KeepsTo d v (.acting e)
  | group {s : Scheduler Work} : s.KeepsTo v → (∀ f ∈ s.flights, KeepsTo d v f.work) → KeepsTo d v (.group s)

variable {d : Domain} {v : Vocabulary}

theorem KeepsTo.inv {s : Scheduler Work} (h : KeepsTo d v (.group s)) :
    s.KeepsTo v ∧ ∀ f ∈ s.flights, f.work.KeepsTo d v := by
  cases h with
  | group hs hf => exact ⟨hs, hf⟩

theorem Stirs.keepsTo {w w' : Work} (h : Stirs w w') (hw : w.KeepsTo d v) : w'.KeepsTo d v := by
  induction h with
  | settled outcome => exact hw
  | acting e timer postponed _ =>
    cases hw with
    | acting hb ht => exact .acting hb ht
  | group fs he hp _ ih =>
    obtain ⟨hs, hf⟩ := hw.inv
    refine .group ⟨hs.kind, hs.slots, hs.batch, ?_⟩ ?_
    · intro f hm
      obtain ⟨x, -, h₀, rfl⟩ := exists_of_mem_stirred he hp hm
      exact hs.flights x.1 h₀
    · intro f hm
      obtain ⟨x, hx, h₀, rfl⟩ := exists_of_mem_stirred he hp hm
      exact ih x hx (hf x.1 h₀)

end Work

/-- Nothing but calls of the vocabulary was dispatched, and what goes on by itself keeps to it. -/
structure World.KeepsTo (d : Domain) (v : Vocabulary) (σ : World) : Prop where
  dispatched : ∀ b ∈ σ.dispatched, d.Offers v b
  detached : ∀ w ∈ σ.detached, w.KeepsTo d v

namespace World

variable {d : Domain} {v : Vocabulary} {σ : World}

theorem keepsTo_initial (c : Setting) (v : Vocabulary) : c.initial.KeepsTo c.domain v := ⟨nofun, nofun⟩

theorem KeepsTo.dispatch (h : σ.KeepsTo d v) {bound : BoundAction} (hb : d.Offers v bound) (scopes : List Nat)
    (time : Nat) : (σ.record (.dispatched bound scopes time)).KeepsTo d v := by
  refine ⟨?_, h.detached⟩
  rw [dispatched_record_dispatched]
  intro b hm
  rcases List.mem_append.mp hm with hm | hm
  · exact h.dispatched b hm
  · obtain rfl := List.mem_singleton.mp hm
    exact hb

theorem KeepsTo.complete (h : σ.KeepsTo d v) (record : ActionRecord) (time : Nat) :
    (σ.record (.completed record time)).KeepsTo d v := by
  refine ⟨?_, h.detached⟩
  rw [dispatched_record_completed]
  exact h.dispatched

theorem KeepsTo.idle {τ : World} (h : σ.KeepsTo d v) (hτ : σ.Idles τ) : τ.KeepsTo d v := by
  constructor
  · rw [hτ.dispatched]
    exact h.dispatched
  · rw [hτ.detached]
    exact h.detached

theorem KeepsTo.abandon (h : σ.KeepsTo d v) {s : Scheduler Work} (hs : (Work.group s).KeepsTo d v) :
    (σ.abandon s.scope s.works).KeepsTo d v := by
  constructor
  · rw [dispatched_abandon]
    exact h.dispatched
  · intro w hw
    rcases List.mem_append.mp hw with hw | hw
    · exact h.detached w hw
    · obtain ⟨_, hm, rfl⟩ := List.mem_map.mp hw
      obtain ⟨f, hf, rfl⟩ := List.mem_map.mp hm
      exact (Work.stirs_takeUp f.work).keepsTo (hs.inv.2 f hf)

end World

namespace Work

variable {d : Domain} {v : Vocabulary}

theorem keepsTo_perform {trace : List BoundAction} {bound : BoundAction} {σ : World} (hb : d.Offers v bound)
    (ht : ∀ b ∈ trace, d.Offers v b) (hσ : σ.KeepsTo d v) (scopes : List Nat) (updates : List Update) (s : State) :
    (perform scopes updates trace s bound σ).1.KeepsTo d v ∧
      (perform scopes updates trace s bound σ).2.KeepsTo d v := by
  obtain ⟨e, he⟩ | ⟨-, he⟩ := perform_cases scopes updates trace s bound σ
  · rw [he]
    exact ⟨.settled _, hσ⟩
  · rw [he]
    exact ⟨.acting hb ht, hσ.dispatch hb scopes σ.clock⟩

end Work

theorem Execution.keepsTo_complete {d : Domain} {v : Vocabulary} {e : Execution} {σ : World}
    (he : (Work.acting e).KeepsTo d v) (hσ : σ.KeepsTo d v) :
    (e.complete σ).1.KeepsTo d v ∧ (e.complete σ).2.KeepsTo d v := by
  have hr := hσ.complete e.bound.record σ.clock
  obtain ⟨message, hc⟩ | ⟨result, -, hc⟩ | ⟨bound, trace, ht, hc⟩ := e.complete_cases σ
  · rw [hc]
    exact ⟨.settled _, hr⟩
  · rw [hc]
    exact ⟨.settled _, hr⟩
  · rw [hc]
    cases he with
    | acting _ h =>
      rw [ht] at h
      exact Work.keepsTo_perform (h bound List.mem_cons_self) (fun b hb => h b (List.mem_cons_of_mem bound hb)) hr
        e.scopes _ e.after

structure Launch.KeepsTo (d : Domain) (v : Vocabulary) (l : Launch) : Prop where
  frames : ∀ f ∈ l.frames, f.KeepsTo v
  work : l.work.KeepsTo d v
  world : l.world.KeepsTo d v

theorem Launch.KeepsTo.within {d : Domain} {v : Vocabulary} {l : Launch} (h : l.KeepsTo d v) (frame : Frame)
    (hf : frame.KeepsTo v) : (l.within frame).KeepsTo d v := by
  refine ⟨?_, h.work, h.world⟩
  intro f hm
  rcases List.mem_append.mp hm with hm | hm
  · exact h.frames f hm
  · obtain rfl := List.mem_singleton.mp hm
    exact hf

structure Round.KeepsTo (d : Domain) (v : Vocabulary) (r : Round) : Prop where
  slots : ∀ p ∈ r.slots, p.keepsTo v = true
  frames : ∀ fl ∈ r.flights, ∀ f ∈ fl.frames, f.KeepsTo v
  works : ∀ fl ∈ r.flights, fl.work.KeepsTo d v
  world : r.world.KeepsTo d v

theorem Round.KeepsTo.keep {d : Domain} {v : Vocabulary} {r : Round} (h : r.KeepsTo d v) {p : Program}
    (hp : p.keepsTo v = true) : (r.keep p).KeepsTo d v := by
  refine ⟨?_, h.frames, h.works, h.world⟩
  intro q hq
  rcases List.mem_cons.mp hq with rfl | hq
  · exact hp
  · exact h.slots q hq

namespace Program

theorem keepsTo_cases (v : Vocabulary) (c : Setting) (s : State) :
    DispatchCases c s
      (fun p _ σ l => p.keepsTo v = true → σ.KeepsTo c.domain v → l.KeepsTo c.domain v)
      (fun ps _ _ _ _ σ r => (∀ p ∈ ps, p.keepsTo v = true) → σ.KeepsTo c.domain v → r.KeepsTo c.domain v) where
  failed _ _ _ _ _ _ hσ := ⟨nofun, .settled _, hσ⟩
  finished _ _ _ _ _ hσ := ⟨nofun, .settled _, hσ⟩
  call name args scopes σ bound hr hp hσ := by
    have ho : c.domain.Offers v bound := ⟨s, name, args, hp, hr⟩
    obtain ⟨hw, hσ⟩ := Work.keepsTo_perform ho (fun b (hb : b ∈ []) => nomatch hb) hσ scopes [] s
    exact ⟨nofun, hw, hσ⟩
  plan body rest scopes σ plan hpl hp hσ := by
    have ho := offers_plan hpl (((keepsTo_control_iff v .plan _).mp hp).2 body List.mem_cons_self)
    obtain ⟨-, he⟩ | ⟨bound, trace, ht, he⟩ := Work.performAll_cases scopes s σ plan.trace
    · rw [he]
      exact ⟨nofun, .settled _, hσ⟩
    · rw [ht] at ho
      obtain ⟨hw, hσ⟩ := Work.keepsTo_perform (ho bound List.mem_cons_self)
        (fun b hb => ho b (List.mem_cons_of_mem bound hb)) hσ scopes [] s
      rw [he]
      exact ⟨nofun, hw, hσ⟩
  enter _ _ _ _ _ he h hp hσ := h (he.keepsTo hp) hσ
  skip p rest _ _ _ _ h hp hσ := by
    rw [keepsTo_block_iff] at hp
    exact h ((keepsTo_block_iff v rest).mpr fun q hq => hp q (List.mem_cons_of_mem p hq)) hσ
  before p rest _ _ l _ h hp hσ := by
    rw [keepsTo_block_iff] at hp
    exact (h (hp p List.mem_cons_self) hσ).within (.before rest) fun q hq => hp q (List.mem_cons_of_mem p hq)
  bind var init _ _ l h hp hσ := (h hp hσ).within (.bind var) trivial
  decided kind branches _ _ _ _ _ _ hp hσ := by
    obtain ⟨hk, hb⟩ := (keepsTo_control_iff v kind branches).mp hp
    refine ⟨nofun, .group ⟨hk, ?_, nofun, nofun⟩ nofun, hσ.dispatched, hσ.detached⟩
    intro p hm
    obtain ⟨q, hq, rfl⟩ := List.mem_map.mp hm
    split
    · rfl
    · exact hb q hq
  group kind branches _ _ r _ _ _ _ h hp hσ := by
    obtain ⟨hk, hb⟩ := (keepsTo_control_iff v kind branches).mp hp
    have hr := h hb ⟨hσ.dispatched, hσ.detached⟩
    refine ⟨nofun, .group ⟨hk, hr.slots, nofun, ?_⟩ ?_, hr.world⟩
    · intro fl hm
      exact hr.frames fl (by simpa [Scheduler.flights] using hm)
    · intro fl hm
      exact hr.works fl (by simpa [Scheduler.flights] using hm)
  nil _ _ _ _ _ _ hσ := ⟨nofun, nofun, nofun, hσ⟩
  done p rest _ _ _ _ _ r _ h hp hσ := (h (fun q hq => hp q (List.mem_cons_of_mem p hq)) hσ).keep rfl
  mark p rest _ _ _ _ _ r _ _ h hp hσ :=
    (h (fun q hq => hp q (List.mem_cons_of_mem p hq)) hσ).keep (hp p List.mem_cons_self)
  start p rest _ _ _ _ _ l r _ _ hl h hp hσ := by
    have hl := hl (hp p List.mem_cons_self) hσ
    have hr := h (fun q hq => hp q (List.mem_cons_of_mem p hq)) hl.world
    refine ⟨?_, ?_, ?_, hr.world⟩
    · intro q hq
      rcases List.mem_cons.mp hq with rfl | hq
      · rfl
      · exact hr.slots q hq
    · intro fl hm
      rcases List.mem_cons.mp hm with rfl | hm
      · exact hl.frames
      · exact hr.frames fl hm
    · intro fl hm
      rcases List.mem_cons.mp hm with rfl | hm
      · exact hl.work
      · exact hr.works fl hm

end Program

namespace Scheduler

theorem KeepsTo.foldBatch {v : Vocabulary} {s t : Scheduler Work} (hs : s.KeepsTo v) (h : s.foldBatch = .ok t) :
    t.KeepsTo v := by
  refine foldBatch_induction (P := fun u => u.KeepsTo v) ?_ ⟨hs.kind, hs.slots, nofun, hs.flights⟩ h
  intro u d v hd hu _ hv
  obtain ⟨o, next, -, hn, rfl⟩ := complete_eq_ok hv
  refine ⟨hu.kind, ?_, hu.batch, hu.flights⟩
  intro p hp
  rcases List.mem_or_eq_of_mem_set hp with hp | rfl
  · exact hu.slots p hp
  · rcases nextSlot_cases hn with rfl | hr
    · rfl
    · exact Frame.keepsTo_residual (hs.batch d hd) _ hr

end Scheduler

namespace Work

theorem KeepsTo.foldBatch {d : Domain} {v : Vocabulary} {s t : Scheduler Work} (h : (Work.group s).KeepsTo d v)
    (ht : s.foldBatch = .ok t) : (Work.group t).KeepsTo d v := by
  obtain ⟨hs, hf⟩ := h.inv
  rw [← (Scheduler.flights_foldBatch ht).1] at hf
  exact .group (hs.foldBatch ht) hf

theorem keepsTo_dispatchLive {c : Setting} {v : Vocabulary} {s : Scheduler Work} {σ : World}
    (h : (group s).KeepsTo c.domain v) (hσ : σ.KeepsTo c.domain v) :
    (s.dispatchLive c σ).1.KeepsTo c.domain v ∧ (s.dispatchLive c σ).2.KeepsTo c.domain v := by
  obtain ⟨hs, hf⟩ := h.inv
  have hr := (Program.keepsTo_cases v c s.state).round s.slots (s.scope :: s.outer) (fun _ => false) 0 s.nextSeq σ
    hs.slots hσ
  refine ⟨.group ⟨hs.kind, hr.slots, hs.batch, ?_⟩ ?_, hr.world⟩
  · intro f hm
    rcases Scheduler.mem_flights_dispatchLive hm with hm | hm
    · exact hs.flights f hm
    · exact hr.frames f hm
  · intro f hm
    rcases Scheduler.mem_flights_dispatchLive hm with hm | hm
    · exact hf f hm
    · exact hr.works f hm

theorem Moves.keepsTo {c : Setting} {v : Vocabulary} {w w' : Work} {σ τ : World} (h : Moves c w σ w' τ)
    (hw : w.KeepsTo c.domain v) (hσ : σ.KeepsTo c.domain v) : w'.KeepsTo c.domain v ∧ τ.KeepsTo c.domain v := by
  induction h with
  | @act e σ τ w h =>
    obtain ⟨allowance, he⟩ | ⟨timer, postponed, rfl, hτ⟩ := Execution.advance_ends_or_stays h
    · have hc := Execution.keepsTo_complete (σ := { σ with allowance }) hw ⟨hσ.dispatched, hσ.detached⟩
      rwa [← he] at hc
    · cases hw with
      | acting hb ht => exact ⟨.acting hb ht, hσ.idle hτ⟩
  | finish _ _ => exact ⟨.settled _, hσ.abandon hw⟩
  | starve _ _ _ => exact ⟨.settled _, hσ⟩
  | rest _ _ _ => exact ⟨(stirs_look _ _).keepsTo hw, hσ⟩
  | fail _ _ _ => exact ⟨.settled _, hσ.abandon hw⟩
  | decide _ _ ht _ => exact ⟨.settled _, hσ.abandon (hw.foldBatch ht)⟩
  | go _ _ ht _ => exact keepsTo_dispatchLive (hw.foldBatch ht) hσ
  | @follow s f rest σ τ w hs _ ih =>
    obtain ⟨hk, hf⟩ := hw.inv
    have h₀ := hs.mem_flights
    obtain ⟨hw, hτ⟩ := ih (hf f h₀) hσ
    refine ⟨.group ⟨hk.kind, hk.slots, hk.batch, ?_⟩ ?_, hτ⟩
    · intro g hm
      rcases hs.mem_flights_follow hm with rfl | hm
      · exact hk.flights f h₀
      · exact hk.flights g hm
    · intro g hm
      rcases hs.mem_flights_follow hm with rfl | hm
      · exact hw
      · exact hf g hm
  | @receive s f rest σ hs _ =>
    refine ⟨?_, hσ⟩
    obtain ⟨outcome, -, he⟩ | hst := receive_cases hs.queue
    · obtain ⟨hk, hf⟩ := hw.inv
      rw [he]
      refine .group ⟨hk.kind, hk.slots, ?_, ?_⟩ ?_
      · intro d hd
        rcases List.mem_append.mp hd with hd | hd
        · exact hk.batch d hd
        · obtain rfl := List.mem_singleton.mp hd
          exact hk.flights f hs.mem_flights
      · exact fun g hm => hk.flights g (hs.mem_flights_of_mem_rest hm)
      · exact fun g hm => hf g (hs.mem_flights_of_mem_rest hm)
    · exact hst.keepsTo hw

end Work

structure Machine.KeepsTo (d : Domain) (v : Vocabulary) (m : Machine) : Prop where
  main : m.main.KeepsTo d v
  world : m.world.KeepsTo d v

theorem Machine.Steps.keepsTo {c : Setting} {v : Vocabulary} {m m' : Machine} (h : Steps c m m')
    (hm : m.KeepsTo c.domain v) : m'.KeepsTo c.domain v := by
  obtain ⟨hw, hσ⟩ := hm
  cases h with
  | move h =>
    obtain ⟨hw, hσ⟩ := h.keepsTo hw hσ
    exact ⟨hw, hσ⟩
  | takeUp _ _ => exact ⟨(Work.stirs_takeUp _).keepsTo hw, hσ.dispatched, hσ.detached⟩
  | wake _ _ _ => exact ⟨(Work.stirs_wake _).keepsTo hw, hσ.dispatched, hσ.detached⟩
  | @detached front rest w w' τ _ he hd =>
    have hd₀ := hσ.detached
    rw [he] at hd₀
    have h₀ : w.KeepsTo c.domain v := hd₀ w (List.mem_append_right _ List.mem_cons_self)
    obtain ⟨hw', hτ⟩ : w'.KeepsTo c.domain v ∧ τ.KeepsTo c.domain v := by
      obtain hmv | ⟨-, -, rfl, rfl⟩ := Work.move_cases hd
      · exact hmv.keepsTo h₀ ⟨hσ.dispatched, nofun⟩
      · exact ⟨(Work.stirs_wake w).keepsTo h₀, hσ.dispatched, nofun⟩
    refine ⟨hw, hτ.dispatched, ?_⟩
    intro u hu
    rcases List.mem_append.mp hu with hu | hu
    · rcases List.mem_append.mp hu with hu | hu
      · exact hd₀ u (List.mem_append_left _ hu)
      · rcases List.mem_cons.mp hu with rfl | hu
        · exact hw'
        · exact hd₀ u (List.mem_append_right _ (List.mem_cons_of_mem w hu))
    · exact hτ.detached u hu
  | @ring time _ _ =>
    refine ⟨(Work.stirs_ring _ time).keepsTo hw, hσ.dispatched, ?_⟩
    intro u hu
    obtain ⟨w, hm, rfl⟩ := List.mem_map.mp hu
    exact (Work.stirs_ring w time).keepsTo (hσ.detached w hm)

end Agenda
