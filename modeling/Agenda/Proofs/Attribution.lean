import Mathlib
import Agenda.Proofs.Executions
import Agenda.Proofs.Sequence

/-!
# Where dispatches come from

Every entry of the log that tells of a dispatch belongs to an execution which is then under way in the work that is
waited for, inside of just the constructs whose scopes it names. These constructs are not given up yet. So nothing is
dispatched from inside of a construct after it was given up, and whatever is still executed there was dispatched before.

It need not have started before: an execution starts with the first look at it, and a race may be decided while some of
its flights have not been looked at.
-/

namespace Agenda

set_option autoImplicit false

namespace Work

/-- An execution of the action with these scopes is under way in the work. -/
inductive Hosts : BoundAction → List Nat → Work → Prop
  | acting (e : Execution) : Hosts e.bound e.scopes (.acting e)
  | group {b : BoundAction} {scopes : List Nat} {s : Scheduler Work} {f : Flight Work} : f ∈ s.flights →
      Hosts b scopes f.work → Hosts b scopes (.group s)

/-- An execution of the action is under way in the work. The scopes are those of the constructs around the execution,
from the inside out, given those around the work. -/
inductive Executes (b : BoundAction) (scopes : List Nat) : List Nat → Work → Prop
  | acting {e : Execution} : e.bound = b → Executes b scopes scopes (.acting e)
  | group {around : List Nat} {s : Scheduler Work} {f : Flight Work} : f ∈ s.flights →
      Executes b scopes (s.scope :: around) f.work → Executes b scopes around (.group s)

variable {b : BoundAction} {scopes around : List Nat} {w w' : Work}

theorem not_hosts_settled (outcome : Except Failure Outcome) : ¬ Hosts b scopes (.settled outcome) := by
  rintro ⟨⟩

theorem Hosts.executes (h : Hosts b scopes w) (hw : w.Inside around) : w.Executes b scopes around := by
  induction h generalizing around with
  | acting e =>
    cases hw with
    | acting he =>
      rw [he]
      exact .acting rfl
  | group hf _ ih => exact .group hf (ih (hw.inv.2 _ hf))

theorem Executes.hosts (h : w.Executes b scopes around) (hw : w.Inside around) : Hosts b scopes w := by
  induction h with
  | @acting e hb =>
    cases hw with
    | acting he =>
      rw [← hb, ← he]
      exact .acting e
  | group hf _ ih => exact .group hf (ih (hw.inv.2 _ hf))

theorem Executes.mem_scopes (h : w.Executes b scopes around) : ∀ i ∈ scopes, i ∈ around ∨ i ∈ w.scopes := by
  induction h with
  | acting _ => exact fun i hi => .inl hi
  | @group around s f hf _ ih =>
    intro i hi
    rw [scopes_group]
    rcases ih i hi with hm | hm
    · rcases List.mem_cons.mp hm with rfl | hm
      · exact .inr (Multiset.mem_add.mpr (.inl (Multiset.mem_singleton_self _)))
      · exact .inl hm
    · refine .inr (Multiset.mem_add.mpr (.inr (Multiset.mem_of_le (List.le_sum_of_mem ?_) hm)))
      exact List.mem_map_of_mem hf

theorem Stirs.hosts (h : Stirs w w') (hw : Hosts b scopes w') : Hosts b scopes w := by
  induction h with
  | settled outcome => exact hw
  | acting e timer postponed _ =>
    cases hw with
    | acting _ => exact .acting e
  | group fs he hp _ ih =>
    cases hw with
    | group hf hc =>
      obtain ⟨x, hx, h₀, rfl⟩ := exists_of_mem_stirred he hp hf
      exact .group h₀ (ih x hx hc)

end Work

namespace World

/-- The log has new entries. Those that tell of a dispatch belong to executions that are under way now, and every
execution that was not under way before has such an entry. -/
def Notes (σ τ : World) (before after : BoundAction → List Nat → Prop) : Prop :=
  ∃ events, τ.log = σ.log ++ events ∧
    (∀ b scopes time, Event.dispatched b scopes time ∈ events → after b scopes) ∧
    ∀ b scopes, after b scopes → before b scopes ∨ ∃ time, Event.dispatched b scopes time ∈ events

variable {σ τ υ : World} {before before' after after' : BoundAction → List Nat → Prop}

theorem notes_of_log_eq (hl : τ.log = σ.log) (h : ∀ b scopes, after b scopes → before b scopes) :
    σ.Notes τ before after := by
  refine ⟨[], by rw [hl, List.append_nil], ?_, fun b scopes ha => .inl (h b scopes ha)⟩
  intro b scopes time hm
  cases hm

theorem notes_of_idles (hτ : σ.Idles τ) (h : ∀ b scopes, after b scopes → before b scopes) :
    σ.Notes τ before after := by
  obtain ⟨events, hl, he⟩ := hτ.log
  refine ⟨events, hl, ?_, fun b scopes ha => .inl (h b scopes ha)⟩
  intro b scopes time hm
  obtain ⟨b', scopes', time', hd⟩ := he _ hm
  cases hd

theorem notes_abandon (σ : World) (scope : Nat) (works : List Work) (h : ∀ b scopes, after b scopes → before b scopes) :
    σ.Notes (σ.abandon scope works) before after := by
  refine ⟨[.closed scope], rfl, ?_, fun b scopes ha => .inl (h b scopes ha)⟩
  intro b scopes time hm
  cases List.mem_singleton.mp hm

theorem notes_perform (scopes : List Nat) (updates : List Update) (trace : List BoundAction) (s : State)
    (bound : BoundAction) (σ : World) :
    σ.Notes (Work.perform scopes updates trace s bound σ).2 before
      (fun b sc => (Work.perform scopes updates trace s bound σ).1.Hosts b sc) := by
  obtain ⟨e, he⟩ | ⟨-, he⟩ := Work.perform_cases scopes updates trace s bound σ
  · rw [he]
    exact notes_of_log_eq rfl fun b sc hc => absurd hc (Work.not_hosts_settled _)
  · rw [he]
    refine ⟨[.dispatched bound scopes σ.clock], rfl, ?_, ?_⟩
    · intro b sc time hm
      cases List.mem_singleton.mp hm
      exact .acting { bound, after := bound.action.effect s, trace, updates, scopes }
    · rintro b sc ⟨⟩
      exact .inr ⟨σ.clock, List.mem_singleton_self _⟩

theorem Notes.imp (h : σ.Notes τ before after) (ha : ∀ b scopes, after b scopes → after' b scopes)
    (hb : ∀ b scopes, before b scopes → before' b scopes)
    (hc : ∀ b scopes, after' b scopes → after b scopes ∨ before' b scopes) : σ.Notes τ before' after' := by
  obtain ⟨events, hl, hd, hn⟩ := h
  refine ⟨events, hl, fun b sc time hm => ha b sc (hd b sc time hm), ?_⟩
  intro b sc h'
  rcases hc b sc h' with hi | hi
  · exact (hn b sc hi).imp_left (hb b sc)
  · exact .inl hi

theorem Notes.trans (h : σ.Notes τ (fun _ _ => False) after) (h' : τ.Notes υ (fun _ _ => False) after') :
    σ.Notes υ (fun _ _ => False) (fun b scopes => after b scopes ∨ after' b scopes) := by
  obtain ⟨events, hl, hd, hn⟩ := h
  obtain ⟨events', hl', hd', hn'⟩ := h'
  refine ⟨events ++ events', by rw [hl', hl, List.append_assoc], ?_, ?_⟩
  · intro b sc time hm
    exact (List.mem_append.mp hm).imp (hd b sc time) (hd' b sc time)
  · rintro b sc (ha | ha)
    · obtain hf | ⟨time, hm⟩ := hn b sc ha
      · exact hf.elim
      · exact .inr ⟨time, List.mem_append_left _ hm⟩
    · obtain hf | ⟨time, hm⟩ := hn' b sc ha
      · exact hf.elim
      · exact .inr ⟨time, List.mem_append_right _ hm⟩

theorem Notes.of_record_completed {record : ActionRecord} {time : Nat}
    (h : (σ.record (.completed record time)).Notes τ before after) : σ.Notes τ before after := by
  obtain ⟨events, hl, hd, hn⟩ := h
  refine ⟨.completed record time :: events, ?_, ?_, ?_⟩
  · rw [hl, World.record, List.append_assoc]
    rfl
  · intro b sc t hm
    rcases List.mem_cons.mp hm with hm | hm
    · cases hm
    · exact hd b sc t hm
  · intro b sc ha
    obtain hb | ⟨t, hm⟩ := hn b sc ha
    · exact .inl hb
    · exact .inr ⟨t, List.mem_cons_of_mem _ hm⟩

end World

theorem Program.notes_cases (c : Setting) (s : State) :
    DispatchCases c s
      (fun _ _ σ l => σ.Notes l.world (fun _ _ => False) fun b sc => l.work.Hosts b sc)
      (fun _ _ _ _ _ σ r => σ.Notes r.world (fun _ _ => False) fun b sc => ∃ f ∈ r.flights, f.work.Hosts b sc) where
  failed _ _ _ _ _ := World.notes_of_log_eq rfl fun _ _ hc => (Work.not_hosts_settled _ hc).elim
  finished _ _ _ _ := World.notes_of_log_eq rfl fun _ _ hc => (Work.not_hosts_settled _ hc).elim
  call _ _ scopes σ bound _ := World.notes_perform scopes [] [] s bound σ
  plan _ _ scopes σ plan _ := by
    obtain ⟨-, he⟩ | ⟨bound, rest, -, he⟩ := Work.performAll_cases scopes s σ plan.trace
    · simp only [he]
      exact World.notes_of_log_eq rfl fun _ _ hc => (Work.not_hosts_settled _ hc).elim
    · simp only [he]
      exact World.notes_perform scopes [] rest s bound σ
  enter _ _ _ _ _ _ h := h
  skip _ _ _ _ _ _ h := h
  before _ _ _ _ _ _ h := h
  bind _ _ _ _ _ h := h
  decided _ _ _ _ _ _ _ _ := by
    refine World.notes_of_log_eq rfl ?_
    intro b sc hc
    cases hc with
    | group hf _ => exact absurd hf List.not_mem_nil
  group kind branches scopes σ r _ _ _ _ h := by
    have hr : σ.Notes r.world (fun _ _ => False) fun b sc => ∃ f ∈ r.flights, f.work.Hosts b sc := h
    refine hr.imp ?_ (fun _ _ hf => hf) ?_
    · rintro b sc ⟨f, hf, hc⟩
      exact .group (List.mem_append_left _ hf) hc
    · intro b sc hc
      cases hc with
      | @group _ _ _ f hf hc =>
        refine .inl ⟨f, ?_, hc⟩
        rw [Scheduler.flights, List.append_nil] at hf
        exact hf
  nil _ _ _ _ _ := by
    refine World.notes_of_log_eq rfl ?_
    rintro b sc ⟨f, hf, -⟩
    cases hf
  done _ _ _ _ _ _ _ _ _ h := h
  mark _ _ _ _ _ _ _ _ _ _ h := h
  start _ _ _ _ _ _ _ l r _ _ hl hr := by
    refine (hl.trans hr).imp ?_ (fun _ _ hf => hf) ?_
    · rintro b sc (hc | ⟨f, hf, hc⟩)
      · exact ⟨_, List.mem_cons_self, hc⟩
      · exact ⟨f, List.mem_cons_of_mem _ hf, hc⟩
    · rintro b sc ⟨f, hf, hc⟩
      rcases List.mem_cons.mp hf with rfl | hf
      · exact .inl (.inl hc)
      · exact .inl (.inr ⟨f, hf, hc⟩)

theorem Execution.notes_complete (e : Execution) (σ : World) (before : BoundAction → List Nat → Prop) :
    σ.Notes (e.complete σ).2 before fun b sc => (e.complete σ).1.Hosts b sc := by
  obtain ⟨message, he⟩ | ⟨result, -, he⟩ | ⟨bound, trace, -, he⟩ := e.complete_cases σ
  · rw [he]
    exact .of_record_completed (World.notes_of_log_eq rfl fun _ _ hc => (Work.not_hosts_settled _ hc).elim)
  · rw [he]
    exact .of_record_completed (World.notes_of_log_eq rfl fun _ _ hc => (Work.not_hosts_settled _ hc).elim)
  · rw [he]
    exact .of_record_completed (World.notes_perform e.scopes _ trace e.after bound _)

theorem Execution.notes_advance {e : Execution} {σ τ : World} {w : Work} (h : e.advance σ = some (w, τ)) :
    σ.Notes τ (fun b sc => (Work.acting e).Hosts b sc) fun b sc => w.Hosts b sc := by
  obtain ⟨allowance, he⟩ | ⟨timer, postponed, rfl, hτ⟩ := advance_ends_or_stays h
  · have hn := e.notes_complete { σ with allowance } fun b sc => (Work.acting e).Hosts b sc
    rwa [← he] at hn
  · refine World.notes_of_idles hτ ?_
    rintro b sc ⟨⟩
    exact .acting e

namespace Work

def Leaves (w : Work) (σ τ : World) : Prop :=
  ∀ d ∈ τ.detached, d ∈ σ.detached ∨ ∀ b sc, Hosts b sc d → Hosts b sc w

theorem leaves_of_eq {w : Work} {σ τ : World} (h : τ.detached = σ.detached) : w.Leaves σ τ := by
  intro d hd
  rw [h] at hd
  exact .inl hd

theorem leaves_abandon {s t : Scheduler Work} (σ : World) (h : t.flights = s.flights) :
    (group s).Leaves σ (σ.abandon t.scope t.works) := by
  intro d hd
  rcases List.mem_append.mp hd with hd | hd
  · exact .inl hd
  · obtain ⟨w, hw, rfl⟩ := List.mem_map.mp hd
    obtain ⟨f, hf, rfl⟩ := List.mem_map.mp hw
    rw [h] at hf
    exact .inr fun b sc hc => .group hf ((stirs_takeUp f.work).hosts hc)

theorem notes_dispatchLive (c : Setting) {s t : Scheduler Work} (h : t.flights = s.flights) (σ : World) :
    σ.Notes (t.dispatchLive c σ).2 (fun b sc => (group s).Hosts b sc)
      fun b sc => (t.dispatchLive c σ).1.Hosts b sc := by
  have hr := (Program.notes_cases c t.state).round t.slots (t.scope :: t.outer) (fun _ => false) 0 t.nextSeq σ
  refine hr.imp ?_ (fun _ _ hf => hf.elim) ?_
  · rintro b sc ⟨f, hf, hc⟩
    exact .group (List.mem_append_left _ (List.mem_append_right _ hf)) hc
  · intro b sc hc
    cases hc with
    | @group _ _ _ f hf hc =>
      rcases Scheduler.mem_flights_dispatchLive hf with hf | hf
      · rw [h] at hf
        exact .inr (.group hf hc)
      · exact .inl ⟨f, hf, hc⟩

theorem Moves.notes {c : Setting} {w w' : Work} {σ τ : World} (h : Moves c w σ w' τ) :
    (σ.Notes τ (fun b sc => w.Hosts b sc) fun b sc => w'.Hosts b sc) ∧ w.Leaves σ τ := by
  induction h with
  | act h => exact ⟨Execution.notes_advance h, leaves_of_eq (Execution.enlarges_advance h).2.detached⟩
  | @finish s σ _ _ =>
    exact ⟨σ.notes_abandon _ _ fun _ _ hc => (not_hosts_settled _ hc).elim, leaves_abandon σ rfl⟩
  | starve _ _ _ =>
    exact ⟨World.notes_of_log_eq rfl fun _ _ hc => (not_hosts_settled _ hc).elim, leaves_of_eq rfl⟩
  | @rest s σ short _ _ _ =>
    have hst := stirs_look s (.resting (s.attention.again || short))
    exact ⟨World.notes_of_log_eq rfl fun _ _ hc => hst.hosts hc, leaves_of_eq rfl⟩
  | @fail s σ _ _ _ _ _ =>
    exact ⟨σ.notes_abandon _ _ fun _ _ hc => (not_hosts_settled _ hc).elim, leaves_abandon σ rfl⟩
  | @decide s t σ _ _ _ ht _ =>
    have hf := (Scheduler.flights_foldBatch ht).1
    exact ⟨σ.notes_abandon _ _ fun _ _ hc => (not_hosts_settled _ hc).elim, leaves_abandon σ hf⟩
  | @go s t σ _ _ _ ht _ =>
    refine ⟨notes_dispatchLive c (Scheduler.flights_foldBatch ht).1 σ, leaves_of_eq ?_⟩
    exact ((Program.scopes_cases c t.state).round t.slots _ _ 0 t.nextSeq σ).2.detached
  | @follow s f rest σ τ w hs _ ih =>
    obtain ⟨hn, hl⟩ := ih
    constructor
    · refine hn.imp ?_ (fun _ _ hc => .group hs.mem_flights hc) ?_
      · intro b sc hc
        exact .group (f := { f with work := w }) List.mem_cons_self hc
      · intro b sc hc
        cases hc with
        | group hg hc =>
          rcases hs.mem_flights_follow hg with rfl | hg
          · exact .inl hc
          · exact .inr (.group hg hc)
    · intro d hd
      exact (hl d hd).imp_right fun hc b sc h => .group hs.mem_flights (hc b sc h)
  | @receive s f rest σ hs _ =>
    refine ⟨World.notes_of_log_eq rfl ?_, leaves_of_eq rfl⟩
    intro b sc hc
    obtain ⟨outcome, -, he⟩ | hst := receive_cases hs.queue
    · rw [he] at hc
      cases hc with
      | group hg hc => exact .group (hs.mem_flights_of_mem_rest hg) hc
    · exact hst.hosts hc

end Work

namespace World

/-- Nothing was dispatched from inside of a construct after it was given up. -/
def Quiet (σ : World) : Prop :=
  ∀ earlier scope later, σ.log = earlier ++ .closed scope :: later →
    ∀ b scopes time, Event.dispatched b scopes time ∈ later → scope ∉ scopes

variable {σ τ : World} {events : List Event}

theorem Quiet.append (h : σ.Quiet) (hl : τ.log = σ.log ++ events)
    (ho : ∀ b scopes time, Event.dispatched b scopes time ∈ events → ∀ i ∈ scopes, τ.isClosed i = false) : τ.Quiet := by
  intro earlier scope later he b scopes time hm hs
  have hc : τ.isClosed scope = true := by
    refine List.any_eq_true.mpr ⟨.closed scope, ?_, beq_self_eq_true scope⟩
    rw [he]
    exact List.mem_append_right _ List.mem_cons_self
  -- the scope is closed now, so the dispatch is an old one and so is the closing before it
  have hnew : Event.dispatched b scopes time ∉ events := by
    intro hin
    rw [ho b scopes time hin scope hs] at hc
    cases hc
  rw [hl] at he
  obtain ⟨mid, -, hmid⟩ | ⟨mid, hmid, hlat⟩ := List.append_eq_append_iff.mp he
  · apply hnew
    rw [hmid]
    exact List.mem_append_right _ (List.mem_cons_of_mem _ hm)
  · cases mid with
    | nil =>
      rw [List.nil_append] at hlat
      exact hnew (hlat ▸ List.mem_cons_of_mem _ hm)
    | cons event mid =>
      obtain ⟨rfl, rfl⟩ := List.cons.inj hlat
      rcases List.mem_append.mp hm with hm | hm
      · exact h earlier scope mid hmid b scopes time hm hs
      · exact hnew hm

theorem dispatched_eq_iff (hl : τ.log = σ.log ++ events) :
    τ.dispatched = σ.dispatched ↔ ∀ b scopes time, Event.dispatched b scopes time ∉ events := by
  rw [dispatched, dispatched, hl, List.filterMap_append, List.append_right_eq_self, List.filterMap_eq_nil_iff]
  constructor
  · intro h b scopes time hm
    cases h _ hm
  · intro h e he
    cases e with
    | dispatched b scopes time => exact absurd he (h b scopes time)
    | _ => rfl

end World

namespace Event

def dispatchIn? (scope : Nat) (event : Event) : Option (BoundAction × List Nat) :=
  event.dispatch?.filter (scope ∈ ·.2)

def startIn? (scope : Nat) (event : Event) : Option (BoundAction × List Nat) :=
  event.start?.filter (scope ∈ ·.2)

end Event

namespace World

variable {σ τ : World} {events : List Event}

/-- Whatever starts inside of a construct that is given up, be it earlier or later, was dispatched there before that. No
dispatch is good for two starts. -/
def Warranted (σ : World) : Prop :=
  ∀ earlier scope later, σ.log = earlier ++ .closed scope :: later →
    (↑(σ.log.filterMap (Event.startIn? scope)) : Multiset (BoundAction × List Nat)) ≤
      ↑(earlier.filterMap (Event.dispatchIn? scope))

theorem Quiet.filterMap_dispatchIn? (h : σ.Quiet) {earlier later : List Event} {scope : Nat}
    (hl : σ.log = earlier ++ .closed scope :: later) :
    σ.log.filterMap (Event.dispatchIn? scope) = earlier.filterMap (Event.dispatchIn? scope) := by
  have hn : (Event.closed scope :: later).filterMap (Event.dispatchIn? scope) = [] := by
    refine List.filterMap_eq_nil_iff.mpr fun event he => ?_
    rcases List.mem_cons.mp he with rfl | he
    · rfl
    · cases event with
      | dispatched b scopes time => simp [Event.dispatchIn?, Event.dispatch?, h earlier scope later hl b scopes time he]
      | _ => rfl
  rw [hl, List.filterMap_append, hn, List.append_nil]

theorem Quiet.warranted (h : σ.Quiet) {waited : Multiset (BoundAction × List Nat)}
    (hs : Account.starts.Holds σ waited) : σ.Warranted := by
  intro earlier scope later hl
  have hle : (↑(σ.log.filterMap Event.start?) : Multiset (BoundAction × List Nat)) ≤
      ↑(σ.log.filterMap Event.dispatch?) := by
    rw [Account.Holds, add_assoc] at hs
    exact hs.symm ▸ Multiset.le_add_right _ _
  have hin := Multiset.filter_le_filter (scope ∈ ·.2) hle
  rw [Multiset.filter_coe, Multiset.filter_coe, List.filter_filterMap, List.filter_filterMap] at hin
  rw [← h.filterMap_dispatchIn? hl]
  exact hin

structure Attributed (σ : World) : Prop where
  regular : σ.Regular
  quiet : σ.Quiet
  logged : ∀ w ∈ σ.detached, ∀ b scopes, w.Hosts b scopes → ∃ time, Event.dispatched b scopes time ∈ σ.log

theorem attributed_initial (c : Setting) : c.initial.Attributed := by
  refine ⟨regular_initial _, ?_, List.forall_mem_nil _⟩
  intro earlier scope later he
  exact absurd he.symm (List.append_ne_nil_of_right_ne_nil _ (List.cons_ne_nil _ _))

end World

namespace Machine

def works (m : Machine) : List Work := m.main :: m.world.detached

structure Adds (m m' : Machine) (events : List Event) : Prop where
  log : m'.world.log = m.world.log ++ events
  main : ∀ b scopes time, Event.dispatched b scopes time ∈ events → m'.main.Hosts b scopes
  works : ∀ w ∈ m'.works, ∀ b scopes, w.Hosts b scopes →
    (∃ v ∈ m.works, v.Hosts b scopes) ∨ ∃ time, Event.dispatched b scopes time ∈ events

/-- Everything that is under way was dispatched once, and nothing was dispatched too late. -/
structure Attributed (m : Machine) : Prop extends Scoped m where
  quiet : m.world.Quiet
  logged : ∀ w ∈ m.works, ∀ b scopes, w.Hosts b scopes → ∃ time, Event.dispatched b scopes time ∈ m.world.log

variable {c : Setting} {m m' : Machine} {events : List Event}

theorem Scoped.opened_of_hosts (h : m.Scoped) {b : BoundAction} {scopes : List Nat} (hc : m.main.Hosts b scopes) :
    ∀ i ∈ scopes, m.world.isClosed i = false := by
  intro i hi
  rcases (hc.executes h.inside).mem_scopes i hi with hm | hm
  · cases hm
  · exact h.not_closed hm

theorem Attributed.adds (h : m.Attributed) (ha : Adds m m' events) (hs : m'.Scoped) : m'.Attributed := by
  refine ⟨hs, h.quiet.append ha.log fun b scopes time hm => hs.opened_of_hosts (ha.main b scopes time hm), ?_⟩
  intro w hw b scopes hc
  rw [ha.log]
  obtain ⟨v, hv, hc⟩ | ⟨time, hm⟩ := ha.works w hw b scopes hc
  · obtain ⟨time, hm⟩ := h.logged v hv b scopes hc
    exact ⟨time, List.mem_append_left _ hm⟩
  · exact ⟨time, List.mem_append_right _ hm⟩

theorem adds_stirs {w : Work} (hw : Work.Stirs m.main w) {σ : World} (hl : σ.log = m.world.log) {g : Work → Work}
    (hg : ∀ w, Work.Stirs w (g w)) (hd : σ.detached = m.world.detached.map g) : Adds m ⟨w, σ⟩ [] := by
  refine ⟨by rw [hl, List.append_nil], fun b scopes time hm => absurd hm List.not_mem_nil, ?_⟩
  intro v hv b scopes hc
  left
  rcases List.mem_cons.mp hv with rfl | hv
  · exact ⟨m.main, List.mem_cons_self, hw.hosts hc⟩
  · rw [hd] at hv
    obtain ⟨u, hu, rfl⟩ := List.mem_map.mp hv
    exact ⟨u, List.mem_cons_of_mem _ hu, (hg u).hosts hc⟩

theorem Scoped.adds_detached (h : m.Scoped) {front rest : List Work} {w w' : Work} {τ : World}
    (he : m.world.detached = front ++ w :: rest)
    (hm : w.move c { m.world.renew c with detached := [] } = some (w', τ)) (allowance : Nat) :
    ∃ events, Adds m ⟨m.main, { τ with detached := front ++ w' :: rest ++ τ.detached, allowance }⟩ events := by
  have hmem : ∀ v, v ∈ front ∨ v = w ∨ v ∈ rest → v ∈ m.works := by
    intro v hv
    refine List.mem_cons_of_mem _ ?_
    rw [he, List.mem_append, List.mem_cons]
    exact hv
  obtain ⟨hn, hl⟩ : ({ m.world.renew c with detached := [] } : World).Notes τ (fun b sc => w.Hosts b sc)
      (fun b sc => w'.Hosts b sc) ∧ w.Leaves { m.world.renew c with detached := [] } τ := by
    obtain hmv | ⟨-, -, rfl, rfl⟩ := Work.move_cases hm
    · exact hmv.notes
    · exact ⟨World.notes_of_log_eq rfl fun b sc hc => (Work.stirs_wake w).hosts hc, Work.leaves_of_eq rfl⟩
  obtain ⟨events, hlog, -, hnew⟩ := hn
  -- the scopes around the work are closed, so it can dispatch nothing
  have hsil : ∀ b scopes time, Event.dispatched b scopes time ∉ events := by
    have hd : τ.dispatched = m.world.dispatched := (h.move_detached he hm allowance).2.2
    exact (World.dispatched_eq_iff hlog).mp hd
  have hw' : ∀ b sc, w'.Hosts b sc → w.Hosts b sc := by
    intro b sc hc
    obtain hc | ⟨time, hm⟩ := hnew b sc hc
    · exact hc
    · exact absurd hm (hsil b sc time)
  refine ⟨events, hlog, fun b scopes time hm => absurd hm (hsil b scopes time), ?_⟩
  intro v hv b scopes hc
  left
  rcases List.mem_cons.mp hv with rfl | hv
  · exact ⟨m.main, List.mem_cons_self, hc⟩
  rcases List.mem_append.mp hv with hv | hv
  · rcases List.mem_append.mp hv with hv | hv
    · exact ⟨v, hmem v (.inl hv), hc⟩
    · rcases List.mem_cons.mp hv with rfl | hv
      · exact ⟨w, hmem w (.inr (.inl rfl)), hw' b scopes hc⟩
      · exact ⟨v, hmem v (.inr (.inr hv)), hc⟩
  · rcases hl v hv with hd | hd
    · cases hd
    · exact ⟨w, hmem w (.inr (.inl rfl)), hd b scopes hc⟩

theorem Steps.adds (h : Steps c m m') (hm : m.Scoped) : ∃ events, Adds m m' events := by
  cases h with
  | move h =>
    obtain ⟨⟨events, hl, hd, hn⟩, hv⟩ := h.notes
    refine ⟨events, hl, hd, ?_⟩
    intro w hw b scopes hc
    rcases List.mem_cons.mp hw with rfl | hw
    · exact (hn b scopes hc).imp_left fun hc => ⟨m.main, List.mem_cons_self, hc⟩
    · rcases hv w hw with hd | hd
      · exact .inl ⟨w, List.mem_cons_of_mem _ hd, hc⟩
      · exact .inl ⟨m.main, List.mem_cons_self, hd b scopes hc⟩
  | takeUp _ _ => exact ⟨[], adds_stirs (Work.stirs_takeUp _) rfl Work.stirs_refl (List.map_id _).symm⟩
  | wake _ _ _ => exact ⟨[], adds_stirs (Work.stirs_wake _) rfl Work.stirs_refl (List.map_id _).symm⟩
  | detached _ he hd => exact hm.adds_detached he hd _
  | @ring time _ _ => exact ⟨[], adds_stirs (Work.stirs_ring _ time) rfl (fun w => Work.stirs_ring w time) rfl⟩

theorem Steps.attributed (h : Steps c m m') (hm : m.Attributed) : m'.Attributed := by
  obtain ⟨events, ha⟩ := h.adds hm.toScoped
  exact hm.adds ha (h.scoped hm.toScoped)

theorem Attributed.world (h : m.Attributed) : m.world.Attributed :=
  ⟨h.regular, h.quiet, fun w hw => h.logged w (List.mem_cons_of_mem _ hw)⟩

theorem Steps.main_settled (h : Steps c m m') {outcome : Except Failure Outcome} (hm : m.main = .settled outcome) :
    m'.main = .settled outcome := by
  cases h with
  | move h =>
    rw [hm] at h
    cases h
  | takeUp _ _ => simp only [hm, Work.takeUp]
  | wake _ _ _ => simp only [hm, Work.wake]
  | detached _ _ _ => exact hm
  | ring _ _ => simp only [Machine.ring, hm, Work.ring]

theorem drain_induction {P : Machine → Prop} (step : ∀ m m', P m → Steps c m m' → P m') (time : Nat) (m : Machine)
    (h : P m) : P (m.drain c time) := by
  fun_induction drain c time m with
  | case1 => exact h
  | case2 m m' hm _ ih => exact ih (step m m' h (steps_of_step hm))
  | case3 => exact h

end Machine

theorem Account.holds_drain {α : Type} {a : Account α} {σ : World} (h : a.Holds σ 0) (c : Setting) (time : Nat) :
    a.Holds (σ.drain c time) 0 := by
  have keep : ∀ m m' : Machine, a.Holds m.world (a.held m.main) ∧ m.main = .settled (.error .abandoned) →
      m.Steps c m' → a.Holds m'.world (a.held m'.main) ∧ m'.main = .settled (.error .abandoned) := by
    rintro m m' ⟨hm, hs⟩ h
    exact ⟨holds_steps h hm, h.main_settled hs⟩
  obtain ⟨hm, hs⟩ := Machine.drain_induction keep time ⟨.settled (.error .abandoned), σ⟩ ⟨h, rfl⟩
  rw [hs] at hm
  exact hm

theorem World.Attributed.drain {σ : World} (h : σ.Attributed) (c : Setting) (time : Nat) :
    (σ.drain c time).Attributed ∧ (σ.drain c time).dispatched = σ.dispatched := by
  -- after the run nothing is waited for: the main work is settled and stays so
  have hm : Machine.Attributed ⟨.settled (.error .abandoned), σ⟩ := by
    refine ⟨⟨.settled [] _, h.regular.sealed, ?_⟩, h.quiet, ?_⟩
    · rw [Work.scopes, add_zero]
      exact h.regular.scopes
    · intro w hw b scopes hc
      rcases List.mem_cons.mp hw with rfl | hw
      · exact absurd hc (Work.not_hosts_settled _)
      · exact h.logged w hw b scopes hc
  have keep : ∀ m m' : Machine,
      m.Attributed ∧ m.world.dispatched = σ.dispatched ∧ m.main = .settled (.error .abandoned) → m.Steps c m' →
      m'.Attributed ∧ m'.world.dispatched = σ.dispatched ∧ m'.main = .settled (.error .abandoned) := by
    rintro m m' ⟨ha, hd, hs⟩ h
    have hs' := h.main_settled hs
    refine ⟨h.attributed ha, ?_, hs'⟩
    obtain ⟨events, hadd⟩ := h.adds ha.toScoped
    rw [← hd, World.dispatched_eq_iff hadd.log]
    intro b scopes time hm
    have hc := hadd.main b scopes time hm
    rw [hs'] at hc
    exact Work.not_hosts_settled _ hc
  obtain ⟨ha, hd, -⟩ := Machine.drain_induction keep time _ ⟨hm, rfl, rfl⟩
  exact ⟨ha.world, hd⟩

namespace Program

variable {c : Setting} {p : Program} {s : State} {σ : World}

theorem attributed_started (h : σ.Attributed) :
    (p.started c s σ).Attributed ∧ ∃ events, (p.started c s σ).world.log = σ.log ++ events ∧
      ∀ b scopes time, Event.dispatched b scopes time ∈ events → (p.started c s σ).main.Hosts b scopes := by
  obtain ⟨events, hl, hd, hn⟩ := (notes_cases c s).dispatch p [] σ
  have hs := scoped_started c p s h.regular
  refine ⟨⟨hs, h.quiet.append hl fun b scopes time hm => hs.opened_of_hosts (hd b scopes time hm), ?_⟩, events, hl, hd⟩
  have hlog : (p.started c s σ).world.log = σ.log ++ events := hl
  intro w hw b scopes hc
  rw [hlog]
  rcases List.mem_cons.mp hw with rfl | hw
  · obtain hf | ⟨time, hm⟩ := hn b scopes hc
    · exact hf.elim
    · exact ⟨time, List.mem_append_right _ hm⟩
  · rw [started, ((scopes_cases c s).dispatch p [] σ).2.detached] at hw
    obtain ⟨time, hm⟩ := h.logged w hw b scopes hc
    exact ⟨time, List.mem_append_left _ hm⟩

theorem attributed_transition (h : σ.Attributed) : (p.transition c s σ).2.Attributed :=
  (Machine.settle_induction (fun _ _ hm hs => hs.attributed hm) _ (attributed_started h).1).world

theorem attributed_drive (h : σ.Attributed) : (p.drive c s σ).world.Attributed :=
  drive_induction (P := fun _ σ => σ.Attributed) (fun _ _ h => h) (fun _ _ _ h => attributed_transition h)
    (fun _ _ _ _ _ h _ _ => attributed_transition h) s h

theorem attributed_run (c : Setting) (p : Program) (s : State) : (p.run c s).world.Attributed := by
  unfold run
  split
  · exact World.attributed_initial c
  · exact attributed_drive (World.attributed_initial c)

/-- The machines that the program comes by on its way, each with the world just before it. -/
inductive Visits (c : Setting) : Program → State → World → World → Machine → Prop
  | start {p : Program} {s : State} {σ : World} : p.isFinal s = .ok false → Visits c p s σ σ (p.started c s σ)
  | step {p : Program} {s : State} {σ before : World} {m m' : Machine} : Visits c p s σ before m →
      (∀ outcome, m.main ≠ .settled outcome) → m.step c = some m' → Visits c p s σ m.world m'
  | next {p q : Program} {s : State} {σ before : World} {t : Successor} {m : Machine} : p.isFinal s = .ok false →
      (p.transition c s σ).1 = .ok t → t.continuation = some q → Visits c q t.state (p.transition c s σ).2 before m →
      Visits c p s σ before m

theorem Visits.attributed {before : World} {m : Machine} (h : Visits c p s σ before m) (hσ : σ.Attributed) :
    m.Attributed ∧ ∃ events, m.world.log = before.log ++ events ∧
      ∀ b scopes time, Event.dispatched b scopes time ∈ events → m.main.Hosts b scopes := by
  induction h with
  | start _ => exact attributed_started hσ
  | step _ _ hs ih =>
    obtain ⟨hm, -⟩ := ih hσ
    have hst := Machine.steps_of_step hs
    obtain ⟨events, ha⟩ := hst.adds hm.toScoped
    exact ⟨hst.attributed hm, events, ha.log, ha.main⟩
  | next _ _ _ _ ih => exact ih (attributed_transition hσ)

theorem Visits.holds {α : Type} {a : Account α} {before : World} {m : Machine} (h : Visits c p s σ before m)
    (hσ : a.Holds σ 0) : a.Holds m.world (a.held m.main) := by
  induction h with
  | start _ => exact Account.holds_started hσ
  | step _ _ hs ih => exact Account.holds_steps (Machine.steps_of_step hs) (ih hσ)
  | next _ _ _ _ ih => exact ih (Account.holds_transition hσ)

theorem Visits.settle {before : World} {m : Machine} (h : Visits c p s σ before m) :
    ∃ before', Visits c p s σ before' (m.settle c) := by
  fun_induction Machine.settle c m generalizing before with
  | case1 => exact ⟨before, h⟩
  | case2 => exact ⟨before, h⟩
  | case3 m m' hs hm ih => exact ih (.step h hm hs)

/-- Once a construct is given up, nothing is dispatched any more from inside of it, neither during the run nor after it.
What starts there later was dispatched before that, and starts once. Every new dispatch is one of an execution that is
under way in what the run waits for, inside of just the constructs that the entry names, none of which is given up. And
whatever is executed anywhere was dispatched: what is under way in the work that is waited for, and what goes on by
itself, which always lies inside of a construct that was given up. -/
theorem nothing_dispatched_from_closed (c : Setting) (p : Program) (s : State) :
    (∀ time, ((p.run c s).world.drain c time).Quiet ∧ ((p.run c s).world.drain c time).Warranted ∧
      ((p.run c s).world.drain c time).dispatched = (p.run c s).world.dispatched) ∧
    ∀ before m, p.Visits c s c.initial before m → m.world.Quiet ∧ m.world.Warranted ∧
      (∃ events, m.world.log = before.log ++ events ∧
        ∀ b scopes time, Event.dispatched b scopes time ∈ events →
          m.main.Executes b scopes [] ∧ ∀ i ∈ scopes, m.world.isClosed i = false) ∧
      (∀ b scopes, m.main.Executes b scopes [] → ∃ time, Event.dispatched b scopes time ∈ m.world.log) ∧
      ∀ w ∈ m.world.detached, ∃ around, w.Inside around ∧ (∃ i ∈ around, m.world.isClosed i = true) ∧
        ∀ b scopes, w.Executes b scopes around → ∃ time, Event.dispatched b scopes time ∈ m.world.log := by
  constructor
  · intro time
    obtain ⟨ha, hd⟩ := (attributed_run c p s).drain c time
    exact ⟨ha.quiet, ha.quiet.warranted (Account.holds_drain (Account.starts.holds_run c p s) c time), hd⟩
  · intro before m hv
    obtain ⟨hm, events, hl, hd⟩ := Visits.attributed hv (World.attributed_initial c)
    refine ⟨hm.quiet, hm.quiet.warranted (hv.holds (Account.starts.holds_initial c)), ⟨events, hl, ?_⟩, ?_, ?_⟩
    · intro b scopes time he
      have hc := hd b scopes time he
      exact ⟨hc.executes hm.toScoped.inside, hm.toScoped.opened_of_hosts hc⟩
    · intro b scopes he
      exact hm.logged m.main List.mem_cons_self b scopes (he.hosts hm.toScoped.inside)
    · intro w hw
      obtain ⟨around, hi, i, hia, hic⟩ := hm.toScoped.sealed w hw
      refine ⟨around, hi, ⟨i, hia, (m.world.isClosed_iff i).mpr hic⟩, ?_⟩
      intro b scopes he
      exact hm.logged w (List.mem_cons_of_mem _ hw) b scopes (he.hosts hi)

theorem nothing_dispatched_from_closed_raceWithPlan :
    ∃ before m, raceWithPlan.Visits Setting.standard {} Setting.standard.initial before m ∧ m.world.isClosed 0 = true ∧
      m.world.detached.length = 1 ∧ m.world.Quiet ∧ m.world.Warranted ∧
      ∀ time, ((raceWithPlan.run Setting.standard {}).world.drain Setting.standard time).dispatched =
        (raceWithPlan.run Setting.standard {}).world.dispatched := by
  have hf : raceWithPlan.isFinal {} = .ok false := by cbv
  obtain ⟨before, hv⟩ := (Visits.start (c := Setting.standard) (σ := Setting.standard.initial) hf).settle
  obtain ⟨hd, hm⟩ := nothing_dispatched_from_closed Setting.standard raceWithPlan {}
  obtain ⟨hquiet, hwarranted, -⟩ := hm before _ hv
  refine ⟨before, _, hv, ?_, ?_, hquiet, hwarranted, fun time => (hd time).2.2⟩
  · cbv
  · cbv

/-- A race that its first branch decides at once, while the constructs in the next two ask for another look. -/
def lateRace : Program :=
  .control .either [.call "Identity" [("value", .const (.int 1))],
    .control .conc [.call "A" [("id", .const (.int 1))]],
    .control .conc [.call "A" [("id", .const (.int 2))]],
    .call "Put" [("value", .const (.int 9))]]

/-- The last branch was dispatched with the others, but it starts only after the race was given up. -/
theorem lateRace_starts_after_closed :
    ∃ earlier later, ((lateRace.run Setting.standard {}).world.drain Setting.standard 1).log =
        earlier ++ .closed 0 :: later ∧
      (later.filterMap (Event.startIn? 0)).map (·.1.record) = [⟨"Put", [("value", .int 9)]⟩] ∧
      later.filterMap Event.completed? = [(0, ⟨"Put", [("value", .int 9)]⟩)] := by
  refine ⟨_, _, (List.takeWhile_append_dropWhile (p := fun e => !e.closes 0)).symm.trans
    (congrArg _ (List.cons_head?_tail ?_).symm), ?_, ?_⟩
  · rw [run_of_validate _ _ rfl, drive_eq]
    cbv
  · rw [run_of_validate _ _ rfl, drive_eq]
    cbv
  · rw [run_of_validate _ _ rfl, drive_eq]
    cbv

end Program

end Agenda
