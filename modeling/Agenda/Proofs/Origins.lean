import Mathlib
import Agenda.Proofs.Attribution

/-!
# Where constructs come from

Every construct that is under way somewhere in a run was dispatched as a part of the program, and has come to where it
is by moving and by being stirred. So what is shown of one construct alone, whatever moves around it, holds of all of
them at every point of every run.
-/

namespace Agenda

set_option autoImplicit false

namespace Program

variable {P Q : Program → Prop}

theorem Hereditary.enters (h : Hereditary P) {s : State} {p q : Program} (he : p.Enters s q) (hp : P p) : P q := by
  cases he with
  | consequent _ _ _ => exact h.consequent _ _ _ hp
  | alternate _ _ _ => exact h.alternate _ _ _ hp
  | first p rest => exact h.control _ _ hp q List.mem_cons_self

theorem Hereditary.and (hP : Hereditary P) (hQ : Hereditary Q) : Hereditary fun p => P p ∧ Q p where
  block ps := by
    rw [hP.block, hQ.block]
    exact forall₂_and.symm
  bind var init := by rw [hP.bind, hQ.bind]
  consequent _ _ _ h := ⟨hP.consequent _ _ _ h.1, hQ.consequent _ _ _ h.2⟩
  alternate _ _ _ h := ⟨hP.alternate _ _ _ h.1, hQ.alternate _ _ _ h.2⟩
  control _ _ h p hp := ⟨hP.control _ _ h.1 p hp, hQ.control _ _ h.2 p hp⟩

/-- What can remain of a valid program. A binding may then have an initialiser that is no call and no construct. -/
inductive Remnant : Program → Prop
  | valid {p : Program} : p.validate = .ok () → Remnant p
  | block {ps : List Program} : (∀ p ∈ ps, Remnant p) → Remnant (.block ps)
  | bind {init : Program} (var : String) : Remnant init → Remnant (.bind var init)

theorem forall_of_validateAll {ps : List Program} (h : validateAll ps = .ok ()) : ∀ p ∈ ps, p.validate = .ok () := by
  induction ps with
  | nil => exact List.forall_mem_nil _
  | cons p rest ih =>
    rw [validateAll] at h
    obtain ⟨_, hp, hr⟩ := Except.exists_of_bind_eq_ok h
    exact List.forall_mem_cons.mpr ⟨hp, ih hr⟩

theorem validateAll_of_forall {ps : List Program} (h : ∀ p ∈ ps, p.validate = .ok ()) : validateAll ps = .ok () := by
  induction ps with
  | nil => rfl
  | cons p rest ih =>
    obtain ⟨hp, hr⟩ := List.forall_mem_cons.mp h
    rw [validateAll, hp]
    exact ih hr

theorem validate_consequent {condition : Expr} {p : Program} {alternate : Option Program}
    (h : (branch condition p alternate).validate = .ok ()) : p.validate = .ok () := by
  cases alternate with
  | none => rwa [validate] at h
  | some q =>
    rw [validate] at h
    obtain ⟨_, hp, -⟩ := Except.exists_of_bind_eq_ok h
    exact hp

theorem validate_alternate {condition : Expr} {p q : Program}
    (h : (branch condition p (some q)).validate = .ok ()) : q.validate = .ok () := by
  rw [validate] at h
  obtain ⟨_, -, hq⟩ := Except.exists_of_bind_eq_ok h
  exact hq

theorem validate_control {kind : Control} {branches : List Program} (h : (control kind branches).validate = .ok ()) :
    checkArity kind branches.length = .ok () ∧ ∀ p ∈ branches, p.validate = .ok () := by
  rw [validate] at h
  obtain ⟨_, ha, hb⟩ := Except.exists_of_bind_eq_ok h
  exact ⟨ha, forall_of_validateAll hb⟩

theorem Remnant.validate_control {kind : Control} {branches : List Program} (h : Remnant (.control kind branches)) :
    (control kind branches).validate = .ok () := by
  cases h with
  | valid h => exact h

theorem not_remnant_blocked : ¬ Remnant .blocked := by
  rintro ⟨⟨⟩⟩

theorem hereditary_remnant : Hereditary Remnant where
  block ps := by
    constructor
    · intro h
      cases h with
      | valid h =>
        rw [validate] at h
        exact fun p hp => .valid (forall_of_validateAll h p hp)
      | block h => exact h
    · exact .block
  bind var init := by
    constructor
    · intro h
      cases h with
      | valid h =>
        rw [validate] at h
        obtain ⟨_, -, hi⟩ := Except.exists_of_bind_eq_ok h
        exact .valid hi
      | bind _ h => exact h
    · exact .bind var
  consequent _ _ _ h := by
    cases h with
    | valid h => exact .valid (validate_consequent h)
  alternate _ _ _ h := by
    cases h with
    | valid h => exact .valid (validate_alternate h)
  control _ _ h p hp := .valid ((Program.validate_control h.validate_control).2 p hp)

end Program

theorem Frame.isMark_residual {frames : List Frame} {p : Program} (h : residual frames = some p) :
    p.isMark = false := by
  -- the outermost frame is the one that was put around last
  rcases frames.eq_nil_or_concat with rfl | ⟨inner, f, rfl⟩
  · cases h
  · rw [List.concat_eq_append, residual_concat] at h
    cases f with
    | before rest =>
      rw [wrap] at h
      unfold Successor.resequence at h
      split at h <;> cases h <;> rfl
    | bind var =>
      obtain ⟨q, -, rfl⟩ := Option.map_eq_some_iff.mp h
      rfl

namespace Work

/-- The second work has come about from the first one by moves, in whatever worlds, and by stirring. -/
inductive Evolves (c : Setting) (w : Work) : Work → Prop
  | refl : Evolves c w w
  | move {v v' : Work} {σ τ : World} : Evolves c w v → Moves c v σ v' τ → Evolves c w v'
  | stir {v v' : Work} : Evolves c w v → Stirs v v' → Evolves c w v'

end Work

namespace Scheduler

/-- The construct was dispatched with these branches in the state, and has evolved since. -/
def Stems (c : Setting) (branches : List Program) (start : State) (s : Scheduler Work) : Prop :=
  ∃ scopes σ, Work.Evolves c ((Program.control s.kind branches).dispatch c start scopes σ).work (.group s)

/-- The construct stems from one that has the property, and so has all that it keeps for later. -/
structure Rooted (c : Setting) (P : Program → Prop) (s : Scheduler Work) : Prop where
  kind : s.kind = .conc ∨ s.kind = .either
  origin : ∃ branches start, P (.control s.kind branches) ∧ s.Stems c branches start
  slots : ∀ p ∈ s.slots, p.isMark = false → P p
  batch : ∀ d ∈ s.batch, ∀ f ∈ d.frames, f.Keeps P
  flights : ∀ fl ∈ s.flights, ∀ f ∈ fl.frames, f.Keeps P

theorem kind_foldBatch {s t : Scheduler Work} (h : s.foldBatch = .ok t) : t.kind = s.kind := by
  refine foldBatch_induction (P := fun u => u.kind = s.kind) ?_ rfl h
  intro u d v _ hu _ hv
  obtain ⟨o, next, -, -, rfl⟩ := complete_eq_ok hv
  exact hu

variable {c : Setting} {P : Program → Prop} {s t : Scheduler Work}

theorem Rooted.origin_of_evolves (h : s.Rooted c P) (hk : t.kind = s.kind)
    (he : ∀ w, Work.Evolves c w (.group s) → Work.Evolves c w (.group t)) :
    ∃ branches start, P (.control t.kind branches) ∧ t.Stems c branches start := by
  obtain ⟨branches, start, hb, scopes, σ, hs⟩ := h.origin
  refine ⟨branches, start, by rwa [hk], scopes, σ, ?_⟩
  rw [hk]
  exact he _ hs

theorem Rooted.slots_foldBatch (hP : Program.Hereditary P) (hs : s.Rooted c P) (h : s.foldBatch = .ok t) :
    ∀ p ∈ t.slots, p.isMark = false → P p := by
  refine foldBatch_induction (P := fun u => ∀ p ∈ u.slots, p.isMark = false → P p) ?_ hs.slots h
  intro u d v hd hu _ hv p hp hm
  obtain ⟨o, next, -, hn, rfl⟩ := complete_eq_ok hv
  rcases List.mem_or_eq_of_mem_set hp with hp | rfl
  · exact hu p hp hm
  · rcases nextSlot_cases hn with rfl | hr
    · cases hm
    · exact Frame.residual_of_keeps hP (hs.batch d hd) p hr

end Scheduler

namespace Work

inductive Rooted (c : Setting) (P : Program → Prop) : Work → Prop
  | plain {w : Work} : w.isPlain = true → Rooted c P w
  | group {s : Scheduler Work} : s.Rooted c P → (∀ f ∈ s.flights, Rooted c P f.work) → Rooted c P (.group s)

variable {c : Setting} {P : Program → Prop} {w w' : Work} {σ τ : World}

theorem Rooted.inv {s : Scheduler Work} (h : Rooted c P (.group s)) :
    s.Rooted c P ∧ ∀ f ∈ s.flights, f.work.Rooted c P := by
  cases h with
  | plain h => cases h
  | group hs hf => exact ⟨hs, hf⟩

theorem Stirs.rooted (h : Stirs w w') (hw : w.Rooted c P) : w'.Rooted c P := by
  induction h with
  | settled outcome => exact hw
  | acting e timer postponed _ => exact .plain rfl
  | group fs he hp hst ih =>
    obtain ⟨hs, hf⟩ := hw.inv
    refine .group ⟨hs.kind, hs.origin_of_evolves rfl fun _ h => h.stir (.group fs he hp hst), hs.slots, hs.batch, ?_⟩ ?_
    · intro f hm
      obtain ⟨x, -, h₀, rfl⟩ := exists_of_mem_stirred he hp hm
      exact hs.flights x.1 h₀
    · intro f hm
      obtain ⟨x, hx, h₀, rfl⟩ := exists_of_mem_stirred he hp hm
      exact ih x hx (hf x.1 h₀)

end Work

structure Launch.Rooted (c : Setting) (P : Program → Prop) (l : Launch) : Prop where
  work : l.work.Rooted c P
  frames : ∀ f ∈ l.frames, f.Keeps P

theorem Launch.Rooted.within {c : Setting} {P : Program → Prop} {l : Launch} (h : l.Rooted c P) {frame : Frame}
    (hf : frame.Keeps P) : (l.within frame).Rooted c P := by
  refine ⟨h.work, ?_⟩
  intro f hm
  rcases List.mem_append.mp hm with hm | hm
  · exact h.frames f hm
  · obtain rfl := List.mem_singleton.mp hm
    exact hf

theorem Program.rooted_cases {P : Program → Prop} (hP : Hereditary P) (c : Setting) (s : State) :
    DispatchCases c s (fun p _ _ l => P p → l.Rooted c P)
      (fun ps _ _ _ _ _ r => (∀ p ∈ ps, p.isMark = false → P p) → (∀ p ∈ r.slots, p.isMark = true) ∧
        ∀ f ∈ r.flights, f.work.Rooted c P ∧ ∀ g ∈ f.frames, g.Keeps P) where
  failed _ _ _ _ _ _ := ⟨.plain rfl, List.forall_mem_nil _⟩
  finished _ _ _ _ _ := ⟨.plain rfl, List.forall_mem_nil _⟩
  call _ _ scopes σ bound _ _ := ⟨.plain (Work.isPlain_perform scopes [] [] s bound σ), List.forall_mem_nil _⟩
  plan _ _ scopes σ plan _ _ := ⟨.plain (Work.isPlain_performAll scopes s σ plan.trace), List.forall_mem_nil _⟩
  enter _ _ _ _ _ he h hp := h (hP.enters he hp)
  skip _ rest _ _ _ _ h hp := by
    rw [hP.block, List.forall_mem_cons] at hp
    exact h ((hP.block rest).mpr hp.2)
  before _ _ _ _ _ _ h hp := by
    rw [hP.block, List.forall_mem_cons] at hp
    exact (h hp.1).within hp.2
  bind var init _ _ _ h hp := (h ((hP.bind var init).mp hp)).within trivial
  decided kind branches scopes σ hk _ _ he hp := by
    refine ⟨.group ⟨hk, ⟨branches, s, hp, scopes, σ, ?_⟩, ?_, List.forall_mem_nil _, List.forall_mem_nil _⟩
      (List.forall_mem_nil _), List.forall_mem_nil _⟩
    · rw [he]
      exact .refl
    · intro p hm hn
      obtain ⟨q, hq, rfl⟩ := List.mem_map.mp hm
      split at hn
      · cases hn
      · rename_i hf
        rw [if_neg hf]
        exact hP.control kind branches hp q hq
  group kind branches scopes σ r hk _ _ he h hp := by
    obtain ⟨hs, hf⟩ := h fun q hq _ => hP.control kind branches hp q hq
    refine ⟨.group ⟨hk, ⟨branches, s, hp, scopes, σ, ?_⟩, ?_, List.forall_mem_nil _, ?_⟩ ?_, List.forall_mem_nil _⟩
    · rw [he]
      exact .refl
    · intro p hm hn
      rw [hs p hm] at hn
      cases hn
    · intro f hm
      exact (hf f (by simpa [Scheduler.flights] using hm)).2
    · intro f hm
      exact (hf f (by simpa [Scheduler.flights] using hm)).1
  nil _ _ _ _ _ _ := ⟨List.forall_mem_nil _, List.forall_mem_nil _⟩
  done _ _ _ _ _ _ _ _ _ h hp := by
    obtain ⟨hs, hf⟩ := h (List.forall_mem_cons.mp hp).2
    exact ⟨List.forall_mem_cons.mpr ⟨rfl, hs⟩, hf⟩
  mark _ _ _ _ _ _ _ _ _ hm h hp := by
    obtain ⟨hs, hf⟩ := h (List.forall_mem_cons.mp hp).2
    exact ⟨List.forall_mem_cons.mpr ⟨hm, hs⟩, hf⟩
  start _ _ _ _ _ _ _ _ _ _ hm hl h hp := by
    obtain ⟨hp, hr⟩ := List.forall_mem_cons.mp hp
    obtain ⟨hs, hf⟩ := h hr
    have hl := hl (hp hm)
    exact ⟨List.forall_mem_cons.mpr ⟨rfl, hs⟩, List.forall_mem_cons.mpr ⟨⟨hl.work, hl.frames⟩, hf⟩⟩

namespace Work

variable {c : Setting} {P : Program → Prop} {w w' : Work} {σ τ : World}

theorem Moves.rooted (hP : Program.Hereditary P) (h : Moves c w σ w' τ) (hw : w.Rooted c P) : w'.Rooted c P := by
  induction h with
  | act h => exact .plain (Execution.isPlain_advance h)
  | finish _ _ => exact .plain rfl
  | starve _ _ _ => exact .plain rfl
  | rest _ _ _ => exact (stirs_look _ _).rooted hw
  | fail _ _ _ => exact .plain rfl
  | decide _ _ _ _ => exact .plain rfl
  | @go s t σ _ hs hb ht hf =>
    obtain ⟨hr, hfl⟩ := hw.inv
    obtain ⟨he, hb'⟩ := Scheduler.flights_foldBatch ht
    have hk := Scheduler.kind_foldBatch ht
    obtain ⟨hm, hn⟩ := (Program.rooted_cases hP c t.state).round t.slots (t.scope :: t.outer) (fun _ => false) 0
      t.nextSeq σ (hr.slots_foldBatch hP ht)
    refine .group ⟨?_, hr.origin_of_evolves hk fun _ h => h.move (.go hs hb ht hf), ?_, ?_, ?_⟩ ?_
    · simp only [hk]
      exact hr.kind
    · intro p hp hx
      rw [hm p hp] at hx
      cases hx
    · simp only [hb']
      exact List.forall_mem_nil _
    · intro f hx
      rcases Scheduler.mem_flights_dispatchLive hx with hx | hx
      · exact hr.flights f (he ▸ hx)
      · exact (hn f hx).2
    · intro f hx
      rcases Scheduler.mem_flights_dispatchLive hx with hx | hx
      · exact hfl f (he ▸ hx)
      · exact (hn f hx).1
  | @follow s f rest σ τ w hs hm ih =>
    obtain ⟨hr, hfl⟩ := hw.inv
    have h₀ := hs.mem_flights
    refine .group ⟨hr.kind, hr.origin_of_evolves rfl fun _ h => h.move (.follow hs hm), hr.slots, hr.batch, ?_⟩ ?_
    · intro g hg
      rcases hs.mem_flights_follow hg with rfl | hg
      · exact hr.flights f h₀
      · exact hr.flights g hg
    · intro g hg
      rcases hs.mem_flights_follow hg with rfl | hg
      · exact ih (hfl f h₀)
      · exact hfl g hg
  | @receive s f rest σ hs hst =>
    obtain ⟨outcome, -, he⟩ | hsw := receive_cases hs.queue
    · obtain ⟨hr, hfl⟩ := hw.inv
      have hm : Moves c (.group s) σ (.group (s.receive f rest)) σ := .receive hs hst
      rw [he] at hm ⊢
      refine .group ⟨hr.kind, hr.origin_of_evolves rfl fun _ h => h.move hm, hr.slots, ?_, ?_⟩ ?_
      · intro d hd
        rcases List.mem_append.mp hd with hd | hd
        · exact hr.batch d hd
        · obtain rfl := List.mem_singleton.mp hd
          exact hr.flights f hs.mem_flights
      · exact fun g hg => hr.flights g (hs.mem_flights_of_mem_rest hg)
      · exact fun g hg => hfl g (hs.mem_flights_of_mem_rest hg)
    · exact hsw.rooted hw

/-- What holds of a work, whatever it does, and of all that is under way in it. -/
structure Lasting (c : Setting) (Q : Work → Prop) : Prop where
  move : ∀ {w w' : Work} {σ τ : World}, Moves c w σ w' τ → Q w → Q w'
  stir : ∀ {w w' : Work}, Stirs w w' → Q w → Q w'
  flight : ∀ {s : Scheduler Work} {f : Flight Work}, Q (.group s) → f ∈ s.flights → Q f.work

theorem lasting_rooted (hP : Program.Hereditary P) (c : Setting) : Lasting c (Rooted c P) where
  move h hw := h.rooted hP hw
  stir h hw := h.rooted hw
  flight hw hf := hw.inv.2 _ hf

section

variable {Q : Work → Prop}

theorem Lasting.abandon (h : Lasting c Q) {s t : Scheduler Work} (hs : Q (.group s)) (ht : t.flights = s.flights)
    (hσ : ∀ d ∈ σ.detached, Q d) : ∀ d ∈ (σ.abandon t.scope t.works).detached, Q d := by
  intro d hd
  rcases List.mem_append.mp hd with hd | hd
  · exact hσ d hd
  · obtain ⟨w, hw, rfl⟩ := List.mem_map.mp hd
    obtain ⟨f, hf, rfl⟩ := List.mem_map.mp hw
    exact h.stir (stirs_takeUp f.work) (h.flight hs (ht ▸ hf))

theorem Lasting.detached (h : Lasting c Q) (hm : Moves c w σ w' τ) (hw : Q w) (hσ : ∀ d ∈ σ.detached, Q d) :
    ∀ d ∈ τ.detached, Q d := by
  induction hm with
  | act hm =>
    rw [(Execution.enlarges_advance hm).2.detached]
    exact hσ
  | finish _ _ => exact h.abandon hw rfl hσ
  | starve _ _ _ => exact hσ
  | rest _ _ _ => exact hσ
  | fail _ _ _ => exact h.abandon hw rfl hσ
  | decide _ _ ht _ => exact h.abandon hw (Scheduler.flights_foldBatch ht).1 hσ
  | @go s t σ _ _ _ _ _ =>
    have hd := ((Program.steady_cases c t.state).round t.slots (t.scope :: t.outer) (fun _ => false) 0 t.nextSeq
      σ).detached
    rw [Scheduler.dispatchLive]
    simp only [hd]
    exact hσ
  | follow hs _ ih => exact ih (h.flight hw hs.mem_flights) hσ
  | receive _ _ => exact hσ

end

/-- The construct is the work itself or under way in it, at any depth. -/
inductive Contains (s : Scheduler Work) : Work → Prop
  | here : Contains s (.group s)
  | flight {t : Scheduler Work} {f : Flight Work} : f ∈ t.flights → Contains s f.work → Contains s (.group t)

theorem Rooted.contains {s : Scheduler Work} (hw : w.Rooted c P) (h : w.Contains s) : s.Rooted c P := by
  induction h with
  | here => exact hw.inv.1
  | flight hf _ ih => exact ih (hw.inv.2 _ hf)

end Work

theorem Machine.Steps.lasting {c : Setting} {Q : Work → Prop} (hQ : Work.Lasting c Q) {m m' : Machine}
    (h : Steps c m m') (hm : ∀ w ∈ m.works, Q w) : ∀ w ∈ m'.works, Q w := by
  obtain ⟨hw, hd⟩ := List.forall_mem_cons.mp hm
  cases h with
  | move h => exact List.forall_mem_cons.mpr ⟨hQ.move h hw, hQ.detached h hw hd⟩
  | takeUp _ _ => exact List.forall_mem_cons.mpr ⟨hQ.stir (Work.stirs_takeUp _) hw, hd⟩
  | wake _ _ _ => exact List.forall_mem_cons.mpr ⟨hQ.stir (Work.stirs_wake _) hw, hd⟩
  | @detached front rest w w' τ _ he hv =>
    rw [he, List.forall_mem_append, List.forall_mem_cons] at hd
    obtain ⟨hfront, h₀, hrest⟩ := hd
    -- it moves in a world of its own, in which nothing else goes on by itself
    obtain ⟨hw', hτ⟩ : Q w' ∧ ∀ d ∈ τ.detached, Q d := by
      obtain hmv | ⟨-, -, rfl, rfl⟩ := Work.move_cases hv
      · exact ⟨hQ.move hmv h₀, hQ.detached hmv h₀ (List.forall_mem_nil _)⟩
      · exact ⟨hQ.stir (Work.stirs_wake w) h₀, List.forall_mem_nil _⟩
    refine List.forall_mem_cons.mpr ⟨hw, List.forall_mem_append.mpr ⟨?_, hτ⟩⟩
    exact List.forall_mem_append.mpr ⟨hfront, List.forall_mem_cons.mpr ⟨hw', hrest⟩⟩
  | @ring time _ _ =>
    refine List.forall_mem_cons.mpr ⟨hQ.stir (Work.stirs_ring _ time) hw, ?_⟩
    intro d hd'
    obtain ⟨v, hv, rfl⟩ := List.mem_map.mp hd'
    exact hQ.stir (Work.stirs_ring v time) (hd v hv)

namespace Program

variable {c : Setting} {P : Program → Prop} {Q : Work → Prop} {p : Program} {s : State} {σ : World}

theorem lasting_started (hl : Q (p.dispatch c s [] σ).work) (hσ : ∀ d ∈ σ.detached, Q d) :
    ∀ w ∈ (p.started c s σ).works, Q w := by
  refine List.forall_mem_cons.mpr ⟨hl, ?_⟩
  rw [started, ((steady_cases c s).dispatch p [] σ).detached]
  exact hσ

theorem lasting_transition (hQ : Work.Lasting c Q) (hl : Q (p.dispatch c s [] σ).work)
    (hσ : ∀ d ∈ σ.detached, Q d) : ∀ d ∈ (p.transition c s σ).2.detached, Q d := by
  have hm := Machine.settle_induction (P := fun m => ∀ w ∈ m.works, Q w) (fun _ _ hm hs => hs.lasting hQ hm) _
    (lasting_started hl hσ)
  exact (List.forall_mem_cons.mp hm).2

theorem Hereditary.transition (hP : Hereditary P) (hp : P p) {t : Successor} {q : Program}
    (ht : (p.transition c s σ).1 = .ok t) (hq : t.continuation = some q) : P q := by
  obtain ⟨o, -, rfl⟩ := transition_eq_ok ht
  rw [Frame.continuation_resume] at hq
  exact Frame.residual_of_keeps hP ((rooted_cases hP c s).dispatch p [] σ hp).frames q hq

/-- What holds of all that is launched from programs with the property holds of all that is under way when they run. -/
theorem Visits.lasting (hP : Hereditary P) (hQ : Work.Lasting c Q)
    (hl : ∀ p s σ, P p → Q (p.dispatch c s [] σ).work) {before : World} {m : Machine}
    (h : Visits c p s σ before m) (hp : P p) (hσ : ∀ d ∈ σ.detached, Q d) : ∀ w ∈ m.works, Q w := by
  induction h with
  | start _ => exact lasting_started (hl _ _ _ hp) hσ
  | step _ _ hs ih => exact (Machine.steps_of_step hs).lasting hQ (ih hp hσ)
  | next _ ht hc _ ih => exact ih (hP.transition hp ht hc) (lasting_transition hQ (hl _ _ _ hp) hσ)

theorem Visits.rooted (hP : Hereditary P) {before : World} {m : Machine} (h : Visits c p s c.initial before m)
    (hp : P p) : ∀ w ∈ m.works, w.Rooted c P :=
  h.lasting hP (Work.lasting_rooted hP c) (fun p s σ hp => ((rooted_cases hP c s).dispatch p [] σ hp).work) hp
    (List.forall_mem_nil _)

end Program

end Agenda
