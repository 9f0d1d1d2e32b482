import Mathlib
import Agenda.Domain.Standard
import Agenda.Proofs.CallCount

/-!
# No effect is lost or doubled

A run without races that succeeds changes the state by the effect of every action that it dispatched, once each, and by
bindings. So a fact that is counted up by several actions side by side ends up higher by their number.
-/

namespace Agenda

set_option autoImplicit false

theorem evalArgs_get? {s : State} {args : Fields Expr} {values : Fields Value} (h : evalArgs s args = .ok values)
    (key : String) :
    (args.get? key = none ∧ values.get? key = none) ∨
      ∃ e v, args.get? key = some e ∧ e.eval s = .ok v ∧ values.get? key = some v := by
  induction args generalizing values with
  | nil =>
    cases h
    exact .inl ⟨rfl, rfl⟩
  | cons entry rest ih =>
    obtain ⟨name, e⟩ := entry
    rw [evalArgs] at h
    obtain ⟨v, hv, h⟩ := Except.exists_of_bind_eq_ok h
    obtain ⟨vs, hvs, h⟩ := Except.exists_of_bind_eq_ok h
    cases h
    rw [Fields.get?_cons, Fields.get?_cons]
    by_cases hk : name = key
    · rw [if_pos hk, if_pos hk]
      refine .inr ⟨e, v, rfl, ?_, rfl⟩
      cases he : e.eval s with
      | error failure =>
        rw [he] at hv
        cases hv
      | ok value =>
        rw [he] at hv
        cases hv
        rfl
    · rw [if_neg hk, if_neg hk]
      exact ih hvs

theorem Domain.resolve_eq_ok {d : Domain} {s : State} {name : String} {args : Fields Expr} {b : BoundAction}
    (h : d.resolve s name args = .ok b) :
    ∃ values build, evalArgs s args = .ok values ∧ d.builders.get? name = some build ∧ build values = .ok b.action ∧
      b.record = ⟨name, values⟩ := by
  unfold resolve at h
  obtain ⟨values, hv, h⟩ := Except.exists_of_bind_eq_ok h
  unfold instantiate at h
  split at h
  · cases h
  · rename_i build hb
    cases ha : build values with
    | error e =>
      rw [ha] at h
      cases h
    | ok action =>
      rw [ha] at h
      cases h
      exact ⟨values, build, hv, hb, ha, rfl⟩

def BoundAction.counts (key : String) (b : BoundAction) : Bool :=
  b.record.name == "Inc" && Domain.factKey "count" b.record.args == key

theorem Domain.effect_of_counts {d : Domain} {v : Vocabulary} {b : BoundAction} {key : String}
    (hd : d.builders.get? "Inc" = some Domain.inc) (hb : d.Offers v b) (hc : b.counts key = true) (s : State) :
    b.action.effect s = s.withFact key (successor (s.fact? key)) := by
  obtain ⟨u, name, args, -, hr⟩ := hb
  obtain ⟨values, build, -, hg, ha, he⟩ := resolve_eq_ok hr
  rw [BoundAction.counts, he, Bool.and_eq_true, beq_iff_eq, beq_iff_eq] at hc
  obtain ⟨rfl, rfl⟩ := hc
  rw [hd] at hg
  cases hg
  rw [← Except.ok.inj ha]
  rfl

/-- A fact is as much higher as there are effects that count it up, if no other effect touches it. -/
theorem Update.fact?_applyAll {key : String} {updates : List Update} {s : State} {n : Int64}
    (hc : ∀ b ∈ effects updates, b.counts key = true → ∀ u : State,
      b.action.effect u = u.withFact key (Domain.successor (u.fact? key)))
    (ho : ∀ b ∈ effects updates, b.counts key = false → ∀ u : State, (b.action.effect u).fact? key = u.fact? key)
    (hs : s.fact? key = some (.int n)) :
    (applyAll s updates).fact? key = some (.int (n + Int64.ofNat ((effects updates).countP (·.counts key)))) := by
  induction updates generalizing s n with
  | nil =>
    rw [applyAll, List.foldl_nil, hs]
    simp [effects]
  | cons update rest ih =>
    cases update with
    | bind var value =>
      have hr : (Update.apply s (.bind var value)).fact? key = some (.int n) := hs
      exact ih hc ho hr
    | effect b =>
      have hrest {m : Int64} (hm : (b.action.effect s).fact? key = some (.int m)) :=
        ih (fun a ha => hc a (List.mem_cons_of_mem b ha)) (fun a ha => ho a (List.mem_cons_of_mem b ha)) hm
      have he : effects (.effect b :: rest) = b :: effects rest := rfl
      cases hb : b.counts key with
      | true =>
        have hn : (b.action.effect s).fact? key = some (.int (n + 1)) := by
          rw [hc b List.mem_cons_self hb s, hs, State.fact?, State.withFact, Fields.get?_insert_self]
          rfl
        refine (hrest hn).trans ?_
        rw [he, List.countP_cons_of_pos hb, Nat.add_comm, Int64.ofNat_add, ← Int64.add_assoc]
        rfl
      | false =>
        have hn : (b.action.effect s).fact? key = some (.int n) := by rw [ho b List.mem_cons_self hb s, hs]
        refine (hrest hn).trans ?_
        rw [he, List.countP_cons_of_neg (by rw [hb]; exact Bool.false_ne_true)]

/-- Calls that count one fact up, whatever their latencies, in blocks, in bindings and side by side. -/
def Vocabulary.counting (key : String) : Vocabulary where
  call name args := name == "Inc" &&
    match args.get? "key" with
    | some (.const (.text k)) => k == key
    | some _ => false
    | none => key == "count"
  control kind := kind == .conc
  branch := false
  test := false

namespace Vocabulary

theorem unconditional_counting (key : String) : (counting key).Unconditional :=
  ⟨fun _ h => eq_of_beq h, rfl, rfl⟩

theorem counts_of_counting {key : String} {d : Domain} {b : BoundAction} (h : d.Offers (counting key) b) :
    b.counts key = true := by
  obtain ⟨s, name, args, hc, hr⟩ := h
  obtain ⟨values, build, hv, -, -, he⟩ := Domain.resolve_eq_ok hr
  rw [counting, Bool.and_eq_true, beq_iff_eq] at hc
  obtain ⟨rfl, hc⟩ := hc
  rw [BoundAction.counts, he, Bool.and_eq_true]
  refine ⟨rfl, ?_⟩
  unfold Domain.factKey
  obtain ⟨ha, hg⟩ | ⟨e, v, ha, hx, hg⟩ := evalArgs_get? hv "key"
  · rw [ha] at hc
    rw [hg]
    exact beq_iff_eq.mpr (eq_of_beq hc).symm
  · rw [ha] at hc
    rw [hg]
    split at hc
    · rename_i k hk
      cases hk
      cases hx
      exact hc
    · cases hc
    · rename_i hn
      cases hn

end Vocabulary

namespace Program

theorem run_eq_ok {c : Setting} {p : Program} {s s' : State} (h : (p.run c s).result = .ok s') :
    p.run c s = p.drive c s c.initial := by
  unfold run at h ⊢
  split at h
  · cases h
  · rfl

/-- A run without races that succeeds: its final state comes from the given one by the effects of the actions that were
dispatched, once each, and by bindings. The history is made of their records, and a fact is raised by the number of
actions that count it up. -/
theorem effects_counted_once {c : Setting} {p : Program} {s s' : State}
    (hp : p.keepsTo (.without [.either]) = true) (h : (p.run c s).result = .ok s') :
    (∃ updates, Update.applyAll s updates = s' ∧
      (Update.effects updates).Perm (p.run c s).world.dispatched ∧
      (p.run c s).history.Perm (((Update.effects updates).filter (·.action.recorded)).map (·.record))) ∧
    ∀ key n, c.domain.builders.get? "Inc" = some Domain.inc → s.fact? key = some (.int n) →
      ((∀ b ∈ (p.run c s).world.dispatched, b.counts key = false → ∀ u, (b.action.effect u).fact? key = u.fact? key) →
        s'.fact? key = some (.int (n + Int64.ofNat ((p.run c s).world.dispatched.countP (·.counts key))))) ∧
      (p.keepsTo (.counting key) = true → s'.fact? key = some (.int (n + Int64.ofNat p.calls))) := by
  have hr := run_eq_ok h
  rw [hr] at h ⊢
  obtain ⟨updates, hu, hk, ha⟩ := effects_drive (v := .without [.either]) rfl hp (World.keepsTo_initial c _) rfl h
  have hperm : (Update.effects updates).Perm (p.drive c s c.initial).world.dispatched := by
    rw [← Multiset.coe_eq_coe, ha]
    exact (zero_add _).symm
  refine ⟨⟨updates, hu, hperm, ?_⟩, ?_⟩
  · rw [Run.history, World.history_eq]
    exact ((hperm.filter _).map _).symm
  · intro key n hi hs
    have raised (ho : ∀ b ∈ (p.drive c s c.initial).world.dispatched, b.counts key = false →
        ∀ u, (b.action.effect u).fact? key = u.fact? key) :
        s'.fact? key = some (.int
            (n + Int64.ofNat ((p.drive c s c.initial).world.dispatched.countP (·.counts key)))) := by
      rw [← hu, ← hperm.countP_eq]
      refine Update.fact?_applyAll ?_ ?_ hs
      · intro b hb hc
        exact Domain.effect_of_counts hi (hk.dispatched b (hperm.mem_iff.mp hb)) hc
      · intro b hb
        exact ho b (hperm.mem_iff.mp hb)
    refine ⟨raised, ?_⟩
    intro hq
    have hv := Vocabulary.unconditional_counting key
    have h₀ := World.keepsTo_initial c (.counting key)
    obtain ⟨-, -, hk, -⟩ := effects_drive hv.no_race hq h₀ rfl h
    have hl := length_dispatched_drive hv hq h₀ rfl h
    have hall : ∀ b ∈ (p.drive c s c.initial).world.dispatched, b.counts key = true := by
      intro b hb
      exact Vocabulary.counts_of_counting (hk.dispatched b hb)
    have hr := raised fun b hb hc => absurd (hall b hb) (by rw [hc]; exact Bool.false_ne_true)
    rwa [List.countP_eq_length.mpr hall, hl, World.dispatched_initial, List.length_nil, Nat.zero_add] at hr

def nestedCounts : Program :=
  .control .conc
    [.call "Inc" [("key", .const (.text "n")), ("ms", .const (.int 5))],
      .block [.bind "x" (.control .conc
          [.call "Inc" [("key", .const (.text "n"))],
            .call "Inc" [("key", .const (.text "n")), ("ms", .const (.int 5)), ("silent", .const (.bool true))]]),
        .call "Inc" [("key", .const (.text "n")), ("ms", .const (.int 2))]],
      .call "Inc" [("key", .const (.text "n")), ("ms", .const (.int 7))]]

theorem effects_counted_once_nestedCounts :
    ∃ s', (nestedCounts.run Setting.standard
        { facts := [("n", .int 9223372036854775804)] }).result = .ok s' ∧
      nestedCounts.calls = 5 ∧ s'.fact? "n" = some (.int (-9223372036854775807)) := by
  have hs : (nestedCounts.run Setting.standard
      { facts := [("n", .int 9223372036854775804)] }).result.toOption.isSome = true := by
    have hv : nestedCounts.validate = .ok () := rfl
    rw [run, hv]
    simp only
    rw [drive_eq]
    cbv
  cases h : (nestedCounts.run Setting.standard
      { facts := [("n", .int 9223372036854775804)] }).result with
  | error e =>
    rw [h] at hs
    cases hs
  | ok s' =>
    obtain ⟨-, hc⟩ := effects_counted_once (by rfl) h
    exact ⟨s', rfl, rfl, (hc "n" 9223372036854775804 rfl rfl).2 (by rfl)⟩

end Program

end Agenda
