import Agenda.Transition.Offline

/-!
# Descent

Every transition leaves a smaller program behind, and the actions that it adds to a plan are calls that the program has
no longer. So planning comes to an end, and a plan has no more actions than the program has calls.
-/

namespace Agenda

set_option autoImplicit false

theorem Except.exists_of_bind_eq_ok {ε α β : Type} {x : Except ε α} {f : α → Except ε β} {b : β}
    (h : (x >>= f) = .ok b) : ∃ a, x = .ok a ∧ f a = .ok b := by
  cases x with
  | error e => cases h
  | ok a => exact ⟨a, rfl, h⟩

namespace Successor

/-- A successor that leaves room: something of the program is used up, and planned actions count as used calls. -/
structure Within (t : Successor) (size calls : Nat) : Prop where
  size : Program.sizeOption t.continuation + 2 ≤ size
  calls : t.planStep.length + Program.callsOption t.continuation ≤ calls

theorem Within.mono {t : Successor} {size calls size' calls' : Nat} (h : t.Within size calls)
    (hs : size ≤ size') (hc : calls ≤ calls') : t.Within size' calls' :=
  ⟨Nat.le_trans h.size hs, Nat.le_trans h.calls hc⟩

theorem within_finished (s : State) {size : Nat} (calls : Nat) (h : 2 ≤ size) : (finished s).Within size calls :=
  ⟨by simpa [finished, Program.sizeOption] using h, by simp [finished, Program.callsOption]⟩

theorem Within.before {t : Successor} {size calls : Nat} (h : t.Within size calls) (rest : List Program) :
    (t.before rest).Within (size + Program.sizes rest + 2) (calls + Program.callsOfAll rest) := by
  have hs := sizeOption_resequence t.continuation rest
  have hc := callsOption_resequence t.continuation rest
  have h1 := h.size
  have h2 := h.calls
  exact ⟨by simp only [Successor.before]; omega, by simp only [Successor.before]; omega⟩

theorem Within.bound {t : Successor} {size calls : Nat} (h : t.Within size calls) (var : String) :
    (t.bound var).Within (size + 2) calls := by
  obtain ⟨h1, h2⟩ := h
  unfold Successor.bound
  split
  · rename_i init hc
    rw [hc] at h1 h2
    exact ⟨by simpa [Program.sizeOption, Program.size] using h1,
      by simpa [Program.callsOption, Program.calls] using h2⟩
  · exact ⟨by simp only; omega, h2⟩

end Successor

namespace Program

mutual
theorem within_of_mem_successors (d : Domain) (s : State) :
    ∀ (p : Program) {ts : List Successor}, p.successors d s = .ok ts → ∀ t ∈ ts, t.Within p.size p.calls
  | .block statements, ts, h, t, ht => by
    simp only [successors] at h
    have := within_of_mem_blockSuccessors d s statements h t ht
    simpa only [size, calls] using this
  | .branch condition consequent none, ts, h, t, ht => by
    simp only [successors] at h
    obtain ⟨b, -, h⟩ := Except.exists_of_bind_eq_ok h
    cases b with
    | true =>
      refine (within_of_mem_successors d s consequent h t ht).mono ?_ ?_ <;> simp only [size, calls] <;> omega
    | false =>
      cases h
      obtain rfl := List.mem_singleton.mp ht
      exact Successor.within_finished s _ (two_le_size _)
  | .branch condition consequent (some alternate), ts, h, t, ht => by
    simp only [successors] at h
    obtain ⟨b, -, h⟩ := Except.exists_of_bind_eq_ok h
    cases b with
    | true =>
      refine (within_of_mem_successors d s consequent h t ht).mono ?_ ?_ <;> simp only [size, calls] <;> omega
    | false =>
      refine (within_of_mem_successors d s alternate h t ht).mono ?_ ?_ <;> simp only [size, calls] <;> omega
  | .test condition, ts, h, t, ht => by
    simp only [successors] at h
    obtain ⟨b, -, h⟩ := Except.exists_of_bind_eq_ok h
    cases b with
    | true =>
      cases h
      obtain rfl := List.mem_singleton.mp ht
      exact Successor.within_finished s _ (two_le_size _)
    | false =>
      cases h
      cases ht
  | .call name args, ts, h, t, ht => by
    simp only [successors] at h
    obtain ⟨bound, -, h⟩ := Except.exists_of_bind_eq_ok h
    split at h
    · cases h
      obtain rfl := List.mem_singleton.mp ht
      exact ⟨by simp [sizeOption, size], by simp [callsOption, calls]⟩
    · cases h
      cases ht
  | .bind var init, ts, h, t, ht => by
    simp only [successors] at h
    obtain ⟨us, hu, h⟩ := Except.exists_of_bind_eq_ok h
    cases h
    obtain ⟨u, hm, rfl⟩ := List.mem_map.mp ht
    simpa only [size, calls] using (within_of_mem_successors d s init hu u hm).bound var
  | .control .or branches, ts, h, t, ht => by
    simp only [successors] at h
    refine (within_of_mem_choiceSuccessors d s branches h t ht).mono ?_ ?_ <;> simp only [size, calls] <;> omega
  | .control .plan [body], ts, h, t, ht => by
    simp only [successors] at h
    refine (within_of_mem_successors d s body h t ht).mono ?_ ?_ <;>
      simp only [size, calls, sizes, callsOfAll] <;> omega
  | .control .plan [], ts, h, t, ht => by simp [successors] at h
  | .control .plan (_ :: _ :: _), ts, h, t, ht => by simp [successors] at h
  | .control .conc _, ts, h, t, ht => by simp [successors] at h
  | .control .either _, ts, h, t, ht => by simp [successors] at h
  | .done, ts, h, t, ht => by
    simp only [successors] at h
    cases h
    obtain rfl := List.mem_singleton.mp ht
    exact Successor.within_finished s _ (two_le_size _)
  | .blocked, ts, h, t, ht => by simp [successors] at h

theorem within_of_mem_blockSuccessors (d : Domain) (s : State) :
    ∀ (ps : List Program) {ts : List Successor}, blockSuccessors d s ps = .ok ts →
      ∀ t ∈ ts, t.Within (sizes ps + 2) (callsOfAll ps)
  | [], ts, h, t, ht => by
    simp only [blockSuccessors] at h
    cases h
    obtain rfl := List.mem_singleton.mp ht
    exact Successor.within_finished s _ (by simp)
  | p :: rest, ts, h, t, ht => by
    simp only [blockSuccessors] at h
    obtain ⟨b, -, h⟩ := Except.exists_of_bind_eq_ok h
    cases b with
    | true =>
      refine (within_of_mem_blockSuccessors d s rest h t ht).mono ?_ ?_ <;>
        simp only [sizes, callsOfAll] <;> omega
    | false =>
      obtain ⟨us, hu, h⟩ := Except.exists_of_bind_eq_ok h
      cases h
      obtain ⟨u, hm, rfl⟩ := List.mem_map.mp ht
      refine ((within_of_mem_successors d s p hu u hm).before rest).mono ?_ ?_ <;>
        simp only [sizes, callsOfAll] <;> omega

theorem within_of_mem_choiceSuccessors (d : Domain) (s : State) :
    ∀ (ps : List Program) {ts : List Successor}, choiceSuccessors d s ps = .ok ts →
      ∀ t ∈ ts, t.Within (sizes ps) (callsOfAll ps)
  | [], ts, h, t, ht => by
    simp only [choiceSuccessors] at h
    cases h
    cases ht
  | p :: rest, ts, h, t, ht => by
    simp only [choiceSuccessors] at h
    obtain ⟨us, hu, h⟩ := Except.exists_of_bind_eq_ok h
    obtain ⟨vs, hv, h⟩ := Except.exists_of_bind_eq_ok h
    cases h
    rcases List.mem_append.mp ht with hm | hm
    · refine (within_of_mem_successors d s p hu t hm).mono ?_ ?_ <;> simp only [sizes, callsOfAll] <;> omega
    · refine (within_of_mem_choiceSuccessors d s rest hv t hm).mono ?_ ?_ <;>
        simp only [sizes, callsOfAll] <;> omega
end

end Program

end Agenda
