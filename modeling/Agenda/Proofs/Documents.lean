import Mathlib
import Agenda.Json.Parser
import Agenda.Json.Printer

/-!
# Written documents read back

A written document is cut into the tokens that it was put together from, because no word stands next to another one, and
these tokens build up the document again. The one thing that has to be assumed is that the text of each floating-point
number in it is read as this number. Integers, texts and everything else need no assumption.
-/

namespace Agenda

set_option autoImplicit false

/-! ### Numerals -/

namespace Numeral

theorem spanDigits_of_digits {ds : List Char} (h : ∀ c ∈ ds, c.isDigit = true) : spanDigits ds = (ds, []) := by
  rw [spanDigits, List.takeWhile_eq_self_iff.mpr h, List.dropWhile_eq_nil_iff.mpr h]

theorem wholeAllowed_cons_iff (c : Char) (rest : List Char) :
    wholeAllowed (c :: rest) = true ↔ c ≠ '0' ∨ rest = [] := by
  by_cases hc : c = '0'
  · subst hc
    cases rest <;> simp [wholeAllowed]
  · simp [wholeAllowed, hc]

theorem wholeAllowed_toDigits (m : Nat) : wholeAllowed (Nat.toDigits 10 m) = true := by
  induction m using Nat.strongRecOn with
  | ind m ih =>
    rcases Nat.lt_or_ge m 10 with h | h
    · rw [Nat.toDigits_of_lt_base h]
      exact (wholeAllowed_cons_iff _ _).mpr (.inr rfl)
    · rw [Nat.toDigits_of_base_le (by omega) h]
      have hd := ih (m / 10) (by omega)
      have hv := Nat.ofDigitChars_ten_toDigits (n := m / 10)
      obtain ⟨c, rest, he⟩ := List.exists_cons_of_ne_nil (Nat.toDigits_ne_nil (n := m / 10) (b := 10))
      rw [he] at hd hv ⊢
      refine (wholeAllowed_cons_iff _ _).mpr (.inl ?_)
      rcases (wholeAllowed_cons_iff _ _).mp hd with hc | rfl
      · exact hc
      · -- a single zero would stand for zero, but there are digits after it
        rintro rfl
        have hz : Nat.ofDigitChars 10 ['0'] 0 = 0 := rfl
        omega

theorem le_ofDigitChars (ds : List Char) (n : Nat) : n ≤ Nat.ofDigitChars 10 ds n := by
  induction ds generalizing n with
  | nil => exact Nat.le_refl n
  | cons c rest ih =>
    rw [Nat.ofDigitChars_cons]
    have hr := ih (10 * n + (c.toNat - '0'.toNat))
    omega

theorem accumulate_of_lt {ds : List Char} {n : Nat} (h : Nat.ofDigitChars 10 ds n < UInt64.size) :
    accumulate n ds = (Nat.ofDigitChars 10 ds n, []) := by
  induction ds generalizing n with
  | nil => rfl
  | cons c rest ih =>
    rw [Nat.ofDigitChars_cons, Nat.mul_comm 10 n] at h ⊢
    have hl := le_ofDigitChars rest (n * 10 + (c.toNat - '0'.toNat))
    simp only [accumulate]
    rw [if_pos (by omega)]
    exact ih h

theorem parse_toDigits (m : Nat) :
    parse (Nat.toDigits 10 m) = some ⟨false, Nat.toDigits 10 m, none, none⟩ ∧
      parse ('-' :: Nat.toDigits 10 m) = some ⟨true, Nat.toDigits 10 m, none, none⟩ := by
  have hd : ∀ c ∈ Nat.toDigits 10 m, c.isDigit = true := fun c hc =>
    Nat.isDigit_of_mem_toDigits (by omega) (by omega) hc
  have hs := spanDigits_of_digits hd
  have hw := wholeAllowed_toDigits m
  constructor
  · unfold parse
    split
    rename_i negative body hm
    split at hm
    · rename_i rest he
      have hc := hd '-' (he ▸ List.mem_cons_self)
      exact absurd hc (by decide)
    · cases hm
      simp only [hs, hw, if_true, parseTail, Option.map_some]
  · simp only [parse, hs, hw, if_true, parseTail, Option.map_some]

theorem isWordChar_of_isDigit {c : Char} (h : c.isDigit = true) : Json.isWordChar c = true := by
  simp [Json.isWordChar, Char.isAlphanum, h]

theorem forall_mem_of_parseExponent {cs : List Char} {e : Int} (h : parseExponent cs = some e) :
    ∀ c ∈ cs, Json.isWordChar c = true := by
  have digits {ds : List Char} (hd : ¬(ds.isEmpty || !ds.all Char.isDigit) = true) :
      ∀ c ∈ ds, Json.isWordChar c = true := by
    rw [Bool.not_eq_true, Bool.or_eq_false_iff, Bool.not_eq_false', List.all_eq_true] at hd
    exact fun c hc => isWordChar_of_isDigit (hd.2 c hc)
  unfold parseExponent at h
  split at h
  rename_i negative ds hs
  split at h
  · cases h
  · rename_i hd
    split at hs
    · cases hs
      exact List.forall_mem_cons.mpr ⟨rfl, digits hd⟩
    · cases hs
      exact List.forall_mem_cons.mpr ⟨rfl, digits hd⟩
    · cases hs
      exact digits hd

theorem forall_mem_of_parseTail {cs : List Char} {t : Option (List Char) × Option Int} (h : parseTail cs = some t) :
    ∀ c ∈ cs, Json.isWordChar c = true := by
  have mark {c : Char} (hc : c = 'e' ∨ c = 'E') : Json.isWordChar c = true := by
    rcases hc with rfl | rfl <;> rfl
  unfold parseTail at h
  split at h
  · exact List.forall_mem_nil _
  · rename_i rest
    have ht : ∀ c ∈ rest.takeWhile Char.isDigit, Json.isWordChar c = true := fun c hc =>
      isWordChar_of_isDigit (List.mem_takeWhile_imp hc)
    have hr := List.takeWhile_append_dropWhile (p := Char.isDigit) (l := rest)
    refine List.forall_mem_cons.mpr ⟨rfl, ?_⟩
    rw [← hr]
    refine List.forall_mem_append.mpr ⟨ht, ?_⟩
    split at h
    · cases h
    · rename_i hs
      rw [(Prod.mk.inj hs).2]
      exact List.forall_mem_nil _
    · rename_i c rest' hs
      rw [(Prod.mk.inj hs).2]
      split at h
      · rename_i hc
        obtain ⟨e, he, -⟩ := Option.map_eq_some_iff.mp h
        exact List.forall_mem_cons.mpr ⟨mark hc, forall_mem_of_parseExponent he⟩
      · cases h
  · split at h
    · rename_i hc
      obtain ⟨e, he, -⟩ := Option.map_eq_some_iff.mp h
      exact List.forall_mem_cons.mpr ⟨mark hc, forall_mem_of_parseExponent he⟩
    · cases h

theorem forall_mem_of_parse {cs : List Char} {n : Numeral} (h : parse cs = some n) :
    cs ≠ [] ∧ ∀ c ∈ cs, Json.isWordChar c = true := by
  have body {ds : List Char} {f : Option (List Char) × Option Int → Numeral}
      (hd : (if wholeAllowed (spanDigits ds).1 then (parseTail (spanDigits ds).2).map f else none) = some n) :
      ds ≠ [] ∧ ∀ c ∈ ds, Json.isWordChar c = true := by
    split at hd
    · rename_i hw
      obtain ⟨t, ht, -⟩ := Option.map_eq_some_iff.mp hd
      constructor
      · rintro rfl
        cases hw
      · rw [← List.takeWhile_append_dropWhile (p := Char.isDigit) (l := ds)]
        refine List.forall_mem_append.mpr ⟨?_, forall_mem_of_parseTail ht⟩
        exact fun c hc => isWordChar_of_isDigit (List.mem_takeWhile_imp hc)
    · cases hd
  unfold parse at h
  split at h
  rename_i negative ds hs
  split at hs
  · cases hs
    exact ⟨List.cons_ne_nil _ _, List.forall_mem_cons.mpr ⟨rfl, (body h).2⟩⟩
  · cases hs
    exact body h

/-- Digits that stand for an integer of 64 bits are read as this integer; there is a minus sign before them just if it
is negative. -/
theorem value_toDigits (n : Int64) :
    value ⟨decide (n.toInt < 0), Nat.toDigits 10 n.toInt.natAbs, none, none⟩ = some (.int n) := by
  have hu : n.toInt < 2 ^ 63 := n.toInt_lt
  have hl : -2 ^ 63 ≤ n.toInt := n.le_toInt
  have ha : accumulate 0 (Nat.toDigits 10 n.toInt.natAbs) = (n.toInt.natAbs, []) := by
    have hd := Nat.ofDigitChars_ten_toDigits (n := n.toInt.natAbs)
    rw [accumulate_of_lt (by rw [hd, UInt64.size]; omega), hd]
  unfold value
  simp only [ha]
  by_cases hn : n.toInt < 0
  · rw [decide_eq_true hn, if_pos rfl, if_neg (by omega)]
    rw [show (-(n.toInt.natAbs : Int)) = n.toInt by omega, Int64.ofInt_toInt]
  · rw [decide_eq_false hn, if_neg Bool.false_ne_true, if_pos (by omega), ← Int64.ofInt_eq_ofNat]
    rw [show (n.toInt.natAbs : Int) = n.toInt by omega, Int64.ofInt_toInt]

end Numeral

namespace Json

/-- The text of the number is read as just this number, and not as an integer. -/
def ReadsBack (x : Float) : Prop := wordValue (floatChars x) = some (.number (.float x))

theorem wordValue_of_parse {cs : List Char} {n : Numeral} {m : Number} (h : Numeral.parse cs = some n)
    (hv : n.value = some m) : wordValue cs = some (.number m) := by
  unfold wordValue
  split
  · rename_i he
    rw [he] at h
    cases h
  split
  · rename_i he
    rw [he] at h
    cases h
  split
  · rename_i he
    rw [he] at h
    cases h
  rw [h, Option.map_some, hv]

theorem wordValue_intChars (n : Int64) : wordValue (intChars n) = some (.number (.int n)) := by
  have hv := Numeral.value_toDigits n
  obtain ⟨hp, hm⟩ := Numeral.parse_toDigits n.toInt.natAbs
  unfold intChars
  split
  · rename_i hn
    rw [decide_eq_true hn] at hv
    exact wordValue_of_parse hm hv
  · rename_i hn
    rw [decide_eq_false hn] at hv
    exact wordValue_of_parse hp hv

theorem readsBack_threeHalves : ReadsBack 1.5 := by
  have hc : floatChars 1.5 = ['1', '.', '5'] := by decide +kernel
  have hs : Numeral.scale (UInt64.toFloat 15) (-1) = some 1.5 := by decide +kernel
  have hp : Numeral.parse ['1', '.', '5'] = some ⟨false, ['1'], some ['5'], none⟩ := rfl
  rw [ReadsBack, hc]
  exact wordValue_of_parse hp (congrArg (Option.map Number.float) hs)

theorem all_isWordChar_of_wordValue {cs : List Char} {j : Json} (h : wordValue cs = some j) :
    cs ≠ [] ∧ cs.all isWordChar = true := by
  unfold wordValue at h
  split at h
  · rename_i he
    exact he ▸ ⟨List.cons_ne_nil _ _, rfl⟩
  split at h
  · rename_i he
    exact he ▸ ⟨List.cons_ne_nil _ _, rfl⟩
  split at h
  · rename_i he
    exact he ▸ ⟨List.cons_ne_nil _ _, rfl⟩
  obtain ⟨n, hn, -⟩ := Option.map_eq_some_iff.mp h
  have hw := Numeral.forall_mem_of_parse hn
  exact ⟨hw.1, List.all_eq_true.mpr hw.2⟩

/-! ### Tokens -/

/-- Between other tokens the characters stand for these tokens. The last one may be a word that is still open. -/
def Spells (cs : List Char) (ts : List Token) : Prop :=
  ∀ acc, ∃ l, cs.foldlM Lexer.step ⟨acc, .between⟩ = some l ∧ l.finish = some (acc.reverse ++ ts)

theorem spells_nil : Spells [] [] := by
  intro acc
  exact ⟨_, rfl, by rw [List.append_nil]; rfl⟩

theorem Lexer.step_of_finish {l : Lexer} {ts : List Token} {c : Char} (h : l.finish = some ts)
    (hc : isWordChar c = false) : l.step c = Lexer.step ⟨ts.reverse, .between⟩ c := by
  obtain ⟨tokens, mode⟩ := l
  cases mode with
  | between =>
    cases h
    rw [List.reverse_reverse]
  | word spelling =>
    cases h
    simp only [Lexer.step, hc, List.reverse_reverse, Bool.false_eq_true, if_false]
  | text units => cases h
  | escape units => cases h
  | code units digits value => cases h

/-- The first of the characters ends a word that stands before them. -/
def Breaks (cs : List Char) : Prop := ∃ c ∈ cs.head?, isWordChar c = false

theorem Spells.append {cs ds : List Char} {ts us : List Token} (h : Spells cs ts) (hd : Spells ds us)
    (hb : Breaks ds) : Spells (cs ++ ds) (ts ++ us) := by
  intro acc
  obtain ⟨l, hl, hf⟩ := h acc
  obtain ⟨l', hl', hf'⟩ := hd (acc.reverse ++ ts).reverse
  rw [List.reverse_reverse, List.append_assoc] at hf'
  refine ⟨l', ?_, hf'⟩
  obtain ⟨d, hm, hw⟩ := hb
  obtain ⟨ds, rfl⟩ := List.head?_eq_some_iff.mp hm
  rw [List.foldlM_append, hl, Option.bind_eq_bind, Option.bind_some, ← hl', List.foldlM_cons, List.foldlM_cons,
    Lexer.step_of_finish hf hw]

theorem Spells.punctuation {c : Char} {t : Token} {cs : List Char} {ts : List Token} (h : Spells cs ts)
    (hc : ∀ acc, Lexer.startToken acc c = some ⟨t :: acc, .between⟩) : Spells (c :: cs) (t :: ts) := by
  intro acc
  obtain ⟨l, hl, hf⟩ := h (t :: acc)
  refine ⟨l, ?_, by rw [hf, List.reverse_cons, List.append_assoc]; rfl⟩
  rw [List.foldlM_cons, Lexer.step, hc acc]
  exact hl

theorem isWordChar_of_isSpace {c : Char} (h : isSpace c = true) : isWordChar c = false := by
  rw [isSpace, decide_eq_true_eq] at h
  rcases h with rfl | rfl | rfl | rfl <;> rfl

theorem Spells.gap {ws cs : List Char} {ts : List Token} (h : Spells cs ts) (hw : ws.all isSpace = true) :
    Spells (ws ++ cs) ts := by
  induction ws with
  | nil => exact h
  | cons c ws ih =>
    obtain ⟨hc, hr⟩ := Bool.and_eq_true_iff.mp hw
    intro acc
    have hs : Lexer.step ⟨acc, .between⟩ c = some ⟨acc, .between⟩ := if_pos hc
    rw [List.cons_append, List.foldlM_cons, hs]
    exact ih hr acc

theorem Breaks.gap {ws cs : List Char} (h : Breaks cs) (hw : ws.all isSpace = true) : Breaks (ws ++ cs) := by
  cases ws with
  | nil => exact h
  | cons c ws => exact ⟨c, rfl, isWordChar_of_isSpace (Bool.and_eq_true_iff.mp hw).1⟩

theorem startToken_of_isWordChar {c : Char} (hc : isWordChar c = true) (acc : List Token) :
    Lexer.startToken acc c = some ⟨acc, .word [c]⟩ := by
  have hs : isSpace c = false := by
    rw [← Bool.not_eq_true]
    intro h
    exact Bool.false_ne_true ((isWordChar_of_isSpace h).symm.trans hc)
  have hq : c ≠ '"' := by
    rintro rfl
    cases hc
  simp only [Lexer.startToken, hs, hq, hc, Bool.false_eq_true, if_false, if_true]

theorem foldlM_step_word {cs : List Char} (h : cs.all isWordChar = true) (acc : List Token) (spelling : List Char) :
    cs.foldlM Lexer.step ⟨acc, .word spelling⟩ = some ⟨acc, .word (cs.reverse ++ spelling)⟩ := by
  induction cs generalizing spelling with
  | nil => rfl
  | cons c cs ih =>
    obtain ⟨hc, hr⟩ := Bool.and_eq_true_iff.mp h
    have hs : Lexer.step ⟨acc, .word spelling⟩ c = some ⟨acc, .word (c :: spelling)⟩ := if_pos hc
    rw [List.foldlM_cons, hs, Option.bind_eq_bind, Option.bind_some, ih hr, List.reverse_cons, List.append_assoc]
    rfl

theorem spells_word {cs : List Char} {j : Json} (h : wordValue cs = some j) : Spells cs [.word cs] := by
  obtain ⟨hne, hw⟩ := all_isWordChar_of_wordValue h
  obtain ⟨c, rest, rfl⟩ := List.exists_cons_of_ne_nil hne
  obtain ⟨hc, hr⟩ := Bool.and_eq_true_iff.mp hw
  intro acc
  refine ⟨⟨acc, .word (rest.reverse ++ [c])⟩, ?_, ?_⟩
  · rw [List.foldlM_cons, Lexer.step, startToken_of_isWordChar hc, Option.bind_eq_bind, Option.bind_some,
      foldlM_step_word hr]
  · simp [Lexer.finish]

theorem hexValue_digitChar : ∀ h < 16, hexValue (Nat.digitChar h) = some h := by
  decide

theorem foldlM_step_escapeChar (c : Char) (acc : List Token) (units : List Nat) :
    (escapeChar c).foldlM Lexer.step ⟨acc, .text units⟩ = some ⟨acc, .text (c.toNat :: units)⟩ := by
  by_cases hn : c = '"' ∨ c = '\\' ∨ c = '\n' ∨ c = '\r' ∨ c = '\t' ∨ c = '\x08' ∨ c = '\x0c'
  · -- a character with a letter of its own
    rcases hn with rfl | rfl | rfl | rfl | rfl | rfl | rfl <;> rfl
  · simp only [not_or] at hn
    obtain ⟨hq, hb, hn, hr, ht, h8, hc⟩ := hn
    unfold escapeChar
    simp only [hq, hb, hn, hr, ht, h8, hc, if_false]
    by_cases hs : c.toNat < 0x20
    · have hh := hexValue_digitChar (c.toNat / 16) (by omega)
      have hl := hexValue_digitChar (c.toNat % 16) (by omega)
      have h0 : hexValue '0' = some 0 := rfl
      have hv : (c.toNat / 16) * 16 + c.toNat % 16 = c.toNat := by omega
      simp [hs, Lexer.step, hh, hl, h0, hv]
    · simp [hs, hq, hb, Lexer.step]

theorem foldlM_step_escaped (cs : List Char) (acc : List Token) (units : List Nat) :
    (cs.flatMap escapeChar).foldlM Lexer.step ⟨acc, .text units⟩ =
      some ⟨acc, .text ((cs.map Char.toNat).reverse ++ units)⟩ := by
  induction cs generalizing units with
  | nil => rfl
  | cons c cs ih =>
    rw [List.flatMap_cons, List.foldlM_append, foldlM_step_escapeChar, Option.bind_eq_bind, Option.bind_some, ih,
      List.map_cons, List.reverse_cons, List.append_assoc]
    rfl

/-- A character is never half of a surrogate pair. -/
theorem joinUnits_cons (c : Char) (rest : List Nat) : joinUnits (c.toNat :: rest) = (joinUnits rest).map (c :: ·) := by
  have hv : c.toNat < 0xd800 ∨ 0xdfff < c.toNat ∧ c.toNat < 0x110000 := c.valid
  have hh : isHighSurrogate c.toNat = false := decide_eq_false (by omega)
  have hl : isLowSurrogate c.toNat = false := decide_eq_false (by omega)
  cases rest with
  | nil => simp [joinUnits, hh, hl]
  | cons low rest => simp [joinUnits, hh, hl]

theorem joinUnits_map_toNat (cs : List Char) : joinUnits (cs.map Char.toNat) = some cs := by
  induction cs with
  | nil => rfl
  | cons c cs ih => rw [List.map_cons, joinUnits_cons, ih, Option.map_some]

theorem spells_string (s : String) : Spells (stringChars s) [.text (some s)] := by
  intro acc
  refine ⟨⟨.text (some s) :: acc, .between⟩, ?_, by simp [Lexer.finish]⟩
  have hs : Lexer.step ⟨acc, .between⟩ '"' = some ⟨acc, .text []⟩ := rfl
  rw [stringChars, List.cons_append, List.foldlM_cons, hs, Option.bind_eq_bind, Option.bind_some, List.foldlM_append,
    foldlM_step_escaped, Option.bind_eq_bind, Option.bind_some, List.append_nil]
  simp [Lexer.step, joinUnits_map_toNat]

/-! ### The containers that are open -/

/-- Written among other tokens, the characters take the construction of a document from one point to another. -/
def Builds (cs : List Char) (p : Parser) (q : Option Parser) : Prop :=
  ∃ ts, Spells cs ts ∧ ts.foldlM Parser.step p = q

theorem Builds.append {cs ds : List Char} {p q : Parser} {r : Option Parser} (h : Builds cs p (some q))
    (hd : Builds ds q r) (hb : Breaks ds) : Builds (cs ++ ds) p r := by
  obtain ⟨ts, hts, hq⟩ := h
  obtain ⟨us, hus, hr⟩ := hd
  refine ⟨ts ++ us, hts.append hus hb, ?_⟩
  rw [List.foldlM_append, hq]
  exact hr

theorem Builds.punctuation {c : Char} {t : Token} {cs : List Char} {p q : Parser} {r : Option Parser}
    (h : Builds cs q r) (hc : ∀ acc, Lexer.startToken acc c = some ⟨t :: acc, .between⟩) (hs : p.step t = some q) :
    Builds (c :: cs) p r := by
  obtain ⟨ts, hts, hr⟩ := h
  refine ⟨t :: ts, hts.punctuation hc, ?_⟩
  rw [List.foldlM_cons, hs]
  exact hr

theorem Builds.last {c : Char} {t : Token} {p : Parser} {r : Option Parser}
    (hc : ∀ acc, Lexer.startToken acc c = some ⟨t :: acc, .between⟩) (hs : p.step t = r) : Builds [c] p r := by
  subst hs
  refine ⟨[t], spells_nil.punctuation hc, ?_⟩
  rw [List.foldlM_cons]
  cases p.step t <;> rfl

/-- A token that starts a value starts it as the first item of an array too. -/
theorem step_first {t : Token} {stack : List Open} {q : Parser}
    (h : Parser.step ⟨.array [] :: stack, .value⟩ t = some q) :
    Parser.step ⟨.array [] :: stack, .first⟩ t = some q := by
  cases t with
  | closeArray => cases h
  | closeObject => cases h
  | openArray => exact h
  | openObject => exact h
  | comma => exact h
  | colon => exact h
  | text content => exact h
  | word spelling => exact h

theorem Builds.first {cs : List Char} {stack rest : List Open}
    (h : Builds cs ⟨.array [] :: stack, .value⟩ (some ⟨rest, .next⟩)) :
    Builds cs ⟨.array [] :: stack, .first⟩ (some ⟨rest, .next⟩) := by
  obtain ⟨ts, hts, hq⟩ := h
  refine ⟨ts, hts, ?_⟩
  cases ts with
  | nil => cases hq
  | cons t ts =>
    rw [List.foldlM_cons] at hq ⊢
    obtain ⟨p, hp, hr⟩ := Option.bind_eq_some_iff.mp hq
    rw [step_first hp]
    exact hr

theorem Builds.gap {ws cs : List Char} {p : Parser} {r : Option Parser} (h : Builds cs p r)
    (hw : ws.all isSpace = true) : Builds (ws ++ cs) p r := by
  obtain ⟨ts, hts, hr⟩ := h
  exact ⟨ts, hts.gap hw, hr⟩

/-- Reading the characters puts the document where it belongs. -/
def Placed (cs : List Char) (j : Json) : Prop := ∀ stack, Builds cs ⟨stack, .value⟩ (Parser.place j stack)

theorem placed_of_token {cs : List Char} {t : Token} {j : Json} (hc : Spells cs [t])
    (hs : ∀ stack, Parser.step ⟨stack, .value⟩ t = Parser.place j stack) : Placed cs j := by
  intro stack
  refine ⟨[t], hc, ?_⟩
  rw [List.foldlM_cons, hs]
  cases Parser.place j stack <;> rfl

theorem placed_word {cs : List Char} {j : Json} (h : wordValue cs = some j) : Placed cs j := by
  apply placed_of_token (spells_word h)
  intro stack
  show (wordValue cs).bind (fun j => Parser.place j stack) = _
  rw [h, Option.bind_some]

theorem placed_string (s : String) : Placed (stringChars s) (.string s) :=
  placed_of_token (spells_string s) fun _ => rfl

/-! ### Ways of writing -/

/-- A way of writing documents leaves space between the tokens of containers that are not empty: `gap` before the parts
and the end of a container, `blank` after a colon. -/
structure Writing where
  text : Nat → Json → List Char
  items : Nat → List Json → List Char
  members : Nat → List (String × Json) → List Char
  gap : Nat → List Char
  blank : List Char
  gap_isSpace : ∀ depth, (gap depth).all isSpace = true
  blank_isSpace : blank.all isSpace = true
  text_null : ∀ depth, text depth .null = compactChars .null
  text_bool : ∀ depth b, text depth (.bool b) = compactChars (.bool b)
  text_number : ∀ depth n, text depth (.number n) = numberChars n
  text_string : ∀ depth s, text depth (.string s) = stringChars s
  text_array_nil : ∀ depth, text depth (.array []) = ['[', ']']
  text_array_cons : ∀ depth j rest,
    text depth (.array (j :: rest)) = '[' :: (gap (depth + 1) ++ (text (depth + 1) j ++ items depth rest))
  text_object_nil : ∀ depth, text depth (.object []) = ['\x7b', '\x7d']
  text_object_cons : ∀ depth name j rest, text depth (.object ((name, j) :: rest)) =
    '\x7b' :: (gap (depth + 1) ++ (stringChars name ++ ':' :: (blank ++ (text (depth + 1) j ++ members depth rest))))
  items_nil : ∀ depth, items depth [] = gap depth ++ [']']
  items_cons : ∀ depth j rest,
    items depth (j :: rest) = ',' :: (gap (depth + 1) ++ (text (depth + 1) j ++ items depth rest))
  members_nil : ∀ depth, members depth [] = gap depth ++ ['\x7d']
  members_cons : ∀ depth name j rest, members depth ((name, j) :: rest) =
    ',' :: (gap (depth + 1) ++ (stringChars name ++ ':' :: (blank ++ (text (depth + 1) j ++ members depth rest))))

namespace Writing

def compact : Writing where
  text _ := compactChars
  items _ := compactItems
  members _ := compactMembers
  gap _ := []
  blank := []
  gap_isSpace _ := rfl
  blank_isSpace := rfl
  text_null _ := rfl
  text_bool _ _ := rfl
  text_number _ _ := rfl
  text_string _ _ := rfl
  text_array_nil _ := rfl
  text_array_cons _ _ _ := rfl
  text_object_nil _ := rfl
  text_object_cons _ _ _ _ := rfl
  items_nil _ := rfl
  items_cons _ _ _ := rfl
  members_nil _ := rfl
  members_cons _ _ _ _ := rfl

def pretty : Writing where
  text := prettyChars
  items := prettyItems
  members := prettyMembers
  gap := newLine
  blank := [' ']
  gap_isSpace depth := by simp [newLine, isSpace]
  blank_isSpace := rfl
  text_null _ := rfl
  text_bool _ b := by cases b <;> rfl
  text_number _ _ := rfl
  text_string _ _ := rfl
  text_array_nil _ := rfl
  text_array_cons _ _ _ := by rw [prettyChars, List.append_assoc]
  text_object_nil _ := rfl
  text_object_cons _ _ _ _ := by rw [prettyChars, List.append_assoc]; rfl
  items_nil _ := rfl
  items_cons _ _ _ := by rw [prettyItems, List.append_assoc]
  members_nil _ := rfl
  members_cons _ _ _ _ := by rw [prettyMembers, List.append_assoc]; rfl

variable (w : Writing)

theorem breaks_items (depth : Nat) (items : List Json) : Breaks (w.items depth items) := by
  cases items with
  | nil =>
    rw [w.items_nil]
    exact Breaks.gap ⟨']', rfl, rfl⟩ (w.gap_isSpace depth)
  | cons j rest =>
    rw [w.items_cons]
    exact ⟨',', rfl, rfl⟩

theorem breaks_members (depth : Nat) (members : List (String × Json)) : Breaks (w.members depth members) := by
  cases members with
  | nil =>
    rw [w.members_nil]
    exact Breaks.gap ⟨'\x7d', rfl, rfl⟩ (w.gap_isSpace depth)
  | cons m rest =>
    rw [w.members_cons]
    exact ⟨',', rfl, rfl⟩

theorem builds_items {depth : Nat} {items : List Json} (h : ∀ j ∈ items, Placed (w.text (depth + 1) j) j)
    (before : List Json) (stack : List Open) :
    Builds (w.items depth items) ⟨.array before :: stack, .next⟩
      (Parser.place (.array (before.reverse ++ items)) stack) := by
  induction items generalizing before with
  | nil =>
    rw [w.items_nil, List.append_nil]
    apply Builds.gap _ (w.gap_isSpace depth)
    exact Builds.last (t := .closeArray) (fun _ => rfl) rfl
  | cons j rest ih =>
    obtain ⟨hj, hr⟩ := List.forall_mem_cons.mp h
    have hrest := ih hr (j :: before)
    rw [List.reverse_cons, List.append_assoc] at hrest
    rw [w.items_cons]
    have hi := (hj (.array before :: stack)).append hrest (w.breaks_items depth rest)
    exact (hi.gap (w.gap_isSpace _)).punctuation (fun _ => rfl) rfl

theorem builds_member {name : String} {cs ds : List Char} {j : Json} (hj : Placed cs j)
    {members : List (String × Json)} {stack : List Open} {phase : Phase} {r : Option Parser}
    (hp : phase = .first ∨ phase = .name)
    (hd : Builds ds ⟨.object ((name, j) :: members) true :: stack, .next⟩ r) (hb : Breaks ds) :
    Builds (stringChars name ++ ':' :: (w.blank ++ (cs ++ ds))) ⟨.object members true :: stack, phase⟩ r := by
  have hn : Builds (stringChars name) ⟨.object members true :: stack, phase⟩
      (some ⟨.member members true (some name) :: stack, .colon⟩) := by
    refine ⟨[.text (some name)], spells_string name, ?_⟩
    rcases hp with rfl | rfl <;> rfl
  have hv := ((hj (.member members true (some name) :: stack)).append hd hb).gap w.blank_isSpace
  have hc := hv.punctuation (c := ':') (t := .colon) (p := ⟨.member members true (some name) :: stack, .colon⟩)
    (fun _ => rfl) rfl
  exact hn.append hc ⟨':', rfl, rfl⟩

theorem builds_members {depth : Nat} {members : List (String × Json)}
    (h : ∀ m ∈ members, Placed (w.text (depth + 1) m.2) m.2) (before : List (String × Json)) (stack : List Open) :
    Builds (w.members depth members) ⟨.object before true :: stack, .next⟩
      (Parser.place (.object (before.reverse ++ members)) stack) := by
  induction members generalizing before with
  | nil =>
    rw [w.members_nil, List.append_nil]
    apply Builds.gap _ (w.gap_isSpace depth)
    exact Builds.last (t := .closeObject) (fun _ => rfl) rfl
  | cons m rest ih =>
    obtain ⟨name, j⟩ := m
    obtain ⟨hj, hr⟩ := List.forall_mem_cons.mp h
    have hrest := ih hr ((name, j) :: before)
    rw [List.reverse_cons, List.append_assoc] at hrest
    rw [w.members_cons]
    have hm := w.builds_member hj (.inr rfl) hrest (w.breaks_members depth rest)
    exact (hm.gap (w.gap_isSpace _)).punctuation (fun _ => rfl) rfl

end Writing

/-- The document has no part without a value, and the text of each floating-point number in it is read as this
number. -/
inductive Faithful : Json → Prop
  | null : Faithful .null
  | bool (b : Bool) : Faithful (.bool b)
  | int (n : Int64) : Faithful (.number (.int n))
  | float {x : Float} (h : ReadsBack x) : Faithful (.number (.float x))
  | string (s : String) : Faithful (.string s)
  | array {items : List Json} (h : ∀ j ∈ items, Faithful j) : Faithful (.array items)
  | object {members : List (String × Json)} (h : ∀ m ∈ members, Faithful m.2) : Faithful (.object members)

theorem Faithful.placed (w : Writing) {j : Json} (h : j.Faithful) (depth : Nat) : Placed (w.text depth j) j := by
  induction h generalizing depth with
  | null =>
    rw [w.text_null]
    exact placed_word rfl
  | bool b =>
    rw [w.text_bool]
    cases b <;> exact placed_word rfl
  | int n =>
    rw [w.text_number]
    exact placed_word (wordValue_intChars n)
  | float h =>
    rw [w.text_number]
    exact placed_word h
  | string s =>
    rw [w.text_string]
    exact placed_string s
  | @array items _ ih =>
    intro stack
    cases items with
    | nil =>
      rw [w.text_array_nil]
      have he : Builds [']'] ⟨.array [] :: stack, .first⟩ (Parser.place (.array []) stack) :=
        Builds.last (t := .closeArray) (fun _ => rfl) rfl
      exact he.punctuation (fun _ => rfl) rfl
    | cons j rest =>
      obtain ⟨hj, hr⟩ := List.forall_mem_cons.mp ih
      rw [w.text_array_cons]
      have hrest := w.builds_items (fun k hk => hr k hk (depth + 1)) [j] stack
      have hi := (hj (depth + 1) (.array [] :: stack)).first.append hrest (w.breaks_items depth rest)
      exact (hi.gap (w.gap_isSpace _)).punctuation (fun _ => rfl) rfl
  | @object members _ ih =>
    intro stack
    cases members with
    | nil =>
      rw [w.text_object_nil]
      have he : Builds ['\x7d'] ⟨.object [] true :: stack, .first⟩ (Parser.place (.object []) stack) :=
        Builds.last (t := .closeObject) (fun _ => rfl) rfl
      exact he.punctuation (fun _ => rfl) rfl
    | cons m rest =>
      obtain ⟨name, j⟩ := m
      obtain ⟨hj, hr⟩ := List.forall_mem_cons.mp ih
      rw [w.text_object_cons]
      have hrest := w.builds_members (fun k hk => hr k hk (depth + 1)) [(name, j)] stack
      have hm := w.builds_member (hj (depth + 1)) (.inl rfl) hrest (w.breaks_members depth rest)
      exact (hm.gap (w.gap_isSpace _)).punctuation (fun _ => rfl) rfl

theorem readableItems_eq_true {items : List Json} (h : ∀ j ∈ items, j.readable = true) :
    readableItems items = true := by
  induction items with
  | nil => rfl
  | cons j rest ih =>
    obtain ⟨hj, hr⟩ := List.forall_mem_cons.mp h
    rw [readableItems, hj, ih hr, Bool.and_self]

theorem readableMembers_eq_true {members : List (String × Json)} (h : ∀ m ∈ members, m.2.readable = true) :
    readableMembers members = true := by
  induction members with
  | nil => rfl
  | cons m rest ih =>
    obtain ⟨hj, hr⟩ := List.forall_mem_cons.mp h
    rw [readableMembers, hj, ih hr, Bool.and_self]

theorem Faithful.readable {j : Json} (h : j.Faithful) : j.readable = true := by
  induction h with
  | null | bool | int | float | string => rfl
  | array _ ih => exact readableItems_eq_true ih
  | object _ ih => exact readableMembers_eq_true ih

/-- A document is read back from its text in any way of writing, unless it nests too deeply. -/
theorem Faithful.parseSound_text (w : Writing) {j : Json} (h : j.Faithful) (hl : j.levels ≤ maxLevels) (depth : Nat) :
    parseSound (w.text depth j) = some j := by
  obtain ⟨ts, hts, hp⟩ := h.placed w depth []
  obtain ⟨l, ht, hf⟩ := hts []
  have hs : sound 0 j = true := by
    rw [sound, h.readable, Nat.zero_add, decide_eq_true hl, Bool.and_self]
  rw [parseSound, parse, tokens, ht, Option.bind_some, hf, List.reverse_nil, List.nil_append, Option.bind_some, hp]
  exact if_pos hs

theorem Faithful.parseSound_compact {j : Json} (h : j.Faithful) (hl : j.levels ≤ maxLevels) :
    parseSound j.compact.toList = some j := by
  rw [compact, String.toList_ofList]
  exact h.parseSound_text .compact hl 0

theorem Faithful.parseSound_pretty {j : Json} (h : j.Faithful) (hl : j.levels ≤ maxLevels) :
    parseSound j.pretty.toList = some j := by
  rw [pretty, String.toList_ofList]
  exact h.parseSound_text .pretty hl 0

end Json

end Agenda
