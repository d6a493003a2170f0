import Mathlib.Data.List.TakeDrop
import Scriptlet.Literal
import Scriptlet.Proofs.Lexing
/-!
# Literals that the grammar spells

A numeral that the grammar spells is made of ASCII digits and at most one point, so nothing that
reading a number tolerates plays a part: no blanks around it, no sign, no underscores, no exponent
and no words. Main statements: a float literal always has a value (`exists_of_readFloat?`), and a
whole number is unreadable only if it has too many digits (`readInt_of_digits`), so the fault of a
literal of the grammar is one of the language or that (`fault_of_literalValue`).
-/

namespace Scriptlet

open Source (IsDigits Terminal)
open Decimal Text

def InNumeral (c : Char) : Prop := c.isDigit = true ∨ c = '.'

section

variable {c : Char} {cs : List Char}

theorem toNat_of_digit (h : c.isDigit = true) : 0x30 ≤ c.toNat ∧ c.toNat ≤ 0x39 :=
  Char.isDigit_iff_toNat.mp h

theorem InNumeral.toNat (h : InNumeral c) : 0x2e ≤ c.toNat ∧ c.toNat ≤ 0x39 := by
  rcases h with h | rfl
  · have := toNat_of_digit h
    omega
  · decide

theorem asciiForm_of_inNumeral (h : InNumeral c) : asciiForm c = c := by
  have hc := h.toNat
  rw [asciiForm, if_pos (by omega)]

theorem isSpace_of_inNumeral (h : InNumeral c) : isSpace c = false := by
  have hc := h.toNat
  simp only [isSpace, Bool.or_eq_false_iff, Bool.and_eq_false_iff, beq_eq_false_iff_ne,
    decide_eq_false_iff_not]
  omega

theorem ne_underscore_of_inNumeral (h : InNumeral c) : c ≠ '_' := by
  rintro rfl
  exact absurd h.toNat (by decide)

theorem trimBy_of_none {drop : Char → Bool} (h : ∀ c ∈ cs, drop c = false) :
    trimBy drop cs = cs := by
  have hkeep : ∀ ds : List Char, (∀ c ∈ ds, drop c = false) → ds.dropWhile drop = ds := by
    intro ds hds
    cases ds with
    | nil => rfl
    | cons d ds => rw [List.dropWhile_cons, hds d (List.mem_cons_self ..)]; rfl
  have hreverse : ∀ c ∈ cs.reverse, drop c = false := fun c hc => h c (List.mem_reverse.mp hc)
  rw [trimBy, hkeep cs h, hkeep _ hreverse, List.reverse_reverse]

theorem numberChars_of_inNumeral (h : ∀ c ∈ cs, InNumeral c) :
    numberChars (String.ofList cs) = cs := by
  have hmap : cs.map asciiForm = cs :=
    (List.map_congr_left fun c hc => asciiForm_of_inNumeral (h c hc)).trans (List.map_id cs)
  rw [numberChars, String.toList_ofList, hmap]
  exact trimBy_of_none fun c hc => isSpace_of_inNumeral (h c hc)

theorem underscoresFit_of_inNumeral (before : Char) (h : ∀ c ∈ cs, InNumeral c) :
    underscoresFit before cs = true := by
  induction cs generalizing before with
  | nil => rfl
  | cons c cs ih =>
    have hc : c ≠ '_' := ne_underscore_of_inNumeral (h c (List.mem_cons_self ..))
    have hcs : underscoresFit c cs = true := ih c fun d hd => h d (List.mem_cons_of_mem c hd)
    rw [underscoresFit]
    · simp [hc, hcs]
    · rintro _ _ rfl
      exact absurd rfl hc

theorem splitSign_of_digit (h : c.isDigit = true) (cs : List Char) :
    splitSign (c :: cs) = (false, c :: cs) := by
  have hc := toNat_of_digit h
  unfold splitSign
  split
  next heq =>
    cases heq
    exact absurd hc (by decide)
  next heq =>
    cases heq
    exact absurd hc (by decide)
  next => rfl

theorem span_stop {p : Char → Bool} {rest : List Char} (h : ∀ c ∈ cs, p c = true)
    (hrest : ∀ c ∈ rest.head?, p c = false) : (cs ++ rest).span p = (cs, rest) := by
  have hdrop : (cs ++ rest).dropWhile p = rest := by
    rw [List.dropWhile_append_of_pos h]
    cases rest with
    | nil => rfl
    | cons c rest => rw [List.dropWhile_cons, hrest c rfl]; rfl
  rw [List.span_eq_takeWhile_dropWhile, Source.takeWhile_stop h hrest, hdrop]

theorem span_all {p : Char → Bool} (h : ∀ c ∈ cs, p c = true) : cs.span p = (cs, []) := by
  have hstop : (cs ++ []).span p = (cs, []) := span_stop h nofun
  rwa [List.append_nil] at hstop

theorem inNumeral_of_digits (h : IsDigits cs) : ∀ c ∈ cs, InNumeral c := fun c hc => .inl (h.2 c hc)

/-- Leading noughts do not count. -/
theorem natOfDigits_noughts (count : Nat) (ds : List Char) :
    natOfDigits (List.replicate count '0' ++ ds) = natOfDigits ds := by
  induction count with
  | zero => rfl
  | succ count ih => exact ih

/-- Digits, but not too many, are a number. -/
theorem readInt_of_digits (h : IsDigits cs) :
    readInt (String.ofList cs) =
      if digitLimit < cs.length then .tooLong cs.length else .value (natOfDigits cs) := by
  obtain ⟨hne, hdigits⟩ := h
  obtain ⟨d, ds, rfl⟩ := List.exists_cons_of_ne_nil hne
  have hin := inNumeral_of_digits ⟨hne, hdigits⟩
  have hspan : (d :: ds).span (fun c => c.isDigit || c == '_') = (d :: ds, []) := by
    have hrow : ∀ c ∈ d :: ds, (c.isDigit || c == '_') = true := by
      intro c hc
      rw [hdigits c hc, Bool.true_or]
    exact span_all hrow
  have hfilter : (d :: ds).filter Char.isDigit = d :: ds := List.filter_eq_self.mpr hdigits
  rw [readInt, numberChars_of_inNumeral hin, splitSign_of_digit (hdigits d (List.mem_cons_self ..))]
  simp only [hspan, hfilter, underscoresFit_of_inNumeral ' ' hin]
  rfl

/-- The value of a whole number that the grammar spells: too many digits are noticed before the
range is. -/
theorem literalValue_of_digits (h : IsDigits cs) :
    literalValue .integer (String.ofList cs) =
      if digitLimit < cs.length then .error (.integerTooLong cs.length)
      else if InRange (natOfDigits cs) then .ok (.int (natOfDigits cs))
      else .error (.literalOutOfRange (String.ofList cs)) := by
  rw [literalValue, integerValue, readInt_of_digits h]
  by_cases hlong : digitLimit < cs.length
  · rw [if_pos hlong, if_pos hlong]
  · rw [if_neg hlong, if_neg hlong]

theorem lower_ne_of_digit (h : c.isDigit = true) (cs : List Char) {word : String}
    (hword : word.toList.head?.any Char.isDigit = false) :
    String.ofList ((c :: cs).map Char.toLower) ≠ word := by
  have hlower : c.toLower = c := by
    have hc : c.toNat ≤ 0x39 := (toNat_of_digit h).2
    refine dif_neg fun hupper => ?_
    have hletter : 'A'.toNat ≤ c.toNat := UInt32.le_iff_toNat_le.mp hupper.1
    exact absurd (Nat.le_trans hletter hc) (by decide)
  rintro rfl
  rw [String.toList_ofList, List.map_cons, hlower] at hword
  exact absurd h (by simpa using hword)

/-- A point between digits makes a float. -/
theorem exists_of_readFloat? {whole part : List Char} (hwhole : IsDigits whole)
    (hpart : IsDigits part) : ∃ x, readFloat? (String.ofList (whole ++ '.' :: part)) = some x := by
  have hin : ∀ c ∈ whole ++ '.' :: part, InNumeral c :=
    List.forall_mem_append.mpr ⟨inNumeral_of_digits hwhole,
      List.forall_mem_cons.mpr ⟨.inr rfl, inNumeral_of_digits hpart⟩⟩
  have hfilter : (whole ++ '.' :: part).filter (· != '_') = whole ++ '.' :: part :=
    List.filter_eq_self.mpr fun c hc => bne_iff_ne.mpr (ne_underscore_of_inNumeral (hin c hc))
  have hscaled : ∃ x, readScaled? (whole ++ '.' :: part) = some x := by
    have hspan : (whole ++ '.' :: part).span Char.isDigit = (whole, '.' :: part) :=
      span_stop hwhole.2 (by rintro c ⟨⟩; rfl)
    have hplaces : part.span Char.isDigit = (part, []) := span_all hpart.2
    rw [readScaled?]
    have hnonempty : (whole.isEmpty && part.isEmpty) = false := by
      rw [List.isEmpty_eq_false_iff.mpr hwhole.1, Bool.false_and]
    simp only [hspan, hplaces, hnonempty]
    exact ⟨_, rfl⟩
  obtain ⟨x, hx⟩ := hscaled
  obtain ⟨d, ds, rfl⟩ := List.exists_cons_of_ne_nil hwhole.1
  have hd := hwhole.2 d (List.mem_cons_self ..)
  rw [readFloat?, numberChars_of_inNumeral hin]
  simp only [underscoresFit_of_inNumeral ' ' hin, hfilter]
  rw [List.cons_append] at hx ⊢
  rw [splitSign_of_digit hd, if_neg (by decide)]
  simp only [Bool.false_eq_true, if_false]
  refine ⟨x, ?_⟩
  -- the text begins with a digit, so it is none of the three words
  split
  next heq => exact absurd heq (lower_ne_of_digit hd _ rfl)
  next heq => exact absurd heq (lower_ne_of_digit hd _ rfl)
  next heq => exact absurd heq (lower_ne_of_digit hd _ rfl)
  next =>
    rw [hx]
    rfl

/-- What the grammar spells has a value, or a fault that is one of the language, unless it is a
whole number with too many digits. -/
theorem fault_of_literalValue {k : Terminal} {kind : TokenKind} (hk : k.kind? = some kind)
    (hs : k.Spells cs) {f : Fault} (h : literalValue kind (String.ofList cs) = .error f) :
    f.isNative = true ∨ k = .integer ∧ digitLimit < cs.length ∧ f = .integerTooLong cs.length := by
  cases k with
  | integer =>
    cases hk
    rw [literalValue_of_digits hs] at h
    by_cases hlong : digitLimit < cs.length
    · rw [if_pos hlong] at h
      cases h
      exact .inr ⟨rfl, hlong, rfl⟩
    · rw [if_neg hlong] at h
      split at h <;> cases h
      exact .inl rfl
  | float =>
    cases hk
    obtain ⟨whole, part, rfl, hwhole, hpart⟩ := hs
    obtain ⟨x, hx⟩ := exists_of_readFloat? hwhole hpart
    rw [literalValue, hx] at h
    cases h
  | _ =>
    cases hk
    all_goals
      cases h
    all_goals
      exact .inl rfl

end

end Scriptlet
