import Mathlib.Data.List.Induction
import Mathlib.Data.List.TakeWhile
import Scriptlet.Proofs.Grammar
/-!
# Layout

A source as tokens with gaps between them. A gap is made of blanks and comments, and only at the end
of the source may a comment lack its newline. Main statements: positions count characters, newlines
and the characters since the last newline (`advance_start`); what is recognised is spelled as its
terminal demands (`recognize_spells`); and a source that scans to its end is made of gaps and tokens
(`scans_of_scanFrom`, `scanFrom_of_scans`).
-/

namespace Scriptlet.Source

/-! ## Positions -/

/-- The position behind a text, by counting. -/
def Position.behind (cs : List Char) : Position :=
  ⟨cs.length, cs.count '\n' + 1, (cs.reverse.takeWhile (· ≠ '\n')).length + 1⟩

theorem behind_snoc (cs : List Char) (c : Char) :
    Position.behind (cs ++ [c]) = (Position.behind cs).next c := by
  by_cases h : c = '\n'
  · subst h
    simp [Position.behind, Position.next]
  · simp [Position.behind, Position.next, h]

theorem advance_start (cs : List Char) : Position.start.advance cs = Position.behind cs := by
  induction cs using List.reverseRecOn with
  | nil => rfl
  | append_singleton cs c ih => rw [Position.advance_append, ih, behind_snoc]; rfl

/-! ## Gaps -/

/-- Blanks, and comments up to their newlines. -/
inductive Gap : List Char → Prop where
  | nil : Gap []
  | blank {c : Char} {cs : List Char} (hc : isGap c = true) (h : Gap cs) : Gap (c :: cs)
  | comment {text cs : List Char} (ht : '\n' ∉ text) (h : Gap cs) :
      Gap ('#' :: (text ++ '\n' :: cs))

/-- A gap at the end of a source, where a comment need not have a newline. -/
inductive Trailing : List Char → Prop where
  | gap {cs : List Char} (h : Gap cs) : Trailing cs
  | comment {cs text : List Char} (h : Gap cs) (ht : '\n' ∉ text) : Trailing (cs ++ '#' :: text)

theorem Gap.append {cs ds : List Char} (h : Gap cs) (h' : Gap ds) : Gap (cs ++ ds) := by
  induction h with
  | nil => exact h'
  | blank hc _ ih => exact ih.blank hc
  | comment ht _ ih =>
    simpa only [List.cons_append, List.append_assoc] using ih.comment ht

theorem Trailing.blank {c : Char} {cs : List Char} (hc : isGap c = true) (h : Trailing cs) :
    Trailing (c :: cs) := by
  cases h with
  | gap h => exact .gap (h.blank hc)
  | comment h ht => exact .comment (h.blank hc) ht

/-- A comment that goes on for one more character. -/
theorem Gap.longer {c : Char} {cs : List Char} (hc : c ≠ '\n') (h : Gap ('#' :: cs)) :
    Gap ('#' :: c :: cs) := by
  cases h with
  | blank hb _ => exact absurd hb (by decide)
  | @comment text ds ht h =>
    refine @Gap.comment (c :: text) ds ?_ h
    simp only [List.mem_cons, not_or]
    exact ⟨fun e => hc e.symm, ht⟩

theorem Trailing.longer {c : Char} {cs : List Char} (hc : c ≠ '\n') (h : Trailing ('#' :: cs)) :
    Trailing ('#' :: c :: cs) := by
  generalize hx : '#' :: cs = xs at h
  cases h with
  | gap h =>
    subst hx
    exact .gap (h.longer hc)
  | @comment ds text h ht =>
    cases ds with
    | nil =>
      cases hx
      refine @Trailing.comment [] (c :: cs) .nil ?_
      simp only [List.mem_cons, not_or]
      exact ⟨fun e => hc e.symm, ht⟩
    | cons d ds =>
      cases hx
      exact .comment (h.longer hc) ht

/-- An empty comment. -/
theorem Gap.newline {cs : List Char} (h : Gap cs) : Gap ('#' :: '\n' :: cs) :=
  @Gap.comment [] cs List.not_mem_nil h

theorem Trailing.newline {cs : List Char} (h : Trailing cs) : Trailing ('#' :: '\n' :: cs) := by
  cases h with
  | gap h => exact .gap h.newline
  | comment h ht => exact .comment h.newline ht

/-- The text that skipping has passed, with the mark of a comment that was begun before it. -/
def opened (comment : Bool) (cs : List Char) : List Char := if comment then '#' :: cs else cs

/-- What skipping passes is a gap. -/
theorem skip_gap (comment : Bool) (p : Position) (cs : List Char) :
    ∃ gap, cs = gap ++ (skip comment p cs).2 ∧ (skip comment p cs).1 = p.advance gap ∧
      Trailing (opened comment gap) ∧ ((skip comment p cs).2 ≠ [] → Gap (opened comment gap)) := by
  induction cs generalizing comment p with
  | nil =>
    refine ⟨[], rfl, rfl, ?_, fun h => absurd rfl h⟩
    cases comment with
    | false => exact .gap .nil
    | true => exact @Trailing.comment [] [] .nil List.not_mem_nil
  | cons c cs ih =>
    unfold skip
    split
    · next hcomment =>
      subst hcomment
      by_cases hc : c = '\n'
      · subst hc
        obtain ⟨gap, h, hp, ht, hg⟩ := ih false (p.next '\n')
        refine ⟨'\n' :: gap, ?_, hp, ht.newline, fun hr => ?_⟩
        · exact congrArg _ h
        · exact (hg hr).newline
      · obtain ⟨gap, h, hp, ht, hg⟩ := ih true (p.next c)
        simp only [ne_eq, hc, not_false_eq_true, decide_true]
        refine ⟨c :: gap, ?_, hp, ht.longer hc, fun hr => (hg hr).longer hc⟩
        exact congrArg _ h
    · next hcomment =>
      obtain rfl : comment = false := by simpa using hcomment
      split
      · next hc =>
        obtain ⟨gap, h, hp, ht, hg⟩ := ih false (p.next c)
        refine ⟨c :: gap, ?_, hp, ht.blank hc, fun hr => (hg hr).blank hc⟩
        exact congrArg _ h
      · split
        · next hc =>
          subst hc
          obtain ⟨gap, h, hp, ht, hg⟩ := ih true (p.next '#')
          refine ⟨'#' :: gap, ?_, hp, ht, hg⟩
          exact congrArg _ h
        · exact ⟨[], rfl, rfl, .gap .nil, fun _ => .nil⟩

theorem skip_comment {text : List Char} (ht : '\n' ∉ text) (p : Position) (rest : List Char) :
    skip true p (text ++ rest) = skip true (p.advance text) rest := by
  induction text generalizing p with
  | nil => rfl
  | cons c text ih =>
    have hc : c ≠ '\n' := fun e => ht (e ▸ List.mem_cons_self)
    rw [List.cons_append, skip, if_pos rfl, Position.advance_cons]
    simp only [ne_eq, hc, not_false_eq_true, decide_true]
    exact ih (fun h => ht (List.mem_cons_of_mem c h)) (p.next c)

/-- Skipping passes a gap, whatever follows. -/
theorem skip_of_gap {gap : List Char} (h : Gap gap) (p : Position) (rest : List Char) :
    skip false p (gap ++ rest) = skip false (p.advance gap) rest := by
  induction h generalizing p with
  | nil => rfl
  | blank hc _ ih =>
    rw [List.cons_append, skip, if_neg (by decide), if_pos hc]
    exact ih _
  | @comment text cs ht _ ih =>
    rw [List.cons_append, skip, if_neg (by decide), if_neg (by decide), if_pos rfl,
      List.append_assoc, skip_comment ht, List.cons_append, skip, if_pos rfl]
    rw [Position.advance_cons, Position.advance_append, Position.advance_cons]
    exact ih _

theorem skip_of_trailing {cs : List Char} (h : Trailing cs) (p : Position) :
    (skip false p cs).2 = [] := by
  cases h with
  | gap h =>
    have hs := skip_of_gap h p []
    rw [List.append_nil] at hs
    rw [hs]
    rfl
  | @comment ds text h ht =>
    rw [skip_of_gap h, skip, if_neg (by decide), if_neg (by decide), if_pos rfl]
    have hs := skip_comment ht ((p.advance ds).next '#') []
    rw [List.append_nil] at hs
    rw [hs]
    rfl

/-! ## Pieces -/

/-- A token's terminal and text, and the gap before it. -/
structure Piece where
  gap : List Char
  terminal : Terminal
  text : List Char
  deriving DecidableEq, Repr

/-- The text that pieces are a part of. -/
def written (ps : List Piece) : List Char := ps.flatMap fun p => p.gap ++ p.text

/-- The tokens of pieces that begin at a position. -/
def placed (p : Position) : List Piece → List Token
  | [] => []
  | piece :: ps =>
    let first := p.advance piece.gap
    let last := first.advance piece.text
    ⟨piece.terminal, piece.text, ⟨first, last⟩⟩ :: placed last ps

theorem advance_written_cons (p : Position) (x : Piece) (ps : List Piece) :
    p.advance (written (x :: ps)) = ((p.advance x.gap).advance x.text).advance (written ps) := by
  simp only [written, List.flatMap_cons, Position.advance_append]

theorem placed_append (p : Position) (ps qs : List Piece) :
    placed p (ps ++ qs) = placed p ps ++ placed (p.advance (written ps)) qs := by
  induction ps generalizing p with
  | nil => rfl
  | cons x ps ih =>
    rw [List.cons_append, placed, placed, ih, advance_written_cons, List.cons_append]

/-- A token of pieces that stand somewhere is that of one of them. -/
theorem exists_of_placed {p : Position} {ps : List Piece} {before after : List Token} {t : Token}
    (h : placed p ps = before ++ t :: after) :
    ∃ qs x rs, ps = qs ++ x :: rs ∧ before = placed p qs ∧
      t :: after = placed (p.advance (written qs)) (x :: rs) := by
  induction before generalizing p ps with
  | nil =>
    cases ps with
    | nil => cases h
    | cons x ps => exact ⟨[], x, ps, rfl, rfl, h.symm⟩
  | cons u before ih =>
    cases ps with
    | nil => cases h
    | cons y ps =>
      obtain ⟨rfl, htail⟩ := List.cons.inj h
      obtain ⟨qs, x, rs, rfl, rfl, ht⟩ := ih htail
      refine ⟨y :: qs, x, rs, rfl, rfl, ?_⟩
      rw [advance_written_cons]
      exact ht

def Piece.Fits (p : Piece) : Prop := Gap p.gap ∧ p.terminal.Spells p.text

theorem take_past_takeWhile (p : Char → Bool) (cs : List Char) (n : Nat) :
    cs.take ((cs.takeWhile p).length + n) = cs.takeWhile p ++ (cs.dropWhile p).take n := by
  have h := @List.take_length_add_append _ (cs.takeWhile p) (cs.dropWhile p) n
  rwa [List.takeWhile_append_dropWhile] at h

theorem take_takeWhile (p : Char → Bool) (cs : List Char) :
    cs.take (cs.takeWhile p).length = cs.takeWhile p :=
  (List.prefix_iff_eq_take.mp (List.takeWhile_prefix p)).symm

theorem drop_takeWhile (p : Char → Bool) (cs : List Char) :
    cs.drop (cs.takeWhile p).length = cs.dropWhile p := by
  have h := @List.drop_left _ (cs.takeWhile p) (cs.dropWhile p)
  rwa [List.takeWhile_append_dropWhile] at h

theorem spells_of_mem_texts {k : Terminal} {word : String} (h : word ∈ k.texts) :
    k.Spells word.toList := by
  cases k <;> first | exact absurd h List.not_mem_nil | exact List.mem_map_of_mem h

theorem spells_ne_nil {k : Terminal} {cs : List Char} (h : k.Spells cs) : cs ≠ [] := by
  rintro rfl
  cases k <;> simp [Terminal.Spells, Terminal.texts, IsDigits] at h

theorem keywords_texts (m : Mode) :
    ∀ x ∈ m.keywords, x.1 ∈ x.2.texts ∧ x.1.toList ≠ [] := by
  cases m <;> decide

/-- A word is a name or one of the keywords of its mode. -/
theorem wordTerminal_cases (m : Mode) (word : List Char) :
    wordTerminal m word = .identifier ∨
      ∃ x ∈ m.keywords, x.1.toList = word ∧ wordTerminal m word = x.2 := by
  unfold wordTerminal
  cases hfind : m.keywords.find? (·.1.toList = word) with
  | none => exact .inl rfl
  | some x =>
    exact .inr ⟨x, List.mem_of_find?_eq_some hfind, by simpa using List.find?_some hfind, rfl⟩

theorem wordTerminal_spells {c : Char} {tail : List Char} (m : Mode) (hc : isWordStart c = true)
    (ht : ∀ d ∈ tail, isWordChar d = true) : (wordTerminal m (c :: tail)).Spells (c :: tail) := by
  rcases wordTerminal_cases m (c :: tail) with h | ⟨x, hx, htext, h⟩
  · rw [h]
    exact ⟨c, tail, rfl, hc, ht⟩
  · rw [h, ← htext]
    exact spells_of_mem_texts (keywords_texts m x hx).1

theorem leadingKeyword_spells {m : Mode} {c : Char} {cs : List Char} {k : Terminal} {n : Nat}
    (h : leadingKeyword? m (c :: cs) = some (k, n)) : k.Spells (c :: cs.take n) := by
  unfold leadingKeyword? at h
  obtain ⟨x, hf, hx⟩ := Option.map_eq_some_iff.mp h
  cases hx
  obtain ⟨htext, hne⟩ := keywords_texts m x (List.mem_of_find?_eq_some hf)
  have hp : x.1.toList <+: c :: cs := by simpa using List.find?_some hf
  have hlen : x.1.length = x.1.length - 1 + 1 := by
    have hpos := List.length_pos_iff.mpr hne
    rw [String.length_toList] at hpos
    omega
  have htake : c :: cs.take (x.1.length - 1) = x.1.toList := by
    rw [List.prefix_iff_eq_take.mp hp, String.length_toList, hlen, List.take_succ_cons]
    rfl
  rw [htake]
  exact spells_of_mem_texts htext

/-- A mark that is not missing ends the text before it. -/
theorem dropWhile_ne_eq_cons {c : Char} {cs : List Char}
    (h : (cs.takeWhile (· ≠ c)).length < cs.length) :
    ∃ rest, cs.dropWhile (· ≠ c) = c :: rest := by
  cases hd : cs.dropWhile (· ≠ c) with
  | nil =>
    have hlen := congrArg List.length (List.takeWhile_append_dropWhile (p := (· ≠ c)) (l := cs))
    rw [hd, List.append_nil] at hlen
    omega
  | cons d rest =>
    have hne : cs.dropWhile (· ≠ c) ≠ [] := by rw [hd]; exact List.cons_ne_nil _ _
    have hhead := List.head_dropWhile_not (· ≠ c) hne
    simp only [hd, List.head_cons] at hhead
    obtain rfl : d = c := by simpa using hhead
    exact ⟨rest, rfl⟩

theorem length_takeWhile_le (p : Char → Bool) (cs : List Char) :
    (cs.takeWhile p).length ≤ cs.length :=
  (List.takeWhile_prefix p).length_le

theorem dropWhile_append_of_takeWhile {p : Char → Bool} {xs ys : List Char}
    (h : (xs ++ ys).takeWhile p = xs.takeWhile p) :
    (xs ++ ys).dropWhile p = xs.dropWhile p ++ ys := by
  rw [← drop_takeWhile, h, List.drop_append_of_le_length (length_takeWhile_le p xs), drop_takeWhile]

/-! ### Numbers -/

/-- How many characters a point and the decimal places behind it take up, where both may begin. -/
def fractionLength : List Char → Nat
  | '.' :: part =>
    let places := (part.takeWhile Char.isDigit).length
    if places = 0 then 0 else 1 + places
  | _ => 0

/-- The token of a number whose first digit has a text behind it. -/
def numberToken (cs : List Char) : Terminal × Nat :=
  let fraction := fractionLength (cs.dropWhile Char.isDigit)
  (if fraction = 0 then .integer else .float, (cs.takeWhile Char.isDigit).length + fraction)

theorem fractionLength_of_ne {d : Char} (h : d ≠ '.') (cs : List Char) :
    fractionLength (d :: cs) = 0 := by
  unfold fractionLength
  split
  next heq => exact absurd (List.cons.inj heq).1 h
  next => rfl

theorem recognize_digit {m : Mode} {c : Char} {cs : List Char} (hstart : ¬isWordStart c = true)
    (hdigit : c.isDigit = true) : recognize m c cs = some (numberToken cs) := by
  rw [recognize, if_neg hstart, if_pos hdigit, numberToken]
  dsimp only
  rw [drop_takeWhile]
  cases hrest : cs.dropWhile Char.isDigit with
  | nil => rfl
  | cons d rest =>
    by_cases hd : d = '.'
    · subst hd
      by_cases hplaces : (rest.takeWhile Char.isDigit).length = 0
      · simp [fractionLength, hplaces]
      · simp [fractionLength, hplaces, Nat.add_assoc]
    · rw [fractionLength_of_ne hd]
      split
      next heq => exact absurd (List.cons.inj heq).1 hd
      next => rfl

/-- There is no fraction, or there are places behind a point. -/
theorem fractionLength_cases (cs : List Char) :
    fractionLength cs = 0 ∨ ∃ part, cs = '.' :: part ∧ part.takeWhile Char.isDigit ≠ [] ∧
      fractionLength cs = 1 + (part.takeWhile Char.isDigit).length := by
  cases cs with
  | nil => exact .inl rfl
  | cons d part =>
    by_cases hd : d = '.'
    · subst hd
      by_cases hplaces : (part.takeWhile Char.isDigit).length = 0
      · exact .inl (if_pos hplaces)
      · exact .inr ⟨part, rfl, mt List.length_eq_zero_iff.mpr hplaces, if_neg hplaces⟩
    · exact .inl (fractionLength_of_ne hd part)

theorem numberToken_spells {c : Char} (hc : c.isDigit = true) (cs : List Char) :
    (numberToken cs).1.Spells (c :: cs.take (numberToken cs).2) := by
  have hwhole : IsDigits (c :: cs.takeWhile Char.isDigit) := by
    refine ⟨List.cons_ne_nil _ _, fun d hd => ?_⟩
    rcases List.mem_cons.mp hd with rfl | hd
    · exact hc
    · exact List.mem_takeWhile_imp hd
  unfold numberToken
  dsimp only
  rcases fractionLength_cases (cs.dropWhile Char.isDigit) with h | ⟨part, hrest, hplaces, h⟩
  · rw [h, if_pos rfl, Nat.add_zero, take_takeWhile]
    exact hwhole
  · have htake : cs.take ((cs.takeWhile Char.isDigit).length +
        (1 + (part.takeWhile Char.isDigit).length)) =
        cs.takeWhile Char.isDigit ++ '.' :: part.takeWhile Char.isDigit := by
      rw [take_past_takeWhile, hrest, Nat.add_comm 1, List.take_succ_cons, take_takeWhile]
    rw [h, if_neg (by omega), htake]
    exact ⟨c :: cs.takeWhile Char.isDigit, part.takeWhile Char.isDigit, rfl, hwhole, hplaces,
      fun d hd => List.mem_takeWhile_imp hd⟩

theorem numberToken_length_le (cs : List Char) : (numberToken cs).2 ≤ cs.length := by
  have hparts := congrArg List.length
    (List.takeWhile_append_dropWhile (p := Char.isDigit) (l := cs))
  rw [List.length_append] at hparts
  have hfraction : fractionLength (cs.dropWhile Char.isDigit) ≤
      (cs.dropWhile Char.isDigit).length := by
    rcases fractionLength_cases (cs.dropWhile Char.isDigit) with h | ⟨part, hrest, -, h⟩
    · rw [h]
      exact Nat.zero_le _
    · have hplaces := length_takeWhile_le Char.isDigit part
      rw [h, hrest, List.length_cons]
      omega
  rw [numberToken]
  omega

/-! ### Terminals -/

/-- What is recognised is spelled as its terminal demands. -/
theorem recognize_spells {m : Mode} {c : Char} {cs : List Char} {k : Terminal} {n : Nat}
    (h : recognize m c cs = some (k, n)) : k.Spells (c :: cs.take n) := by
  by_cases hnumber : ¬isWordStart c = true ∧ c.isDigit = true
  · rw [recognize_digit hnumber.1 hnumber.2, Option.some.injEq] at h
    have hspells := numberToken_spells hnumber.2 cs
    rwa [h] at hspells
  unfold recognize at h
  split at h
  · next hc =>
    split at h
    · exact leadingKeyword_spells h
    · cases h
      rw [take_takeWhile]
      exact wordTerminal_spells m hc fun d hd => List.mem_takeWhile_imp hd
  · next hc =>
    split at h
    · next hdigit => exact absurd ⟨hc, hdigit⟩ hnumber
    · split at h
      · next hmark =>
        simp only at h
        split at h
        · next hinside =>
          cases h
          obtain ⟨rest, hrest⟩ := dropWhile_ne_eq_cons hinside
          have htake : cs.take ((cs.takeWhile (· ≠ c)).length + 1) =
              cs.takeWhile (· ≠ c) ++ [c] := by
            rw [take_past_takeWhile, hrest]
            rfl
          rw [htake]
          refine ⟨c, cs.takeWhile (· ≠ c), hmark, fun hmem => ?_, rfl⟩
          simpa using List.mem_takeWhile_imp hmem
        · cases h
      · simp only at h
        have htake : cs.head? = some '=' → cs.take 1 = ['='] := by
          intro hd
          obtain ⟨tail, rfl⟩ := List.head?_eq_some_iff.mp hd
          rfl
        -- Each operator or mark, on its own or with an equals sign behind it.
        split at h
        all_goals try split at h
        all_goals cases h
        all_goals simp_all [Terminal.Spells, Terminal.texts]

/-- What is recognised is there. -/
theorem recognize_length_le {m : Mode} {c : Char} {cs : List Char} {k : Terminal} {n : Nat}
    (h : recognize m c cs = some (k, n)) : n ≤ cs.length := by
  by_cases hnumber : ¬isWordStart c = true ∧ c.isDigit = true
  · rw [recognize_digit hnumber.1 hnumber.2, Option.some.injEq] at h
    have hlength := numberToken_length_le cs
    rwa [h] at hlength
  unfold recognize at h
  split at h
  · split at h
    · unfold leadingKeyword? at h
      obtain ⟨x, hf, hx⟩ := Option.map_eq_some_iff.mp h
      cases hx
      have hp : x.1.toList <+: c :: cs := by simpa using List.find?_some hf
      have hlen := hp.length_le
      rw [String.length_toList, List.length_cons] at hlen
      omega
    · cases h
      exact length_takeWhile_le _ _
  · next hc =>
    split at h
    · next hdigit => exact absurd ⟨hc, hdigit⟩ hnumber
    · split at h
      · simp only at h
        split at h
        · cases h
          omega
        · cases h
      · have hdoubled : cs.head? = some '=' → 1 ≤ cs.length := by
          intro hd
          obtain ⟨tail, rfl⟩ := List.head?_eq_some_iff.mp hd
          exact Nat.le_add_left 1 _
        simp only at h
        split at h
        all_goals try split at h
        all_goals cases h
        all_goals first | exact Nat.zero_le _ | skip
        all_goals simp_all

/-! ## Scanning -/

section

variable {m : Mode} {p first : Position} {cs rest : List Char} {c : Char}

theorem scanFrom_end (h : (skip false p cs).2 = []) : scanFrom m p cs = ⟨[], none⟩ := by
  unfold scanFrom
  split
  · rfl
  · next hs =>
    rw [hs] at h
    cases h

theorem scanFrom_blocked (h : skip false p cs = (first, c :: rest))
    (hr : recognize m c rest = none) :
    scanFrom m p cs = ⟨[], some first⟩ := by
  unfold scanFrom
  split
  · next hs =>
    rw [hs] at h
    cases h
  · next hs =>
    rw [hs] at h
    cases h
    rw [hr]

theorem scanFrom_token {k : Terminal} {n : Nat} (h : skip false p cs = (first, c :: rest))
    (hr : recognize m c rest = some (k, n)) :
    scanFrom m p cs =
      ⟨⟨k, c :: rest.take n, ⟨first, first.advance (c :: rest.take n)⟩⟩ ::
          (scanFrom (m.after k) (first.advance (c :: rest.take n)) (rest.drop n)).tokens,
        (scanFrom (m.after k) (first.advance (c :: rest.take n)) (rest.drop n)).blocked⟩ := by
  conv_lhs => unfold scanFrom
  split
  · next hs =>
    rw [hs] at h
    cases h
  · next hs =>
    rw [hs] at h
    cases h
    rw [hr]

/-- What a token and the skipping before it leave is shorter. -/
theorem length_rest_lt {n : Nat} (h : skip false p cs = (first, c :: rest)) :
    (rest.drop n).length < cs.length := by
  have hle := skip_length_le false p cs
  rw [h, List.length_cons] at hle
  rw [List.length_drop]
  omega

end

/-- Pieces that a scan takes one after the other, and the gap that it ends with. -/
inductive Scans : Mode → List Piece → List Char → Prop where
  | done {m : Mode} {last : List Char} (h : Trailing last) : Scans m [] last
  | token {m : Mode} {gap tail : List Char} {c : Char} {k : Terminal} {ps : List Piece}
      {last : List Char} (hg : Gap gap)
      (hr : recognize m c (tail ++ (written ps ++ last)) = some (k, tail.length))
      (rest : Scans (m.after k) ps last) : Scans m (⟨gap, k, c :: tail⟩ :: ps) last

theorem Scans.trailing {m : Mode} {ps : List Piece} {last : List Char} (h : Scans m ps last) :
    Trailing last := by
  induction h with
  | done h => exact h
  | token _ _ _ ih => exact ih

theorem Scans.fits {m : Mode} {ps : List Piece} {last : List Char} (h : Scans m ps last) :
    ∀ x ∈ ps, x.Fits := by
  induction h with
  | done => exact fun x hx => absurd hx List.not_mem_nil
  | token hg hr _ ih =>
    intro x hx
    rcases List.mem_cons.mp hx with rfl | hx
    · have hs := recognize_spells hr
      rw [List.take_left] at hs
      exact ⟨hg, hs⟩
    · exact ih x hx

theorem written_cons (x : Piece) (ps : List Piece) (last : List Char) :
    written (x :: ps) ++ last = x.gap ++ (x.text ++ (written ps ++ last)) := by
  simp only [written, List.flatMap_cons, List.append_assoc]

/-- No token begins like a gap. -/
theorem not_gap_of_recognize {m : Mode} {c : Char} {cs : List Char} {found : Terminal × Nat}
    (h : recognize m c cs = some found) : isGap c = false ∧ c ≠ '#' := by
  have hnone : ∀ d : Char, isGap d = true ∨ d = '#' → recognize m d cs = none := by
    intro d hd
    simp only [isGap, Bool.or_eq_true, decide_eq_true_eq] at hd
    obtain (((rfl | rfl) | rfl) | rfl) | rfl := hd <;> cases m <;> rfl
  constructor
  · cases hc : isGap c with
    | false => rfl
    | true => simp [hnone c (.inl hc)] at h
  · intro hc
    simp [hnone c (.inr hc)] at h

/-- Skipping stops where a token begins. -/
theorem skip_to_token {m : Mode} {gap cs : List Char} {c : Char} {found : Terminal × Nat}
    (hg : Gap gap) (h : recognize m c cs = some found) (p : Position) :
    skip false p (gap ++ c :: cs) = (p.advance gap, c :: cs) := by
  obtain ⟨hblank, hmark⟩ := not_gap_of_recognize h
  rw [skip_of_gap hg, skip, if_neg (by decide), hblank, if_neg (by decide), if_neg hmark]

theorem scanFrom_of_scans {m : Mode} {ps : List Piece} {last : List Char} (h : Scans m ps last)
    (p : Position) : scanFrom m p (written ps ++ last) = ⟨placed p ps, none⟩ := by
  induction h generalizing p with
  | done h => exact scanFrom_end (skip_of_trailing h p)
  | @token m gap tail c k ps last hg hr _ ih =>
    rw [written_cons, List.cons_append, scanFrom_token (skip_to_token hg hr p) hr, List.take_left,
      List.drop_left, ih, placed]

/-- A source that scans to its end is gaps and tokens, each where it stands. -/
theorem scans_of_scanFrom {m : Mode} {p : Position} {cs : List Char}
    (h : (scanFrom m p cs).blocked = none) :
    ∃ pieces last, cs = written pieces ++ last ∧ Scans m pieces last := by
  induction hn : cs.length using Nat.strong_induction_on generalizing m p cs with
  | _ n ih =>
    obtain ⟨gap, hcs, hp, htrailing, hgap⟩ := skip_gap false p cs
    cases hs : (skip false p cs).2 with
    | nil =>
      rw [hs, List.append_nil] at hcs
      subst hcs
      exact ⟨[], _, rfl, .done htrailing⟩
    | cons c rest =>
      have hskip : skip false p cs = (p.advance gap, c :: rest) := Prod.ext hp hs
      cases hr : recognize m c rest with
      | none =>
        rw [scanFrom_blocked hskip hr] at h
        cases h
      | some found =>
        obtain ⟨k, n⟩ := found
        rw [scanFrom_token hskip hr] at h
        obtain ⟨pieces, last, hrest, hscans⟩ := ih _ (hn ▸ length_rest_lt hskip) h rfl
        refine ⟨⟨gap, k, c :: rest.take n⟩ :: pieces, last, ?_, .token ?_ ?_ hscans⟩
        · rw [written_cons, ← hrest, List.cons_append, List.take_append_drop, ← hs]
          exact hcs
        · exact hgap (by rw [hs]; exact List.cons_ne_nil _ _)
        · rw [← hrest, List.take_append_drop, hr, List.length_take,
            Nat.min_eq_left (recognize_length_le hr)]

/-- A source reads exactly if it scans to its end and its tokens make a program. -/
theorem read_eq_ok {source : String} {program : Program} :
    read source = .ok program ↔
      (scan source.toList).blocked = none ∧
        ∃ p, Progress.start.readAll (scan source.toList).tokens = .ok p ∧
          p.finish = some program := by
  have hmap : ∀ {x : Except Position Program},
      x.mapError (SyntaxError.at source.toList) = .ok program ↔ x = .ok program := by
    intro x
    cases x <;> simp [Except.mapError]
  rw [read, hmap, readChars]
  cases hr : Progress.start.readAll (scan source.toList).tokens with
  | error ts => cases ts <;> simp
  | ok p =>
    cases hb : (scan source.toList).blocked with
    | some position => simp
    | none => cases hf : p.finish <;> simp [hf]

/-- A source reads if it is pieces that are scanned, and their tokens make a program. -/
theorem read_of_scans {source : String} {ps : List Piece} {last : List Char}
    (hsource : source.toList = written ps ++ last) (hscans : Scans .line ps last) {p : Progress}
    (hread : Progress.start.readAll (placed .start ps) = .ok p) {program : Program}
    (hfinish : p.finish = some program) : read source = .ok program := by
  refine read_eq_ok.mpr ?_
  rw [scan, hsource, scanFrom_of_scans hscans]
  exact ⟨rfl, p, hread, hfinish⟩

theorem exists_of_isOk {source : String} (h : (read source).isOk = true) :
    ∃ program, read source = .ok program := by
  cases hread : read source with
  | ok program => exact ⟨program, rfl⟩
  | error e =>
    rw [hread] at h
    cases h

theorem exists_of_any {source : String} {f : Program → Bool}
    (h : (read source).toOption.any f = true) :
    ∃ program, read source = .ok program ∧ f program = true := by
  obtain ⟨program, hread⟩ : ∃ program, read source = .ok program := by
    refine exists_of_isOk ?_
    cases hread : read source with
    | ok program => rfl
    | error e => simp [hread, Except.toOption] at h
  rw [hread] at h
  exact ⟨program, hread, h⟩

end Scriptlet.Source
