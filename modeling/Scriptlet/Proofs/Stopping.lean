import Scriptlet.Proofs.Joining
import Scriptlet.Proofs.Reading.Closing
/-!
# Where a source cannot go on

A source that is no program is reported to stop at a place: where the first token stands that the
reading refuses, where a character begins no token, or, if the source ends too early, where its last
token stands. Cutting a text behind a token leaves the tokens before as they are (`recognize_cut`,
`Passes.cut`), so what has been read up to the place can be completed on the next line
(`viable_of_passes`), while what stops the reading there stops it whatever comes on the next line
(`not_read_of_refused`, `not_read_of_blocked`). Main statement: the place is the first one where the
source cannot go on (`read_stops`).
-/

namespace Scriptlet.Source

/-! ## Cutting behind a token -/

theorem takeWhile_cut {p : Char → Bool} {xs ys : List Char}
    (h : ((xs ++ ys).takeWhile p).length ≤ xs.length) :
    (xs ++ ys).takeWhile p = xs.takeWhile p := by
  rw [List.takeWhile_append] at h ⊢
  split at h
  next hall =>
    rw [if_pos hall]
    have hnil : ys.takeWhile p = [] := by
      rw [List.length_append] at h
      exact List.length_eq_zero_iff.mp (by omega)
    rw [hnil, List.append_nil]
    exact ((List.takeWhile_prefix p).eq_of_length hall).symm
  next hall => rw [if_neg hall]

/-- The first element that meets a condition is the first that meets a stronger one, if it does. -/
theorem find?_of_imp {α : Type} {p q : α → Bool} {l : List α} {x : α} (h : l.find? p = some x)
    (hx : q x = true) (hq : ∀ y, q y = true → p y = true) : l.find? q = some x := by
  obtain ⟨-, before, after, rfl, hbefore⟩ := List.find?_eq_some_iff_append.mp h
  refine List.find?_eq_some_iff_append.mpr ⟨hx, before, after, rfl, fun y hy => ?_⟩
  have hp := hbefore y hy
  cases hqy : q y with
  | false => rfl
  | true => simp [hq y hqy] at hp

theorem isPrefixOf_append {word xs : List Char} (h : word.isPrefixOf xs = true) (ys : List Char) :
    word.isPrefixOf (xs ++ ys) = true := by
  rw [List.isPrefixOf_iff_prefix] at h ⊢
  exact h.trans (List.prefix_append xs ys)

theorem leadingKeyword_cut {m : Mode} {c : Char} {xs ys : List Char} {k : Terminal} {n : Nat}
    (h : leadingKeyword? m (c :: (xs ++ ys)) = some (k, n)) (hn : n ≤ xs.length) :
    leadingKeyword? m (c :: xs) = some (k, n) := by
  rw [leadingKeyword?, Option.map_eq_some_iff] at h ⊢
  obtain ⟨x, hx, heq⟩ := h
  refine ⟨x, find?_of_imp hx ?_ fun y hy => isPrefixOf_append hy ys, heq⟩
  have hprefix : x.1.toList <+: (c :: xs) ++ ys := by simpa using List.find?_some hx
  have hlength : x.1.toList.length ≤ (c :: xs).length := by
    cases heq
    rw [String.length_toList, List.length_cons]
    omega
  rw [List.isPrefixOf_iff_prefix]
  exact List.prefix_of_prefix_length_le hprefix (List.prefix_append _ ys) hlength

theorem fractionLength_cut {xs ys : List Char} (h : fractionLength (xs ++ ys) ≤ xs.length) :
    fractionLength (xs ++ ys) = fractionLength xs := by
  cases xs with
  | nil => exact Nat.le_zero.mp h
  | cons d xs =>
    by_cases hd : d = '.'
    · subst hd
      rw [List.cons_append, fractionLength] at h ⊢
      have hplaces : ((xs ++ ys).takeWhile Char.isDigit).length ≤ xs.length := by
        rw [List.length_cons] at h
        split at h <;> omega
      rw [takeWhile_cut hplaces]
      rfl
    · rw [List.cons_append, fractionLength_of_ne hd, fractionLength_of_ne hd]

theorem numberToken_cut {xs ys : List Char} (hn : (numberToken (xs ++ ys)).2 ≤ xs.length) :
    numberToken (xs ++ ys) = numberToken xs := by
  have hwhole : (xs ++ ys).takeWhile Char.isDigit = xs.takeWhile Char.isDigit :=
    takeWhile_cut (Nat.le_of_add_right_le hn)
  have hrest := dropWhile_append_of_takeWhile hwhole
  have hlength := congrArg List.length
    (List.takeWhile_append_dropWhile (p := Char.isDigit) (l := xs))
  rw [List.length_append] at hlength
  have hfraction : fractionLength (xs.dropWhile Char.isDigit ++ ys) =
      fractionLength (xs.dropWhile Char.isDigit) := by
    rw [numberToken, hwhole, hrest] at hn
    exact fractionLength_cut (by omega)
  rw [numberToken, numberToken, hwhole, hrest, hfraction]

/-- What is cut off behind a token changes nothing about it. -/
theorem recognize_cut {m : Mode} {c : Char} {xs ys : List Char} {k : Terminal} {n : Nat}
    (h : recognize m c (xs ++ ys) = some (k, n)) (hn : n ≤ xs.length) :
    recognize m c xs = some (k, n) := by
  by_cases hnumber : ¬isWordStart c = true ∧ c.isDigit = true
  · rw [recognize_digit hnumber.1 hnumber.2, Option.some.injEq] at h ⊢
    rw [← numberToken_cut (by rwa [h])]
    exact h
  unfold recognize at h ⊢
  split at h
  next hc =>
    rw [if_pos hc]
    split at h
    next hm =>
      rw [if_pos hm]
      exact leadingKeyword_cut h hn
    next hm =>
      rw [if_neg hm]
      simp only [Option.some.injEq, Prod.mk.injEq] at h ⊢
      rw [← h.2] at hn
      rwa [takeWhile_cut hn] at h
  next hc =>
    rw [if_neg hc]
    split at h
    next hdigit => exact absurd ⟨hc, hdigit⟩ hnumber
    next hdigit =>
      rw [if_neg hdigit]
      split at h
      next hmark =>
        rw [if_pos hmark]
        simp only at h ⊢
        split at h
        next hinside =>
          cases h
          have hcut : (xs ++ ys).takeWhile (· ≠ c) = xs.takeWhile (· ≠ c) :=
            takeWhile_cut (Nat.le_of_succ_le hn)
          rw [hcut] at hn ⊢
          rw [if_pos (Nat.lt_of_succ_le hn)]
        next => cases h
      next hmark =>
        rw [if_neg hmark]
        cases xs with
        | cons d xs => exact h
        | nil =>
          obtain rfl : n = 0 := Nat.le_zero.mp hn
          simp only at h ⊢
          split at h
          all_goals try split at h
          all_goals cases h
          all_goals simp_all

/-- A character that begins no token begins none if the text behind it is cut off, unless it is a
quotation mark. -/
theorem recognize_eq_none_cut {m : Mode} {c : Char} {xs ys : List Char}
    (h : recognize m c (xs ++ ys) = none) (hmark : ¬ (c = '\x22' ∨ c = '\x27')) :
    recognize m c xs = none := by
  unfold recognize at h ⊢
  split at h
  next hc =>
    rw [if_pos hc]
    split at h
    next hm =>
      rw [if_pos hm]
      rw [leadingKeyword?, Option.map_eq_none_iff, List.find?_eq_none] at h ⊢
      exact fun x hx hprefix => h x hx (isPrefixOf_append hprefix ys)
    next => cases h
  next hc =>
    rw [if_neg hc]
    split at h
    next =>
      simp only at h
      split at h <;> cases h
    next hdigit =>
      rw [if_neg hdigit, if_neg hmark]
      cases xs with
      | cons d xs => exact h
      | nil =>
        simp only at h ⊢
        split at h
        all_goals try cases h
        all_goals simp_all

/-! ## Scanning up to a point -/

/-- Pieces that a scan takes one after the other before it comes to a text, in a mode. -/
inductive Passes : Mode → List Piece → List Char → Mode → Prop where
  | done {m : Mode} {rest : List Char} : Passes m [] rest m
  | token {m m' : Mode} {gap tail : List Char} {c : Char} {k : Terminal} {ps : List Piece}
      {rest : List Char} (hg : Gap gap)
      (hr : recognize m c (tail ++ (written ps ++ rest)) = some (k, tail.length))
      (more : Passes (m.after k) ps rest m') : Passes m (⟨gap, k, c :: tail⟩ :: ps) rest m'

variable {m m' m'' : Mode} {ps qs : List Piece} {rest : List Char}

/-- What has been passed is passed as well if the text behind it is cut off and a line follows. -/
theorem Passes.cut {xs ys : List Char} (h : Passes m ps (xs ++ ys) m') (zs : List Char) :
    Passes m ps (xs ++ '\n' :: zs) m' := by
  generalize htext : xs ++ ys = text at h
  induction h with
  | done => exact .done
  | @token m m' gap tail c k ps text hg hr _ ih =>
    subst htext
    refine .token hg ?_ (ih rfl)
    have hcut : recognize m c (tail ++ (written ps ++ xs)) = some (k, tail.length) := by
      rw [← List.append_assoc, ← List.append_assoc] at hr
      have hlength : tail.length ≤ (tail ++ written ps ++ xs).length := by
        rw [List.append_assoc, List.length_append]
        omega
      rw [← List.append_assoc]
      exact recognize_cut hr hlength
    have hbelow := recognize_below hcut zs
    simpa only [List.append_assoc] using hbelow

/-- Pieces that are passed one after the other, and then pieces up to the end. -/
theorem Passes.scans {last : List Char} (h : Passes m ps (written qs ++ last) m')
    (h' : Scans m' qs last) : Scans m (ps ++ qs) last := by
  generalize htext : written qs ++ last = text at h
  induction h with
  | done => exact h'
  | token hg hr _ ih =>
    subst htext
    rw [List.cons_append]
    refine .token hg ?_ (ih h' rfl)
    rwa [written_append, List.append_assoc]

/-- The first of the pieces that are passed are passed. -/
theorem Passes.of_append (h : Passes m (ps ++ qs) rest m') :
    ∃ m'', Passes m ps (written qs ++ rest) m'' ∧ Passes m'' qs rest m' := by
  induction ps generalizing m with
  | nil => exact ⟨m, .done, h⟩
  | cons x ps ih =>
    rw [List.cons_append] at h
    cases h with
    | token hg hr more =>
      obtain ⟨m'', hps, hqs⟩ := ih more
      refine ⟨m'', .token hg ?_ hps, hqs⟩
      rwa [written_append, List.append_assoc] at hr

/-- A scan gives the tokens of what it passes, and then those of the rest. -/
theorem Passes.scanFrom (h : Passes m ps rest m') (p : Position) :
    scanFrom m p (written ps ++ rest) =
      ⟨placed p ps ++ (Source.scanFrom m' (p.advance (written ps)) rest).tokens,
        (Source.scanFrom m' (p.advance (written ps)) rest).blocked⟩ := by
  induction h generalizing p with
  | done => rfl
  | @token m m' gap tail c k ps rest hg hr _ ih =>
    rw [written_cons, List.cons_append, scanFrom_token (skip_to_token hg hr p) hr, List.take_left,
      List.drop_left, ih, placed, advance_written_cons]
    rfl

/-- A gap, and behind it a character that begins no token. -/
structure Blocks (m : Mode) (gap : List Char) (c : Char) (cs : List Char) : Prop where
  gap : Gap gap
  notBlank : isGap c = false
  notMark : c ≠ '#'
  none : recognize m c cs = none

theorem Blocks.scanFrom {gap cs : List Char} {c : Char} (h : Blocks m gap c cs) (p : Position) :
    scanFrom m p (gap ++ c :: cs) = ⟨[], some (p.advance gap)⟩ := by
  refine scanFrom_blocked ?_ h.none
  rw [skip_of_gap h.gap, skip, if_neg (by decide), h.notBlank, if_neg (by decide), if_neg h.notMark]

/-- Skipping stops at a character that is no blank and begins no comment. -/
theorem skip_stops {comment : Bool} {p first : Position} {cs : List Char} {c : Char}
    (h : skip comment p cs = (first, c :: rest)) : isGap c = false ∧ c ≠ '#' := by
  induction cs generalizing comment p with
  | nil => cases h
  | cons d cs ih =>
    rw [skip] at h
    split at h
    · exact ih h
    · split at h
      · exact ih h
      · split at h
        · exact ih h
        · next hblank hmark =>
          cases h
          exact ⟨by simpa using hblank, hmark⟩

/-- A scan passes pieces up to the end or to a character that begins no token. -/
theorem exists_passes (m : Mode) (cs : List Char) :
    ∃ ps rest m', cs = written ps ++ rest ∧ Passes m ps rest m' ∧
      (Trailing rest ∨ ∃ gap c more, rest = gap ++ c :: more ∧ Blocks m' gap c more) := by
  induction hn : cs.length using Nat.strong_induction_on generalizing m cs with
  | _ n ih =>
    obtain ⟨gap, hcs, hp, htrailing, hgap⟩ := skip_gap false .start cs
    cases hs : (skip false .start cs).2 with
    | nil =>
      rw [hs, List.append_nil] at hcs
      subst hcs
      exact ⟨[], _, m, rfl, .done, .inl htrailing⟩
    | cons c rest =>
      have hskip : skip false .start cs = (Position.start.advance gap, c :: rest) :=
        Prod.ext hp hs
      have hg : Gap gap := hgap (by rw [hs]; exact List.cons_ne_nil _ _)
      rw [hs] at hcs
      cases hr : recognize m c rest with
      | none =>
        obtain ⟨hblank, hmark⟩ := skip_stops hskip
        exact ⟨[], cs, m, rfl, .done, .inr ⟨gap, c, rest, hcs, hg, hblank, hmark, hr⟩⟩
      | some found =>
        obtain ⟨k, n⟩ := found
        obtain ⟨ps, last, m', hrest, hps, hstop⟩ :=
          ih _ (hn ▸ length_rest_lt hskip) (m.after k) (rest.drop n) rfl
        refine ⟨⟨gap, k, c :: rest.take n⟩ :: ps, last, m', ?_, .token hg ?_ hps, hstop⟩
        · rw [written_cons, ← hrest, List.cons_append, List.take_append_drop]
          exact hcs
        · rw [← hrest, List.take_append_drop, hr, List.length_take,
            Nat.min_eq_left (recognize_length_le hr)]

/-! ## Texts that can be gone on with -/

/-- A text that some program begins with. -/
def Viable (cs : List Char) : Prop :=
  ∃ more program, read (String.ofList (cs ++ more)) = .ok program

theorem Viable.of_append {cs ds : List Char} (h : Viable (cs ++ ds)) : Viable cs := by
  obtain ⟨more, program, hread⟩ := h
  exact ⟨ds ++ more, program, by rwa [← List.append_assoc]⟩

theorem scans_behind {gap last : List Char} (hg : Gap gap) (h : Scans m ps last) :
    Scans m (bridge gap ps last).1 (bridge gap ps last).2 := by
  cases h with
  | done h => exact .done (h.behind hg)
  | token hg' hr rest => exact .token (hg.append hg') hr rest

/-- What has been read up to a gap can be gone on with on the next line. -/
theorem viable_of_passes {xs ys : List Char} (h : Passes .line ps (xs ++ ys) m)
    (hx : Trailing xs) {q : Progress} (hq : Progress.start.readAll (placed .start ps) = .ok q) :
    Viable (written ps ++ (xs ++ ['\n'])) := by
  obtain ⟨qs, hqs, r, hr, hfinish⟩ := Progress.closes q
    ((Position.start.advance (written ps)).advance (xs ++ ['\n']))
  obtain ⟨program, hprogram⟩ := Option.isSome_iff_exists.mp hfinish
  have htext : written (bridge (xs ++ ['\n']) qs ['\n']).1 ++ (bridge (xs ++ ['\n']) qs ['\n']).2 =
      xs ++ '\n' :: (written qs ++ ['\n']) := by
    rw [written_bridge, List.append_assoc, List.singleton_append]
  have hscans : Scans .line (ps ++ (bridge (xs ++ ['\n']) qs ['\n']).1)
      (bridge (xs ++ ['\n']) qs ['\n']).2 := by
    have hpasses := h.cut (written qs ++ ['\n'])
    rw [← htext] at hpasses
    exact hpasses.scans (scans_behind hx.below (scans_closers hqs m))
  have hsource : (String.ofList (written ps ++ (xs ++ ['\n']) ++ (written qs ++ ['\n']))).toList =
      written (ps ++ (bridge (xs ++ ['\n']) qs ['\n']).1) ++
        (bridge (xs ++ ['\n']) qs ['\n']).2 := by
    rw [String.toList_ofList, written_append, List.append_assoc (written ps) (written _), htext]
    simp only [List.append_assoc, List.singleton_append]
  refine ⟨written qs ++ ['\n'], program, read_of_scans hsource hscans ?_ hprogram⟩
  rw [placed_append, placed_bridge]
  exact (Progress.readAll_append _ hq).trans hr

/-! ## Texts that cannot be gone on with -/

theorem readAll_error {p : Progress} {ts us : List Token} (h : p.readAll ts = .error us) :
    ∃ before t after q, ts = before ++ t :: after ∧ us = t :: after ∧
      p.readAll before = .ok q ∧ q.step t = none := by
  induction ts generalizing p with
  | nil => cases h
  | cons t ts ih =>
    rw [Progress.readAll] at h
    cases hs : p.step t with
    | none =>
      rw [hs] at h
      cases h
      exact ⟨[], t, ts, p, rfl, rfl, rfl, hs⟩
    | some next =>
      rw [hs] at h
      obtain ⟨before, u, after, q, rfl, rfl, hbefore, hu⟩ := ih h
      refine ⟨t :: before, u, after, q, rfl, rfl, ?_, hu⟩
      rw [Progress.readAll, hs]
      exact hbefore

theorem readAll_append_error {p : Progress} {ts us : List Token} (h : p.readAll ts = .error us)
    (vs : List Token) : p.readAll (ts ++ vs) = .error (us ++ vs) := by
  obtain ⟨before, t, after, q, rfl, rfl, hbefore, ht⟩ := readAll_error h
  rw [List.append_assoc, Progress.readAll_append _ hbefore, List.cons_append, Progress.readAll, ht]

theorem not_read_of_refused {xs ys : List Char} (h : Passes .line ps (xs ++ ys) m)
    {us : List Token} (hread : Progress.start.readAll (placed .start ps) = .error us)
    (more : List Char) (program : Program) :
    read (String.ofList (written ps ++ (xs ++ '\n' :: more))) ≠ .ok program := by
  intro hok
  obtain ⟨-, q, hq, -⟩ := read_eq_ok.mp hok
  rw [String.toList_ofList, scan, (h.cut more).scanFrom, readAll_append_error hread] at hq
  cases hq

/-- A quotation mark begins no token only if it is not closed. -/
theorem not_mem_of_recognize {c : Char} {cs : List Char} (h : recognize m c cs = none)
    (hmark : c = '\x22' ∨ c = '\x27') : c ∉ cs := by
  intro hmem
  have hstart : isWordStart c = false ∧ c.isDigit = false := by
    obtain rfl | rfl := hmark <;> decide
  rw [recognize, hstart.1, hstart.2, if_neg (by decide), if_neg (by decide), if_pos hmark] at h
  simp only at h
  split at h
  next => cases h
  next hinside =>
    have hall : cs.takeWhile (· ≠ c) = cs :=
      (List.takeWhile_prefix _).eq_of_length_le (Nat.le_of_not_lt hinside)
    rw [← hall] at hmem
    simpa using List.mem_takeWhile_imp hmem

theorem not_read_of_blocked {gap xs ys : List Char} {c : Char}
    (h : Passes .line ps (gap ++ c :: (xs ++ ys)) m) (hb : Blocks m gap c (xs ++ ys))
    (hmark : ¬ (c = '\x22' ∨ c = '\x27')) (more : List Char) (program : Program) :
    read (String.ofList (written ps ++ (gap ++ c :: (xs ++ '\n' :: more)))) ≠ .ok program := by
  intro hok
  rw [← List.cons_append, ← List.append_assoc] at h
  have hpasses := h.cut more
  have hblocks : Blocks m gap c (xs ++ '\n' :: more) := by
    refine ⟨hb.gap, hb.notBlank, hb.notMark, ?_⟩
    rw [recognize_newline fun hquote => absurd hquote hmark]
    exact recognize_eq_none_cut hb.none hmark
  obtain ⟨hblocked, -⟩ := read_eq_ok.mp hok
  rw [List.append_assoc, List.cons_append] at hpasses
  rw [String.toList_ofList, scan, hpasses.scanFrom, hblocks.scanFrom] at hblocked
  cases hblocked

/-! ## Errors -/

/-- All tokens of a source are taken, and none is unreadable: if this is no program, then because
the source ends too early. -/
def Exhausted (cs : List Char) : Prop :=
  (scan cs).blocked = none ∧ ∃ q, Progress.start.readAll (scan cs).tokens = .ok q

/-- The text of the first token that is refused, or the character that begins no token if all those
before it are taken. -/
inductive Offends (cs : List Char) (p : Position) : List Char → Prop where
  | refused {before after : List Token} {t : Token} {q : Progress}
      (htokens : (scan cs).tokens = before ++ t :: after)
      (hq : Progress.start.readAll before = .ok q) (ht : q.step t = none) (hp : t.span.first = p) :
      Offends cs p t.text
  | unreadable {q : Progress} {c : Char} {rest : List Char}
      (hq : Progress.start.readAll (scan cs).tokens = .ok q) (hp : (scan cs).blocked = some p)
      (hc : cs.drop p.offset = c :: rest) : Offends cs p [c]

/-- A text that begins with a quotation mark, and does not hold it again. -/
def Unclosed (cs : List Char) : Prop :=
  ∃ c rest, cs = c :: rest ∧ (c = '\x22' ∨ c = '\x27') ∧ c ∉ rest

/-- What the position of an error says of a source: the text before it can be gone on with, and the
text up to what offends there cannot. -/
structure Stops (cs : List Char) (p : Position) : Prop where
  /-- The line and the column are those of the offset. -/
  position : p = .behind (cs.take p.offset)
  viable : Viable (cs.take p.offset)
  /-- A source that ends too early can be gone on with, and the position is that of
  its last token. -/
  exhausted (h : Exhausted cs) : Viable (cs ++ ['\n']) ∧
    (∀ t, (scan cs).tokens.getLast? = some t → p = t.span.first) ∧
    ((scan cs).tokens = [] → p = ⟨0, 1, 1⟩)
  /-- Otherwise, unless a quotation mark is not closed, no program begins with the text up to what
  offends, or beyond it, with a newline behind. -/
  offending (h : ¬ Exhausted cs) : ∃ text, Offends cs p text ∧ text <+: cs.drop p.offset ∧
    (¬ Unclosed (cs.drop p.offset) → ∀ w, text <+: w → w <+: cs.drop p.offset →
      ∀ more program,
        read (String.ofList (cs.take p.offset ++ w ++ '\n' :: more)) ≠ .ok program)

theorem scan_cases (cs : List Char) :
    ∃ ps rest m, cs = written ps ++ rest ∧ Passes .line ps rest m ∧
      (Trailing rest ∧ scan cs = ⟨placed .start ps, none⟩ ∨
        ∃ gap c more, rest = gap ++ c :: more ∧ Blocks m gap c more ∧
          scan cs = ⟨placed .start ps, some (.behind (written ps ++ gap))⟩) := by
  obtain ⟨ps, rest, m, rfl, hpasses, hstop⟩ := exists_passes .line cs
  refine ⟨ps, rest, m, rfl, hpasses, ?_⟩
  rw [scan, hpasses.scanFrom]
  obtain htrailing | ⟨gap, c, more, rfl, hblocks⟩ := hstop
  · refine .inl ⟨htrailing, ?_⟩
    rw [scanFrom_end (skip_of_trailing htrailing _), List.append_nil]
  · refine .inr ⟨gap, c, more, rfl, hblocks, ?_⟩
    rw [hblocks.scanFrom, List.append_nil, ← advance_start, Position.advance_append]

theorem split_of_position {p : Position} {before : List Char} (behind : List Char)
    (hp : p = .behind before) :
    (before ++ behind).take p.offset = before ∧ (before ++ behind).drop p.offset = behind := by
  subst hp
  exact ⟨List.take_left, List.drop_left⟩

theorem viable_before {x : Piece} (h : Passes .line (ps ++ x :: qs) rest m) {q : Progress}
    (hq : Progress.start.readAll (placed .start ps) = .ok q) : Viable (written ps ++ x.gap) := by
  obtain ⟨m', hps, hqs⟩ := h.of_append
  rw [written_cons] at hps
  cases hqs with
  | token hg hr _ =>
    have hviable := viable_of_passes hps (.gap hg) hq
    rw [← List.append_assoc] at hviable
    exact hviable.of_append

/-- A source is refused at its first token that the reading does not take. -/
theorem stops_refused {cs : List Char} (hpasses : Passes .line ps rest m)
    (hcs : cs = written ps ++ rest) (htokens : (scan cs).tokens = placed .start ps)
    {t : Token} {us : List Token}
    (h : Progress.start.readAll (placed .start ps) = .error (t :: us)) :
    Stops cs t.span.first := by
  obtain ⟨before, u, after, q, hplaced, heq, hbefore, hstep⟩ := readAll_error h
  obtain ⟨rfl, rfl⟩ := List.cons.inj heq
  obtain ⟨qs, x, rs, rfl, rfl, ht⟩ := exists_of_placed hplaced
  have ht' : [t] = placed (Position.start.advance (written qs)) [x] :=
    congrArg (List.take 1) ht
  have hsnoc : placed .start (qs ++ [x]) = placed .start qs ++ [t] := by rw [placed_append, ht']
  have hread : Progress.start.readAll (placed .start (qs ++ [x])) = .error [t] := by
    rw [hsnoc, Progress.readAll_append _ hbefore, Progress.readAll, hstep]
  obtain rfl := List.singleton_inj.mp ht'
  have hfirst : (Position.start.advance (written qs)).advance x.gap =
      .behind (written qs ++ x.gap) := by
    rw [← advance_start, Position.advance_append]
  have hsplit : cs = (written qs ++ x.gap) ++ (x.text ++ (written rs ++ rest)) := by
    rw [hcs, written_append, List.append_assoc, written_cons, List.append_assoc]
  obtain ⟨htake, hdrop⟩ := split_of_position (x.text ++ (written rs ++ rest)) hfirst
  rw [← hsplit] at htake hdrop
  refine ⟨by rw [htake, hfirst], ?_, fun hend => ?_,
    fun _ => ⟨x.text, ?_, ?_, fun _ w hw hbehind => ?_⟩⟩
  · rw [htake]
    exact viable_before hpasses hbefore
  · obtain ⟨-, r, hr⟩ := hend
    rw [htokens, h] at hr
    cases hr
  · exact .refused (htokens.trans hplaced) hbefore hstep rfl
  · rw [hdrop]
    exact List.prefix_append _ _
  · rw [htake]
    rw [hdrop] at hbehind
    obtain ⟨a, rfl⟩ := hw
    obtain ⟨b, hb⟩ := (List.prefix_append_right_inj x.text).mp hbehind
    have happend : qs ++ x :: rs = (qs ++ [x]) ++ rs := by simp
    rw [happend] at hpasses
    obtain ⟨m', hsnoc', -⟩ := hpasses.of_append
    rw [← hb] at hsnoc'
    intro more program
    have hnot := not_read_of_refused hsnoc' hread more program
    rw [written_append] at hnot
    simpa [written] using hnot

/-- A source stops at the first character that begins no token, if what stands before
it is taken. -/
theorem stops_blocked {cs gap more : List Char} {c : Char}
    (hpasses : Passes .line ps (gap ++ c :: more) m) (hcs : cs = written ps ++ (gap ++ c :: more))
    (hblocks : Blocks m gap c more)
    (hscan : scan cs = ⟨placed .start ps, some (.behind (written ps ++ gap))⟩) {q : Progress}
    (hq : Progress.start.readAll (placed .start ps) = .ok q) :
    Stops cs (.behind (written ps ++ gap)) := by
  have hsplit : cs = (written ps ++ gap) ++ c :: more := by rw [hcs, List.append_assoc]
  obtain ⟨htake, hdrop⟩ := split_of_position (c :: more)
    (rfl : Position.behind (written ps ++ gap) = _)
  rw [← hsplit] at htake hdrop
  refine ⟨by rw [htake], ?_, fun hend => ?_, fun _ => ⟨[c], ?_, ?_, fun hclosed w hw hbehind => ?_⟩⟩
  · rw [htake]
    have hviable := viable_of_passes hpasses (.gap hblocks.gap) hq
    rw [← List.append_assoc] at hviable
    exact hviable.of_append
  · have hblocked := hend.1
    rw [hscan] at hblocked
    cases hblocked
  · exact .unreadable (by rw [hscan]; exact hq) (by rw [hscan]) hdrop
  · rw [hdrop]
    exact ⟨more, rfl⟩
  · rw [htake]
    rw [hdrop] at hbehind hclosed
    obtain ⟨a, rfl⟩ := hw
    obtain ⟨b, hb⟩ := hbehind
    obtain ⟨-, rfl⟩ := List.cons.inj hb
    have hmark : ¬ (c = '\x22' ∨ c = '\x27') := fun hmark =>
      hclosed ⟨c, _, rfl, hmark, not_mem_of_recognize hblocks.none hmark⟩
    intro more program
    have hnot := not_read_of_blocked hpasses hblocks hmark more program
    simpa using hnot

theorem exists_of_readAll_append {p q : Progress} {ts us : List Token}
    (h : p.readAll (ts ++ us) = .ok q) : ∃ r, p.readAll ts = .ok r := by
  cases hr : p.readAll ts with
  | ok r => exact ⟨r, rfl⟩
  | error vs =>
    rw [readAll_append_error hr] at h
    cases h

/-- A source that ends too early stops at its last token. -/
theorem stops_exhausted {cs : List Char} (hpasses : Passes .line ps rest m)
    (hcs : cs = written ps ++ rest) (htrailing : Trailing rest)
    (hscan : scan cs = ⟨placed .start ps, none⟩) {q : Progress}
    (hq : Progress.start.readAll (placed .start ps) = .ok q) :
    Stops cs (endPosition (scan cs).tokens) := by
  have hexhausted : Exhausted cs := by
    rw [Exhausted, hscan]
    exact ⟨rfl, q, hq⟩
  have hlast : (∀ t, (scan cs).tokens.getLast? = some t →
        endPosition (scan cs).tokens = t.span.first) ∧
      ((scan cs).tokens = [] → endPosition (scan cs).tokens = ⟨0, 1, 1⟩) := by
    rw [endPosition]
    exact ⟨fun t ht => by rw [ht], fun hnil => by rw [hnil]; rfl⟩
  obtain ⟨before, behind, hsplit, hposition, hviable⟩ : ∃ before behind, cs = before ++ behind ∧
      endPosition (scan cs).tokens = .behind before ∧ Viable before := by
    rcases List.eq_nil_or_concat ps with rfl | ⟨qs, x, rfl⟩
    · have hviable : Viable (written [] ++ ([] ++ ['\n'])) :=
        viable_of_passes hpasses (.gap .nil) hq
      exact ⟨[], cs, rfl, hlast.2 (by rw [hscan]; rfl), hviable.of_append⟩
    · rw [List.concat_eq_append] at hpasses hcs hq hscan
      rw [placed_append] at hq hscan
      obtain ⟨r, hr⟩ := exists_of_readAll_append hq
      refine ⟨written qs ++ x.gap, x.text ++ rest, ?_, ?_, viable_before hpasses hr⟩
      · rw [hcs, written_append, List.append_assoc, written_cons]
        simp [written]
      · obtain ⟨t, ht, hfirst⟩ : ∃ t, placed (Position.start.advance (written qs)) [x] = [t] ∧
            t.span.first = (Position.start.advance (written qs)).advance x.gap := ⟨_, rfl, rfl⟩
        have hgetLast : (scan cs).tokens.getLast? = some t := by
          rw [hscan, ht, List.getLast?_concat]
        rw [hlast.1 t hgetLast, hfirst, ← advance_start, Position.advance_append]
  obtain ⟨htake, -⟩ := split_of_position behind hposition
  rw [← hsplit] at htake
  refine ⟨by rw [htake, hposition], by rwa [htake], fun _ => ⟨?_, hlast⟩,
    fun hnot => absurd hexhausted hnot⟩
  have hviable : Viable (written ps ++ (rest ++ ['\n'])) := by
    rw [← List.append_nil rest] at hpasses
    exact viable_of_passes hpasses htrailing hq
  rwa [hcs, List.append_assoc]

/-- The place where a source is reported not to go on is the first one where it cannot. -/
theorem read_stops {source : String} {e : SyntaxError} (h : read source = .error e) :
    Stops source.toList e.position := by
  obtain ⟨ps, rest, m, hcs, hpasses, hstop⟩ := scan_cases source.toList
  have hread : readChars source.toList = .error e.position := by
    rw [read] at h
    cases hr : readChars source.toList with
    | ok program =>
      rw [hr] at h
      cases h
    | error p =>
      rw [hr] at h
      cases h
      rfl
  simp only [readChars] at hread
  have htokens : (scan source.toList).tokens = placed .start ps := by
    obtain ⟨-, hscan⟩ | ⟨_, _, _, -, -, hscan⟩ := hstop <;> rw [hscan]
  cases hq : Progress.start.readAll (scan source.toList).tokens with
  | error us =>
    obtain ⟨_, t, after, _, -, rfl, -, -⟩ := readAll_error hq
    rw [hq] at hread
    rw [htokens] at hq
    rw [← Except.error.inj hread]
    exact stops_refused hpasses hcs htokens hq
  | ok q =>
    rw [hq] at hread
    rw [htokens] at hq
    obtain ⟨htrailing, hscan⟩ | ⟨gap, c, more, rfl, hblocks, hscan⟩ := hstop
    · rw [hscan] at hread
      simp only at hread
      split at hread
      next heq => cases heq
      next => cases hread
      next =>
        rw [← Except.error.inj hread, ← htokens]
        exact stops_exhausted hpasses hcs htrailing hscan hq
    · rw [hscan] at hread
      rw [← Except.error.inj hread]
      exact stops_blocked hpasses hcs hblocks hscan hq

/-- A brace where an operand has to follow. -/
theorem read_stops_brace :
    let source := "x = 1\nif x > 0 \x7b y = \x7d # done"
    ∃ e, read source = .error e ∧ e.position = ⟨21, 2, 16⟩ ∧ Stops source.toList e.position := by
  intro source
  have hposition : ((read source).mapError SyntaxError.position).map (fun _ => ()) =
      .error ⟨21, 2, 16⟩ := by
    decide +kernel
  rcases hread : read source with e | program
  · rw [hread] at hposition
    exact ⟨e, rfl, Except.error.inj hposition, read_stops hread⟩
  · rw [hread] at hposition
    cases hposition

end Scriptlet.Source
