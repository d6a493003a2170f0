import Scriptlet.Proofs.Joining
import Scriptlet.Shell.Braces
/-!
# Nesting

Counting braces and counting the tokens that are braces come to the same, wherever no string is
open. A program closes the blocks it opens, as the balance of each production shows
(`productions_balanced`, `nesting_of_derives`). Main statements: the braces of a text that is made
of gaps and tokens are those of its tokens (`braceBalance_written`), and a cut of a source falls in
one of its gaps or in one of its tokens, so the tokens that begin before it are those of the pieces
in front (`cut_of_read`, and `newline_of_read` for a newline that no token holds).
-/

namespace Scriptlet

open Source

/-- The number of blocks that a token opens. -/
def Source.Terminal.nesting : Terminal → Int
  | .leftBrace => 1
  | .rightBrace => -1
  | _ => 0

def nesting : List Terminal → Int
  | [] => 0
  | k :: ks => k.nesting + nesting ks

theorem nesting_append (ks ls : List Terminal) : nesting (ks ++ ls) = nesting ks + nesting ls := by
  induction ks with
  | nil => exact (Int.zero_add _).symm
  | cons k ks ih => rw [List.cons_append, nesting, nesting, ih, Int.add_assoc]

/-! ## Derivations -/

/-- The blocks that a phrase opens and does not close, if that is the same for all it may be. -/
def Source.Phrase.nesting : Phrase → Option Int
  | .terminal k => some k.nesting
  | .rule _ | .empty => some 0
  | .seq a b => a.nesting.bind fun x => b.nesting.map (x + ·)
  | .either a b => if a.nesting = b.nesting then a.nesting else none
  | .many a => if a.nesting = some 0 then some 0 else none

theorem productions_balanced (r : Rule) : ∀ p ∈ r.productions, p.phrase.nesting = some 0 := by
  cases r <;> decide

theorem nesting_of_derives {a : Phrase} {ts : List Token} {ns : List Node} (h : Derives a ts ns)
    {d : Int} (hd : a.nesting = some d) : nesting (terminals ts) = d := by
  induction h generalizing d with
  | @terminal t _ =>
    obtain rfl := Option.some.inj hd
    exact Int.add_zero _
  | rule mem _ ih =>
    rw [ih (productions_balanced _ _ mem)]
    exact Option.some.inj hd
  | empty => exact Option.some.inj hd
  | seq _ _ iha ihb =>
    obtain ⟨x, hx, hsum⟩ := Option.bind_eq_some_iff.mp hd
    obtain ⟨y, hy, rfl⟩ := Option.map_eq_some_iff.mp hsum
    rw [terminals, List.map_append, nesting_append]
    exact congrArg₂ _ (iha hx) (ihb hy)
  | left _ ih =>
    rw [Phrase.nesting] at hd
    split at hd
    · exact ih hd
    · cases hd
  | right _ ih =>
    rw [Phrase.nesting] at hd
    split at hd
    next hsame => exact ih (hsame ▸ hd)
    next => cases hd
  | none =>
    rw [Phrase.nesting] at hd
    split at hd
    · exact Option.some.inj hd
    · cases hd
  | more _ _ ih ihrest =>
    have hrest := ihrest hd
    rw [Phrase.nesting] at hd
    split at hd
    next hzero =>
      rw [terminals, List.map_append, nesting_append]
      have hfirst := ih hzero
      have hd := Option.some.inj hd
      rw [terminals] at hfirst hrest
      omega
    next => cases hd

/-! ## Texts -/

/-- A character that is nothing to whoever counts braces in a line. -/
def isPlain (c : Char) : Bool := c ∉ ['\x22', '\x27', '#', '\x7b', '\x7d', '\n']

theorem plain_of_isWordChar {c : Char} (h : isWordChar c = true) : isPlain c = true := by
  by_contra hc
  simp only [isPlain, decide_not, Bool.not_eq_eq_eq_not, Bool.not_true, decide_eq_false_iff_not,
    not_not, List.mem_cons, List.not_mem_nil, or_false] at hc
  obtain rfl | rfl | rfl | rfl | rfl | rfl := hc <;> exact absurd h (by decide)

theorem plain_texts (k : Terminal) (h : k.nesting = 0) :
    ∀ w ∈ k.texts, w.toList.all isPlain = true := by
  cases k <;> first | exact absurd h (by decide) | decide

/-- The texts of all terminals are plain but for strings and braces. -/
theorem plain_of_spells {k : Terminal} {cs : List Char} (hs : k.Spells cs) (hk : k ≠ .string)
    (h : k.nesting = 0) : ∀ c ∈ cs, isPlain c = true :=
  forall_of_spells hs hk (fun _ => plain_of_isWordChar) rfl (plain_texts k h)

theorem not_newline_of_spells {k : Terminal} {cs : List Char} (hs : k.Spells cs)
    (hk : k ≠ .string) : '\n' ∉ cs := by
  have htexts : ∀ w ∈ k.texts, w.toList.all (· ≠ '\n') = true := by cases k <;> decide
  have hall := forall_of_spells (P := (· ≠ '\n')) hs hk (fun c hc => ?_) rfl htexts
  · exact fun hmem => absurd (hall _ hmem) (by decide)
  · rw [decide_eq_true_eq]
    rintro rfl
    exact absurd hc (by decide)

/-! ## Cuts -/

theorem trailing_of_gap_append {cs ds : List Char} (h : Gap (cs ++ ds)) : Trailing cs := by
  generalize hxs : cs ++ ds = xs at h
  induction h generalizing cs with
  | nil =>
    obtain ⟨rfl, -⟩ := List.append_eq_nil_iff.mp hxs
    exact .gap .nil
  | blank hc _ ih =>
    rcases List.append_eq_cons_iff.mp hxs with ⟨rfl, -⟩ | ⟨cs', rfl, h'⟩
    · exact .gap .nil
    · exact (ih h'.symm).blank hc
  | @comment text rest ht _ ih =>
    rcases List.append_eq_cons_iff.mp hxs with ⟨rfl, -⟩ | ⟨cs', rfl, h'⟩
    · exact .gap .nil
    rcases List.append_eq_append_iff.mp h' with ⟨xs, rfl, hrest⟩ | ⟨xs, rfl, -⟩
    · rcases List.cons_eq_append_iff.mp hrest with ⟨rfl, -⟩ | ⟨ys, rfl, hys⟩
      · rw [List.append_nil]
        exact @Trailing.comment [] text .nil ht
      · have hcomment : Gap ('#' :: (text ++ ['\n'])) := .comment ht .nil
        have hbehind := (ih hys.symm).behind hcomment
        simpa only [List.cons_append, List.append_assoc, List.nil_append] using hbehind
    · exact @Trailing.comment [] cs' .nil fun hmem => ht (List.mem_append_left xs hmem)

theorem trailing_of_append {cs ds : List Char} (h : Trailing (cs ++ ds)) : Trailing cs := by
  generalize hxs : cs ++ ds = xs at h
  cases h with
  | gap h =>
    subst hxs
    exact trailing_of_gap_append h
  | @comment gap text h ht =>
    rcases List.append_eq_append_iff.mp hxs with ⟨ys, rfl, hys⟩ | ⟨ys, rfl, hys⟩
    · exact trailing_of_gap_append h
    · rcases List.cons_eq_append_iff.mp hys with ⟨rfl, -⟩ | ⟨zs, rfl, rfl⟩
      · rw [List.append_nil]
        exact .gap h
      · exact .comment h fun hmem => ht (List.mem_append_left ds hmem)

/-- A gap and a token with a text behind them are cut in the gap, in the token or behind it. -/
theorem cut_piece {x : Piece} {ys before after : List Char}
    (h : x.gap ++ (x.text ++ ys) = before ++ after) :
    (∃ rest, x.gap = before ++ rest) ∨
      (∃ text rest, before = x.gap ++ text ∧ x.text = text ++ rest ∧ text ≠ [] ∧ rest ≠ [] ∧
        rest <+: after) ∨
      ∃ rest, before = x.gap ++ (x.text ++ rest) ∧ ys = rest ++ after := by
  rcases List.append_eq_append_iff.mp h with ⟨text, rfl, htext⟩ | ⟨rest, hgap, -⟩
  · rcases List.append_eq_append_iff.mp htext with ⟨rest, rfl, hys⟩ | ⟨rest, hsplit, hafter⟩
    · exact .inr (.inr ⟨rest, rfl, hys⟩)
    · by_cases hnone : text = []
      · subst hnone
        exact .inl ⟨[], by simp⟩
      · by_cases hall : rest = []
        · subst hall
          rw [List.append_nil] at hsplit
          exact .inr (.inr ⟨[], by rw [hsplit, List.append_nil], hafter.symm⟩)
        · exact .inr (.inl ⟨text, rest, rfl, hsplit, hnone, hall, hafter ▸ List.prefix_append _ _⟩)
  · exact .inl ⟨rest, hgap⟩

/-- A text of gaps and tokens is cut in a gap, or in a token that goes on behind the cut. -/
theorem cut_written {ps : List Piece} {last before after : List Char}
    (hgaps : ∀ x ∈ ps, Gap x.gap) (hlast : Trailing last)
    (h : written ps ++ last = before ++ after) :
    (∃ qs gap rs, ps = qs ++ rs ∧ before = written qs ++ gap ∧ Trailing gap ∧
        ∀ x ∈ rs.head?, gap.length ≤ x.gap.length) ∨
      ∃ qs x rs text rest, ps = qs ++ x :: rs ∧ before = written qs ++ (x.gap ++ text) ∧
        x.text = text ++ rest ∧ text ≠ [] ∧ rest ≠ [] ∧ rest <+: after := by
  induction ps generalizing before with
  | nil =>
    change last = _ at h
    subst h
    exact .inl ⟨[], before, [], rfl, rfl, trailing_of_append hlast, nofun⟩
  | cons x ps ih =>
    obtain ⟨hgap, hgaps⟩ := List.forall_mem_cons.mp hgaps
    rw [written_cons] at h
    rcases cut_piece h with ⟨rest, hrest⟩ | ⟨text, rest, rfl, htext⟩ | ⟨ys, rfl, hys⟩
    · refine .inl ⟨[], before, x :: ps, rfl, rfl, ?_, fun y hy => ?_⟩
      · rw [hrest] at hgap
        exact trailing_of_gap_append hgap
      · obtain rfl := Option.some.inj hy
        rw [hrest, List.length_append]
        omega
    · exact .inr ⟨[], x, ps, text, rest, rfl, rfl, htext⟩
    · rcases ih hgaps hys with ⟨qs, gap, rs, rfl, rfl, hcut⟩ |
        ⟨qs, y, rs, text, rest, rfl, rfl, hcut⟩
      · exact .inl ⟨x :: qs, gap, rs, rfl, (written_cons x qs gap).symm, hcut⟩
      · exact .inr ⟨x :: qs, y, rs, text, rest, rfl, (written_cons x qs _).symm, hcut⟩

def openBlocks (source : String) (offset : Nat) : Int :=
  nesting (terminals ((tokensOf source).filter (·.span.first.offset < offset)))

theorem placed_before {ps : List Piece} (hf : ∀ x ∈ ps, x.Fits) (p : Position) :
    ∀ t ∈ placed p ps, t.span.first.offset < p.offset + (written ps).length := by
  induction ps generalizing p with
  | nil => exact fun t ht => absurd ht List.not_mem_nil
  | cons x ps ih =>
    obtain ⟨hx, hps⟩ := List.forall_mem_cons.mp hf
    have hlen := List.length_pos_iff.mpr (spells_ne_nil hx.2)
    have hwritten : (written (x :: ps)).length =
        x.gap.length + x.text.length + (written ps).length := by
      simp only [written, List.flatMap_cons, List.length_append]
    rw [placed, hwritten]
    refine List.forall_mem_cons.mpr ⟨?_, fun t ht => ?_⟩
    · rw [Position.advance_offset]
      omega
    · have hlater := ih hps _ t ht
      rw [Position.advance_offset, Position.advance_offset] at hlater
      omega

theorem placed_behind {ps : List Piece} (hf : ∀ x ∈ ps, x.Fits) {p : Position} {reach : Nat}
    (hreach : ∀ x ∈ ps.head?, reach ≤ x.gap.length) :
    ∀ t ∈ placed p ps, p.offset + reach ≤ t.span.first.offset := by
  cases ps with
  | nil => exact fun t ht => absurd ht List.not_mem_nil
  | cons x ps =>
    have hx := hreach x rfl
    obtain ⟨-, hps⟩ := List.forall_mem_cons.mp hf
    rw [placed]
    refine List.forall_mem_cons.mpr ⟨?_, fun t ht => ?_⟩
    · rw [Position.advance_offset]
      omega
    · have hlater := (placed_inOrder hps _).2 t ht
      rw [Position.advance_offset, Position.advance_offset] at hlater
      omega

def tokensBefore (source : String) (offset : Nat) : List Token :=
  (tokensOf source).filter (·.span.first.offset < offset)

theorem openBlocks_eq (source : String) (offset : Nat) :
    openBlocks source offset = nesting (terminals (tokensBefore source offset)) := rfl

/-- The tokens of the pieces in front of an offset are those that begin before it. -/
theorem tokensBefore_eq {source : String} {qs rs : List Piece} {offset : Nat}
    (htokens : tokensOf source = placed .start (qs ++ rs))
    (hqs : ∀ t ∈ placed .start qs, t.span.first.offset < offset)
    (hrs : ∀ t ∈ placed (Position.start.advance (written qs)) rs, offset ≤ t.span.first.offset) :
    tokensBefore source offset = placed .start qs := by
  have hbefore : (placed .start qs).filter (·.span.first.offset < offset) = placed .start qs :=
    List.filter_eq_self.mpr fun t ht => decide_eq_true (hqs t ht)
  have hbehind : (placed (Position.start.advance (written qs)) rs).filter
      (·.span.first.offset < offset) = [] :=
    List.filter_eq_nil_iff.mpr fun t ht => by simpa using hrs t ht
  rw [tokensBefore, htokens, placed_append, List.filter_append, hbefore, hbehind, List.append_nil]

/-- Behind a part of the gap that follows some tokens, these tokens have begun. -/
theorem tokensBefore_of_gap {source : String} {qs rs : List Piece} {gap : List Char}
    (htokens : tokensOf source = placed .start (qs ++ rs)) (hqs : ∀ x ∈ qs, x.Fits)
    (hrs : ∀ x ∈ rs, x.Fits) (hnext : ∀ x ∈ rs.head?, gap.length ≤ x.gap.length) :
    tokensBefore source (written qs ++ gap).length = placed .start qs := by
  refine tokensBefore_eq htokens (fun t ht => ?_) fun t ht => ?_
  · have hlt := placed_before hqs .start t ht
    change _ < 0 + _ at hlt
    rw [List.length_append]
    omega
  · have hle := placed_behind hrs hnext t ht
    rw [Position.advance_offset] at hle
    change 0 + _ + _ ≤ _ at hle
    rwa [List.length_append, ← Nat.zero_add (written qs).length]

/-- Behind a part of a token, that token has begun too. -/
theorem tokensBefore_of_token {source : String} {qs rs : List Piece} {x : Piece}
    {text rest : List Char} (htokens : tokensOf source = placed .start (qs ++ [x] ++ rs))
    (hqs : ∀ y ∈ qs, y.Fits) (hrs : ∀ y ∈ rs, y.Fits) (htext : x.text = text ++ rest)
    (hne : text ≠ []) :
    tokensBefore source (written qs ++ (x.gap ++ text)).length = placed .start (qs ++ [x]) := by
  have hpos := List.length_pos_iff.mpr hne
  refine tokensBefore_eq htokens ?_ fun t ht => ?_
  · rw [placed_append]
    refine List.forall_mem_append.mpr ⟨fun t ht => ?_, List.forall_mem_singleton.mpr ?_⟩
    · have hlt := placed_before hqs .start t ht
      change _ < 0 + _ at hlt
      rw [List.length_append]
      omega
    · rw [Position.advance_offset, Position.advance_offset, List.length_append, List.length_append]
      change 0 + _ + _ < _
      omega
  · have hle := placed_behind hrs (fun _ _ => Nat.zero_le _) t ht
    have hlength : (written (qs ++ [x])).length =
        (written qs).length + (x.gap.length + (text.length + rest.length)) := by
      rw [written_append, List.length_append]
      simp only [written, List.flatMap_cons, List.flatMap_nil, List.append_nil, List.length_append,
        htext]
    rw [Position.advance_offset, hlength] at hle
    change 0 + _ + 0 ≤ _ at hle
    rw [List.length_append, List.length_append]
    omega

/-- A cut of a source that is read is in a gap behind the tokens that begin before it, or in the
last of these tokens. -/
theorem cut_of_read {source : String} {program : Program} (hread : read source = .ok program)
    {before after : List Char} (h : source.toList = before ++ after) :
    ∃ qs rs, tokensOf source = placed .start (qs ++ rs) ∧ (∀ x ∈ qs, x.Fits) ∧
      tokensBefore source before.length = placed .start qs ∧
        ((∃ gap, before = written qs ++ gap ∧ Trailing gap) ∨
          ∃ ps x text rest, qs = ps ++ [x] ∧ before = written ps ++ (x.gap ++ text) ∧
            x.text = text ++ rest ∧ text ≠ [] ∧ rest ≠ [] ∧ rest <+: after) := by
  obtain ⟨ps, last, hsource, hscans, -⟩ := pieces_of_read hread
  have htokens := tokensOf_of_scans hsource hscans
  have hfits := hscans.fits
  have hcut := cut_written (fun x hx => (hfits x hx).1) hscans.trailing (hsource.symm.trans h)
  rcases hcut with ⟨qs, gap, rs, rfl, rfl, hgap, hnext⟩ | ⟨qs, x, rs, text, rest, rfl, rfl, hcut⟩
  · obtain ⟨hqs, hrs⟩ := List.forall_mem_append.mp hfits
    exact ⟨qs, rs, htokens, hqs, tokensBefore_of_gap htokens hqs hrs hnext, .inl ⟨gap, rfl, hgap⟩⟩
  · rw [List.append_cons qs x rs] at htokens hfits
    obtain ⟨hbegun, hrs⟩ := List.forall_mem_append.mp hfits
    have hqs := (List.forall_mem_append.mp hbegun).1
    exact ⟨qs ++ [x], rs, htokens, hbegun, tokensBefore_of_token htokens hqs hrs hcut.1 hcut.2.1,
      .inr ⟨qs, x, text, rest, rfl, rfl, hcut⟩⟩

/-- A newline of a source that is read, none of whose tokens goes over a line, cuts the source in a
gap, and the blocks that are open there are those of the tokens before. -/
theorem newline_of_read {source : String} {program : Program} (hread : read source = .ok program)
    (hflat : ∀ t ∈ tokensOf source, '\n' ∉ t.text) {before after : List Char}
    (h : source.toList = before ++ '\n' :: after) :
    ∃ qs gap, before = written qs ++ gap ∧ Trailing gap ∧
      (∀ x ∈ qs, x.Fits ∧ '\n' ∉ x.text) ∧
      openBlocks source before.length = nesting (qs.map Piece.terminal) := by
  obtain ⟨qs, rs, htokens, hqs, hbegun, hcut⟩ := cut_of_read hread h
  rw [htokens] at hflat
  have hflat := forall_placed (P := fun _ text => '\n' ∉ text) hflat
  rcases hcut with ⟨gap, rfl, hgap⟩ | ⟨ps, x, text, rest, rfl, -, htext, -, hne, hrest⟩
  · refine ⟨qs, gap, rfl, hgap, fun x hx => ⟨hqs x hx, hflat x (List.mem_append_left rs hx)⟩, ?_⟩
    rw [openBlocks_eq, hbegun, terminals_placed]
  · refine absurd ?_ (hflat x (by simp))
    obtain ⟨c, tail, rfl⟩ := List.exists_cons_of_ne_nil hne
    obtain ⟨rfl, -⟩ := List.cons_prefix_cons.mp hrest
    rw [htext]
    exact List.mem_append_right text List.mem_cons_self

namespace Shell

theorem braceBalance_cons {c : Char} (hmark : ¬ (c = '\x22' ∨ c = '\x27')) (hcomment : c ≠ '#')
    (cs : List Char) :
    braceBalance (c :: cs) =
      (if c = '\x7b' then 1 else if c = '\x7d' then -1 else 0) + braceBalance cs := by
  rw [braceBalance, if_neg hmark, if_neg hcomment]

theorem braceBalance_plain {text : List Char} (h : ∀ c ∈ text, isPlain c = true)
    (rest : List Char) : braceBalance (text ++ rest) = braceBalance rest := by
  induction text with
  | nil => rfl
  | cons c text ih =>
    obtain ⟨hc, htext⟩ := List.forall_mem_cons.mp h
    have hne := of_decide_eq_true hc
    simp only [List.mem_cons, List.not_mem_nil, or_false, not_or] at hne
    obtain ⟨hdouble, hsingle, hcomment, hleft, hright, -⟩ := hne
    rw [List.cons_append, braceBalance_cons (not_or.mpr ⟨hdouble, hsingle⟩) hcomment, if_neg hleft,
      if_neg hright, ih htext, Int.zero_add]

theorem dropWhile_ne {c : Char} {cs : List Char} (h : c ∉ cs) (rest : List Char) :
    (cs ++ c :: rest).dropWhile (· ≠ c) = c :: rest := by
  have hall : ∀ d ∈ cs, decide (d ≠ c) = true := by
    intro d hd
    refine decide_eq_true ?_
    rintro rfl
    exact h hd
  rw [List.dropWhile_append_of_pos hall, List.dropWhile_cons, if_neg (by simp)]

theorem braceBalance_string {text : List Char} (hs : Terminal.string.Spells text)
    (rest : List Char) : braceBalance (text ++ rest) = braceBalance rest := by
  obtain ⟨mark, inside, hmark, hinside, rfl⟩ := hs
  have hdrop := dropWhile_ne hinside rest
  rw [List.cons_append, List.append_assoc, List.singleton_append, braceBalance, if_pos hmark]
  split
  next heq =>
    rw [hdrop] at heq
    cases heq
    rfl
  next heq =>
    rw [hdrop] at heq
    cases heq

theorem braceBalance_gap {gap : List Char} (h : Gap gap) (rest : List Char) :
    braceBalance (gap ++ rest) = braceBalance rest := by
  induction h with
  | nil => rfl
  | @blank c cs hc _ ih =>
    have hblank : braceBalance (c :: (cs ++ rest)) = braceBalance (cs ++ rest) := by
      simp only [isGap, Bool.or_eq_true, decide_eq_true_eq] at hc
      obtain ((rfl | rfl) | rfl) | rfl := hc <;>
        rw [braceBalance_cons (by decide) (by decide), if_neg (by decide), if_neg (by decide),
          Int.zero_add]
    rw [List.cons_append, hblank, ih]
  | @comment text cs ht _ ih =>
    rw [List.cons_append, List.append_assoc, List.cons_append, braceBalance, if_neg (by decide),
      if_pos rfl, dropWhile_ne ht, braceBalance_cons (by decide) (by decide), if_neg (by decide),
      if_neg (by decide), Int.zero_add, ih]

theorem braceBalance_trailing {last : List Char} (h : Trailing last) : braceBalance last = 0 := by
  have hgap : ∀ {gap : List Char}, Gap gap → braceBalance gap = 0 := by
    intro gap hg
    have hrest := braceBalance_gap hg []
    rwa [List.append_nil, braceBalance] at hrest
  cases h with
  | gap h => exact hgap h
  | @comment gap text h ht =>
    have hdrop : text.dropWhile (· ≠ '\n') = [] := by
      refine List.dropWhile_eq_nil_iff.mpr fun c hc => decide_eq_true ?_
      rintro rfl
      exact ht hc
    rw [braceBalance_gap h, braceBalance, if_neg (by decide), if_pos rfl, hdrop, braceBalance]

theorem braceBalance_text {k : Terminal} {text : List Char} (hs : k.Spells text)
    (rest : List Char) : braceBalance (text ++ rest) = k.nesting + braceBalance rest := by
  by_cases hstring : k = .string
  · subst hstring
    rw [braceBalance_string hs]
    exact (Int.zero_add _).symm
  by_cases h : k.nesting = 0
  · rw [braceBalance_plain (plain_of_spells hs hstring h), h, Int.zero_add]
  · cases k <;> first | exact absurd rfl h | skip
    all_goals
      obtain ⟨w, hw, rfl⟩ := List.mem_map.mp hs
      obtain rfl := List.mem_singleton.mp hw
      exact braceBalance_cons (by decide) (by decide) rest

/-- The braces of gaps and tokens are those of the tokens. -/
theorem braceBalance_written {ps : List Piece} (hf : ∀ x ∈ ps, x.Fits) (rest : List Char) :
    braceBalance (written ps ++ rest) = nesting (ps.map Piece.terminal) + braceBalance rest := by
  induction ps with
  | nil => exact (Int.zero_add _).symm
  | cons x ps ih =>
    obtain ⟨⟨hgap, htext⟩, hps⟩ := List.forall_mem_cons.mp hf
    rw [written_cons, braceBalance_gap hgap, braceBalance_text htext, ih hps, List.map_cons,
      nesting, Int.add_assoc]

end Shell

end Scriptlet
