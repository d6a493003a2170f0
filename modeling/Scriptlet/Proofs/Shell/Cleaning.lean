import Scriptlet.Proofs.Keywords
import Scriptlet.Proofs.Stopping
import Scriptlet.Proofs.Widening
import Scriptlet.Shell.Dialogue
/-!
# Cleaning what is typed

The shell drops invisible characters before it reads a text. Outside strings these stand in gaps and
comments only, and a gap stays a gap; but a carriage return is a blank, and a gap that has nothing
else in it is gone. That matters between two words, unless the first one ends there in any case.
Main statement: what is left of a source is read as the source is, places apart, exactly if no two
words are kept apart by carriage returns alone (`read_normalize`).
-/

namespace Scriptlet

open Source

namespace Shell

/-! ## Characters -/

/-- What is left of some characters without the invisible ones. -/
def clean (cs : List Char) : List Char := cs.filter fun c => !invisible.contains c.toNat

theorem toList_normalize (text : String) : (normalize text).toList = clean text.toList :=
  String.toList_ofList

theorem clean_append (cs ds : List Char) : clean (cs ++ ds) = clean cs ++ clean ds :=
  List.filter_append ..

theorem visible_of_isWordChar {c : Char} (h : isWordChar c = true) :
    (!invisible.contains c.toNat) = true := by
  by_contra hc
  simp only [invisible, Bool.not_eq_true', Bool.not_eq_false, List.contains_eq_mem,
    decide_eq_true_eq, List.mem_cons, List.not_mem_nil, or_false] at hc
  rw [← Char.ofNat_toNat c] at h
  obtain hc | hc | hc | hc | hc | hc := hc <;> rw [hc] at h <;> exact absurd h (by decide)

/-- Only strings can hold invisible characters. -/
theorem clean_of_spells {k : Terminal} {cs : List Char} (hs : k.Spells cs) (hk : k ≠ .string) :
    clean cs = cs := by
  have htexts : ∀ w ∈ k.texts, w.toList.all (fun c => !invisible.contains c.toNat) = true := by
    cases k <;> decide
  exact List.filter_eq_self.mpr
    (forall_of_spells hs hk (fun _ => visible_of_isWordChar) (by decide) htexts)

/-! ## Gaps -/

theorem gap_clean {cs : List Char} (h : Gap cs) : Gap (clean cs) := by
  induction h with
  | nil => exact .nil
  | blank hc _ ih =>
    rw [clean, List.filter_cons]
    split
    · exact ih.blank hc
    · exact ih
  | @comment text cs ht _ ih =>
    have hsplit : clean ('#' :: (text ++ '\n' :: cs)) = '#' :: (clean text ++ '\n' :: clean cs) :=
      congrArg ('#' :: ·) (clean_append text ('\n' :: cs))
    rw [hsplit]
    exact ih.comment fun hmem => ht (List.mem_of_mem_filter hmem)

theorem trailing_clean {cs : List Char} (h : Trailing cs) : Trailing (clean cs) := by
  cases h with
  | gap h => exact .gap (gap_clean h)
  | @comment cs text h ht =>
    have hsplit : clean (cs ++ '#' :: text) = clean cs ++ '#' :: clean text :=
      clean_append cs ('#' :: text)
    rw [hsplit]
    exact .comment (gap_clean h) fun hmem => ht (List.mem_of_mem_filter hmem)

theorem left_iff_of_visible {c : Char} (hc : (!invisible.contains c.toNat) = true)
    (cs : List Char) : clean (c :: cs) = [] ↔ ∀ d ∈ c :: cs, d = '\r' := by
  refine iff_of_false ?_ fun hall => ?_
  · rw [clean, List.filter_cons, if_pos hc]
    exact List.cons_ne_nil _ _
  · rw [hall c List.mem_cons_self] at hc
    exact absurd hc (by decide)

/-- Nothing is left of a gap exactly if it has carriage returns only. -/
theorem clean_gap_eq_nil {cs : List Char} (h : Gap cs) : clean cs = [] ↔ ∀ c ∈ cs, c = '\r' := by
  induction h with
  | nil => exact ⟨fun _ => List.forall_mem_nil _, fun _ => rfl⟩
  | @blank c cs hc _ ih =>
    simp only [isGap, Bool.or_eq_true, decide_eq_true_eq] at hc
    obtain ((rfl | rfl) | rfl) | rfl := hc
    · exact left_iff_of_visible (by decide) cs
    · exact left_iff_of_visible (by decide) cs
    · rw [List.forall_mem_cons, ← ih]
      exact ⟨fun h => ⟨rfl, h⟩, fun h => h.2⟩
    · exact left_iff_of_visible (by decide) cs
  | comment => exact left_iff_of_visible (by decide) _

/-! ## Pieces -/

def cleaned (x : Piece) : Piece := { x with gap := clean x.gap }

/-- Two pieces whose texts become one word when the gap between them is cleaned. -/
structure Merges (m : Mode) (x y : Piece) : Prop where
  lettered : x.terminal.isLettered = true
  mode : m ≠ .branch
  word : y.terminal.isWord = true
  parted : y.gap ≠ []
  returns : ∀ c ∈ y.gap, c = '\r'

theorem clean_written {ps : List Piece} (hps : ∀ x ∈ ps, clean x.text = x.text)
    (last : List Char) : clean (written ps ++ last) = written (ps.map cleaned) ++ clean last := by
  induction ps with
  | nil => rfl
  | cons x ps ih =>
    obtain ⟨hx, hps⟩ := List.forall_mem_cons.mp hps
    rw [List.map_cons, written_cons, written_cons, clean_append, clean_append, hx, ih hps]
    rfl

/-- What can follow an operand begins neither with a digit nor with a point. -/
theorem head_behind_operand {k : Terminal} {c : Char} {tail : List Char}
    (hs : k.Spells (c :: tail)) (hk : Mode.afterOperand.expects k = true) :
    c.isDigit = false ∧ c ≠ '.' := by
  by_cases hword : k.isLettered = true
  · have hc := (word_of_spells hword hs).1
    constructor
    · by_contra hdigit
      rw [not_isWordStart_of_isDigit (by simpa using hdigit)] at hc
      cases hc
    · rintro rfl
      exact absurd hc (by decide)
  · have hsign : k.isWord = false := by
      cases k <;> first | rfl | exact absurd rfl hword | cases hk
    obtain ⟨hc, hpoint⟩ := (head_of_spells hs).1 hsign
    exact ⟨not_isDigit_of_not_isWordChar hc, hpoint⟩

section

variable {m : Mode} {c : Char} {gap tail : List Char} {k : Terminal} {ps : List Piece}
  {last : List Char}

/-- What is left of the text behind a token does not lengthen it, unless two words merge there. -/
theorem ends_cleaned (hr : recognize m c (tail ++ (written ps ++ last)) = some (k, tail.length))
    (hrest : Scans (m.after k) ps last) (hmeets : (m.after k).Meets (ps.map Piece.terminal))
    (hparts : ∀ y ∈ ps.head?, ¬ Merges m ⟨gap, k, c :: tail⟩ y) :
    k.Ends m (written (ps.map cleaned) ++ clean last) := by
  cases ps with
  | nil => exact ((trailing_clean hrest.trailing).stops k).ends m
  | cons y ps =>
    obtain ⟨hgap, hs⟩ := hrest.fits y List.mem_cons_self
    rw [List.map_cons, written_cons]
    change k.Ends m (clean y.gap ++ (y.text ++ _))
    cases hclean : clean y.gap with
    | cons d ds => exact (stops_of_gap (hclean ▸ gap_clean hgap).head _).ends m
    | nil =>
      obtain ⟨d, ds, htext⟩ := List.exists_cons_of_ne_nil (spells_ne_nil hs)
      rw [htext] at hs ⊢
      refine ⟨fun hk hm e he => ?_, fun hk e he => ?_, fun hk e he => ?_⟩
      all_goals obtain rfl : d = e := Option.some.inj he
      · by_cases hnone : y.gap = []
        · -- the token and the next one touch as they are
          have hwhole := (whole_of_recognize hr hk hm).2
          rw [written_cons, hnone, htext] at hwhole
          exact hwhole d rfl
        · have hword : y.terminal.isWord = false := by
            by_contra hword
            have hreturns := (clean_gap_eq_nil hgap).mp hclean
            exact hparts y rfl ⟨hk, hm, by simpa using hword, hnone, hreturns⟩
          exact ((head_of_spells hs).1 hword).1
      · refine head_behind_operand hs ?_
        rcases hk with rfl | rfl <;> exact hmeets.1
      · subst hk
        exact (head_of_spells hs).2 hmeets.1

theorem recognize_cleaned (hg : Gap gap)
    (hr : recognize m c (tail ++ (written ps ++ last)) = some (k, tail.length))
    (hrest : Scans (m.after k) ps last)
    (hmeets : m.Meets ((⟨gap, k, c :: tail⟩ :: ps).map Piece.terminal))
    (hparts : ∀ y ∈ ps.head?, ¬ Merges m ⟨gap, k, c :: tail⟩ y) :
    recognize m c (tail ++ (written (ps.map cleaned) ++ clean last)) = some (k, tail.length) := by
  have hs := ((Scans.token hg hr hrest).fits _ List.mem_cons_self).2
  refine recognize_of_spells hmeets.1 hs (fun hname => ?_) (ends_cleaned hr hrest hmeets.2 hparts)
  subst hname
  have hm : m ≠ .branch := by
    rintro rfl
    cases hmeets.1
  rw [← (whole_of_recognize hr rfl hm).1]
  exact (word_of_recognize hr rfl hm).1.symm

end

/-- Pieces of a scan are scanned cleaned if no two of them merge; else those before the first two
that do are passed. -/
theorem scans_or_passes {m : Mode} {ps : List Piece} {last : List Char} (h : Scans m ps last)
    (hmeets : m.Meets (ps.map Piece.terminal)) (hps : ∀ x ∈ ps, clean x.text = x.text) :
    (Scans m (ps.map cleaned) (clean last) ∧ ∀ qs x y rs, ps = qs ++ x :: y :: rs →
        ¬ Merges (m.behind (qs.map Piece.terminal)) x y) ∨
      ∃ qs x y rs, ps = qs ++ x :: y :: rs ∧ Merges (m.behind (qs.map Piece.terminal)) x y ∧
        Passes m (qs.map cleaned) (clean (written (x :: y :: rs) ++ last))
          (m.behind (qs.map Piece.terminal)) := by
  induction h with
  | done h =>
    refine .inl ⟨.done (trailing_clean h), fun qs x y rs hsplit => ?_⟩
    cases qs <;> cases hsplit
  | @token m gap tail c k ps last hg hr hrest ih =>
    obtain ⟨-, hpieces⟩ := List.forall_mem_cons.mp hps
    by_cases hmerge : ∃ y rs, ps = y :: rs ∧ Merges m ⟨gap, k, c :: tail⟩ y
    · obtain ⟨y, rs, rfl, hmerge⟩ := hmerge
      exact .inr ⟨[], _, y, rs, rfl, hmerge, .done⟩
    · have hparts : ∀ y ∈ ps.head?, ¬ Merges m ⟨gap, k, c :: tail⟩ y := by
        intro y hy h
        obtain ⟨rs, rfl⟩ := List.head?_eq_some_iff.mp hy
        exact hmerge ⟨y, rs, rfl, h⟩
      have hcleaned := recognize_cleaned hg hr hrest hmeets hparts
      rcases ih hmeets.2 hpieces with ⟨hscans, hnone⟩ | ⟨qs, x, y, rs, rfl, hxy, hpasses⟩
      · refine .inl ⟨.token (gap_clean hg) hcleaned hscans, fun qs x y rs hsplit => ?_⟩
        cases qs with
        | nil =>
          obtain ⟨rfl, rfl⟩ := List.cons.inj hsplit
          exact hparts y rfl
        | cons q qs =>
          obtain ⟨rfl, htail⟩ := List.cons.inj hsplit
          exact hnone qs x y rs htail
      · refine .inr ⟨_ :: qs, x, y, rs, rfl, hxy, .token (gap_clean hg) ?_ hpasses⟩
        have hxs := fun z hz => hpieces z (List.mem_append_right qs hz)
        rwa [clean_written hxs, ← List.append_assoc (written _), ← written_append,
          ← List.map_append]

end Shell

/-! ## Leaves -/

def Node.leaves : Node → List (TokenKind × String)
  | .token k text _ => [(k, text)]
  | .tree _ ns _ => leavesOf ns
where
  leavesOf : List Node → List (TokenKind × String)
    | [] => []
    | n :: ns => n.leaves ++ leavesOf ns

theorem leavesOf_eq (ns : List Node) : Node.leaves.leavesOf ns = ns.flatMap Node.leaves := by
  induction ns with
  | nil => rfl
  | cons n ns ih => rw [Node.leaves.leavesOf, ih, List.flatMap_cons]

/-- What a token leaves in a tree, wherever it stands. -/
def leafOf (word : Terminal × List Char) : List (TokenKind × String) :=
  (word.1.kind?.map fun k => (k, String.ofList word.2)).toList

/-- The tokens of the trees of a derivation are those of the derivation that are kept. -/
theorem leaves_of_derives {a : Phrase} {ts : List Token} {ns : List Node} (h : Derives a ts ns) :
    (ns.map Node.unplaced).flatMap Node.leaves = (ts.map Token.word).flatMap leafOf := by
  induction h with
  | @terminal t _ =>
    rw [Token.nodes, List.map_singleton, List.flatMap_singleton, leafOf, Token.word]
    cases t.terminal.kind? with
    | none => rfl
    | some k => rfl
  | @rule r p ts ns _ _ ih =>
    have htree : ∀ l, ([Node.tree l ns (placeOf ts)].map Node.unplaced).flatMap Node.leaves =
        (ts.map Token.word).flatMap leafOf := by
      intro l
      rw [List.map_singleton, List.flatMap_singleton, unplaced_tree, Node.leaves, leavesOf_eq, ih]
    cases p.shaping with
    | tree l => exact htree l
    | splice => exact ih
    | spliceSingle l =>
      rw [Shaping.apply]
      split
      · exact ih
      · exact htree l
  | empty => rfl
  | seq _ _ iha ihb =>
    rw [List.map_append, List.flatMap_append, List.map_append, List.flatMap_append, iha, ihb]
  | left _ ih => exact ih
  | right _ ih => exact ih
  | none => rfl
  | more _ _ ih ihrest =>
    rw [List.map_append, List.flatMap_append, List.map_append, List.flatMap_append, ih, ihrest]

namespace Shell

/-! ## Merged words -/

theorem else_of_wordTerminal {m : Mode} {word : List Char}
    (h : wordTerminal m word = .elseWord) : m = .afterBlock ∧ word = "else".toList := by
  have hall : ∀ x ∈ m.keywords, x.2 = .elseWord → m = .afterBlock ∧ x.1 = "else" := by
    cases m <;> decide
  rcases wordTerminal_cases m word with hname | ⟨x, hx, hword, hk⟩
  · rw [hname] at h
    cases h
  · obtain ⟨hm, htext⟩ := hall x hx (hk.symm.trans h)
    exact ⟨hm, by rw [← hword, htext]⟩

theorem wordTerminal_isLettered (m : Mode) (word : List Char) :
    (wordTerminal m word).isLettered = true := by
  rcases wordTerminal_cases m word with h | ⟨x, hx, -, h⟩
  · rw [h]
    rfl
  · rw [h]
    exact keywords_isLettered m x hx

/-- Names and keywords are kept, but for `else`. -/
theorem leafOf_lettered {k : Terminal} (hk : k.isLettered = true) (helse : k ≠ .elseWord)
    (text : List Char) : ∃ kind, leafOf (k, text) = [(kind, String.ofList text)] := by
  cases k <;> first | exact ⟨_, rfl⟩ | exact absurd rfl helse | exact absurd hk (by decide)

/-- No two words merge into `else`. -/
theorem wordTerminal_merged {m : Mode} {k l : Terminal} {c d : Char} {tail more : List Char}
    (hk : k = wordTerminal m (c :: tail)) (hl : (m.after k).expects l = true)
    (hword : l.isWord = true) : wordTerminal m (c :: (tail ++ d :: more)) ≠ .elseWord := by
  intro helse
  obtain ⟨rfl, htext⟩ := else_of_wordTerminal helse
  have hname : k = .identifier := by
    obtain ⟨rfl, htail⟩ := List.cons.inj htext
    rcases tail with _ | ⟨a, _ | ⟨b, _ | ⟨e, tail⟩⟩⟩ <;> simp at htail
    · exact hk
    · obtain ⟨rfl, -⟩ := htail
      exact hk
    · obtain ⟨rfl, rfl, -⟩ := htail
      exact hk
  subst hname
  cases l <;> first | cases hl; done | exact absurd hword (by decide)

/-- Where two words merge, the scan of what is left takes a longer word. -/
theorem scanFrom_merged {m : Mode} {x y : Piece} {ps : List Piece} {last : List Char}
    (h : Scans m (x :: y :: ps) last) (hxy : Merges m x y)
    (hps : ∀ z ∈ x :: y :: ps, clean z.text = z.text) (p : Position) :
    ∃ c tail d more t ts, x.text = c :: tail ∧ x.terminal = wordTerminal m (c :: tail) ∧
      (y.terminal.isLettered = true → y.text <+: d :: more) ∧
      (scanFrom m p (clean (written (x :: y :: ps) ++ last))).tokens = t :: ts ∧
      t.word = (wordTerminal m (c :: (tail ++ d :: more)), c :: (tail ++ d :: more)) := by
  obtain ⟨-, hx⟩ := h.fits x List.mem_cons_self
  obtain ⟨hgap, hy⟩ := h.fits y (List.mem_cons_of_mem x List.mem_cons_self)
  have hnone : (cleaned y).gap = [] := (clean_gap_eq_nil hgap).mpr hxy.returns
  obtain ⟨d, ds, htext⟩ := List.exists_cons_of_ne_nil (spells_ne_nil hy)
  cases h with
  | @token _ gap tail c k _ _ hg hr rest =>
    obtain ⟨hc, hchars⟩ := word_of_spells hxy.lettered hx
    let left := written (ps.map cleaned) ++ clean last
    have hleft : clean (written (⟨gap, k, c :: tail⟩ :: y :: ps) ++ last) =
        clean gap ++ c :: (tail ++ d :: (ds ++ left)) := by
      rw [clean_written hps, List.map_cons, List.map_cons, written_cons, written_cons, hnone]
      change clean gap ++ (c :: tail ++ ([] ++ (y.text ++ left))) = _
      rw [htext]
      rfl
    obtain ⟨hlonger, htaken⟩ := recognize_longer hxy.mode hc (List.forall_mem_cons.mp hchars).2
      (head_of_word hxy.word (htext ▸ hy)) (ds ++ left)
    have hscan := (congrArg (scanFrom m p) hleft).trans
      (scanFrom_token (skip_to_token (gap_clean hg) hlonger p) hlonger)
    refine ⟨c, tail, d, (ds ++ left).takeWhile isWordChar, _, _, rfl, ?_, fun hlettered => ?_,
      congrArg Scan.tokens hscan, ?_⟩
    · have hwhole := (whole_of_recognize hr hxy.lettered hxy.mode).1
      have hterminal := (word_of_recognize hr hxy.lettered hxy.mode).1
      rwa [hwhole] at hterminal
    · rw [htext] at hy ⊢
      have hbehind := (List.forall_mem_cons.mp (word_of_spells hlettered hy).2).2
      rw [List.takeWhile_append_of_pos hbehind]
      exact List.prefix_append (d :: ds) _
    · rw [Token.word, htaken]

/-- Where two words merge, what is left has another leaf. -/
theorem leaves_merged {m : Mode} {x y : Piece} {ps : List Piece} {last : List Char}
    (h : Scans m (x :: y :: ps) last) (hxy : Merges m x y)
    (hmeets : m.Meets ((x :: y :: ps).map Piece.terminal))
    (hps : ∀ z ∈ x :: y :: ps, clean z.text = z.text) (p : Position) :
    ((x :: y :: ps).map fun z => (z.terminal, z.text)).flatMap leafOf ≠
      ((scanFrom m p (clean (written (x :: y :: ps) ++ last))).tokens.map Token.word).flatMap
        leafOf := by
  obtain ⟨c, tail, d, more, t, ts, hx, hk, hy, htokens, hword⟩ := scanFrom_merged h hxy hps p
  obtain ⟨-, hexpects, -⟩ := hmeets
  obtain ⟨kind, hleaf⟩ := leafOf_lettered (wordTerminal_isLettered m (c :: (tail ++ d :: more)))
    (wordTerminal_merged hk hexpects hxy.word) (c :: (tail ++ d :: more))
  intro heq
  rw [htokens, List.map_cons, List.map_cons, List.map_cons, List.flatMap_cons, List.flatMap_cons,
    List.flatMap_cons, hword, hleaf] at heq
  by_cases helse : x.terminal = .elseWord
  · -- of the two words, the tree keeps the one behind `else`
    have hall : ∀ l, Mode.branch.expects l = true → l.isWord = true →
        l.isLettered = true ∧ l ≠ .elseWord := by
      intro l
      cases l <;> decide
    have hkeyword := hall y.terminal (by rwa [helse] at hexpects) hxy.word
    obtain ⟨kind', hleaf'⟩ := leafOf_lettered hkeyword.1 hkeyword.2 y.text
    have hnone : leafOf (x.terminal, x.text) = [] := by rw [helse]; rfl
    rw [hnone, hleaf', List.nil_append] at heq
    have htext := String.ofList_injective (Prod.mk.inj (List.cons.inj heq).1).2
    have hlength := (hy hkeyword.1).length_le
    rw [htext, List.length_cons, List.length_append] at hlength
    omega
  · obtain ⟨kind', hleaf'⟩ := leafOf_lettered hxy.lettered helse x.text
    rw [hleaf'] at heq
    have htext := String.ofList_injective (Prod.mk.inj (List.cons.inj heq).1).2
    have hlength := congrArg List.length htext
    rw [hx, List.length_cons, List.length_cons, List.length_append, List.length_cons] at hlength
    omega

/-! ## Sources -/

def gapIn (source : String) (t u : Token) : List Char :=
  (source.toList.drop t.span.last.offset).take (u.span.first.offset - t.span.last.offset)

/-- Two words, one behind the other, that nothing but carriage returns keeps apart. The first one is
a name or keyword, read to its end. -/
structure HeldApart (source : String) (before : List Token) (t u : Token) : Prop where
  lettered : t.terminal.isLettered = true
  whole : ¬ EndsElse before
  word : u.terminal.isWord = true
  parted : gapIn source t u ≠ []
  returns : ∀ c ∈ gapIn source t u, c = '\r'

instance (source : String) (before : List Token) (t u : Token) :
    Decidable (HeldApart source before t u) :=
  decidable_of_iff
    (t.terminal.isLettered = true ∧ ¬ EndsElse before ∧ u.terminal.isWord = true ∧
      gapIn source t u ≠ [] ∧ (gapIn source t u).all (· = '\r') = true)
    ⟨fun ⟨lettered, whole, word, parted, returns⟩ =>
        ⟨lettered, whole, word, parted, by simpa using returns⟩,
      fun ⟨lettered, whole, word, parted, returns⟩ =>
        ⟨lettered, whole, word, parted, by simpa using returns⟩⟩

/-- No two words of a source are kept apart by carriage returns alone. -/
def KeepsWords (source : String) : Prop :=
  ∀ before t u after, tokensOf source = before ++ t :: u :: after → ¬ HeldApart source before t u

instance (source : String) : Decidable (KeepsWords source) :=
  decidable_of_iff
    (∀ n < (tokensOf source).length, ∀ t ∈ ((tokensOf source).drop n).head?,
      ∀ u ∈ ((tokensOf source).drop n).tail.head?,
        ¬ HeldApart source ((tokensOf source).take n) t u)
    (by
      constructor
      · intro h before t u after hsplit
        have hn : before.length < (tokensOf source).length := by simp [hsplit]
        have hhere := h before.length hn t (by simp [hsplit]) u (by simp [hsplit])
        rwa [hsplit, List.take_left] at hhere
      · intro h n _ t ht u hu
        obtain ⟨rest, hrest⟩ := List.head?_eq_some_iff.mp ht
        rw [hrest] at hu
        obtain ⟨after, hafter⟩ := List.head?_eq_some_iff.mp hu
        refine h _ t u after ?_
        rw [← hafter, List.tail_cons, ← hrest, List.take_append_drop])

theorem gapIn_eq {source : String} {before gap behind : List Char} {t u : Token}
    (hsource : source.toList = before ++ (gap ++ behind))
    (ht : t.span.last.offset = before.length)
    (hu : u.span.first.offset = before.length + gap.length) : gapIn source t u = gap := by
  rw [gapIn, hsource, ht, hu, List.drop_left, Nat.add_sub_cancel_left, List.take_left]

/-- Two words are held apart where their pieces merge. -/
theorem heldApart_iff {source : String} {qs rs : List Piece} {x y : Piece} {last : List Char}
    {t u : Token} {after : List Token}
    (hsource : source.toList = written (qs ++ x :: y :: rs) ++ last)
    (htokens : t :: u :: after = placed (Position.start.advance (written qs)) (x :: y :: rs)) :
    HeldApart source (placed .start qs) t u ↔
      Merges (Mode.line.behind (qs.map Piece.terminal)) x y := by
  obtain ⟨ht, htail⟩ := List.cons.inj htokens
  obtain ⟨hu, -⟩ := List.cons.inj htail
  have hkt : t.terminal = x.terminal := congrArg Token.terminal ht
  have hku : u.terminal = y.terminal := congrArg Token.terminal hu
  have helse : EndsElse (placed .start qs) ↔
      Mode.line.behind (qs.map Piece.terminal) = .branch := by
    rw [behind_eq_branch, EndsElse, terminals_placed]
  have hgap : gapIn source t u = y.gap := by
    have hsplit : source.toList =
        (written qs ++ (x.gap ++ x.text)) ++ (y.gap ++ (y.text ++ (written rs ++ last))) := by
      rw [hsource, written_append, List.append_assoc, written_cons, written_cons]
      simp only [List.append_assoc]
    refine gapIn_eq hsplit ?_ ?_
    · rw [ht]
      simp only [Position.advance_offset, List.length_append]
      change 0 + _ + _ + _ = _
      omega
    · rw [hu]
      simp only [Position.advance_offset, List.length_append]
      change 0 + _ + _ + _ + _ = _
      omega
  constructor
  · intro h
    exact ⟨hkt ▸ h.lettered, mt helse.mpr h.whole, hku ▸ h.word, hgap ▸ h.parted, hgap ▸ h.returns⟩
  · intro h
    exact ⟨hkt ▸ h.lettered, mt helse.mp h.mode, hku ▸ h.word, hgap ▸ h.parted, hgap ▸ h.returns⟩

theorem words_cleaned (ps : List Piece) :
    ((ps.map cleaned).map fun x => (x.terminal, x.text)) = ps.map fun x => (x.terminal, x.text) :=
  List.map_map

/-- If two words merge, what is left is read as another program. -/
theorem differs_of_merges {qs rs : List Piece} {x y : Piece} {last : List Char} {text : String}
    {program q : Program} (hscans : Scans .line (qs ++ x :: y :: rs) last)
    (hmeets : Mode.line.Meets ((qs ++ x :: y :: rs).map Piece.terminal))
    (hd : Derives (.rule .program) (placed .start (qs ++ x :: y :: rs)) [program.toNode])
    (hps : ∀ z ∈ qs ++ x :: y :: rs, clean z.text = z.text)
    (hxy : Merges (Mode.line.behind (qs.map Piece.terminal)) x y)
    (hpasses : Passes .line (qs.map cleaned) (clean (written (x :: y :: rs) ++ last))
      (Mode.line.behind (qs.map Piece.terminal)))
    (htext : text.toList = clean (written (qs ++ x :: y :: rs) ++ last))
    (hq : read text = .ok q) : q.toNode.unplaced ≠ program.toNode.unplaced := by
  obtain ⟨hqs, hxs⟩ := List.forall_mem_append.mp hps
  have hleft : text.toList =
      written (qs.map cleaned) ++ clean (written (x :: y :: rs) ++ last) := by
    rw [htext, written_append, List.append_assoc, clean_written hqs]
  have htokens : (scan text.toList).tokens = _ :=
    (congrArg (fun cs => (scan cs).tokens) hleft).trans
      (congrArg Scan.tokens (hpasses.scanFrom .start))
  have hleaves := leaves_of_derives hd
  have hleaves' := leaves_of_derives (derives_of_read hq).2
  intro hsame
  rw [List.map_singleton, hsame, ← List.map_singleton, hleaves, htokens, words_placed,
    List.map_append, List.map_append, List.flatMap_append, List.flatMap_append, words_placed,
    words_cleaned] at hleaves'
  rw [List.map_append] at hmeets
  exact leaves_merged hscans.of_append hxy hmeets.of_append hxs _
    (List.append_cancel_left hleaves')

/-- What is left of a source that is read, when its invisible characters are dropped and none of
them is in a string, is read as the same program, places apart, exactly if no two words of the
source are kept apart by carriage returns alone. -/
theorem read_normalize {source : String} {program : Program} (hread : read source = .ok program)
    (hstrings : ∀ t ∈ tokensOf source, t.terminal = .string → clean t.text = t.text) :
    (∃ q, read (normalize source) = .ok q ∧ q.toNode.unplaced = program.toNode.unplaced) ↔
      KeepsWords source := by
  obtain ⟨ps, last, hsource, hscans, hd⟩ := pieces_of_read hread
  have htokens := tokensOf_of_scans hsource hscans
  have hmeets := (leads_of_derives hd .line (by decide)).1
  rw [terminals_placed] at hmeets
  have hps : ∀ x ∈ ps, clean x.text = x.text := by
    intro x hx
    by_cases hk : x.terminal = .string
    · exact forall_placed (P := fun k text => k = .string → clean text = text)
        (htokens ▸ hstrings) x hx hk
    · exact clean_of_spells (hscans.fits x hx).2 hk
  have hclean : (normalize source).toList = clean (written ps ++ last) := by
    rw [toList_normalize, hsource]
  rcases scans_or_passes hscans hmeets hps with
    ⟨hcleaned, hnone⟩ | ⟨qs, x, y, rs, rfl, hxy, hpasses⟩
  · refine iff_of_true ?_ fun before t u after hsplit h => ?_
    · rw [clean_written hps] at hclean
      exact read_of_words hd (by simp [cleaned]) hclean hcleaned
    · rw [htokens] at hsplit
      obtain ⟨qs, x, rs, rfl, rfl, hplaced⟩ := exists_of_placed hsplit
      cases rs with
      | nil => cases (List.cons.inj hplaced).2
      | cons y rs => exact hnone qs x y rs rfl ((heldApart_iff hsource hplaced).mp h)
  · refine iff_of_false ?_ fun h => ?_
    · rintro ⟨q, hq, hsame⟩
      exact differs_of_merges hscans hmeets hd hps hxy hpasses hclean hq hsame
    · obtain ⟨t, u, after, hplaced⟩ : ∃ t u after, t :: u :: after =
          placed (Position.start.advance (written qs)) (x :: y :: rs) := ⟨_, _, _, rfl⟩
      refine h (placed .start qs) t u after ?_ ((heldApart_iff hsource hplaced).mpr hxy)
      rw [htokens, placed_append, hplaced]

/-- A source whose carriage returns stand before a newline, behind a number and before a brace, and
that has another invisible character in a comment. -/
theorem read_normalize_returns :
    let source := "x = 1\rif x < 2 \x7b y = x\r\n# a\u200bb\nz = 'a' \x7d else\r\x7b\x7d"
    ∃ program, read source = .ok program ∧
      (∀ t ∈ tokensOf source, t.terminal = .string → clean t.text = t.text) ∧
      normalize source ≠ source ∧ KeepsWords source ∧
      ∃ q, read (normalize source) = .ok q ∧ q.toNode.unplaced = program.toNode.unplaced := by
  intro source
  obtain ⟨program, hread⟩ : ∃ program, read source = .ok program :=
    exists_of_isOk (by decide +kernel)
  have hstrings : ∀ t ∈ tokensOf source, t.terminal = .string → clean t.text = t.text := by
    decide +kernel
  have hkeeps : KeepsWords source := by decide +kernel
  exact ⟨program, hread, hstrings, by decide +kernel, hkeeps,
    (read_normalize hread hstrings).mpr hkeeps⟩

/-- A source in which a carriage return is all that stands between a name and the next statement.
Without it the two names are one, and the source cannot be read. -/
theorem normalize_merges :
    let source := "x = y\rz = 2"
    (read source).isOk = true ∧ (∀ t ∈ tokensOf source, t.terminal ≠ .string) ∧
      normalize source = "x = yz = 2" ∧ (read (normalize source)).isOk = false := by
  decide +kernel

end Shell

end Scriptlet
