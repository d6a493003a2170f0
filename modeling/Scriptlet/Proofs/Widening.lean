import Scriptlet.Proofs.Joining
/-!
# Indenting sources

Spaces behind the newlines of a source change its gaps and nothing else, as long as no token goes
over a line. A gap stays a gap, and a token is recognised by what stands before the next newline.
Main statement: an indented source is read as the source is, places apart (`read_of_widened`).
-/

namespace Scriptlet

open Source

/-- Spaces have been put behind newlines of a text. -/
inductive Widened : List Char → List Char → Prop where
  | nil : Widened [] []
  | char {c : Char} {cs ds : List Char} (hc : c ≠ '\n') (h : Widened cs ds) :
      Widened (c :: cs) (c :: ds)
  | newline {cs ds : List Char} (count : Nat) (h : Widened cs ds) :
      Widened ('\n' :: cs) ('\n' :: (List.replicate count ' ' ++ ds))

namespace Widened

variable {cs ds xs ys : List Char}

theorem refl (cs : List Char) : Widened cs cs := by
  induction cs with
  | nil => exact .nil
  | cons c cs ih =>
    by_cases hc : c = '\n'
    · subst hc
      exact .newline 0 ih
    · exact .char hc ih

theorem append (h : Widened cs ds) (h' : Widened xs ys) : Widened (cs ++ xs) (ds ++ ys) := by
  induction h with
  | nil => exact h'
  | char hc _ ih => exact .char hc ih
  | newline count _ ih =>
    rw [List.cons_append, List.cons_append, List.append_assoc]
    exact .newline count ih

theorem split (h : Widened (cs ++ xs) ds) :
    ∃ ds₁ ds₂, ds = ds₁ ++ ds₂ ∧ Widened cs ds₁ ∧ Widened xs ds₂ := by
  induction cs generalizing ds with
  | nil => exact ⟨[], ds, rfl, .nil, h⟩
  | cons c cs ih =>
    cases h with
    | char hc h =>
      obtain ⟨ds₁, ds₂, rfl, h₁, h₂⟩ := ih h
      exact ⟨_, ds₂, rfl, .char hc h₁, h₂⟩
    | newline count h =>
      obtain ⟨ds₁, ds₂, rfl, h₁, h₂⟩ := ih h
      refine ⟨_, ds₂, ?_, .newline count h₁, h₂⟩
      rw [List.cons_append, List.append_assoc]

/-- A text within a line stays as it is. -/
theorem eq_of_not_mem (h : Widened cs ds) (hcs : '\n' ∉ cs) : ds = cs := by
  induction h with
  | nil => rfl
  | char _ _ ih => rw [ih fun hmem => hcs (List.mem_cons_of_mem _ hmem)]
  | newline => exact absurd List.mem_cons_self hcs

/-- The first difference, if there is any, is behind a newline. -/
theorem first_newline (h : Widened cs ds) :
    ds = cs ∨ ∃ before after after',
      cs = before ++ '\n' :: after ∧ ds = before ++ '\n' :: after' := by
  induction h with
  | nil => exact .inl rfl
  | @char c _ _ _ _ ih =>
    rcases ih with rfl | ⟨before, after, after', rfl, rfl⟩
    · exact .inl rfl
    · exact .inr ⟨c :: before, after, after', rfl, rfl⟩
  | newline => exact .inr ⟨[], _, _, rfl, rfl⟩

/-! ## Gaps -/

theorem gap_spaces (count : Nat) : Gap (List.replicate count ' ') := by
  induction count with
  | zero => exact .nil
  | succ count ih => exact .blank (by decide) ih

theorem gap (h : Widened cs ds) (hg : Gap cs) : Gap ds := by
  induction hg generalizing ds with
  | nil =>
    cases h
    exact .nil
  | blank hc _ ih =>
    cases h with
    | char _ h => exact .blank hc (ih h)
    | newline count h => exact .blank hc ((gap_spaces count).append (ih h))
  | comment ht _ ih =>
    cases h with
    | char _ h =>
      obtain ⟨text, rest, rfl, htext, hrest⟩ := h.split
      rw [htext.eq_of_not_mem ht]
      cases hrest with
      | char hc => exact absurd rfl hc
      | newline count h' => exact .comment ht ((gap_spaces count).append (ih h'))

theorem trailing (h : Widened cs ds) (ht : Trailing cs) : Trailing ds := by
  cases ht with
  | gap hg => exact .gap (h.gap hg)
  | comment hg ht =>
    obtain ⟨gap, rest, rfl, hgap, hrest⟩ := h.split
    have hmark : '\n' ∉ '#' :: _ := List.not_mem_cons_of_ne_of_not_mem (by decide) ht
    rw [hrest.eq_of_not_mem hmark]
    exact .comment (hgap.gap hg) ht

end Widened

/-! ## Pieces -/

def Source.Piece.Widens (x y : Piece) : Prop :=
  y.terminal = x.terminal ∧ y.text = x.text ∧ Widened x.gap y.gap

theorem widened_written {ps qs : List Piece} (h : List.Forall₂ Piece.Widens ps qs) :
    Widened (written ps) (written qs) := by
  induction h with
  | nil => exact .nil
  | @cons x y _ _ hxy _ ih =>
    obtain ⟨-, htext, hgap⟩ := hxy
    have htexts : Widened x.text y.text := htext ▸ .refl _
    exact (hgap.append htexts).append ih

/-- A text that is made of pieces, each within a line but for its gap, is still made of them when it
is widened. -/
theorem pieces_of_widened {ps : List Piece} {last ds : List Char}
    (hflat : ∀ x ∈ ps, '\n' ∉ x.text) (h : Widened (written ps ++ last) ds) :
    ∃ qs last', ds = written qs ++ last' ∧ List.Forall₂ Piece.Widens ps qs ∧
      Widened last last' := by
  induction ps generalizing ds with
  | nil => exact ⟨[], ds, rfl, .nil, h⟩
  | cons x ps ih =>
    obtain ⟨hx, hps⟩ := List.forall_mem_cons.mp hflat
    rw [written_cons] at h
    obtain ⟨gap, ds', rfl, hgap, h⟩ := h.split
    obtain ⟨text, ds, rfl, htext, h⟩ := h.split
    obtain ⟨qs, last', rfl, hqs, hlast⟩ := ih hps h
    obtain rfl := htext.eq_of_not_mem hx
    refine ⟨⟨gap, x.terminal, x.text⟩ :: qs, last', ?_, .cons ⟨rfl, rfl, hgap⟩ hqs, hlast⟩
    rw [written_cons]

theorem fits_of_widens {ps qs : List Piece} (h : List.Forall₂ Piece.Widens ps qs)
    (hps : ∀ x ∈ ps, x.Fits) : ∀ y ∈ qs, y.Fits := by
  induction h with
  | nil => exact hps
  | cons hxy _ ih =>
    obtain ⟨hk, htext, hgap⟩ := hxy
    obtain ⟨⟨hg, hs⟩, hps⟩ := List.forall_mem_cons.mp hps
    refine List.forall_mem_cons.mpr ⟨⟨hgap.gap hg, ?_⟩, ih hps⟩
    rwa [hk, htext]

theorem recognize_widened {m : Mode} {c : Char} {tail cs ds : List Char} {k : Terminal}
    (h : recognize m c (tail ++ cs) = some (k, tail.length)) (hw : Widened cs ds) :
    recognize m c (tail ++ ds) = some (k, tail.length) := by
  -- both texts agree up to a newline, and a token is recognised by what stands before it
  rcases hw.first_newline with rfl | ⟨before, after, after', rfl, rfl⟩
  · exact h
  · have hmark : c = '\x22' ∨ c = '\x27' → c ∈ tail ++ before := by
      intro hc
      have hmem := mem_of_recognize h hc
      rw [List.take_left] at hmem
      exact List.mem_append_left before hmem
    rw [← List.append_assoc, recognize_newline hmark] at h ⊢
    exact h

theorem scans_of_widened {m : Mode} {ps qs : List Piece} {last last' : List Char}
    (h : Scans m ps last) (hps : List.Forall₂ Piece.Widens ps qs) (hlast : Widened last last') :
    Scans m qs last' := by
  induction h generalizing qs with
  | done ht =>
    cases hps
    exact .done (hlast.trailing ht)
  | @token m gap tail c k ps last hg hr _ ih =>
    cases hps with
    | @cons _ y _ qs hxy hps =>
      obtain ⟨gap', k', text⟩ := y
      obtain ⟨hk, htext, hgap⟩ := hxy
      dsimp only at hk htext hgap
      subst hk htext
      have hrest := (widened_written hps).append hlast
      exact .token (hgap.gap hg) (recognize_widened hr hrest) (ih hps hlast)

/-! ## Tokens elsewhere -/

/-- What a token is, wherever it stands. -/
def Source.Token.word (t : Token) : Terminal × List Char := (t.terminal, t.text)

theorem words_placed (p : Position) (ps : List Piece) :
    (placed p ps).map Token.word = ps.map fun x => (x.terminal, x.text) := by
  induction ps generalizing p with
  | nil => rfl
  | cons x ps ih => exact congrArg _ (ih _)

theorem words_of_widens {ps qs : List Piece} (h : List.Forall₂ Piece.Widens ps qs) :
    (qs.map fun x => (x.terminal, x.text)) = ps.map fun x => (x.terminal, x.text) := by
  induction h with
  | nil => rfl
  | cons hxy _ ih =>
    obtain ⟨hk, ht, -⟩ := hxy
    rw [List.map_cons, List.map_cons, ih, hk, ht]

theorem nodes_unplaced {t u : Token} (h : u.word = t.word) :
    u.nodes.map Node.unplaced = t.nodes.map Node.unplaced := by
  obtain ⟨hk, ht⟩ := Prod.mk.inj h
  rw [Token.nodes, Token.nodes, hk, ht]
  cases t.terminal.kind? with
  | none => rfl
  | some k => rfl

theorem apply_unplaced {ts us : List Token} {ns ms : List Node}
    (h : ms.map Node.unplaced = ns.map Node.unplaced) (shaping : Shaping) :
    (shaping.apply us ms).map Node.unplaced = (shaping.apply ts ns).map Node.unplaced := by
  have htree : ∀ l, [Node.tree l ms (placeOf us)].map Node.unplaced =
      [Node.tree l ns (placeOf ts)].map Node.unplaced := by
    intro l
    rw [List.map_singleton, List.map_singleton, unplaced_tree, unplaced_tree, h]
  cases shaping with
  | tree l => exact htree l
  | splice => exact h
  | spliceSingle l =>
    have hlen : ms.length = ns.length := by
      rw [← List.length_map, h, List.length_map]
    rw [Shaping.apply, Shaping.apply, hlen]
    split
    · exact h
    · exact htree l

/-- Tokens that derive from a phrase do so wherever they stand. -/
theorem yields_elsewhere {a : Phrase} {ts us : List Token} {ns : List Node} (h : Derives a ts ns)
    (hus : us.map Token.word = ts.map Token.word) : a.Yields us (ns.map Node.unplaced) := by
  induction h generalizing us with
  | @terminal t h =>
    obtain ⟨u, rfl, hu⟩ := List.map_eq_singleton_iff.mp hus
    obtain ⟨hk, ht⟩ := Prod.mk.inj hu
    have hspelled : u.Spelled := by
      rw [Token.Spelled, hk, ht]
      exact h
    have hd := Derives.terminal hspelled
    rw [hk] at hd
    exact ⟨u.nodes, hd, nodes_unplaced hu⟩
  | @rule r p ts ns mem _ ih =>
    obtain ⟨ms, hd, hms⟩ := ih hus
    exact ⟨_, .rule mem hd, apply_unplaced hms p.shaping⟩
  | empty =>
    obtain rfl := List.map_eq_nil_iff.mp hus
    exact yields_empty
  | seq _ _ iha ihb =>
    rw [List.map_append] at hus ⊢
    obtain ⟨us₁, us₂, rfl, h₁, h₂⟩ := List.map_eq_append_iff.mp hus
    exact (iha h₁).seq (ihb h₂)
  | left _ ih => exact (ih hus).left
  | right _ ih => exact (ih hus).right
  | none =>
    obtain rfl := List.map_eq_nil_iff.mp hus
    exact yields_none
  | more _ _ ih ihrest =>
    rw [List.map_append] at hus ⊢
    obtain ⟨us₁, us₂, rfl, h₁, h₂⟩ := List.map_eq_append_iff.mp hus
    exact (ih h₁).more (ihrest h₂)

/-- Pieces whose words derive a program are read as that program, wherever they stand. -/
theorem read_of_words {ps qs : List Piece} {last : List Char} {text : String} {program : Program}
    (hd : Derives (.rule .program) (placed .start ps) [program.toNode])
    (hwords : (qs.map fun x => (x.terminal, x.text)) = ps.map fun x => (x.terminal, x.text))
    (htext : text.toList = written qs ++ last) (hscans : Scans .line qs last) :
    ∃ q, read text = .ok q ∧ q.toNode.unplaced = program.toNode.unplaced := by
  have hplaced : (placed .start qs).map Token.word = (placed .start ps).map Token.word := by
    rw [words_placed, words_placed, hwords]
  obtain ⟨ns, hd', hns⟩ := yields_elsewhere hd hplaced
  obtain ⟨n, rfl, hn⟩ := List.map_eq_singleton_iff.mp hns
  obtain ⟨q, hq, rfl⟩ := read_of_derives htext hscans hd'
  exact ⟨q, hq, hn⟩

/-- A source whose tokens each keep to a line is read, indented, as it is read without. -/
theorem read_of_widened {source text : String} {program : Program}
    (hread : read source = .ok program) (hflat : ∀ t ∈ tokensOf source, '\n' ∉ t.text)
    (hw : Widened source.toList text.toList) :
    ∃ q, read text = .ok q ∧ q.toNode.unplaced = program.toNode.unplaced := by
  obtain ⟨ps, last, hsource, hscans, hd⟩ := pieces_of_read hread
  have hpieces := flat_of_scans hsource hscans hflat
  rw [hsource] at hw
  obtain ⟨qs, last', htext, hqs, hlast⟩ := pieces_of_widened hpieces hw
  exact read_of_words hd (words_of_widens hqs) htext (scans_of_widened hscans hqs hlast)

end Scriptlet
