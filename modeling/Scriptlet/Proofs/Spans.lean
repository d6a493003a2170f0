import Scriptlet.Proofs.Layout
import Scriptlet.Proofs.Reading.Sound
/-!
# Spans of trees

Where the nodes of a derivation stand in the source. A kept token is the very text at its place, and
the spans of the kids of a tree follow one another within the span of the tree. Main statement: a
source that is read is laid out as tokens that derive its program, and the tree of the program is
placed so (`read_sound`).
-/

namespace Scriptlet

/-- A node of a tree, the tree itself included. -/
inductive Node.Inside (n : Node) : Node → Prop where
  | self : n.Inside n
  | kid {l : Label} {ks : List Node} {k : Node} {p : Place} (hk : k ∈ ks) (h : n.Inside k) :
      n.Inside (.tree l ks p)

theorem Node.Inside.trans {n m k : Node} (h : m.Inside n) (h' : k.Inside m) : k.Inside n := by
  induction h with
  | self => exact h'
  | kid hk _ ih => exact .kid hk ih

theorem inside_of_mem_kids {n m k : Node} (hk : k ∈ n.kids) (h : m.Inside k) : m.Inside n := by
  cases n with
  | token => exact absurd hk List.not_mem_nil
  | tree label kids place => exact .kid hk h

/-- A token is the text at its place, and the place's lines and columns are counted from the start
of the source. -/
def Node.Exact (source : List Char) : Node → Prop
  | .token _ text place =>
    ∃ s : Source.Span, place = .span s ∧
      text.toList = (source.drop s.first.offset).take (s.last.offset - s.first.offset) ∧
      s.first = Source.Position.behind (source.take s.first.offset) ∧
      s.last = Source.Position.behind (source.take s.last.offset)
  | .tree .. => True

namespace Source

def Span.Before (a b : Span) : Prop := a.last.offset ≤ b.first.offset

def Span.Covers (a b : Span) : Prop :=
  a.first.offset ≤ b.first.offset ∧ b.last.offset ≤ a.last.offset

end Source

/-- The kids of a tree have spans, none of them empty, one after the other within the tree's own. A
tree without a place has no kids. -/
def Node.WellNested : Node → Prop
  | .token .. => True
  | .tree _ kids place =>
    place = .unknown ∧ kids = [] ∨
      ∃ (s : Source.Span) (spans : List Source.Span), place = .span s ∧
        kids.map Node.place = spans.map .span ∧ spans.Pairwise Source.Span.Before ∧
        ∀ x ∈ spans, x.first.offset < x.last.offset ∧ s.Covers x

namespace Source

/-! ## Tokens in order -/

def InOrder (ts : List Token) : Prop :=
  (∀ t ∈ ts, t.span.first.offset < t.span.last.offset) ∧
    ts.Pairwise fun t u => t.span.last.offset ≤ u.span.first.offset

theorem InOrder.append {ts us : List Token} (h : InOrder (ts ++ us)) :
    InOrder ts ∧ InOrder us ∧ ∀ t ∈ ts, ∀ u ∈ us, t.span.last.offset ≤ u.span.first.offset := by
  obtain ⟨hne, hp⟩ := h
  obtain ⟨hts, hus, hcross⟩ := List.pairwise_append.mp hp
  exact ⟨⟨fun t ht => hne t (List.mem_append_left us ht), hts⟩,
    ⟨fun u hu => hne u (List.mem_append_right ts hu), hus⟩, hcross⟩

/-- The span of tokens in order covers each of them, and runs from one of them to another. -/
theorem spanOf_covers {ts : List Token} {s : Span} (ho : InOrder ts) (h : spanOf ts = some s) :
    (∀ t ∈ ts, s.Covers t.span) ∧ s.first.offset < s.last.offset ∧
      ∃ t ∈ ts, ∃ u ∈ ts, s = t.span.to u.span := by
  induction ts generalizing s with
  | nil => simp [spanOf] at h
  | cons t ts ih =>
    have ht := ho.1 t List.mem_cons_self
    cases hts : spanOf ts with
    | none =>
      obtain rfl := spanOf_eq_none.mp hts
      rw [spanOf_singleton, Option.some.injEq] at h
      subst h
      refine ⟨fun u hu => ?_, ht, t, List.mem_cons_self, t, List.mem_cons_self, rfl⟩
      obtain rfl := List.mem_singleton.mp hu
      exact ⟨Nat.le_refl _, Nat.le_refl _⟩
    | some r =>
      rw [spanOf_cons_of_some t hts, Option.some.injEq] at h
      subst h
      obtain ⟨_, htail, hcross⟩ := @InOrder.append [t] ts ho
      obtain ⟨hcovers, hlt, a, ha, b, hb, rfl⟩ := ih htail hts
      have hta := hcross t (List.mem_singleton_self t) a ha
      refine ⟨fun u hu => ?_, ?_, t, List.mem_cons_self, b, List.mem_cons_of_mem t hb, rfl⟩
      · rcases List.mem_cons.mp hu with rfl | hu
        · have hab : a.span.last.offset ≤ b.span.last.offset := (hcovers a ha).2
          have haa := ho.1 a (List.mem_cons_of_mem u ha)
          exact ⟨Nat.le_refl _, by change _ ≤ b.span.last.offset; omega⟩
        · obtain ⟨hfirst, hlast⟩ := hcovers u hu
          change a.span.first.offset ≤ _ at hfirst
          exact ⟨by change t.span.first.offset ≤ _; omega, hlast⟩
      · change a.span.first.offset < b.span.last.offset at hlt
        change t.span.first.offset < b.span.last.offset
        omega

theorem advance_offset_lt (p : Position) {cs : List Char} (h : cs ≠ []) :
    p.offset < (p.advance cs).offset := by
  have hlen := List.length_pos_iff.mpr h
  rw [Position.advance_offset]
  omega

/-- Placed tokens are in order, and none begins before their position. -/
theorem placed_inOrder {ps : List Piece} (hf : ∀ x ∈ ps, x.Fits) (p : Position) :
    InOrder (placed p ps) ∧ ∀ t ∈ placed p ps, p.offset ≤ t.span.first.offset := by
  induction ps generalizing p with
  | nil =>
    exact ⟨⟨fun t ht => absurd ht List.not_mem_nil, .nil⟩, fun t ht => absurd ht List.not_mem_nil⟩
  | cons x ps ih =>
    obtain ⟨⟨hne, hpw⟩, hfrom⟩ := ih (fun y hy => hf y (List.mem_cons_of_mem x hy))
      ((p.advance x.gap).advance x.text)
    have hlt := advance_offset_lt (p.advance x.gap) (spells_ne_nil (hf x List.mem_cons_self).2)
    have hgap : p.offset ≤ (p.advance x.gap).offset := by
      rw [Position.advance_offset]
      omega
    rw [placed]
    refine ⟨⟨fun t ht => ?_, .cons hfrom hpw⟩, fun t ht => ?_⟩
    · rcases List.mem_cons.mp ht with rfl | ht
      · exact hlt
      · exact hne t ht
    · rcases List.mem_cons.mp ht with rfl | ht
      · exact hgap
      · have := hfrom t ht
        omega

/-! ## Derivations -/

/-- Whether a phrase takes up at least one token, and does not ask for a whole program. -/
def Phrase.solid : Phrase → Bool
  | .terminal _ => true
  | .rule r => r ≠ .program
  | .empty | .many _ => false
  | .seq a b => a.solid || b.solid
  | .either a b => a.solid && b.solid

theorem productions_solid (r : Rule) (h : r ≠ .program) :
    ∀ p ∈ r.productions, p.phrase.solid = true := by
  cases r <;> first | exact absurd rfl h | decide

theorem ne_nil_of_solid {a : Phrase} {ts : List Token} {ns : List Node} (h : Derives a ts ns)
    (hs : a.solid = true) : ts ≠ [] := by
  induction h with
  | terminal _ => exact List.cons_ne_nil _ _
  | rule mem _ ih =>
    exact ih (productions_solid _ (by simpa [Phrase.solid] using hs) _ mem)
  | empty => cases hs
  | seq _ _ iha ihb =>
    rcases Bool.or_eq_true_iff.mp hs with hs | hs
    · exact List.append_ne_nil_of_left_ne_nil (iha hs) _
    · exact List.append_ne_nil_of_right_ne_nil _ (ihb hs)
  | left _ ih => exact ih (Bool.and_eq_true_iff.mp hs).1
  | right _ ih => exact ih (Bool.and_eq_true_iff.mp hs).2
  | none => cases hs
  | more _ _ _ _ => cases hs

/-- No tokens, no nodes. -/
theorem eq_nil_of_many {a : Phrase} {ts : List Token} {ns : List Node} (h : Derives (.many a) ts ns)
    (hs : a.solid = true) (hts : ts = []) : ns = [] := by
  cases h with
  | none => rfl
  | more hd _ => exact absurd (List.append_eq_nil_iff.mp hts).1 (ne_nil_of_solid hd hs)

/-- Whether a phrase can stand below the top of a program. -/
def Phrase.inner : Phrase → Bool
  | .rule r => r ≠ .program
  | .seq a b | .either a b => a.inner && b.inner
  | .many a => a.inner
  | .terminal _ | .empty => true

theorem productions_inner (r : Rule) : ∀ p ∈ r.productions, p.phrase.inner = true := by
  cases r <;> decide

/-- Nodes whose spans lie one after the other on tokens, and are nested below. -/
def Covered (ts : List Token) (ns : List Node) : Prop :=
  ∃ spans : List Span, ns.map Node.place = spans.map .span ∧ spans.Pairwise Span.Before ∧
    (∀ x ∈ spans, x.first.offset < x.last.offset ∧ ∃ t ∈ ts, ∃ u ∈ ts, x = t.span.to u.span) ∧
    ∀ n ∈ ns, ∀ m : Node, m.Inside n → m.WellNested

theorem Covered.nil (ts : List Token) : Covered ts [] :=
  ⟨[], rfl, .nil, fun _ hx => absurd hx List.not_mem_nil, fun _ hn => absurd hn List.not_mem_nil⟩

theorem Covered.append {ts us : List Token} {ns ms : List Node} (ho : InOrder (ts ++ us))
    (h : Covered ts ns) (h' : Covered us ms) : Covered (ts ++ us) (ns ++ ms) := by
  obtain ⟨xs, hplaces, hpw, hon, hnested⟩ := h
  obtain ⟨ys, hplaces', hpw', hon', hnested'⟩ := h'
  obtain ⟨_, _, hcross⟩ := ho.append
  refine ⟨xs ++ ys, ?_, List.pairwise_append.mpr ⟨hpw, hpw', ?_⟩, ?_, ?_⟩
  · rw [List.map_append, List.map_append, hplaces, hplaces']
  · intro x hx y hy
    obtain ⟨_, _, _, u, hu, rfl⟩ := hon x hx
    obtain ⟨_, t, ht, _, _, rfl⟩ := hon' y hy
    exact hcross u hu t ht
  · intro x hx
    rcases List.mem_append.mp hx with hx | hx
    · obtain ⟨hlt, t, ht, u, hu, e⟩ := hon x hx
      exact ⟨hlt, t, List.mem_append_left us ht, u, List.mem_append_left us hu, e⟩
    · obtain ⟨hlt, t, ht, u, hu, e⟩ := hon' x hx
      exact ⟨hlt, t, List.mem_append_right ts ht, u, List.mem_append_right ts hu, e⟩
  · intro n hn
    rcases List.mem_append.mp hn with hn | hn
    · exact hnested n hn
    · exact hnested' n hn

/-- The tree over covered nodes is nested. -/
theorem Covered.nested {ts : List Token} {ns : List Node} (ho : InOrder ts) (h : Covered ts ns)
    (l : Label) (hne : ts = [] → ns = []) {m : Node} (hm : m.Inside (.tree l ns (placeOf ts))) :
    m.WellNested := by
  obtain ⟨xs, hplaces, hpw, hon, hnested⟩ := h
  cases hm with
  | kid hk hin => exact hnested _ hk m hin
  | self =>
    cases hs : spanOf ts with
    | none =>
      left
      rw [placeOf, hs]
      exact ⟨rfl, hne (spanOf_eq_none.mp hs)⟩
    | some s =>
      right
      refine ⟨s, xs, placeOf_eq hs, hplaces, hpw, fun x hx => ?_⟩
      obtain ⟨hlt, t, ht, u, hu, rfl⟩ := hon x hx
      obtain ⟨hcovers, _, _⟩ := spanOf_covers ho hs
      exact ⟨hlt, (hcovers t ht).1, (hcovers u hu).2⟩

theorem Covered.shaped {ts : List Token} {ns : List Node} (ho : InOrder ts) (h : Covered ts ns)
    (hne : ts ≠ []) (shaping : Shaping) : Covered ts (shaping.apply ts ns) := by
  -- A tree takes the span of all the tokens.
  have htree : ∀ l, Covered ts [.tree l ns (placeOf ts)] := by
    intro l
    cases hs : spanOf ts with
    | none => exact absurd (spanOf_eq_none.mp hs) hne
    | some s =>
      obtain ⟨_, hlt, hends⟩ := spanOf_covers ho hs
      refine ⟨[s], by rw [placeOf_eq hs]; rfl, List.pairwise_singleton _ _, fun x hx => ?_, ?_⟩
      · obtain rfl := List.mem_singleton.mp hx
        exact ⟨hlt, hends⟩
      · intro n hn m hm
        obtain rfl := List.mem_singleton.mp hn
        exact h.nested ho l (fun e => absurd e hne) hm
  cases shaping with
  | tree l => exact htree l
  | splice => exact h
  | spliceSingle l =>
    rw [Shaping.apply]
    split
    · exact h
    · exact htree l

theorem covered_of_derives {a : Phrase} {ts : List Token} {ns : List Node} (h : Derives a ts ns)
    (hi : a.inner = true) (ho : InOrder ts) : Covered ts ns := by
  induction h with
  | @terminal t h =>
    rw [Token.nodes]
    split
    · refine ⟨[t.span], rfl, List.pairwise_singleton _ _, fun x hx => ?_, ?_⟩
      · obtain rfl := List.mem_singleton.mp hx
        exact ⟨ho.1 t (List.mem_singleton_self t), t, List.mem_singleton_self t, t,
          List.mem_singleton_self t, rfl⟩
      · intro n hn m hm
        obtain rfl := List.mem_singleton.mp hn
        cases hm
        trivial
    · exact .nil _
  | @rule r p ts ns mem hd ih =>
    have hr : r ≠ .program := by simpa [Phrase.inner] using hi
    have hne := ne_nil_of_solid hd (productions_solid r hr p mem)
    exact (ih (productions_inner r p mem) ho).shaped ho hne p.shaping
  | empty => exact .nil _
  | seq _ _ iha ihb =>
    obtain ⟨hts, hus, _⟩ := ho.append
    obtain ⟨ha, hb⟩ := Bool.and_eq_true_iff.mp hi
    exact (iha ha hts).append ho (ihb hb hus)
  | left _ ih => exact ih (Bool.and_eq_true_iff.mp hi).1 ho
  | right _ ih => exact ih (Bool.and_eq_true_iff.mp hi).2 ho
  | none => exact .nil _
  | more _ _ ih ihrest =>
    obtain ⟨hts, hus, _⟩ := ho.append
    exact (ih hi hts).append ho (ihrest hi hus)

/-! ## Nodes inside a derivation -/

/-- A node has its tokens among some: it is what one of them leaves, or it is a tree over some of
them that stand together and derive it. -/
def Made (ts : List Token) (n : Node) : Prop :=
  (∃ t ∈ ts, n ∈ t.nodes) ∨
    ∃ r us l kids, us <:+: ts ∧ n = .tree l kids (placeOf us) ∧ Derives (.rule r) us [n]

theorem Made.mono {ts us : List Token} {n : Node} (hus : us <:+: ts) (h : Made us n) :
    Made ts n := by
  rcases h with ⟨t, ht, hn⟩ | ⟨r, vs, l, kids, hvs, hn⟩
  · exact .inl ⟨t, hus.subset ht, hn⟩
  · exact .inr ⟨r, vs, l, kids, hvs.trans hus, hn⟩

/-- A node inside a derivation has its tokens among those of the derivation. -/
theorem made_of_inside {a : Phrase} {ts : List Token} {ns : List Node} (h : Derives a ts ns)
    {n m : Node} (hn : n ∈ ns) (hin : m.Inside n) : Made ts m := by
  induction h generalizing n with
  | @terminal t h =>
    have hm : m = n := by
      rw [Token.nodes] at hn
      split at hn
      · obtain rfl := List.mem_singleton.mp hn
        cases hin
        rfl
      · exact absurd hn List.not_mem_nil
    exact .inl ⟨t, List.mem_singleton_self t, hm ▸ hn⟩
  | @rule r p ts ns mem hd ih =>
    have htree : ∀ l, p.shaping.apply ts ns = [.tree l ns (placeOf ts)] → Made ts m := by
      intro l hl
      rw [hl] at hn
      obtain rfl := List.mem_singleton.mp hn
      cases hin with
      | self => exact .inr ⟨r, ts, l, ns, List.infix_refl ts, rfl, hl ▸ .rule mem hd⟩
      | kid hk hin => exact ih hk hin
    cases hs : p.shaping with
    | tree l => exact htree l (by rw [hs]; rfl)
    | splice =>
      rw [hs] at hn
      exact ih hn hin
    | spliceSingle l =>
      by_cases hlen : ns.length = 1
      · rw [hs, Shaping.apply, if_pos hlen] at hn
        exact ih hn hin
      · exact htree l (by rw [hs, Shaping.apply, if_neg hlen])
  | empty => exact absurd hn List.not_mem_nil
  | seq _ _ iha ihb =>
    rcases List.mem_append.mp hn with hn | hn
    · exact (iha hn hin).mono (List.prefix_append ..).isInfix
    · exact (ihb hn hin).mono (List.suffix_append ..).isInfix
  | left _ ih => exact ih hn hin
  | right _ ih => exact ih hn hin
  | none => exact absurd hn List.not_mem_nil
  | more _ _ ih ihrest =>
    rcases List.mem_append.mp hn with hn | hn
    · exact (ih hn hin).mono (List.prefix_append ..).isInfix
    · exact (ihrest hn hin).mono (List.suffix_append ..).isInfix

/-- A token of a derivation's nodes is one of the derivation's tokens. -/
theorem token_of_inside {a : Phrase} {ts : List Token} {ns : List Node} (h : Derives a ts ns)
    {n : Node} (hn : n ∈ ns) {k : TokenKind} {text : String} {place : Place}
    (hin : (Node.token k text place).Inside n) :
    ∃ t ∈ ts, t.terminal.kind? = some k ∧ text = String.ofList t.text ∧ place = .span t.span := by
  rcases made_of_inside h hn hin with ⟨t, ht, hm⟩ | ⟨_, _, _, _, _, heq, _⟩
  · rw [Token.nodes] at hm
    split at hm
    next j hj =>
      obtain ⟨rfl, rfl, rfl⟩ := Node.token.inj (List.mem_singleton.mp hm)
      exact ⟨t, ht, hj, rfl, rfl⟩
    next => exact absurd hm List.not_mem_nil
  · cases heq

/-! ## Positions -/

theorem behind_append (cs ds : List Char) :
    (Position.behind cs).advance ds = Position.behind (cs ++ ds) := by
  rw [← advance_start, ← advance_start, Position.advance_append]

/-- A placed token stands behind what is written before it. -/
theorem mem_placed {before last : List Char} {ps : List Piece} {t : Token}
    (h : t ∈ placed (Position.behind before) ps) :
    ∃ cs ds, before ++ (written ps ++ last) = cs ++ (t.text ++ ds) ∧
      t.span = ⟨Position.behind cs, Position.behind (cs ++ t.text)⟩ := by
  induction ps generalizing before with
  | nil => exact absurd h List.not_mem_nil
  | cons x ps ih =>
    rw [placed, behind_append, behind_append] at h
    have hw : before ++ (written (x :: ps) ++ last) =
        (before ++ x.gap) ++ (x.text ++ (written ps ++ last)) := by
      simp only [written, List.flatMap_cons, List.append_assoc]
    rcases List.mem_cons.mp h with rfl | h
    · exact ⟨before ++ x.gap, written ps ++ last, hw, rfl⟩
    · obtain ⟨cs, ds, heq, hspan⟩ := ih h
      refine ⟨cs, ds, ?_, hspan⟩
      rw [hw, ← heq]
      simp only [List.append_assoc]

theorem exact_of_placed {ps : List Piece} {last : List Char} {t : Token} {k : TokenKind}
    (h : t ∈ placed .start ps) :
    (Node.token k (String.ofList t.text) (.span t.span)).Exact (written ps ++ last) := by
  obtain ⟨cs, ds, heq, hspan⟩ := @mem_placed [] last ps t h
  rw [List.nil_append] at heq
  refine ⟨t.span, rfl, ?_, ?_, ?_⟩
  · rw [heq, hspan]
    simp [Position.behind]
  · rw [heq, hspan]
    simp [Position.behind]
  · rw [heq, hspan]
    simp only [Position.behind, ← List.append_assoc, List.take_left]

/-! ## Reading -/

theorem spelled_of_placed {ps : List Piece} (hf : ∀ x ∈ ps, x.Fits) {p : Position} :
    ∀ t ∈ placed p ps, t.Spelled := by
  induction ps generalizing p with
  | nil => exact fun t ht => absurd ht List.not_mem_nil
  | cons x ps ih =>
    intro t ht
    rw [placed] at ht
    rcases List.mem_cons.mp ht with rfl | ht
    · exact (hf x List.mem_cons_self).2
    · exact ih (fun y hy => hf y (List.mem_cons_of_mem x hy)) t ht

/-- A source that is read is laid out as tokens that derive its program. -/
theorem pieces_of_read {source : String} {program : Program} (h : read source = .ok program) :
    ∃ pieces last, source.toList = written pieces ++ last ∧ Scans .line pieces last ∧
      Derives (.rule .program) (placed .start pieces) [program.toNode] := by
  obtain ⟨hblocked, p, hread, hfinish⟩ := read_eq_ok.mp h
  obtain ⟨pieces, last, hsource, hscans⟩ := scans_of_scanFrom hblocked
  refine ⟨pieces, last, hsource, hscans, ?_⟩
  rw [scan, hsource, scanFrom_of_scans hscans] at hread
  exact Progress.derives_of_readAll (spelled_of_placed hscans.fits) hread hfinish

/-- The tokens of a source that is read are spelled as the grammar has it, and derive
its program. -/
theorem derives_of_read {source : String} {program : Program} (h : read source = .ok program) :
    (∀ t ∈ (scan source.toList).tokens, t.Spelled) ∧
      Derives (.rule .program) (scan source.toList).tokens [program.toNode] := by
  obtain ⟨pieces, last, hsource, hscans, hd⟩ := pieces_of_read h
  have htokens : (scan source.toList).tokens = placed .start pieces := by
    rw [scan, hsource, scanFrom_of_scans hscans]
  rw [htokens]
  exact ⟨spelled_of_placed hscans.fits, hd⟩

/-- A tree begins at a position of a source: some tokens of the source that stand together derive
the tree, it takes its place from them, and the first of them begins there. The line and column are
counted from the start of the source. -/
structure BeginsAt (source : String) (n : Node) (p : Position) : Prop where
  tokens : ∃ r t us, (t :: us) <:+: (scan source.toList).tokens ∧ Derives (.rule r) (t :: us) [n] ∧
    n.place = placeOf (t :: us) ∧ t.span.first = p
  counted : p = Position.behind (source.toList.take p.offset)

/-- A tree of a program begins where its place says. -/
theorem beginsAt_of_inside {source : String} {program : Program} (h : read source = .ok program)
    {l : Label} {kids : List Node} {s : Span}
    (hin : (Node.tree l kids (.span s)).Inside program.toNode) :
    BeginsAt source (.tree l kids (.span s)) s.first := by
  obtain ⟨pieces, last, hsource, hscans, hd⟩ := pieces_of_read h
  have htokens : (scan source.toList).tokens = placed .start pieces := by
    rw [scan, hsource, scanFrom_of_scans hscans]
  rcases made_of_inside hd (List.mem_singleton_self _) hin with
    ⟨t, _, hm⟩ | ⟨r, us, l', kids', hus, heq, hderives⟩
  · rw [Token.nodes] at hm
    split at hm
    · cases List.mem_singleton.mp hm
    · exact absurd hm List.not_mem_nil
  · have hplace : Place.span s = placeOf us := (Node.tree.inj heq).2.2
    cases us with
    | nil => cases hplace
    | cons t us =>
      have hspan : spanOf (t :: us) = some s := by
        rw [placeOf] at hplace
        split at hplace
        next => cases hplace
        next hs => rw [hs, Place.span.inj hplace]
      have hfirst : t.span.first = s.first := (first_of_spanOf hspan).symm
      refine ⟨⟨r, t, us, ?_, hderives, hplace, hfirst⟩, ?_⟩
      · rw [htokens]
        exact hus
      · have ht : t ∈ placed .start pieces := hus.subset (List.mem_cons_self ..)
        have hexact : (Node.token .identifier (String.ofList t.text) (.span t.span)).Exact
            (written pieces ++ last) := exact_of_placed ht
        obtain ⟨x, hx, -, hcounted, -⟩ := hexact
        rw [← hsource, ← Place.span.inj hx, hfirst] at hcounted
        exact hcounted

/-- The nodes of a program that tokens derive are nested. -/
theorem nested_of_derives {ts : List Token} {n m : Node} (ho : InOrder ts)
    (h : Derives (.rule .program) ts [n]) (hm : m.Inside n) : m.WellNested := by
  generalize hns : [n] = ns at h
  cases h with
  | @rule r p ts ns mem hd =>
    obtain rfl := List.mem_singleton.mp mem
    cases hns
    refine (covered_of_derives hd (productions_inner .program _ mem) ho).nested ho .program ?_ hm
    exact fun e => eq_nil_of_many hd rfl e

/-- A source that is read is made of gaps and of tokens that derive its program; in the program's
tree, each token is the text at its place, and spans are nested. -/
theorem read_sound {source : String} {program : Program} (h : read source = .ok program) :
    ∃ pieces last, source.toList = written pieces ++ last ∧ (∀ x ∈ pieces, x.Fits) ∧
      Trailing last ∧ Derives (.rule .program) (placed .start pieces) [program.toNode] ∧
      ∀ n : Node, n.Inside program.toNode → n.Exact source.toList ∧ n.WellNested := by
  obtain ⟨pieces, last, hsource, hscans, hd⟩ := pieces_of_read h
  refine ⟨pieces, last, hsource, hscans.fits, hscans.trailing, hd, fun n hn => ⟨?_, ?_⟩⟩
  · cases n with
    | tree => trivial
    | token k text place =>
      obtain ⟨t, ht, -, rfl, rfl⟩ := token_of_inside hd (List.mem_singleton_self _) hn
      rw [hsource]
      exact exact_of_placed ht
  · exact nested_of_derives (placed_inOrder hscans.fits .start).1 hd hn

/-- A source with comments, parentheses and a text over two lines. -/
theorem read_sound_commented :
    let source := "x = (1 + y) # sum\n* 2; f('a\nb', -x)"
    ∃ program, read source = .ok program ∧
      ∃ pieces last, source.toList = written pieces ++ last ∧ (∀ x ∈ pieces, x.Fits) ∧
        Trailing last ∧ Derives (.rule .program) (placed .start pieces) [program.toNode] ∧
        ∀ n : Node, n.Inside program.toNode → n.Exact source.toList ∧ n.WellNested := by
  intro source
  obtain ⟨program, hread⟩ : ∃ program, read source = .ok program :=
    exists_of_isOk (by decide +kernel)
  exact ⟨program, hread, read_sound hread⟩

end Source

end Scriptlet
