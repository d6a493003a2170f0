import Scriptlet.Proofs.Productions
import Scriptlet.Proofs.Spans
/-!
# The shape of programs

What the children of a tree are, label by label, in the trees that the grammar gives: how many there
are, of which kinds their tokens are, and which texts an operator or a keyword may have. Main
statement: every statement of a source that is read has this shape (`shaped_of_read`).
-/

namespace Scriptlet.Source

/-- A tree whose label, children and tokens belong together, and that stands somewhere. -/
inductive Shaped : Node → Prop where
  | constant (kind : LiteralKind) (text : String) (p : Place) (s : Span) :
      Shaped (.tree .constant [.token kind.tokenKind text p] (.span s))
  | name (text : String) (p : Place) (s : Span) :
      Shaped (.tree .identifier [.token .identifier text p] (.span s))
  | call (text : String) {args : List Node} (p : Place) (s : Span) (h : ∀ n ∈ args, Shaped n) :
      Shaped (.tree .functionCall (.token .identifier text p :: args) (.span s))
  | negate {n : Node} (s : Span) (h : Shaped n) : Shaped (.tree .negate [n] (.span s))
  | binary (level : Level) {lhs rhs : Node} {op : String} (p : Place) (s : Span)
      (mem : op ∈ level.terminal.texts) (hl : Shaped lhs) (hr : Shaped rhs) :
      Shaped (.tree level.label [lhs, .token level.tokenKind op p, rhs] (.span s))
  | assignment (text : String) {n : Node} (p : Place) (s : Span) (h : Shaped n) :
      Shaped (.tree .assignment [.token .identifier text p, n] (.span s))
  | conditional (w : Keyword) {c b : Node} {otherwise : List Node} (p : Place) (s : Span)
      (hc : Shaped c) (hb : Shaped b) (single : otherwise.length ≤ 1)
      (ho : ∀ n ∈ otherwise, Shaped n) :
      Shaped (.tree w.label (.token w.tokenKind w.text p :: c :: b :: otherwise) (.span s))
  | elseBlock {n : Node} (s : Span) (h : Shaped n) : Shaped (.tree .elseBlock [n] (.span s))
  | block {ns : List Node} (s : Span) (h : ∀ n ∈ ns, Shaped n) : Shaped (.tree .block ns (.span s))

/-- Tokens that leave a single node, of the right shape. -/
def ShapedOnce (ts : List Token) (ns : List Node) : Prop :=
  ts ≠ [] ∧ ∃ n, ns = [n] ∧ Shaped n

def ShapedAs : Rule → List Token → List Node → Prop
  | .program, _, ns => ∃ kids place, ns = [.tree .program kids place] ∧ ∀ n ∈ kids, Shaped n
  | _, ts, ns => ShapedOnce ts ns

variable {ts : List Token} {ns : List Node}

/-- Tokens take up a span, so the tree over them stands somewhere. -/
theorem ShapedOnce.tree {l : Label} (hne : ts ≠ [])
    (h : ∀ s, Shaped (.tree l ns (.span s))) : ShapedOnce ts [.tree l ns (placeOf ts)] := by
  refine ⟨hne, _, rfl, ?_⟩
  cases hs : spanOf ts with
  | none => exact absurd (spanOf_eq_none.mp hs) hne
  | some s =>
    rw [placeOf_eq hs]
    exact h s

theorem ShapedOnce.passSingle (l : Label) (h : ShapedOnce ts ns) :
    ShapedOnce ts ((Shaping.spliceSingle l).apply ts ns) := by
  obtain ⟨hne, n, rfl, hn⟩ := h
  exact ⟨hne, n, rfl, hn⟩

theorem shaped_of_repeats {R : List Token → List Node → Prop}
    (hR : ∀ us ms, R us ms → ∀ n ∈ ms, Shaped n) (h : Repeats R ts ns) : ∀ n ∈ ns, Shaped n := by
  induction h with
  | none => exact List.forall_mem_nil _
  | more h _ ih => exact List.forall_mem_append.mpr ⟨hR _ _ h, ih⟩

theorem ShapedOnce.all (h : ShapedOnce ts ns) : ∀ n ∈ ns, Shaped n := by
  obtain ⟨-, n, rfl, hn⟩ := h
  exact List.forall_mem_singleton.mpr hn

theorem mem_texts_of_level {level : Level} {t : Token} (h : t.Is level.terminal) :
    String.ofList t.text ∈ level.terminal.texts := by
  obtain ⟨hk, hs⟩ := h
  have htext : t.text ∈ level.terminal.texts.map String.toList := by
    rw [Token.Spelled, hk] at hs
    cases level <;> exact hs
  obtain ⟨op, hop, heq⟩ := List.mem_map.mp htext
  rwa [← heq, String.ofList_toList]

/-! ## Productions -/

theorem shaped_operators {level : Level} {p : Production} (mem : p ∈ level.rule.productions)
    (h : p.phrase.Holds ShapedAs ts ns) : ShapedOnce ts (p.shaping.apply ts ns) := by
  have hrule : ShapedAs level.rule = ShapedOnce := by cases level <;> rfl
  have hinner : ShapedAs level.inner = ShapedOnce := by cases level <;> rfl
  have hparts := parts_operators mem h
  rw [hrule, hinner] at hparts
  rcases hparts with ⟨l, hp, h⟩ | ⟨hp, us, vs, t, ks, ms, hl, ht, hr, rfl, rfl⟩
  · rw [hp]
    exact h.passSingle l
  · obtain ⟨-, lhs, rfl, hlhs⟩ := hl
    obtain ⟨-, rhs, rfl, hrhs⟩ := hr
    rw [hp]
    exact .tree (by simp) fun s => .binary level _ s (mem_texts_of_level ht) hlhs hrhs

theorem shaped_arguments (h : Arguments ShapedOnce ts ns) : ∀ n ∈ ns, Shaped n := by
  rcases h with ⟨-, rfl⟩ | ⟨us, ks, vs, ms, he, hrest, rfl, rfl⟩
  · exact List.forall_mem_nil _
  · refine List.forall_mem_append.mpr ⟨he.all, shaped_of_repeats ?_ hrest⟩
    rintro _ _ ⟨_, _, _, hx, rfl⟩
    exact hx.all

theorem shaped_conditional {a b : Terminal} {l : Label}
    (hwords : ∀ k, k = a ∨ k = b → ∃ w : Keyword, w.terminal = k ∧ w.label = l)
    (h : (Phrase.conditional a b).Holds ShapedAs ts ns) :
    ShapedOnce ts [.tree l ns (placeOf ts)] := by
  obtain ⟨k, us, vs, ws, ks, ms, os, hword, hs, ⟨-, c, rfl, hc⟩, ⟨-, b, rfl, hb⟩, ho, rfl, rfl⟩ :=
    parts_conditional h
  obtain ⟨w, hw, rfl⟩ := hwords k.terminal hword
  have helse : os.length ≤ 1 ∧ ∀ n ∈ os, Shaped n := by
    rcases ho with ⟨-, rfl⟩ | ⟨_, _, _, ⟨-, n, rfl, hn⟩, -⟩
    · exact ⟨Nat.zero_le 1, List.forall_mem_nil _⟩
    · exact ⟨Nat.le_refl 1, List.forall_mem_singleton.mpr hn⟩
  rw [keyword_nodes ⟨hw.symm, hs⟩]
  exact .tree (by simp) fun s => .conditional w _ s hc hb helse.1 helse.2

theorem shaped_atom {p : Production} (mem : p ∈ Rule.atom.productions)
    (h : p.phrase.Holds ShapedAs ts ns) : ShapedOnce ts (p.shaping.apply ts ns) := by
  simp only [Rule.productions, List.mem_cons, List.not_mem_nil, or_false] at mem
  rcases mem with rfl | rfl | rfl | rfl | rfl
  · exact ShapedOnce.passSingle _ h
  · obtain ⟨t, ht, _, rfl, rfl⟩ := h
    rw [nodes_of_kind (by rw [ht]; rfl)]
    exact .tree (by simp) fun s => .name _ _ s
  · exact ShapedOnce.passSingle _ h
  · obtain ⟨t, us, _, ⟨-, n, rfl, hn⟩, rfl⟩ := parts_negate h
    exact .tree (by simp) fun s => .negate s hn
  · obtain ⟨l, r, us, _, _, ⟨-, n, rfl, hn⟩, rfl⟩ := parts_paren h
    exact ⟨by simp, n, rfl, hn⟩

theorem shaped_production (r : Rule) (p : Production) (mem : p ∈ r.productions) (ts : List Token)
    (ns : List Node) (h : p.phrase.Holds ShapedAs ts ns) :
    ShapedAs r ts (p.shaping.apply ts ns) := by
  cases r with
  | program =>
    obtain rfl := List.mem_singleton.mp mem
    exact ⟨ns, _, rfl, shaped_of_repeats (fun _ _ h => ShapedOnce.all h) h⟩
  | line =>
    simp only [Rule.productions, List.mem_cons, List.not_mem_nil, or_false] at mem
    rcases mem with rfl | rfl | rfl
    · exact h
    · exact h
    · exact h
  | statement =>
    obtain rfl := List.mem_singleton.mp mem
    obtain ⟨us, hsimple, hend⟩ := parts_statement h
    have honce : ShapedOnce us ns := by
      rcases hsimple with h | h
      · exact h
      · exact h
    rcases hend with rfl | ⟨t, _, rfl⟩
    · exact honce
    · exact ⟨by simp, honce.2⟩
  | block =>
    obtain rfl := List.mem_singleton.mp mem
    obtain ⟨l, r, us, _, _, hlines, rfl⟩ := parts_block h
    exact .tree (by simp) fun s =>
      .block s (shaped_of_repeats (fun _ _ h => ShapedOnce.all h) hlines)
  | assignment =>
    obtain rfl := List.mem_singleton.mp mem
    obtain ⟨t, a, us, ms, _, _, ⟨-, n, rfl, hn⟩, rfl, rfl⟩ := parts_assignment h
    exact .tree (by simp) fun s => .assignment _ _ s hn
  | functionCall =>
    obtain rfl := List.mem_singleton.mp mem
    obtain ⟨t, l, r, us, ms, _, _, _, hargs, rfl, rfl⟩ := parts_call h
    exact .tree (by simp) fun s => .call _ _ s (shaped_arguments hargs)
  | ifBlock =>
    obtain rfl := List.mem_singleton.mp mem
    exact shaped_conditional ifBlock_words h
  | whileBlock =>
    obtain rfl := List.mem_singleton.mp mem
    exact shaped_conditional whileBlock_words h
  | elseBlock =>
    have hone : ShapedOnce ts ns ∧ p.shaping = .tree .elseBlock := by
      simp only [Rule.productions, List.mem_cons, List.not_mem_nil, or_false] at mem
      rcases mem with rfl | rfl | rfl
      · exact ⟨h, rfl⟩
      · exact ⟨h, rfl⟩
      · exact ⟨h, rfl⟩
    obtain ⟨⟨hne, n, rfl, hn⟩, hp⟩ := hone
    rw [hp]
    exact .tree hne fun s => .elseBlock s hn
  | expression => exact @shaped_operators _ _ .comparison p mem h
  | sum => exact @shaped_operators _ _ .sum p mem h
  | product => exact @shaped_operators _ _ .product p mem h
  | atom => exact shaped_atom mem h
  | constant =>
    obtain ⟨hp, t, kind, hk, rfl, rfl⟩ := parts_constant mem h
    rw [hp, nodes_of_kind (literal_kind hk)]
    exact .tree (by simp) fun s => .constant kind _ _ s

/-- The statements of a derived program have the right shape. -/
theorem shaped_of_derives {n : Node} (h : Derives (.rule .program) ts [n]) :
    ∀ m ∈ n.kids, Shaped m := by
  obtain ⟨kids, place, heq, hkids⟩ := h.holds shaped_production
  rw [List.singleton_inj.mp heq]
  exact hkids

/-- The statements of a source that is read have the right shape. -/
theorem shaped_of_read {source : String} {program : Program} (h : read source = .ok program) :
    ∀ m ∈ program.toNode.kids, Shaped m := by
  obtain ⟨_, _, _, _, hd⟩ := pieces_of_read h
  exact shaped_of_derives hd

end Scriptlet.Source
