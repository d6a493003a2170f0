import Scriptlet.Proofs.Summing
/-!
# Chains that a source writes

A source that binds a name to terms with a `+` between any two, each an atom of the grammar, reads
as a chain of these terms. Nothing in the writing says how the terms group; that they group to the
left is what the reader makes of them. Main statement: `sums_of_bindsSum`, which adds what such a
chain comes to.
-/

namespace Scriptlet

namespace Source

def plusSign : Operator .sum := ⟨['+'], @spells_of_mem_texts .addOp "+" (by decide)⟩

/-- The sum of a term and some more, grouped to the left. -/
def Term.plus (t : Term) (ts : List Term) : Term :=
  ts.foldl (fun lhs x => .binary .sum lhs plusSign x) t

inductive WritesSum : List Term → List Token → Prop where
  | last {t : Term} {ts : List Token} (h : Writes (.term 3 t) ts) : WritesSum [t] ts
  | more {t : Term} {rest : List Term} {sign : Token} {ts us : List Token}
      (h : Writes (.term 3 t) ts) (hk : sign.terminal = .addOp) (hx : sign.text = ['+'])
      (hrest : WritesSum rest us) : WritesSum (t :: rest) (ts ++ sign :: us)

/-- A source that binds a name to atoms with a `+` between any two. -/
def BindsSum (target : Name) (terms : List Term) (source : String) : Prop :=
  ∃ pieces last, source.toList = written pieces ++ last ∧ (∀ x ∈ pieces, Gap x.gap) ∧
    Trailing last ∧ Apart pieces ∧ ∃ t a ts, placed .start pieces = t :: a :: ts ∧
      t.Names target ∧ a.Is .assign ∧ WritesSum terms ts

/-! ## Writing -/

/-- What may stand in the place of a term may stand where less is asked for. -/
theorem Writes.lower {r r' : Nat} {t : Term} {ts : List Token} (h : Writes (.term r t) ts)
    (hle : r' ≤ r) : Writes (.term r' t) ts := by
  cases h with
  | paren ha h hb => exact .paren ha h hb
  | constant hk hx => exact .constant hk hx
  | name ht => exact .name ht
  | call ht ha h hb => exact .call ht ha h hb
  | negate ht h => exact .negate ht h
  | binary hr hx hk ht hy => exact .binary (Nat.le_trans hle hr) hx hk ht hy

/-- One more atom behind a sum. -/
theorem writes_add {t x : Term} {ts us : List Token} {sign : Token} (ht : Writes (.term 1 t) ts)
    (hk : sign.terminal = .addOp) (hx : sign.text = ['+']) (h : Writes (.term 3 x) us) :
    Writes (.term 1 (.binary .sum t plusSign x)) (ts ++ sign :: us) :=
  @Writes.binary 1 .sum t x plusSign sign ts us (Nat.le_refl 1) ht hk hx (h.lower (Nat.le_succ 2))

/-- More atoms behind a sum. -/
theorem WritesSum.behind {rest : List Term} {us : List Token} (h : WritesSum rest us) {t : Term}
    {ts : List Token} {sign : Token} (ht : Writes (.term 1 t) ts)
    (hk : sign.terminal = .addOp) (hx : sign.text = ['+']) :
    Writes (.term 1 (t.plus rest)) (ts ++ sign :: us) := by
  induction h generalizing t ts sign with
  | last h => exact writes_add ht hk hx h
  | more h hk' hx' _ ih =>
    have hstep := ih (writes_add ht hk hx h) hk' hx'
    rw [List.append_assoc, List.cons_append] at hstep
    exact hstep

theorem WritesSum.writes {t : Term} {rest : List Term} {ts : List Token}
    (h : WritesSum (t :: rest) ts) : Writes (.term 0 (t.plus rest)) ts := by
  cases h with
  | last h => exact h.lower (Nat.zero_le 3)
  | more h hk hx hrest =>
    exact (hrest.behind (h.lower (Nat.le_add_right 1 2)) hk hx).lower (Nat.zero_le 1)

theorem BindsSum.renders {target : Name} {t : Term} {rest : List Term} {source : String}
    (h : BindsSum target (t :: rest) source) :
    Script.Renders [.assign target (t.plus rest)] source := by
  obtain ⟨pieces, last, hsource, hgaps, hlast, hapart, x, a, ts, hplaced, hx, ha, hts⟩ := h
  refine ⟨pieces, last, hsource, hgaps, hlast, hapart, ?_⟩
  have hwrites : Writes (.sentences [.assign target (t.plus rest)]) (x :: a :: ts ++ []) :=
    .more (writes_assign hx ha hts.writes) .nothing
  rw [List.append_nil] at hwrites
  rw [hplaced]
  exact hwrites

/-! ## Reading -/

theorem Term.plus_concat (t : Term) (ts : List Term) (x : Term) :
    t.plus (ts ++ [x]) = .binary .sum (t.plus ts) plusSign x :=
  List.foldl_concat ..

/-- An expression with the tree of a sum is a sum. -/
theorem add_of_unplaced {e : Expr} {lhs rhs : Node}
    (h : e.toNode.unplaced =
      .tree .additive [lhs, .token .addOp "+" .unknown, rhs] .unknown) :
    ∃ (d : Expr) (x : Summand), e = d.add x ∧ d.toNode.unplaced = lhs ∧
      x.operand.toNode.unplaced = rhs := by
  cases e with
  | literal kind word | name word | call callee args span | negate operand span =>
    rw [Expr.toNode, unplaced_tree] at h
    cases h
  | binary level a operator b span =>
    rw [Expr.toNode, unplaced_tree] at h
    obtain ⟨hlabel, hkids, -⟩ := Node.tree.inj h
    obtain ⟨text, sign⟩ := operator
    cases level with
    | comparison | product => cases hlabel
    | sum =>
      simp only [List.map_cons, List.map_nil, List.cons.injEq, Word.toNode, Node.unplaced,
        Node.token.injEq] at hkids
      obtain ⟨ha, ⟨-, rfl, -⟩, hb, -⟩ := hkids
      exact ⟨a, ⟨sign, b, span⟩, rfl, ha, hb⟩

theorem plus_of_unplaced {e : Expr} {t : Term} {ts : List Term}
    (h : e.toNode.unplaced = (t.plus ts).toNode) :
    ∃ (d : Expr) (rest : List Summand), e = d.plus rest ∧
      (d.terms rest).map (·.toNode.unplaced) = (t :: ts).map Term.toNode := by
  induction ts using List.reverseRecOn generalizing e with
  | nil => exact ⟨e, [], rfl, congrArg (fun n => [n]) h⟩
  | append_singleton ts x ih =>
    rw [Term.plus_concat, Term.toNode] at h
    obtain ⟨lhs, s, rfl, hlhs, hs⟩ := add_of_unplaced h
    obtain ⟨d, rest, rfl, hmap⟩ := ih hlhs
    refine ⟨d, rest ++ [s], (List.foldl_concat ..).symm, ?_⟩
    rw [Expr.terms] at hmap ⊢
    rw [List.map_append, ← List.cons_append, List.map_append, hmap, List.map_singleton,
      List.map_singleton, hs, ← List.map_singleton, ← List.map_append, List.cons_append]

/-- A statement with the tree of an assignment is that assignment. -/
theorem assignment_of_unplaced {statement : Statement} {target : Name} {value : Term}
    (h : statement.toNode.unplaced = (Sentence.assign target value).toNode) :
    ∃ (a span : Span) (e : Expr), statement = .assign ⟨String.ofList target.text, a⟩ e span ∧
      e.toNode.unplaced = value.toNode := by
  rw [Sentence.toNode] at h
  cases statement with
  | assign word e span =>
    rw [Statement.toNode, unplaced_tree] at h
    obtain ⟨text, a⟩ := word
    simp only [List.map_cons, List.map_nil, Node.tree.injEq, List.cons.injEq, Word.toNode,
      Name.toNode, Node.unplaced, Node.token.injEq] at h
    obtain ⟨-, ⟨⟨-, rfl, -⟩, he, -⟩, -⟩ := h
    exact ⟨a, span, e, rfl, he⟩
  | call callee args span =>
    rw [Statement.toNode, unplaced_tree] at h
    cases h
  | conditional c =>
    obtain ⟨guard, body, otherwise, span⟩ := c
    rw [Statement.toNode, Conditional.toNode, unplaced_tree] at h
    have hlabel := (Node.tree.inj h).1
    cases hw : guard.keyword <;> rw [hw] at hlabel <;> cases hlabel

/-- A program with the tree of one sentence is one statement with this tree. -/
theorem single_of_unplaced {program : Program} {sentence : Sentence}
    (h : program.toNode.unplaced = Script.toNode [sentence]) :
    ∃ statement, program.statements = [statement] ∧
      statement.toNode.unplaced = sentence.toNode := by
  obtain ⟨statements, extent⟩ := program
  rw [Program.toNode, Script.toNode, unplaced_tree] at h
  have hkids := (Node.tree.inj h).2.1
  cases statements with
  | nil => cases hkids
  | cons statement rest =>
    obtain ⟨hstatement, hrest⟩ := List.cons.inj hkids
    cases rest with
    | nil => exact ⟨statement, rfl, hstatement⟩
    | cons => cases hrest

theorem reads_of_bindsSum {target : Name} {t : Term} {ts : List Term} {source : String}
    (h : BindsSum target (t :: ts) source) :
    ∃ (e : Expr) (rest : List Summand) (a span : Span) (extent : Option Span),
      read source = .ok ⟨[.assign ⟨String.ofList target.text, a⟩ (e.plus rest) span], extent⟩ ∧
        (e.terms rest).map (·.toNode.unplaced) = (t :: ts).map Term.toNode := by
  obtain ⟨⟨statements, extent⟩, hread, hprogram⟩ := read_of_renders h.renders
  obtain ⟨statement, rfl, hstatement⟩ := single_of_unplaced hprogram
  obtain ⟨a, span, value, rfl, hvalue⟩ := assignment_of_unplaced hstatement
  obtain ⟨e, rest, rfl, hterms⟩ := plus_of_unplaced hvalue
  exact ⟨e, rest, a, span, extent, hread, hterms⟩

end Source

open Source

/-- A source that binds a name to atoms with a `+` between any two reads as the chain of these
atoms, grouped to the left. What this chain comes to in any state depends on the values of the atoms
there, in their order. -/
theorem sums_of_bindsSum {target : Name} {t : Term} {ts : List Term} {source : String}
    (h : BindsSum target (t :: ts) source) :
    ∃ (e : Expr) (rest : List Summand) (a span : Span) (extent : Option Span),
      read source = .ok ⟨[.assign ⟨String.ofList target.text, a⟩ (e.plus rest) span], extent⟩ ∧
        (e.terms rest).map (·.toNode.unplaced) = (t :: ts).map Term.toNode ∧
        ∀ (host : Host) rounds s, host.Sums rounds e rest s := by
  obtain ⟨e, rest, a, span, extent, hread, hterms⟩ := reads_of_bindsSum h
  exact ⟨e, rest, a, span, extent, hread, hterms, fun host rounds s =>
    chain_sums host rounds e rest s⟩

/-- A number, a text and `null`. -/
theorem sums_of_bindsSum_mixed :
    let source := "x = 1 + 'a' + null"
    ∃ (target : Name) (t : Term) (ts : List Term), BindsSum target (t :: ts) source ∧
      (t :: ts).map Term.toNode =
        [.tree .constant [.token .integer "1" .unknown] .unknown,
          .tree .constant [.token .string "'a'" .unknown] .unknown,
          .tree .constant [.token .nullWord "null" .unknown] .unknown] ∧
      ∃ (e : Expr) (rest : List Summand) (a span : Span) (extent : Option Span),
        read source = .ok ⟨[.assign ⟨"x", a⟩ (e.plus rest) span], extent⟩ ∧
          (e.terms rest).map (·.toNode.unplaced) = (t :: ts).map Term.toNode ∧
          ∀ (host : Host) rounds s, host.Sums rounds e rest s := by
  intro source
  let x : Name := ⟨['x'], ⟨'x', [], rfl, rfl, List.forall_mem_nil _⟩, by decide⟩
  let one : Constant := ⟨.integer, ['1'], by decide, List.forall_mem_singleton.mpr rfl⟩
  let a : Constant := ⟨.string, "'a'".toList, '\x27', ['a'], .inr rfl, by decide, rfl⟩
  let null : Constant :=
    ⟨.nullWord, "null".toList, @spells_of_mem_texts .nullWord "null" (by decide)⟩
  let pieces : List Piece :=
    [⟨[], .identifier, ['x']⟩, ⟨[' '], .assign, ['=']⟩, ⟨[' '], .integer, ['1']⟩,
      ⟨[' '], .addOp, ['+']⟩, ⟨[' '], .string, "'a'".toList⟩, ⟨[' '], .addOp, ['+']⟩,
      ⟨[' '], .nullWord, "null".toList⟩]
  have hbinds : BindsSum x [.constant one, .constant a, .constant null] source := by
    refine ⟨pieces, [], by decide +kernel, ?_, .gap .nil, ?_, _, _, _, rfl, ⟨rfl, rfl⟩,
      is_piece (by decide) _, ?_⟩
    · simp [pieces, gap_space, Gap.nil]
    · simp [Apart, pieces, Terminal.isWord]
    · exact @WritesSum.more _ _ _ [_] _ (.constant rfl rfl) rfl rfl
        (@WritesSum.more _ _ _ [_] _ (.constant rfl rfl) rfl rfl (.last (.constant rfl rfl)))
  exact ⟨x, _, _, hbinds, rfl, sums_of_bindsSum hbinds⟩

/-- The sign adds, and then writes texts one behind the other. -/
example :
    (((Setting.mk .standard 1).runSource Registry.standard.environment
      "x = 1 + 2 + 'a' + null + 3").env.get? "x").map Value.display = some "3anull3" := by
  decide +kernel

end Scriptlet
