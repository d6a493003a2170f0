import Scriptlet.Proofs.Choosing
/-!
# Exchanging branches

A conditional under `if` is a conditional under `unless` with its branches exchanged. Main
statement: a program does what it does when all of its conditionals, at every depth, are turned
round in this way (`evaluates_exchanged`).
-/

namespace Scriptlet

open Run
open Source (Keyword Guard Expr Block Otherwise Conditional Statement Program)

namespace Node

/-- The keyword that wants the contrary, in the same place. -/
def contrary : Node → Node
  | .token .ifWord _ place => .token .unlessWord "unless" place
  | .token .unlessWord _ place => .token .ifWord "if" place
  | n => n

/-- The node with every conditional in it turned round: its keyword wants the contrary, its body is
what the else branch held, or an empty block if there was none, and its else branch holds what was
the body. What is new stands nowhere. -/
def exchanged : Node → Node
  | .tree .ifBlock [keyword, condition, body] place =>
    .tree .ifBlock [keyword.contrary, condition.exchanged, .tree .block [] .unknown,
      .tree .elseBlock [body.exchanged] .unknown] place
  | .tree .ifBlock [keyword, condition, body, .tree .elseBlock [branch] _] place =>
    .tree .ifBlock [keyword.contrary, condition.exchanged, branch.exchanged,
      .tree .elseBlock [body.exchanged] .unknown] place
  | .tree label kids place => .tree label (exchangedAll kids) place
  | .token kind text place => .token kind text place
where
  exchangedAll : List Node → List Node
    | [] => []
    | n :: ns => n.exchanged :: exchangedAll ns

end Node

open Node

theorem exchangedAll_eq (ns : List Node) : exchanged.exchangedAll ns = ns.map exchanged := by
  induction ns with
  | nil => rw [exchanged.exchangedAll, List.map_nil]
  | cons n ns ih => rw [exchanged.exchangedAll, List.map_cons, ih]

@[simp] theorem exchanged_token (kind : TokenKind) (text : String) (place : Place) :
    (Node.token kind text place).exchanged = .token kind text place := by
  rw [exchanged]

/-- Only conditionals are turned round. -/
theorem exchanged_tree {label : Label} (h : label ≠ .ifBlock) (kids : List Node) (place : Place) :
    (Node.tree label kids place).exchanged = .tree label (kids.map exchanged) place := by
  rw [exchanged, exchangedAll_eq]
  · rintro _ _ _ rfl
    exact absurd rfl h
  · rintro _ _ _ _ _ rfl
    exact absurd rfl h

/-! ## Expressions -/

mutual

/-- There are no conditionals in an expression. -/
theorem exchanged_expr : ∀ e : Expr, e.toNode.exchanged = e.toNode
  | .literal kind w => by
    rw [Expr.toNode, exchanged_tree (by decide)]
    simp [Source.Word.toNode]
  | .name w => by
    rw [Expr.toNode, exchanged_tree (by decide)]
    simp [Source.Word.toNode]
  | .call callee args span => by
    rw [Expr.toNode, exchanged_tree (by decide), List.map_cons, exchanged_exprs args]
    simp [Source.Word.toNode]
  | .negate operand span => by
    rw [Expr.toNode, exchanged_tree (by decide), List.map_singleton, exchanged_expr operand]
  | .binary level lhs op rhs span => by
    rw [Expr.toNode, exchanged_tree (by cases level <;> decide), List.map_cons, List.map_cons,
      List.map_singleton, exchanged_expr lhs, exchanged_expr rhs]
    simp [Source.Word.toNode]

theorem exchanged_exprs : ∀ es : List Expr, (Expr.toNodes es).map exchanged = Expr.toNodes es
  | [] => rfl
  | e :: es => by rw [Expr.toNodes, List.map_cons, exchanged_expr e, exchanged_exprs es]

end

/-! ## Conditionals -/

section

variable {host : Host} {rounds : Nat}

def contraryWord : Keyword → Keyword
  | .ifWord => .unlessWord
  | .unlessWord => .ifWord
  | .whileWord => .untilWord
  | .untilWord => .whileWord

theorem contrary_keyword {w : Keyword} (hw : w.label = .ifBlock) (place : Place) :
    (Node.token w.tokenKind w.text place).contrary =
      .token (contraryWord w).tokenKind (contraryWord w).text place := by
  cases w <;> first | rfl | cases hw

theorem label_contraryWord (w : Keyword) : (contraryWord w).label = w.label := by
  cases w <;> rfl

/-- Under the contrary keyword, a condition is met where it is not met otherwise. -/
theorem check_contraryWord (w : Keyword) (c : Node) :
    check host rounds (contraryWord w) (contraryWord w).text c =
      (do let met ← check host rounds w w.text c; pure !met) := by
  have hmet (v : Value) :
      ofExcept (conditionMet (contraryWord w).text (positive (contraryWord w)) v) =
      (do let met ← ofExcept (conditionMet w.text (positive w) v); pure !met) := by
    cases v with
    | bool b =>
      rw [conditionMet_bool, conditionMet_bool]
      cases w <;> cases b <;> rfl
    | null | int | float | string | callable => cases w <;> rfl
  simp only [check, bind_assoc]
  exact congrArg _ (funext hmet)

theorem located_unknown {α : Type} (r : Run α) : located .unknown r = r := by
  funext s
  have hsame (f : Failure) : f.leaving .unknown = f := by
    obtain ⟨fault, location⟩ := f
    cases location with
    | none => simp [Failure.leaving, Place.location]
    | some l => simp [Failure.leaving]
  rw [located]
  split
  next h => rw [h, hsame]
  next => rfl

mutual

/-- A conditional has no value of its own. -/
theorem bind_null_conditional (host : Host) (rounds : Nat) : ∀ c : Conditional,
    (do let _ ← eval host rounds c.toNode; pure Value.null) = eval host rounds c.toNode
  | .mk guard body otherwise span => by
    rw [Conditional.toNode, eval_conditional host rounds guard.keyword guard.keyword.text _ _ _ _
      (single_otherwise otherwise), located_bind_pure, bind_assoc]
    refine congrArg _ (congrArg _ (funext fun met => ?_))
    cases met with
    | true => simp only [if_true, bind_assoc, pure_bind]
    | false => exact bind_null_otherwise host rounds otherwise

theorem bind_null_otherwise (host : Host) (rounds : Nat) : ∀ otherwise : Otherwise,
    (do let _ ← evalElse host rounds otherwise.toNodes; pure Value.null) =
      evalElse host rounds otherwise.toNodes
  | .absent => rfl
  | .block b => by
    rw [evalElse_eq]
    exact bind_null_block host rounds b
  | .chain c => by
    rw [evalElse_eq]
    exact bind_null_conditional host rounds c

end

/-- What is the body of a conditional that is turned round. -/
def turnedBody (otherwise : Otherwise) : Node :=
  match branch? otherwise with
  | none => .tree .block [] .unknown
  | some e => e.exchanged

theorem exchanged_link {guard : Guard} {body : Block} {otherwise : Otherwise} {span : Source.Span}
    (hw : guard.keyword.label = .ifBlock) :
    (Conditional.mk guard body otherwise span).toNode.exchanged =
      .tree (contraryWord guard.keyword).label
        [.token (contraryWord guard.keyword).tokenKind (contraryWord guard.keyword).text
          (.span guard.span), guard.condition.toNode, turnedBody otherwise,
          .tree .elseBlock [body.toNode.exchanged] .unknown] (.span span) := by
  rw [Conditional.toNode, label_contraryWord, hw, ← contrary_keyword hw]
  cases otherwise with
  | absent | block b | chain c =>
    rw [Otherwise.toNodes, exchanged, exchanged_expr]
    rfl

/-- With its branches exchanged under the contrary keyword, a conditional does the same. -/
theorem eval_exchanged_link {guard : Guard} {body : Block} {otherwise : Otherwise}
    {span : Source.Span} (hw : guard.keyword.label = .ifBlock)
    (hbody : eval host rounds body.toNode.exchanged = eval host rounds body.toNode)
    (hotherwise : ∀ e ∈ branch? otherwise,
      eval host rounds e.exchanged = eval host rounds e) :
    eval host rounds (Conditional.mk guard body otherwise span).toNode.exchanged =
      eval host rounds (Conditional.mk guard body otherwise span).toNode := by
  have hturned : (do let _ ← eval host rounds (turnedBody otherwise); pure Value.null) =
      evalElse host rounds otherwise.toNodes := by
    rw [← bind_null_otherwise host rounds otherwise, evalElse_eq, turnedBody]
    cases hbranch : branch? otherwise with
    | none =>
      rw [eval_statements host rounds (.inr rfl), located_unknown, evalAll]
      rfl
    | some e => rw [hotherwise e hbranch]
  have helse : evalElse host rounds [.tree .elseBlock [body.toNode.exchanged] .unknown] =
      eval host rounds body.toNode := by
    rw [evalElse, eval, located_unknown, hbody]
  have hsingle : [Node.tree .elseBlock [body.toNode.exchanged] .unknown].length ≤ 1 := Nat.le_refl 1
  rw [exchanged_link hw, eval_conditional host rounds _ _ _ _ _ _ hsingle,
    proceed_ifBlock ((label_contraryWord _).trans hw), check_contraryWord, eval_link hw, helse]
  simp only [once, bind_assoc, pure_bind]
  rw [hturned]
  refine congrArg _ (congrArg _ (funext fun met => ?_))
  cases met <;> rfl

theorem eval_exchanged_loop {guard : Guard} {body : Block} {otherwise : Otherwise}
    {span : Source.Span} (hw : guard.keyword.label ≠ .ifBlock)
    (hbody : eval host rounds body.toNode.exchanged = eval host rounds body.toNode)
    (hotherwise : ∀ e ∈ branch? otherwise,
      eval host rounds e.exchanged = eval host rounds e) :
    eval host rounds (Conditional.mk guard body otherwise span).toNode.exchanged =
      eval host rounds (Conditional.mk guard body otherwise span).toNode := by
  have helse : evalElse host rounds (otherwise.toNodes.map exchanged) =
      evalElse host rounds otherwise.toNodes := by
    cases otherwise with
    | absent => rfl
    | block b =>
      rw [Otherwise.toNodes, List.map_singleton, exchanged_tree (by decide), List.map_singleton,
        evalElse, evalElse, eval, eval, hotherwise _ rfl]
    | chain c =>
      rw [Otherwise.toNodes, List.map_singleton, exchanged_tree (by decide), List.map_singleton,
        evalElse, evalElse, eval, eval, hotherwise _ rfl]
  have honce : once host rounds body.toNode.exchanged = once host rounds body.toNode := by
    rw [once, once, hbody]
  have hsingle : (otherwise.toNodes.map exchanged).length ≤ 1 :=
    (List.length_map _).trans_le (single_otherwise otherwise)
  rw [Conditional.toNode, exchanged_tree hw]
  simp only [List.map_cons, exchanged_token, exchanged_expr]
  rw [eval_conditional host rounds _ _ _ _ _ _ hsingle,
    eval_conditional host rounds _ _ _ _ _ _ (single_otherwise otherwise), helse]
  have hproceed : proceed host rounds guard.keyword guard.keyword.text guard.condition.toNode
      body.toNode.exchanged = proceed host rounds guard.keyword guard.keyword.text
        guard.condition.toNode body.toNode := by
    cases hk : guard.keyword <;> simp only [proceed, honce]
  rw [hproceed]

/-! ## Programs -/

mutual

theorem eval_exchanged_statement : ∀ st : Statement,
    eval host rounds st.toNode.exchanged = eval host rounds st.toNode
  | .assign target value span => by
    rw [Statement.toNode, exchanged_tree (by decide), List.map_cons, List.map_singleton,
      exchanged_expr, Source.Word.toNode, exchanged_token]
  | .call callee args span => by
    rw [Statement.toNode, exchanged_tree (by decide), List.map_cons, exchanged_exprs,
      Source.Word.toNode, exchanged_token]
  | .conditional c => eval_exchanged_conditional c

theorem eval_exchanged_conditional : ∀ c : Conditional,
    eval host rounds c.toNode.exchanged = eval host rounds c.toNode
  | .mk guard body otherwise span => by
    by_cases hw : guard.keyword.label = .ifBlock
    · exact eval_exchanged_link hw (eval_exchanged_block body) (eval_exchanged_otherwise otherwise)
    · exact eval_exchanged_loop hw (eval_exchanged_block body) (eval_exchanged_otherwise otherwise)

theorem eval_exchanged_otherwise : ∀ otherwise : Otherwise, ∀ e ∈ branch? otherwise,
    eval host rounds e.exchanged = eval host rounds e
  | .absent => nofun
  | .block b => fun e he => by
    obtain rfl := Option.some.inj he
    exact eval_exchanged_block b
  | .chain c => fun e he => by
    obtain rfl := Option.some.inj he
    exact eval_exchanged_conditional c

theorem eval_exchanged_block : ∀ b : Block,
    eval host rounds b.toNode.exchanged = eval host rounds b.toNode
  | .mk statements span => by
    rw [Block.toNode, exchanged_tree (by decide), eval_statements host rounds (.inr rfl),
      eval_statements host rounds (.inr rfl), evalAll_exchanged statements]

theorem evalAll_exchanged : ∀ ss : List Statement,
    evalAll host rounds ((Statement.toNodes ss).map exchanged) =
      evalAll host rounds (Statement.toNodes ss)
  | [] => rfl
  | st :: ss => by
    rw [Statement.toNodes, List.map_cons, evalAll, evalAll, eval_exchanged_statement st,
      evalAll_exchanged ss]

end

theorem eval_exchanged (program : Program) :
    eval host rounds program.toNode.exchanged = eval host rounds program.toNode := by
  rw [Program.toNode, exchanged_tree (by decide), eval_statements host rounds (.inl rfl),
    eval_statements host rounds (.inl rfl), evalAll_exchanged]

end

/-- With all its conditionals turned round, a program does what it does: in every environment, and
however many rounds its loops may take, it comes to the same result, with the same failure in the
same place if it fails, in the same environment and with the same output, and is out of rounds where
it is. So it comes to an outcome, given rounds enough, exactly where the program does, and to the
same. -/
theorem evaluates_exchanged (host : Host) (env : Environment) (program : Program) :
    (∀ rounds, (Setting.mk host rounds).evalNode env program.toNode.exchanged =
        (Setting.mk host rounds).evalNode env program.toNode) ∧
      ∀ o, host.Evaluates env program.toNode.exchanged o ↔ host.Evaluates env program.toNode o := by
  have heval (rounds : Nat) : (Setting.mk host rounds).evalNode env program.toNode.exchanged =
      (Setting.mk host rounds).evalNode env program.toNode := by
    rw [Setting.evalNode, Setting.evalNode, eval_exchanged]
  refine ⟨heval, fun o => ?_⟩
  rw [Host.Evaluates, Host.Evaluates]
  exact exists_congr fun rounds => by rw [heval]

/-- A conditional in a loop and one in the else branch of the loop, both turned round. -/
example :
    let source := "while y \x7b unless x \x7b a() \x7d \x7d else if z \x7b\x7d"
    let turned :=
      "while y \x7b if x \x7b\x7d else \x7b a() \x7d \x7d else unless z \x7b\x7d else \x7b\x7d"
    (Source.read source).toOption.map (fun p => p.toNode.exchanged.unplaced.describe) =
      (Source.read turned).toOption.map fun p => p.toNode.unplaced.describe := by
  decide +kernel

end Scriptlet
